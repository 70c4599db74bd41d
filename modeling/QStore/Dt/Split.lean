import QStore.Dt.Placed
import Mathlib.Data.Tree.Basic

/-!
# QStore.Dt.Split

`split`, the recursion that builds the tree. A call for rows `lb`, .., `ub - 1`
looks for a split, brings the rows of the left side to the front in every feature
(`reorder`), and goes on with each side; a node is allocated for a side before
its call, so the node of a call is always the last one allocated when it starts.

`calls` is the tree of the calls that a run makes, each with the state it starts
from.
-/

namespace QStore.Dt

/-- `node_t`, less the fields that nothing sets. -/
structure Node where
  depth : Int := -1
  lchildId : Int := -1
  rchildId : Int := -1
  parentId : Int := -1
  nH : Nat := 0
  nT : Nat := 0
  deriving DecidableEq

/-- `Y`, `to`, `tmpY`, `g_tree` and `g_n_tree`. -/
structure St where
  Y : Nat → Nat → Nat
  tos : Nat → Nat → Nat
  tmpY : Nat → Nat → Nat
  tree : Nat → Node
  nTree : Nat

/-- The other arguments of `split`. -/
structure Call where
  lb : Nat
  ub : Nat
  nT : Nat
  nH : Nat
  depth : Nat
  deriving DecidableEq

/-! ## reorder -/

/-- The loop of `reorder` for feature `j`; `to_split_j` is `to[sj]`. -/
structure Reorder where
  tmpY : Nat → Nat
  tos : Nat → Nat → Nat
  lidx : Nat
  ridx : Nat

/-- `to_j[from_i] = idx`. -/
def setTo (tos : Nat → Nat → Nat) (j row idx : Nat) : Nat → Nat → Nat :=
  Function.update tos j (Function.update (tos j) row idx)

def reorderStep (Yj : Nat → Nat) (j sj yidx : Nat) (r : Reorder) (i : Nat) : Reorder :=
  let row := getFrom (Yj i)
  if r.tos sj row < yidx then
    { r with tmpY := Function.update r.tmpY r.lidx (Yj i)
             tos := setTo r.tos j row r.lidx
             lidx := r.lidx + 1 }
  else
    { r with tmpY := Function.update r.tmpY r.ridx (Yj i)
             tos := setTo r.tos j row r.ridx
             ridx := r.ridx + 1 }

/-- `reorder`, with `*ptr_lidx = lb` and `*ptr_ridx = split_yidx`. -/
def reorder (Yj tmpYj : Nat → Nat) (tos : Nat → Nat → Nat) (j sj lb ub yidx : Nat) : Reorder :=
  let r : Reorder := ⟨tmpYj, tos, lb, yidx⟩
  if Yj lb = Yj (ub - 1) then r
  else (List.range' lb (ub - lb)).foldl (reorderStep Yj j sj yidx) r

/-- `memcpy(Yj+lb, tmpYj+lb, ..)`. -/
def copyBack (Yj tmpYj : Nat → Nat) (lb ub : Nat) : Nat → Nat :=
  fun i => if lb ≤ i ∧ i < ub then tmpYj i else Yj i

/-- One feature of the loop in `split` that re-orders the data. -/
def reorderFeature (b : Split) (lb ub : Nat) (s : St) (j : Nat) : St :=
  if j = b.feature then s
  else if s.Y j lb = s.Y j (ub - 1) then s
  else
    let r := reorder (s.Y j) (s.tmpY j) s.tos j b.feature lb ub b.yidx
    { s with Y := Function.update s.Y j (copyBack (s.Y j) r.tmpY lb ub)
             tos := r.tos
             tmpY := Function.update s.tmpY j r.tmpY }

/-! ## split -/

/-- What stays the same during a run. -/
structure Env where
  R : Double
  cfg : Config
  g : Nat → Nat
  n : Nat
  m : Nat

variable (E : Env)

/-- `g_n_tree >= g_sz_tree`. -/
def Env.full (s : St) : Bool := E.cfg.maxNodesInTree ≤ s.nTree

/-- The tests before `search`. -/
def Env.stops (c : Call) (s : St) : Bool :=
  E.full s || c.ub - c.lb < 2 * E.cfg.minLeafSize % 2 ^ 32 || E.cfg.maxDepth ≤ c.depth
    || c.nH == 0 || c.nT == 0

/-- Up to the result of `search`; `none` is an error, `some none` an early return. -/
def Env.finds (c : Call) (s : St) : Option (Option Split) :=
  if E.stops c s then some none
  else if E.cfg.isDebug
      && !check E.cfg s.tos E.g c.lb c.ub c.nT c.nH E.n E.m s.Y then none
  else search E.R E.cfg s.Y c.lb c.ub c.nT c.nH E.n E.m

/-- The data after the loop over the features. -/
def Env.reordered (c : Call) (s : St) (b : Split) : St :=
  (List.range E.m).foldl (reorderFeature b c.lb c.ub) s

/-- `( split_yidx - lb ) >= g_C.min_partition_size`. -/
def Env.bigLeft (c : Call) (b : Split) : Bool := E.cfg.minPartitionSize ≤ b.yidx - c.lb

/-- `( ub - split_yidx ) >= g_C.min_partition_size`. -/
def Env.bigRight (c : Call) (b : Split) : Bool := E.cfg.minPartitionSize ≤ c.ub - b.yidx

/-- A new node for the left child of node `p`. -/
def St.addLeft (s : St) (p : Nat) (c : Call) (b : Split) : St :=
  let tree := Function.update s.tree p { s.tree p with lchildId := s.nTree }
  { s with tree := Function.update tree s.nTree { tree s.nTree with
              parentId := p, nT := b.nTL, nH := b.nHL, depth := c.depth + 1 }
           nTree := s.nTree + 1 }

/-- A new node for the right child of node `p`. -/
def St.addRight (s : St) (p : Nat) (c : Call) (b : Split) : St :=
  let tree := Function.update s.tree p { s.tree p with rchildId := s.nTree }
  { s with tree := Function.update tree s.nTree { tree s.nTree with
              parentId := p, nT := b.nTR, nH := b.nHR, depth := c.depth + 1 }
           nTree := s.nTree + 1 }

/-- The arguments for the left child. -/
def Call.left (c : Call) (b : Split) : Call := ⟨c.lb, b.yidx, b.nTL, b.nHL, c.depth + 1⟩

/-- The arguments for the right child. -/
def Call.right (c : Call) (b : Split) : Call := ⟨b.yidx, c.ub, b.nTR, b.nHR, c.depth + 1⟩

/-- `split`; `room` is how many levels are left, `max_depth - depth`. -/
def Env.split : (room : Nat) → Call → St → Option St
  | 0, _, s => some s
  | room + 1, c, s =>
    (E.finds c s).bind fun
      | none => some s
      | some b =>
        let p := s.nTree - 1
        let s₁ := E.reordered c s b
        (if E.bigLeft c b then split room (c.left b) (s₁.addLeft p c b) else some s₁).bind fun s₂ =>
          if E.full s₂ then some s₂
          else if E.bigRight c b then split room (c.right b) (s₂.addRight p c b)
          else some s₂

/-- The state when the left child of a call has been dealt with. -/
def Env.afterLeft (room : Nat) (c : Call) (s : St) (b : Split) : Option St :=
  if E.bigLeft c b then E.split room (c.left b) ((E.reordered c s b).addLeft (s.nTree - 1) c b)
  else some (E.reordered c s b)

/-- The right child is not made. -/
def Env.skipsRight (c : Call) (b : Split) (s₂ : St) : Bool := E.full s₂ || !E.bigRight c b

/-- The calls of a run, each with the state that it starts from. -/
def Env.calls : (room : Nat) → Call → St → BinaryTree (Call × St)
  | 0, c, s => .node (c, s) .nil .nil
  | room + 1, c, s =>
    match E.finds c s with
    | some (some b) =>
      let p := s.nTree - 1
      let left :=
        if E.bigLeft c b then calls room (c.left b) ((E.reordered c s b).addLeft p c b) else .nil
      let right :=
        match E.afterLeft room c s b with
        | none => .nil
        | some s₂ =>
          if E.skipsRight c b s₂ then .nil else calls room (c.right b) (s₂.addRight p c b)
      .node (c, s) left right
    | _ => .node (c, s) .nil .nil

/-! ## one level -/

section Level

variable {E} {room : Nat} {c : Call} {s s' : St} {b : Split}

theorem split_stop (h : E.finds c s = some none) : E.split (room + 1) c s = some s := by
  rw [Env.split, h]
  rfl

theorem split_found (h : E.finds c s = some (some b)) :
    E.split (room + 1) c s = (E.afterLeft room c s b).bind fun s₂ =>
      if E.skipsRight c b s₂ then some s₂
      else E.split room (c.right b) (s₂.addRight (s.nTree - 1) c b) := by
  rw [Env.split, h, Option.bind_some]
  refine Option.bind_congr fun s₂ _ => ?_
  cases hfull : E.full s₂ <;> cases hbig : E.bigRight c b <;> simp [Env.skipsRight, hfull, hbig]

/-- How a call comes to an end. -/
theorem split_succ (h : E.split (room + 1) c s = some s') :
    E.finds c s = some none ∧ s' = s ∨
      ∃ b s₂, E.finds c s = some (some b) ∧ E.afterLeft room c s b = some s₂ ∧
        (E.skipsRight c b s₂ = true ∧ s' = s₂ ∨ E.skipsRight c b s₂ = false ∧
          E.split room (c.right b) (s₂.addRight (s.nTree - 1) c b) = some s') := by
  cases hf : E.finds c s with
  | none =>
      rw [Env.split, hf] at h
      cases h
  | some found =>
    cases found with
    | none =>
        rw [split_stop hf, Option.some.injEq] at h
        exact .inl ⟨rfl, h.symm⟩
    | some b =>
      rw [split_found hf, Option.bind_eq_some_iff] at h
      obtain ⟨s₂, hs₂, h⟩ := h
      refine .inr ⟨b, s₂, rfl, hs₂, ?_⟩
      cases hskip : E.skipsRight c b s₂ with
      | true =>
          rw [hskip, if_pos rfl, Option.some.injEq] at h
          exact .inl ⟨rfl, h.symm⟩
      | false =>
          rw [hskip, if_neg Bool.false_ne_true] at h
          exact .inr ⟨rfl, h⟩

end Level

/-! ## main -/

/-- `main` from `preproc` to the first call of `split`: the data and a tree of one
node. The size of the tree is an `int` when it is allocated. -/
def Env.root (p : Prepared) (tmpY : Nat → Nat → Nat) : Option (Call × St) :=
  if E.cfg.maxNodesInTree = 0 ∨ 2 ^ 31 ≤ E.cfg.maxNodesInTree then none
  else some (⟨0, E.n, p.nT, p.nH, 0⟩,
    { Y := p.Y, tos := p.tos, tmpY := tmpY, nTree := 1
      tree := Function.update (fun _ => {}) 0 { nT := p.nT, nH := p.nH, depth := 0 } })

end QStore.Dt
