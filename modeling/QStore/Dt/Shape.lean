import QStore.Dt.Grown

/-!
# QStore.Dt.Shape

The tree that `split` builds. The nodes are those of the calls, in the order of the
calls, so a node and its children are a call and the calls it makes; the left and
the right call share out the rows.

Two calls are not always made. `accumulate` takes from `left_to_consume` what was
consumed before `lb` once more when it goes on with a new `lb`, so a split found
after a refill may leave too few rows on the right; and the left child, or what is
built below it, may take the last free node. Either way the node keeps one child,
and the rows on the other side are in no leaf: `shaped_iff`.
-/

namespace QStore.Dt

/-- The rows that a call was made for. -/
def routedRows (x : Call × St) : List Nat := (seg (x.2.Y 0) x.1.lb x.1.ub).map getFrom

section Shape

variable {V : Type} [LinearOrder V] (D : DataSet V) (R : Double) (cfg : Config)

/-- `main` up to the end of `split`. -/
def grow (qs : Qsort V) (junk tmpY : Nat → Nat → Nat) : Option (Call × St × St) :=
  (preproc D qs cfg junk).bind fun p =>
    ((Env.of D R cfg).root p tmpY).bind fun root =>
      ((Env.of D R cfg).split cfg.maxDepth root.1 root.2).map fun s' => (root.1, root.2, s')

/-- The shape of a tree `s'` whose calls are listed in `L`. -/
structure Shaped (L : List (Call × St)) (s' : St) : Prop where
  nTree : s'.nTree = L.length
  /-- No child or two, with numbers after that of their parent and with its counts. -/
  children : ∀ k < s'.nTree, s'.lchild k = -1 ∧ s'.rchild k = -1 ∨
    ∃ l r : Nat, s'.lchild k = l ∧ s'.rchild k = r ∧ (k < l ∧ l < r ∧ r < s'.nTree) ∧
      (s'.tree l).nT + (s'.tree r).nT = (s'.tree k).nT ∧
      (s'.tree l).nH + (s'.tree r).nH = (s'.tree k).nH
  /-- Every node but the root is the child of one node. -/
  parent : ∀ k, 0 < k → k < s'.nTree → ∃ q, (q < s'.nTree ∧ (s'.lchild q = k ∨ s'.rchild q = k) ∧
    s'.parent k = q) ∧ ∀ q', q' < s'.nTree → s'.lchild q' = k ∨ s'.rchild q' = k → q' = q
  counts : ∀ k x, L[k]? = some x →
    (s'.tree k).nT = (routedRows x).countP (D.g · = 0) ∧
    (s'.tree k).nH = (routedRows x).countP (D.g · ≠ 0)
  size : ∀ k < s'.nTree, cfg.minPartitionSize ≤ (s'.tree k).nT + (s'.tree k).nH
  depth : ∀ k < s'.nTree, 0 ≤ (s'.tree k).depth ∧ (s'.tree k).depth ≤ cfg.maxDepth
  /-- Every row is in one leaf. -/
  leaves : ∀ r < D.n, ∃ k x, (L[k]? = some x ∧ s'.lchild k = -1 ∧ s'.rchild k = -1 ∧
    r ∈ routedRows x) ∧ ∀ k' x', L[k']? = some x' → s'.lchild k' = -1 → s'.rchild k' = -1 →
      r ∈ routedRows x' → k' = k

/-- The tree is built, and it has its shape. -/
def TreeShaped (qs : Qsort V) (junk tmpY : Nat → Nat → Nat) : Prop :=
  ∃ c s s', grow D R cfg qs junk tmpY = some (c, s, s') ∧
    Shaped D cfg (preorder ((Env.of D R cfg).calls cfg.maxDepth c s)) s'

/-- A call that has found a split and dealt with the left child makes no right one. -/
def Lopsided (E : Env) (x : Call × St) : Prop :=
  ∃ b s₂, E.finds x.1 x.2 = some (some b) ∧
    E.afterLeft (E.cfg.maxDepth - (x.1.depth + 1)) x.1 x.2 b = some s₂ ∧
    E.skipsRight x.1 b s₂ = true

end Shape

section Calls

variable {V : Type} [LinearOrder V] {D : DataSet V} {R : Double} {cfg : Config}
variable {c : Call} {s s' s₂ : St} {b : Split} {room j p k : Nat}

/-- What holds at every call of a run, with the levels that are left. -/
structure RunInv (D : DataSet V) (cfg : Config) (room : Nat) (c : Call) (s : St) : Prop
    extends CallInv D c s where
  levels : c.depth + room = cfg.maxDepth
  big : cfg.minPartitionSize ≤ c.ub - c.lb

theorem CallInv.size (h : CallInv D c s) : c.nT + c.nH = c.ub - c.lb := by
  rw [h.nT_eq 0 D.m_pos, h.nH_eq 0 D.m_pos, tails_add_heads, length_seg]

/-- Without a buffer a call returns early or not at all. -/
theorem CallInv.finds_nobuf (h : CallInv D c s) (hd : cfg.isDebug = false)
    (hbuf : cfg.metricsBufferSize = 0) (hs : (Env.of D R cfg).stops c s = false) :
    (Env.of D R cfg).finds c s = if c.ub - c.lb ≤ cfg.minLeafSize then some none else none := by
  have hpos := not_stops hs
  have hsize := h.size
  have hends : ∀ j < D.m, s.Y j c.lb ≠ s.Y j (c.ub - 1) := by
    intro j hj he
    have := seg_inj (h.sorted.column j hj).distinct le_rfl h.lb_lt (j := c.ub - 1)
      (by omega) (by omega) (congrArg getFrom he)
    omega
  exact (finds_eq hd hs).trans (search_nobuf hd hbuf D.m_pos h.lb_lt h.ub_le hends)

theorem split_total (hd : cfg.isDebug = false) (hbuf : 0 < cfg.metricsBufferSize)
    (h : CallInv D c s) : ∃ s', (Env.of D R cfg).split room c s = some s' := by
  induction room generalizing c s with
  | zero => exact ⟨s, rfl⟩
  | succ room ih =>
    cases hs : (Env.of D R cfg).stops c s with
    | true => exact ⟨s, split_stop (by rw [Env.finds, if_pos hs])⟩
    | false =>
      obtain ⟨r, hr⟩ := search_total hd hbuf
        (fun j hj => h.counted (not_stops hs).2.2.2 hj) h.lb_lt h.ub_le
      have hf : (Env.of D R cfg).finds c s = some r := (finds_eq hd hs).trans hr
      cases r with
      | none => exact ⟨s, split_stop hf⟩
      | some b =>
        have hp := h.parted hd hf
        obtain ⟨s₂, hs₂⟩ : ∃ s₂, (Env.of D R cfg).afterLeft room c s b = some s₂ := by
          unfold Env.afterLeft
          split
          · exact ih hp.left.addLeft
          · exact ⟨_, rfl⟩
        rw [split_found hf, hs₂, Option.bind_some]
        split
        · exact ⟨s₂, rfl⟩
        · have hleft := afterLeft_frame (fun h => split_frame hd h) hp hs₂
          exact ih (hp.right.keep hp.left.sorted le_rfl hleft).addRight

/-- A call that finds a split, and what it makes of it. -/
structure Branches (D : DataSet V) (R : Double) (cfg : Config) (room : Nat) (c : Call) (s : St)
    (b : Split) (s₂ : St) : Prop where
  finds : (Env.of D R cfg).finds c s = some (some b)
  after : (Env.of D R cfg).afterLeft room c s b = some s₂
  bigLeft : (Env.of D R cfg).bigLeft c b = true
  parted : Parted D cfg c s b ((Env.of D R cfg).reordered c s b)
  left : RunInv D cfg room (c.left b) (((Env.of D R cfg).reordered c s b).addLeft (s.nTree - 1) c b)
  right : CallInv D (c.right b) s₂
  keepsRight : ∀ j < D.m, seg (s₂.Y j) b.yidx c.ub =
    seg (((Env.of D R cfg).reordered c s b).Y j) b.yidx c.ub

theorem RunInv.branches (h : RunInv D cfg (room + 1) c s) (hd : cfg.isDebug = false)
    (hf : (Env.of D R cfg).finds c s = some (some b)) : ∃ s₂, Branches D R cfg room c s b s₂ := by
  have hp := h.parted hd hf
  have hbig : (Env.of D R cfg).bigLeft c b = true := decide_eq_true hp.placed.big
  have hbuf : 0 < cfg.metricsBufferSize := by
    rw [finds_eq hd (stops_of_finds hf)] at hf
    exact search_found_buf hd h.lb_lt h.ub_le hf
  obtain ⟨s₂, hafter⟩ : ∃ s₂, (Env.of D R cfg).afterLeft room c s b = some s₂ := by
    obtain ⟨s₂, hs₂⟩ := split_total hd hbuf (hp.left.addLeft (b := b) (c := c) (p := s.nTree - 1))
    exact ⟨s₂, by rw [Env.afterLeft, if_pos hbig, hs₂]⟩
  have hleft := afterLeft_frame (fun h => split_frame hd h) hp hafter
  have hlev := h.levels
  exact ⟨s₂, hf, hafter, hbig, hp,
    ⟨hp.left.addLeft, by show c.depth + 1 + room = _; omega, hp.placed.big⟩,
    hp.right.keep hp.left.sorted le_rfl hleft,
    fun j hj => seg_congr fun i h1 _ => hleft.keepsY j hj i (by omega)⟩

theorem Branches.calls (h : Branches D R cfg room c s b s₂) :
    (Env.of D R cfg).calls (room + 1) c s = .node (c, s)
      ((Env.of D R cfg).calls room (c.left b)
        (((Env.of D R cfg).reordered c s b).addLeft (s.nTree - 1) c b))
      (if (Env.of D R cfg).skipsRight c b s₂ then .nil
        else (Env.of D R cfg).calls room (c.right b) (s₂.addRight (s.nTree - 1) c b)) := by
  rw [calls_found h.finds h.after, if_pos h.bigLeft]

theorem Branches.runRight (h : Branches D R cfg room c s b s₂) (hlev : c.depth + (room + 1) = cfg.maxDepth)
    (hgo : (Env.of D R cfg).skipsRight c b s₂ = false) :
    RunInv D cfg room (c.right b) (s₂.addRight (s.nTree - 1) c b) := by
  refine ⟨h.right.addRight, by show c.depth + 1 + room = _; omega, ?_⟩
  rw [Env.skipsRight, Bool.or_eq_false_iff, Bool.not_eq_false', Env.bigRight,
    decide_eq_true_eq] at hgo
  exact hgo.2

/-- The root of a tree of calls is the call. -/
theorem calls_root (E : Env) (room : Nat) (c : Call) (s : St) :
    ∃ l r, E.calls room c s = .node (c, s) l r := by
  cases room with
  | zero => exact ⟨_, _, rfl⟩
  | succ room =>
    rw [Env.calls]
    split
    · exact ⟨_, _, rfl⟩
    · exact ⟨_, _, rfl⟩

/-- To show a property of every subtree of calls, show it of the calls themselves. -/
theorem all_calls {P : BinaryTree (Call × St) → Prop} (hd : cfg.isDebug = false)
    (hP : ∀ room c s, RunInv D cfg room c s → P ((Env.of D R cfg).calls room c s))
    (h : RunInv D cfg room c s) : All P ((Env.of D R cfg).calls room c s) := by
  induction room generalizing c s with
  | zero => exact ⟨hP 0 c s h, trivial, trivial⟩
  | succ room ih =>
    have hroot := hP _ c s h
    have hleaf : (Env.of D R cfg).calls (room + 1) c s = .node (c, s) .nil .nil →
        All P ((Env.of D R cfg).calls (room + 1) c s) := by
      intro he
      rw [he] at hroot ⊢
      exact ⟨hroot, trivial, trivial⟩
    cases hf : (Env.of D R cfg).finds c s with
    | none => exact hleaf (by rw [Env.calls, hf])
    | some found =>
      cases found with
      | none => exact hleaf (calls_stop hf)
      | some b =>
        obtain ⟨s₂, hb⟩ := h.branches hd hf
        rw [hb.calls] at hroot ⊢
        cases hskip : (Env.of D R cfg).skipsRight c b s₂ with
        | true =>
            rw [hskip, if_pos rfl] at hroot
            rw [if_pos rfl]
            exact ⟨hroot, ih hb.left, trivial⟩
        | false =>
            rw [hskip, if_neg Bool.false_ne_true] at hroot
            rw [if_neg Bool.false_ne_true]
            exact ⟨hroot, ih hb.left, ih (hb.runRight h.levels hskip)⟩

/-- The tree of calls at one call: it stops there, or it has found a split. -/
theorem RunInv.calls_cases (h : RunInv D cfg room c s) (hd : cfg.isDebug = false) :
    (Env.of D R cfg).calls room c s = .node (c, s) .nil .nil ∨
      ∃ room' b s₂, room = room' + 1 ∧ Branches D R cfg room' c s b s₂ := by
  cases room with
  | zero => exact .inl rfl
  | succ room =>
    cases hf : (Env.of D R cfg).finds c s with
    | none => exact .inl (by rw [Env.calls, hf])
    | some found =>
      cases found with
      | none => exact .inl (calls_stop hf)
      | some b =>
        obtain ⟨s₂, hb⟩ := h.branches hd hf
        exact .inr ⟨room, b, s₂, rfl, hb⟩

/-! ## what a call and its children have to do with each other -/

/-- The counts of two children add up to those of their parent. -/
def Sums : BinaryTree (Call × St) → Prop
  | .node x (.node y _ _) (.node z _ _) =>
    y.1.nT + z.1.nT = x.1.nT ∧ y.1.nH + z.1.nH = x.1.nH
  | _ => True

/-- The root of a tree of calls has the counts of its rows, rows enough and levels
left. -/
def RootOk (D : DataSet V) (cfg : Config) : BinaryTree (Call × St) → Prop
  | .nil => True
  | .node x _ _ => (x.1.nT = (routedRows x).countP (D.g · = 0) ∧
      x.1.nH = (routedRows x).countP (D.g · ≠ 0)) ∧
    cfg.minPartitionSize ≤ x.1.nT + x.1.nH ∧ x.1.depth ≤ cfg.maxDepth

theorem sums_calls (hd : cfg.isDebug = false) (h : RunInv D cfg room c s) :
    Sums ((Env.of D R cfg).calls room c s) := by
  rcases h.calls_cases (R := R) hd with he | ⟨room', b, s₂, rfl, hb⟩
  · rw [he]
    trivial
  · rw [hb.calls]
    split
    · obtain ⟨l, r, he⟩ := calls_root (Env.of D R cfg) room' (c.left b)
        (((Env.of D R cfg).reordered c s b).addLeft (s.nTree - 1) c b)
      rw [he]
      trivial
    · obtain ⟨l, r, he⟩ := calls_root (Env.of D R cfg) room' (c.left b)
        (((Env.of D R cfg).reordered c s b).addLeft (s.nTree - 1) c b)
      obtain ⟨l', r', he'⟩ := calls_root (Env.of D R cfg) room' (c.right b)
        (s₂.addRight (s.nTree - 1) c b)
      rw [he, he']
      have hp := hb.parted.placed
      have hcat := seg_append (a := s.Y b.feature) hp.lb_lt.le hp.lt_ub.le
      show b.nTL + b.nTR = c.nT ∧ b.nHL + b.nHR = c.nH
      rw [h.nT_eq _ hp.feature_lt, h.nH_eq _ hp.feature_lt, hp.nTL, hp.nTR, hp.nHL, hp.nHR,
        ← tails_append, ← heads_append, hcat]
      exact ⟨rfl, rfl⟩

theorem rootOk_calls (h : RunInv D cfg room c s) :
    RootOk D cfg ((Env.of D R cfg).calls room c s) := by
  obtain ⟨l, r, he⟩ := calls_root (Env.of D R cfg) room c s
  rw [he]
  have hcol := (h.sorted.column 0 D.m_pos).goal
  have hT : c.nT = (routedRows (c, s)).countP (D.g · = 0) := by
    rw [h.nT_eq 0 D.m_pos, tails, routedRows, List.countP_map]
    exact List.countP_congr fun w hw => by simp [hcol w hw]
  have hH : c.nH = (routedRows (c, s)).countP (D.g · ≠ 0) := by
    rw [h.nH_eq 0 D.m_pos, heads, routedRows, List.countP_map]
    exact List.countP_congr fun w hw => by simp [hcol w hw]
  exact ⟨⟨hT, hH⟩, h.big.trans_eq h.size.symm, (Nat.le_add_right ..).trans_eq h.levels⟩

/-- The rows of a call go to one child each. -/
theorem shares_calls (hd : cfg.isDebug = false) (h : RunInv D cfg room c s) :
    Shares (fun x r => r ∈ routedRows x) ((Env.of D R cfg).calls room c s) := by
  rcases h.calls_cases (R := R) hd with he | ⟨room', b, s₂, rfl, hb⟩
  · rw [he]
    exact fun hne => absurd rfl hne
  · rw [hb.calls]
    intro _ hr r
    split at hr
    · exact absurd rfl hr
    · next hskip =>
        obtain ⟨l, t, he⟩ := calls_root (Env.of D R cfg) room' (c.left b)
          (((Env.of D R cfg).reordered c s b).addLeft (s.nTree - 1) c b)
        obtain ⟨l', t', he'⟩ := calls_root (Env.of D R cfg) room' (c.right b)
          (s₂.addRight (s.nTree - 1) c b)
        rw [if_neg hskip, he, he']
        have hp := hb.parted.placed
        have hpart := reordered_spec (E := Env.of D R cfg) h.sorted rfl hp.feature_lt hp.lb_lt
          hp.lt_ub D.m_pos
        show (r ∈ (seg (s.Y 0) c.lb c.ub).map getFrom ↔
          r ∈ (seg (((Env.of D R cfg).reordered c s b).Y 0) c.lb b.yidx).map getFrom ∨
            r ∈ (seg (s₂.Y 0) b.yidx c.ub).map getFrom) ∧
          ¬ (r ∈ (seg (((Env.of D R cfg).reordered c s b).Y 0) c.lb b.yidx).map getFrom ∧
            r ∈ (seg (s₂.Y 0) b.yidx c.ub).map getFrom)
        rw [hb.keepsRight 0 D.m_pos, hpart.left, hpart.right]
        simp only [List.mem_map, List.mem_filter]
        constructor
        · constructor
          · rintro ⟨w, hw, rfl⟩
            cases hgo : goesLeft (s.tos b.feature) b.yidx w with
            | true => exact .inl ⟨w, ⟨hw, hgo⟩, rfl⟩
            | false => exact .inr ⟨w, ⟨hw, by simp [hgo]⟩, rfl⟩
          · rintro (⟨w, hw, rfl⟩ | ⟨w, hw, rfl⟩) <;> exact ⟨w, hw.1, rfl⟩
        · rintro ⟨⟨w, ⟨-, hw⟩, rfl⟩, u, ⟨-, hu⟩, he⟩
          rw [goesLeft, he] at hu
          rw [goesLeft] at hw
          simp [hw] at hu

/-- A call that is not lopsided has two children or none. -/
theorem balanced_calls (hd : cfg.isDebug = false) (h : RunInv D cfg room c s)
    (hnot : ¬ Lopsided (Env.of D R cfg) (c, s)) :
    Balanced ((Env.of D R cfg).calls room c s) := by
  rcases h.calls_cases (R := R) hd with he | ⟨room', b, s₂, rfl, hb⟩
  · rw [he]
    exact Iff.rfl
  · have hlev := h.levels
    have hroom : (Env.of D R cfg).cfg.maxDepth - (c.depth + 1) = room' := by
      show cfg.maxDepth - (c.depth + 1) = room'
      omega
    have hafter : (Env.of D R cfg).afterLeft ((Env.of D R cfg).cfg.maxDepth - (c.depth + 1))
        c s b = some s₂ := by
      rw [hroom]
      exact hb.after
    have hskip : ¬ (Env.of D R cfg).skipsRight c b s₂ = true := fun hskip =>
      hnot ⟨b, s₂, hb.finds, hafter, hskip⟩
    rw [hb.calls, if_neg hskip]
    exact ⟨fun he => absurd he calls_ne_nil, fun he => absurd he calls_ne_nil⟩

/-- A lopsided call has a left child only. -/
theorem lopsided_calls (hd : cfg.isDebug = false) (h : RunInv D cfg room c s)
    (hlop : Lopsided (Env.of D R cfg) (c, s)) :
    ∃ l, l ≠ .nil ∧ (Env.of D R cfg).calls room c s = .node (c, s) l .nil := by
  obtain ⟨b, s₂, hf, hs₂, hskip⟩ := hlop
  have hlev := h.levels
  have hdepth : c.depth < cfg.maxDepth := (not_stops (stops_of_finds hf)).2.1
  obtain ⟨room', rfl⟩ : ∃ room', room = room' + 1 := ⟨room - 1, by omega⟩
  have hroom : (Env.of D R cfg).cfg.maxDepth - (c.depth + 1) = room' := by
    show cfg.maxDepth - (c.depth + 1) = room'
    omega
  obtain ⟨s₂', hb⟩ := h.branches hd hf
  rw [hroom] at hs₂
  obtain rfl := Option.some.inj (hb.after.symm.trans hs₂)
  have he := hb.calls
  rw [if_pos hskip] at he
  exact ⟨_, calls_ne_nil, he⟩

end Calls

/-! ## whole runs -/

section Run

variable {V : Type} [LinearOrder V] {D : DataSet V} {qs : Qsort V} {R : Double} {cfg : Config}
variable {junk tmpY : Nat → Nat → Nat} {c : Call} {s s' : St}

/-- What stands when `split` is called first. -/
structure Started (D : DataSet V) (cfg : Config) (c : Call) (s : St) : Prop extends
    CallInv D c s where
  lb_eq : c.lb = 0
  ub_eq : c.ub = D.n
  depth_eq : c.depth = 0
  rows : ∀ r, r ∈ routedRows (c, s) ↔ r < D.n
  fresh : Fresh s 0 c
  nodes : 0 < cfg.maxNodesInTree ∧ cfg.maxNodesInTree < 2 ^ 31

theorem root_started (hd : cfg.isDebug = false) {p : Prepared} {root : Call × St}
    (hp : preproc D qs cfg junk = some p) (hr : (Env.of D R cfg).root p tmpY = some root) :
    Started D cfg root.1 root.2 := by
  have hinv := root_inv hd hp hr
  obtain ⟨p', hp', -, hrows, -⟩ := preproc_spec D qs hd junk
  obtain rfl := Option.some.inj (hp'.symm.trans hp)
  rw [Env.root] at hr
  split at hr
  · cases hr
  · next hn =>
      obtain rfl := Option.some.inj hr
      have hn' : ¬ (cfg.maxNodesInTree = 0 ∨ 2 ^ 31 ≤ cfg.maxNodesInTree) := hn
      refine ⟨hinv, rfl, rfl, rfl, hrows 0 D.m_pos, ⟨rfl, ?_, ?_, ?_, fun k hk => ?_⟩, by omega⟩
      · exact ⟨rfl, rfl, rfl⟩
      · rfl
      · rfl
      · show Function.update (fun _ => ({} : Node)) 0 _ k = {}
        exact Function.update_of_ne hk.ne' ..

theorem Started.run (h : Started D cfg c s) (hbig : cfg.minPartitionSize ≤ D.n) :
    RunInv D cfg cfg.maxDepth c s :=
  ⟨h.toCallInv, by rw [h.depth_eq, Nat.zero_add], by rw [h.lb_eq, h.ub_eq]; exact hbig⟩

/-- What `grow` has run through. -/
theorem grow_eq_some (h : grow D R cfg qs junk tmpY = some (c, s, s')) :
    cfg.isDebug = false ∧ ∃ p, preproc D qs cfg junk = some p ∧
      (Env.of D R cfg).root p tmpY = some (c, s) ∧
      (Env.of D R cfg).split cfg.maxDepth c s = some s' := by
  simp only [grow, Option.bind_eq_some_iff, Option.map_eq_some_iff, Prod.mk.injEq] at h
  obtain ⟨p, hp, ⟨c', s₀⟩, hroot, s₁, hrun, rfl, rfl, rfl⟩ := h
  exact ⟨isDebug_of_preproc hp, p, hp, hroot, hrun⟩

/-- A run without lopsided calls builds a tree of the right shape. -/
theorem shaped_of_balanced (hd : cfg.isDebug = false) (h : Started D cfg c s)
    (hbig : cfg.minPartitionSize ≤ D.n)
    (hrun : (Env.of D R cfg).split cfg.maxDepth c s = some s')
    (hnot : ∀ x ∈ preorder ((Env.of D R cfg).calls cfg.maxDepth c s),
      ¬ Lopsided (Env.of D R cfg) x) :
    Shaped D cfg (preorder ((Env.of D R cfg).calls cfg.maxDepth c s)) s' := by
  have hinv := h.run hbig
  have hg := split_grown h.fresh hrun
  have hbal : All Balanced ((Env.of D R cfg).calls cfg.maxDepth c s) := by
    -- the calls below are calls of this run
    have himp := all_calls (R := R) (P := fun t => ∀ x l r, t = .node x l r →
      ¬ Lopsided (Env.of D R cfg) x → Balanced t) hd (fun room c s hi x l r he hn => by
        obtain ⟨l', r', he'⟩ := calls_root (Env.of D R cfg) room c s
        rw [he'] at he
        cases he
        exact balanced_calls hd hi hn) hinv
    have hlift : ∀ t, (∀ x ∈ preorder t, ¬ Lopsided (Env.of D R cfg) x) →
        All (fun t => ∀ x l r, t = .node x l r → ¬ Lopsided (Env.of D R cfg) x → Balanced t) t →
        All Balanced t := by
      intro t
      induction t with
      | nil => exact fun _ _ => trivial
      | node x l r ihl ihr =>
        intro hno hall
        refine ⟨hall.1 x l r rfl (hno x (by simp)), ihl (fun y hy => hno y ?_) hall.2.1,
          ihr (fun y hy => hno y ?_) hall.2.2⟩
        · exact mem_preorder_node.mpr (.inr (.inl hy))
        · exact mem_preorder_node.mpr (.inr (.inr hy))
    exact hlift _ hnot himp
  have hsums := all_calls (R := R) hd (fun _ _ _ hi => sums_calls (R := R) hd hi) hinv
  have hok := all_calls (R := R) hd (fun _ _ _ hi => rootOk_calls (R := R) hi) hinv
  have hshare := all_calls (R := R) hd (fun _ _ _ hi => shares_calls (R := R) hd hi) hinv
  have hroot : ∀ r, r < D.n → Has (fun x r => r ∈ routedRows x) r
      ((Env.of D R cfg).calls cfg.maxDepth c s) := by
    intro r hr
    obtain ⟨l, r, he⟩ := calls_root (Env.of D R cfg) cfg.maxDepth c s
    rw [he]
    exact (h.rows _).mpr hr
  generalize (Env.of D R cfg).calls cfg.maxDepth c s = t at hg hbal hsums hok hshare hroot ⊢
  have hn : s'.nTree = 0 + t.numNodes := hg.nTree
  -- a node, its call and what is known of it
  have hnode : ∀ k x, (preorder t)[k]? = some x → ∃ l r, Sub (.node x l r) k 0 t := by
    intro k x hx
    have hlt : k < (preorder t).length := (List.getElem?_eq_some_iff.mp hx).1
    obtain ⟨y, l, r, hs⟩ := exists_sub (p := 0) (t := t) (Nat.zero_le k)
      (by rw [Nat.zero_add, ← length_preorder]; exact hlt)
    obtain rfl := Option.some.inj (hs.getElem?.symm.trans hx)
    exact ⟨l, r, hs⟩
  refine ⟨by rw [hn, length_preorder, Nat.zero_add], fun k hk => ?_, fun k h0 hk => ?_,
    fun k x hx => ?_, fun k hk => ?_, fun k hk => ?_, fun r hr => ?_⟩
  · obtain ⟨x, l, r, hs⟩ := exists_sub (p := 0) (Nat.zero_le k) (hn ▸ hk)
    obtain ⟨⟨hl, hr⟩, -⟩ := hg.laid.sub hs
    rcases (hbal.sub hs).1.cases with ⟨rfl, rfl⟩ | ⟨hne, hne'⟩
    · exact .inl ⟨hl, hr⟩
    · right
      refine ⟨k + 1, k + 1 + l.numNodes, hl.trans (link_of_ne hne), hr.trans (link_of_ne hne'),
        ?_, ?_⟩
      · have hrange := hs.range.2
        cases l with
        | nil => exact absurd rfl hne
        | node =>
          cases r with
          | nil => exact absurd rfl hne'
          | node =>
            simp only [numNodes_node] at hrange ⊢
            omega
      · cases l with
        | nil => exact absurd rfl hne
        | node y l₁ r₁ =>
          cases r with
          | nil => exact absurd rfl hne'
          | node z l₂ r₂ =>
            have hx : NodeOf (s'.tree k) x.1 := hg.info _ _ hs
            have hy : NodeOf (s'.tree (k + 1)) y.1 := hg.info _ _
              (hs.trans (.inr (.inl sub_whole)))
            have hz : NodeOf (s'.tree (k + 1 + (BinaryTree.node y l₁ r₁).numNodes)) z.1 :=
              hg.info _ _ (hs.trans (.inr (.inr sub_whole)))
            rw [hx.nT, hx.nH, hy.nT, hy.nH, hz.nT, hz.nH]
            exact (hsums.sub hs).1
  · obtain ⟨q, ⟨-, h2, h3, h4⟩, huniq⟩ := hg.laid.parent h0 (hn ▸ hk)
    exact ⟨q, ⟨by omega, h3, h4⟩, fun q' hq' => huniq q' (Nat.zero_le _) (hn ▸ hq')⟩
  · obtain ⟨l, r, hs⟩ := hnode k x hx
    have hx : NodeOf (s'.tree k) x.1 := hg.info _ _ hs
    rw [hx.nT, hx.nH]
    exact (hok.sub hs).1.1
  · obtain ⟨x, l, r, hs⟩ := exists_sub (p := 0) (Nat.zero_le k) (hn ▸ hk)
    have hx : NodeOf (s'.tree k) x.1 := hg.info _ _ hs
    rw [hx.nT, hx.nH]
    exact (hok.sub hs).1.2.1
  · obtain ⟨x, l, r, hs⟩ := exists_sub (p := 0) (Nat.zero_le k) (hn ▸ hk)
    have hx : NodeOf (s'.tree k) x.1 := hg.info _ _ hs
    have hle := (hok.sub hs).1.2.2
    rw [hx.depth]
    omega
  · obtain ⟨k, x, ⟨hs, hx⟩, huniq⟩ := existsUnique_leaf (p := 0) hbal hshare (hroot r hr)
    obtain ⟨⟨hl, hr⟩, -⟩ := hg.laid.sub hs
    refine ⟨k, x, ⟨hs.getElem?, hl, hr, hx⟩, fun k' x' hx' hl' hr' hmem => ?_⟩
    obtain ⟨l, r', hs'⟩ := hnode k' x' hx'
    obtain ⟨⟨hl'', hr''⟩, -⟩ := hg.laid.sub hs'
    obtain rfl := link_eq_neg_one (hl''.symm.trans hl')
    obtain rfl := link_eq_neg_one (hr''.symm.trans hr')
    exact huniq k' x' hs' hmem

/-- A lopsided call leaves a node with one child. -/
theorem Shaped.not_lopsided (hd : cfg.isDebug = false) (h : Started D cfg c s)
    (hbig : cfg.minPartitionSize ≤ D.n)
    (hrun : (Env.of D R cfg).split cfg.maxDepth c s = some s')
    (hs : Shaped D cfg (preorder ((Env.of D R cfg).calls cfg.maxDepth c s)) s') :
    ∀ x ∈ preorder ((Env.of D R cfg).calls cfg.maxDepth c s), ¬ Lopsided (Env.of D R cfg) x := by
  intro x hx hlop
  have hg := split_grown h.fresh hrun
  have hone := all_calls (R := R) (P := fun t => ∀ x l r, t = .node x l r →
    Lopsided (Env.of D R cfg) x → l ≠ .nil ∧ r = .nil) hd (fun room c s hi x l r he hlop => by
      obtain ⟨l', r', he'⟩ := calls_root (Env.of D R cfg) room c s
      obtain ⟨l'', hl'', he''⟩ := lopsided_calls (R := R) hd hi (by rw [he'] at he; cases he; exact hlop)
      rw [he''] at he
      cases he
      exact ⟨hl'', rfl⟩) (h.run hbig)
  obtain ⟨k, l, r, hsub⟩ := exists_sub_of_mem (p := 0) hx
  obtain ⟨hl, rfl⟩ := (hone.sub hsub).1 x l r rfl hlop
  obtain ⟨⟨hlc, hrc⟩, -⟩ := hg.laid.sub hsub
  have hk : k < s'.nTree := by
    rw [hg.nTree]
    exact hsub.lt
  rcases hs.children k hk with ⟨hl', -⟩ | ⟨-, r', -, hr', -⟩
  · exact hl (link_eq_neg_one (hlc.symm.trans hl'))
  · exact absurd (hrc.symm.trans hr') (by simp only [link]; omega)

/-- When the tree has its shape: there is room for the root, which is large enough,
and whenever a call has found a split and dealt with the left child there is a node
left and the right side is not too small. -/
theorem shaped_iff (D : DataSet V) (R : Double) (cfg : Config) (qs : Qsort V)
    (junk tmpY : Nat → Nat → Nat) :
    TreeShaped D R cfg qs junk tmpY ↔
      cfg.isDebug = false ∧ (0 < cfg.maxNodesInTree ∧ cfg.maxNodesInTree < 2 ^ 31) ∧
      cfg.minPartitionSize ≤ D.n ∧
      ∀ p c s, preproc D qs cfg junk = some p → (Env.of D R cfg).root p tmpY = some (c, s) →
        (cfg.metricsBufferSize = 0 →
          (Env.of D R cfg).stops c s = true ∨ D.n ≤ cfg.minLeafSize) ∧
        ∀ x ∈ preorder ((Env.of D R cfg).calls cfg.maxDepth c s),
          ¬ Lopsided (Env.of D R cfg) x := by
  constructor
  · rintro ⟨c, s, s', hgrow, hs⟩
    obtain ⟨hd, p, hp, hroot, hrun⟩ := grow_eq_some hgrow
    have hst : Started D cfg c s := root_started hd hp hroot
    have hg := split_grown hst.fresh hrun
    have hbig : cfg.minPartitionSize ≤ D.n := by
      obtain ⟨l, r, he⟩ := calls_root (Env.of D R cfg) cfg.maxDepth c s
      have hnode : NodeOf (s'.tree 0) c := hg.info 0 (.node (c, s) l r) (by rw [he]; exact sub_whole)
      have hsize := hs.size 0 (by rw [hg.nTree, he, numNodes_node]; omega)
      rwa [hnode.nT, hnode.nH, hst.size, hst.lb_eq, hst.ub_eq] at hsize
    refine ⟨hd, hst.nodes, hbig, fun p' c' s₀ hp' hroot' => ?_⟩
    obtain rfl := Option.some.inj (hp.symm.trans hp')
    obtain ⟨rfl, rfl⟩ := Prod.mk.inj (Option.some.inj (hroot.symm.trans hroot'))
    refine ⟨fun hbuf => ?_, hs.not_lopsided hd hst hbig hrun⟩
    by_contra hno
    rw [not_or, Bool.not_eq_true] at hno
    have hf := hst.finds_nobuf (R := R) hd hbuf hno.1
    rw [if_neg (by rw [hst.lb_eq, hst.ub_eq]; exact hno.2)] at hf
    have hlt : c.depth < cfg.maxDepth := (not_stops hno.1).2.1
    obtain ⟨room, hroom⟩ : ∃ room, cfg.maxDepth = room + 1 := ⟨cfg.maxDepth - 1, by omega⟩
    rw [hroom, Env.split, hf] at hrun
    cases hrun
  · rintro ⟨hd, hnodes, hbig, hcond⟩
    obtain ⟨p, hp, -⟩ := preproc_spec D qs hd junk
    obtain ⟨⟨c, s⟩, hroot⟩ : ∃ root, (Env.of D R cfg).root p tmpY = some root := by
      have hn : ¬ (cfg.maxNodesInTree = 0 ∨ 2 ^ 31 ≤ cfg.maxNodesInTree) := by omega
      exact ⟨_, if_neg hn⟩
    have hst : Started D cfg c s := root_started hd hp hroot
    obtain ⟨hbuf, hnot⟩ := hcond p c s hp hroot
    obtain ⟨s', hrun⟩ : ∃ s', (Env.of D R cfg).split cfg.maxDepth c s = some s' := by
      rcases Nat.eq_zero_or_pos cfg.metricsBufferSize with h0 | hpos
      · -- the first call returns at once
        have hf : (Env.of D R cfg).finds c s = some none := by
          cases hstop : (Env.of D R cfg).stops c s with
          | true => rw [Env.finds, if_pos hstop]
          | false =>
            have hsmall := (hbuf h0).resolve_left (by rw [hstop]; exact Bool.false_ne_true)
            rw [hst.finds_nobuf hd h0 hstop, hst.lb_eq, hst.ub_eq, Nat.sub_zero, if_pos hsmall]
        cases hmax : cfg.maxDepth with
        | zero => exact ⟨s, rfl⟩
        | succ room => exact ⟨s, split_stop hf⟩
      · exact split_total hd hpos hst.toCallInv
    refine ⟨c, s, s', ?_, shaped_of_balanced hd hst hbig hrun hnot⟩
    simp only [grow, hp, hroot, hrun, Option.bind_some, Option.map_some]

/-! ## six rows -/

/-- Two tails, then four heads. -/
def sixRows : DataSet Nat where
  n := 6
  m := 1
  X _ i := i
  g i := if i < 2 then 0 else 1
  n_pos := Nat.succ_pos 5
  n_lt := by decide
  m_pos := Nat.one_pos
  g_le i _ := by grind
  values_lt _ _ := Finset.card_image_le.trans_lt (by simp)

/-- A buffer of two entries. -/
def smallBuffer : Config :=
  { isDebug := false, maxDepth := 1, minLeafSize := 1, metricsBufferSize := 2,
    minPartitionSize := 2, maxNodesInTree := 8 }

/-- After the refill a split is placed before the last row, and the root gets a left
child only. -/
theorem shaped_fails :
    ¬ TreeShaped sixRows (Rounding.exact 53) smallBuffer (Qsort.insertion Nat)
      (fun _ _ => 0) (fun _ _ => 0) := by
  rintro ⟨c, s, s', hgrow, hs⟩
  have hrun : (grow sixRows (Rounding.exact 53) smallBuffer (Qsort.insertion Nat) (fun _ _ => 0)
      fun _ _ => 0).map (fun x => (x.2.2.nTree, x.2.2.lchild 0, x.2.2.rchild 0)) =
      some (2, 1, -1) := by decide +kernel
  simp only [hgrow, Option.map_some, Option.some.injEq, Prod.mk.injEq] at hrun
  obtain ⟨hn, hl, hr⟩ := hrun
  rcases hs.children 0 (by omega) with ⟨hl', -⟩ | ⟨-, r, -, hr', -⟩
  · omega
  · omega

end Run

end QStore.Dt
