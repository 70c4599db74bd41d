import QStore.Dt.SingleSort

/-!
# QStore.Dt.Grown

The nodes that a run makes. Node numbers are given out in the order of the calls,
so the tree that is built is the tree of the calls laid out in preorder, and the
node of a call has its class counts and its depth: `split_grown`.
-/

namespace QStore.Dt

/-- The columns of the tree. -/
def St.lchild (s : St) (k : Nat) : Int := (s.tree k).lchildId
def St.rchild (s : St) (k : Nat) : Int := (s.tree k).rchildId
def St.parent (s : St) (k : Nat) : Int := (s.tree k).parentId

/-- The node of a call. -/
structure NodeOf (v : Node) (c : Call) : Prop where
  nT : v.nT = c.nT
  nH : v.nH = c.nH
  depth : v.depth = c.depth

/-- A call starts with its node as the last one, still without children. -/
structure Fresh (s : St) (p : Nat) (c : Call) : Prop where
  nTree : s.nTree = p + 1
  node : NodeOf (s.tree p) c
  lchild : s.lchild p = -1
  rchild : s.rchild p = -1
  unused : ∀ k, p < k → s.tree k = {}

/-- The node of a subtree of calls. -/
def InfoOf (s : St) (k : Nat) : BinaryTree (Call × St) → Prop
  | .nil => True
  | .node x _ _ => NodeOf (s.tree k) x.1

/-- A run from `s` has laid out the tree `t` of its calls from node `p` on. -/
structure Grown (s s' : St) (p : Nat) (t : BinaryTree (Call × St)) : Prop where
  nTree : s'.nTree = p + t.numNodes
  laid : Laid s'.lchild s'.rchild s'.parent p t
  before : ∀ k < p, s'.tree k = s.tree k
  parent : s'.parent p = s.parent p
  unused : ∀ k, s'.nTree ≤ k → s'.tree k = {}
  info : ∀ k u, Sub u k p t → InfoOf s' k u

section Nodes

variable {s s' s₂ : St} {p q k : Nat} {c c' : Call} {b : Split} {t l : BinaryTree (Call × St)}
variable {E : Env} {room : Nat}

/-! ## the two new nodes -/

theorem addLeft_new (h : s.tree s.nTree = {}) (hp : p < s.nTree) :
    (s.addLeft p c b).tree s.nTree =
      { parentId := p, nT := b.nTL, nH := b.nHL, depth := c.depth + 1 } := by
  simp [St.addLeft, Function.update_of_ne hp.ne', h]

theorem addLeft_parent (hp : p < s.nTree) :
    (s.addLeft p c b).tree p = { s.tree p with lchildId := s.nTree } := by
  simp [St.addLeft, Function.update_of_ne hp.ne]

theorem addLeft_other (h1 : k ≠ p) (h2 : k ≠ s.nTree) :
    (s.addLeft p c b).tree k = s.tree k := by
  simp [St.addLeft, Function.update_of_ne h1, Function.update_of_ne h2]

theorem addRight_new (h : s.tree s.nTree = {}) (hp : p < s.nTree) :
    (s.addRight p c b).tree s.nTree =
      { parentId := p, nT := b.nTR, nH := b.nHR, depth := c.depth + 1 } := by
  simp [St.addRight, Function.update_of_ne hp.ne', h]

theorem addRight_parent (hp : p < s.nTree) :
    (s.addRight p c b).tree p = { s.tree p with rchildId := s.nTree } := by
  simp [St.addRight, Function.update_of_ne hp.ne]

theorem addRight_other (h1 : k ≠ p) (h2 : k ≠ s.nTree) :
    (s.addRight p c b).tree k = s.tree k := by
  simp [St.addRight, Function.update_of_ne h1, Function.update_of_ne h2]

/-- The left child of a call is fresh. -/
theorem fresh_left (h : Fresh s p c) : Fresh (s.addLeft p c b) (p + 1) (c.left b) := by
  have hlt : p < s.nTree := by rw [h.nTree]; exact Nat.lt_succ_self p
  have hnew := addLeft_new (b := b) (c := c) (h.unused _ hlt) hlt
  rw [h.nTree] at hnew
  refine ⟨by rw [← h.nTree]; rfl, ?_, ?_, ?_, fun k hk => ?_⟩
  · rw [hnew]
    exact ⟨rfl, rfl, rfl⟩
  · rw [St.lchild, hnew]
  · rw [St.rchild, hnew]
  · rw [addLeft_other (by omega) (by rw [h.nTree]; omega)]
    exact h.unused k (by omega)

/-- What stands when the left child has been dealt with. -/
structure LeftGrown (s s₂ : St) (p : Nat) (c : Call) (l : BinaryTree (Call × St)) : Prop where
  nTree : s₂.nTree = p + 1 + l.numNodes
  node : NodeOf (s₂.tree p) c
  lchild : s₂.lchild p = link (p + 1) l
  rchild : s₂.rchild p = -1
  parent : s₂.parent p = s.parent p
  childOf : l ≠ .nil → s₂.parent (p + 1) = p
  laid : Laid s₂.lchild s₂.rchild s₂.parent (p + 1) l
  before : ∀ k < p, s₂.tree k = s.tree k
  unused : ∀ k, s₂.nTree ≤ k → s₂.tree k = {}
  info : ∀ k u, Sub u k (p + 1) l → InfoOf s₂ k u

theorem LeftGrown.none (h : Fresh s p c) : LeftGrown s s p c .nil where
  nTree := h.nTree
  node := h.node
  lchild := h.lchild
  rchild := h.rchild
  parent := rfl
  childOf hne := absurd rfl hne
  laid := trivial
  before _ _ := rfl
  unused k hk := h.unused k (by rw [h.nTree] at hk; omega)
  info _ _ hs := hs.elim

theorem LeftGrown.some (h : Fresh s p c) (hl : l ≠ .nil)
    (hg : Grown (s.addLeft p c b) s₂ (p + 1) l) : LeftGrown s s₂ p c l := by
  have hlt : p < s.nTree := by rw [h.nTree]; exact Nat.lt_succ_self p
  have hnode : s₂.tree p = { s.tree p with lchildId := s.nTree } := by
    rw [hg.before p (Nat.lt_succ_self p), addLeft_parent hlt]
  refine ⟨hg.nTree, ?_, ?_, ?_, ?_, fun _ => ?_, hg.laid, fun k hk => ?_, hg.unused, hg.info⟩
  · rw [hnode]
    exact ⟨h.node.nT, h.node.nH, h.node.depth⟩
  · cases l with
    | nil => exact absurd rfl hl
    | node => rw [St.lchild, hnode, h.nTree]; rfl
  · rw [St.rchild, hnode]
    exact h.rchild
  · rw [St.parent, hnode]
    rfl
  · rw [hg.parent, St.parent, ← h.nTree, addLeft_new (h.unused _ hlt) hlt]
  · rw [hg.before k (by omega), addLeft_other hk.ne (by rw [h.nTree]; omega)]

/-- The call ends here. -/
theorem LeftGrown.stop {x : St} (h : LeftGrown s s₂ p c l) :
    Grown s s₂ p (.node (c, x) l .nil) where
  nTree := by rw [h.nTree, numNodes_node, numNodes_nil]; omega
  laid := ⟨⟨h.lchild, h.rchild⟩, ⟨h.childOf, fun hne => absurd rfl hne⟩, h.laid, trivial⟩
  before := h.before
  parent := h.parent
  unused := h.unused
  info k u hs := by
    rcases hs with ⟨rfl, rfl⟩ | hs | hs
    · exact h.node
    · exact h.info k u hs
    · exact hs.elim

/-- The right child is fresh as well. -/
theorem LeftGrown.fresh_right (h : LeftGrown s s₂ p c l) :
    Fresh (s₂.addRight p c b) (p + 1 + l.numNodes) (c.right b) := by
  have hlt : p < s₂.nTree := by rw [h.nTree]; omega
  have hnew := addRight_new (b := b) (c := c) (h.unused _ le_rfl) hlt
  rw [h.nTree] at hnew
  refine ⟨by rw [← h.nTree]; rfl, ?_, ?_, ?_, fun k hk => ?_⟩
  · rw [hnew]
    exact ⟨rfl, rfl, rfl⟩
  · rw [St.lchild, hnew]
  · rw [St.rchild, hnew]
  · rw [addRight_other (by omega) (by rw [h.nTree]; omega)]
    exact h.unused k (by rw [h.nTree]; omega)

/-- The right subtree stands behind the left one. -/
theorem LeftGrown.go {x : St} {r : BinaryTree (Call × St)} (h : LeftGrown s s₂ p c l)
    (hr : r ≠ .nil) (hg : Grown (s₂.addRight p c b) s' (p + 1 + l.numNodes) r) :
    Grown s s' p (.node (c, x) l r) := by
  have hlt : p < s₂.nTree := by rw [h.nTree]; omega
  have hnode : s'.tree p = { s₂.tree p with rchildId := s₂.nTree } := by
    rw [hg.before p (by omega), addRight_parent hlt]
  have hkeep : ∀ k, k ≠ p → k < p + 1 + l.numNodes → s'.tree k = s₂.tree k := by
    intro k hk hlt
    rw [hg.before k hlt, addRight_other hk (by rw [h.nTree]; omega)]
  refine ⟨?_, ⟨⟨?_, ?_⟩, ⟨fun hl => ?_, fun _ => ?_⟩, ?_, hg.laid⟩, fun k hk => ?_, ?_,
    hg.unused, fun k u hs => ?_⟩
  · rw [hg.nTree, numNodes_node]
    omega
  · rw [St.lchild, hnode]
    exact h.lchild
  · cases r with
    | nil => exact absurd rfl hr
    | node => rw [St.rchild, hnode, h.nTree]; rfl
  · cases l with
    | nil => exact absurd rfl hl
    | node =>
        rw [St.parent, hkeep _ (by omega) (by rw [numNodes_node]; omega)]
        exact h.childOf hl
  · rw [hg.parent, St.parent, ← h.nTree, addRight_new (h.unused _ le_rfl) hlt]
  · refine h.laid.congr (fun k h1 h2 => ?_) fun k h1 h2 => ?_
    · rw [St.lchild, St.rchild, hkeep k (by omega) h2]
      exact ⟨rfl, rfl⟩
    · rw [St.parent, hkeep k (by omega) h2]
      rfl
  · rw [hkeep k hk.ne (by omega)]
    exact h.before k hk
  · rw [St.parent, hnode]
    exact h.parent
  · rcases hs with ⟨rfl, rfl⟩ | hs | hs
    · show NodeOf (s'.tree k) c
      rw [hnode]
      exact ⟨h.node.nT, h.node.nH, h.node.depth⟩
    · obtain ⟨y, l', r', rfl⟩ := hs.node
      have hinfo := h.info k _ hs
      have hrange := hs.range.1
      show NodeOf (s'.tree k) y.1
      rw [hkeep k (by omega) hs.lt]
      exact hinfo
    · exact hg.info k u hs

/-! ## runs -/

theorem calls_ne_nil : E.calls room c s ≠ .nil := by
  cases room with
  | zero => simp [Env.calls]
  | succ room =>
    rw [Env.calls]
    split <;> simp

theorem calls_stop (h : E.finds c s = some none) :
    E.calls (room + 1) c s = .node (c, s) .nil .nil := by
  rw [Env.calls, h]

theorem calls_found (h : E.finds c s = some (some b)) (h₂ : E.afterLeft room c s b = some s₂) :
    E.calls (room + 1) c s = .node (c, s)
      (if E.bigLeft c b then E.calls room (c.left b) ((E.reordered c s b).addLeft (s.nTree - 1) c b)
        else .nil)
      (if E.skipsRight c b s₂ then .nil
        else E.calls room (c.right b) (s₂.addRight (s.nTree - 1) c b)) := by
  rw [Env.calls, h]
  simp only [h₂]

theorem Fresh.congr (h : Fresh s p c) (ht : SameTree s s') : Fresh s' p c := by
  obtain ⟨h1, h2⟩ := ht
  obtain ⟨a, b, d, e, f⟩ := h
  exact ⟨h2.trans a, by rwa [h1], by rwa [St.lchild, h1], by rwa [St.rchild, h1], by rwa [h1]⟩

/-- A run lays out the tree of its calls. -/
theorem split_grown (h : Fresh s p c) (hrun : E.split room c s = some s') :
    Grown s s' p (E.calls room c s) := by
  induction room generalizing c s s' p with
  | zero =>
      obtain rfl := Option.some.inj hrun
      exact (LeftGrown.none h).stop
  | succ room ih =>
    rcases split_succ hrun with ⟨hf, rfl⟩ | ⟨b, s₂, hf, hs₂, hend⟩
    · rw [calls_stop hf]
      exact (LeftGrown.none h).stop
    · have hp : s.nTree - 1 = p := by rw [h.nTree, Nat.add_sub_cancel]
      rw [hp] at hend
      rw [calls_found hf hs₂, hp]
      -- the state between the two children
      have hre := reordered_tree (E := E) (c := c) (s := s) (b := b)
      have hfresh := h.congr hre
      have hsame : ∀ {l}, LeftGrown (E.reordered c s b) s₂ p c l → LeftGrown s s₂ p c l := by
        intro l hl
        exact { hl with
          parent := hl.parent.trans (by rw [St.parent, hre.1]; rfl)
          before := fun k hk => (hl.before k hk).trans (by rw [hre.1]) }
      have hleft : LeftGrown s s₂ p c
          (if E.bigLeft c b then E.calls room (c.left b) ((E.reordered c s b).addLeft p c b)
            else .nil) := by
        refine hsame ?_
        rw [Env.afterLeft, hp] at hs₂
        split at hs₂
        · next hbig =>
            rw [if_pos hbig]
            exact LeftGrown.some hfresh calls_ne_nil (ih (fresh_left hfresh) hs₂)
        · next hbig =>
            obtain rfl := Option.some.inj hs₂
            rw [if_neg hbig]
            exact LeftGrown.none hfresh
      rcases hend with ⟨hskip, rfl⟩ | ⟨hgo, hright⟩
      · rw [if_pos hskip]
        exact hleft.stop
      · have hskip : ¬ E.skipsRight c b s₂ = true := by rw [hgo]; exact Bool.false_ne_true
        rw [if_neg hskip]
        exact hleft.go calls_ne_nil (ih hleft.fresh_right hright)

end Nodes

end QStore.Dt
