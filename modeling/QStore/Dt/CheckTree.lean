import QStore.Dt.Shape

/-!
# QStore.Dt.CheckTree

`check_tree` (`check_tree.c`), which `main` calls on the tree that `split` has built: every node is
large enough and not too deep, comes after its parent and is one of its children.

```
node     0   1   2   3
parent  -1   0   1   0
left     1   2  -1  -1
right    3  -1  -1  -1
```

It asks less than that the tree has its shape: a node may have one child. So it accepts every tree
that is built, also those of which `TreeShaped` fails, if only the root is large enough
(`grow_checkTree`). The count of swaps of a sequential build is left out.
-/

namespace QStore.Dt

/-- `(int)g_C.max_depth` -/
def Config.maxDepthInt (cfg : Config) : Int :=
  if cfg.maxDepth < 2 ^ 31 then cfg.maxDepth else cfg.maxDepth - 2 ^ 32

/-- The round of `check_tree` for node `i`: whether it goes on. -/
def checkNode (cfg : Config) (tree : Nat → Node) (i : Nat) : Bool :=
  let v := tree i
  ¬ (v.nT + v.nH) % 2 ^ 32 < cfg.minPartitionSize ∧
  ¬ (v.depth < 0 ∨ v.depth > cfg.maxDepthInt) ∧
  (if i = 0 then ¬ v.parentId ≠ -1 else ¬ v.parentId < 0) ∧
  ¬ v.lchildId = 0 ∧
  ¬ v.rchildId = 0 ∧
  ¬ (v.lchildId > 0 ∧ v.parentId ≥ v.lchildId) ∧
  ¬ (v.rchildId > 0 ∧ v.parentId ≥ v.rchildId) ∧
  ¬ (v.rchildId > 0 ∧ v.lchildId = v.rchildId) ∧
  if i > 0 then
    ¬ ((tree v.parentId.toNat).lchildId ≠ i ∧ (tree v.parentId.toNat).rchildId ≠ i) ∧
    ¬ v.depth ≤ 0 ∧
    ¬ v.depth ≠ (tree v.parentId.toNat).depth + 1
  else ¬ v.depth ≠ 0

/-- Whether a node is counted as a leaf. -/
def isLeaf (v : Node) : Bool := v.lchildId < 0 ∧ v.rchildId < 0

/-- `check_tree` -/
def checkTree (cfg : Config) (tree : Nat → Node) (nTree : Nat) : Int :=
  if (tree 0).parentId ≠ -1 then -1
  else if !(List.range nTree).all (checkNode cfg tree) then -1
  else
    let numLeaves := (List.range nTree).countP fun i => isLeaf (tree i)
    let numInterior := (List.range nTree).countP fun i => !isLeaf (tree i)
    if numLeaves + numInterior ≠ nTree then -1 else 0

variable {V : Type} [LinearOrder V] {D : DataSet V} {qs : Qsort V} {R : Double} {cfg : Config}
  {junk tmpY : Nat → Nat → Nat} {c : Call} {s s' : St} {room i k : Nat} {tree : Nat → Node}

/-- The last count never fails. -/
theorem checkTree_eq_zero {n : Nat} : checkTree cfg tree n = 0 ↔
    (tree 0).parentId = -1 ∧ ∀ i < n, checkNode cfg tree i = true := by
  have hcount := List.length_eq_countP_add_countP (fun i => isLeaf (tree i)) (l := List.range n)
  rw [List.length_range] at hcount
  have hall : (List.range n).all (checkNode cfg tree) = true ↔
      ∀ i < n, checkNode cfg tree i = true := by
    rw [List.all_eq_true]
    exact forall_congr' fun i => by rw [List.mem_range]
  rw [checkTree, ← hall]
  by_cases hp : (tree 0).parentId = -1
  · rw [if_neg (not_not_intro hp)]
    cases (List.range n).all (checkNode cfg tree) with
    | false => simp
    | true =>
        have hsum : (List.range n).countP (fun i => isLeaf (tree i)) +
            (List.range n).countP (fun i => !isLeaf (tree i)) = n := by
          simpa only [Bool.not_eq_true, Bool.decide_eq_false] using hcount.symm
        simp [hp, hsum]
  · simp [hp]

/-! ## a node of the tree that is built -/

/-- The root of a tree of calls is one that `check_tree` finds no fault with. -/
def CallOk (D : DataSet V) (cfg : Config) : BinaryTree (Call × St) → Prop
  | .nil => True
  | .node x _ _ => cfg.minPartitionSize ≤ x.1.nT + x.1.nH ∧ x.1.nT + x.1.nH ≤ D.n ∧
    x.1.depth ≤ cfg.maxDepth

/-- The children of a call are one level below it. -/
def Deepens : BinaryTree (Call × St) → Prop
  | .nil => True
  | .node x l r => ∀ y, Has (fun z y => z = y) y l ∨ Has (fun z y => z = y) y r →
    y.1.depth = x.1.depth + 1

theorem callOk_calls (h : RunInv D cfg room c s) : CallOk D cfg ((Env.of D R cfg).calls room c s) := by
  obtain ⟨l, r, he⟩ := calls_root (Env.of D R cfg) room c s
  have hsize := h.size
  have hub := h.ub_le
  have hbig := h.big
  have hlevels := h.levels
  rw [he]
  show cfg.minPartitionSize ≤ c.nT + c.nH ∧ c.nT + c.nH ≤ D.n ∧ c.depth ≤ cfg.maxDepth
  omega

theorem deepens_calls (hd : cfg.isDebug = false) (h : RunInv D cfg room c s) :
    Deepens ((Env.of D R cfg).calls room c s) := by
  cases h.calls_cases (R := R) hd with
  | inl he =>
      rw [he]
      exact fun y hy => (hy.elim id id).elim
  | inr hex =>
      obtain ⟨room', b, s₂, rfl, hb⟩ := hex
      obtain ⟨l, t, hl⟩ := calls_root (Env.of D R cfg) room' (c.left b)
        (((Env.of D R cfg).reordered c s b).addLeft (s.nTree - 1) c b)
      obtain ⟨l', t', hr⟩ := calls_root (Env.of D R cfg) room' (c.right b)
        (s₂.addRight (s.nTree - 1) c b)
      rw [hb.calls, hl, hr]
      rintro y (hy | hy)
      · exact hy ▸ rfl
      · split at hy
        · exact hy.elim
        · exact hy ▸ rfl

/-- A node and its parent in a tree that is laid out: the call of the parent has that of the node
for its left or its right child. -/
theorem Grown.depth_child {q : Nat} {t : BinaryTree (Call × St)} (hg : Grown s s' 0 t)
    (hdeep : All Deepens t) (hk : k < s'.nTree) (hq : q < s'.nTree)
    (hchild : s'.lchild q = k ∨ s'.rchild q = k) :
    (s'.tree k).depth = (s'.tree q).depth + 1 := by
  have hn : s'.nTree = 0 + t.numNodes := hg.nTree
  obtain ⟨x, l, r, hx⟩ := exists_sub (p := 0) (Nat.zero_le k) (hn ▸ hk)
  obtain ⟨y, l', r', hy⟩ := exists_sub (p := 0) (Nat.zero_le q) (hn ▸ hq)
  obtain ⟨⟨hl, hr⟩, -⟩ := hg.laid.sub hy
  have hxk : NodeOf (s'.tree k) x.1 := hg.info _ _ hx
  have hyq : NodeOf (s'.tree q) y.1 := hg.info _ _ hy
  have hdepth : ∀ {u : BinaryTree (Call × St)}, Sub u k q (.node y l' r') →
      (u = l' ∨ u = r') → u ≠ .nil → x.1.depth = y.1.depth + 1 := by
    intro u hsub hu hne
    cases u with
    | nil => exact absurd rfl hne
    | node z l₁ r₁ =>
        obtain rfl := Option.some.inj (hx.getElem?.symm.trans (hy.trans hsub).getElem?)
        refine (hdeep.sub hy).1 x ?_
        cases hu with
        | inl hu => exact .inl (hu ▸ rfl)
        | inr hu => exact .inr (hu ▸ rfl)
  have hcall : x.1.depth = y.1.depth + 1 := by
    cases hchild with
    | inl h =>
        obtain ⟨hne, rfl⟩ := link_eq (hl.symm.trans h)
        cases l' with
        | nil => exact absurd rfl hne
        | node => exact hdepth (.inr (.inl sub_whole)) (.inl rfl) hne
    | inr h =>
        obtain ⟨hne, rfl⟩ := link_eq (hr.symm.trans h)
        cases r' with
        | nil => exact absurd rfl hne
        | node => exact hdepth (.inr (.inr sub_whole)) (.inr rfl) hne
  rw [hxk.depth, hyq.depth, hcall]
  rfl

/-- Where the children of a node are: nowhere, or after it and apart. -/
theorem Grown.links {t : BinaryTree (Call × St)} (hg : Grown s s' 0 t) (hk : k < s'.nTree) :
    (s'.lchild k = -1 ∨ (k : Int) < s'.lchild k) ∧ (s'.rchild k = -1 ∨ (k : Int) < s'.rchild k) ∧
      (s'.rchild k ≠ -1 → s'.lchild k ≠ s'.rchild k) := by
  have hn : s'.nTree = 0 + t.numNodes := hg.nTree
  obtain ⟨x, l, r, hs⟩ := exists_sub (p := 0) (Nat.zero_le k) (hn ▸ hk)
  obtain ⟨⟨hl, hr⟩, -⟩ := hg.laid.sub hs
  rw [hl, hr]
  cases l with
  | nil =>
      cases r with
      | nil => simp [link]
      | node => simp [link]; omega
  | node y l₁ r₁ =>
      cases r with
      | nil => simp [link]
      | node => simp [link]; omega

theorem Grown.checkNode {t : BinaryTree (Call × St)} (hg : Grown s s' 0 t)
    (hok : All (CallOk D cfg) t) (hdeep : All Deepens t) (hcfg : cfg.maxDepth < 2 ^ 31)
    (hroot : s'.parent 0 = -1) (hdepth : (s'.tree 0).depth = 0) (hk : k < s'.nTree) :
    checkNode cfg s'.tree k = true := by
  have hn : s'.nTree = 0 + t.numNodes := hg.nTree
  obtain ⟨x, l, r, hs⟩ := exists_sub (p := 0) (Nat.zero_le k) (hn ▸ hk)
  have hx : NodeOf (s'.tree k) x.1 := hg.info _ _ hs
  obtain ⟨hbig, hle, hlev⟩ : cfg.minPartitionSize ≤ x.1.nT + x.1.nH ∧ x.1.nT + x.1.nH ≤ D.n ∧
      x.1.depth ≤ cfg.maxDepth := (hok.sub hs).1
  have hlt := D.n_lt
  have hl : (s'.tree k).lchildId = -1 ∨ (k : Int) < (s'.tree k).lchildId := (hg.links hk).1
  have hr : (s'.tree k).rchildId = -1 ∨ (k : Int) < (s'.tree k).rchildId := (hg.links hk).2.1
  have hlr : (s'.tree k).rchildId ≠ -1 → (s'.tree k).lchildId ≠ (s'.tree k).rchildId :=
    (hg.links hk).2.2
  have hsum : ¬ ((s'.tree k).nT + (s'.tree k).nH) % 2 ^ 32 < cfg.minPartitionSize := by
    rw [hx.nT, hx.nH, Nat.mod_eq_of_lt (by omega)]
    omega
  have hdeep' : ¬ ((s'.tree k).depth < 0 ∨ (s'.tree k).depth > cfg.maxDepthInt) := by
    rw [hx.depth, Config.maxDepthInt, if_pos hcfg]
    omega
  -- the parent comes before the node, which is one of its children
  have hparent : (s'.tree k).parentId < k ∧ if k = 0 then (s'.tree k).parentId = -1 else
      ∃ q : Nat, (s'.tree k).parentId = q ∧ q < s'.nTree ∧
        (s'.lchild q = k ∨ s'.rchild q = k) := by
    by_cases h0 : k = 0
    · subst h0
      have hroot' : (s'.tree 0).parentId = -1 := hroot
      simp [hroot']
    · obtain ⟨q, ⟨-, hlt, hchild, hpar⟩, -⟩ := hg.laid.parent (Nat.pos_of_ne_zero h0) (hn ▸ hk)
      have hpar' : (s'.tree k).parentId = q := hpar
      rw [hpar', if_neg h0]
      exact ⟨by omega, q, rfl, by omega, hchild⟩
  obtain ⟨hbefore, hpar⟩ := hparent
  simp only [Dt.checkNode, decide_eq_true_eq]
  refine ⟨hsum, hdeep', ?_, by omega, by omega, by omega, by omega, ?_, ?_⟩
  · split at hpar
    · next h0 => simp [h0, ← hpar]
    · next h0 =>
      obtain ⟨q, hq, -⟩ := hpar
      rw [if_neg h0, hq]
      omega
  · exact fun hsame => hlr (by omega) hsame.2
  · split at hpar
    · next h0 =>
      subst h0
      simp [hdepth]
    · next h0 =>
      obtain ⟨q, hq, hlt, hchild⟩ := hpar
      have hstep := hg.depth_child hdeep hk hlt hchild
      have hlow : 0 ≤ (s'.tree q).depth := by
        obtain ⟨y, _, _, hy⟩ := exists_sub (p := 0) (Nat.zero_le q) (hn ▸ hlt)
        rw [(show NodeOf (s'.tree q) y.1 from hg.info _ _ hy).depth]
        exact Int.natCast_nonneg _
      rw [if_pos (Nat.pos_of_ne_zero h0), hq, Int.toNat_natCast]
      refine ⟨fun hno => ?_, by omega, by omega⟩
      cases hchild with
      | inl hc => exact hno.1 hc
      | inr hc => exact hno.2 hc

/-! ## whole runs -/

/-- **`check_tree` after `split`** accepts the tree whenever the root is large enough. -/
theorem grow_checkTree (hcfg : cfg.maxDepth < 2 ^ 31)
    (h : grow D R cfg qs junk tmpY = some (c, s, s')) :
    checkTree cfg s'.tree s'.nTree = 0 ↔ cfg.minPartitionSize ≤ D.n := by
  obtain ⟨hd, p, hp, hroot, hrun⟩ := grow_eq_some h
  have hst : Started D cfg c s := root_started hd hp hroot
  have hg := split_grown hst.fresh hrun
  have hparent : s'.parent 0 = -1 := by
    rw [hg.parent]
    rw [Env.root] at hroot
    split at hroot
    · contradiction
    · obtain ⟨-, rfl⟩ := Prod.mk.inj (Option.some.inj hroot)
      rfl
  obtain ⟨l, r, he⟩ := calls_root (Env.of D R cfg) cfg.maxDepth c s
  have hnode : NodeOf (s'.tree 0) c := hg.info 0 (.node (c, s) l r) (by rw [he]; exact sub_whole)
  have hpos : 0 < s'.nTree := by
    rw [hg.nTree, he, numNodes_node]
    omega
  have hdepth : (s'.tree 0).depth = 0 := by
    rw [hnode.depth, hst.depth_eq]
    rfl
  rw [checkTree_eq_zero]
  constructor
  · rintro ⟨-, hall⟩
    have hfirst := hall 0 hpos
    have hn := D.n_lt
    simp only [Dt.checkNode, decide_eq_true_eq] at hfirst
    have hsize := hfirst.1
    rw [hnode.nT, hnode.nH, hst.size, hst.lb_eq, hst.ub_eq, Nat.sub_zero, Nat.mod_eq_of_lt hn] at hsize
    omega
  · intro hbig
    have hinv := hst.run hbig
    have hok := all_calls (R := R) hd (fun _ _ _ hi => callOk_calls (R := R) hi) hinv
    have hdeep := all_calls (R := R) hd (fun _ _ _ hi => deepens_calls (R := R) hd hi) hinv
    exact ⟨hparent, fun k hk => hg.checkNode hok hdeep hcfg hparent hdepth hk⟩

theorem grow_checkTree_six : ∃ c s s',
    grow sixRows (Rounding.exact 53) smallBuffer (Qsort.insertion Nat) (fun _ _ => 0)
      (fun _ _ => 0) = some (c, s, s') ∧
    (checkTree smallBuffer s'.tree s'.nTree = 0 ↔ smallBuffer.minPartitionSize ≤ sixRows.n) := by
  have hrun : (grow sixRows (Rounding.exact 53) smallBuffer (Qsort.insertion Nat) (fun _ _ => 0)
      fun _ _ => 0).isSome = true := by decide +kernel
  obtain ⟨⟨c, s, s'⟩, h⟩ := Option.isSome_iff_exists.mp hrun
  exact ⟨c, s, s', h, grow_checkTree (by decide) h⟩

end QStore.Dt
