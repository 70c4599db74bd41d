import Mathlib.Data.Tree.Basic
import Mathlib.Data.List.Perm.Basic
import Mathlib.Order.Lattice
import Mathlib.Tactic.Common

/-!
# QStore.Lib.Preorder

Binary trees laid out in preorder: a node, its left subtree, its right subtree. A
program that gives out node numbers one after the other as it descends, and
stores for each node the numbers of its children and of its parent, builds such a
layout (`Laid`). What holds of the root of every subtree then holds of every
number (`All.sub`), each number but the first is the child of exactly one other
(`Laid.parent`), and if a node with children shares out what it has between two of
them, the leaves share out what the root has (`existsUnique_leaf`).
-/

namespace QStore

variable {α β : Type} {a b x : α} {l r t u u' : BinaryTree α} {k p : Nat}

/-- The values of a tree, each before those below it. -/
def preorder : BinaryTree α → List α
  | .nil => []
  | .node a l r => a :: (preorder l ++ preorder r)

@[simp] theorem preorder_nil : preorder (.nil : BinaryTree α) = [] := rfl

@[simp] theorem preorder_node : preorder (.node a l r) = a :: (preorder l ++ preorder r) := rfl

theorem mem_preorder_node :
    x ∈ preorder (.node a l r) ↔ x = a ∨ x ∈ preorder l ∨ x ∈ preorder r := by
  simp

theorem length_preorder : (preorder t).length = t.numNodes := by
  induction t with
  | nil => rfl
  | node a l r ihl ihr =>
      simp only [preorder_node, List.length_cons, List.length_append, ihl, ihr,
        BinaryTree.numNodes]

/-! ## subtrees by number -/

/-- `u` is the subtree at number `k` of the tree whose root has number `p`. -/
def Sub (u : BinaryTree α) (k : Nat) : Nat → BinaryTree α → Prop
  | _, .nil => False
  | p, .node a l r =>
    k = p ∧ u = .node a l r ∨ Sub u k (p + 1) l ∨ Sub u k (p + 1 + l.numNodes) r

@[simp] theorem numNodes_nil : (.nil : BinaryTree α).numNodes = 0 := rfl

@[simp] theorem numNodes_node :
    (BinaryTree.node a l r).numNodes = l.numNodes + r.numNodes + 1 := rfl

theorem sub_whole : Sub (.node a l r) p p (.node a l r) := .inl ⟨rfl, rfl⟩

theorem Sub.node (h : Sub u k p t) : ∃ a l r, u = .node a l r := by
  induction t generalizing p with
  | nil => exact h.elim
  | node a l r ihl ihr =>
    rcases h with ⟨-, rfl⟩ | h | h
    · exact ⟨a, l, r, rfl⟩
    · exact ihl h
    · exact ihr h

theorem Sub.range (h : Sub u k p t) : p ≤ k ∧ k + u.numNodes ≤ p + t.numNodes := by
  induction t generalizing p with
  | nil => exact h.elim
  | node a l r ihl ihr =>
    rcases h with ⟨rfl, rfl⟩ | h | h
    · exact ⟨le_rfl, le_rfl⟩
    · have := ihl h
      rw [numNodes_node]
      omega
    · have := ihr h
      rw [numNodes_node]
      omega

theorem Sub.lt (h : Sub u k p t) : k < p + t.numNodes := by
  obtain ⟨a, l, r, rfl⟩ := h.node
  have := h.range.2
  rw [numNodes_node] at this
  omega

/-- Every number belongs to a subtree. -/
theorem exists_sub (h1 : p ≤ k) (h2 : k < p + t.numNodes) : ∃ a l r, Sub (.node a l r) k p t := by
  induction t generalizing p with
  | nil => rw [numNodes_nil] at h2; omega
  | node a l r ihl ihr =>
    rw [numNodes_node] at h2
    by_cases hk : k = p
    · exact ⟨a, l, r, .inl ⟨hk, rfl⟩⟩
    · by_cases hl : k < p + 1 + l.numNodes
      · obtain ⟨a', l', r', h⟩ := ihl (by omega) hl
        exact ⟨a', l', r', .inr (.inl h)⟩
      · obtain ⟨a', l', r', h⟩ := ihr (not_lt.mp hl) (by omega)
        exact ⟨a', l', r', .inr (.inr h)⟩

theorem Sub.trans {q : Nat} (h : Sub u k p t) (h' : Sub u' q k u) : Sub u' q p t := by
  induction t generalizing p with
  | nil => exact h.elim
  | node a l r ihl ihr =>
    rcases h with ⟨rfl, rfl⟩ | h | h
    · exact h'
    · exact .inr (.inl (ihl h))
    · exact .inr (.inr (ihr h))

/-- The number of a subtree is the place of its root in the list. -/
theorem Sub.getElem? (h : Sub (.node x l r) k p t) : (preorder t)[k - p]? = some x := by
  induction t generalizing p with
  | nil => exact h.elim
  | node a l' r' ihl ihr =>
    rcases h with ⟨rfl, he⟩ | h | h
    · cases he
      simp
    · have hr := h.range
      have hlt := h.lt
      obtain ⟨i, rfl⟩ : ∃ i, k = p + 1 + i := ⟨k - (p + 1), by omega⟩
      have hi := ihl h
      rw [Nat.add_sub_cancel_left] at hi
      rw [show p + 1 + i - p = i + 1 by omega, preorder_node, List.getElem?_cons_succ,
        List.getElem?_append_left (by rw [length_preorder]; omega)]
      exact hi
    · have hr := h.range
      obtain ⟨i, rfl⟩ : ∃ i, k = p + 1 + l'.numNodes + i := ⟨k - (p + 1 + l'.numNodes), by omega⟩
      have hi := ihr h
      rw [Nat.add_sub_cancel_left] at hi
      rw [show p + 1 + l'.numNodes + i - p = l'.numNodes + i + 1 by omega, preorder_node,
        List.getElem?_cons_succ, List.getElem?_append_right (by rw [length_preorder]; omega),
        length_preorder, Nat.add_sub_cancel_left]
      exact hi

/-- Every value in the list is the root of a subtree. -/
theorem exists_sub_of_mem (h : x ∈ preorder t) : ∃ k l r, Sub (.node x l r) k p t := by
  induction t generalizing p with
  | nil => exact absurd h List.not_mem_nil
  | node a l r ihl ihr =>
    rcases mem_preorder_node.mp h with rfl | h | h
    · exact ⟨p, l, r, sub_whole⟩
    · obtain ⟨k, l', r', hs⟩ := ihl h
      exact ⟨k, l', r', .inr (.inl hs)⟩
    · obtain ⟨k, l', r', hs⟩ := ihr h
      exact ⟨k, l', r', .inr (.inr hs)⟩

/-! ## hereditary properties -/

/-- `P` holds of every subtree that is not empty. -/
def All (P : BinaryTree α → Prop) : BinaryTree α → Prop
  | .nil => True
  | .node a l r => P (.node a l r) ∧ All P l ∧ All P r

theorem All.sub {P : BinaryTree α → Prop} (h : All P t) (hs : Sub u k p t) : P u ∧ All P u := by
  induction t generalizing p with
  | nil => exact hs.elim
  | node a l r ihl ihr =>
    rcases hs with ⟨-, rfl⟩ | hs | hs
    · exact ⟨h.1, h⟩
    · exact ihl h.2.1 hs
    · exact ihr h.2.2 hs

/-- Every node has two children or none. -/
def Balanced : BinaryTree α → Prop
  | .node _ l r => l = .nil ↔ r = .nil
  | .nil => True

/-- What `ρ` gives to the root. -/
def Has (ρ : α → β → Prop) (y : β) : BinaryTree α → Prop
  | .nil => False
  | .node a _ _ => ρ a y

/-- A node with two children shares out between them what it has. -/
def Shares (ρ : α → β → Prop) : BinaryTree α → Prop
  | .node a l r => l ≠ .nil → r ≠ .nil → ∀ y,
    (ρ a y ↔ Has ρ y l ∨ Has ρ y r) ∧ ¬ (Has ρ y l ∧ Has ρ y r)
  | .nil => True

section Shares

variable {ρ : α → β → Prop} {y : β}

/-- A tree that has nothing below its root, or two trees. -/
theorem Balanced.cases (h : Balanced (.node a l r)) : l = .nil ∧ r = .nil ∨ l ≠ .nil ∧ r ≠ .nil := by
  by_cases hl : l = .nil
  · exact .inl ⟨hl, h.mp hl⟩
  · exact .inr ⟨hl, fun hr => hl (h.mpr hr)⟩

/-- What a node below has, the root has. -/
theorem Sub.of_shares (hb : All Balanced t) (hs : All (Shares ρ) t) (h : Sub u k p t)
    (hy : Has ρ y u) : Has ρ y t := by
  induction t generalizing p with
  | nil => exact h.elim
  | node a l r ihl ihr =>
    rcases hb.1.cases with ⟨rfl, rfl⟩ | ⟨hl, hr⟩
    · rcases h with ⟨-, rfl⟩ | h | h
      · exact hy
      · exact h.elim
      · exact h.elim
    · obtain ⟨hor, -⟩ := hs.1 hl hr y
      rcases h with ⟨-, rfl⟩ | h | h
      · exact hy
      · exact hor.mpr (.inl (ihl hb.2.1 hs.2.1 h))
      · exact hor.mpr (.inr (ihr hb.2.2 hs.2.2 h))

/-- What the root has, one leaf has. -/
theorem existsUnique_leaf (hb : All Balanced t) (hs : All (Shares ρ) t) (hy : Has ρ y t) :
    ∃ k b, (Sub (.node b .nil .nil) k p t ∧ ρ b y) ∧
      ∀ k' b', Sub (.node b' .nil .nil) k' p t → ρ b' y → k' = k := by
  induction t generalizing p with
  | nil => exact hy.elim
  | node a l r ihl ihr =>
    rcases hb.1.cases with ⟨rfl, rfl⟩ | ⟨hl, hr⟩
    · refine ⟨p, a, ⟨sub_whole, hy⟩, fun k' b' h _ => ?_⟩
      rcases h with ⟨hk, -⟩ | h | h
      · exact hk
      · exact h.elim
      · exact h.elim
    · obtain ⟨hor, hdis⟩ := hs.1 hl hr y
      rcases hor.mp hy with hc | hd
      · obtain ⟨k, b, ⟨hk, hbk⟩, huniq⟩ := ihl (p := p + 1) hb.2.1 hs.2.1 hc
        refine ⟨k, b, ⟨.inr (.inl hk), hbk⟩, fun k' b' h hb' => ?_⟩
        rcases h with ⟨-, he⟩ | h | h
        · cases he
          exact absurd rfl hl
        · exact huniq k' b' h hb'
        · exact absurd ⟨hc, h.of_shares (u := .node b' .nil .nil) hb.2.2 hs.2.2 hb'⟩ hdis
      · obtain ⟨k, b, ⟨hk, hbk⟩, huniq⟩ := ihr (p := p + 1 + l.numNodes) hb.2.2 hs.2.2 hd
        refine ⟨k, b, ⟨.inr (.inr hk), hbk⟩, fun k' b' h hb' => ?_⟩
        rcases h with ⟨-, he⟩ | h | h
        · cases he
          exact absurd rfl hl
        · exact absurd ⟨h.of_shares (u := .node b' .nil .nil) hb.2.1 hs.2.1 hb', hd⟩ hdis
        · exact huniq k' b' h hb'

end Shares

/-! ## the layout -/

/-- The number of a child, or -1. -/
def link (k : Nat) : BinaryTree α → Int
  | .nil => -1
  | .node .. => k

theorem link_eq {q : Nat} (h : link q t = (k : Int)) : t ≠ .nil ∧ q = k := by
  cases t with
  | nil => exact absurd h (by simp only [link]; omega)
  | node => exact ⟨by simp, Int.ofNat.inj h⟩

theorem link_eq_neg_one (h : link p t = -1) : t = .nil := by
  cases t with
  | nil => rfl
  | node => exact absurd h (by simp only [link]; omega)

theorem link_of_ne (h : t ≠ .nil) : link p t = p := by
  cases t with
  | nil => exact absurd rfl h
  | node => rfl

/-- The tree stands from `p` on in the columns of left children, right children and
parents. -/
def Laid (lc rc par : Nat → Int) : Nat → BinaryTree α → Prop
  | _, .nil => True
  | p, .node _ l r =>
    (lc p = link (p + 1) l ∧ rc p = link (p + 1 + l.numNodes) r) ∧
      ((l ≠ .nil → par (p + 1) = p) ∧ (r ≠ .nil → par (p + 1 + l.numNodes) = p)) ∧
      Laid lc rc par (p + 1) l ∧ Laid lc rc par (p + 1 + l.numNodes) r

section Laid

variable {lc rc par lc' rc' par' : Nat → Int} {q : Nat}

theorem Laid.sub (h : Laid lc rc par p t) (hs : Sub u k p t) : Laid lc rc par k u := by
  induction t generalizing p with
  | nil => exact hs.elim
  | node a l r ihl ihr =>
    rcases hs with ⟨rfl, rfl⟩ | hs | hs
    · exact h
    · exact ihl h.2.2.1 hs
    · exact ihr h.2.2.2 hs

/-- Only the entries of the tree matter. -/
theorem Laid.congr (h : Laid lc rc par p t)
    (hc : ∀ k, p ≤ k → k < p + t.numNodes → lc' k = lc k ∧ rc' k = rc k)
    (hp : ∀ k, p < k → k < p + t.numNodes → par' k = par k) : Laid lc' rc' par' p t := by
  induction t generalizing p with
  | nil => trivial
  | node a l r ihl ihr =>
    obtain ⟨⟨h1, h2⟩, ⟨h3, h4⟩, h5, h6⟩ := h
    rw [numNodes_node] at hc hp
    have hroot := hc p le_rfl (by omega)
    refine ⟨⟨hroot.1.trans h1, hroot.2.trans h2⟩, ⟨fun hl => ?_, fun hr => ?_⟩, ?_, ?_⟩
    · cases l with
      | nil => exact absurd rfl hl
      | node => rw [hp _ (by omega) (by rw [numNodes_node]; omega), h3 hl]
    · cases r with
      | nil => exact absurd rfl hr
      | node => rw [hp _ (by omega) (by rw [numNodes_node]; omega), h4 hr]
    · exact ihl h5 (fun k hk1 hk2 => hc k (by omega) (by omega))
        fun k hk1 hk2 => hp k (by omega) (by omega)
    · exact ihr h6 (fun k hk1 hk2 => hc k (by omega) (by omega))
        fun k hk1 hk2 => hp k (by omega) (by omega)

/-- A child comes after its parent and belongs to the same tree. -/
theorem Laid.child_range (h : Laid lc rc par p t) (h1 : p ≤ q) (h2 : q < p + t.numNodes)
    (hq : lc q = k ∨ rc q = k) : q < k ∧ k < p + t.numNodes := by
  obtain ⟨a, l, r, hs⟩ := exists_sub h1 h2
  have hrange := hs.range.2
  rw [numNodes_node] at hrange
  obtain ⟨⟨hl, hr⟩, -⟩ := h.sub hs
  rcases hq with hq | hq
  · obtain ⟨hne, rfl⟩ := link_eq (hl.symm.trans hq)
    cases l with
    | nil => exact absurd rfl hne
    | node => rw [numNodes_node] at hrange; omega
  · obtain ⟨hne, rfl⟩ := link_eq (hr.symm.trans hq)
    cases r with
    | nil => exact absurd rfl hne
    | node => rw [numNodes_node] at hrange; omega

/-- Every number but the first is the child of one other, which is its parent. -/
theorem Laid.parent (h : Laid lc rc par p t) (h1 : p < k) (h2 : k < p + t.numNodes) :
    ∃ q, (p ≤ q ∧ q < k ∧ (lc q = k ∨ rc q = k) ∧ par k = q) ∧
      ∀ q', p ≤ q' → q' < p + t.numNodes → lc q' = k ∨ rc q' = k → q' = q := by
  induction t generalizing p with
  | nil => rw [numNodes_nil] at h2; omega
  | node a l r ihl ihr =>
    obtain ⟨⟨hlc, hrc⟩, ⟨hpl, hpr⟩, hl, hr⟩ := h
    rw [numNodes_node] at h2 ⊢
    -- where the parent of `k` may be, by the side it is on
    have hwhere : ∀ q', p ≤ q' → q' < p + (l.numNodes + r.numNodes + 1) → lc q' = k ∨ rc q' = k →
        q' = p ∧ (k = p + 1 ∧ l ≠ .nil ∨ k = p + 1 + l.numNodes ∧ r ≠ .nil) ∨
          (p + 1 ≤ q' ∧ q' < p + 1 + l.numNodes ∧ q' < k ∧ k < p + 1 + l.numNodes) ∨
          (p + 1 + l.numNodes ≤ q' ∧ q' < k) := by
      intro q' hq1 hq2 hq
      by_cases hqp : q' = p
      · subst hqp
        rcases hq with hq | hq
        · obtain ⟨hne, hk⟩ := link_eq (hlc.symm.trans hq)
          exact .inl ⟨rfl, .inl ⟨hk.symm, hne⟩⟩
        · obtain ⟨hne, hk⟩ := link_eq (hrc.symm.trans hq)
          exact .inl ⟨rfl, .inr ⟨hk.symm, hne⟩⟩
      · by_cases hql : q' < p + 1 + l.numNodes
        · have := hl.child_range (by omega) hql hq
          exact .inr (.inl ⟨by omega, hql, this.1, this.2⟩)
        · have := hr.child_range (not_lt.mp hql) (by omega) hq
          exact .inr (.inr ⟨not_lt.mp hql, this.1⟩)
    rcases Nat.lt_trichotomy k (p + 1 + l.numNodes) with hk | rfl | hk
    · cases l with
      | nil => rw [numNodes_nil] at hk; omega
      | node b l₁ r₁ =>
        rcases Nat.lt_or_ge (p + 1) k with hk1 | hk1
        · obtain ⟨q, ⟨hq1, hq2, hq3, hq4⟩, huniq⟩ := ihl hl hk1 hk
          refine ⟨q, ⟨by omega, hq2, hq3, hq4⟩, fun q' hq1 hq2 hq => ?_⟩
          rcases hwhere q' hq1 hq2 hq with h | h | h
          · omega
          · exact huniq q' h.1 h.2.1 hq
          · omega
        · obtain rfl : k = p + 1 := by omega
          refine ⟨p, ⟨le_rfl, h1, .inl hlc, hpl (by simp)⟩, fun q' hq1 hq2 hq => ?_⟩
          rcases hwhere q' hq1 hq2 hq with h | h | h <;> omega
    · cases r with
      | nil => rw [numNodes_nil] at h2; omega
      | node b l₁ r₁ =>
        refine ⟨p, ⟨le_rfl, h1, .inr hrc, hpr (by simp)⟩, fun q' hq1 hq2 hq => ?_⟩
        rcases hwhere q' hq1 hq2 hq with h | h | h <;> omega
    · obtain ⟨q, ⟨hq1, hq2, hq3, hq4⟩, huniq⟩ := ihr hr hk (by omega)
      refine ⟨q, ⟨by omega, hq2, hq3, hq4⟩, fun q' hq1 hq2 hq => ?_⟩
      rcases hwhere q' hq1 hq2 hq with h | h | h
      · omega
      · omega
      · exact huniq q' h.1 (by omega) hq

end Laid

end QStore
