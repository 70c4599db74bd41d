import QStore.Lib.Entries
import Mathlib.Algebra.Ring.Nat
import Mathlib.Data.List.GetD
import Mathlib.Logic.Relation
import Mathlib.Order.Bounds.Defs
import Mathlib.Order.Lattice
import Mathlib.Tactic.Common

/-!
# QStore.Lib.Labels

Nodes whose labels fall, pass after pass, until no pass changes any.

A label that starts at or below its node, is always one of the nodes that can be
reached, and in the end is at most the label of every next node, is the least node
that can be reached:

```
edges    0 → 3,  3 → 1          label of 0 ≤ label of 3 ≤ label of 1 ≤ 1
```
-/

namespace QStore.Labels

/-! ## Passes -/

section Passes

variable {σ : Type} {pass : σ → Option (σ × Bool)} {P : σ → Prop} {s t : σ} {n : Nat}

/-- Pass after pass for as long as the last one asks for another, at most so many. A pass
that has no result leaves the whole without one. -/
def passes (pass : σ → Option (σ × Bool)) : Nat → σ → Option σ
  | 0, _ => none
  | fuel + 1, s => (pass s).bind fun r => if r.2 then passes pass fuel r.1 else some r.1

theorem passes_succ : passes pass (n + 1) s =
    (pass s).bind fun r => if r.2 then passes pass n r.1 else some r.1 := rfl

/-- Passes come to an end where each that asks for another makes something smaller; the last
one was made from a state that is as good as any other, and asked for no other. -/
theorem exists_passes (μ : σ → Nat)
    (hpass : ∀ s, P s → ∃ t again, pass s = some (t, again) ∧ P t ∧ (again = true → μ t < μ s))
    (hs : P s) : ∃ n t last, passes pass n s = some t ∧ P last ∧ pass last = some (t, false) := by
  generalize hm : μ s = m
  induction m using Nat.strongRecOn generalizing s with
  | ind m ih =>
      obtain ⟨t, again, ht, hPt, hlt⟩ := hpass s hs
      cases again with
      | false => exact ⟨1, t, s, by simp [passes, ht], hs, ht⟩
      | true =>
          obtain ⟨n, u, last, hn, hlast⟩ := ih (μ t) (by have := hlt rfl; omega) hPt rfl
          exact ⟨n + 1, u, last, by simp [passes, ht, hn], hlast⟩

/-- More passes than it takes change nothing. -/
theorem passes_of_le {m : Nat} (h : passes pass n s = some t) (hm : n ≤ m) :
    passes pass m s = some t := by
  induction n generalizing s m with
  | zero => simp [passes] at h
  | succ n ih =>
      obtain ⟨m, rfl⟩ : ∃ k, m = k + 1 := ⟨m - 1, by omega⟩
      rw [passes_succ, Option.bind_eq_some_iff] at h ⊢
      obtain ⟨r, hr, h⟩ := h
      refine ⟨r, hr, ?_⟩
      by_cases hagain : r.2
      · rw [if_pos hagain] at h ⊢
        exact ih h (by omega)
      · rw [if_neg hagain] at h ⊢
        exact h

/-- The last pass is made from a state that has what every pass keeps. -/
theorem last_of_passes (hpass : ∀ s t again, P s → pass s = some (t, again) → P t)
    (h : passes pass n s = some t) (hs : P s) : ∃ last, P last ∧ pass last = some (t, false) := by
  induction n generalizing s with
  | zero => simp [passes] at h
  | succ n ih =>
      rw [passes_succ, Option.bind_eq_some_iff] at h
      obtain ⟨⟨u, again⟩, hr, h⟩ := h
      cases again with
      | true => exact ih h (hpass s u true hs hr)
      | false =>
          cases h
          exact ⟨s, hs, hr⟩

end Passes

/-! ## The least node that can be reached -/

section Least

open Relation

variable {α : Type*} {r : α → α → Prop} {S : Set α}

/-- Labels that no edge can make smaller are the least nodes that can be reached. -/
theorem isLeast_label [Preorder α] (label : α → α) (hclosed : ∀ i ∈ S, ∀ j, r i j → j ∈ S)
    (hbelow : ∀ i ∈ S, label i ≤ i) (hreach : ∀ i ∈ S, ReflTransGen r i (label i))
    (hstable : ∀ i ∈ S, ∀ j, r i j → label i ≤ label j) {i : α} (hi : i ∈ S) :
    IsLeast {j | ReflTransGen r i j} (label i) := by
  refine ⟨hreach i hi, fun j hj => ?_⟩
  -- along the path to `j`, from its end
  induction hj using ReflTransGen.head_induction_on with
  | refl => exact hbelow _ hi
  | head hab _ ih => exact le_trans (hstable _ hi _ hab) (ih (hclosed _ hi _ hab))

/-- Where edges run both ways, two nodes have the same least node exactly when one can be
reached from the other. -/
theorem label_eq_iff [PartialOrder α] [Std.Symm r] {i j a b : α}
    (hi : IsLeast {k | ReflTransGen r i k} a) (hj : IsLeast {k | ReflTransGen r j k} b) :
    a = b ↔ ReflTransGen r i j := by
  constructor
  · intro hab
    have hback : ReflTransGen r b j := Std.Symm.symm j b hj.1
    exact hi.1.trans (hab ▸ hback)
  · intro hij
    have hji : ReflTransGen r j i := Std.Symm.symm i j hij
    exact le_antisymm (hi.2 (hij.trans hj.1)) (hj.2 (hji.trans hi.1))

end Least

/-! ## A list of labels -/

section Labelled

open Relation

variable {r : Nat → Nat → Prop} {n i j v : Nat} {l : List Nat}

/-- Every one of the nodes `0 … n - 1` is labelled with one that can be reached from it, and
that does not come after it. -/
structure Labelled (r : Nat → Nat → Prop) (n : Nat) (l : List Nat) : Prop where
  length : l.length = n
  below : ∀ i < n, l.getD i 0 ≤ i
  reach : ∀ i < n, ReflTransGen r i (l.getD i 0)

theorem labelled_range (r : Nat → Nat → Prop) (n : Nat) : Labelled r n (List.range n) where
  length := by simp
  below i hi := by simp [hi]
  reach i hi := by simp [hi, ReflTransGen.refl]

theorem Labelled.set (h : Labelled r n l) (hi : i < n) (hle : v ≤ i) (hv : ReflTransGen r i v) :
    Labelled r n (l.set i v) where
  length := by simpa using h.length
  below j hj := by
    rw [getD_set (h.length ▸ hi)]
    split
    · next hij => exact hij ▸ hle
    · exact h.below j hj
  reach j hj := by
    rw [getD_set (h.length ▸ hi)]
    split
    · next hij => exact hij ▸ hv
    · exact h.reach j hj

theorem Labelled.isLeast (h : Labelled r n l) (hr : ∀ i < n, ∀ j, r i j → j < n)
    (hstable : ∀ i < n, ∀ j, r i j → l.getD i 0 ≤ l.getD j 0) (hi : i < n) :
    IsLeast {j | ReflTransGen r i j} (l.getD i 0) :=
  isLeast_label (S := {i | i < n}) (fun i => l.getD i 0) hr h.below h.reach hstable hi

end Labelled

end QStore.Labels
