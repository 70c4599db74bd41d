import Mathlib.Algebra.BigOperators.Group.Finset.Basic
import Mathlib.Algebra.Order.BigOperators.Group.Finset
import Mathlib.Algebra.Order.Ring.Nat
import Mathlib.Data.Finset.Max
import Mathlib.Data.List.GetD
import Mathlib.Tactic.Common

/-!
# QStore.Lib.Entries

Lists of numbers of which single entries are set, and their sums. Different powers of two add
up to a lot:

```
1 + 2 + 4 + .. + 2 ^ (n - 1) = 2 ^ n - 1        the least sum of n of them
```
-/

namespace QStore

section Set

variable {l : List Nat} {i v : Nat}

theorem getD_set (hi : i < l.length) (j : Nat) :
    (l.set i v).getD j 0 = if i = j then v else l.getD j 0 := by
  rw [List.getD_eq_getElem?_getD, List.getElem?_set, List.getD_eq_getElem?_getD]
  by_cases hij : i = j
  · simp [← hij, hi]
  · simp [hij]

theorem set_eq_self (h : l.getD i 0 = v) : l.set i v = l := by
  by_cases hi : i < l.length
  · rw [List.getD_eq_getElem _ _ hi] at h
    rw [← h, List.set_getElem_self]
  · exact List.set_eq_of_length_le (by omega)

theorem sum_set (hi : i < l.length) (v : Nat) : (l.set i v).sum + l.getD i 0 = l.sum + v := by
  induction l generalizing i with
  | nil => simp at hi
  | cons x l ih =>
      cases i with
      | zero => simp [Nat.add_comm, Nat.add_left_comm]
      | succ i =>
          have h := ih (i := i) (by simpa using hi)
          simp only [List.set_cons_succ, List.sum_cons, List.getD_cons_succ]
          omega

theorem count_set_of_ne {a : Nat} (hi : i < l.length) (hold : l.getD i 0 ≠ a) (hv : v ≠ a) :
    (l.set i v).count a = l.count a := by
  rw [List.getD_eq_getElem _ _ hi] at hold
  rw [List.count_set hi]
  simp [hold, hv]

/-- An entry becomes an `a`. -/
theorem count_set_self {a : Nat} (hi : i < l.length) (hold : l.getD i 0 ≠ a) :
    (l.set i a).count a = l.count a + 1 := by
  rw [List.getD_eq_getElem _ _ hi] at hold
  rw [List.count_set hi]
  simp [hold]

/-- An entry that was an `a` is one no longer. -/
theorem count_set_other {a : Nat} (hi : i < l.length) (hold : l.getD i 0 = a) (hv : v ≠ a) :
    (l.set i v).count a + 1 = l.count a := by
  have hmem : a ∈ l := by
    rw [List.getD_eq_getElem _ _ hi] at hold
    exact hold ▸ List.getElem_mem hi
  have hpos := List.count_pos_iff.mpr hmem
  rw [List.getD_eq_getElem _ _ hi] at hold
  rw [List.count_set hi]
  simp only [hold, hv, beq_self_eq_true, beq_iff_eq, if_true, if_false]
  omega

end Set

/-! ## powers of two -/

/-- `n` different powers of two, all below the next one. -/
theorem two_pow_card_le {T : Finset ℕ} (h : ∀ w ∈ T, ∃ e, w = 2 ^ e) :
    2 ^ T.card ≤ (∑ w ∈ T, w) + 1 := by
  induction T using Finset.induction_on_max with
  | empty => simp
  | insert a T hmax ih =>
      obtain ⟨e, rfl⟩ := h _ (Finset.mem_insert_self _ _)
      have hT := ih fun w hw => h w (Finset.mem_insert_of_mem hw)
      have hnot : 2 ^ e ∉ T := fun hmem => lt_irrefl _ (hmax _ hmem)
      -- the others are among `1`, `2`, .., `2 ^ (e - 1)`
      have hsub : T ⊆ (Finset.range e).image fun d => 2 ^ d := by
        intro w hw
        obtain ⟨d, rfl⟩ := h w (Finset.mem_insert_of_mem hw)
        exact Finset.mem_image.mpr
          ⟨d, Finset.mem_range.mpr ((Nat.pow_lt_pow_iff_right (by omega)).mp (hmax _ hw)), rfl⟩
      have hcard : T.card ≤ e :=
        (Finset.card_le_card hsub).trans (Finset.card_image_le.trans (Finset.card_range e).le)
      have hpow : 2 ^ T.card ≤ 2 ^ e := Nat.pow_le_pow_right (by omega) hcard
      rw [Finset.card_insert_of_notMem hnot, Finset.sum_insert hnot, Nat.pow_succ]
      omega

/-- **Some two are equal** when the sum is small. -/
theorem not_nodup_of_sum_lt {l : List Nat} (h : ∀ w ∈ l, ∃ e, w = 2 ^ e)
    (hsum : l.sum + 1 < 2 ^ l.length) : ¬ l.Nodup := by
  intro hnd
  have hle := two_pow_card_le (T := l.toFinset) fun w hw => h w (List.mem_toFinset.mp hw)
  have heq : ∑ w ∈ l.toFinset, w = l.sum := by
    simpa using List.sum_toFinset id hnd
  rw [List.toFinset_card_of_nodup hnd, heq] at hle
  omega

end QStore
