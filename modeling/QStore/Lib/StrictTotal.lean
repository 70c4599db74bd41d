import Mathlib.Data.List.Sort
import Mathlib.Data.List.Perm.Basic

/-!
# QStore.Lib.StrictTotal

Comparators that are a strict total order on the entries of one array, and what a
sort by a comparator is taken to do: on such an array it sorts; on others nothing
is said.
-/

namespace QStore

variable {α : Type}

/-- A comparator orders the entries of `L` in one line. -/
structure StrictTotalOn (cmp : α → α → Int) (L : List α) : Prop where
  irrefl : ∀ a ∈ L, ¬ cmp a a < 0
  trans : ∀ a ∈ L, ∀ b ∈ L, ∀ c ∈ L, cmp a b < 0 → cmp b c < 0 → cmp a c < 0
  total : ∀ a ∈ L, ∀ b ∈ L, a ≠ b → cmp a b < 0 ∨ cmp b a < 0

/-- The contract of `qsort`. -/
def SortsBy (qsort : (α → α → Int) → List α → List α) : Prop :=
  ∀ cmp L, L.Nodup → StrictTotalOn cmp L →
    (qsort cmp L).Perm L ∧ (qsort cmp L).Pairwise fun a b => cmp a b < 0

theorem StrictTotalOn.asymm {cmp : α → α → Int} {L : List α} (h : StrictTotalOn cmp L) {a b : α}
    (ha : a ∈ L) (hb : b ∈ L) (hab : cmp a b < 0) : ¬ cmp b a < 0 := fun hba =>
  h.irrefl a ha (h.trans a ha b hb a ha hab hba)

section Attach

variable [DecidableEq α]

/-- A sort that keeps the contract. -/
def attachSort (cmp : α → α → Int) (L : List α) : List α :=
  (L.attach.mergeSort fun a b => decide (a = b ∨ cmp a.1 b.1 < 0)).map Subtype.val

theorem sortsBy_attachSort : SortsBy (attachSort : (α → α → Int) → List α → List α) := by
  intro cmp L hnd h
  have hperm := L.attach.mergeSort_perm fun a b => decide (a = b ∨ cmp a.1 b.1 < 0)
  have hsorted : (L.attach.mergeSort fun a b => decide (a = b ∨ cmp a.1 b.1 < 0)).Pairwise
      fun a b => decide (a = b ∨ cmp a.1 b.1 < 0) = true := L.attach.pairwise_mergeSort (by
      intro a b c hab hbc
      rw [decide_eq_true_iff] at hab hbc ⊢
      rcases hab with rfl | hab
      · exact hbc
      · rcases hbc with rfl | hbc
        · exact .inr hab
        · exact .inr (h.trans a.1 a.2 b.1 b.2 c.1 c.2 hab hbc)) (by
      intro a b
      rw [Bool.or_eq_true, decide_eq_true_iff, decide_eq_true_iff]
      by_cases hab : a = b
      · exact .inl (.inl hab)
      · have hne : a.1 ≠ b.1 := fun he => hab (Subtype.ext he)
        exact (h.total a.1 a.2 b.1 b.2 hne).imp .inr .inr)
  have hmap : (attachSort cmp L).Perm L := by
    have := hperm.map Subtype.val
    rwa [List.attach_map_subtype_val] at this
  refine ⟨hmap, ?_⟩
  have hnodup : (L.attach.mergeSort fun a b => decide (a = b ∨ cmp a.1 b.1 < 0)).Nodup :=
    hperm.nodup_iff.mpr (List.nodup_attach.mpr hnd)
  rw [attachSort, List.pairwise_map]
  refine (hsorted.and hnodup).imp fun {a b} hab => ?_
  exact (of_decide_eq_true hab.1).resolve_left hab.2

end Attach

end QStore
