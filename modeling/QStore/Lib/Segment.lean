import Mathlib.Data.List.Range
import Mathlib.Data.List.Perm.Basic
import Mathlib.Logic.Function.Basic
import Mathlib.Tactic.Common

/-!
# QStore.Lib.Segment

The part of an array between two positions, as a list. An array is a function
of the position, so a program that writes the array cell by cell is a chain of
`Function.update`, and what a loop has written so far is a segment that grows
by one entry for each write: `seg_write`.
-/

namespace QStore

variable {α β : Type} {a b : Nat → α} {lb mid ub i j k : Nat} {x : α}

/-- The entries of `a` at `lb`, .., `ub - 1`. -/
def seg (a : Nat → α) (lb ub : Nat) : List α :=
  (List.range' lb (ub - lb)).map a

@[simp] theorem length_seg : (seg a lb ub).length = ub - lb := by
  simp [seg]

@[simp] theorem seg_self : seg a lb lb = [] := by
  simp [seg]

theorem mem_seg : x ∈ seg a lb ub ↔ ∃ i, lb ≤ i ∧ i < ub ∧ a i = x := by
  simp only [seg, List.mem_map, List.mem_range'_1]
  constructor
  · rintro ⟨i, hi, rfl⟩
    exact ⟨i, hi.1, by omega, rfl⟩
  · rintro ⟨i, h1, h2, rfl⟩
    exact ⟨i, ⟨h1, by omega⟩, rfl⟩

theorem mem_seg_of (h1 : lb ≤ i) (h2 : i < ub) : a i ∈ seg a lb ub :=
  mem_seg.mpr ⟨i, h1, h2, rfl⟩

theorem seg_congr (h : ∀ i, lb ≤ i → i < ub → a i = b i) : seg a lb ub = seg b lb ub := by
  refine List.map_congr_left fun i hi => ?_
  rw [List.mem_range'_1] at hi
  exact h i hi.1 (by omega)

theorem seg_append (h1 : lb ≤ mid) (h2 : mid ≤ ub) :
    seg a lb mid ++ seg a mid ub = seg a lb ub := by
  have hlen : ub - lb = (mid - lb) + (ub - mid) := by omega
  have hmid : mid = lb + (mid - lb) := by omega
  simp only [seg, ← List.map_append, hlen]
  rw [List.range'_append_1.symm, ← hmid]

theorem seg_succ (h : lb ≤ i) : seg a lb (i + 1) = seg a lb i ++ [a i] := by
  rw [← seg_append h (Nat.le_succ i)]
  simp [seg]

theorem getElem_seg (h : k < (seg a lb ub).length) : (seg a lb ub)[k] = a (lb + k) := by
  simp [seg]

/-- A write outside a segment. -/
theorem seg_update_of_not_mem (h : ¬ (lb ≤ k ∧ k < ub)) :
    seg (Function.update a k x) lb ub = seg a lb ub :=
  seg_congr fun i h1 h2 => Function.update_of_ne (fun he : i = k => h (he ▸ ⟨h1, h2⟩)) ..

/-- A write behind a segment makes it longer. -/
theorem seg_write (h : lb ≤ k) :
    seg (Function.update a k x) lb (k + 1) = seg a lb k ++ [x] := by
  rw [seg_succ h, seg_update_of_not_mem (by omega), Function.update_self]

/-- Entries in order, by their positions. -/
theorem pairwise_seg {r : α → α → Prop} :
    (seg a lb ub).Pairwise r ↔ ∀ i j, lb ≤ i → i < j → j < ub → r (a i) (a j) := by
  rw [seg, List.pairwise_map, List.pairwise_iff_getElem]
  simp only [List.length_range', List.getElem_range', Nat.one_mul]
  constructor
  · intro h i j h1 h2 h3
    have := h (i - lb) (j - lb) (by omega) (by omega) (by omega)
    rwa [Nat.add_sub_cancel' h1, Nat.add_sub_cancel' (by omega)] at this
  · intro h i j hi hj hij
    exact h _ _ (by omega) (by omega) (by omega)

/-- Two positions of a segment without repetition that hold the same. -/
theorem seg_inj {f : α → β} (h : ((seg a lb ub).map f).Nodup) (hi1 : lb ≤ i) (hi2 : i < ub)
    (hj1 : lb ≤ j) (hj2 : j < ub) (he : f (a i) = f (a j)) : i = j := by
  rw [List.Nodup, List.pairwise_map, pairwise_seg] at h
  rcases Nat.lt_trichotomy i j with hlt | heq | hgt
  · exact absurd he (h i j hi1 hlt hj2)
  · exact heq
  · exact absurd he.symm (h j i hj1 hgt hi2)

end QStore
