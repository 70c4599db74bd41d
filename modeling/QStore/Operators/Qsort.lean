import QStore.Operators.DrgSorted

/-!
# QStore.Operators.Qsort

The sort in place (`SORT1/lua/qsort.tmpl`): the drag-along sort, line by line, without a
`srt_ordr`. Values are moved as a whole here, not byte by byte, and NaN is left out.
-/

namespace QStore.Operators

variable {α : Type} [LinearOrder α] {xs : List α}

/-- `qsort_asc_${elem_qtype}` on an array. -/
def qsortAsc : List α → Option (List α)
  | [] => some []
  | x :: xs => do
      let s ← drgQsort (fun v : Fin 1 → α => some (v 0)) (xs.length + 1)
        ⟨fun i _ => (x :: xs).getD i x, fun _ => ()⟩
      pure ((List.range (xs.length + 1)).map fun i => s.val i 0)

/-- **It sorts.** -/
theorem qsortAsc_some (hlen : xs.length < 2 ^ 64) :
    ∃ ys, qsortAsc xs = some ys ∧ ys.Perm xs ∧ ys.Pairwise (· ≤ ·) := by
  cases xs with
  | nil => exact ⟨[], rfl, .nil, .nil⟩
  | cons x xs =>
      obtain ⟨s, hrun, hstir, hord⟩ := drgQsort_some (fun v : Fin 1 → α => some (v 0))
        ⟨fun i _ => (x :: xs).getD i x, fun _ => ()⟩ (Nat.succ_ne_zero xs.length) hlen
      refine ⟨(List.range (xs.length + 1)).map fun i => s.val i 0, ?_, ?_, ?_⟩
      · rw [qsortAsc, hrun]
        rfl
      · have hperm := (hstir.perm (n := xs.length + 1) (by omega)).map fun c => c.1 0
        rw [List.map_map, List.map_map] at hperm
        have hold : (List.range (xs.length + 1)).map (fun i => (x :: xs).getD i x) = x :: xs := by
          refine List.ext_getElem (by simp) fun i _ hi => ?_
          simp [List.getElem?_eq_getElem hi]
        exact hperm.trans (.of_eq hold)
      · rw [List.pairwise_iff_getElem]
        intro i j hi hj hij
        rw [List.length_map, List.length_range] at hj
        have hnot := hord.stretch hij hj fun k _ _ => Option.some_ne_none _
        simpa [comesFirst, SortArrays.keyAt] using hnot

end QStore.Operators
