import Mathlib.Data.List.Sort
import Mathlib.Order.BoundedOrder.Basic

/-!
# QStore.Lib.Smallest

The `k` smallest entries of a list, in order.

```
smallest k (xs ++ ys) = (merge (smallest k xs) (smallest k ys)).take k
smallest k (x :: xs)  = (x put in its place in smallest k xs).take k
```
-/

namespace QStore

variable {α : Type} [LinearOrder α] {xs ys : List α} {k i : Nat} {x v : α}

/-- The `k` smallest entries, in order; all of them, if there are fewer. -/
def smallest (k : Nat) (xs : List α) : List α := (xs.insertionSort (· ≤ ·)).take k

theorem length_smallest : (smallest k xs).length = min k xs.length := by
  rw [smallest, List.length_take, List.length_insertionSort]

theorem sorted_smallest : (smallest k xs).Pairwise (· ≤ ·) :=
  List.Pairwise.sublist (List.take_sublist k _) (List.pairwise_insertionSort _ xs)

theorem insertionSort_of_perm (h : xs.Perm ys) :
    xs.insertionSort (· ≤ ·) = ys.insertionSort (· ≤ ·) :=
  List.Perm.eq_of_pairwise' (List.pairwise_insertionSort _ xs) (List.pairwise_insertionSort _ ys)
    ((List.perm_insertionSort _ xs).trans (h.trans (List.perm_insertionSort _ ys).symm))

theorem smallest_of_perm (h : xs.Perm ys) : smallest k xs = smallest k ys := by
  rw [smallest, smallest, insertionSort_of_perm h]

/-- Those of a sorted list are at its front. -/
theorem smallest_of_sorted (h : xs.Pairwise (· ≤ ·)) : smallest k xs = xs.take k := by
  rw [smallest, List.Pairwise.insertionSort_eq h]

/-! ## two lists -/

/-- `List.merge` by `≤`. -/
abbrev mergeLe (xs ys : List α) : List α := xs.merge ys fun a b => decide (a ≤ b)

omit [LinearOrder α] in
theorem take_cons_take (k : Nat) (x : α) (xs : List α) : (x :: xs.take k).take k = (x :: xs).take k := by
  cases k with
  | zero => rfl
  | succ k => rw [List.take_succ_cons, List.take_succ_cons, List.take_take, Nat.min_eq_left k.le_succ]

/-- The front of a merge needs no more of either list. -/
theorem take_mergeLe : ∀ (k : Nat) (xs ys : List α),
    (mergeLe xs ys).take k = (mergeLe (xs.take k) (ys.take k)).take k := by
  intro k
  induction k with
  | zero => exact fun _ _ => rfl
  | succ k ih =>
      rintro (_ | ⟨x, xs⟩) (_ | ⟨y, ys⟩)
      · rfl
      · simp [mergeLe, List.take_take]
      · simp [mergeLe, List.take_take]
      · simp only [List.take_succ_cons]
        by_cases h : x ≤ y
        · rw [mergeLe, mergeLe, List.cons_merge_cons_pos _ _ _ (by simpa using h),
            List.cons_merge_cons_pos _ _ _ (by simpa using h), List.take_succ_cons,
            List.take_succ_cons, ih xs (y :: ys), ih (xs.take k) (y :: ys.take k), take_cons_take,
            List.take_take, Nat.min_self]
        · rw [mergeLe, mergeLe, List.cons_merge_cons_neg _ _ _ (by simpa using h),
            List.cons_merge_cons_neg _ _ _ (by simpa using h), List.take_succ_cons,
            List.take_succ_cons, ih (x :: xs) ys, ih (x :: xs.take k) (ys.take k), take_cons_take,
            List.take_take, Nat.min_self]

theorem mergeLe_perm : (mergeLe xs ys).Perm (xs ++ ys) := List.merge_perm_append _

theorem sorted_mergeLe (hx : xs.Pairwise (· ≤ ·)) (hy : ys.Pairwise (· ≤ ·)) :
    (mergeLe xs ys).Pairwise (· ≤ ·) := hx.merge hy

/-- The front of a merge of sorted lists. -/
theorem take_mergeLe_of_sorted (hx : xs.Pairwise (· ≤ ·)) (hy : ys.Pairwise (· ≤ ·)) :
    (mergeLe xs ys).take k = smallest k (xs ++ ys) := by
  rw [← smallest_of_sorted (sorted_mergeLe hx hy), smallest_of_perm mergeLe_perm]

/-- **Of two lists**: what is among the smallest of both is among those of its own. -/
theorem smallest_append :
    smallest k (xs ++ ys) = (mergeLe (smallest k xs) (smallest k ys)).take k := by
  rw [smallest_of_perm ((List.perm_insertionSort (· ≤ ·) xs).append
      (List.perm_insertionSort (· ≤ ·) ys)).symm,
    ← take_mergeLe_of_sorted (List.pairwise_insertionSort _ xs) (List.pairwise_insertionSort _ ys),
    take_mergeLe]
  rfl

/-! ## one more entry -/

/-- Behind an entry above `v` nothing else is not above it. -/
theorem countP_cons_of_lt (hs : (x :: xs).Pairwise (· ≤ ·)) (hx : ¬ x ≤ v) :
    xs.countP (· ≤ v) = 0 := by
  have hno : ∀ z ∈ xs, ¬ z ≤ v := fun z hz hzv => hx ((List.rel_of_pairwise_cons hs hz).trans hzv)
  exact List.countP_eq_zero.mpr (by simpa using hno)

/-- Entry `i` of a sorted list is not above `v` where `i` is below the number of those. -/
theorem lt_countP_iff (hs : xs.Pairwise (· ≤ ·)) (hx : xs[i]? = some x) :
    i < xs.countP (· ≤ v) ↔ x ≤ v := by
  induction xs generalizing i with
  | nil => exact nomatch hx
  | cons y ys ih =>
      by_cases hy : y ≤ v
      · rw [List.countP_cons_of_pos (by simpa using hy)]
        cases i with
        | zero =>
            cases hx
            simp [hy]
        | succ i => rw [Nat.succ_lt_succ_iff, ih hs.of_cons hx]
      · rw [List.countP_cons_of_neg (by simpa using hy), countP_cons_of_lt hs hy]
        have hyx : y ≤ x := by
          cases List.mem_cons.mp (List.mem_of_getElem? hx) with
          | inl heq => exact heq.ge
          | inr hmem => exact List.rel_of_pairwise_cons hs hmem
        exact iff_of_false (Nat.not_lt_zero i) fun hxv => hy (hyx.trans hxv)

theorem countP_take_of_sorted (hs : xs.Pairwise (· ≤ ·)) (k : Nat) :
    (xs.take k).countP (· ≤ v) = min k (xs.countP (· ≤ v)) := by
  induction xs generalizing k with
  | nil => simp
  | cons y ys ih =>
      cases k with
      | zero => simp
      | succ k =>
          rw [List.take_succ_cons]
          by_cases hy : y ≤ v
          · rw [List.countP_cons_of_pos (by simpa using hy), List.countP_cons_of_pos
              (by simpa using hy), ih hs.of_cons, Nat.add_min_add_right]
          · rw [List.countP_cons_of_neg (by simpa using hy), List.countP_cons_of_neg
              (by simpa using hy), ih hs.of_cons, countP_cons_of_lt hs hy, Nat.min_zero,
              Nat.min_zero]

theorem countP_smallest : (smallest k xs).countP (· ≤ v) = min k (xs.countP (· ≤ v)) := by
  rw [smallest, countP_take_of_sorted (List.pairwise_insertionSort _ xs),
    (List.perm_insertionSort _ xs).countP_eq]

/-- An entry put behind those that are not above it. -/
theorem sorted_insertIdx (hs : xs.Pairwise (· ≤ ·)) (v : α) :
    (xs.insertIdx (xs.countP (· ≤ v)) v).Pairwise (· ≤ ·) := by
  induction xs with
  | nil => simp
  | cons y ys ih =>
      have hys := List.pairwise_cons.mp hs
      by_cases hy : y ≤ v
      · rw [List.countP_cons_of_pos (by simpa using hy), List.insertIdx_succ_cons,
          List.pairwise_cons]
        refine ⟨fun z hz => ?_, ih hys.2⟩
        rcases (List.mem_insertIdx List.countP_le_length).mp hz with rfl | hz
        · exact hy
        · exact hys.1 z hz
      · have hvy : v ≤ y := le_of_not_ge hy
        rw [List.countP_cons_of_neg (by simpa using hy), countP_cons_of_lt hs hy,
          List.insertIdx_zero, List.pairwise_cons]
        refine ⟨fun z hz => ?_, hs⟩
        rcases List.mem_cons.mp hz with rfl | hz
        · exact hvy
        · exact hvy.trans (hys.1 z hz)

omit [LinearOrder α] in
theorem take_insertIdx {i : Nat} (hi : i ≤ xs.length) (k : Nat) (v : α) :
    (xs.insertIdx i v).take k = ((xs.take k).insertIdx (min k i) v).take k := by
  apply List.ext_getElem?
  intro j
  by_cases hj : j < k
  · rw [List.getElem?_take_of_lt hj, List.getElem?_take_of_lt hj, List.getElem?_insertIdx,
      List.getElem?_insertIdx, List.length_take]
    rcases Nat.lt_trichotomy j i with hlt | rfl | hgt
    · rw [if_pos hlt, if_pos (by omega), List.getElem?_take_of_lt hj]
    · rw [Nat.min_eq_right (Nat.le_of_lt hj), if_neg (Nat.lt_irrefl j), if_pos rfl, if_pos hi,
        if_neg (Nat.lt_irrefl j), if_pos rfl, if_pos (by omega)]
    · rw [if_neg (by omega), if_neg (by omega), if_neg (by omega), if_neg (by omega),
        List.getElem?_take_of_lt (by omega)]
  · rw [List.getElem?_take_eq_none (by omega), List.getElem?_take_eq_none (by omega)]

/-- **One more entry**, put behind those that are not above it. -/
theorem smallest_cons : smallest k (v :: xs) =
    ((smallest k xs).insertIdx ((smallest k xs).countP (· ≤ v)) v).take k := by
  have hs := List.pairwise_insertionSort (· ≤ ·) xs
  have hperm : ((xs.insertionSort (· ≤ ·)).insertIdx ((xs.insertionSort (· ≤ ·)).countP (· ≤ v)) v).Perm
      (v :: xs) :=
    (List.perm_insertIdx v _ List.countP_le_length).trans ((List.perm_insertionSort _ xs).cons v)
  rw [← smallest_of_perm hperm, smallest_of_sorted (sorted_insertIdx hs v),
    take_insertIdx List.countP_le_length, smallest, countP_take_of_sorted hs]

/-- Behind the entries, the greatest. -/
theorem smallest_append_top [OrderTop α] (m : Nat) :
    smallest k (xs ++ List.replicate m ⊤) = (smallest k xs ++ List.replicate m ⊤).take k := by
  have hs : (xs.insertionSort (· ≤ ·) ++ List.replicate m ⊤).Pairwise (· ≤ ·) := by
    rw [List.pairwise_append]
    refine ⟨List.pairwise_insertionSort _ xs, List.pairwise_replicate.mpr (.inr le_rfl), ?_⟩
    intro x _ y hy
    rw [List.eq_of_mem_replicate hy]
    exact le_top
  rw [smallest_of_perm ((List.perm_insertionSort (· ≤ ·) xs).symm.append_right _),
    smallest_of_sorted hs, List.take_append, List.take_append, smallest, List.take_take,
    Nat.min_self, List.length_take]
  congr 2
  omega

end QStore
