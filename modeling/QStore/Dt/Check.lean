import QStore.Dt.Data
import Mathlib.Data.List.Nodup
import Mathlib.Data.Finset.Dedup
import Mathlib.Data.List.Sort

/-!
# QStore.Dt.Check

What the self-check of the decision tree (`DT/src/check.c`) tells of the data.

`chk_is_unique` misses a repetition unless it is one of neighbours: it sorts a copy and looks at
the array. In `check` nothing is lost by it, since no row can be at two places of `to[j]`.
-/

namespace QStore.Dt

/-! ## chk_is_unique, chk_set_equality -/

/-- `sortfn`, which takes the second of two equal numbers to be the smaller one. -/
def sortfn (p1 p2 : Nat) : Int := if p1 < p2 then -1 else 1

/-- What is taken for granted of `qsort`: it sorts if the comparator is right about numbers that
are not equal. -/
def Sorts (qsort : (Nat → Nat → Int) → List Nat → List Nat) : Prop :=
  ∀ cmp, (∀ a b, a < b → cmp a b < 0) → (∀ a b, b < a → 0 < cmp a b) →
    ∀ X, (qsort cmp X).Perm X ∧ (qsort cmp X).Pairwise (· ≤ ·)

/-- The loop over the two copies. -/
def sameNumbers : List Nat → List Nat → Bool
  | x :: X, y :: Y => x == y && sameNumbers X Y
  | _, _ => true

/-- `chk_set_equality`, call by call. -/
def chkSetEqualityWith (qsort : (Nat → Nat → Int) → List Nat → List Nat) (X Y : List Nat) : Bool :=
  sameNumbers (qsort sortfn X) (qsort sortfn Y)

variable {qsort : (Nat → Nat → Int) → List Nat → List Nat} {X Y : List Nat}

theorem sameNumbers_iff (h : X.length = Y.length) : sameNumbers X Y = true ↔ X = Y := by
  induction X generalizing Y with
  | nil =>
      rw [List.length_nil, eq_comm, List.length_eq_zero_iff] at h
      rw [h]
      exact iff_of_true rfl rfl
  | cons x X ih =>
      cases Y with
      | nil => contradiction
      | cons y Y =>
          rw [sameNumbers, Bool.and_eq_true, beq_iff_eq, ih (Nat.succ.inj h), List.cons.injEq]

theorem Sorts.sortfn (h : Sorts qsort) (X : List Nat) :
    (qsort sortfn X).Perm X ∧ (qsort sortfn X).Pairwise (· ≤ ·) := by
  refine h Dt.sortfn (fun a b hab => ?_) (fun a b hab => ?_) X
  · rw [Dt.sortfn, if_pos hab]
    decide
  · rw [Dt.sortfn, if_neg (by omega)]
    decide

theorem chkSetEqualityWith_iff (h : Sorts qsort) (hlen : X.length = Y.length) :
    chkSetEqualityWith qsort X Y = true ↔ X.Perm Y := by
  obtain ⟨hX, hXs⟩ := h.sortfn X
  obtain ⟨hY, hYs⟩ := h.sortfn Y
  rw [chkSetEqualityWith, sameNumbers_iff (by rw [hX.length_eq, hY.length_eq, hlen])]
  constructor
  · intro heq
    exact hX.symm.trans (heq ▸ hY)
  · intro hperm
    exact (hX.trans (hperm.trans hY.symm)).eq_of_pairwise (fun a b _ _ => Nat.le_antisymm) hXs hYs

/-- What `check` is told of two sets is what the sorted copies say. -/
theorem chkSetEqualityWith_eq (h : Sorts qsort) (hlen : X.length = Y.length) :
    chkSetEqualityWith qsort X Y = chkSetEquality X Y := by
  rw [Bool.eq_iff_iff, chkSetEqualityWith_iff h hlen, chkSetEquality, List.isPerm_iff]

/-- Two neighbours are equal. -/
def Repeats (X : List Nat) : Prop := ∃ i, ∃ h : i + 1 < X.length, X[i] = X[i + 1]

theorem chkIsUnique_iff : chkIsUnique X = true ↔ ¬ Repeats X := by
  induction X with
  | nil => exact iff_of_true rfl fun ⟨i, h, _⟩ => by contradiction
  | cons x X ih =>
      cases X with
      | nil =>
          refine iff_of_true rfl ?_
          rintro ⟨i, h, -⟩
          rw [List.length_singleton] at h
          omega
      | cons y X =>
          rw [chkIsUnique, Bool.and_eq_true, bne_iff_ne, ih]
          constructor
          · rintro ⟨hxy, hno⟩ ⟨i, h, he⟩
            cases i with
            | zero => exact hxy he
            | succ i => exact hno ⟨i, Nat.lt_of_succ_lt_succ h, he⟩
          · intro hno
            refine ⟨fun hxy => hno ⟨0, by simp, hxy⟩, ?_⟩
            rintro ⟨i, h, he⟩
            exact hno ⟨i + 1, Nat.succ_lt_succ h, he⟩

theorem Repeats.not_nodup (h : Repeats X) : ¬ X.Nodup := by
  obtain ⟨i, hi, he⟩ := h
  intro hnd
  have := hnd.getElem_inj_iff.mp he
  omega

/-- A repetition shows, and so do two arrays that hold the same numbers. -/
structure ChecksRight (qsort : (Nat → Nat → Int) → List Nat → List Nat) (X Y : List Nat) :
    Prop where
  isUnique : chkIsUnique X = true ↔ X.Nodup
  setEquality : chkSetEqualityWith qsort X Y = true ↔ X.Perm Y

/-- **When the answers are right**: where nothing is repeated, or neighbours are equal. -/
theorem checksRight_iff (h : Sorts qsort) (hlen : X.length = Y.length) :
    ChecksRight qsort X Y ↔ X.Nodup ∨ Repeats X := by
  constructor
  · intro hr
    by_cases hrep : Repeats X
    · exact .inr hrep
    · exact .inl (hr.isUnique.mp (chkIsUnique_iff.mpr hrep))
  · intro hor
    refine ⟨?_, chkSetEqualityWith_iff h hlen⟩
    rw [chkIsUnique_iff]
    cases hor with
    | inl hnd => exact iff_of_true (fun hrep => hrep.not_nodup hnd) hnd
    | inr hrep => exact iff_of_false (fun hno => hno hrep) hrep.not_nodup

/-- A `qsort` that merges. -/
def mergeQsort (cmp : Nat → Nat → Int) (X : List Nat) : List Nat :=
  X.mergeSort fun a b => cmp a b < 0 || a == b

theorem sorts_mergeQsort : Sorts mergeQsort := by
  intro cmp hlt hgt X
  have hle : (fun a b => decide (cmp a b < 0) || a == b) = fun a b => decide (a ≤ b) := by
    funext a b
    rw [Bool.eq_iff_iff, Bool.or_eq_true, decide_eq_true_iff, beq_iff_eq, decide_eq_true_iff]
    constructor
    · rintro (hab | rfl)
      · by_contra hba
        have := hgt a b (by omega)
        omega
      · exact Nat.le_refl a
    · intro hab
      rcases Nat.lt_or_eq_of_le hab with hab | hab
      · exact .inl (hlt a b hab)
      · exact .inr hab
  rw [mergeQsort, hle]
  refine ⟨List.mergeSort_perm X _, ?_⟩
  exact X.pairwise_mergeSort' (· ≤ ·)

theorem checksRight_iff_three : ChecksRight mergeQsort [3, 1, 2] [2, 3, 1] ↔
    [3, 1, 2].Nodup ∨ Repeats [3, 1, 2] :=
  checksRight_iff sorts_mergeQsort rfl

/-- The repetition of 1 is not one of neighbours. -/
theorem checksRight_fails : ¬ ChecksRight mergeQsort [1, 2, 1] [1, 2, 1] := by
  intro h
  exact absurd (h.isUnique.mp (by decide)) (by decide)

/-! ## check -/

/-- What `check` is for: features in order, over one set of rows, of which `to` and `g` say the
same as the words. -/
structure Sound (tos : Nat → Nat → Nat) (g : Nat → Nat) (lb ub nT nH m : Nat)
    (Y : Nat → Nat → Nat) : Prop where
  counts : (nT + nH) % 2 ^ 32 = ub - lb
  sorted : ∀ j < m, (seg (Y j) lb ub).Pairwise fun v w => getYval v ≤ getYval w
  sameRows : ∃ S : Finset Nat, S.card = ub - lb ∧
    ∀ j < m, ((seg (Y j) lb ub).map getFrom).toFinset = S
  placed : ∀ j < m, ∀ i, lb ≤ i → i < ub → tos j (getFrom (Y j i)) = i
  goals : ∀ j < m, ∀ w ∈ seg (Y j) lb ub, getGoal w ≤ 1 ∧ getGoal w = g (getFrom w)

variable {tos : Nat → Nat → Nat} {g : Nat → Nat} {lb ub nT nH n m j : Nat}
  {Y : Nat → Nat → Nat} {Yj : Nat → Nat} {cfg : Config}

theorem getGoal_le (w : Nat) : getGoal w ≤ 1 := by
  rw [getGoal, Nat.and_one_is_mod]
  omega

/-- The loop over neighbours. -/
theorem sorted_iff : ((List.range' (lb + 1) (ub - (lb + 1))).all fun i =>
      decide (getYval (Yj (i - 1)) ≤ getYval (Yj i))) = true ↔
    (seg Yj lb ub).Pairwise fun v w => getYval v ≤ getYval w := by
  simp only [List.all_eq_true, List.mem_range'_1, decide_eq_true_eq]
  rw [pairwise_seg]
  constructor
  · intro h i k hi hik hk
    induction k, hik using Nat.le_induction with
    | base => exact h (i + 1) (by omega)
    | succ k hik ih => exact (ih (by omega)).trans (h (k + 1) (by omega))
  · intro h i hi
    exact h (i - 1) i (by omega) (by omega) (by omega)

/-- Rows that `to` finds again are distinct. -/
theorem nodup_froms {place : Nat → Nat}
    (h : ∀ i, lb ≤ i → i < ub → place (getFrom (Yj i)) = i) :
    ((seg Yj lb ub).map getFrom).Nodup := by
  rw [List.Nodup, List.pairwise_map, pairwise_seg]
  intro i k hi hik hk heq
  have := (h i hi (by omega)).symm.trans ((congrArg place heq).trans (h k (by omega) hk))
  omega

/-- The goals are counted by row. -/
theorem goalCount_eq (h : ∀ w ∈ seg Yj lb ub, getGoal w = g (getFrom w)) (k : Nat) :
    goalCount Yj lb ub k = (((seg Yj lb ub).map getFrom).countP (g · = k)) % 256 := by
  rw [goalCount, List.countP_map]
  congr 1
  refine List.countP_congr fun w hw => ?_
  rw [h w hw]
  rfl

/-- The tests of `check`, one by one. -/
structure Passes (tos : Nat → Nat → Nat) (g : Nat → Nat) (lb ub nT nH m : Nat)
    (Y : Nat → Nat → Nat) : Prop where
  counts : (nT + nH) % 2 ^ 32 = ub - lb
  sameFroms : ∀ j < m, ((seg (Y j) lb ub).map getFrom).Perm ((seg (Y (m - 1)) lb ub).map getFrom)
  sorted : ∀ j < m, (seg (Y j) lb ub).Pairwise fun v w => getYval v ≤ getYval w
  unique : ∀ j < m, ¬ Repeats ((seg (Y j) lb ub).map getFrom)
  goalCounts : ∀ j < m, ∀ k < m, k ≤ j ∨
    goalCount (Y j) lb ub 0 = goalCount (Y k) lb ub 0 ∧
      goalCount (Y j) lb ub 1 = goalCount (Y k) lb ub 1
  placed : ∀ j < m, ∀ i, lb ≤ i → i < ub → tos j (getFrom (Y j i)) = i
  goals : ∀ j < m, ∀ i, lb ≤ i → i < ub → g (getFrom (Y j i)) = getGoal (Y j i)

theorem check_iff_passes (hleaf : cfg.minLeafSize < ub - lb) (hub : ub ≤ n) :
    check cfg tos g lb ub nT nH n m Y = true ↔ Passes tos g lb ub nT nH m Y := by
  have hrow : ∀ {i}, lb ≤ i ∧ i < lb + (ub - lb) ↔ lb ≤ i ∧ i < ub := by
    intro i
    omega
  rw [check, if_neg (Nat.not_le.mpr hleaf)]
  simp only [Bool.and_eq_true, decide_eq_true_eq, hub, true_and, beq_iff_eq, List.all_eq_true,
    List.mem_range, chkSetEquality, List.isPerm_iff, chkIsUnique_iff, Bool.or_eq_true,
    List.mem_range'_1, hrow, and_assoc]
  have hsorted : (∀ j < m, ∀ i, lb + 1 ≤ i ∧ i < lb + 1 + (ub - (lb + 1)) →
      getYval (Y j (i - 1)) ≤ getYval (Y j i)) ↔
      ∀ j < m, (seg (Y j) lb ub).Pairwise fun v w => getYval v ≤ getYval w := by
    refine forall₂_congr fun j _ => ?_
    rw [← sorted_iff]
    simp only [List.all_eq_true, List.mem_range'_1, decide_eq_true_eq]
  rw [hsorted]
  constructor
  · rintro ⟨h1, h2, h3, h4, h5, h6, h7⟩
    exact ⟨h1, h2, h3, h4, h5, fun j hj i hi hi' => h6 j hj i ⟨hi, hi'⟩,
      fun j hj i hi hi' => h7 j hj i ⟨hi, hi'⟩⟩
  · intro h
    exact ⟨h.counts, h.sameFroms, h.sorted, h.unique, h.goalCounts,
      fun j hj i hi => h.placed j hj i hi.1 hi.2, fun j hj i hi => h.goals j hj i hi.1 hi.2⟩

/-- **`check` is exact**: it returns without an error where the data are sound. -/
theorem check_iff (hm : 0 < m) (hleaf : cfg.minLeafSize < ub - lb) (hub : ub ≤ n) :
    check cfg tos g lb ub nT nH n m Y = true ↔ Sound tos g lb ub nT nH m Y := by
  rw [check_iff_passes hleaf hub]
  constructor
  · intro h
    refine ⟨h.counts, h.sorted, ⟨((seg (Y (m - 1)) lb ub).map getFrom).toFinset, ?_, ?_⟩,
      h.placed, ?_⟩
    · have hlast := nodup_froms (h.placed (m - 1) (by omega))
      rw [List.toFinset_card_of_nodup hlast, List.length_map, length_seg]
    · intro j hj
      exact List.toFinset_eq_of_perm _ _ (h.sameFroms j hj)
    · intro j hj w hw
      obtain ⟨i, hi, hi', rfl⟩ := mem_seg.mp hw
      exact ⟨getGoal_le _, (h.goals j hj i hi hi').symm⟩
  · intro h
    obtain ⟨S, -, hS⟩ := h.sameRows
    have hnd : ∀ j < m, ((seg (Y j) lb ub).map getFrom).Nodup := fun j hj =>
      nodup_froms (h.placed j hj)
    have hperm : ∀ j < m, ∀ k < m,
        ((seg (Y j) lb ub).map getFrom).Perm ((seg (Y k) lb ub).map getFrom) := fun j hj k hk =>
      List.perm_of_nodup_nodup_toFinset_eq (hnd j hj) (hnd k hk) ((hS j hj).trans (hS k hk).symm)
    have hcount : ∀ j < m, ∀ k < m, ∀ b, goalCount (Y j) lb ub b = goalCount (Y k) lb ub b := by
      intro j hj k hk b
      rw [goalCount_eq fun w hw => (h.goals j hj w hw).2,
        goalCount_eq fun w hw => (h.goals k hk w hw).2, (hperm j hj k hk).countP_eq]
    exact ⟨h.counts, fun j hj => hperm j hj (m - 1) (by omega), h.sorted,
      fun j hj hrep => hrep.not_nodup (hnd j hj),
      fun j hj k hk => .inr ⟨hcount j hj k hk 0, hcount j hj k hk 1⟩, h.placed,
      fun j hj i hi hi' => (h.goals j hj _ (mem_seg_of hi hi')).2.symm⟩

/-- The rows of two attributes in the order of their values: 2, 0, 1 and 1, 2, 0. -/
def threeWords (j i : Nat) : Nat :=
  ([[mkCompVal 2 1 3, mkCompVal 0 0 5, mkCompVal 1 1 5],
    [mkCompVal 1 1 4, mkCompVal 2 1 6, mkCompVal 0 0 9]].getD j []).getD i 0

/-- Where a row is among them. -/
def threeTos (j r : Nat) : Nat := ([[1, 2, 0], [2, 0, 1]].getD j []).getD r 0

theorem check_iff_three :
    check ⟨true, 8, 0, 64, 1, 16⟩ threeTos (fun r => [0, 1, 1].getD r 0) 0 3 1 2 3 2 threeWords =
        true ∧
      Sound threeTos (fun r => [0, 1, 1].getD r 0) 0 3 1 2 2 threeWords :=
  have hcheck : check ⟨true, 8, 0, 64, 1, 16⟩ threeTos (fun r => [0, 1, 1].getD r 0) 0 3 1 2 3 2
      threeWords = true := by decide +kernel
  ⟨hcheck, (check_iff (by decide) (by decide) (by decide)).mp hcheck⟩

end QStore.Dt
