import QStore.Operators.DrgParts
import Mathlib.Data.List.FinRange

/-!
# QStore.Operators.DrgSorted

The insertion sort at the end of the drag-along sort, and the whole of it.

It needs no check for the start of the array: every value has one in front of it that
it is not before (`Backed`). Behind the first five that is what the rounds leave, and
among these the smallest goes to the start.
-/

namespace QStore.Operators

variable {B D K : Type} {last : Nat} [LinearOrder K] {key : (Fin (last + 1) → B) → Option K}
  {n : Nat} {s s' : SortArrays B D last} {tmp run left fuel pass e i j k lo hi : Nat}

/-! ## one value moves to its place -/

/-- One byte of one value is written. -/
theorem update_byte (f : Nat → Fin (last + 1) → B) (m : Nat) (t : Fin (last + 1)) (c : B) :
    Function.update f m (Function.update (f m) t c) =
      fun i => Function.update (f i) t (Function.update (fun i => f i t) m c i) := by
  funext i
  by_cases hi : i = m
  · subst hi
    rw [Function.update_self, Function.update_self]
  · rw [Function.update_of_ne hi, Function.update_of_ne hi, Function.update_eq_self]

theorem moveByte_eq {t : Fin (last + 1)} {c : B} {sveDrg : D} (hn : tmp + k < n) :
    moveByte n t pass c sveDrg tmp k s =
      some ⟨fun i => Function.update (s.val i) t (shiftIn tmp k (fun i => s.val i t) c i),
        if pass = 1 then shiftIn tmp k s.drg sveDrg else s.drg⟩ := by
  induction k generalizing s with
  | zero => rw [moveByte, if_pos (by omega), shiftIn_zero, shiftIn_zero, update_byte]
  | succ k ih =>
    rw [moveByte, if_pos (by omega), ih (by omega), update_byte]
    congr 2
    · simp only [Function.update_self, Function.update_idem, shiftIn_succ]
    · by_cases hp : pass = 1
      · rw [if_pos hp, if_pos hp, if_pos hp, shiftIn_succ]
      · rw [if_neg hp, if_neg hp, if_neg hp]

/-- The bytes `ts` of the values from `lo` to `hi`, and their drags if `withDrg`, moved
one to the right, and those at `hi` to `lo`. -/
def SortArrays.rotated (s : SortArrays B D last) (lo hi : Nat) (ts : List (Fin (last + 1)))
    (withDrg : Bool) : SortArrays B D last :=
  ⟨fun i t => s.val (if t ∈ ts then rotateIdx lo hi i else i) t,
    fun i => s.drg (if withDrg then rotateIdx lo hi i else i)⟩

theorem rotated_rotated {t : Fin (last + 1)} {ts : List (Fin (last + 1))} (h : t ∉ ts) (d : Bool) :
    (s.rotated lo hi [t] d).rotated lo hi ts false = s.rotated lo hi (t :: ts) d := by
  simp only [SortArrays.rotated, SortArrays.mk.injEq, Bool.false_eq_true, if_false, and_true]
  funext i t'
  by_cases hmem : t' ∈ ts
  · have hne : t' ≠ t := fun he => h (he ▸ hmem)
    simp [hmem, hne]
  · simp [hmem]

/-- One pass, over byte `t`. -/
theorem moveByte_rotated {t : Fin (last + 1)} {sveDrg : D} (hle : tmp ≤ run) (hn : run < n)
    (hdrg : pass = 1 → sveDrg = s.drg run) :
    moveByte n t pass (s.val run t) sveDrg tmp (run - tmp) s =
      some (s.rotated tmp run [t] (pass = 1)) := by
  rw [moveByte_eq (by omega), shiftIn_rotate hle fun i => s.val i t, SortArrays.rotated]
  congr 2
  · funext i t'
    by_cases ht : t' = t
    · subst ht
      rw [Function.update_self, if_pos List.mem_cons_self]
    · rw [Function.update_of_ne ht, if_neg (by simpa using ht)]
  · by_cases hp : pass = 1
    · simp only [hp, if_true, decide_true, hdrg hp, shiftIn_rotate hle]
    · simp only [hp, if_false, decide_false, Bool.false_eq_true]

/-- All passes. The drags go along with the first one. -/
theorem moveBytes_eq {sveDrg : D} {ts : List (Fin (last + 1))} (hle : tmp ≤ run) (hn : run < n)
    (hnd : ts.Nodup) (hpass : 1 ≤ pass) (hdrg : pass = 1 → sveDrg = s.drg run) :
    moveBytes n sveDrg tmp run ts pass s =
      some (s.rotated tmp run ts (pass = 1 ∧ ts ≠ [])) := by
  induction ts generalizing s pass with
  | nil => simp [moveBytes, SortArrays.rotated]
  | cons t ts ih =>
    have hnot := (List.nodup_cons.mp hnd).1
    simp only [moveBytes, if_pos hn, moveByte_rotated hle hn hdrg, Option.bind_eq_bind,
      Option.bind_some]
    rw [ih (List.nodup_cons.mp hnd).2 (by omega) (by omega), ← rotated_rotated hnot]
    congr 3
    · simp
    · simp
      omega

/-- The value at `run` with its drag, moved to `tmp`. -/
theorem moveBytes_cell (hle : tmp ≤ run) (hn : run < n) : ∃ s',
    moveBytes n (s.drg run) tmp run (List.finRange (last + 1)).reverse 1 s = some s' ∧
      s'.cell = fun i => s.cell (rotateIdx tmp run i) := by
  refine ⟨_, moveBytes_eq hle hn (List.nodup_reverse.mpr (List.nodup_finRange _)) le_rfl
    fun _ => rfl, ?_⟩
  funext i
  have hmem : ∀ t, t ∈ (List.finRange (last + 1)).reverse := fun t =>
    List.mem_reverse.mpr (List.mem_finRange t)
  simp [SortArrays.cell, SortArrays.rotated, hmem, -List.mem_reverse]

/-! ## its place -/

/-- It looks for its place as the right scan does. -/
theorem findPlace_eq (s : SortArrays B D last) (run fuel tmp : Nat) :
    findPlace key n s run fuel tmp = (scanRight key n s run fuel tmp).map (· + 1) := by
  induction fuel generalizing tmp with
  | zero => rfl
  | succ fuel ih =>
    rw [findPlace, scanRight]
    cases isLess key n s run tmp with
    | none => rfl
    | some less =>
      cases less with
      | false => rfl
      | true =>
        cases stepBack tmp with
        | none => rfl
        | some p => exact ih p

/-- A value in front of `j` that the one at `j` is not before. -/
def Backed (key : (Fin (last + 1) → B) → Option K) (s : SortArrays B D last) (j : Nat) : Prop :=
  ∃ k, k < j ∧ ¬ comesFirst (s.keyAt key j) (s.keyAt key k)

/-- Values in front of `j` may change their places. -/
theorem Backed.of_stirs (h : Backed key s j) (hstir : Stirs lo hi s s') (hj : hi < j) :
    Backed key s' j := by
  obtain ⟨k, hk, hnot⟩ := h
  have hkeys : Rearranges lo hi (s.keyAt key) (s'.keyAt key) := hstir.keys
  have hkey : s'.keyAt key j = s.keyAt key j := hkeys.outside (by omega)
  by_cases hin : lo ≤ k ∧ k ≤ hi
  · obtain ⟨k', hk', he⟩ := hkeys.symm.inside hin
    exact ⟨k', by omega, by rwa [hkey, ← he]⟩
  · exact ⟨k, hk, by rwa [hkey, hkeys.outside hin]⟩

/-- The values in front of `run` are in order. -/
def InOrder (key : (Fin (last + 1) → B) → Option K) (s : SortArrays B D last) (run : Nat) : Prop :=
  ∀ i, i + 1 < run → ¬ comesFirst (s.keyAt key (i + 1)) (s.keyAt key i)

/-- The value at `run` goes behind the last that it is not before. -/
theorem insertOne_some (hback : Backed key s run) (hn : run < n) (h : InOrder key s run) : ∃ s',
    insertOne key n run s = some s' ∧ Stirs 0 run s s' ∧ InOrder key s' (run + 1) := by
  obtain ⟨k, hk, hstop⟩ := hback
  obtain ⟨q, hscan, hge, hle, hnot, hall⟩ := scanRight_some hn (show run - 1 < n by omega) hstop
    (by omega) (show run - 1 - k < n + 1 by omega)
  have hplace : findPlace key n s run (n + 1) (run - 1) = some (q + 1) := by
    rw [findPlace_eq, hscan]
    rfl
  simp only [insertOne, stepBack_eq (show 0 < run by omega), hplace, Option.bind_eq_bind,
    Option.bind_some]
  by_cases hq : q + 1 = run
  · rw [if_neg (by omega)]
    refine ⟨s, rfl, .refl .., fun i hi => ?_⟩
    by_cases hlast : i + 1 = run
    · rwa [hlast, show i = q by omega]
    · exact h i (by omega)
  · obtain ⟨s', hmove, hcell⟩ := moveBytes_cell (s := s) (show q + 1 ≤ run by omega) hn
    rw [if_pos hq]
    refine ⟨s', hmove, ?_, fun i hi => ?_⟩
    · rw [Stirs, hcell]
      exact (Rearranges.rotate s.cell (show q + 1 ≤ run by omega)).widen (by omega) le_rfl
    · have hkey : ∀ i, s'.keyAt key i = s.keyAt key (rotateIdx (q + 1) run i) := by
        intro i
        rw [keyAt_eq_comp, hcell]
        rfl
      rw [hkey, hkey]
      rcases lt_trichotomy i q with hlt | rfl | hgt
      · rw [rotateIdx_of_lt run (by omega), rotateIdx_of_lt run (by omega)]
        exact h i (by omega)
      · rw [rotateIdx_self, rotateIdx_of_lt run (by omega)]
        exact hnot
      · rw [rotateIdx_succ (by omega) (by omega)]
        by_cases hnext : i = q + 1
        · rw [hnext, rotateIdx_self]
          exact comesFirst_asymm (hall (q + 1) (by omega) (by omega))
        · obtain ⟨m, rfl⟩ := Nat.exists_eq_add_of_lt hgt
          rw [rotateIdx_succ (by omega) (by omega)]
          exact h (q + m) (by omega)

theorem insertAll_some (h : InOrder key s run) (hrun : 0 < run) (hn : run + left = n)
    (hback : ∀ j, run ≤ j → j < n → Backed key s j) : ∃ s',
    insertAll key n left run s = some s' ∧ Stirs 0 (n - 1) s s' ∧ InOrder key s' n := by
  induction left generalizing s run with
  | zero => exact ⟨s, rfl, .refl .., by rwa [← hn]⟩
  | succ left ih =>
    have hlt : run < n := by omega
    obtain ⟨s₁, hone, hstir, hord⟩ := insertOne_some (hback run le_rfl hlt) hlt h
    obtain ⟨s', hrun', hstir', hord'⟩ := ih hord (by omega) (by omega) fun j hj hjn =>
      (hback j (by omega) hjn).of_stirs hstir (by omega)
    refine ⟨s', ?_, (hstir.widen le_rfl (by omega)).trans hstir', hord'⟩
    rw [insertAll, hone]
    exact hrun'

/-! ## the smallest goes first -/

theorem findMin_some {m : Nat} (hn : run + left ≤ n) (hm : m < run)
    (h : ∀ i, i < run → ¬ comesFirst (s.keyAt key i) (s.keyAt key m)) : ∃ m',
    findMin key n s left run m = some m' ∧ m' < run + left ∧
      ∀ i, i < run + left → ¬ comesFirst (s.keyAt key i) (s.keyAt key m') := by
  induction left generalizing run m with
  | zero => exact ⟨m, rfl, hm, h⟩
  | succ left ih =>
    simp only [findMin, isLess_eq (show run < n by omega) (show m < n by omega),
      Option.bind_eq_bind, Option.bind_some]
    rw [← Nat.add_assoc, Nat.add_right_comm]
    refine ih (by omega) (by split_ifs <;> omega) fun i hi => ?_
    by_cases hlast : i = run
    · subst hlast
      split_ifs with hlt
      · exact comesFirst_irrefl _
      · exact hlt
    · have hnot := h i (by omega)
      split_ifs with hlt
      · exact fun hrun => hnot (comesFirst_trans hrun hlt)
      · exact hnot

/-- After it every value but the first has one in front of it that it is not before. -/
theorem minFirst_some (hn : 0 < n) (h : ∀ j, maxThresh < j → j < n → Backed key s j) : ∃ s',
    minFirst key n s = some s' ∧ Stirs 0 (n - 1) s s' ∧
      ∀ j, 0 < j → j < n → Backed key s' j := by
  have hzero : ∀ i, i < 1 → ¬ comesFirst (s.keyAt key i) (s.keyAt key 0) := by
    intro i hi
    rw [show i = 0 by omega]
    exact comesFirst_irrefl _
  obtain ⟨m, hmin, hm, hall⟩ :=
    findMin_some (show 1 + min (n - 1) maxThresh ≤ n by omega) Nat.one_pos hzero
  simp only [minFirst, hmin, Option.bind_eq_bind, Option.bind_some]
  by_cases hm0 : m = 0
  · subst hm0
    refine ⟨s, if_neg (by omega), .refl .., fun j hj hjn => ?_⟩
    by_cases hshort : j ≤ maxThresh
    · exact ⟨0, hj, hall j (by omega)⟩
    · exact h j (by omega) hjn
  · rw [if_pos hm0, swapBoth_eq (by omega) hn]
    refine ⟨_, rfl, stirs_swapped (by omega) (by omega), fun j hj hjn => ?_⟩
    by_cases hshort : j ≤ maxThresh
    · refine ⟨0, hj, ?_⟩
      rw [keyAt_swapped 0, if_neg (by omega), if_pos rfl, keyAt_swapped j]
      split_ifs with hjm
      · exact hall 0 (by omega)
      · omega
      · exact hall j (by omega)
    · exact (h j (by omega) hjn).of_stirs (stirs_swapped (show 0 ≤ m ∧ m ≤ maxThresh by omega)
        (by omega)) (by omega)

/-! ## all of it -/

/-- What the rounds leave for the insertion sort. -/
theorem sortLong_some (key : (Fin (last + 1) → B) → Option K) (s : SortArrays B D last)
    (hn : n < 2 ^ 64) : ∃ s', sortLong key n s = some s' ∧ Stirs 0 (n - 1) s s' ∧
      ∀ j, maxThresh < j → j < n → Backed key s' j := by
  by_cases hlong : n > maxThresh
  · have hfits : PartsFit n [(0, n - 1)] := by
      refine ⟨?_, ?_, ?_, by simp, trivial⟩
      · simp only; omega
      · simp only; omega
      · simp only [List.length_nil]; omega
    have hlead : LeadsTo key n s [(0, n - 1)] (n - 1) :=
      ⟨by omega, .inr List.mem_cons_self, fun g hg => .inl (List.mem_singleton.mp hg),
        fun j hj hjn => by omega⟩
    have hwork : work [(0, n - 1)] < 2 * n + 1 := by
      simp only [work, List.map_cons, List.map_nil, List.sum_cons, List.sum_nil]
      omega
    obtain ⟨s', e, hrun, hstir, h⟩ := sortParts_some hn hwork hfits hlead
    refine ⟨s', ?_, hstir, fun j hj hjn => ?_⟩
    · rw [sortLong, if_pos hlong]
      exact hrun
    · have he : e ≤ maxThresh := h.front.resolve_right List.not_mem_nil
      cases h.above j (by omega) hjn with
      | inl hab => exact ⟨0, by omega, hab 0 (Nat.zero_le e)⟩
      | inr hsh =>
        obtain ⟨k, hk, hkj, hnan, -⟩ := hsh
        by_cases heq : k = j
        · refine ⟨0, by omega, ?_⟩
          rw [← heq, hnan]
          exact not_none_comesFirst _
        · refine ⟨k, by omega, ?_⟩
          rw [hnan]
          exact not_comesFirst_none _
  · exact ⟨s, if_neg hlong, .refl .., fun j hj hjn => by omega⟩

theorem drgQsort_some (key : (Fin (last + 1) → B) → Option K) (s : SortArrays B D last)
    (hzero : n ≠ 0) (hn : n < 2 ^ 64) : ∃ s', drgQsort key n s = some s' ∧ Stirs 0 (n - 1) s s' ∧
      InOrder key s' n := by
  obtain ⟨s₁, hlong, hstir₁, hback₁⟩ := sortLong_some key s hn
  obtain ⟨s₂, hmin, hstir₂, hback₂⟩ := minFirst_some (by omega) hback₁
  simp only [drgQsort, if_neg hzero, hlong, hmin, Option.bind_eq_bind, Option.bind_some]
  by_cases hone : n = 1
  · refine ⟨s₂, ?_, hstir₁.trans hstir₂, fun i hi => by omega⟩
    rw [hone]
    rfl
  · have hord : InOrder key s₂ 2 := by
      intro i hi
      obtain ⟨k, hk, hnot⟩ := hback₂ 1 (by omega) (by omega)
      have hi0 : i = 0 := by omega
      have hk0 : k = 0 := by omega
      subst hi0 hk0
      exact hnot
    obtain ⟨s₃, hins, hstir₃, hord₃⟩ := insertAll_some hord (by omega)
      (show 2 + (n - 2) = n by omega) fun j hj hjn => hback₂ j (by omega) hjn
    exact ⟨s₃, hins, (hstir₁.trans hstir₂).trans hstir₃, hord₃⟩

/-- No value of a stretch without a NaN is before an earlier one. -/
theorem InOrder.stretch (h : InOrder key s n) (hij : i < j) (hj : j < n)
    (hnum : ∀ k, i ≤ k → k ≤ j → s.keyAt key k ≠ none) :
    ¬ comesFirst (s.keyAt key j) (s.keyAt key i) := by
  induction j, hij using Nat.le_induction with
  | base => exact h i hj
  | succ m hm ih =>
    have him : ¬ comesFirst (s.keyAt key m) (s.keyAt key i) :=
      ih (by omega) fun k hk hk' => hnum k hk (by omega)
    exact not_comesFirst_of_pivot (hnum m (by omega) (by omega)) him (h m hj)

/-- The values come out in order, all of them where there is no NaN, each with its drag;
nothing behind them is touched. -/
theorem drgQsort_sorts (key : (Fin (last + 1) → B) → Option K) (n : Nat) (hn : n < 2 ^ 64)
    (s : SortArrays B D last) : ∃ s', drgQsort key n s = some s' ∧
      (∀ i j, i < j → j < n → (∀ k, i ≤ k → k ≤ j → s'.keyAt key k ≠ none) →
        ¬ comesFirst (s'.keyAt key j) (s'.keyAt key i)) ∧
      ((List.range n).map s'.cell).Perm ((List.range n).map s.cell) ∧
      ∀ i, n ≤ i → s'.cell i = s.cell i := by
  by_cases hzero : n = 0
  · refine ⟨s, if_pos hzero, fun i j _ hj => by omega, ?_, fun i _ => rfl⟩
    rw [hzero]
  · obtain ⟨s', hrun, hstir, hord⟩ := drgQsort_some key s hzero hn
    exact ⟨s', hrun, fun i j hij hj hnum => hord.stretch hij hj hnum, hstir.perm (by omega),
      fun i hi => hstir.outside (by omega)⟩

/-- Six values of one byte, the drags their old indices. -/
theorem drgQsort_sorts_six : ∃ s', drgQsort (fun v : Fin 1 → Nat => some (v 0)) 6
      ⟨fun i _ => [4, 2, 4, 1, 0, 3].getD i 9, id⟩ = some s' ∧
    (∀ i j, i < j → j < 6 → s'.val i 0 ≤ s'.val j 0) ∧
    ((List.range 6).map s'.cell).Perm ((List.range 6).map (SortArrays.cell
      ⟨fun i _ => [4, 2, 4, 1, 0, 3].getD i 9, id⟩)) := by
  obtain ⟨s', hrun, hord, hperm, -⟩ := drgQsort_sorts (fun v : Fin 1 → Nat => some (v 0)) 6
    (by decide) ⟨fun i _ => [4, 2, 4, 1, 0, 3].getD i 9, id⟩
  refine ⟨s', hrun, fun i j hij hj => ?_, hperm⟩
  have hnot := hord i j hij hj fun k _ _ => Option.some_ne_none _
  simpa [comesFirst, SortArrays.keyAt] using hnot

end QStore.Operators
