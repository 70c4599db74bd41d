import QStore.Operators.DrgQsort
import Mathlib.Tactic.Common

/-!
# QStore.Operators.DrgPartition

One round of `while (STACK_NOT_EMPTY)`: the median of three and the walls that
collapse on it (`Round`). Both scans stop inside of the part, as its first value is
not behind the pivot and its last one not before it.

With a NaN as pivot no scan moves: the walls step over the part from both sides, and the
NaN, in the middle from the start, ends up just behind the left piece.
-/

namespace QStore.Operators

variable {B D K : Type} {last : Nat} [LinearOrder K] {key : (Fin (last + 1) → B) → Option K}
  {n : Nat} {s s' : SortArrays B D last} {lo mid hi left right a b i e : Nat}

/-! ## the comparator -/

theorem comesFirst_asymm {x y : Option K} (h : comesFirst x y) : ¬ comesFirst y x := by
  cases x with
  | none => cases h
  | some x =>
    cases y with
    | none => cases h
    | some y => simpa [comesFirst] using (show x < y by simpa [comesFirst] using h).le

theorem comesFirst_irrefl (x : Option K) : ¬ comesFirst x x := fun h => comesFirst_asymm h h

theorem comesFirst_trans {x y z : Option K} (hxy : comesFirst x y) (hyz : comesFirst y z) :
    comesFirst x z := by
  cases x with
  | none => cases hxy
  | some x =>
    cases y with
    | none => cases hxy
    | some y =>
      cases z with
      | none => cases hyz
      | some z =>
        have hlt : x < y := by simpa [comesFirst] using hxy
        have hlt' : y < z := by simpa [comesFirst] using hyz
        simpa [comesFirst] using hlt.trans hlt'

theorem not_none_comesFirst (y : Option K) : ¬ comesFirst none y := Bool.false_ne_true

theorem not_comesFirst_none (x : Option K) : ¬ comesFirst x none := by
  cases x <;> exact Bool.false_ne_true

/-- A pivot that is a number keeps the two sides apart. -/
theorem not_comesFirst_of_pivot {x y p : Option K} (hp : p ≠ none) (hx : ¬ comesFirst p x)
    (hy : ¬ comesFirst y p) : ¬ comesFirst y x := by
  obtain ⟨p, rfl⟩ := Option.ne_none_iff_exists'.mp hp
  cases x with
  | none => exact not_comesFirst_none y
  | some x =>
    cases y with
    | none => exact not_none_comesFirst _
    | some y =>
      have hle : x ≤ p := by simpa [comesFirst] using hx
      have hle' : p ≤ y := by simpa [comesFirst] using hy
      simpa [comesFirst] using hle.trans hle'

/-! ## values and their drags -/

/-- An index of both arrays. -/
def SortArrays.cell (s : SortArrays B D last) (i : Nat) : (Fin (last + 1) → B) × D :=
  (s.val i, s.drg i)

/-- The place of the value at `i` in the order asked for. -/
def SortArrays.keyAt (key : (Fin (last + 1) → B) → Option K) (s : SortArrays B D last) (i : Nat) :
    Option K :=
  key (s.val i)

/-- The values with their drags, in another order from `lo` to `hi`. -/
abbrev Stirs (lo hi : Nat) (s s' : SortArrays B D last) : Prop := Rearranges lo hi s.cell s'.cell

omit [LinearOrder K] in
theorem keyAt_eq_comp : s.keyAt key = (fun c => key c.1) ∘ s.cell := rfl

omit [LinearOrder K] in
theorem Stirs.keys (h : Stirs lo hi s s') :
    Rearranges lo hi (s.keyAt key) (s'.keyAt key) := h.comp fun c => key c.1

/-- Both arrays, with two indices exchanged. -/
def SortArrays.swapped (s : SortArrays B D last) (a b : Nat) : SortArrays B D last :=
  ⟨Function.update (Function.update s.val a (s.val b)) b (s.val a),
    Function.update (Function.update s.drg a (s.drg b)) b (s.drg a)⟩

theorem swapBoth_eq (ha : a < n) (hb : b < n) : swapBoth n a b s = some (s.swapped a b) :=
  if_pos ⟨ha, hb⟩

/-- A swap takes the drag along. -/
theorem cell_swapped : (s.swapped a b).cell = s.cell ∘ Equiv.swap a b := by
  funext i
  rw [Function.comp_apply, Equiv.swap_apply_def]
  by_cases hb : i = b
  · subst hb
    by_cases ha : i = a
    · subst ha
      simp [SortArrays.cell, SortArrays.swapped]
    · simp [SortArrays.cell, SortArrays.swapped, ha]
  · by_cases ha : i = a
    · subst ha
      simp [SortArrays.cell, SortArrays.swapped, hb]
    · simp [SortArrays.cell, SortArrays.swapped, ha, hb]

omit [LinearOrder K] in
theorem keyAt_swapped (i : Nat) : (s.swapped a b).keyAt key i =
    if i = a then s.keyAt key b else if i = b then s.keyAt key a else s.keyAt key i := by
  rw [keyAt_eq_comp, cell_swapped, Function.comp_apply, Function.comp_apply, Equiv.swap_apply_def]
  split_ifs <;> rfl

theorem stirs_swapped (ha : lo ≤ a ∧ a ≤ hi) (hb : lo ≤ b ∧ b ≤ hi) :
    Stirs lo hi s (s.swapped a b) := by
  rw [Stirs, cell_swapped]
  exact .swap s.cell ha hb

theorem isLess_eq (ha : a < n) (hb : b < n) :
    isLess key n s a b = some (comesFirst (s.keyAt key a) (s.keyAt key b)) := if_pos ⟨ha, hb⟩

theorem stepBack_eq (h : 0 < i) : stepBack i = some (i - 1) := if_neg (Nat.ne_of_gt h)

/-! ## the median of three -/

theorem swapIfLess_eq (ha : a < n) (hb : b < n) : swapIfLess key n a b s =
    some (if comesFirst (s.keyAt key a) (s.keyAt key b) then s.swapped a b else s) := by
  rw [swapIfLess, isLess_eq ha hb, Option.bind_eq_bind, Option.bind_some]
  split_ifs
  · exact swapBoth_eq ha hb
  · rfl

variable (key s) in
/-- Two values put in order, the one at `lo` and the one at `mid`. -/
theorem swapIfLess_some (hlm : lo < mid) (hn : mid < n) : ∃ s',
    swapIfLess key n mid lo s = some s' ∧ Stirs lo mid s s' ∧
      ¬ comesFirst (s'.keyAt key mid) (s'.keyAt key lo) ∧
      (s'.keyAt key mid = s.keyAt key mid ∨ s'.keyAt key mid = s.keyAt key lo) ∧
      (s.keyAt key lo = none → s'.keyAt key lo = none) := by
  rw [swapIfLess_eq hn (hlm.trans hn)]
  refine ⟨_, rfl, ?_⟩
  split_ifs with hlt
  · have hmid : (s.swapped mid lo).keyAt key mid = s.keyAt key lo := by
      rw [keyAt_swapped, if_pos rfl]
    have hlo : (s.swapped mid lo).keyAt key lo = s.keyAt key mid := by
      rw [keyAt_swapped, if_neg hlm.ne, if_pos rfl]
    rw [hmid, hlo]
    refine ⟨stirs_swapped ⟨hlm.le, le_rfl⟩ ⟨le_rfl, hlm.le⟩, comesFirst_asymm hlt, .inr rfl, ?_⟩
    intro hnan
    rw [hnan] at hlt
    exact absurd hlt (not_comesFirst_none _)
  · exact ⟨.refl .., hlt, .inl rfl, id⟩

variable (key s) in
theorem medianOfThree_some (hlm : lo < mid) (hmh : mid < hi) (hn : hi < n) : ∃ s',
    medianOfThree key n lo mid hi s = some s' ∧ Stirs lo hi s s' ∧
      ¬ comesFirst (s'.keyAt key mid) (s'.keyAt key lo) ∧
      ¬ comesFirst (s'.keyAt key hi) (s'.keyAt key mid) ∧
      (s.keyAt key lo = none → s'.keyAt key lo = none) := by
  have hmn : mid < n := hmh.trans hn
  obtain ⟨s₁, hrun₁, hstir₁, hle₁, -, hnan₁⟩ := swapIfLess_some key s hlm hmn
  replace hstir₁ := hstir₁.widen le_rfl hmh.le
  simp only [medianOfThree, hrun₁, isLess_eq hn hmn, Option.bind_eq_bind, Option.bind_some]
  split_ifs with hlt
  · -- the greater of the first two goes to the end, and the other two are compared once more
    have hmid : (s₁.swapped mid hi).keyAt key mid = s₁.keyAt key hi := by
      rw [keyAt_swapped, if_pos rfl]
    have hhi : (s₁.swapped mid hi).keyAt key hi = s₁.keyAt key mid := by
      rw [keyAt_swapped, if_neg hmh.ne', if_pos rfl]
    have hlo : (s₁.swapped mid hi).keyAt key lo = s₁.keyAt key lo := by
      rw [keyAt_swapped, if_neg hlm.ne, if_neg (hlm.trans hmh).ne]
    obtain ⟨s₂, hrun₂, hstir₂, hle₂, hfrom₂, hnan₂⟩ :=
      swapIfLess_some key (s₁.swapped mid hi) hlm hmn
    rw [hmid, hlo] at hfrom₂
    rw [hlo] at hnan₂
    have hhi₂ : s₂.keyAt key hi = s₁.keyAt key mid := by
      rw [hstir₂.keys.outside (by omega), hhi]
    rw [swapBoth_eq hmn hn, Option.bind_some]
    refine ⟨s₂, hrun₂, ?_, hle₂, ?_, fun h => hnan₂ (hnan₁ h)⟩
    · exact hstir₁.trans ((stirs_swapped (by omega) (by omega)).trans
        (hstir₂.widen le_rfl hmh.le))
    · rw [hhi₂]
      cases hfrom₂ with
      | inl h => rw [h]; exact comesFirst_asymm hlt
      | inr h => rw [h]; exact hle₁
  · exact ⟨s₁, rfl, hstir₁, hle₁, hlt, hnan₁⟩

/-! ## the scans -/

/-- It stops at the latest where a value is not before the pivot. -/
theorem scanLeft_some (hm : mid < n) (he : e < n)
    (hstop : ¬ comesFirst (s.keyAt key e) (s.keyAt key mid)) {fuel : Nat} (hle : left ≤ e)
    (hfuel : e - left < fuel) : ∃ left', scanLeft key n s mid fuel left = some left' ∧
      left ≤ left' ∧ left' ≤ e ∧ ¬ comesFirst (s.keyAt key left') (s.keyAt key mid) ∧
      ∀ i, left ≤ i → i < left' → comesFirst (s.keyAt key i) (s.keyAt key mid) := by
  induction fuel generalizing left with
  | zero => omega
  | succ fuel ih =>
    simp only [scanLeft, isLess_eq (hle.trans_lt he) hm, Option.bind_eq_bind, Option.bind_some]
    split_ifs with hlt
    · have hne : left ≠ e := fun h => hstop (h ▸ hlt)
      obtain ⟨left', hrun, hge, hle', hnot, hall⟩ := ih (show left + 1 ≤ e by omega) (by omega)
      refine ⟨left', hrun, by omega, hle', hnot, fun i hi hi' => ?_⟩
      by_cases hil : i = left
      · exact hil ▸ hlt
      · exact hall i (by omega) hi'
    · exact ⟨left, rfl, le_rfl, hle, hlt, fun i hi hi' => absurd hi' (not_lt.mpr hi)⟩

theorem scanRight_some (hm : mid < n) (hr : right < n)
    (hstop : ¬ comesFirst (s.keyAt key mid) (s.keyAt key e)) {fuel : Nat} (hle : e ≤ right)
    (hfuel : right - e < fuel) : ∃ right', scanRight key n s mid fuel right = some right' ∧
      e ≤ right' ∧ right' ≤ right ∧ ¬ comesFirst (s.keyAt key mid) (s.keyAt key right') ∧
      ∀ i, right' < i → i ≤ right → comesFirst (s.keyAt key mid) (s.keyAt key i) := by
  induction fuel generalizing right with
  | zero => omega
  | succ fuel ih =>
    simp only [scanRight, isLess_eq hm hr, Option.bind_eq_bind, Option.bind_some]
    split_ifs with hlt
    · have hne : right ≠ e := fun h => hstop (h ▸ hlt)
      obtain ⟨right', hrun, hge, hle', hnot, hall⟩ :=
        ih (show right - 1 < n by omega) (by omega) (by omega)
      rw [stepBack_eq (by omega), Option.bind_some]
      refine ⟨right', hrun, hge, by omega, hnot, fun i hi hi' => ?_⟩
      by_cases hir : i = right
      · exact hir ▸ hlt
      · exact hall i hi (by omega)
    · exact ⟨right, rfl, hle, le_rfl, hlt, fun i hi hi' => absurd hi' (not_le.mpr hi)⟩

/-! ## the walls -/

/-- What holds between the walls `left` and `right` of a part, for the pivot `p` at `mid`. -/
structure Closing (key : (Fin (last + 1) → B) → Option K) (lo hi : Nat) (p : Option K)
    (s : SortArrays B D last) (left right mid : Nat) : Prop where
  lo_lt : lo < left
  le : left ≤ right
  lt_hi : right < hi
  lo_lt_mid : lo < mid
  mid_lt_hi : mid < hi
  pivot : s.keyAt key mid = p
  low : ∀ i, lo ≤ i → i < left → ¬ comesFirst p (s.keyAt key i)
  high : ∀ i, right < i → i ≤ hi → ¬ comesFirst (s.keyAt key i) p

/-- Where the walls have crossed. -/
structure Crossed (key : (Fin (last + 1) → B) → Option K) (lo hi : Nat) (p : Option K)
    (s : SortArrays B D last) (w : Walls B D last) : Prop where
  stirs : Stirs (lo + 1) (hi - 1) s w.arrays
  lo_le : lo ≤ w.right
  lt : w.right < w.left
  le_hi : w.left ≤ hi
  low : ∀ i, lo ≤ i → i < w.left → ¬ comesFirst p (w.arrays.keyAt key i)
  high : ∀ i, w.right < i → i ≤ hi → ¬ comesFirst (w.arrays.keyAt key i) p

omit [LinearOrder K] in
/-- The pivot after the values at the walls are exchanged. -/
theorem keyAt_mid_swapped (left right mid : Nat) : (s.swapped left right).keyAt key
    (if mid = left then right else if mid = right then left else mid) = s.keyAt key mid := by
  rw [keyAt_swapped]
  split_ifs <;> simp_all

/-- One exchange, with both walls one further. -/
theorem sides_swapped {p : Option K} (hlt : left < right)
    (hlow : ∀ i, lo ≤ i → i < left → ¬ comesFirst p (s.keyAt key i))
    (hhigh : ∀ i, right < i → i ≤ hi → ¬ comesFirst (s.keyAt key i) p)
    (hl : ¬ comesFirst (s.keyAt key left) p) (hr : ¬ comesFirst p (s.keyAt key right)) :
    (∀ i, lo ≤ i → i < left + 1 → ¬ comesFirst p ((s.swapped left right).keyAt key i)) ∧
      ∀ i, right - 1 < i → i ≤ hi → ¬ comesFirst ((s.swapped left right).keyAt key i) p := by
  constructor
  · intro i hi hi'
    rw [keyAt_swapped]
    split_ifs with hil hir
    · exact hr
    · omega
    · exact hlow i hi (by omega)
  · intro i hi hi'
    rw [keyAt_swapped]
    split_ifs with hil hir
    · omega
    · exact hl
    · exact hhigh i (by omega) hi'

theorem collapseWalls_some {p : Option K} (hn : hi < n) {fuel : Nat} (hfuel : right - left < fuel)
    (h : Closing key lo hi p s left right mid) :
    ∃ w, collapseWalls key n fuel s left right mid = some w ∧ Crossed key lo hi p s w := by
  induction fuel generalizing s left right mid with
  | zero => omega
  | succ fuel ih =>
    obtain ⟨hlo, hle, hhi, hlm, hmh, rfl, hlow, hhigh⟩ := h
    have hmn : mid < n := by omega
    obtain ⟨left', hrunl, hgel, hlel, hnotl, halll⟩ := scanLeft_some hmn hn
      (hhigh hi (by omega) le_rfl) (show left ≤ hi by omega) (show hi - left < n + 1 by omega)
    obtain ⟨right', hrunr, hger, hler, hnotr, hallr⟩ := scanRight_some hmn
      (show right < n by omega) (hlow lo le_rfl hlo) (by omega) (show right - lo < n + 1 by omega)
    -- what the scans went over is on its side of the pivot
    have hlow' : ∀ i, lo ≤ i → i < left' → ¬ comesFirst (s.keyAt key mid) (s.keyAt key i) := by
      intro i hi hi'
      by_cases hil : i < left
      · exact hlow i hi hil
      · exact comesFirst_asymm (halll i (by omega) hi')
    have hhigh' : ∀ i, right' < i → i ≤ hi → ¬ comesFirst (s.keyAt key i) (s.keyAt key mid) := by
      intro i hi hi'
      by_cases hir : right < i
      · exact hhigh i hir hi'
      · exact comesFirst_asymm (hallr i hi (by omega))
    simp only [collapseWalls, hrunl, hrunr, Option.bind_eq_bind, Option.bind_some]
    by_cases hlt : left' < right'
    · obtain ⟨hlow₁, hhigh₁⟩ := sides_swapped hlt hlow' hhigh' hnotl hnotr
      have hstir : Stirs (lo + 1) (hi - 1) s (s.swapped left' right') :=
        stirs_swapped (by omega) (by omega)
      rw [if_pos hlt, swapBoth_eq (by omega) (by omega), Option.bind_some,
        stepBack_eq (by omega), Option.bind_some]
      by_cases hle' : left' + 1 ≤ right' - 1
      · rw [if_pos hle']
        obtain ⟨w, hrun, hw⟩ := ih (show right' - 1 - (left' + 1) < fuel by omega)
          ⟨by omega, hle', by omega, by split_ifs <;> omega, by split_ifs <;> omega,
            keyAt_mid_swapped left' right' mid, hlow₁, hhigh₁⟩
        exact ⟨w, hrun, hstir.trans hw.stirs, hw.lo_le, hw.lt, hw.le_hi, hw.low, hw.high⟩
      · rw [if_neg hle']
        exact ⟨_, rfl, hstir, by simp only; omega, by simp only; omega, by simp only; omega,
          hlow₁, hhigh₁⟩
    · rw [if_neg hlt]
      by_cases heq : left' = right'
      · subst heq
        rw [if_pos rfl, stepBack_eq (by omega), Option.bind_some]
        refine ⟨_, rfl, .refl .., by simp only; omega, by simp only; omega, by simp only; omega,
          fun i hi hi' => ?_, fun i hi hi' => ?_⟩
        · by_cases hil : i = left'
          · exact hil ▸ hnotr
          · exact hlow' i hi (by simp only at hi'; omega)
        · by_cases hil : i = left'
          · exact hil ▸ hnotl
          · exact hhigh' i (by simp only at hi; omega) hi'
      · rw [if_neg heq]
        exact ⟨_, rfl, .refl .., hger, by simp only; omega, hlel, hlow', hhigh'⟩

/-- A pivot that is a NaN, in the middle between the walls: they meet at it. -/
theorem collapseWalls_nan (hnan : s.keyAt key mid = none)
    (hmid : left + right = 2 * mid ∨ left + right = 2 * mid + 1) (hn : right < n) {fuel : Nat}
    {w : Walls B D last} (hle : left ≤ right)
    (hrun : collapseWalls key n fuel s left right mid = some w) :
    w.arrays.keyAt key (w.right + 1) = none := by
  induction fuel generalizing s left right mid with
  | zero => cases hrun
  | succ fuel ih =>
    have hscanl : scanLeft key n s mid (n + 1) left = some left := by
      simp only [scanLeft, isLess_eq (show left < n by omega) (show mid < n by omega), hnan,
        Option.bind_eq_bind, Option.bind_some, if_neg (not_comesFirst_none _)]
    have hscanr : scanRight key n s mid (n + 1) right = some right := by
      simp only [scanRight, isLess_eq (show mid < n by omega) hn, hnan, Option.bind_eq_bind,
        Option.bind_some, if_neg (not_none_comesFirst _)]
    simp only [collapseWalls, hscanl, hscanr, Option.bind_eq_bind, Option.bind_some] at hrun
    by_cases hlt : left < right
    · rw [if_pos hlt, swapBoth_eq (by omega) (by omega), Option.bind_some,
        stepBack_eq (by omega), Option.bind_some] at hrun
      by_cases hle' : left + 1 ≤ right - 1
      · rw [if_pos hle', if_neg (by omega), if_neg (by omega)] at hrun
        refine ih ?_ (by omega) (by omega) hle' hrun
        rw [keyAt_swapped, if_neg (by omega), if_neg (by omega), hnan]
      · -- the two in the middle, of which the NaN is the first
        rw [if_neg hle'] at hrun
        cases hrun
        have hml : mid = left := by omega
        rw [Nat.sub_add_cancel (by omega), keyAt_swapped, if_neg (by omega), if_pos rfl, ← hml,
          hnan]
    · rw [if_neg hlt, if_pos (by omega)] at hrun
      by_cases hr : 0 < right
      · rw [stepBack_eq hr, Option.bind_some] at hrun
        cases hrun
        rw [Nat.sub_add_cancel hr, show right = mid by omega, hnan]
      · rw [stepBack, if_pos (by omega)] at hrun
        cases hrun

/-! ## a round -/

/-- What a round makes of the part from `lo` to `hi`. -/
structure Round (key : (Fin (last + 1) → B) → Option K) (lo hi : Nat) (s : SortArrays B D last)
    (w : Walls B D last) : Prop where
  stirs : Stirs lo hi s w.arrays
  lo_le : lo ≤ w.right
  lt : w.right < w.left
  le_hi : w.left ≤ hi
  /-- No value of the right piece is before one of the left piece, unless a NaN stands
  between the two. -/
  apart : (∀ i j, lo ≤ i → i ≤ w.right → w.right < j → j ≤ hi →
      ¬ comesFirst (w.arrays.keyAt key j) (w.arrays.keyAt key i)) ∨
    w.arrays.keyAt key (w.right + 1) = none
  /-- A NaN in front stays. -/
  front : s.keyAt key lo = none → w.arrays.keyAt key lo = none

variable (key s) in
theorem round_some (hlh : lo + 2 ≤ hi) (hn : hi < n) : ∃ s₁ w,
    medianOfThree key n lo (lo + (hi - lo) / 2) hi s = some s₁ ∧ stepBack hi = some (hi - 1) ∧
      collapseWalls key n (n + 1) s₁ (lo + 1) (hi - 1) (lo + (hi - lo) / 2) = some w ∧
      Round key lo hi s w := by
  obtain ⟨mid, hmid⟩ : ∃ mid, mid = lo + (hi - lo) / 2 := ⟨_, rfl⟩
  rw [← hmid]
  obtain ⟨s₁, hrun₁, hstir₁, hle, hle', hnan⟩ :=
    medianOfThree_some key s (show lo < mid by omega) (show mid < hi by omega) hn
  have hclosing : Closing key lo hi (s₁.keyAt key mid) s₁ (lo + 1) (hi - 1) mid := by
    refine ⟨by omega, by omega, by omega, by omega, by omega, rfl, fun i hi' hi'' => ?_,
      fun i hi' hi'' => ?_⟩
    · rwa [show i = lo by omega]
    · rwa [show i = hi by omega]
  obtain ⟨w, hrun, hw⟩ := collapseWalls_some hn (show hi - 1 - (lo + 1) < n + 1 by omega) hclosing
  refine ⟨s₁, w, hrun₁, stepBack_eq (by omega), hrun, ?_⟩
  have hstir : Stirs lo hi s₁ w.arrays := hw.stirs.widen (by omega) (by omega)
  refine ⟨hstir₁.trans hstir, hw.lo_le, hw.lt, hw.le_hi, ?_, fun h => ?_⟩
  · by_cases hp : s₁.keyAt key mid = none
    · exact .inr (collapseWalls_nan hp (by omega) (by omega) (by omega) hrun)
    · exact .inl fun i j hi' hi'' hj hj' => not_comesFirst_of_pivot hp
        (hw.low i hi' (hi''.trans_lt hw.lt)) (hw.high j hj hj')
  · rw [hw.stirs.keys.outside (by omega)]
    exact hnan h

end QStore.Operators
