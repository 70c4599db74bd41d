import Mathlib.Algebra.Order.Ring.Int
import Mathlib.Order.Lattice
import Mathlib.Tactic.Ring
import Mathlib.Tactic.NormNum
import Mathlib.Tactic.Positivity
import Mathlib.Tactic.Linarith

/-!
# QStore.Lib.Double

Finite binary64 numbers by their fields. Every one of them is a whole multiple of
`2 ^ -1074`, so they are compared as integers. The value does not tell `-0` from `0`, the
fields do.

```
sign  exp (11 bits)  frac (52 bits)      ± (2^52 + frac) · 2^(exp - 1)   exp > 0
                                         ± frac                          exp = 0
```
-/

namespace QStore

/-- A finite binary64 number. -/
structure Double where
  neg : Bool
  exp : Nat
  frac : Nat
  exp_lt : exp < 2047
  frac_lt : frac < 2 ^ 52
deriving DecidableEq

namespace Double

/-- The absolute value, in units of `2 ^ -1074`. -/
def magnitude (d : Double) : Nat :=
  (if d.exp = 0 then d.frac else 2 ^ 52 + d.frac) * 2 ^ (d.exp - 1)

/-- The value, in units of `2 ^ -1074`. -/
def units (d : Double) : Int := if d.neg then -d.magnitude else d.magnitude

/-- `<` and `<=` of C. -/
instance : Preorder Double where
  le a b := a.units ≤ b.units
  le_refl a := le_refl a.units
  le_trans a b c := le_trans (a := a.units) (b := b.units) (c := c.units)

variable {a b d e : Double}

theorem le_iff : a ≤ b ↔ a.units ≤ b.units := Iff.rfl

theorem lt_iff : a < b ↔ a.units < b.units := by
  rw [lt_iff_le_not_ge, le_iff, le_iff]
  omega

instance : DecidableLE Double := fun a b => inferInstanceAs (Decidable (a.units ≤ b.units))

instance : DecidableLT Double := fun _ _ => decidable_of_iff _ lt_iff.symm

theorem le_total' (a b : Double) : a ≤ b ∨ b ≤ a := le_total a.units b.units

/-! ## single numbers -/

/-- All bits zero. -/
def zero : Double := ⟨false, 0, 0, by norm_num, by norm_num⟩

/-- `± 2 ^ e` -/
def pow2 (neg : Bool) (e : Nat) (h : e < 1024) : Double :=
  ⟨neg, 1023 + e, 0, by omega, by norm_num⟩

/-- `n · 2 ^ -1074` -/
def tiny (n : Nat) (h : n < 2 ^ 52) : Double := ⟨false, 0, n, by norm_num, h⟩

@[simp] theorem units_zero : zero.units = 0 := by simp [units, magnitude, zero]

@[simp] theorem units_tiny {n : Nat} (h : n < 2 ^ 52) : (tiny n h).units = n := by
  simp [units, magnitude, tiny]

theorem units_pow2 {e : Nat} (h : e < 1024) (neg : Bool) :
    (pow2 neg e h).units = if neg then -2 ^ (1074 + e) else 2 ^ (1074 + e) := by
  have hm : (pow2 neg e h).magnitude = 2 ^ (1074 + e) := by
    rw [magnitude, pow2, if_neg (by simp), Nat.add_zero, ← Nat.pow_add]
    congr 1
    simp only
    omega
  rw [units, hm]
  simp [pow2]

/-! ## the 32-bit half of a number -/

/-- `d` with its low four bytes taken from `s`. -/
def withLow (d s : Double) : Double where
  neg := d.neg
  exp := d.exp
  frac := d.frac / 2 ^ 32 * 2 ^ 32 + s.frac % 2 ^ 32
  exp_lt := d.exp_lt
  frac_lt := by
    have := d.frac_lt
    omega

/-- A number whose low half is zero leaves nothing in a zero. -/
@[simp] theorem withLow_zero (h : d.frac = 0) : zero.withLow d = zero := by
  simp [withLow, zero, h]

/-! ## conversion to and from `int` -/

/-- `(int)d`: truncation towards zero, undefined out of range. -/
def toInt32 (d : Double) : Option Int32 :=
  let z := d.units.tdiv (2 ^ 1074)
  if -2 ^ 31 ≤ z ∧ z < 2 ^ 31 then some (Int32.ofInt z) else none

/-- `(double)z`, exact. -/
def ofInt32 (z : Int32) : Double :=
  let a := z.toInt.natAbs
  if h : a = 0 then zero
  else
    { neg := z.toInt < 0
      exp := 1023 + Nat.log2 a
      frac := (a - 2 ^ Nat.log2 a) * 2 ^ (52 - Nat.log2 a)
      exp_lt := by
        have hlow := z.le_toInt
        have hhigh := z.toInt_lt
        have ha : Nat.log2 a < 32 := (Nat.log2_lt h).mpr (by omega)
        omega
      frac_lt := by
        have hlow := z.le_toInt
        have hhigh := z.toInt_lt
        have ha : Nat.log2 a < 32 := (Nat.log2_lt h).mpr (by omega)
        have htop : a < 2 ^ (Nat.log2 a + 1) := Nat.lt_log2_self
        rw [Nat.pow_succ] at htop
        calc (a - 2 ^ Nat.log2 a) * 2 ^ (52 - Nat.log2 a)
            < 2 ^ Nat.log2 a * 2 ^ (52 - Nat.log2 a) :=
              Nat.mul_lt_mul_of_pos_right (by omega) (by positivity)
          _ = 2 ^ 52 := by rw [← Nat.pow_add]; congr 1; omega }

@[simp] theorem toInt32_zero : zero.toInt32 = some 0 := by
  rw [toInt32, units_zero, Int.zero_tdiv]
  rfl

@[simp] theorem ofInt32_zero : ofInt32 0 = zero := by
  simp [ofInt32]

theorem units_ofInt32 (z : Int32) : (ofInt32 z).units = z.toInt * 2 ^ 1074 := by
  by_cases hz : z.toInt.natAbs = 0
  · rw [ofInt32, dif_pos hz, units_zero, Int.natAbs_eq_zero.mp hz, zero_mul]
  · have hlow := z.le_toInt
    have hhigh := z.toInt_lt
    have hlog : Nat.log2 z.toInt.natAbs < 32 := (Nat.log2_lt hz).mpr (by omega)
    have hself : 2 ^ Nat.log2 z.toInt.natAbs ≤ z.toInt.natAbs := Nat.log2_self_le hz
    generalize hL : Nat.log2 z.toInt.natAbs = L at hlog hself
    have hone : 2 ^ L * 2 ^ (52 - L) = 2 ^ 52 := by
      rw [← Nat.pow_add]
      congr 1
      omega
    have hmag : (ofInt32 z).magnitude = z.toInt.natAbs * 2 ^ 1074 := by
      rw [ofInt32, dif_neg hz, magnitude]
      simp only [hL]
      rw [if_neg (by omega), Nat.sub_mul, hone,
        Nat.add_sub_cancel' (hone ▸ Nat.mul_le_mul_right _ hself), Nat.mul_assoc, ← Nat.pow_add]
      congr 2
      omega
    have hneg : (ofInt32 z).neg = decide (z.toInt < 0) := by
      rw [ofInt32, dif_neg hz]
    rw [units, hmag, hneg]
    by_cases hlt : z.toInt < 0
    · rw [decide_eq_true hlt, if_pos rfl, Nat.cast_mul, Nat.cast_pow, Nat.cast_ofNat,
        Int.ofNat_natAbs_of_nonpos hlt.le, neg_mul, neg_neg]
    · rw [decide_eq_false hlt, if_neg (by simp), Nat.cast_mul, Nat.cast_pow,
        Nat.cast_ofNat, Int.natAbs_of_nonneg (not_lt.mp hlt)]

/-! ## the value tells the fields -/

theorem magnitude_lt (d : Double) : d.magnitude < 2 ^ 52 * 2 ^ d.exp := by
  have hf := d.frac_lt
  rw [magnitude]
  split
  · next h => simpa [h] using hf
  · next h =>
      have hexp : 2 ^ d.exp = 2 * 2 ^ (d.exp - 1) := by
        rw [← Nat.pow_succ']
        congr 1
        omega
      rw [hexp, ← Nat.mul_assoc]
      exact Nat.mul_lt_mul_of_pos_right (by omega) (Nat.two_pow_pos _)

theorem le_magnitude (h : 0 < d.exp) : 2 ^ 52 * 2 ^ (d.exp - 1) ≤ d.magnitude := by
  rw [magnitude, if_neg h.ne']
  exact Nat.mul_le_mul_right _ (Nat.le_add_right _ _)

theorem exp_le_of_magnitude (h : a.magnitude = b.magnitude) : a.exp ≤ b.exp := by
  by_contra hcon
  have hlow := le_magnitude (d := a) (by omega)
  have hhigh := magnitude_lt b
  have hpow : 2 ^ b.exp ≤ 2 ^ (a.exp - 1) := Nat.pow_le_pow_right (by omega) (by omega)
  have := Nat.mul_le_mul_left (2 ^ 52) hpow
  omega

theorem frac_eq_of_magnitude (h : a.magnitude = b.magnitude) (he : a.exp = b.exp) :
    a.frac = b.frac := by
  have hpos : 0 < 2 ^ (b.exp - 1) := Nat.two_pow_pos _
  rw [magnitude, magnitude, he] at h
  have := Nat.eq_of_mul_eq_mul_right hpos h
  split at this <;> omega

theorem natAbs_units (d : Double) : d.units.natAbs = d.magnitude := by
  rw [units]
  split <;> simp

/-- Only zero has two signs. -/
theorem eq_of_units (h : a.units = b.units) (hz : a.units = 0 → a.neg = b.neg) : a = b := by
  have hmag : a.magnitude = b.magnitude := by rw [← natAbs_units, h, natAbs_units]
  have hexp := le_antisymm (exp_le_of_magnitude hmag) (exp_le_of_magnitude hmag.symm)
  have hfrac := frac_eq_of_magnitude hmag hexp
  have hneg : a.neg = b.neg := by
    by_cases h0 : a.units = 0
    · exact hz h0
    · rw [units, units, hmag] at h
      rw [units, hmag] at h0
      cases ha : a.neg <;> cases hb : b.neg <;> simp [ha, hb] at h h0 ⊢ <;> omega
  cases a
  cases b
  simp only at hneg hexp hfrac
  subst hneg hexp hfrac
  rfl

/-- A whole number in the range of an `int`, and not `-0`. -/
structure IsInt32 (d : Double) : Prop where
  whole : 2 ^ 1074 ∣ d.units
  fits : d.toInt32.isSome
  sign : d.units = 0 → d.neg = false

/-- **These are the numbers that an `int` keeps.** -/
theorem isInt32_iff : IsInt32 d ↔ d.toInt32.map ofInt32 = some d := by
  constructor
  · intro h
    obtain ⟨q, hq⟩ := h.whole
    have hdiv : d.units.tdiv (2 ^ 1074) = q := by
      rw [hq, Int.mul_tdiv_cancel_left]
      positivity
    have hfits := h.fits
    rw [toInt32] at hfits ⊢
    simp only [hdiv] at hfits ⊢
    split at hfits
    · next hr =>
        have hval : (ofInt32 (Int32.ofInt q)).units = d.units := by
          rw [units_ofInt32, Int32.toInt_ofInt, hq,
            Int.bmod_eq_of_le (by simpa using hr.1) (by simpa using hr.2), mul_comm]
        rw [if_pos hr, Option.map_some, Option.some.injEq]
        apply eq_of_units hval
        intro hzero
        rw [h.sign (hval ▸ hzero)]
        have hq0 : q = 0 := by
          rw [hval, hq] at hzero
          exact (mul_eq_zero.mp hzero).resolve_left (by positivity)
        rw [hq0]
        rfl
    · simp at hfits
  · intro h
    cases hz : d.toInt32 with
    | none => simp [hz] at h
    | some z =>
        rw [hz, Option.map_some, Option.some.injEq] at h
        have hval : d.units = z.toInt * 2 ^ 1074 := by rw [← h, units_ofInt32]
        constructor
        · exact ⟨z.toInt, by rw [hval, mul_comm]⟩
        · simp [hz]
        · intro h0
          have hz0 : z.toInt = 0 := by
            rw [hval] at h0
            exact (mul_eq_zero.mp h0).resolve_right (by positivity)
          rw [← h, ofInt32, dif_pos (by simp [hz0])]
          rfl

/-- A power of two that no `int` reaches. -/
theorem toInt32_pow2 {e : Nat} (h : e < 1024) (he : 31 ≤ e) : (pow2 false e h).toInt32 = none := by
  have hdiv : (pow2 false e h).units.tdiv (2 ^ 1074) = 2 ^ e := by
    rw [units_pow2, if_neg (by simp), pow_add, Int.mul_tdiv_cancel_left]
    positivity
  have hle : (2 : Int) ^ 31 ≤ 2 ^ e := pow_le_pow_right₀ (by norm_num) he
  rw [toInt32]
  simp only [hdiv]
  rw [if_neg (by omega)]

end Double

end QStore
