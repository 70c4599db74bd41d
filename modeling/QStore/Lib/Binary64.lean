import Mathlib.Tactic.Common
import Mathlib.Tactic.Linarith
import Mathlib.Tactic.Ring
import Mathlib.Data.Nat.Log

/-!
# QStore.Lib.Binary64

Truncation to an integer of a binary64 operation whose exact result is a
non-negative rational `num / den`. C writes `(uint64_t)(c * (double)n)`: the
exact product is rounded to 53 significant bits, to nearest with ties to even,
and only then truncated.

```
truncRound num den  =  ⌊ rne (num / den · 2^s) / 2^s ⌋,   2^52 ≤ num / den · 2^s < 2^53
```

Rounding moves the value by half a unit in the last place at most, so the
result is the exact floor unless the quotient lies that close below an integer:
`truncRound_eq` and `truncRound_eq_of_near` are the two cases.
-/

namespace QStore.Binary64

variable {num den a s : Nat}

/-- `num / den` rounded to the nearest integer, ties to even. -/
def rne (num den : Nat) : Nat :=
  if 2 * (num % den) < den then num / den
  else if den < 2 * (num % den) then num / den + 1
  else num / den + num / den % 2

/-- The exponent of the last of the 53 significant bits of `num / den`, as the
power of two that scales the quotient to `2^52 ≤ · < 2^53`. Exact for quotients
below `2^53`. -/
def scale (num den : Nat) : Nat :=
  105 + Nat.log2 den - Nat.log2 (num * 2 ^ (53 + Nat.log2 den) / den)

/-- The integer part of the binary64 value nearest to `num / den`. -/
def truncRound (num den : Nat) : Nat :=
  rne (num * 2 ^ scale num den) den / 2 ^ scale num den

/-- `n > x` for an integer `n` and the binary64 value `x` nearest to `num / den`. -/
def exceeds (n num den : Nat) : Prop := rne (num * 2 ^ scale num den) den < n * 2 ^ scale num den

instance (n num den : Nat) : Decidable (exceeds n num den) := inferInstanceAs (Decidable (_ < _))

/-- An integer exceeds a number if and only if it exceeds its integer part. -/
theorem exceeds_iff {n : Nat} : exceeds n num den ↔ truncRound num den < n := by
  rw [exceeds, truncRound, Nat.div_lt_iff_lt_mul (Nat.two_pow_pos _)]

/-! ## rounding to the nearest integer -/

/-- Rounding does not pass below an integer the value does not pass below. -/
theorem le_rne (h : a * den ≤ num) (hd : 0 < den) : a ≤ rne num den := by
  have hq : a ≤ num / den := (Nat.le_div_iff_mul_le hd).mpr h
  unfold rne
  split
  · exact hq
  · split <;> omega

/-- A value less than half below an integer rounds to it, or stays above it. -/
theorem le_rne_of_near (h : 2 * (a * den) < 2 * num + den) (hd : 0 < den) : a ≤ rne num den := by
  by_cases hle : a * den ≤ num
  · exact le_rne hle hd
  · have hdm := Nat.div_add_mod num den
    have hmod := Nat.mod_lt num hd
    -- the integer part is `a - 1`, and the fraction is over one half
    have hlt : num / den < a := by
      rw [Nat.div_lt_iff_lt_mul hd]; omega
    have hge : a ≤ num / den + 1 := by
      by_contra hcon
      have h2 : (num / den + 2) * den ≤ a * den := Nat.mul_le_mul_right den (by omega)
      have : (num / den + 2) * den = den * (num / den) + 2 * den := by ring
      omega
    have ha : a = num / den + 1 := by omega
    have hexp : a * den = den * (num / den) + den := by rw [ha]; ring
    unfold rne
    rw [if_neg (by omega), if_pos (by omega)]
    omega

/-- A value more than half below an integer rounds below it. -/
theorem rne_lt (h : 2 * num + den < 2 * (a * den)) (hd : 0 < den) : rne num den < a := by
  have hdm := Nat.div_add_mod num den
  have hmod := Nat.mod_lt num hd
  have hlt : num / den < a := by
    rw [Nat.div_lt_iff_lt_mul hd]; omega
  unfold rne
  split
  · exact hlt
  · next hhalf =>
    have hne : num / den + 1 ≠ a := by
      intro ha
      have hexp : a * den = den * (num / den) + den := by rw [← ha]; ring
      omega
    split <;> omega

/-! ## the scale -/

/-- The scaled quotient keeps 53 bits at most. -/
theorem mul_scale_lt (hd : 0 < den) (hn : 0 < num) (hlt : num < den * 2 ^ 53) :
    num * 2 ^ scale num den < den * 2 ^ 53 := by
  obtain ⟨K, hK⟩ : ∃ K, K = 53 + Nat.log2 den := ⟨_, rfl⟩
  obtain ⟨y, hy⟩ : ∃ y, y = num * 2 ^ K / den := ⟨_, rfl⟩
  have hden : den < 2 ^ (Nat.log2 den + 1) := Nat.lt_log2_self
  -- `y` is positive: the shift by `K` outgrows the denominator
  have hypos : 2 ^ 52 ≤ y := by
    rw [hy, Nat.le_div_iff_mul_le hd]
    calc 2 ^ 52 * den ≤ 2 ^ 52 * 2 ^ (Nat.log2 den + 1) := Nat.mul_le_mul_left _ hden.le
      _ = 2 ^ K := by rw [← Nat.pow_add, hK]; congr 1; omega
      _ ≤ num * 2 ^ K := Nat.le_mul_of_pos_left _ hn
  have hylog : y < 2 ^ (Nat.log2 y + 1) := Nat.lt_log2_self
  have hlow : 52 ≤ Nat.log2 y := (Nat.le_log2 (by omega)).mpr hypos
  have hyle : Nat.log2 y < 53 + K := by
    rw [Nat.log2_lt (by omega), hy, Nat.div_lt_iff_lt_mul hd, Nat.pow_add]
    calc num * 2 ^ K < den * 2 ^ 53 * 2 ^ K := Nat.mul_lt_mul_of_pos_right hlt (by positivity)
      _ = 2 ^ 53 * 2 ^ K * den := by ring
  have hs : scale num den = 52 + K - Nat.log2 y := by
    rw [scale, ← hK, ← hy]; omega
  -- multiply through by the power of two that takes the scale back to `K`
  have hpow : 2 ^ scale num den * 2 ^ (Nat.log2 y - 52) = 2 ^ K := by
    rw [← Nat.pow_add, hs]; congr 1; omega
  have hnum : num * 2 ^ K < den * 2 ^ (Nat.log2 y + 1) := by
    rw [Nat.mul_comm den, ← Nat.div_lt_iff_lt_mul hd, ← hy]; exact hylog
  have hbits : den * 2 ^ (Nat.log2 y + 1) = den * 2 ^ 53 * 2 ^ (Nat.log2 y - 52) := by
    rw [Nat.mul_assoc, ← Nat.pow_add]; congr 2; omega
  rw [hbits, ← hpow, ← Nat.mul_assoc] at hnum
  exact Nat.lt_of_mul_lt_mul_right hnum

/-- A quotient below `2^32` keeps at least 21 bits after the point. -/
theorem scale_ge (hd : 0 < den) (hlt : num < den * 2 ^ 32) : 21 ≤ scale num den := by
  obtain ⟨K, hK⟩ : ∃ K, K = 53 + Nat.log2 den := ⟨_, rfl⟩
  obtain ⟨y, hy⟩ : ∃ y, y = num * 2 ^ K / den := ⟨_, rfl⟩
  have hyle : Nat.log2 y < 32 + K := by
    by_cases hy0 : y = 0
    · rw [hy0, Nat.log2_zero]; omega
    · rw [Nat.log2_lt hy0, hy, Nat.div_lt_iff_lt_mul hd, Nat.pow_add]
      calc num * 2 ^ K < den * 2 ^ 32 * 2 ^ K := Nat.mul_lt_mul_of_pos_right hlt (by positivity)
        _ = 2 ^ 32 * 2 ^ K * den := by ring
  have hs : scale num den = 52 + K - Nat.log2 y := by
    rw [scale, ← hK, ← hy]; omega
  omega

/-! ## the integer part -/

/-- The upper half of both cases: a gap of `2⁻²¹` to the next integer survives
the rounding. -/
theorem truncRound_lt (hd : 0 < den) (hlt : num < den * 2 ^ 32)
    (hup : den < (a * den - num) * 2 ^ 21) : truncRound num den < a := by
  have hs := scale_ge hd hlt
  rw [truncRound, Nat.div_lt_iff_lt_mul (by positivity)]
  refine rne_lt ?_ hd
  have hgap : num < a * den := by
    by_contra hge
    rw [Nat.sub_eq_zero_of_le (by omega)] at hup
    omega
  have hpow : 2 ^ 21 ≤ 2 ^ scale num den := Nat.pow_le_pow_right (by omega) hs
  have h1 : den < (a * den - num) * 2 ^ scale num den :=
    hup.trans_le (Nat.mul_le_mul_left _ hpow)
  rw [Nat.sub_mul] at h1
  have h2 : num * 2 ^ scale num den ≤ a * den * 2 ^ scale num den :=
    Nat.mul_le_mul_right _ hgap.le
  have h3 : a * 2 ^ scale num den * den = a * den * 2 ^ scale num den := by ring
  omega

/-- **At or above an integer**, and clear of the next one, the integer part is
exact. -/
theorem truncRound_eq (hd : 0 < den) (hlt : num < den * 2 ^ 32) (hlow : a * den ≤ num)
    (hup : den < ((a + 1) * den - num) * 2 ^ 21) : truncRound num den = a := by
  apply Nat.le_antisymm
  · exact Nat.le_of_lt_succ (truncRound_lt hd hlt hup)
  · rw [truncRound, Nat.le_div_iff_mul_le (by positivity)]
    refine le_rne ?_ hd
    calc a * 2 ^ scale num den * den = a * den * 2 ^ scale num den := by ring
      _ ≤ num * 2 ^ scale num den := Nat.mul_le_mul_right _ hlow

/-- **Just below an integer**: a quotient short of `a` by less than one part in
`2^54` of itself rounds up to `a`. -/
theorem truncRound_eq_of_near (hd : 0 < den) (hn : 0 < num) (hlt : num < den * 2 ^ 32)
    (hnear : (a * den - num) * 2 ^ 54 ≤ num)
    (hup : den < ((a + 1) * den - num) * 2 ^ 21) : truncRound num den = a := by
  by_cases hle : a * den ≤ num
  · exact truncRound_eq hd hlt hle hup
  apply Nat.le_antisymm
  · exact Nat.le_of_lt_succ (truncRound_lt hd hlt hup)
  · rw [truncRound, Nat.le_div_iff_mul_le (by positivity)]
    refine le_rne_of_near ?_ hd
    have hbits := mul_scale_lt hd hn (hlt.trans_le (Nat.mul_le_mul_left _ (by norm_num)))
    have hscaled : (a * den - num) * 2 ^ scale num den * 2 ^ 54 < den * 2 ^ 53 := by
      calc (a * den - num) * 2 ^ scale num den * 2 ^ 54
          = (a * den - num) * 2 ^ 54 * 2 ^ scale num den := by ring
        _ ≤ num * 2 ^ scale num den := Nat.mul_le_mul_right _ hnear
        _ < den * 2 ^ 53 := hbits
    have hexp : a * 2 ^ scale num den * den =
        (a * den - num) * 2 ^ scale num den + num * 2 ^ scale num den := by
      rw [← Nat.add_mul, Nat.sub_add_cancel (by omega)]; ring
    omega

end QStore.Binary64
