import Mathlib.Algebra.Order.Field.Rat
import Mathlib.Data.Rat.Cast.Order
import Mathlib.Tactic.Linarith
import Mathlib.Tactic.NormNum
import Mathlib.Tactic.FieldSimp
import Mathlib.Tactic.Positivity

/-!
# QStore.Lib.Rounding

Floating point as exact arithmetic followed by rounding: `x ⊕ y = rnd (x + y)`.
Two properties of `rnd` are enough to bound a computation, and every rounding
mode has them: it is monotone, and it keeps what has a representation. So a bound
that can be represented is a bound of the rounded value when it is one of the
exact value.
-/

namespace QStore

/-- A rounding of rationals to `p` significant bits, on a range wide enough that
neither overflow nor underflow occurs. -/
structure Rounding (p : Nat) where
  rnd : ℚ → ℚ
  mono : Monotone rnd
  /-- What has a representation is kept. -/
  kept : ∀ (k : ℤ) (e : Nat), k.natAbs ≤ 2 ^ p → e ≤ p → rnd (k / 2 ^ e) = k / 2 ^ e

/-- No rounding at all. -/
def Rounding.exact (p : Nat) : Rounding p where
  rnd x := x
  mono := monotone_id
  kept _ _ _ _ := rfl

variable {p : Nat} (R : Rounding p) {x : ℚ}

theorem Rounding.int {k : ℤ} (hk : k.natAbs ≤ 2 ^ p) : R.rnd k = k := by
  simpa using R.kept k 0 hk (Nat.zero_le p)

theorem Rounding.nat {k : Nat} (hk : k ≤ 2 ^ p) : R.rnd k = k :=
  R.int (k := k) hk

theorem Rounding.le_int {k : ℤ} (hk : k.natAbs ≤ 2 ^ p) (h : x ≤ k) : R.rnd x ≤ k :=
  (R.mono h).trans_eq (R.int hk)

theorem Rounding.int_le {k : ℤ} (hk : k.natAbs ≤ 2 ^ p) (h : (k : ℚ) ≤ x) : (k : ℚ) ≤ R.rnd x :=
  (R.int hk).symm.trans_le (R.mono h)

/-- Multiples of powers of two are kept as well. -/
def Rounding.KeepsScaled : Prop :=
  ∀ (k e : Nat), k ≤ 2 ^ p → R.rnd (k * 2 ^ e : Nat) = (k * 2 ^ e : Nat)

theorem Rounding.keepsScaled_exact : (Rounding.exact p).KeepsScaled := fun _ _ _ => rfl

theorem Rounding.KeepsScaled.le {R : Rounding p} (h : R.KeepsScaled) {k e n : Nat}
    (hk : k ≤ 2 ^ p) (hn : n ≤ k * 2 ^ e) : R.rnd n / 2 ^ e ≤ k := by
  have hle : R.rnd n ≤ (k * 2 ^ e : Nat) := (R.mono (Nat.cast_le.mpr hn)).trans_eq (h k e hk)
  rw [div_le_iff₀ (by positivity)]
  exact_mod_cast hle

theorem Rounding.KeepsScaled.ge {R : Rounding p} (h : R.KeepsScaled) {k e n : Nat}
    (hk : k ≤ 2 ^ p) (hn : k * 2 ^ e ≤ n) : (k : ℚ) ≤ R.rnd n / 2 ^ e := by
  have hle : ((k * 2 ^ e : Nat) : ℚ) ≤ R.rnd n :=
    (h k e hk).symm.trans_le (R.mono (Nat.cast_le.mpr hn))
  rw [le_div_iff₀ (by positivity)]
  exact_mod_cast hle

theorem Rounding.le_frac {k : ℤ} {e : Nat} (hk : k.natAbs ≤ 2 ^ p) (he : e ≤ p)
    (h : x ≤ k / 2 ^ e) : R.rnd x ≤ k / 2 ^ e :=
  (R.mono h).trans_eq (R.kept k e hk he)

theorem Rounding.frac_le {k : ℤ} {e : Nat} (hk : k.natAbs ≤ 2 ^ p) (he : e ≤ p)
    (h : (k : ℚ) / 2 ^ e ≤ x) : (k : ℚ) / 2 ^ e ≤ R.rnd x :=
  (R.kept k e hk he).symm.trans_le (R.mono h)

end QStore
