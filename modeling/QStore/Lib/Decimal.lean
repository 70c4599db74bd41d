import Mathlib.Algebra.Ring.Nat
import Mathlib.Tactic.Common

/-!
# QStore.Lib.Decimal

Integers as decimal text in ASCII, and read back from it.
-/

namespace QStore

/-- The decimal digits of `n`. -/
def natText (n : Nat) : List UInt8 := (Nat.toDigits 10 n).map fun c => UInt8.ofNat c.toNat

/-- An integer in decimal, as `printf` writes it for `%d`. -/
def intText (v : Int) : List UInt8 :=
  if v < 0 then 45 :: natText v.natAbs else natText v.natAbs

variable {n k : Nat} {v : Int} {b : UInt8}

/-- A digit is one of `'0'` to `'9'`. -/
theorem isDigit_bounds {c : Char} (h : c.isDigit = true) : 48 ≤ c.toNat ∧ c.toNat ≤ 57 := by
  simp only [Char.isDigit, Bool.and_eq_true, decide_eq_true_eq, ge_iff_le] at h
  exact ⟨UInt32.le_iff_toNat_le.mp h.1, UInt32.le_iff_toNat_le.mp h.2⟩

theorem bounds_of_mem_natText (h : b ∈ natText n) : 48 ≤ b.toNat ∧ b.toNat ≤ 57 := by
  obtain ⟨c, hc, rfl⟩ := List.mem_map.mp h
  have hd := isDigit_bounds (Nat.isDigit_of_mem_toDigits (by omega) (by omega) hc)
  rw [UInt8.toNat_ofNat', Nat.mod_eq_of_lt (by omega)]
  exact hd

/-- A text holds digits, and maybe a minus sign. -/
theorem bounds_of_mem_intText (h : b ∈ intText v) :
    b.toNat = 45 ∨ 48 ≤ b.toNat ∧ b.toNat ≤ 57 := by
  unfold intText at h
  split at h
  · cases h with
    | head => exact .inl rfl
    | tail _ h => exact .inr (bounds_of_mem_natText h)
  · exact .inr (bounds_of_mem_natText h)

theorem natText_ne_nil : natText n ≠ [] := by
  simp [natText, Nat.toDigits_ne_nil]

theorem intText_ne_nil : intText v ≠ [] := by
  unfold intText
  split
  · simp
  · exact natText_ne_nil

theorem length_natText (h : n < 10 ^ k) (hk : 0 < k) : (natText n).length ≤ k := by
  rw [natText, List.length_map]
  exact (Nat.length_toDigits_le_iff (by omega) hk).mpr h

/-- A number of at most `k` digits, with its sign. -/
theorem length_intText (h : v.natAbs < 10 ^ k) (hk : 0 < k) : (intText v).length ≤ k + 1 := by
  have hlen := length_natText h hk
  unfold intText
  split
  · simp only [List.length_cons]
    omega
  · omega

/-- A number of at most `k` digits without a sign. -/
theorem length_intText_nonneg (h : v.natAbs < 10 ^ k) (hk : 0 < k) (hv : 0 ≤ v) :
    (intText v).length ≤ k := by
  rw [intText, if_neg (by omega)]
  exact length_natText h hk

end QStore
