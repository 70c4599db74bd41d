import Mathlib.Algebra.Order.Group.Nat
import Mathlib.Algebra.BigOperators.Group.List.Basic
import Mathlib.Algebra.Ring.Nat

/-!
# QStore.Lib.Fields

Fields of bits side by side in one number.  The fields are given by their widths, the first
one highest: a field lies `ws.sum` bits up, where `ws` are the widths behind it.  `join` puts
values into their fields, `split` reads them out again, and each undoes the other: on values
that fit their fields, and on numbers without bits above the highest field.
-/

namespace QStore.Fields

/-- The value of each field at its place, put together. -/
def join : List Nat → List Nat → Nat
  | _ :: ws, v :: vs => v <<< ws.sum ||| join ws vs
  | _, _ => 0

/-- The fields of a number. -/
def split : List Nat → Nat → List Nat
  | [], _ => []
  | w :: ws, x => x >>> ws.sum % 2 ^ w :: split ws x

/-- Every value fits its field. -/
def Fits : List Nat → List Nat → Prop :=
  List.Forall₂ fun w v => v < 2 ^ w

@[simp] theorem length_split (ws : List Nat) (x : Nat) : (split ws x).length = ws.length := by
  induction ws with
  | nil => simp [split]
  | cons w ws ih => simp [split, ih]

/-- Fields that fit leave nothing above the highest of them. -/
theorem join_lt {ws vs : List Nat} (h : Fits ws vs) : join ws vs < 2 ^ ws.sum := by
  induction h with
  | nil => simp [join]
  | @cons w v ws vs hv _ ih =>
      have hhigh : v <<< ws.sum < 2 ^ (w + ws.sum) := by
        rw [Nat.shiftLeft_eq, Nat.pow_add]
        exact Nat.mul_lt_mul_of_pos_right hv (Nat.two_pow_pos _)
      have hlow : join ws vs < 2 ^ (w + ws.sum) :=
        Nat.lt_of_lt_of_le ih (Nat.pow_le_pow_right (by simp) (by omega))
      simpa [join] using Nat.or_lt_two_pow hhigh hlow

/-- The fields depend on the bits below their sum only. -/
theorem split_mod {ws : List Nat} {k : Nat} (h : ws.sum ≤ k) (x : Nat) :
    split ws (x % 2 ^ k) = split ws x := by
  induction ws with
  | nil => simp [split]
  | cons w ws ih =>
      rw [List.sum_cons] at h
      simp only [split, ih (by omega)]
      congr 1
      apply Nat.eq_of_testBit_eq
      intro b
      by_cases hb : b < w
      · have hk : ws.sum + b < k := by omega
        simp [Nat.testBit_mod_two_pow, hb, hk]
      · simp [Nat.testBit_mod_two_pow, hb]

/-- Reading the fields of values put together gives the values. -/
theorem split_join {ws vs : List Nat} (h : Fits ws vs) : split ws (join ws vs) = vs := by
  induction h with
  | nil => simp [split]
  | @cons w v ws vs hv hvs ih =>
      have hlow : join ws vs < 2 ^ ws.sum := join_lt hvs
      have hsum : join (w :: ws) (v :: vs) = v * 2 ^ ws.sum + join ws vs := by
        rw [join, ← Nat.shiftLeft_add_eq_or_of_lt hlow, Nat.shiftLeft_eq]
      have hhead : join (w :: ws) (v :: vs) >>> ws.sum % 2 ^ w = v := by
        rw [hsum, Nat.shiftRight_eq_div_pow, Nat.add_comm,
          Nat.add_mul_div_right _ _ (Nat.two_pow_pos _), Nat.div_eq_of_lt hlow, Nat.zero_add,
          Nat.mod_eq_of_lt hv]
      have htail : split ws (join (w :: ws) (v :: vs)) = split ws (join ws vs) := by
        rw [← split_mod (Nat.le_refl ws.sum) (join (w :: ws) (v :: vs)), hsum,
          Nat.mul_add_mod_of_lt hlow]
      rw [split, hhead, htail, ih]

/-- Putting the fields of a number together gives its bits below their sum. -/
theorem join_split (ws : List Nat) (x : Nat) : join ws (split ws x) = x % 2 ^ ws.sum := by
  induction ws with
  | nil => simp [join, Nat.mod_one]
  | cons w ws ih =>
      rw [split, join, ih, List.sum_cons]
      apply Nat.eq_of_testBit_eq
      intro b
      by_cases hb : b < ws.sum
      · have hw : b < w + ws.sum := by omega
        simp [Nat.testBit_mod_two_pow, hb, hw, Nat.not_le.mpr hb]
      · have hge : ws.sum ≤ b := by omega
        have hiff : b - ws.sum < w ↔ b < w + ws.sum := by omega
        simp [Nat.testBit_mod_two_pow, hb, hge, hiff]

end QStore.Fields
