import Mathlib.Data.List.Forall2
import Mathlib.Algebra.BigOperators.Group.List.Basic
import Mathlib.Tactic.Ring

/-!
# QStore.Lib.MixedRadix

Numbers in a mixed radix, the most significant digit first: `ms` are the radices, and the place
of a digit is worth the product of the radices behind it.

```
digits [4, 5, 3] 37 = [2, 2, 1]        37 = 2 * 15 + 2 * 3 + 1
```
-/

namespace QStore.MixedRadix

/-- The digits of `x`; what is above the first place is dropped. -/
def digits : List Nat → Nat → List Nat
  | [], _ => []
  | m :: ms, x => x / ms.prod % m :: digits ms x

/-- What the digits are worth. -/
def value : List Nat → List Nat → Nat
  | _ :: ms, d :: ds => d * ms.prod + value ms ds
  | _, _ => 0

variable {ms ds : List Nat} {m x : Nat}

theorem pos_of_prod_pos (h : 0 < (m :: ms).prod) : 0 < m ∧ 0 < ms.prod := by
  rw [List.prod_cons] at h
  exact ⟨Nat.pos_of_mul_pos_right h, Nat.pos_of_mul_pos_left h⟩

@[simp] theorem length_digits (ms : List Nat) (x : Nat) : (digits ms x).length = ms.length := by
  induction ms with
  | nil => rfl
  | cons m ms ih => rw [digits, List.length_cons, List.length_cons, ih]

theorem digits_lt (h : 0 < ms.prod) (x : Nat) : List.Forall₂ (· < ·) (digits ms x) ms := by
  induction ms with
  | nil => exact .nil
  | cons m ms ih =>
      obtain ⟨hm, hms⟩ := pos_of_prod_pos h
      exact .cons (Nat.mod_lt _ hm) (ih hms)

/-- Only the lower places matter to the lower digits. -/
theorem digits_mul_add (h : 0 < ms.prod) (q x : Nat) :
    digits ms (q * ms.prod + x) = digits ms x := by
  induction ms generalizing q with
  | nil => rfl
  | cons m ms ih =>
      obtain ⟨-, hms⟩ := pos_of_prod_pos h
      have hq : q * (m :: ms).prod = q * m * ms.prod := by
        rw [List.prod_cons, Nat.mul_assoc]
      rw [digits, digits, hq, ih hms, Nat.mul_comm (q * m), Nat.mul_add_div hms, Nat.mul_comm q,
        Nat.mul_add_mod]

theorem value_lt (h : List.Forall₂ (· < ·) ds ms) : value ms ds < ms.prod := by
  induction h with
  | nil => exact Nat.one_pos
  | @cons d m ds ms hd _ ih =>
      rw [value, List.prod_cons]
      calc d * ms.prod + value ms ds < d * ms.prod + ms.prod := by omega
        _ = (d + 1) * ms.prod := by ring
        _ ≤ m * ms.prod := Nat.mul_le_mul_right _ hd

theorem digits_value (h : List.Forall₂ (· < ·) ds ms) : digits ms (value ms ds) = ds := by
  induction h with
  | nil => rfl
  | @cons d m ds ms hd hds ih =>
      have hlt := value_lt hds
      have hpos := Nat.zero_lt_of_lt hlt
      rw [digits, value, digits_mul_add hpos, ih, Nat.mul_comm d, Nat.mul_add_div hpos,
        Nat.div_eq_of_lt hlt, Nat.add_zero, Nat.mod_eq_of_lt hd]

theorem value_digits (hx : x < ms.prod) : value ms (digits ms x) = x := by
  induction ms generalizing x with
  | nil => exact (Nat.lt_one_iff.mp hx).symm
  | cons m ms ih =>
      obtain ⟨-, hms⟩ := pos_of_prod_pos (Nat.zero_lt_of_lt hx)
      rw [List.prod_cons] at hx
      have hlow : digits ms x = digits ms (x % ms.prod) := by
        nth_rewrite 1 [← Nat.div_add_mod' x ms.prod]
        exact digits_mul_add hms _ _
      rw [digits, value, hlow, ih (Nat.mod_lt x hms),
        Nat.mod_eq_of_lt (Nat.div_lt_of_lt_mul (Nat.mul_comm m _ ▸ hx)), Nat.div_add_mod']

/-- Each list of digits is that of one number. -/
theorem existsUnique_digits (h : List.Forall₂ (· < ·) ds ms) :
    ∃! x, x < ms.prod ∧ digits ms x = ds := by
  refine ⟨value ms ds, ⟨value_lt h, digits_value h⟩, ?_⟩
  rintro x ⟨hx, rfl⟩
  exact (value_digits hx).symm

end QStore.MixedRadix
