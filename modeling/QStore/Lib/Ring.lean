import Mathlib.Tactic.Common
import Mathlib.Data.Nat.ModEq

/-!
# QStore.Lib.Ring

Positions on a ring of `n` slots: the successor that wraps to `0`, the slot
`i` steps ahead of a start, and the facts that let a proof about a circular
array walk it in either direction.

Everything is stated for positions below `n`; nothing here knows what the
slots hold.
-/

namespace QStore.Ring

variable {n p q s i j : Nat}

/-- The slot after `p`, wrapping to `0` at the end of the array. -/
def next (n p : Nat) : Nat := if p + 1 = n then 0 else p + 1

theorem next_lt (h : p < n) : next n p < n := by
  unfold next; split <;> omega

/-- On positions of the ring the wrapping successor is addition modulo `n`. -/
theorem next_eq_mod (h : p < n) : next n p = (p + 1) % n := by
  unfold next
  split
  · next he => rw [he, Nat.mod_self]
  · rw [Nat.mod_eq_of_lt (by omega)]

theorem next_inj (_hp : p < n) (_hq : q < n) (h : next n p = next n q) : p = q := by
  unfold next at h
  split at h <;> split at h <;> omega

/-- A slot is its own successor only on the ring of one slot. -/
theorem eq_one_of_next_eq_self (_hp : p < n) (h : next n p = p) : n = 1 := by
  unfold next at h
  split at h <;> omega

/-! ## The slot `i` steps ahead -/

/-- One more step ahead is the successor. -/
theorem add_succ_mod (hn : 0 < n) : (s + (i + 1)) % n = next n ((s + i) % n) := by
  rw [next_eq_mod (Nat.mod_lt _ hn), Nat.mod_add_mod, Nat.add_assoc]

/-- One more step from a slot is a walk from its successor. -/
theorem succ_add_mod (hp : p < n) : (p + (i + 1)) % n = (next n p + i) % n := by
  rw [next_eq_mod hp, Nat.mod_add_mod, Nat.add_assoc, Nat.add_comm 1 i]

/-- Every slot lies fewer than `n` steps ahead of any start. -/
theorem exists_add_mod_eq (s : Nat) (hp : p < n) : ∃ i, i < n ∧ (s + i) % n = p := by
  have hs : s % n < n := Nat.mod_lt _ (by omega)
  by_cases h : s % n ≤ p
  · refine ⟨p - s % n, by omega, ?_⟩
    rw [← Nat.mod_add_mod, show s % n + (p - s % n) = p by omega, Nat.mod_eq_of_lt hp]
  · refine ⟨p + n - s % n, by omega, ?_⟩
    rw [← Nat.mod_add_mod, show s % n + (p + n - s % n) = p + n by omega,
      Nat.add_mod_right, Nat.mod_eq_of_lt hp]

/-- Fewer than `n` steps from one start reach different slots. -/
theorem add_mod_inj (hi : i < n) (hj : j < n) (h : (s + i) % n = (s + j) % n) : i = j := by
  have hm : i ≡ j [MOD n] := Nat.ModEq.add_left_cancel' s h
  rwa [Nat.ModEq, Nat.mod_eq_of_lt hi, Nat.mod_eq_of_lt hj] at hm

end QStore.Ring
