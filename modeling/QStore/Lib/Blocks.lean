import Mathlib.Data.List.Flatten
import Mathlib.Data.List.Range
import Mathlib.Tactic.Common

/-!
# QStore.Lib.Blocks

A range cut into `n` blocks of `m / n` places, the last of which has what is left:

```
m = 11, n = 3      0 1 2 | 3 4 5 | 6 7 8 9 10
```
-/

namespace QStore.Blocks

/-- Where block `b` starts. -/
def lo (m n b : Nat) : Nat := b * (m / n)

/-- Where block `b` ends. -/
def hi (m n b : Nat) : Nat := if b + 1 = n then m else lo m n b + m / n

/-- The places of block `b`. -/
def block (m n b : Nat) : List Nat := List.range' (lo m n b) (hi m n b - lo m n b)

variable {m n b i : Nat}

theorem lo_le (hb : b < n) : lo m n b ≤ m :=
  (Nat.mul_le_mul_right _ hb.le).trans (Nat.mul_div_le m n)

/-- A block that is not empty, or the first place of all. -/
theorem lo_lt (hm : 0 < m) (hb : b < n) : lo m n b < m := by
  rw [lo]
  cases Nat.eq_zero_or_pos (m / n) with
  | inl hzero => simpa [hzero] using hm
  | inr hpos =>
      have hmul := Nat.mul_le_mul_right (m / n) hb
      rw [Nat.succ_mul] at hmul
      have := Nat.mul_div_le m n
      omega

theorem hi_le (hb : b < n) : hi m n b ≤ m := by
  rw [hi]
  split
  · exact le_rfl
  · have hmul := Nat.mul_le_mul_right (m / n) hb
    rw [Nat.succ_mul] at hmul
    have := Nat.mul_div_le m n
    rw [lo]
    omega

theorem lo_succ (hb : b + 1 ≠ n) : lo m n (b + 1) = hi m n b := by
  rw [hi, if_neg hb, lo, lo, Nat.succ_mul]

theorem mem_block : i ∈ block m n b ↔ lo m n b ≤ i ∧ i < hi m n b := by
  rw [block, List.mem_range'_1]
  omega

/-- The blocks before block `b` have the places before it. -/
theorem flatMap_block_lt (hb : b < n) :
    (List.range b).flatMap (block m n) = List.range (lo m n b) := by
  induction b with
  | zero => simp [lo]
  | succ b ih =>
      have hle : lo m n b ≤ hi m n b := by
        rw [hi, if_neg (by omega)]
        exact Nat.le_add_right ..
      have happ := List.range'_append_1 (s := 0) (m := lo m n b) (n := hi m n b - lo m n b)
      rw [Nat.zero_add, Nat.add_sub_cancel' hle] at happ
      rw [List.range_succ, List.flatMap_append, ih (by omega), List.flatMap_singleton, block,
        lo_succ (by omega), List.range_eq_range', List.range_eq_range']
      exact happ

/-- **The blocks** are the range. -/
theorem flatMap_block (hn : 0 < n) : (List.range n).flatMap (block m n) = List.range m := by
  obtain ⟨k, rfl⟩ : ∃ k, n = k + 1 := ⟨n - 1, by omega⟩
  have hhi : hi m (k + 1) k = m := if_pos rfl
  have happ := List.range'_append_1 (s := 0) (m := lo m (k + 1) k) (n := m - lo m (k + 1) k)
  rw [Nat.zero_add, Nat.add_sub_cancel' (lo_le (Nat.lt_succ_self k))] at happ
  rw [List.range_succ, List.flatMap_append, flatMap_block_lt (Nat.lt_succ_self k),
    List.flatMap_singleton, block, hhi, List.range_eq_range', List.range_eq_range']
  exact happ

/-- Every place is in a block. -/
theorem exists_mem_block (hn : 0 < n) (hi : i < m) : ∃ b < n, i ∈ block m n b := by
  have hmem : i ∈ (List.range n).flatMap (block m n) := by
    rw [flatMap_block hn]
    exact List.mem_range.mpr hi
  simpa using hmem

/-- A loop over the blocks, one after the other, is the loop over the range. -/
theorem foldlM_block {σ : Type*} (hn : 0 < n) (f : σ → Nat → Option σ) (s : σ) :
    (List.range n).foldlM (fun s b => (block m n b).foldlM f s) s = (List.range m).foldlM f s := by
  have hfold : ∀ (l : List Nat) (s : σ),
      l.foldlM (fun s b => (block m n b).foldlM f s) s = (l.flatMap (block m n)).foldlM f s := by
    intro l
    induction l with
    | nil => simp
    | cons b l ih => simp [ih]
  rw [hfold, flatMap_block hn]

end QStore.Blocks
