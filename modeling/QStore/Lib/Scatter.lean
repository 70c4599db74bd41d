import QStore.Lib.ByKey
import Mathlib.Data.List.Range
import Mathlib.Algebra.Ring.Nat

/-!
# QStore.Lib.Scatter

Rows written to where their key is to go.  Each key has a block of an array, from its base on;
a row is written at the offset of its key, which then moves on.  In any order of the rows each
block takes the rows of its key in that order.
-/

namespace QStore.Scatter

open ByKey

variable {ρ β : Type} {key : ρ → Nat} {cell : ρ → β} {base cnt : Nat → Nat} {n : Nat}
  {xs ys : List ρ} {x : ρ}

/-- The offsets and the array. -/
structure State (β : Type) where
  off : Nat → Nat
  out : List β

/-- Write a row and move the offset of its key; there is nothing behind the array. -/
def place (key : ρ → Nat) (cell : ρ → β) (st : State β) (x : ρ) : Option (State β) :=
  if st.off (key x) < st.out.length then
    some { off := Function.update st.off (key x) (st.off (key x) + 1)
           out := st.out.set (st.off (key x)) (cell x) }
  else none

/-- Blocks of `cnt` entries each, one behind the other, `n` entries in all. -/
structure Blocks (base cnt : Nat → Nat) (n : Nat) : Prop where
  apart : ∀ b c, b < c → base b + cnt b ≤ base c
  inside : ∀ b, base b + cnt b ≤ n

/-- The rows `xs` have been written: each block begins with those of its key. -/
structure Placed (key : ρ → Nat) (cell : ρ → β) (base : Nat → Nat) (n : Nat) (xs : List ρ)
    (st : State β) : Prop where
  off : ∀ b, st.off b = base b + (rowsOf key b xs).length
  len : st.out.length = n
  out : ∀ b j, j < (rowsOf key b xs).length →
    st.out[base b + j]? = (rowsOf key b xs)[j]?.map cell

/-- Only the order within a key matters. -/
theorem Placed.congr {st : State β} (h : Placed key cell base n xs st)
    (hrows : ∀ b, rowsOf key b xs = rowsOf key b ys) : Placed key cell base n ys st where
  off b := by rw [h.off b, hrows b]
  len := h.len
  out b := by
    rw [← hrows b]
    exact h.out b

/-- A block that is not full takes another row. -/
theorem Placed.place {st : State β} (h : Placed key cell base n xs st) (hb : Blocks base cnt n)
    (hfull : ∀ b, (rowsOf key b (xs ++ [x])).length ≤ cnt b) :
    ∃ st', place key cell st x = some st' ∧ Placed key cell base n (xs ++ [x]) st' := by
  have hself : rowsOf key (key x) (xs ++ [x]) = rowsOf key (key x) xs ++ [x] := by
    simp [rowsOf]
  have hother : ∀ b, b ≠ key x → rowsOf key b (xs ++ [x]) = rowsOf key b xs := by
    intro b hne
    simp [rowsOf, Ne.symm hne]
  have hroom : (rowsOf key (key x) xs).length < cnt (key x) := by
    have := hfull (key x)
    rw [hself, List.length_append, List.length_singleton] at this
    omega
  have hlt : st.off (key x) < st.out.length := by
    have := hb.inside (key x)
    rw [h.off, h.len]
    omega
  refine ⟨_, if_pos hlt, ?_, ?_, ?_⟩
  · intro b
    by_cases hbx : b = key x
    · subst hbx
      simp only [Function.update_self, hself, h.off, List.length_append, List.length_singleton]
      omega
    · simp only [Function.update_of_ne hbx, hother b hbx, h.off]
  · simp [h.len]
  · intro b j hj
    by_cases hbx : b = key x
    · subst hbx
      rw [hself, List.length_append, List.length_singleton] at hj
      simp only [hself, h.off]
      by_cases hlast : j = (rowsOf key (key x) xs).length
      · subst hlast
        rw [h.off] at hlt
        simp [hlt]
      · have hjlt : j < (rowsOf key (key x) xs).length := by omega
        rw [List.getElem?_set_ne (by omega), h.out _ j hjlt, List.getElem?_append_left hjlt]
    · rw [hother b hbx] at hj ⊢
      simp only [h.off]
      have hne : base (key x) + (rowsOf key (key x) xs).length ≠ base b + j := by
        have hj' : j < cnt b := by
          have := hfull b
          rw [hother b hbx] at this
          omega
        cases Nat.lt_or_gt_of_ne hbx with
        | inl hlt =>
            have := hb.apart b (key x) hlt
            omega
        | inr hlt =>
            have := hb.apart (key x) b hlt
            omega
      rw [List.getElem?_set_ne hne, h.out b j hj]

/-- Rows that fit are all written. -/
theorem Placed.run {st : State β} (h : Placed key cell base n xs st) (hb : Blocks base cnt n)
    (hfull : ∀ b, (rowsOf key b (xs ++ ys)).length ≤ cnt b) :
    ∃ st', ys.foldlM (Scatter.place key cell) st = some st' ∧
      Placed key cell base n (xs ++ ys) st' := by
  induction ys generalizing xs st with
  | nil => exact ⟨st, by simp, by simpa using h⟩
  | cons y ys ih =>
      have hone : ∀ b, (rowsOf key b (xs ++ [y])).length ≤ cnt b := by
        intro b
        have := hfull b
        rw [← List.singleton_append, ← List.append_assoc, rowsOf_append,
          List.length_append] at this
        omega
      obtain ⟨st₁, hstep, h₁⟩ := h.place hb hone
      obtain ⟨st₂, hrun, h₂⟩ := ih h₁ (by simpa using hfull)
      refine ⟨st₂, ?_, by simpa using h₂⟩
      rw [List.foldlM_cons, hstep]
      exact hrun

/-- The block of a key whose rows are all written. -/
theorem Placed.block {st : State β} (h : Placed key cell base n xs st) {b m : Nat}
    (hall : (rowsOf key b xs).length = m) :
    (st.out.drop (base b)).take m = (rowsOf key b xs).map cell := by
  apply List.ext_getElem?
  intro j
  by_cases hj : j < m
  · rw [List.getElem?_take_of_lt hj, List.getElem?_drop, h.out b j (by omega), List.getElem?_map]
  · rw [List.getElem?_eq_none, List.getElem?_eq_none]
    · rw [List.length_map]
      omega
    · rw [List.length_take]
      omega

/-- An array cut into blocks. -/
theorem flatMap_blocks (base cnt : Nat → Nat) (out : List β) (m : Nat) (hzero : base 0 = 0)
    (hnext : ∀ b, b < m → base (b + 1) = base b + cnt b) :
    ((List.range m).flatMap fun b => (out.drop (base b)).take (cnt b)) = out.take (base m) := by
  induction m with
  | zero => simp [hzero]
  | succ m ih =>
      rw [List.range_succ, List.flatMap_append, ih fun b hb => hnext b (by omega),
        List.flatMap_singleton, hnext m (by omega), List.take_add]

end QStore.Scatter
