import Mathlib.Data.List.Basic
import Mathlib.Tactic.Common

/-!
# QStore.Lib.Cuts

A scan over a sequence that begins a new group where the value is another than the one
the group began with, and where a test allows it. The test may look at the rows at which
groups have begun so far.

```
val   1 1 2 2 2 3 3        cuts of rows 1, .., 6:  2, 5
```

Two tests give the same groups exactly when they agree wherever a new value comes up.
-/

namespace QStore

variable {α : Type*} (val : Nat → α) (lb : Nat)

/-- The row at which the group began that row `r` would end. -/
def lastCut (past : List Nat) : Nat := past.getLastD lb

section

variable [DecidableEq α] (ok : List Nat → Nat → Bool)

/-- The cuts of rows `i`, .., `i + k - 1`, behind those of `past`. -/
def cutsFrom : (k i : Nat) → (past : List Nat) → List Nat
  | 0, _, past => past
  | k + 1, i, past =>
      if val i ≠ val (lastCut lb past) ∧ ok past i then cutsFrom k (i + 1) (past ++ [i])
      else cutsFrom k (i + 1) past

/-- New cuts come behind the old ones, each at a row of its own. -/
theorem cutsFrom_eq_append (k i : Nat) (past : List Nat) :
    ∃ new, cutsFrom val lb ok k i past = past ++ new ∧ new.length ≤ k ∧
      ∀ c ∈ new, i ≤ c ∧ c < i + k := by
  induction k generalizing i past with
  | zero => exact ⟨[], by simp [cutsFrom]⟩
  | succ k ih =>
      rw [cutsFrom]
      split
      · obtain ⟨new, hnew, hlen, hle⟩ := ih (i + 1) (past ++ [i])
        refine ⟨i :: new, by simpa using hnew, Nat.succ_le_succ hlen, fun c hc => ?_⟩
        cases List.mem_cons.mp hc with
        | inl heq => omega
        | inr hmem =>
            have := hle c hmem
            omega
      · obtain ⟨new, hnew, hlen, hle⟩ := ih (i + 1) past
        refine ⟨new, hnew, by omega, fun c hc => ?_⟩
        have := hle c hc
        omega

variable {val lb ok} {ok' : List Nat → Nat → Bool} {k i r c : Nat} {past : List Nat}

/-- Every new cut was allowed. -/
theorem ok_of_mem_cutsFrom (h : c ∈ cutsFrom val lb ok k i past) :
    c ∈ past ∨ ∃ past', ok past' c = true := by
  induction k generalizing i past with
  | zero => exact .inl h
  | succ k ih =>
      rw [cutsFrom] at h
      split at h
      · next hcut =>
          cases ih h with
          | inl hmem =>
              cases List.mem_append.mp hmem with
              | inl hold => exact .inl hold
              | inr hnew => exact .inr ⟨past, List.mem_singleton.mp hnew ▸ hcut.2⟩
          | inr hok => exact .inr hok
      · exact ih h

/-- What stood there when row `i` was reached. -/
theorem filter_cutsFrom (hpast : ∀ c ∈ past, c < i) :
    (cutsFrom val lb ok k i past).filter (· < i) = past := by
  obtain ⟨new, hnew, -, hle⟩ := cutsFrom_eq_append val lb ok k i past
  have hold : past.filter (· < i) = past :=
    List.filter_eq_self.mpr fun c hc => by simpa using hpast c hc
  have hlater : new.filter (· < i) = [] := List.filter_eq_nil_iff.mpr fun c hc => by
    simpa using (hle c hc).1
  rw [hnew, List.filter_append, hold, hlater, List.append_nil]

/-- A cut at row `i` is not made up for later. -/
theorem cutsFrom_ne : cutsFrom val lb ok k (i + 1) (past ++ [i]) ≠
    cutsFrom val lb ok' k (i + 1) past := by
  obtain ⟨new, hnew, -, -⟩ := cutsFrom_eq_append val lb ok k (i + 1) (past ++ [i])
  obtain ⟨new', hnew', -, hle⟩ := cutsFrom_eq_append val lb ok' k (i + 1) past
  intro heq
  rw [hnew, hnew', List.append_assoc, List.append_cancel_left_eq] at heq
  have hmem : i ∈ new' := heq ▸ List.mem_append_left new List.mem_cons_self
  have := (hle i hmem).1
  omega

theorem forall_from_succ {P : Nat → Prop} :
    (∀ r, i ≤ r → r < i + (k + 1) → P r) ↔ P i ∧ ∀ r, i + 1 ≤ r → r < i + 1 + k → P r := by
  constructor
  · intro h
    exact ⟨h i (Nat.le_refl i) (by omega), fun r h1 h2 => h r (by omega) (by omega)⟩
  · intro ⟨hi, h⟩ r h1 h2
    cases Nat.eq_or_lt_of_le h1 with
    | inl heq => exact heq ▸ hi
    | inr hlt => exact h r hlt (by omega)

/-- **The same cuts**: the tests agree at every row where a new value comes up. -/
theorem cutsFrom_eq_iff (hpast : ∀ c ∈ past, c < i) :
    cutsFrom val lb ok k i past = cutsFrom val lb ok' k i past ↔
      ∀ r, i ≤ r → r < i + k →
        val r ≠ val (lastCut lb ((cutsFrom val lb ok' k i past).filter (· < r))) →
        ok ((cutsFrom val lb ok' k i past).filter (· < r)) r =
          ok' ((cutsFrom val lb ok' k i past).filter (· < r)) r := by
  induction k generalizing i past with
  | zero =>
      simp only [cutsFrom, true_iff]
      intro r h1 h2
      omega
  | succ k ih =>
      have hkeep : ∀ c ∈ past, c < i + 1 := fun c hc => by
        have := hpast c hc
        omega
      have hadd : ∀ c ∈ past ++ [i], c < i + 1 := fun c hc => by
        cases List.mem_append.mp hc with
        | inl hmem => exact hkeep c hmem
        | inr hlast =>
            rw [List.mem_singleton.mp hlast]
            exact Nat.lt_succ_self i
      have hnow : (cutsFrom val lb ok' (k + 1) i past).filter (· < i) = past := filter_cutsFrom hpast
      rw [forall_from_succ, hnow]
      by_cases hv : val i = val (lastCut lb past)
      · simp only [cutsFrom, hv, ne_eq, not_true_eq_false, false_and, if_false, false_implies, true_and]
        exact ih hkeep
      · cases hok : ok past i <;> cases hok' : ok' past i <;>
          simp only [cutsFrom, hv, hok, hok', ne_eq, not_false_eq_true, Bool.false_eq_true,
            Bool.true_eq_false, and_false, and_true, if_true, if_false, true_implies, true_and,
            false_and, iff_false]
        · exact ih hkeep
        · exact fun heq => cutsFrom_ne heq.symm
        · exact cutsFrom_ne
        · exact ih hadd

end

end QStore
