import Mathlib.Logic.Function.Basic

/-!
# QStore.Lib.ByKey

Rows folded by key.  A table has an entry for each key, and every row changes the entry of its
own key, or fails.  What the whole run leaves in an entry is what the rows of that key alone
leave there.
-/

namespace QStore.ByKey

variable {α κ β : Type} [DecidableEq κ] {op : β → α → Option β} {key : α → κ}

/-- A row changes the entry of its key. -/
def stepAt (op : β → α → Option β) (key : α → κ) (f : κ → β) (x : α) : Option (κ → β) :=
  (op (f (key x)) x).map (Function.update f (key x))

/-- The rows of a key, in order. -/
def rowsOf (key : α → κ) (k : κ) (xs : List α) : List α := xs.filter fun x => key x = k

@[simp] theorem rowsOf_append (k : κ) (xs ys : List α) :
    rowsOf key k (xs ++ ys) = rowsOf key k xs ++ rowsOf key k ys := by
  simp [rowsOf]

/-- The rows of each key decide its entry. -/
theorem foldlM_stepAt {xs : List α} {f g : κ → β}
    (h : ∀ k, (rowsOf key k xs).foldlM op (f k) = some (g k)) :
    xs.foldlM (stepAt op key) f = some g := by
  induction xs generalizing f with
  | nil =>
      have hfg : f = g := by
        funext k
        simpa [rowsOf] using h k
      simp [hfg]
  | cons x xs ih =>
      have hx := h (key x)
      simp only [rowsOf, decide_true, List.filter_cons_of_pos, List.foldlM_cons,
        Option.bind_eq_bind, Option.bind_eq_some_iff] at hx
      obtain ⟨y, hy, hrest⟩ := hx
      have hstep : stepAt op key f x = some (Function.update f (key x) y) := by
        rw [stepAt, hy, Option.map_some]
      rw [List.foldlM_cons, hstep]
      apply ih
      intro k
      by_cases hk : key x = k
      · subst hk
        simpa [rowsOf] using hrest
      · have hother := h k
        simp only [rowsOf, hk, decide_false, Bool.false_eq_true, not_false_eq_true,
          List.filter_cons_of_neg] at hother
        simpa [Function.update_of_ne (Ne.symm hk), rowsOf] using hother

end QStore.ByKey
