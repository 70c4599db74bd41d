import Mathlib.Algebra.Ring.Nat
import Mathlib.Tactic.Common
import Mathlib.Data.List.Chain
import Mathlib.Data.List.Forall2
import Mathlib.Data.List.Induction

/-!
# QStore.Lib.RunLength

Run-length encoding by a comparison `==`.

```
a a a b b a   ↦   (a, 3) (b, 2) (a, 1)
```

An entry is compared with the first of the run before it, so that `==` need not
be an equivalence: a value that differs from itself makes runs of one.
-/

namespace QStore

variable {α : Type} [BEq α] {runs rest : List (α × Nat)} {xs ys : List α} {x v : α} {c : Nat}

/-- One more entry: it joins the last run or starts one. -/
def pushRun (runs : List (α × Nat)) (x : α) : List (α × Nat) :=
  match runs.getLast? with
  | none => [(x, 1)]
  | some (v, c) => if x == v then runs.dropLast ++ [(v, c + 1)] else runs ++ [(x, 1)]

/-- The runs of a list. -/
def rle (xs : List α) : List (α × Nat) := xs.foldl pushRun []

/-- The list that runs stand for. -/
def expand (runs : List (α × Nat)) : List α := runs.flatMap fun p => List.replicate p.2 p.1

/-- The runs encode the list: no run is empty, neighbours differ, and the runs
stand for the list. -/
structure IsRle (runs : List (α × Nat)) (xs : List α) : Prop where
  pos : ∀ p ∈ runs, 0 < p.2
  adjacent : runs.IsChain fun p q => (q.1 == p.1) = false
  expand : List.Forall₂ (fun x v => x = v ∨ (x == v) = true) xs (expand runs)

@[simp] theorem pushRun_nil : pushRun [] x = [(x, 1)] := rfl

theorem pushRun_concat : pushRun (runs ++ [(v, c)]) x =
    if x == v then runs ++ [(v, c + 1)] else runs ++ [(v, c), (x, 1)] := by
  simp [pushRun]

theorem pushRun_ne_nil : pushRun runs x ≠ [] := by
  unfold pushRun
  split
  · simp
  · split <;> simp

theorem foldl_pushRun_ne_nil (h : runs ≠ []) : xs.foldl pushRun runs ≠ [] := by
  induction xs generalizing runs with
  | nil => exact h
  | cons x xs ih => exact ih pushRun_ne_nil

theorem rle_ne_nil (h : xs ≠ []) : rle xs ≠ [] := by
  cases xs with
  | nil => contradiction
  | cons x xs =>
      change xs.foldl pushRun [(x, 1)] ≠ []
      exact foldl_pushRun_ne_nil (List.cons_ne_nil (x, 1) [])

/-- What comes later does not reach the runs before the last. -/
theorem foldl_pushRun_append (h : rest ≠ []) :
    xs.foldl pushRun (runs ++ rest) = runs ++ xs.foldl pushRun rest := by
  induction xs generalizing rest with
  | nil => rfl
  | cons x xs ih =>
      have hpush : pushRun (runs ++ rest) x = runs ++ pushRun rest x := by
        obtain ⟨rest', p, rfl⟩ := List.eq_nil_or_concat rest |>.resolve_left h
        rw [List.concat_eq_append, ← List.append_assoc, pushRun_concat, pushRun_concat]
        split <;> simp
      rw [List.foldl_cons, List.foldl_cons, hpush, ih pushRun_ne_nil]

/-- An entry that does not join the last run starts the encoding anew. -/
theorem foldl_pushRun_cons (hv : (x == v) = false) :
    (x :: xs).foldl pushRun (runs ++ [(v, c)]) = runs ++ [(v, c)] ++ rle (x :: xs) := by
  have hx : (x :: xs).foldl pushRun (runs ++ [(v, c)]) =
      xs.foldl pushRun (runs ++ [(v, c)] ++ [(x, 1)]) := by
    rw [List.foldl_cons, pushRun_concat, hv]
    simp
  rw [hx, foldl_pushRun_append (by simp)]
  rfl

omit [BEq α] in
theorem expand_concat : expand (runs ++ [(v, c)]) = expand runs ++ List.replicate c v := by
  simp [expand]

omit [BEq α] in
theorem length_expand : (expand runs).length = (runs.map Prod.snd).sum := by
  induction runs with
  | nil => rfl
  | cons p runs ih =>
      rw [List.map_cons, List.sum_cons, ← ih]
      simp [expand]

/-- One more entry keeps the encoding. -/
theorem IsRle.push (h : IsRle runs xs) (x : α) : IsRle (pushRun runs x) (xs ++ [x]) := by
  rcases List.eq_nil_or_concat runs with rfl | ⟨runs, p, rfl⟩
  · have hx := h.expand
    simp only [QStore.expand, List.flatMap_nil, List.forall₂_nil_right_iff] at hx
    subst hx
    constructor
    · simp
    · simp
    · exact .cons (.inl rfl) .nil
  · obtain ⟨v, c⟩ := p
    rw [List.concat_eq_append] at h ⊢
    have hpos := h.pos
    have hadj := h.adjacent
    have hexp := h.expand
    rw [pushRun_concat]
    cases hv : x == v with
    | true =>
        rw [if_pos rfl]
        constructor
        · intro p hp
          rcases List.mem_append.mp hp with hp | hp
          · exact hpos p (List.mem_append_left _ hp)
          · rw [List.mem_singleton.mp hp]
            exact Nat.succ_pos c
        · rw [List.isChain_append] at hadj ⊢
          refine ⟨hadj.1, List.isChain_singleton _, ?_⟩
          intro p hp q hq
          rw [List.head?_cons, Option.mem_some_iff] at hq
          subst hq
          exact hadj.2.2 p hp (v, c) rfl
        · rw [expand_concat] at hexp ⊢
          rw [List.replicate_succ', ← List.append_assoc]
          exact List.rel_append hexp (.cons (.inr hv) .nil)
    | false =>
        rw [if_neg (by simp)]
        have happ : runs ++ [(v, c), (x, 1)] = (runs ++ [(v, c)]) ++ [(x, 1)] := by simp
        rw [happ]
        constructor
        · intro p hp
          rcases List.mem_append.mp hp with hp | hp
          · exact hpos p hp
          · rw [List.mem_singleton.mp hp]
            exact Nat.one_pos
        · rw [List.isChain_append]
          refine ⟨hadj, List.isChain_singleton _, ?_⟩
          intro p hp q hq
          rw [List.head?_cons, Option.mem_some_iff] at hq
          subst hq
          rw [List.getLast?_append, List.getLast?_singleton, Option.some_or,
            Option.mem_some_iff] at hp
          subst hp
          exact hv
        · rw [expand_concat (c := 1)]
          exact List.rel_append hexp (.cons (.inl rfl) .nil)

/-- **`rle` encodes.** -/
theorem isRle_rle (xs : List α) : IsRle (rle xs) xs := by
  induction xs using List.reverseRecOn with
  | nil => exact ⟨by simp [rle], by simp [rle], .nil⟩
  | append_singleton xs x ih =>
      rw [rle, List.foldl_append, ← rle]
      exact ih.push x

/-- The counts add up to the length. -/
theorem IsRle.sum (h : IsRle runs xs) : (runs.map Prod.snd).sum = xs.length := by
  rw [h.expand.length_eq, length_expand]

end QStore
