import QStore.Lib.Pages
import QStore.Lib.Pull

/-!
# QStore.Lib.Scan

A machine that reads its input one element at a time, gives an element for each, and carries
something from one to the next. It may fail.

```
s₀ --x₀--> s₁ --x₁--> s₂ -- ...          gives y₀ y₁ ...
```

Cut anywhere, its input gives the same output (`scan_append`). So a generator that runs the machine
over one page of the input a call, and carries the state between calls, gives what the machine gives
for the whole input, whatever the size of a page (`Pulls.of_scan`).
-/

namespace QStore

variable {σ τ α β : Type} {f : σ → α → Option (β × σ)} {s t : σ} {xs zs : List α} {ys : List β}
  {n k : Nat}

/-- The output for an input, and the state after it. -/
def scan (f : σ → α → Option (β × σ)) : σ → List α → Option (List β × σ)
  | s, [] => some ([], s)
  | s, x :: xs =>
      (f s x).bind fun r => (scan f r.2 xs).map fun q => (r.1 :: q.1, q.2)

@[simp] theorem scan_nil : scan f s [] = some ([], s) := rfl

theorem scan_cons {x : α} :
    scan f s (x :: xs) = (f s x).bind fun r => (scan f r.2 xs).map fun q => (r.1 :: q.1, q.2) := rfl

/-- The output of a part goes before the output of the rest. -/
theorem scan_append : scan f s (xs ++ zs) =
    (scan f s xs).bind fun r => (scan f r.2 zs).map fun q => (r.1 ++ q.1, q.2) := by
  induction xs generalizing s with
  | nil => simp
  | cons x xs ih =>
      simp only [List.cons_append, scan_cons, ih]
      cases f s x with
      | none => rfl
      | some r =>
          simp only [Option.bind_some]
          cases scan f r.2 xs <;> simp [Function.comp_def]

/-- There is an element of output for each of the input. -/
theorem length_scan (h : scan f s xs = some (ys, t)) : ys.length = xs.length := by
  induction xs generalizing s ys with
  | nil =>
      simp only [scan_nil, Option.some.injEq, Prod.mk.injEq] at h
      simp [← h.1]
  | cons x xs ih =>
      obtain ⟨r, -, hr⟩ := Option.bind_eq_some_iff.mp h
      obtain ⟨q, hq, hy⟩ := Option.map_eq_some_iff.mp hr
      obtain ⟨rfl, rfl⟩ := Prod.mk.inj hy
      simp [ih hq]

/-- The first `n` elements, and what is left. -/
theorem exists_scan_take (h : scan f s xs = some (ys, t)) (n : Nat) :
    ∃ s', scan f s (xs.take n) = some (ys.take n, s') ∧
      scan f s' (xs.drop n) = some (ys.drop n, t) := by
  rw [← List.take_append_drop n xs, scan_append] at h
  obtain ⟨⟨us, s'⟩, hu, hr⟩ := Option.bind_eq_some_iff.mp h
  obtain ⟨⟨vs, t'⟩, hv, hy⟩ := Option.map_eq_some_iff.mp hr
  obtain ⟨rfl, rfl⟩ := Prod.mk.inj hy
  have hlen := length_scan hu
  by_cases hn : n ≤ xs.length
  · rw [List.length_take, Nat.min_eq_left hn] at hlen
    exact ⟨s', by rw [hu, List.take_left' hlen], by rw [hv, List.drop_left' hlen]⟩
  · rw [List.take_of_length_le (by omega)] at hlen
    have hnil : vs = [] := by
      have := length_scan hv
      rw [List.drop_of_length_le (by omega), List.length_nil] at this
      exact List.length_eq_zero_iff.mp this
    subst hnil
    have hus : us.length ≤ n := by omega
    refine ⟨s', ?_, ?_⟩
    · simp [hu, List.take_of_length_le hus]
    · simp [hv, List.drop_of_length_le hus]

/-- **Page by page**: a generator that runs the machine over page `k` gives the output for the
whole. `carry` is what the state of the generator has of the machine. -/
theorem Pulls.of_scan {gen : Gen τ β} (carry : τ → Nat → σ → Prop) (hn : 0 < n)
    (hstep : ∀ u k s ys t, carry u k s → scan f s (page n xs k) = some (ys, t) →
      ∃ u', gen u k = some (ys, u') ∧ (ys.length = n → carry u' (k + 1) t))
    {u : τ} (hu : carry u 0 s) (h : scan f s xs = some (ys, t)) :
    ∃ outs, Pulls gen n u 0 outs ∧ outs.flatten = ys := by
  refine Pulls.of_pieces (fun u k rest => ∃ s', carry u k s' ∧
    scan f s' (xs.drop (k * n)) = some (rest, t)) hn ?_ ⟨s, hu, by simpa using h⟩
  rintro u k rest ⟨s', hs', hrest⟩
  obtain ⟨s'', hpage, hmore⟩ := exists_scan_take hrest n
  obtain ⟨u', hgen, hnext⟩ := hstep u k s' _ s'' hs' hpage
  refine ⟨u', hgen, fun hfull => ⟨s'', hnext ?_, ?_⟩⟩
  · rw [List.length_take, Nat.min_eq_left hfull]
  · rwa [List.drop_drop, ← Nat.succ_mul] at hmore

end QStore
