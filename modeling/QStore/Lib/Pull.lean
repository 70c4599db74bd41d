import Mathlib.Tactic.Common

/-!
# QStore.Lib.Pull

Output pulled out of a generator chunk by chunk.

A generator is asked for chunk 0, 1, 2, … and is not asked again once it has
returned fewer than `n` entries. Asked for one more chunk it may also fail. What
it still has to give is a list; the rules below are for a generator that gives
the list `n` entries at a time.
-/

namespace QStore

/-- Given its state and the number of the chunk asked for: the chunk and the new
state, or a failure. -/
abbrev Gen (σ β : Type) := σ → Nat → Option (List β × σ)

variable {σ β : Type} {gen : Gen σ β} {n k : Nat} {s s' : σ} {out : List β} {outs outs' : List (List β)}

/-- Pulled from chunk `k` on, the generator gives the chunks `outs`. -/
inductive Pulls (gen : Gen σ β) (n : Nat) : σ → Nat → List (List β) → Prop
  | last {s s' : σ} {k : Nat} {out : List β} (h : gen s k = some (out, s')) (hn : out.length ≠ n) :
      Pulls gen n s k [out]
  | more {s s' : σ} {k : Nat} {out : List β} {outs : List (List β)} (h : gen s k = some (out, s'))
      (hn : out.length = n) (hrest : Pulls gen n s' (k + 1) outs) : Pulls gen n s k (out :: outs)

/-- A generator gives one thing. -/
theorem Pulls.unique (h : Pulls gen n s k outs) (h' : Pulls gen n s k outs') : outs = outs' := by
  induction h generalizing outs' with
  | last hg hn =>
      cases h' with
      | last hg' _ =>
          rw [hg, Option.some.injEq, Prod.mk.injEq] at hg'
          rw [hg'.1]
      | more hg' hn' _ =>
          rw [hg, Option.some.injEq, Prod.mk.injEq] at hg'
          exact absurd (hg'.1 ▸ hn') hn
  | more hg hn _ ih =>
      cases h' with
      | last hg' hn' =>
          rw [hg, Option.some.injEq, Prod.mk.injEq] at hg'
          exact absurd (hg'.1 ▸ hn) hn'
      | more hg' _ hrest' =>
          rw [hg, Option.some.injEq, Prod.mk.injEq] at hg'
          obtain ⟨rfl, rfl⟩ := hg'
          rw [ih hrest']

/-- Every chunk but the last holds `n` entries. -/
theorem Pulls.length (h : Pulls gen n s k outs) : ∀ out ∈ outs.dropLast, out.length = n := by
  induction h with
  | last => simp
  | more _ hn hrest ih =>
      cases hrest with
      | last => simpa using hn
      | more _ _ _ =>
          rw [List.dropLast_cons_cons]
          exact List.forall_mem_cons.mpr ⟨hn, ih⟩

/-- A generator that gives the list `rest`, `n` entries at a time, and is good
for another call after every full chunk, is pulled empty. -/
theorem Pulls.of_pieces (I : σ → Nat → List β → Prop) (hn : 0 < n)
    (hstep : ∀ s k rest, I s k rest → ∃ s', gen s k = some (rest.take n, s') ∧
      (n ≤ rest.length → I s' (k + 1) (rest.drop n))) {rest : List β} (h : I s k rest) :
    ∃ outs, Pulls gen n s k outs ∧ outs.flatten = rest := by
  induction hlen : rest.length using Nat.strongRecOn generalizing s k rest with
  | _ len ih =>
      subst hlen
      obtain ⟨s', hg, hnext⟩ := hstep s k rest h
      by_cases hfull : n ≤ rest.length
      · obtain ⟨outs, ho, hflat⟩ := ih (rest.drop n).length
          (by rw [List.length_drop]; omega) (hnext hfull) rfl
        refine ⟨rest.take n :: outs, .more hg ?_ ho, ?_⟩
        · rw [List.length_take]
          omega
        · rw [List.flatten_cons, hflat, List.take_append_drop]
      · refine ⟨[rest.take n], .last hg ?_, ?_⟩
        · rw [List.length_take]
          omega
        · rw [List.flatten_singleton, List.take_of_length_le (by omega)]

/-- What holds of the entries of every chunk, each with its number, holds of the
entries of the whole. -/
theorem Pulls.forall_getElem? (I : σ → Nat → Prop) (Φ : Nat → β → Prop)
    (hstep : ∀ s k out s', I s k → gen s k = some (out, s') →
      (∀ i x, out[i]? = some x → Φ (k * n + i) x) ∧ (out.length = n → I s' (k + 1)))
    (h : Pulls gen n s k outs) (hI : I s k) :
    ∀ i x, outs.flatten[i]? = some x → Φ (k * n + i) x := by
  induction h with
  | last hg _ =>
      intro i x hx
      rw [List.flatten_singleton] at hx
      exact (hstep _ _ _ _ hI hg).1 i x hx
  | more hg hn _ ih =>
      intro i x hx
      obtain ⟨hout, hnext⟩ := hstep _ _ _ _ hI hg
      rw [List.flatten_cons] at hx
      by_cases hi : i < n
      · rw [List.getElem?_append_left (by omega)] at hx
        exact hout i x hx
      · rw [List.getElem?_append_right (by omega), hn] at hx
        have := ih (hnext hn) (i - n) x hx
        rwa [Nat.add_mul, Nat.one_mul, Nat.add_assoc, Nat.add_sub_cancel' (by omega)] at this

/-- A generator that gives full chunks up to number `m`, and fails there, is never
pulled empty. -/
theorem not_pulls_of_fail (I : σ → Nat → Prop) {m : Nat}
    (hfull : ∀ s k out s', I s k → k < m → gen s k = some (out, s') →
      out.length = n ∧ I s' (k + 1))
    (hfail : ∀ s, I s m → gen s m = none) (h : I s k) (hk : k ≤ m) : ¬ Pulls gen n s k outs := by
  intro hp
  induction hp with
  | @last s s' k out hg hn =>
      by_cases hkm : k = m
      · rw [hkm, hfail s (hkm ▸ h)] at hg
        contradiction
      · exact hn (hfull s k out s' h (by omega) hg).1
  | @more s s' k out outs hg _ _ ih =>
      by_cases hkm : k = m
      · rw [hkm, hfail s (hkm ▸ h)] at hg
        contradiction
      · exact ih (hfull s k out s' h (by omega) hg).2 (by omega)

/-- A generator that always gives a full chunk, and is good for another call or
fails, is never pulled empty. -/
theorem not_pulls (I : σ → Nat → Prop)
    (hstep : ∀ s k, I s k → ∃ out s', gen s k = some (out, s') ∧ out.length = n ∧
      (I s' (k + 1) ∨ gen s' (k + 1) = none)) (h : I s k) : ¬ Pulls gen n s k outs := by
  intro hp
  induction hp with
  | last hg hn =>
      obtain ⟨out, s', hg', hn', -⟩ := hstep _ _ h
      rw [hg, Option.some.injEq, Prod.mk.injEq] at hg'
      exact hn (hg'.1 ▸ hn')
  | more hg _ hrest ih =>
      obtain ⟨out, s', hg', -, hnext⟩ := hstep _ _ h
      rw [hg, Option.some.injEq, Prod.mk.injEq] at hg'
      obtain ⟨rfl, rfl⟩ := hg'
      rcases hnext with hnext | hfail
      · exact ih hnext
      · cases hrest with
        | last hg' _ =>
            rw [hfail] at hg'
            contradiction
        | more hg' _ _ =>
            rw [hfail] at hg'
            contradiction

end QStore
