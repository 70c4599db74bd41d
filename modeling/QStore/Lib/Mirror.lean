import QStore.Lib.Ends

/-!
# QStore.Lib.Mirror

Two programs that do the same thing to two states, of which one is the image of
the other.

`Mirrors f m n` says that `n`, started in the image of a state, ends in the image
of where `m` ends, with the same value or the same failure. There is one rule
for each way such programs are built.
-/

namespace QStore

variable {ε σ α β : Type}

/-- What `m` does in a state, `n` does in its image. -/
def Mirrors (f : σ → σ) (m n : EStateM ε σ α) : Prop :=
  ∀ s, Ends m s (fun a t => n (f s) = .ok a (f t)) fun e t => n (f s) = .error e (f t)

section Mirrors

variable {f : σ → σ} {m n m' n' : EStateM ε σ α} {k k' : α → EStateM ε σ β}

/-- The two end alike. -/
theorem Mirrors.outcome (h : Mirrors f m n) (s : σ) : outcome n (f s) = outcome m s := by
  have hs := h s
  unfold Ends at hs
  unfold QStore.outcome
  cases hm : m s with
  | ok a t =>
      rw [hm] at hs
      rw [hs]
  | error e t =>
      rw [hm] at hs
      rw [hs]

theorem mirrors_pure {a : α} : Mirrors f (pure a : EStateM ε σ α) (pure a) := fun _ => rfl

theorem mirrors_throw {e : ε} : Mirrors f (throw e : EStateM ε σ α) (throw e) := fun _ => rfl

theorem mirrors_modify {g g' : σ → σ} (h : ∀ s, g' (f s) = f (g s)) :
    Mirrors f (modify g : EStateM ε σ PUnit) (modify g') := by
  intro s
  show EStateM.Result.ok PUnit.unit (g' (f s)) = .ok PUnit.unit (f (g s))
  rw [h]

theorem Mirrors.bind (h : Mirrors f m n) (hk : ∀ a, Mirrors f (k a) (k' a)) :
    Mirrors f (m >>= k) (n >>= k') := by
  intro s
  rw [ends_bind]
  refine (h s).imp (fun a t hn => (hk a t).imp (fun b r hr => ?_) fun e r hr => ?_) fun e t hn => ?_
  · show EStateM.bind n k' (f s) = _
    rw [EStateM.bind, hn]
    exact hr
  · show EStateM.bind n k' (f s) = _
    rw [EStateM.bind, hn]
    exact hr
  · show EStateM.bind n k' (f s) = _
    rw [EStateM.bind, hn]

/-- Each reads its own state. -/
theorem mirrors_get_bind {k l : σ → EStateM ε σ β} (h : ∀ s, Mirrors f (k s) (l (f s))) :
    Mirrors f (get >>= k) (get >>= l) :=
  fun s => h s s

theorem Mirrors.ite {c c' : Prop} [Decidable c] [Decidable c'] (hc : c' ↔ c)
    (h : c → Mirrors f m n) (h' : ¬ c → Mirrors f m' n') :
    Mirrors f (if c then m else m') (if c' then n else n') := by
  by_cases hcc : c
  · rw [if_pos hcc, if_pos (hc.mpr hcc)]
    exact h hcc
  · rw [if_neg hcc, if_neg (mt hc.mp hcc)]
    exact h' hcc

end Mirrors

end QStore
