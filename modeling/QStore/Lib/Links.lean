import Mathlib.Logic.Relation
import Mathlib.Logic.Function.Basic
import Mathlib.Tactic.Common

/-!
# QStore.Lib.Links

Links from one object to another, recorded on both sides. An object has at most
one link out and one link in.

```
f a = some b      a's record: the link leads to b
g b = some a      b's record: the link comes from a
```

`Matched` says that the two records agree, `NoLoop` that no object is reached
from itself. Both survive a link that is taken away on both sides; a link that
is added must not lead to an object from which its start is reached.
-/

namespace QStore

open Function Relation

variable {α : Type}

/-- The two records of the links agree. -/
def Matched (f g : α → Option α) : Prop := ∀ a b, f a = some b ↔ g b = some a

/-- One link. -/
def Leads (f : α → Option α) (a b : α) : Prop := f a = some b

/-- No object is reached from itself. -/
def NoLoop (f : α → Option α) : Prop := ∀ a, ¬ TransGen (Leads f) a a

variable {f g : α → Option α} {a b : α}

theorem Matched.start_unique (h : Matched f g) {a' : α} (ha : f a = some b) (ha' : f a' = some b) :
    a = a' := by
  have h1 := (h a b).mp ha
  rw [(h a' b).mp ha', Option.some.injEq] at h1
  exact h1.symm

variable [DecidableEq α]

/-- A link between two objects that had none on these sides. -/
theorem Matched.insert (h : Matched f g) (ha : f a = none) (hb : g b = none) :
    Matched (update f a (some b)) (update g b (some a)) := by
  intro x y
  by_cases hx : x = a
  · by_cases hy : y = b
    · simp [hx, hy]
    · rw [hx, update_self, update_of_ne hy, ← h a y, ha]
      simp [Ne.symm hy]
  · by_cases hy : y = b
    · rw [hy, update_self, update_of_ne hx, h x b, hb]
      simp [Ne.symm hx]
    · rw [update_of_ne hx, update_of_ne hy]
      exact h x y

/-- A link that is taken away on both sides. -/
theorem Matched.erase (h : Matched f g) (hab : f a = some b) :
    Matched (update f a none) (update g b none) := by
  have hba := (h a b).mp hab
  intro x y
  by_cases hx : x = a
  · by_cases hy : y = b
    · simp [hx, hy]
    · rw [hx, update_self, update_of_ne hy, ← h a y, hab]
      simp [Ne.symm hy]
  · by_cases hy : y = b
    · rw [hy, update_self, update_of_ne hx, h x b, hba]
      simp [Ne.symm hx]
    · rw [update_of_ne hx, update_of_ne hy]
      exact h x y

/-- A way along the old links and the new one either leaves the new one out, or
comes to its start and goes on from its end. -/
theorem transGen_insert (hb : ¬ ReflTransGen (Leads f) b a) {x y : α}
    (h : TransGen (Leads (update f a (some b))) x y) :
    TransGen (Leads f) x y ∨ ReflTransGen (Leads f) x a ∧ ReflTransGen (Leads f) b y := by
  have hstep : ∀ {y z : α}, Leads (update f a (some b)) y z → Leads f y z ∨ y = a ∧ z = b := by
    intro y z hyz
    by_cases hy : y = a
    · rw [Leads, hy, update_self, Option.some.injEq] at hyz
      exact .inr ⟨hy, hyz.symm⟩
    · rw [Leads, update_of_ne hy] at hyz
      exact .inl hyz
  induction h with
  | single hxy =>
      rcases hstep hxy with h | ⟨rfl, rfl⟩
      · exact .inl (.single h)
      · exact .inr ⟨.refl, .refl⟩
  | tail _ hyz ih =>
      rcases hstep hyz with h | ⟨rfl, rfl⟩
      · rcases ih with h1 | ⟨h1, h2⟩
        · exact .inl (h1.tail h)
        · exact .inr ⟨h1, h2.tail h⟩
      · rcases ih with h1 | ⟨-, h2⟩
        · exact .inr ⟨h1.to_reflTransGen, .refl⟩
        · exact absurd h2 hb

theorem NoLoop.insert (h : NoLoop f) (hb : ¬ ReflTransGen (Leads f) b a) :
    NoLoop (update f a (some b)) := by
  intro x hx
  rcases transGen_insert hb hx with h1 | ⟨h1, h2⟩
  · exact h x h1
  · exact hb (h2.trans h1)

theorem NoLoop.erase (h : NoLoop f) : NoLoop (update f a none) := by
  have hold : ∀ y z, Leads (update f a none) y z → Leads f y z := by
    intro y z hyz
    by_cases hy : y = a
    · rw [Leads, hy, update_self] at hyz
      contradiction
    · rwa [Leads, update_of_ne hy] at hyz
  intro x hx
  exact h x (TransGen.mono hold x x hx)

end QStore
