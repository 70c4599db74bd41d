import QStore.Lib.Ends

/-!
# QStore.Lib.Decides

Computations that look at the state and leave it: they are done if a condition holds, and fail with
a given error if it does not. Checkers are built of them.
-/

namespace QStore

variable {ε σ : Type} {e : ε} {m m' : EStateM ε σ PUnit} {s : σ} {C C' : Prop} {i n : Nat}

/-- `m` is done at `s` if `C` holds, and fails with `e` if it does not. -/
def Decides (e : ε) (m : EStateM ε σ PUnit) (s : σ) (C : Prop) : Prop :=
  Ends m s (fun _ t => t = s ∧ C) fun e' t => e' = e ∧ t = s ∧ ¬ C

namespace Decides

theorem congr (h : Decides e m s C) (hc : C ↔ C') : Decides e m s C' := by
  rwa [show C' = C from propext hc.symm]

theorem pure : Decides e (Pure.pure PUnit.unit) s True := ⟨rfl, trivial⟩

/-- One condition after another. -/
theorem bind (h : Decides e m s C) (h' : C → Decides e m' s C') :
    Decides e (m >>= fun _ => m') s (C ∧ C') := by
  refine Ends.bind (h.imp (fun _ _ => id) ?_) ?_
  · rintro e t ⟨rfl, rfl, hc⟩
    exact ⟨rfl, rfl, fun hcc => hc hcc.1⟩
  · rintro - t ⟨rfl, hc⟩
    refine (h' hc).imp (fun _ _ ht => ⟨ht.1, hc, ht.2⟩) ?_
    rintro e t ⟨rfl, rfl, hc'⟩
    exact ⟨rfl, rfl, fun hcc => hc' hcc.2⟩

/-- A condition that holds is passed over. -/
theorem skip (h : Decides e m s C) (hc : C) (h' : Decides e m' s C') :
    Decides e (m >>= fun _ => m') s C' :=
  (h.bind fun _ => h').congr (and_iff_right hc)

/-- A loop decides that the condition of each round holds. -/
theorem forUp {body : Nat → EStateM ε σ PUnit} {C : Nat → Prop}
    (h : ∀ j, i ≤ j → j < i + n → Decides e (body j) s (C j)) :
    Decides e (QStore.forUp body i n) s (∀ j, i ≤ j → j < i + n → C j) := by
  induction n generalizing i with
  | zero => exact pure.congr ⟨fun _ j h h' => by omega, fun _ => trivial⟩
  | succ n ih =>
      have hrest : Decides e (QStore.forUp body (i + 1) n) s
          (∀ j, i + 1 ≤ j → j < i + 1 + n → C j) := ih fun j hj hj' => h j (by omega) (by omega)
      refine ((h i (Nat.le_refl _) (by omega)).bind fun _ => hrest).congr ⟨fun hall j hj hj' => ?_,
        fun hall => ⟨hall i (Nat.le_refl _) (by omega), fun j hj hj' => hall j (by omega) (by omega)⟩⟩
      obtain rfl | hlt := Nat.eq_or_lt_of_le hj
      · exact hall.1
      · exact hall.2 j hlt (by omega)

theorem yes (h : Decides e m s C) (hc : C) : m s = .ok PUnit.unit s := by
  obtain ⟨⟨⟩, t, hm, rfl, -⟩ := Ends.returns (h.imp (fun _ _ => id) fun _ _ he => he.2.2 hc)
  exact hm

theorem no (h : Decides e m s C) (hc : ¬ C) : m s = .error e s :=
  Ends.throws (h.imp (fun _ _ he => hc he.2) fun _ _ he => ⟨he.1, he.2.1⟩)

end Decides

end QStore
