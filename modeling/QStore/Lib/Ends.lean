import Mathlib.Tactic.Common

/-!
# QStore.Lib.Ends

Pre- and postconditions for programs that return a value or throw, and keep the
state they had reached when they throw.

`Ends m s Q E` says where `m` ends when it starts in `s`: in `Q` if it returns,
in `E` if it throws. There is one rule for each way such a program is built; the
rule for a counting loop asks for an invariant indexed by the counter.
-/

namespace QStore

variable {ε σ α β : Type}

/-- Started in `s`, `m` ends in `Q` if it returns and in `E` if it throws. -/
def Ends (m : EStateM ε σ α) (s : σ) (Q : α → σ → Prop) (E : ε → σ → Prop) : Prop :=
  match m s with
  | .ok a t => Q a t
  | .error e t => E e t

variable {m : EStateM ε σ α} {f : α → EStateM ε σ β} {s t : σ} {Q R : α → σ → Prop}
  {E F : ε → σ → Prop} {P : β → σ → Prop}

/-! ## reading a triple -/

theorem Ends.of_ok {a : α} (h : Ends m s Q E) (hm : m s = .ok a t) : Q a t := by
  rw [Ends, hm] at h
  exact h

theorem Ends.of_error {e : ε} (h : Ends m s Q E) (hm : m s = .error e t) : E e t := by
  rw [Ends, hm] at h
  exact h

theorem Ends.intro (hQ : ∀ a t, m s = .ok a t → Q a t)
    (hE : ∀ e t, m s = .error e t → E e t) : Ends m s Q E := by
  rw [Ends]
  cases h : m s with
  | ok a t => exact hQ a t h
  | error e t => exact hE e t h

/-- A program that ends in `Q` and never throws returns. -/
theorem Ends.returns (h : Ends m s Q fun _ _ => False) : ∃ a t, m s = .ok a t ∧ Q a t := by
  rw [Ends] at h
  cases hm : m s with
  | ok a t => rw [hm] at h; exact ⟨a, t, rfl, h⟩
  | error e t => rw [hm] at h; exact h.elim

/-- A program that can only throw one thing in one state throws it there. -/
theorem Ends.throws {e : ε} (h : Ends m s (fun _ _ => False) fun e' t' => e' = e ∧ t' = t) :
    m s = .error e t := by
  rw [Ends] at h
  cases hm : m s with
  | ok a t => rw [hm] at h; exact h.elim
  | error e' t' => rw [hm] at h; rw [h.1, h.2]

theorem Ends.imp (h : Ends m s Q E) (hQ : ∀ a t, Q a t → R a t) (hE : ∀ e t, E e t → F e t) :
    Ends m s R F :=
  Ends.intro (fun a t hm => hQ a t (h.of_ok hm)) (fun e t hm => hE e t (h.of_error hm))

/-- Two triples about the same start hold together. -/
theorem Ends.and (h : Ends m s Q E) (h' : Ends m s R F) :
    Ends m s (fun a t => Q a t ∧ R a t) (fun e t => E e t ∧ F e t) :=
  Ends.intro (fun _ _ hm => ⟨h.of_ok hm, h'.of_ok hm⟩) (fun _ _ hm => ⟨h.of_error hm, h'.of_error hm⟩)

/-- A program ends as it should exactly where `C` holds, if each of its ends does. -/
theorem Ends.iff_of {C : Prop} (h : Ends m s (fun a t => Q a t ↔ C) fun e t => E e t ↔ C) :
    Ends m s Q E ↔ C := by
  unfold Ends at h ⊢
  cases hm : m s with
  | ok a t => rwa [hm] at h
  | error e t => rwa [hm] at h

/-! ## a run on given input -/

/-- The state in which `m` ends. -/
def final (m : EStateM ε σ α) (s : σ) : σ :=
  match m s with
  | .ok _ t => t
  | .error _ t => t

/-- Where both ends are good, the state in which `m` ends is. -/
theorem Ends.final {p : σ → Prop} (h : Ends m s (fun _ t => p t) fun _ t => p t) : p (final m s) := by
  unfold Ends at h
  unfold QStore.final
  cases hm : m s with
  | ok a t => rwa [hm] at h
  | error e t => rwa [hm] at h

/-- The value `m` returns, or what it throws. -/
def outcome (m : EStateM ε σ α) (s : σ) : Except ε α :=
  match m s with
  | .ok a _ => .ok a
  | .error e _ => .error e

/-- A program that ends in one value and never throws has it for its outcome. -/
theorem Ends.outcome_eq {a : α} (h : Ends m s (fun b _ => b = a) fun _ _ => False) :
    outcome m s = .ok a := by
  obtain ⟨b, t, hm, rfl⟩ := h.returns
  rw [outcome, hm]

theorem run_of_outcome_ok {a : α} (h : outcome m s = .ok a) : m s = .ok a (final m s) := by
  unfold outcome at h
  unfold final
  cases hm : m s with
  | ok b t => rw [hm] at h; cases h; rfl
  | error e t => rw [hm] at h; cases h

theorem run_of_outcome_error {e : ε} (h : outcome m s = .error e) :
    m s = .error e (final m s) := by
  unfold outcome at h
  unfold final
  cases hm : m s with
  | ok b t => rw [hm] at h; cases h
  | error e' t => rw [hm] at h; cases h; rfl

/-! ## one rule for each construct -/

@[simp] theorem ends_pure {a : α} : Ends (pure a : EStateM ε σ α) s Q E ↔ Q a s := Iff.rfl

@[simp] theorem ends_throw {e : ε} : Ends (throw e : EStateM ε σ α) s Q E ↔ E e s := Iff.rfl

@[simp] theorem ends_get {Q : σ → σ → Prop} : Ends (get : EStateM ε σ σ) s Q E ↔ Q s s := Iff.rfl

@[simp] theorem ends_modify {g : σ → σ} {Q : PUnit → σ → Prop} :
    Ends (modify g : EStateM ε σ PUnit) s Q E ↔ Q ⟨⟩ (g s) := Iff.rfl

@[simp] theorem ends_bind :
    Ends (m >>= f) s P E ↔ Ends m s (fun a t => Ends (f a) t P E) E := by
  simp only [Ends, bind, EStateM.bind]
  cases m s <;> rfl

/-- A sequence returns where both of its parts do. -/
theorem bind_eq_ok {b : β} :
    (m >>= f) s = .ok b t ↔ ∃ a r, m s = .ok a r ∧ f a r = .ok b t := by
  simp only [bind, EStateM.bind]
  cases m s <;> simp

/-- Two sequences that begin alike end alike if their rests do. -/
theorem bind_congr_at {g : α → EStateM ε σ β} (h : ∀ a t, m s = .ok a t → f a t = g a t) :
    (m >>= f) s = (m >>= g) s := by
  simp only [bind, EStateM.bind]
  cases hm : m s with
  | ok a t => exact h a t hm
  | error e t => rfl

@[simp] theorem ends_map {g : α → β} :
    Ends (g <$> m) s P E ↔ Ends m s (fun a t => P (g a) t) E := by
  simp only [Ends, Functor.map, EStateM.map]
  cases m s <;> rfl

theorem Ends.bind (h : Ends m s Q E) (hf : ∀ a t, Q a t → Ends (f a) t P E) :
    Ends (m >>= f) s P E :=
  ends_bind.mpr (h.imp hf fun _ _ he => he)

theorem ends_ite {c : Prop} [Decidable c] {n : EStateM ε σ α} :
    Ends (if c then m else n) s Q E ↔ (c → Ends m s Q E) ∧ (¬ c → Ends n s Q E) := by
  by_cases hc : c <;> simp [hc]

/-! ## loops -/

/-- `for (i = lo; i < lo + n; i++) { body i }` -/
def forUp (body : Nat → EStateM ε σ PUnit) : Nat → Nat → EStateM ε σ PUnit
  | _, 0 => pure ⟨⟩
  | lo, n + 1 => body lo >>= fun _ => forUp body (lo + 1) n

/-- The loop rule: what holds before the first round and is carried from each
round to the next holds at the end. -/
theorem Ends.forUp {body : Nat → EStateM ε σ PUnit} (I : Nat → σ → Prop) :
    ∀ (n lo : Nat) (s : σ), I lo s →
      (∀ i t, lo ≤ i → i < lo + n → I i t → Ends (body i) t (fun _ u => I (i + 1) u) E) →
      Ends (forUp body lo n) s (fun _ t => I (lo + n) t) E
  | 0, _, _, h0, _ => h0
  | n + 1, lo, s, h0, hstep => by
    refine Ends.bind (hstep lo s (Nat.le_refl lo) (by omega) h0) fun _ t ht => ?_
    rw [show lo + (n + 1) = lo + 1 + n by omega]
    exact Ends.forUp I n (lo + 1) t ht fun i u hi hn => hstep i u (by omega) (by omega)

/-- `for each x of xs: { body x }` -/
def forEach (body : α → EStateM ε σ PUnit) : List α → EStateM ε σ PUnit
  | [] => pure ⟨⟩
  | x :: xs => body x >>= fun _ => forEach body xs

/-- The loop rule, with an invariant that knows what has been gone through. -/
theorem Ends.forEach {body : α → EStateM ε σ PUnit} (I : List α → σ → Prop) (xs : List α)
    (h0 : I [] s)
    (hstep : ∀ ys x zs t, xs = ys ++ x :: zs → I ys t →
      Ends (body x) t (fun _ u => I (ys ++ [x]) u) E) :
    Ends (forEach body xs) s (fun _ t => I xs t) E := by
  have hfrom : ∀ zs ys t, xs = ys ++ zs → I ys t →
      Ends (QStore.forEach body zs) t (fun _ u => I xs u) E := by
    intro zs
    induction zs with
    | nil =>
        intro ys t hxs ht
        rw [List.append_nil] at hxs
        exact hxs ▸ ht
    | cons x zs ih =>
        intro ys t hxs ht
        refine Ends.bind (hstep ys x zs t hxs ht) fun _ u hu => ?_
        exact ih (ys ++ [x]) u (by simp [hxs]) hu
  exact hfrom xs [] s rfl h0

/-! ## what a program leaves alone -/

/-- Whether it returns or throws, `m` leaves the view `f` of the state as it was. -/
def Keeps {γ : Type} (f : σ → γ) (m : EStateM ε σ α) : Prop :=
  ∀ s, Ends m s (fun _ t => f t = f s) (fun _ t => f t = f s)

section Keeps

variable {γ δ : Type} {v : σ → γ}

theorem keeps_pure {a : α} : Keeps v (pure a : EStateM ε σ α) := fun _ => rfl

theorem keeps_throw {e : ε} : Keeps v (throw e : EStateM ε σ α) := fun _ => rfl

theorem keeps_get : Keeps v (get : EStateM ε σ σ) := fun _ => rfl

theorem keeps_modify {g : σ → σ} (h : ∀ s, v (g s) = v s) :
    Keeps v (modify g : EStateM ε σ PUnit) := h

theorem Keeps.bind (h : Keeps v m) (hf : ∀ a, Keeps v (f a)) : Keeps v (m >>= f) := by
  intro s
  rw [ends_bind]
  refine (h s).imp (fun a t ht => ?_) fun _ _ => id
  exact (hf a t).imp (fun _ _ hu => hu.trans ht) fun _ _ hu => hu.trans ht

theorem Keeps.ite {c : Prop} [Decidable c] {n : EStateM ε σ α} (h : c → Keeps v m)
    (h' : ¬ c → Keeps v n) : Keeps v (if c then m else n) :=
  fun s => ends_ite.mpr ⟨fun hc => h hc s, fun hc => h' hc s⟩

theorem Keeps.forUp {body : Nat → EStateM ε σ PUnit} (h : ∀ i, Keeps v (body i)) :
    ∀ (n lo : Nat), Keeps v (forUp body lo n)
  | 0, _ => keeps_pure
  | n + 1, lo => (h lo).bind fun _ => Keeps.forUp h n (lo + 1)

/-- What is read off a view that is kept is kept. -/
theorem Keeps.view (h : Keeps v m) (g : γ → δ) : Keeps (fun s => g (v s)) m :=
  fun s => (h s).imp (fun _ _ ht => congrArg g ht) fun _ _ ht => congrArg g ht

/-- The rest of a program starts from a state that looks the same. -/
theorem Keeps.ends_bind {I : γ → Prop} (h : Keeps v m) (hs : I (v s))
    (hf : ∀ a t, I (v t) → Ends (f a) t P E) (hE : ∀ e t, I (v t) → E e t) :
    Ends (m >>= f) s P E := by
  rw [QStore.ends_bind]
  exact (h s).imp (fun a t ht => hf a t (ht ▸ hs)) fun e t ht => hE e t (ht ▸ hs)

end Keeps

/-! ## what has come about stays so -/

/-- Once `p` holds, it holds wherever `m` ends. -/
def Stays (p : σ → Prop) (m : EStateM ε σ α) : Prop :=
  ∀ s, p s → Ends m s (fun _ t => p t) (fun _ t => p t)

section Stays

variable {p : σ → Prop}

/-- What is kept stays. -/
theorem Keeps.stays {γ : Type} {v : σ → γ} {I : γ → Prop} (h : Keeps v m)
    (hp : ∀ s, p s ↔ I (v s)) : Stays p m := by
  intro s hs
  have hkept : ∀ t, v t = v s → p t := fun t ht => (hp t).mpr (ht ▸ (hp s).mp hs)
  exact (h s).imp (fun _ t => hkept t) fun _ t => hkept t

theorem Stays.bind (h : Stays p m) (hf : ∀ a, Stays p (f a)) : Stays p (m >>= f) :=
  fun s hs => (ends_bind).mpr ((h s hs).imp (fun a t ht => hf a t ht) fun _ _ => id)

theorem Stays.ite {c : Prop} [Decidable c] {n : EStateM ε σ α} (h : c → Stays p m)
    (h' : ¬ c → Stays p n) : Stays p (if c then m else n) :=
  fun s hs => ends_ite.mpr ⟨fun hc => h hc s hs, fun hc => h' hc s hs⟩

end Stays

end QStore
