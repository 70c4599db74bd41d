import Mathlib.Tactic.Common

/-!
# QStore.Lib.Trace

Sequences of calls on a state.

`step c s` is the state a call leads to, if it leads anywhere. A property that
each call keeps exactly when it is allowed holds all along a sequence of calls
exactly when each of them is allowed where it is made.
-/

namespace QStore

variable {σ ι : Type} (step : ι → σ → Option σ)

/-- The state after a sequence of calls. -/
def runAll : List ι → σ → Option σ
  | [], s => some s
  | c :: cs, s => (step c s).bind (runAll cs)

/-- The states that a sequence of calls goes through. -/
def visits : List ι → σ → List σ
  | [], s => [s]
  | c :: cs, s =>
    s :: match step c s with
      | none => []
      | some t => visits cs t

/-- Each call that leads anywhere is made where `P` allows it. -/
def Allowed (P : ι → σ → Prop) : List ι → σ → Prop
  | [], _ => True
  | c :: cs, s => ∀ t, step c s = some t → P c s ∧ Allowed P cs t

variable {step} {P : ι → σ → Prop} {I : σ → Prop} {c : ι} {cs ds : List ι} {s t : σ}

theorem Allowed.right (h : Allowed step P (cs ++ ds) s) (hr : runAll step cs s = some t) :
    Allowed step P ds t := by
  induction cs generalizing s with
  | nil =>
      cases hr
      exact h
  | cons c cs ih =>
      rw [runAll, Option.bind_eq_some_iff] at hr
      obtain ⟨r, hc, hr⟩ := hr
      exact ih (h r hc).2 hr

theorem Allowed.left (h : Allowed step P (cs ++ ds) s) : Allowed step P cs s := by
  induction cs generalizing s with
  | nil => trivial
  | cons c cs ih => exact fun t ht => ⟨(h t ht).1, ih (h t ht).2⟩

theorem Allowed.imp {R : ι → σ → Prop} (h : Allowed step P cs s) (hR : ∀ c s, P c s → R c s) :
    Allowed step R cs s := by
  induction cs generalizing s with
  | nil => trivial
  | cons c cs ih => exact fun t ht => ⟨hR c s (h t ht).1, ih (h t ht).2⟩

/-- What every allowed call keeps holds after a sequence of allowed calls. -/
theorem Allowed.keeps (hI : ∀ c s t, I s → P c s → step c s = some t → I t)
    (h : Allowed step P cs s) (h0 : I s) (hr : runAll step cs s = some t) : I t := by
  induction cs generalizing s with
  | nil =>
      cases hr
      exact h0
  | cons c cs ih =>
      rw [runAll, Option.bind_eq_some_iff] at hr
      obtain ⟨r, hc, hr⟩ := hr
      exact ih (h r hc).2 (hI c s r h0 (h r hc).1 hc) hr

/-- What every call keeps holds after any calls. -/
theorem runAll_keeps (hI : ∀ c s t, I s → step c s = some t → I t) (h0 : I s)
    (hr : runAll step cs s = some t) : I t := by
  induction cs generalizing s with
  | nil =>
      cases hr
      exact h0
  | cons c cs ih =>
      rw [runAll, Option.bind_eq_some_iff] at hr
      obtain ⟨r, hc, hr⟩ := hr
      exact ih (hI c s r h0 hc) hr

theorem self_mem_visits : s ∈ visits step cs s := by
  cases cs with
  | nil => exact List.mem_singleton.mpr rfl
  | cons c cs => exact List.mem_cons_self

/-- What every call keeps holds all along. -/
theorem forall_visits (hI : ∀ c s t, I s → step c s = some t → I t) (h0 : I s) :
    ∀ t ∈ visits step cs s, I t := by
  induction cs generalizing s with
  | nil => simpa [visits] using h0
  | cons c cs ih =>
      cases hc : step c s with
      | none => simpa [visits, hc] using h0
      | some t =>
          simp only [visits, hc, List.forall_mem_cons]
          exact ⟨h0, ih (hI c s t h0 hc)⟩

/-- A property that a call keeps exactly when it is allowed. -/
theorem forall_visits_iff (hI : ∀ c s t, I s → step c s = some t → (I t ↔ P c s)) (h0 : I s) :
    (∀ t ∈ visits step cs s, I t) ↔ Allowed step P cs s := by
  induction cs generalizing s with
  | nil => simpa [visits, Allowed] using h0
  | cons c cs ih =>
      cases hc : step c s with
      | none => simpa [visits, Allowed, hc] using h0
      | some t =>
          simp only [visits, Allowed, hc, List.forall_mem_cons, Option.some.injEq]
          constructor
          · rintro ⟨-, hall⟩ t' rfl
            have ht := hall _ self_mem_visits
            exact ⟨(hI c s _ h0 hc).mp ht, (ih ht).mp hall⟩
          · intro h
            obtain ⟨hp, hrest⟩ := h t rfl
            exact ⟨h0, (ih ((hI c s t h0 hc).mpr hp)).mpr hrest⟩

end QStore
