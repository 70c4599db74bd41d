import QStore.Vctr.Calls

/-!
# QStore.Vctr.Exclusion

A vector that keeps a window of its chunks is not one whose chunks are freed
early, and a persistent vector is neither of these nor killable.

| | memo | early freeable | killable | persist |
|---|---|---|---|---|
| `vctr_set_memo` asks not to be | yes | no | | yes |
| `early_freeable` by `vctr_get_set` | no | yes | | no |
| `vctr_set_num_kill_ignore` | | | yes | yes |
| `vctr_persist` | yes | yes | yes | |
| `persist` by `vctr_get_set` | no | no | no | |

So two of the five can be called where they should not be in two ways each, and
`vctr_set_memo` in one.
-/

namespace QStore.Vctr

/-- The flags of a vector that exclude each other do. -/
structure VctrVal.Apart (v : VctrVal) : Prop where
  memo : ¬ (v.isMemo = true ∧ v.isEarlyFreeable = true)
  persist : v.isPersist = true →
    v.isKillable = false ∧ v.isEarlyFreeable = false ∧ v.isMemo = false

/-- The flags of every vector that exclude each other do. -/
def FlagsApart (s : St) : Prop := ∀ u v, s.vctrs u = some v → v.Apart

/-- Where a setter that does not ask enough is still called rightly: there is no such
vector, or the setter refuses it for another reason, or it has none of the flags
that the setter does not ask about. -/
def Call.KeepsApart (s : St) : Call → Prop
  | .setMemo u memoLen => ∀ v, s.vctrs u = some v →
      v.numElements > 0 ∨ v.isPersist = true ∨ v.isMemo = true ∨ memoLen = 0 ∨
        v.isEarlyFreeable = false
  | .getSet u (some .earlyFreeable) (some .set) _ => ∀ v, s.vctrs u = some v →
      v.isError = true ∨ v.isEarlyFreeable = true ∨ v.isMemo = false ∧ v.isPersist = false
  | .getSet u (some .persist) (some .set) p => ∀ v, s.vctrs u = some v →
      v.isError = true ∨ p.bl = some false ∨
        v.isKillable = false ∧ v.isEarlyFreeable = false ∧ v.isMemo = false
  | _ => True

variable {s t : St} {u : Nat} {v w : VctrVal}

/-! ## what stays apart -/

/-- One vector is written, and the others stay as they are. -/
theorem FlagsApart.setVctr_iff (h : FlagsApart s) : FlagsApart (s.setVctr u w) ↔ w.Apart := by
  constructor
  · intro ht
    exact ht u w St.setVctr_self
  · intro hw u' v' hv'
    by_cases hu : u' = u
    · rw [hu, St.setVctr_self, Option.some.injEq] at hv'
      exact hv' ▸ hw
    · rw [St.setVctr_of_ne hu] at hv'
      exact h u' v' hv'

theorem VctrVal.Apart.of_static (h : v.Apart) (hw : w.static = v.static) : w.Apart := by
  have h1 : w.isMemo = v.isMemo := (congrArg VctrVal.isMemo hw :)
  have h2 : w.isEarlyFreeable = v.isEarlyFreeable := (congrArg VctrVal.isEarlyFreeable hw :)
  have h3 : w.isKillable = v.isKillable := (congrArg VctrVal.isKillable hw :)
  have h4 : w.isPersist = v.isPersist := (congrArg VctrVal.isPersist hw :)
  exact ⟨by rw [h1, h2]; exact h.memo, by rw [h1, h2, h3, h4]; exact h.persist⟩

/-- Appending leaves the flags alone. -/
theorem FlagsApart.of_statics (h : FlagsApart s) (ht : t.statics = s.statics) : FlagsApart t := by
  intro u w hw
  have hu : (t.vctrs u).map VctrVal.static = (s.vctrs u).map VctrVal.static := congrFun ht u
  rw [hw, Option.map_some] at hu
  obtain ⟨v, hv, hvw⟩ := Option.map_eq_some_iff.mp hu.symm
  exact (h u v hv).of_static hvw.symm

theorem ends_apart_of_keeps {α : Type} {m : M α} (h : FlagsApart s) (hm : Keeps St.statics m) :
    Ends m s (fun _ t => FlagsApart t ↔ True) fun e t => e ≠ .ub → (FlagsApart t ↔ True) :=
  (hm s).imp (fun _ _ ht => iff_true_intro (h.of_statics ht)) fun _ _ ht _ =>
    iff_true_intro (h.of_statics ht)

/-! ## one call -/

/-- A vector as it is made is marked for memo or for early freeing, not for both. -/
theorem ends_vctrAdd_apart (h : FlagsApart s) (a : AddArgs) :
    Ends (vctrAdd a) s (fun _ t => FlagsApart t) fun _ t => FlagsApart t := by
  have hmemo : Ends (vctrAdd a) s (fun _ _ => ¬ (a.isMemo = true ∧ a.isEarlyFreeable = true))
      fun _ _ => True := by
    simp +contextual [vctrAdd, vctrNewUqid]
  have hadd : Ends (vctrAdd a) s
      (fun _ t => ∃ n, t = (s.setUqid n).setVctr n a.entry) fun _ t => ∃ n, t = s.setUqid n :=
    ends_vctrAdd a (fun _ _ => ⟨_, rfl⟩) ⟨s.vctrUqid, rfl⟩ ⟨_, rfl⟩
  refine (hadd.and hmemo).imp ?_ ?_
  · rintro _ _ ⟨⟨n, rfl⟩, hm⟩
    have hn : FlagsApart (s.setUqid n) := h
    exact hn.setVctr_iff.mpr ⟨hm, fun hp => by simp [AddArgs.entry] at hp⟩
  · rintro _ _ ⟨⟨n, rfl⟩, -⟩
    exact h

/-- Whether `early_freeable` keeps the flags apart. -/
theorem ends_setEarlyFreeable_apart (h : FlagsApart s) (p : Ptrs) :
    Ends (setMeta u v p .earlyFreeable) s
      (fun _ t => FlagsApart t ↔
        v.isEarlyFreeable = true ∨ v.isMemo = false ∧ v.isPersist = false)
      fun e t => e ≠ .ub → (FlagsApart t ↔
        v.isEarlyFreeable = true ∨ v.isMemo = false ∧ v.isPersist = false) := by
  have hmark : ∀ n, FlagsApart (s.setVctr u { v with isEarlyFreeable := true, numFreeIgnore := n }) ↔
      v.isMemo = false ∧ v.isPersist = false := by
    intro n
    rw [h.setVctr_iff]
    constructor
    · intro hw
      simpa using And.intro hw.memo hw.persist
    · rintro ⟨hm, hp⟩
      exact ⟨by simp [hm], by simp [hp]⟩
  cases he : v.isEarlyFreeable with
  | true => simp [setMeta, he, h]
  | false =>
      cases hi : p.i8 with
      | none => simp [setMeta, he, hi, deref]
      | some n =>
          simp [setMeta, he, hi, deref, setVctr_twice, hmark]

/-- Whether `persist` of `vctr_get_set` keeps the flags apart. -/
theorem ends_setPersist_apart (h : FlagsApart s) (hv : s.vctrs u = some v) (p : Ptrs) :
    Ends (setMeta u v p .persist) s
      (fun _ t => FlagsApart t ↔ p.bl = some false ∨
        v.isKillable = false ∧ v.isEarlyFreeable = false ∧ v.isMemo = false)
      fun e _ => e = .ub := by
  have hmemo := (h u v hv).memo
  cases hb : p.bl with
  | none => simp [setMeta, hb, deref]
  | some b =>
      simp only [setMeta, hb, deref, ends_bind, ends_pure, ends_setVctr, h.setVctr_iff]
      constructor
      · intro hw
        cases b with
        | false => exact .inl rfl
        | true => exact .inr (hw.persist rfl)
      · rintro (hf | hclear)
        · exact ⟨hmemo, fun ht => by simp_all⟩
        · exact ⟨hmemo, fun _ => hclear⟩

/-- The other texts leave the flags alone. -/
theorem ends_setMeta_apart (h : FlagsApart s) (hv : s.vctrs u = some v) (p : Ptrs) {what : Meta}
    (he : what ≠ .earlyFreeable) (hp : what ≠ .persist) :
    Ends (setMeta u v p what) s (fun _ t => FlagsApart t) fun _ t => FlagsApart t := by
  have hsame : ∀ w : VctrVal, w.isMemo = v.isMemo → w.isEarlyFreeable = v.isEarlyFreeable →
      w.isKillable = v.isKillable → w.isPersist = v.isPersist → FlagsApart (s.setVctr u w) := by
    intro w h1 h2 h3 h4
    rw [h.setVctr_iff]
    have hold := h u v hv
    exact ⟨by rw [h1, h2]; exact hold.memo, by rw [h1, h2, h3, h4]; exact hold.persist⟩
  cases what with
  | eov => exact hsame _ rfl rfl rfl rfl
  | error => exact hsame _ rfl rfl rfl rfl
  | persist => contradiction
  | earlyFreeable => contradiction
  | maxNumInChunk =>
      cases hi : p.i8 with
      | none => simpa [setMeta, hi, deref] using h
      | some n => simp [setMeta, hi, deref, h, hsame]
  | qtype =>
      cases hi : p.i8 with
      | none => simpa [setMeta, hi, deref] using h
      | some n => cases hq : Qtype.ofNum n <;> simp [setMeta, hi, hq, deref, h, hsame]
  | name => cases hi : p.inStr <;> simp [setMeta, hi, h, hsame]
  | maxChnkIdx | minChnkIdx | width | lma | hasParent | nnKey | hasNn | isNn =>
      simpa [setMeta] using h

/-- Whether `vctr_get_set` keeps the flags apart. -/
theorem ends_vctrGetSet_apart (h : FlagsApart s) (what : Option Meta) (mode : Option Mode)
    (p : Ptrs) :
    Ends (vctrGetSet u what mode p) s
      (fun _ t => FlagsApart t ↔ (Call.getSet u what mode p).KeepsApart s)
      fun e t => e ≠ .ub → (FlagsApart t ↔ (Call.getSet u what mode p).KeepsApart s) := by
  cases mode with
  | none => cases what <;> simp [vctrGetSet, Call.KeepsApart, h]
  | some mode =>
  simp only [vctrGetSet, ends_bind, ends_getVctr, ends_byeIf]
  refine ⟨fun hn _ => ?_, fun v hv => ⟨fun herr _ => ?_, fun herr => ?_⟩⟩
  · simp only [h, true_iff]
    unfold Call.KeepsApart
    split <;> simp_all
  · simp only [h, true_iff]
    unfold Call.KeepsApart
    split <;> simp_all
  cases what with
  | none => simp [Call.KeepsApart, h]
  | some what =>
  cases mode with
  | get =>
      have hkeep : (Call.getSet u (some what) (some .get) p).KeepsApart s := by
        cases what <;> trivial
      refine (keeps_getMeta s).imp (fun _ t ht => ?_) fun _ t ht _ => ?_
      all_goals
        cases (ht : t = s)
        exact iff_of_true h hkeep
  | set =>
      rw [ends_bind]
      by_cases he : what = .earlyFreeable
      · subst he
        refine (ends_setEarlyFreeable_apart h p).imp (fun _ t ht => ?_) fun e t ht hub => ?_
        · simpa [Call.KeepsApart, hv, herr] using ht
        · simpa [Call.KeepsApart, hv, herr] using ht hub
      by_cases hp : what = .persist
      · subst hp
        refine (ends_setPersist_apart h hv p).imp (fun _ t ht => ?_) fun e t ht hub => absurd ht hub
        simpa [Call.KeepsApart, hv, herr] using ht
      have hkeep : (Call.getSet u (some what) (some .set) p).KeepsApart s := by
        cases what <;> trivial
      exact (ends_setMeta_apart h hv p he hp).imp (fun _ _ ht => iff_of_true ht hkeep)
        fun _ _ ht _ => iff_of_true ht hkeep

/-- Whether `vctr_set_memo` keeps the flags apart. -/
theorem ends_vctrSetMemo_apart (h : FlagsApart s) (memoLen : Int) :
    Ends (vctrSetMemo u memoLen) s
      (fun _ t => FlagsApart t ↔ (Call.setMemo u memoLen).KeepsApart s)
      fun e t => e ≠ .ub → (FlagsApart t ↔ (Call.setMemo u memoLen).KeepsApart s) := by
  simp only [vctrSetMemo, Call.KeepsApart, ends_bind, ends_getVctr, ends_byeIf, ends_onlyIf,
    ends_setVctr]
  refine ⟨fun hn _ => by simp [hn, h], fun v hv => ?_⟩
  refine ⟨fun h0 _ => by simp [hv, h, h0], fun h0 => ⟨fun hp _ => by simp [hv, h, hp], fun hp =>
    ⟨fun hm _ => by simp [hv, h, hm], fun hm => ⟨fun hlen => ?_, fun hlen => ?_⟩⟩⟩⟩
  · rw [h.setVctr_iff]
    constructor
    · intro hw w hw'
      cases hv.symm.trans hw'
      simpa using Or.inr (Or.inr (Or.inr (Or.inr hw.memo)))
    · intro hk
      have he : v.isEarlyFreeable = false := by simpa [hv, h0, hp, hm, hlen] using hk v hv
      exact ⟨by simp [he], fun hp' => absurd hp' hp⟩
  · simp [hv, h, not_not.mp hlen]

/-- `vctr_set_num_kill_ignore` and `vctr_persist` ask all that they should. -/
theorem ends_vctrSetNumKillIgnore_apart (h : FlagsApart s) (n : Int) :
    Ends (vctrSetNumKillIgnore u n) s (fun _ t => FlagsApart t) fun _ t => FlagsApart t := by
  simp only [vctrSetNumKillIgnore, ends_bind, ends_getVctr, ends_byeIf, ends_setVctr, h,
    implies_true, true_and]
  intro _ _ v hv _ hp _ _
  rw [h.setVctr_iff]
  exact ⟨(h u v hv).memo, fun hp' => absurd hp' hp⟩

theorem ends_vctrPersist_apart (h : FlagsApart s) (bval : Bool) :
    Ends (vctrPersist u bval) s (fun _ t => FlagsApart t) fun _ t => FlagsApart t := by
  simp only [vctrPersist, ends_bind, ends_getVctr, ends_byeIf, ends_setVctr, h, implies_true,
    true_and]
  intro v hv _ hk he hm
  rw [h.setVctr_iff]
  exact ⟨(h u v hv).memo, fun _ => ⟨by simpa using hk, by simpa using he, by simpa using hm⟩⟩

theorem ends_vctrCast_apart (h : FlagsApart s) (strQtype : String) :
    Ends (vctrCast u strQtype) s (fun _ t => FlagsApart t) fun _ t => FlagsApart t := by
  simp only [vctrCast, ends_bind, ends_getVctr, ends_byeIf, ends_setVctr, h, implies_true, true_and]
  intro v hv _ _ _ _
  rw [h.setVctr_iff]
  exact ⟨(h u v hv).memo, (h u v hv).persist⟩

/-- **What a call does to flags that are apart**: it keeps them so just where
`KeepsApart` says. -/
theorem ends_call_apart (h : FlagsApart s) (c : Call) :
    Ends c.run s (fun _ t => FlagsApart t ↔ c.KeepsApart s)
      fun e t => e ≠ .ub → (FlagsApart t ↔ c.KeepsApart s) := by
  have hasks : ∀ {m : M Unit}, Ends m s (fun _ t => FlagsApart t) (fun _ t => FlagsApart t) →
      Ends m s (fun _ t => FlagsApart t ↔ True) fun e t => e ≠ .ub → (FlagsApart t ↔ True) :=
    fun hm => hm.imp (fun _ _ => iff_true_intro) fun _ _ ht _ => iff_true_intro ht
  cases c with
  | add a => exact hasks (ends_map.mpr (ends_vctrAdd_apart h a))
  | getSet u what mode p => exact ends_map.mpr (ends_vctrGetSet_apart h what mode p)
  | cast u strQtype => exact hasks (ends_vctrCast_apart h strQtype)
  | setMemo u memoLen => exact ends_vctrSetMemo_apart h memoLen
  | setNumKillIgnore u n => exact hasks (ends_vctrSetNumKillIgnore_apart h n)
  | persist u bval => exact hasks (ends_vctrPersist_apart h bval)
  | put1 u sclr => exact ends_apart_of_keeps h keepsStatics_vctrPut1
  | putn u X n => exact ends_apart_of_keeps h (keepsStatics_vctrPutnLoop _ _ _)
  | putChunk u cmem n =>
      exact ends_apart_of_keeps h (keepsStatics_vctrPutChunk.bind fun _ => keeps_pure)

/-! ## all orders -/

/-- **The flags stay apart in a sequence of calls exactly when no call of it is one
that a setter should have refused.** -/
theorem flagsApart_iff (cs : List Call) :
    (∀ s ∈ visits Call.step cs .start, FlagsApart s) ↔
      Allowed Call.step (fun c s => c.KeepsApart s) cs .start := by
  refine forall_visits_iff (fun c s t h hst => ?_) fun u v hv => by cases hv
  exact Call.of_step (ends_call_apart h c) hst

/-- A vector is made, and then marked as early freeable; but it keeps a window. -/
def markedTwice : List Call :=
  [.add { plainArgs .I4 64 with isMemo := true, memoLen := 1 },
    .getSet 1 (some .earlyFreeable) (some .set) ⟨some true, some 0, none, none⟩]

/-- Not every order of calls leaves the flags apart. -/
theorem flagsApart_fails : ¬ ∀ s ∈ visits Call.step markedTwice .start, FlagsApart s := by
  intro h
  have hseen : (visits Call.step markedTwice .start).map
      (fun s => (s.vctrs 1).map fun v => (v.isMemo, v.isEarlyFreeable)) =
        [none, some (true, false), some (true, true)] := by
    decide +kernel
  have hmem : some (true, true) ∈ (visits Call.step markedTwice .start).map
      fun s => (s.vctrs 1).map fun v => (v.isMemo, v.isEarlyFreeable) := by
    simp [hseen]
  obtain ⟨s, hs, hflags⟩ := List.mem_map.mp hmem
  obtain ⟨v, hv, hboth⟩ := Option.map_eq_some_iff.mp hflags
  rw [Prod.mk.injEq] at hboth
  exact (h s hs 1 v hv).memo hboth

end QStore.Vctr
