import QStore.Lib.Mirror
import QStore.Vctr.Read
import QStore.Vctr.Widths

/-!
# QStore.Vctr.Recast

A cast changes the type of a vector and nothing else, so what is read afterwards
is the bytes that were there: reading an element goes by the width, and by the
type only for bits and strings.
-/

namespace QStore.Vctr

open Function

/-- The vector with another type, unless it holds bits or strings. -/
def VctrVal.retype (q : Qtype) (v : VctrVal) : VctrVal :=
  if v.qtype = .SC ∨ v.qtype = .B1 then v else { v with qtype := q }

/-- The state in which vector `u` has another type. -/
def St.retype (u : Nat) (q : Qtype) (s : St) : St :=
  { s with vctrs := update s.vctrs u ((s.vctrs u).map (VctrVal.retype q)) }

section Retype

variable {u i n : Nat} {q : Qtype} {α : Type}

theorem retype_cases (q : Qtype) (v : VctrVal) :
    v.retype q = v ∨ v.qtype ≠ .SC ∧ v.qtype ≠ .B1 ∧ v.retype q = { v with qtype := q } := by
  unfold VctrVal.retype
  split
  · exact .inl rfl
  · next h => exact .inr ⟨fun hsc => h (.inl hsc), fun hb => h (.inr hb), rfl⟩

/-- A field that is not the type. -/
theorem retype_field {β : Type} (r : VctrVal → β) (hr : ∀ v q, r { v with qtype := q } = r v)
    (v : VctrVal) : r (v.retype q) = r v := by
  rcases retype_cases q v with h | ⟨-, -, h⟩
  · rw [h]
  · rw [h, hr]

/-- What is done with a vector that is looked up. -/
theorem mirrors_getVctr_bind {k k' : VctrVal → M α}
    (h : ∀ v, Mirrors (St.retype u q) (k v) (k' (v.retype q))) :
    Mirrors (St.retype u q) (getVctr u >>= k) (getVctr u >>= k') := by
  simp only [getVctr, bind_assoc]
  refine mirrors_get_bind fun s => ?_
  have hfound : (s.retype u q).vctrs u = (s.vctrs u).map (VctrVal.retype q) := by simp [St.retype]
  simp only [hfound]
  cases s.vctrs u with
  | none => exact fun _ => rfl
  | some v => exact h v

theorem mirrors_setVctr {v : VctrVal} :
    Mirrors (St.retype u q) (setVctr u v) (setVctr u (v.retype q)) :=
  mirrors_modify fun s => by simp [St.retype, St.setVctr]

theorem mirrors_getChnk : Mirrors (St.retype u q) (getChnk u i) (getChnk u i) := by
  refine mirrors_get_bind fun s => ?_
  have hc : (s.retype u q).chnks (u, i) = s.chnks (u, i) := rfl
  simp only [hc]
  cases s.chnks (u, i) with
  | none => exact mirrors_throw
  | some c => exact mirrors_pure

theorem mirrors_setChnk {c : ChnkVal} :
    Mirrors (St.retype u q) (setChnk u i c) (setChnk u i c) :=
  mirrors_modify fun _ => rfl

theorem mirrors_memalign : Mirrors (St.retype u q) (memalign n) (memalign n) :=
  mirrors_get_bind fun _ => Mirrors.bind (mirrors_modify fun _ => rfl) fun _ => mirrors_pure

theorem mirrors_byeIf {c c' : Prop} [Decidable c] [Decidable c'] (h : c' ↔ c) :
    Mirrors (St.retype u q) (byeIf c) (byeIf c') :=
  Mirrors.ite h (fun _ => mirrors_throw) fun _ => mirrors_pure

theorem mirrors_incrMem {x : Nat} : Mirrors (St.retype u q) (incrMem x) (incrMem x) := by
  refine Mirrors.bind (mirrors_modify fun s => ?_) fun _ => ?_
  · have hiff : (s.retype u q).RefusesMem x ↔ s.RefusesMem x := Iff.rfl
    by_cases hr : s.RefusesMem x
    · rw [if_pos hr, if_pos (hiff.mpr hr)]
      rfl
    · rw [if_neg hr, if_neg (mt hiff.mp hr)]
  · refine (mirrors_byeIf Iff.rfl).bind fun _ => (mirrors_byeIf Iff.rfl).bind fun _ => ?_
    refine mirrors_modify fun s => ?_
    show (if u64 (x + s.memUsed) > s.memAllowed then _ else _) = _
    split <;> rfl

theorem mirrors_ignoreStatus {m m' : M Unit} (h : Mirrors (St.retype u q) m m') :
    Mirrors (St.retype u q) (ignoreStatus m) (ignoreStatus m') := by
  have hstatus : Mirrors (St.retype u q) (statusOf m) (statusOf m') := by
    intro s
    rw [ends_statusOf]
    refine (h s).imp (fun _ t ht => ?_) fun e t ht => ?_
    · simp only [statusOf, ht]
    · cases e <;> simp only [statusOf, ht]
  exact hstatus.bind fun _ => mirrors_pure

theorem mirrors_slice {bs : List UInt8} {off : Nat} :
    Mirrors (St.retype u q) (slice bs off n) (slice bs off n) :=
  Mirrors.ite Iff.rfl (fun _ => mirrors_pure) fun _ => mirrors_throw

/-! ## an element -/

/-- What goes by the type goes by whether it is bits or strings. -/
theorem retype_qtype_iff (hsc : q ≠ .SC) (hb : q ≠ .B1) (v : VctrVal) {p : Qtype}
    (hp : p = .SC ∨ p = .B1) : (v.retype q).qtype = p ↔ v.qtype = p := by
  rcases retype_cases q v with h | ⟨h1, h2, h⟩
  · rw [h]
  · rw [h]
    rcases hp with rfl | rfl
    · exact iff_of_false hsc h1
    · exact iff_of_false hb h2

theorem mirrors_elemAt (hsc : q ≠ .SC) (hb : q ≠ .B1) {v : VctrVal} {num off : Nat} {data : Buf} :
    Mirrors (St.retype u q) (elemAt v num data off) (elemAt (v.retype q) num data off) := by
  unfold elemAt
  rw [retype_field VctrVal.width fun _ _ => rfl]
  refine Mirrors.ite Iff.rfl (fun _ => mirrors_pure) fun _ => ?_
  refine Mirrors.ite (retype_qtype_iff hsc hb v (.inl rfl))
    (fun _ => mirrors_slice.bind fun _ => mirrors_pure) fun _ => ?_
  refine Mirrors.ite (retype_qtype_iff hsc hb v (.inr rfl)) (fun _ => ?_)
    fun _ => mirrors_slice.bind fun _ => mirrors_pure
  cases getBit data.bytes off with
  | none => exact mirrors_throw
  | some b => exact mirrors_pure

theorem mirrors_chnkGetData :
    Mirrors (St.retype u q) (chnkGetData u i false) (chnkGetData u i false) := by
  refine mirrors_getChnk.bind fun c => Mirrors.ite Iff.rfl (fun _ => mirrors_pure) fun _ => ?_
  refine mirrors_setChnk.bind fun _ => ?_
  cases c.l1Mem with
  | some b => exact mirrors_pure
  | none =>
  refine Mirrors.ite Iff.rfl (fun _ => mirrors_pure) fun _ => ?_
  cases l2FileName u i with
  | none => exact mirrors_pure
  | some f =>
  refine mirrors_get_bind fun s => ?_
  have hf : (s.retype u q).fs.read f = s.fs.read f := rfl
  simp only [hf]
  cases s.fs.read f with
  | none => exact mirrors_pure
  | some x =>
      refine Mirrors.ite Iff.rfl (fun _ => mirrors_pure) fun _ => mirrors_memalign.bind fun b => ?_
      exact mirrors_setChnk.bind fun _ => (mirrors_ignoreStatus mirrors_incrMem).bind fun _ =>
        mirrors_pure

/-- A vector that is changed where its type is not. -/
theorem mirrors_writeVctr {g : VctrVal → VctrVal} {v : VctrVal}
    (hg : ∀ w p, g { w with qtype := p } = { g w with qtype := p }) (hq : ∀ w, (g w).qtype = w.qtype) :
    Mirrors (St.retype u q) (setVctr u (g v)) (setVctr u (g (v.retype q))) := by
  have : g (v.retype q) = (g v).retype q := by
    unfold VctrVal.retype
    rw [hq]
    split
    · rfl
    · exact hg v q
  rw [this]
  exact mirrors_setVctr

theorem mirrors_rsMmap {f : FileName} : Mirrors (St.retype u q) (rsMmap f) (rsMmap f) := by
  refine mirrors_get_bind fun s => ?_
  have hf : (s.retype u q).fs.dir f = s.fs.dir f := rfl
  simp only [hf]
  cases s.fs.dir f with
  | none => exact mirrors_throw
  | some ino =>
      refine Mirrors.ite Iff.rfl (fun _ => mirrors_pure) fun _ => ?_
      exact Mirrors.bind (mirrors_modify fun _ => rfl) fun _ => mirrors_pure

theorem mirrors_readMapping {x : Option Mapping} {off : Nat} :
    Mirrors (St.retype u q) (readMapping x off n) (readMapping x off n) := by
  cases x with
  | none => exact mirrors_throw
  | some m =>
      refine Mirrors.ite Iff.rfl (fun _ => ?_) fun _ => mirrors_throw
      exact mirrors_get_bind fun _ => mirrors_slice

theorem mirrors_incrNumReaders : Mirrors (St.retype u q) (incrNumReaders u) (incrNumReaders u) := by
  refine mirrors_getVctr_bind fun v => Mirrors.ite ?_ (fun _ => ?_) fun _ => mirrors_throw
  · rw [retype_field VctrVal.numReaders fun _ _ => rfl]
  · exact mirrors_writeVctr (g := fun v => { v with numReaders := v.numReaders + 1 })
      (fun _ _ => rfl) fun _ => rfl

theorem mirrors_vctrGetLmaXnX : Mirrors (St.retype u q) (vctrGetLmaXnX u) (vctrGetLmaXnX u) := by
  refine mirrors_getVctr_bind fun v => Mirrors.ite ?_ (fun _ => ?_) fun _ => ?_
  · rw [retype_field VctrVal.numReaders fun _ _ => rfl]
  · rw [retype_field VctrVal.x fun _ _ => rfl]
    exact mirrors_incrNumReaders.bind fun _ => mirrors_pure
  · refine mirrors_rsMmap.bind fun x => ?_
    refine Mirrors.bind (mirrors_writeVctr (g := fun v => { v with x := x }) (fun _ _ => rfl)
      fun _ => rfl) fun _ => ?_
    exact mirrors_incrNumReaders.bind fun _ => mirrors_pure

theorem mirrors_vctrUngetLmaXnX :
    Mirrors (St.retype u q) (vctrUngetLmaXnX u) (vctrUngetLmaXnX u) := by
  refine mirrors_getVctr_bind fun v => (mirrors_byeIf ?_).bind fun _ => ?_
  · rw [retype_field VctrVal.numReaders fun _ _ => rfl]
  · refine mirrors_getVctr_bind fun v => mirrors_writeVctr (g := fun v => { v with
      numReaders := v.numReaders - 1
      x := if v.numReaders - 1 = 0 then none else v.x }) (fun _ _ => rfl) fun _ => rfl

theorem mirrors_vctrGet1Lma (hsc : q ≠ .SC) (hb : q ≠ .B1) :
    Mirrors (St.retype u q) (vctrGet1Lma u i) (vctrGet1Lma u i) := by
  refine mirrors_getVctr_bind fun v => ?_
  rw [retype_field VctrVal.isLma fun _ _ => rfl, retype_field VctrVal.numWriters fun _ _ => rfl,
    retype_field VctrVal.numElements fun _ _ => rfl, retype_field VctrVal.width fun _ _ => rfl]
  refine (mirrors_byeIf Iff.rfl).bind fun _ => (mirrors_byeIf Iff.rfl).bind fun _ => ?_
  refine (mirrors_byeIf Iff.rfl).bind fun _ => mirrors_vctrGetLmaXnX.bind fun x => ?_
  refine (mirrors_byeIf (retype_qtype_iff hsc hb v (.inl rfl))).bind fun _ => ?_
  refine (mirrors_byeIf (retype_qtype_iff hsc hb v (.inr rfl))).bind fun _ => ?_
  refine (mirrors_byeIf Iff.rfl).bind fun _ => mirrors_readMapping.bind fun data => ?_
  exact mirrors_vctrUngetLmaXnX.bind fun _ => mirrors_pure

/-- **`vctr_get1`** of a vector that was given another type does what it did. -/
theorem mirrors_vctrGet1 (hsc : q ≠ .SC) (hb : q ≠ .B1) :
    Mirrors (St.retype u q) (vctrGet1 u i) (vctrGet1 u i) := by
  refine mirrors_getVctr_bind fun v => ?_
  rw [retype_field VctrVal.isLma fun _ _ => rfl, retype_field VctrVal.numElements fun _ _ => rfl,
    retype_field VctrVal.maxNumInChnk fun _ _ => rfl]
  refine (mirrors_byeIf Iff.rfl).bind fun _ => ?_
  refine Mirrors.ite Iff.rfl (fun _ => mirrors_vctrGet1Lma hsc hb) fun _ => ?_
  refine Mirrors.ite Iff.rfl (fun _ => mirrors_throw) fun _ => ?_
  refine mirrors_getChnk.bind fun _ => mirrors_chnkGetData.bind fun data => ?_
  cases data with
  | none => exact mirrors_throw
  | some data =>
      refine mirrors_getChnk.bind fun c => (mirrors_elemAt hsc hb).bind fun x => ?_
      refine (mirrors_getChnk.bind fun _ => mirrors_setChnk).bind fun _ => ?_
      cases x with
      | none => exact mirrors_throw
      | some x => exact mirrors_pure

end Retype

/-! ## all orders -/

variable {r s t : St} {u : Nat} {v : VctrVal} {cs ds : List Call}

/-- Each call that `KeepsWidths` allows keeps what holds. -/
theorem Along.step {c : Call} (h : Along r s) (hok : c.KeepsWidths s) (hst : c.step s = some t) :
    Along r t := by
  have hret : ∀ {m : M Unit}, Ends m s (fun _ t => Along r t) (fun _ t => Along r t) →
      Ends m s (fun _ t => Along r t) fun e t => e ≠ .ub → Along r t :=
    fun hm => hm.imp (fun _ _ => id) fun _ _ ht _ => ht
  refine Call.of_step ?_ hst
  cases c with
  | add a => exact hret (ends_map.mpr (h.ends_vctrAdd a hok))
  | getSet u what mode p => exact hret (ends_map.mpr (h.ends_vctrGetSet what mode p hok))
  | cast u strQtype => exact hret (h.ends_vctrCast strQtype hok)
  | setMemo u memoLen => exact hret (h.ends_vctrSetMemo memoLen)
  | setNumKillIgnore u n => exact hret (h.ends_vctrSetNumKillIgnore n)
  | persist u bval => exact hret (h.ends_vctrPersist bval)
  | put1 u sclr => exact h.ends_vctrPut1 sclr hok
  | putn u X n => exact Along.ends_vctrPutnLoop _ _ _ s h hok
  | putChunk u cmem n => exact ends_map.mpr (h.ends_vctrPutChunk cmem n hok)

theorem sound_start : Sound .start where
  width := by intro u v hv; cases hv
  size := by intro u i c hc; cases hc
  fits := by intro u v hv; cases hv
  first := by intro u v hv; cases hv

/-- A cast that succeeds is between types of one width, and every element of the vector
reads as it did. -/
def CastOk (s : St) (u : Nat) (strQtype : String) : Prop :=
  ∀ t, vctrCast u strQtype s = .ok () t → ∃ v, s.vctrs u = some v ∧
    getWidthCQtype (getCQtype strQtype) = getWidthCQtype v.qtype ∧
    ∀ i, outcome (vctrGet1 u i) t = outcome (vctrGet1 u i) s

/-- A type that has a width is not that of bits or strings. -/
theorem ne_of_width_pos {q : Qtype} (h : 0 < getWidthCQtype q) : q ≠ .SC ∧ q ≠ .B1 := by
  constructor
  · rintro rfl
    simp [getWidthCQtype] at h
  · rintro rfl
    simp [getWidthCQtype] at h

theorem castOk {strQtype : String} (hok : ∀ t, vctrCast u strQtype s = .ok () t →
    (Call.cast u strQtype).KeepsWidths s) : CastOk s u strQtype := by
  intro t ht
  have hends : Ends (vctrCast u strQtype) s (fun _ t => ∃ v, s.vctrs u = some v ∧
      castable v.qtype (getCQtype strQtype) = true ∧
      t = s.setVctr u { v with qtype := getCQtype strQtype }) fun _ _ => True := by
    simp +contextual [vctrCast]
  obtain ⟨v, hv, hcast, rfl⟩ := hends.of_ok ht
  obtain ⟨hwid, hpos⟩ := castable_width hcast (hok _ ht v hv)
  obtain ⟨hsc, hb⟩ := ne_of_width_pos hpos
  obtain ⟨hsc', hb'⟩ := ne_of_width_pos (hwid ▸ hpos)
  have hre : s.setVctr u { v with qtype := getCQtype strQtype } = s.retype u (getCQtype strQtype) := by
    rw [St.setVctr, St.retype, hv, Option.map_some, VctrVal.retype,
      if_neg (by simp [hsc, hb])]
  refine ⟨v, hv, hwid, fun i => ?_⟩
  rw [hre]
  exact (mirrors_vctrGet1 hsc' hb').outcome s

/-- **Types, widths and sizes stay consistent, and a cast reads the same bytes anew**, in
every sequence of calls that `KeepsWidths` allows. -/
theorem consistent_run (h : Allowed Call.step (fun c s => c.KeepsWidths s) (cs ++ ds) .start)
    (hs : runAll Call.step cs .start = some s) (ht : runAll Call.step ds s = some t) :
    Consistent s ∧ Consistent t ∧ KeepsDims s t ∧
      ∀ u strQtype ds', ds = .cast u strQtype :: ds' → CastOk s u strQtype := by
  have hfirst : Along .start s :=
    h.left.keeps (fun _ _ _ h0 hok hst => h0.step hok hst) sound_start.along hs
  have hsecond : Along s t :=
    (h.right hs).keeps (fun _ _ _ h0 hok hst => h0.step hok hst) hfirst.toSound.along ht
  refine ⟨hfirst.toSound.consistent, hsecond.toSound.consistent, hsecond.dims, ?_⟩
  rintro u strQtype ds' rfl
  refine castOk fun t' ht' => (h.right hs t' ?_).1
  simp [Call.step, Call.run, ht']

/-- A vector is made, given an element and ended. -/
def addPut : List Call :=
  [.add (plainArgs .I4 64), .put1 1 [1, 2, 3, 4],
    .getSet 1 (some .eov) (some .set) ⟨none, none, none, none⟩]

theorem consistent_run_addPut : ∃ s t, runAll Call.step addPut .start = some s ∧
    runAll Call.step [.cast 1 "F4"] s = some t ∧
    (t.vctrs 1).map VctrVal.qtype = some .F4 ∧ Consistent t ∧ KeepsDims s t ∧ CastOk s 1 "F4" := by
  have hend : ((runAll Call.step addPut .start).bind fun s =>
      (runAll Call.step [.cast 1 "F4"] s).bind fun t => (t.vctrs 1).map VctrVal.qtype) =
        some .F4 := by
    decide +kernel
  have hnew : ((Call.add (plainArgs .I4 64)).step .start).bind (fun s => s.vctrs 1) =
      some (plainArgs .I4 64).entry := by
    decide +kernel
  have hput : (runAll Call.step addPut .start).bind (fun s => (s.vctrs 1).map VctrVal.qtype) =
      some .I4 := by
    decide +kernel
  obtain ⟨s, hs, hrest⟩ := Option.bind_eq_some_iff.mp hend
  obtain ⟨t, ht, hq⟩ := Option.bind_eq_some_iff.mp hrest
  have hallowed : Allowed Call.step (fun c s => c.KeepsWidths s) (addPut ++ [.cast 1 "F4"])
      .start := by
    refine fun s1 h1 => ⟨.inr (.inr (.inl rfl)), fun s2 h2 => ⟨fun v hv _ => ?_, fun s3 h3 =>
      ⟨trivial, fun s4 h4 => ⟨fun v hv _ => ?_, trivial⟩⟩⟩⟩
    · rw [h1, Option.bind_some, hv, Option.some.injEq] at hnew
      rw [hnew]
      exact .inl (by decide)
    · have h3' : runAll Call.step addPut .start = some s3 := by
        simp [addPut, runAll, h1, h2, h3]
      rw [h3', Option.bind_some, hv, Option.map_some, Option.some.injEq] at hput
      rw [hput]
      decide
  obtain ⟨-, h1, h2, h3⟩ := consistent_run hallowed hs ht
  exact ⟨s, t, hs, ht, hq, h1, h2, h3 1 "F4" [] rfl⟩

/-- A vector is made, ended, and cast from 8 bytes to 1. -/
def castAway : List Call :=
  [.add (plainArgs .I8 64), .getSet 1 (some .eov) (some .set) ⟨none, none, none, none⟩,
    .cast 1 "I1"]

/-- Not every sequence of calls leaves the types consistent. -/
theorem consistent_fails : ∃ s, runAll Call.step castAway .start = some s ∧ ¬ Consistent s := by
  have hend : (runAll Call.step castAway .start).bind
      (fun s => (s.vctrs 1).map fun v => (v.qtype, v.width)) = some (.I1, 8) := by
    decide +kernel
  obtain ⟨s, hs, hmap⟩ := Option.bind_eq_some_iff.mp hend
  obtain ⟨v, hv, hqw⟩ := Option.map_eq_some_iff.mp hmap
  rw [Prod.mk.injEq] at hqw
  refine ⟨s, hs, fun hcons => ?_⟩
  have := hcons.width 1 v hv (by simp [hqw.1]) (by simp [hqw.1])
  rw [hqw.1, hqw.2] at this
  simp [getWidthCQtype] at this

end QStore.Vctr
