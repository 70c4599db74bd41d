import QStore.Vctr.Calls
import QStore.Vctr.LmaChunks
import QStore.Vctr.Member
import QStore.Vctr.Recast

/-!
# QStore.Vctr.Clone

`lVector:clone`.

A vector without a linear file is copied chunk by chunk into a new one. Before
that the code asserts that its memo length is -1, which once stood for no memo.
A vector without memo has a memo length of 0 now, which is also what `clone`
passes on for a vector that has a linear file.
-/

namespace QStore.Vctr

open Function

/-! ## memo lengths -/

section Memo

variable {s t : St} {u : Nat} {v w : VctrVal} {cs : List Call} {p : Ptrs}

/-- Without memo, the memo length is 0. -/
def MemoOk (s : St) : Prop := ∀ u v, s.vctrs u = some v → v.isMemo = false → v.memoLen = 0

theorem MemoOk.enter (h : MemoOk s) (hw : w.isMemo = false → w.memoLen = 0) :
    MemoOk (s.setVctr u w) := by
  intro u' v' hv' hm
  by_cases hu : u' = u
  · rw [hu, St.setVctr_self, Option.some.injEq] at hv'
    subst hv'
    exact hw hm
  · rw [St.setVctr_of_ne hu] at hv'
    exact h u' v' hv' hm

/-- An entry is written over, less its memo. -/
theorem MemoOk.write (h : MemoOk s) (hv : s.vctrs u = some v) (hm : w.isMemo = v.isMemo)
    (hl : w.memoLen = v.memoLen) : MemoOk (s.setVctr u w) :=
  h.enter fun hw => hl.trans (h u v hv (hm.symm.trans hw))

/-- Appending leaves memo lengths alone. -/
theorem stays_memoOk {α : Type} {m : M α} (h : Keeps St.statics m) : Stays MemoOk m := by
  refine h.stays (I := fun f => ∀ u v, f u = some v → v.isMemo = false → v.memoLen = 0) fun s => ?_
  constructor
  · intro hs u w hw
    obtain ⟨v, hv, rfl⟩ := Option.map_eq_some_iff.mp hw
    exact hs u v hv
  · intro hs u v hv
    exact hs u v.static (Option.map_eq_some_iff.mpr ⟨v, hv, rfl⟩)

theorem MemoOk.ends_setMeta (h : MemoOk s) (hv : s.vctrs u = some v) (what : Meta) :
    Ends (setMeta u v p what) s (fun _ t => MemoOk t) fun _ t => MemoOk t := by
  have hsame : ∀ w : VctrVal, w.isMemo = v.isMemo → w.memoLen = v.memoLen →
      MemoOk (s.setVctr u w) := fun w => h.write hv
  cases what with
  | eov | error => exact hsame _ rfl rfl
  | persist => cases hb : p.bl <;> simp [setMeta, hb, deref, h, hsame]
  | maxNumInChunk => cases hi : p.i8 <;> simp [setMeta, hi, deref, h, hsame]
  | qtype =>
      cases hi : p.i8 with
      | none => simpa [setMeta, hi, deref] using h
      | some n => cases hq : Qtype.ofNum n <;> simp [setMeta, hi, hq, deref, h, hsame]
  | name => cases hi : p.inStr <;> simp [setMeta, hi, h, hsame]
  | earlyFreeable =>
      cases hi : p.i8 <;> simp [setMeta, hi, deref, setVctr_twice, h, hsame]
  | maxChnkIdx | minChnkIdx | width | lma | hasParent | nnKey | hasNn | isNn =>
      simpa [setMeta] using h

theorem MemoOk.ends_vctrGetSet (h : MemoOk s) (what : Option Meta) (mode : Option Mode) :
    Ends (vctrGetSet u what mode p) s (fun _ t => MemoOk t) fun _ t => MemoOk t := by
  cases mode with
  | none => exact h
  | some mode =>
  simp only [vctrGetSet, ends_bind, ends_getVctr, ends_byeIf, h, implies_true, true_and]
  intro v hv _
  cases what with
  | none => exact h
  | some what =>
  cases mode with
  | get =>
      refine (keeps_getMeta s).imp (fun _ t ht => ?_) fun _ t ht => ?_
      all_goals
        cases (ht : t = s)
        exact h
  | set =>
      rw [ends_bind]
      exact h.ends_setMeta hv what

/-- No call gives a vector a memo length and no memo. -/
theorem MemoOk.step {c : Call} (h : MemoOk s) (hst : c.step s = some t) : MemoOk t := by
  suffices hends : Ends c.run s (fun _ t => MemoOk t) fun _ t => MemoOk t from
    Call.of_step (hends.imp (fun _ _ => id) fun _ _ ht _ => ht) hst
  cases c with
  | add a =>
      refine ends_map.mpr (ends_vctrAdd a (fun hok _ => ?_) h h)
      refine MemoOk.enter (s := s.setUqid _) h fun hm => ?_
      rcases hok.memo with ⟨hmemo, -⟩ | ⟨-, hlen⟩
      · exact absurd (hmemo.symm.trans hm) (by simp)
      · show a.memoLen.toNat = 0
        rw [hlen]
        rfl
  | getSet u what mode p => exact ends_map.mpr (h.ends_vctrGetSet what mode)
  | cast u strQtype =>
      simp only [Call.run, vctrCast, ends_bind, ends_getVctr, ends_byeIf, ends_setVctr, h,
        implies_true, true_and]
      exact fun v hv _ _ _ _ => h.write hv rfl rfl
  | setMemo u memoLen =>
      simp only [Call.run, vctrSetMemo, ends_bind, ends_getVctr, ends_byeIf, ends_onlyIf,
        ends_setVctr, h, implies_true, true_and, and_true]
      exact fun v hv _ _ _ _ => h.enter fun hm => absurd hm (by simp)
  | setNumKillIgnore u n =>
      simp only [Call.run, vctrSetNumKillIgnore, ends_bind, ends_getVctr, ends_byeIf,
        ends_setVctr, h, implies_true, true_and]
      exact fun _ _ v hv _ _ _ _ => h.write hv rfl rfl
  | persist u bval =>
      simp only [Call.run, vctrPersist, ends_bind, ends_getVctr, ends_byeIf, ends_setVctr, h,
        implies_true, true_and]
      exact fun v hv _ _ _ _ => h.write hv rfl rfl
  | put1 u sclr => exact stays_memoOk keepsStatics_vctrPut1 s h
  | putn u X n => exact stays_memoOk (keepsStatics_vctrPutnLoop _ _ _) s h
  | putChunk u cmem n => exact ends_map.mpr (stays_memoOk keepsStatics_vctrPutChunk s h)

/-- **A vector without memo has a memo length of 0**, after any calls. -/
theorem memoOk_run (hr : runAll Call.step cs .start = some s) : MemoOk s := by
  refine runAll_keeps (fun _ _ _ h hst => h.step hst) ?_ hr
  intro u v hv
  cases hv

end Memo

/-! ## what a vector says of itself -/

/-- A `uint32_t` as an `int`. -/
def asInt (n : Nat) : Int := (n : Int).bmod (2 ^ 32)

/-- `vctr_get_memo_len` -/
def vctrGetMemoLen (u : Nat) : M (Bool × Int) := do
  let v ← getVctr u
  pure (v.isMemo, asInt v.memoLen)

/-- `vctr_get_num_kill_ignore`. It sets nothing for a vector that it does not find. -/
def vctrGetNumKillIgnore (u : Nat) : M (Bool × Nat) := do
  match (← get).vctrs u with
  | some v => pure (v.isKillable, v.numKillIgnore)
  | none => ub

/-- `lVector:is_lma`. What is pushed when the status is bad was never set. -/
def isLma (u : Nat) : L Bool := do
  match ← attempt (getFlag u .lma) with
  | some (some b) => pure b
  | _ => throw .ub

/-- `lVector:width` -/
def widthOf (u : Nat) : L Nat := do
  let n ← present (← must (getNumber u .width))
  luaAssert (n > 0)
  pure n.toNat

/-- `lVector:get_memo` -/
def getMemo (u : Nat) : L (Int × Bool) := do
  let r ← must (vctrGetMemoLen u)
  pure (r.2, r.1)

/-- `lVector:get_killable` -/
def getKillable (u : Nat) : L (Bool × Nat) := do
  luaAssert ((← isNnVec u) = false)
  must (vctrGetNumKillIgnore u)

/-- `lVector:get_early_freeable`. The status is not looked at. -/
def getEarlyFreeable (u : Nat) : L (Bool × Int) := do
  luaAssert ((← isNnVec u) = false)
  let g ← attempt (vctrGetSet u (some .earlyFreeable) (some .get) ⟨some false, some 0, none, none⟩)
  match g with
  | some ⟨some b, some n, _⟩ => pure (b, n)
  | _ => throw .ub

/-! ## a new vector -/

/-- What `qcfg` says of a new vector where the call does not. -/
structure QCfg where
  isKillable : Bool
  numKillIgnore : Int
  isEarlyFreeable : Bool
  numFreeIgnore : Int

/-- What is in the table that `lVector.new` is given, of what it reads. -/
structure NewArgs where
  qtype : Qtype
  width : Option Nat
  maxNumInChunk : Nat
  memoLen : Int
  hasNulls : Bool

/-- `cVector.add`. A memo length that is not positive is taken for 0. -/
def cvecAdd (cfg : QCfg) (a : NewArgs) : M Nat := do
  byeIf (a.qtype = .Q0)
  byeIf (a.width = some 0)
  byeIf (a.qtype = .SC ∧ a.width = none)
  let width := u32 (a.width.getD (getWidthCQtype a.qtype))
  byeIf (a.qtype = .SC ∧ width < 2)
  byeIf (a.maxNumInChunk = 0)
  vctrAdd {
    qtype := a.qtype
    width := width
    maxNumInChnk := u32 a.maxNumInChunk
    isMemo := 0 < a.memoLen
    memoLen := asInt a.memoLen.toNat
    isKillable := cfg.isKillable
    numKillIgnore := cfg.numKillIgnore
    isEarlyFreeable := cfg.isEarlyFreeable
    numFreeIgnore := cfg.numFreeIgnore }

/-- The arguments for the null vector of a new vector. -/
def NewArgs.nnArgs (a : NewArgs) : NewArgs :=
  { a with qtype := .BL, width := none, hasNulls := false }

/-- `lVector.new` -/
def lvecNew (cfg : QCfg) (a : NewArgs) : L Nat := do
  luaAssert (a.maxNumInChunk > 0)
  luaAssert (64 ∣ a.maxNumInChunk)
  let w ← must (cvecAdd cfg a)
  luaIf (a.hasNulls = true) do
    let nn ← must (cvecAdd cfg a.nnArgs)
    must (vctrSetNnVec w nn)
  modLua w fun _ => ⟨false, [], []⟩
  pure w

/-! ## clone -/

/-- The loop of `chnk_clone`, with a bound on its rounds: chunk after chunk of `v` goes
to `w`, up to one that is not full. -/
def cloneLoop (gen : Nat → Nat → Chunk) (depth v w maxNumInChunk : Nat) : Nat → Nat → L Unit
  | 0, _ => throw .fuel
  | rounds + 1, chunkNum => do
    let r ← getChunk gen depth v chunkNum
    let _ ← putChunk w (← present r.buf) r.num r.nnBuf
    ungetChunk v chunkNum
    luaIf (¬ r.num < maxNumInChunk) (cloneLoop gen depth v w maxNumInChunk rounds (chunkNum + 1))

/-- `chnk_clone` -/
def chnkClone (cfg : QCfg) (gen : Nat → Nat → Chunk) (depth rounds v : Nat) : L Nat := do
  let qtype ← present (Qtype.ofNum (← qtypeOf v))
  let width ← widthOf v
  let maxNumInChunk ← maxNumInChunk v
  let hasNulls ← hasNnVec v
  let memo ← getMemo v
  luaAssert (memo.1 = -1)
  let k ← getKillable v
  luaAssert (k.1 = false)
  luaAssert (k.2 = 0)
  let f ← getEarlyFreeable v
  luaAssert (f.1 = false)
  luaAssert (f.2 = 0)
  let w ← lvecNew cfg ⟨qtype, some width, maxNumInChunk, memo.1, hasNulls⟩
  cloneLoop gen depth v w maxNumInChunk rounds 0
  pure w

/-- `lVector:clone`. What it does for a vector that has a linear file, `ofLma`, rests on
`cutils.copyfile`, which is not part of the repository. -/
def clone (cfg : QCfg) (gen : Nat → Nat → Chunk) (depth rounds : Nat) (ofLma : Nat → L Nat)
    (u : Nat) : L Nat := do
  if (← isLma u) = false then chnkClone cfg gen depth rounds u
  else ofLma u

variable {cfg : QCfg} {gen : Nat → Nat → Chunk} {depth rounds u : Nat} {ofLma : Nat → L Nat}
  {s : LSt} {v : VctrVal} {Q : Nat → LSt → Prop} {E : LErr → LSt → Prop}

/-- A finished vector, stored as chunks, without memo, kill or early free. -/
structure Cloneable (s : LSt) (u : Nat) (v : VctrVal) : Prop where
  found : s.c.vctrs u = some v
  eov : v.isEov = true
  chunks : v.isLma = false
  memo : v.isMemo = false
  kill : v.isKillable = false ∧ v.numKillIgnore = 0
  free : v.isEarlyFreeable = false ∧ v.numFreeIgnore = 0
  nonempty : 1 ≤ v.numElements

/-- No chunk of vector `u` lies where one of vector `w` does. -/
def Apart (s : St) (u w : Nat) : Prop :=
  ∀ i j c d b b', s.chnks (u, i) = some c → s.chnks (w, j) = some d → c.l1Mem = some b →
    d.l1Mem = some b' → b.addr ≠ b'.addr

/-- Vector `u` is in `t` what it is in `s`: its entry, its elements, its readers. -/
structure Kept (s t : St) (u : Nat) : Prop where
  entry : t.vctrs u = s.vctrs u
  elems : ∀ i, outcome (vctrGet1 u i) t = outcome (vctrGet1 u i) s
  readers : ∀ i, (t.chnks (u, i)).map ChnkVal.numReaders = (s.chnks (u, i)).map ChnkVal.numReaders

/-- In `t`, vector `w` is a copy of what `u` is in `s`, with memory of its own. -/
structure CopiedVec (s t : St) (u w : Nat) : Prop where
  other : w ≠ u
  copy : ∃ v v', s.vctrs u = some v ∧ t.vctrs w = some v' ∧ v'.isEov = true ∧
    v'.qtype = v.qtype ∧ v'.numElements = v.numElements ∧ v'.hasNn = v.hasNn ∧
    ∀ i, i < v.numElements → ∃ x, outcome (vctrGet1 u i) s = .ok x ∧
      outcome (vctrGet1 w i) t = .ok x
  kept : Kept s t u
  apart : Apart t u w

/-- What `clone` of vector `u` is to leave, with the new vector `w`: copies of the vector
and of its null vector. -/
structure Cloned (s t : St) (u w : Nat) : Prop where
  base : CopiedVec s t u w
  nulls : ∀ v, s.vctrs u = some v → v.hasNn = true →
    ∃ v', t.vctrs w = some v' ∧ CopiedVec s t v.nnKey v'.nnKey

section

variable (hv : s.c.vctrs u = some v)
include hv

theorem ends_isLma (he : v.isError = false) {Q : Bool → LSt → Prop} :
    Ends (isLma u) s Q E ↔ Q v.isLma s := by
  simp [isLma, getFlag, vctrGetSet, hv, he, getMeta, putBl, deref, LSt.setC, Got.nothing]

/-- Of a vector in error nothing is known. -/
theorem ends_isLma_error (he : v.isError = true) {Q : Bool → LSt → Prop} :
    Ends (isLma u) s Q E ↔ E .ub s := by
  simp [isLma, getFlag, vctrGetSet, hv, he, LSt.setC]

theorem ends_widthOf (he : v.isError = false) {Q : Nat → LSt → Prop} :
    Ends (widthOf u) s Q E ↔ (0 < v.width → Q v.width s) ∧ (v.width = 0 → E .raised s) := by
  simp [widthOf, ends_must, getNumber, vctrGetSet, hv, he, getMeta, putI8, deref, LSt.setC,
    Got.nothing]

theorem ends_maxNumInChunk_cases (he : v.isError = false) {Q : Nat → LSt → Prop} :
    Ends (maxNumInChunk u) s Q E ↔
      (0 < v.maxNumInChnk → Q v.maxNumInChnk s) ∧ (v.maxNumInChnk = 0 → E .raised s) := by
  simp [maxNumInChunk, ends_must, getNumber, vctrGetSet, hv, he, getMeta, putI8, deref, LSt.setC,
    Got.nothing]

theorem ends_getMemo {Q : Int × Bool → LSt → Prop} :
    Ends (getMemo u) s Q E ↔ Q (asInt v.memoLen, v.isMemo) s := by
  simp [getMemo, ends_must, vctrGetMemoLen, hv, LSt.setC]

/-- A memo length that is not -1 ends the copying before anything is done. -/
theorem ends_chnkClone (he : v.isError = false) (hm : asInt v.memoLen ≠ -1) :
    Ends (chnkClone cfg gen depth rounds u) s (fun _ _ => False) fun e t => e = .raised ∧ t = s := by
  rw [chnkClone, ends_bind, ends_qtypeOf hv he, ends_bind]
  generalize Qtype.ofNum v.qtype.num = q
  cases q with
  | none =>
    rw [ends_present_none]
    exact ⟨rfl, rfl⟩
  | some q =>
  rw [ends_present_some, ends_bind, ends_widthOf hv he]
  refine ⟨fun _ => ?_, fun _ => ⟨rfl, rfl⟩⟩
  rw [ends_bind, ends_maxNumInChunk_cases hv he]
  refine ⟨fun _ => ?_, fun _ => ⟨rfl, rfl⟩⟩
  rw [ends_bind, ends_hasNnVec hv he, ends_bind, ends_getMemo hv, ends_bind, ends_luaAssert]
  refine ⟨fun h => ?_, fun _ => ⟨rfl, rfl⟩⟩
  dsimp only at h
  contradiction

/-- A vector that has no linear file and whose memo length is not -1 is not cloned: the
call fails, and all is as it was. -/
theorem clone_fails (hl : v.isLma = false) (hm : asInt v.memoLen ≠ -1) :
    Ends (clone cfg gen depth rounds ofLma u) s (fun _ _ => False) fun _ t => t = s := by
  rw [clone, ends_bind]
  cases he : v.isError with
  | true => exact (ends_isLma_error hv he).mpr rfl
  | false =>
  rw [ends_isLma hv he, if_pos hl]
  exact (ends_chnkClone hv he hm).imp (fun _ _ => False.elim) fun _ _ h => h.2

end

/-- **No vector that is stored as chunks is cloned.** The call fails and changes nothing. -/
theorem clone_never (hok : MemoOk s.c) (h : Cloneable s u v) :
    Ends (clone cfg gen depth rounds ofLma u) s (fun _ _ => False) (fun _ t => t = s) ∧
      ¬ Ends (clone cfg gen depth rounds ofLma u) s (fun w t => Cloned s.c t.c u w)
        fun _ _ => False := by
  have hm : asInt v.memoLen ≠ -1 := by
    rw [hok u v h.found h.memo]
    decide
  have hfail : Ends (clone cfg gen depth rounds ofLma u) s (fun _ _ => False) fun _ t => t = s :=
    clone_fails h.found h.chunks hm
  refine ⟨hfail, fun hends => ?_⟩
  obtain ⟨w, t, hrun, -⟩ := hends.returns
  exact hfail.of_ok hrun

/-- Nothing is kept of any vector on the side of Lua. -/
def LSt.of (c : St) : LSt := ⟨c, fun _ => ⟨false, [], []⟩⟩

/-- A vector of one element. -/
theorem clone_never_one : ∃ s v, runAll Call.step addPut .start = some s ∧ Cloneable (.of s) 1 v ∧
    ∀ cfg gen depth rounds ofLma, Ends (clone cfg gen depth rounds ofLma 1) (.of s)
      (fun _ _ => False) fun _ t => t = .of s := by
  have hfound : (runAll Call.step addPut .start).bind (fun s => s.vctrs 1) =
      some { (plainArgs .I4 64).entry with numElements := 1, isEov := true } := by
    decide +kernel
  obtain ⟨s, hs, hv⟩ := Option.bind_eq_some_iff.mp hfound
  have h : Cloneable (.of s) 1 { (plainArgs .I4 64).entry with numElements := 1, isEov := true } :=
    ⟨hv, rfl, rfl, rfl, ⟨rfl, rfl⟩, ⟨rfl, rfl⟩, by decide⟩
  exact ⟨s, _, hs, h, fun _ _ _ _ _ => (clone_never (memoOk_run hs) h).1⟩

/-- One full chunk is not cloned. -/
theorem clone_fails_full : ∃ v, Cloneable (.of fullChunk) 1 v ∧
    v.numElements = v.maxNumInChnk ∧
    ∀ cfg gen depth rounds ofLma, ¬ Ends (clone cfg gen depth rounds ofLma 1) (.of fullChunk)
      (fun w t => Cloned fullChunk t.c 1 w) fun _ _ => False := by
  refine ⟨_, ⟨rfl, rfl, rfl, rfl, ⟨rfl, rfl⟩, ⟨rfl, rfl⟩, by decide⟩, rfl,
    fun cfg gen depth rounds ofLma hends => ?_⟩
  obtain ⟨w, t, hrun, -⟩ := hends.returns
  exact (clone_fails rfl rfl (by decide)).of_ok hrun

end QStore.Vctr
