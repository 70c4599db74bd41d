import QStore.Vctr.Contract
import QStore.Vctr.Lma
import QStore.Vctr.Trim

/-!
# QStore.Vctr.SetLma

A vector made of a file that is already there.

`vctr_set_lma` moves the file to the name of the vector's linear file and then
enters as many chunks as its elements take. The chunks are entered by
`vctr_put_chunk`, without memory and without a file.

```
file     =  record record … record
chunks   =  max_num_in_chnk, max_num_in_chnk, …, the rest
```
-/

namespace QStore.Vctr

open Function

/-! ## the code -/

/-- `num_chunks`, computed in `uint32_t`. -/
def lmaChnks (max num : Nat) : Nat :=
  if u32 (u32 (num / max) * max) = num then u32 (num / max) else u32 (u32 (num / max) + 1)

/-- The `CMEM` of an empty chunk. -/
def emptyCmem (v : VctrVal) : Cmem := ⟨none, v.chnkSize, true, false⟩

/-- The loop over the chunks, with the number of elements left to put. The status is
that of the last call of `vctr_put_chunk`. -/
def setLmaLoop (u : Nat) (v : VctrVal) : Nat → Nat → Int → M Int
  | 0, _, status => pure status
  | k + 1, toPut, _ => do
    byeIf (min v.maxNumInChnk toPut = 0)
    let status ← statusOf do let _ ← vctrPutChunk u (emptyCmem v) (min v.maxNumInChnk toPut)
    setLmaLoop u v k (toPut - min v.maxNumInChnk toPut) status

/-- `vctr_set_lma` up to the loop: the vector as it is found, and the number of its
elements. `oneFs`: both names are in one file system, or `rename` fails. -/
def setLmaOpen (oneFs : Bool) (u : Nat) (f : FileName) (n : Nat) : M (VctrVal × Nat) := do
  byeIf (f = .other "")
  let v ← getVctr u
  byeIf v.isLma
  byeIf (v.x ≠ none)
  byeIf (v.numReaders ≠ 0)
  byeIf (v.numWriters ≠ 0)
  byeIf (v.numElements ≠ 0)
  byeIf (lmaFile u = f)
  match (← get).fs.read f with
  | none => goBYE
  | some bs => do
    byeIf (bs.length = 0)
    let s ← get
    byeIf (s.dskAllowed < s.dskUsed)
    byeIf (s.dskAllowed - s.dskUsed < bs.length)
    incrDsk bs.length
    byeIf (oneFs = false)
    modify fun s => s.setFs (s.fs.rename f (lmaFile u))
    byeIf (v.width = 0)
    if n = 0 then do
      byeIf (bs.length / v.width * v.width ≠ bs.length)
      byeIf (v.maxNumInChnk = 0)
      pure (v, bs.length / v.width)
    else do
      byeIf (u64 (n * v.width) < bs.length)
      byeIf (v.maxNumInChnk = 0)
      pure (v, n)

/-- The rest of it: the chunks, and the vector's entry. -/
def setLmaEnter (u : Nat) (v : VctrVal) (num : Nat) : M Unit := do
  let status ← setLmaLoop u v (lmaChnks v.maxNumInChnk num) (u32 num) 0
  modVctr u fun v => { v with isLma := true, numElements := num, isEov := true }
  if status < 0 then throw (.bye status) else pure ()

/-- `vctr_set_lma`. `n` is 0 where the caller names no number of elements. -/
def vctrSetLma (oneFs : Bool) (u : Nat) (f : FileName) (n : Nat) : M Unit := do
  let (v, num) ← setLmaOpen oneFs u f n
  setLmaEnter u v num

/-! ## what it owes -/

/-- The number of elements: as asked for, or as many as the file has. -/
def lmaNum (v : VctrVal) (bs : List UInt8) (n : Nat) : Nat := if n = 0 then bs.length / v.width else n

/-- Vector `u` was made of the file that held `bs`, with `num` elements: its chunks are
there, all but the last full, and each element read is a record of the file. -/
structure MadeOf (t : St) (u : Nat) (v : VctrVal) (bs : List UInt8) (num : Nat) : Prop where
  size : v.width * num ≤ bs.length
  found : ∃ w, t.vctrs u = some w ∧ w.isEov = true ∧ w.numElements = num
  table : ∀ i, (t.chnks (u, i)).isSome ↔ i * v.maxNumInChnk < num
  full : ∀ i, (i + 1) * v.maxNumInChnk < num → chnkCount t u i = v.maxNumInChnk
  sum : ∀ k, num ≤ k * v.maxNumInChnk → ∑ i ∈ Finset.range k, chnkCount t u i = num
  get : ∀ i < num, ∃ t', vctrGet1 u i t = .ok (v.elem bs i) t'

/-- A call that succeeds makes the vector of the file; one that fails leaves its entry
and its chunks as they were. -/
def SetLmaRight (oneFs : Bool) (u : Nat) (f : FileName) (n : Nat) (s : St) : Prop :=
  match vctrSetLma oneFs u f n s with
  | .ok _ t => ∃ v bs, s.vctrs u = some v ∧ s.fs.read f = some bs ∧
      MadeOf t u v bs (lmaNum v bs n)
  | .error (.bye _) t => t.vctrs u = s.vctrs u ∧ ∀ i, t.chnks (u, i) = s.chnks (u, i)
  | .error .ub _ => False

/-- An empty vector, as `vctr_add` makes it: open, with no chunks. -/
structure Unfilled (s : St) (u : Nat) (v : VctrVal) : Prop where
  isEov : v.isEov = false
  minIdx : v.minChnkIdx = 0
  maxIdx : v.maxChnkIdx = 0
  max_pos : 0 < v.maxNumInChnk
  max_lt : v.maxNumInChnk < 2 ^ 32
  chnks : ∀ i, s.chnks (u, i) = none

/-- All tests of `vctr_set_lma` are passed. -/
structure LmaAccepts (oneFs : Bool) (s : St) (u : Nat) (v : VctrVal) (f : FileName) (n : Nat)
    (bs : List UInt8) : Prop where
  found : s.vctrs u = some v
  file : s.fs.read f = some bs
  oneFs : oneFs = true
  named : f ≠ .other "" ∧ lmaFile u ≠ f
  isLma : v.isLma = false
  x : v.x = none
  readers : v.numReaders = 0
  writers : v.numWriters = 0
  empty : v.numElements = 0
  pos : 0 < bs.length
  dsk : s.dskUsed ≤ s.dskAllowed ∧ bs.length ≤ s.dskAllowed - s.dskUsed
  width : 0 < v.width
  whole : n = 0 → bs.length / v.width * v.width = bs.length
  size : n ≠ 0 → bs.length ≤ u64 (n * v.width)

variable {oneFs : Bool} {s t : St} {u i j k n r num : Nat} {f : FileName} {v w : VctrVal}
  {c : ChnkVal} {bs : List UInt8}

/-! ## up to the loop -/

/-- The state the loop starts from. -/
structure LmaOpened (s t : St) (u : Nat) (bs : List UInt8) : Prop where
  vctrs : t.vctrs = s.vctrs
  chnks : t.chnks = s.chnks
  file : t.fs.read (lmaFile u) = some bs

theorem Fs.read_rename {ν : Type} [DecidableEq ν] {fs : Fs ν} {a b : ν}
    (h : fs.read a = some bs) : (fs.rename a b).read b = some bs := by
  rw [Fs.rename, h]
  exact Fs.read_write_self _

/-- `vctr_set_lma` comes to its loop exactly where all tests are passed. -/
theorem ends_setLmaOpen (hmax : ∀ v, s.vctrs u = some v → v.numElements = 0 → 0 < v.maxNumInChnk) :
    Ends (setLmaOpen oneFs u f n) s
      (fun r t => ∃ v bs, r = (v, lmaNum v bs n) ∧ LmaAccepts oneFs s u v f n bs ∧ LmaOpened s t u bs)
      fun e t => e = .bye (-1) ∧ t.vctrs = s.vctrs ∧ t.chnks = s.chnks ∧
        ∀ v bs, ¬ LmaAccepts oneFs s u v f n bs := by
  generalize hE : (fun (e : Err) (t : St) => e = .bye (-1) ∧ t.vctrs = s.vctrs ∧
    t.chnks = s.chnks ∧ ∀ v bs, ¬ LmaAccepts oneFs s u v f n bs) = E
  have hfail : ∀ t, t.vctrs = s.vctrs → t.chnks = s.chnks →
      (∀ v bs, ¬ LmaAccepts oneFs s u v f n bs) → E (.bye (-1)) t := by
    intro t hv hc hno
    rw [← hE]
    exact ⟨rfl, hv, hc, hno⟩
  rw [setLmaOpen]
  simp only [ends_bind, ends_byeIf, ends_getVctr, ends_get]
  refine ⟨fun h => hfail _ rfl rfl fun v bs ha => ha.named.1 h, fun hnamed => ⟨fun hnone =>
    hfail _ rfl rfl fun v bs ha => ?_, fun v hv => ?_⟩⟩
  · rw [ha.found] at hnone
    contradiction
  -- a test that fails on the vector that is there
  have hno : ∀ {P : Prop}, P → (∀ bs, LmaAccepts oneFs s u v f n bs → ¬ P) →
      ∀ v' bs, ¬ LmaAccepts oneFs s u v' f n bs := by
    intro P hp h v' bs ha
    obtain rfl : v = v' := Option.some.inj (hv.symm.trans ha.found)
    exact h bs ha hp
  refine ⟨fun h => hfail _ rfl rfl (hno h fun bs ha => by simp [ha.isLma]), fun h1 =>
    ⟨fun h => hfail _ rfl rfl (hno h fun bs ha => by simp [ha.x]), fun h2 =>
    ⟨fun h => hfail _ rfl rfl (hno h fun bs ha => by simp [ha.readers]), fun h3 =>
    ⟨fun h => hfail _ rfl rfl (hno h fun bs ha => by simp [ha.writers]), fun h4 =>
    ⟨fun h => hfail _ rfl rfl (hno h fun bs ha => by simp [ha.empty]), fun h5 =>
    ⟨fun h => hfail _ rfl rfl (hno h fun bs ha => by simp [ha.named.2]), fun h6 => ?_⟩⟩⟩⟩⟩⟩
  cases hfile : s.fs.read f with
  | none =>
      refine hfail _ rfl rfl fun v' bs ha => ?_
      rw [ha.file] at hfile
      contradiction
  | some bs =>
      have hno' : ∀ {P : Prop}, P → (LmaAccepts oneFs s u v f n bs → ¬ P) →
          ∀ v' bs', ¬ LmaAccepts oneFs s u v' f n bs' := by
        intro P hp h
        refine hno hp fun bs' ha => ?_
        obtain rfl : bs = bs' := Option.some.inj (hfile.symm.trans ha.file)
        exact h ha
      simp only [ends_bind, ends_byeIf, ends_get]
      refine ⟨fun h => hfail _ rfl rfl (hno' h fun ha => Nat.ne_of_gt ha.pos), fun hpos =>
        ⟨fun h => hfail _ rfl rfl (hno' h fun ha => Nat.not_lt.mpr ha.dsk.1), fun hused =>
        ⟨fun h => hfail _ rfl rfl (hno' h fun ha => Nat.not_lt.mpr ha.dsk.2), fun hspace => ?_⟩⟩⟩
      refine ends_incrDsk (fun h0 => absurd h0 hpos) fun m b => ?_
      simp only [ends_modify]
      refine ⟨fun h => hfail _ rfl rfl (hno' h fun ha => by simp [ha.oneFs]), fun hone =>
        ⟨fun h => hfail _ rfl rfl (hno' h fun ha => Nat.ne_of_gt ha.width), fun hwidth => ?_⟩⟩
      have hmax0 : ¬ v.maxNumInChnk = 0 := Nat.ne_of_gt (hmax v hv (by simpa using h5))
      have hopened : LmaOpened s (((s.setDsk m).setRefused b).setFs
          (((s.setDsk m).setRefused b).fs.rename f (lmaFile u))) u bs :=
        ⟨rfl, rfl, Fs.read_rename hfile⟩
      have haccepts : (n = 0 → bs.length / v.width * v.width = bs.length) →
          (n ≠ 0 → bs.length ≤ u64 (n * v.width)) → LmaAccepts oneFs s u v f n bs := fun hw hs =>
        { found := hv, file := hfile, oneFs := by simpa using hone, named := ⟨hnamed, h6⟩,
          isLma := by simpa using h1, x := by simpa using h2, readers := by simpa using h3,
          writers := by simpa using h4, empty := by simpa using h5, pos := Nat.pos_of_ne_zero hpos,
          dsk := ⟨Nat.not_lt.mp hused, Nat.not_lt.mp hspace⟩, width := Nat.pos_of_ne_zero hwidth,
          whole := hw, size := hs }
      by_cases hn : n = 0
      · rw [if_pos hn]
        simp only [ends_bind, ends_byeIf, ends_pure]
        refine ⟨fun h => hfail _ rfl rfl (hno' h fun ha => not_not.mpr (ha.whole hn)), fun h =>
          ⟨fun h0 => absurd h0 hmax0, fun _ => ⟨v, bs, ?_, ?_, hopened⟩⟩⟩
        · rw [lmaNum, if_pos hn]
        · exact haccepts (fun _ => by simpa using h) fun h0 => absurd hn h0
      · rw [if_neg hn]
        simp only [ends_bind, ends_byeIf, ends_pure]
        refine ⟨fun h => hfail _ rfl rfl (hno' h fun ha => Nat.not_lt.mpr (ha.size hn)), fun h =>
          ⟨fun h0 => absurd h0 hmax0, fun _ => ⟨v, bs, ?_, ?_, hopened⟩⟩⟩
        · rw [lmaNum, if_neg hn]
        · exact haccepts (fun h0 => absurd h0 hn) fun _ => Nat.not_lt.mp h

/-! ## the loop -/

/-- The first chunk left of `j` that have been entered. -/
def VctrVal.lowIdx (v : VctrVal) (j : Nat) : Nat := if v.memoLen = 0 then 0 else j - v.memoLen

/-- The vector's entry once `j` chunks of `r` elements have been entered. -/
def VctrVal.filling (v : VctrVal) (r j : Nat) : VctrVal :=
  { v with
    numElements := min (j * v.maxNumInChnk) r
    minChnkIdx := v.lowIdx j
    maxChnkIdx := j - 1
    isEov := decide (r < j * v.maxNumInChnk) }

/-- The same before `vctr_memo` passes for chunk `j`. -/
def VctrVal.entering (v : VctrVal) (r j : Nat) : VctrVal :=
  { v.filling r j with numElements := min ((j + 1) * v.maxNumInChnk) r, maxChnkIdx := j }

/-- The number of elements that go to chunk `i`. -/
def VctrVal.share (v : VctrVal) (r i : Nat) : Nat := min v.maxNumInChnk (r - i * v.maxNumInChnk)

/-- `j` chunks of `r` elements have been entered, and those below the window deleted. -/
structure Filling (s t : St) (u : Nat) (v : VctrVal) (r j : Nat) : Prop where
  found : t.vctrs u = some (v.filling r j)
  chnks : ∀ i, t.chnks (u, i) = if v.lowIdx j ≤ i ∧ i < j then
    some (putChnk v v.chnkSize none (v.share r i)) else none
  fs : t.fs = s.fs

theorem Unfilled.filling (h : Unfilled s u v) (hv : s.vctrs u = some v) (h0 : v.numElements = 0)
    (r : Nat) : Filling s s u v r 0 := by
  refine ⟨?_, fun i => ?_, rfl⟩
  · have hlow : v.lowIdx 0 = 0 := by
      rw [VctrVal.lowIdx]
      split
      · rfl
      · exact Nat.zero_sub _
    have heov : decide (r < 0 * v.maxNumInChnk) = false := by simp
    have hself : ∀ num lo hi eov, num = v.numElements → lo = v.minChnkIdx → hi = v.maxChnkIdx →
        eov = v.isEov → v = { v with
          numElements := num, minChnkIdx := lo, maxChnkIdx := hi, isEov := eov } := by
      rintro _ _ _ _ rfl rfl rfl rfl
      rfl
    rw [hv, VctrVal.filling, hlow, heov, Nat.zero_mul, Nat.zero_min, Nat.zero_sub]
    exact congrArg some (hself _ _ _ _ h0.symm h.minIdx.symm h.maxIdx.symm h.isEov.symm)
  · rw [h.chnks i, if_neg (by omega)]

/-- A chunk with no memory and no file. -/
structure ChnkVal.Bare (c : ChnkVal) : Prop where
  readers : c.numReaders = 0
  writers : c.numWriters = 0
  l1Mem : c.l1Mem = none
  l2Exists : c.l2Exists = false

theorem putChnk_bare (size n : Nat) : (putChnk v size none n).Bare := ⟨rfl, rfl, rfl, rfl⟩

/-- `chnk_del` of such a chunk only takes it out of the table. -/
theorem ends_chnkDel_bare (hv : t.vctrs u ≠ none) (hc : t.chnks (u, i) = some c) (hb : c.Bare)
    (p : Bool) : Ends (chnkDel u i p) t (fun _ t' => t' = t.delChnk u i) fun _ _ => False := by
  have hr : ¬ c.numReaders > 0 := by rw [hb.readers]; decide
  have hw : ¬ c.numWriters > 0 := by rw [hb.writers]; decide
  have hmem : ¬ c.l1Mem ≠ none := by rw [hb.l1Mem]; simp
  have hfile : ¬ (p = false ∧ c.l2Exists = true) := by rw [hb.l2Exists]; simp
  simp only [chnkDel, ends_bind, ends_get, if_neg hv, hc, reduceCtorEq, if_false, chnkFreeResources,
    ends_getChnk_of hc, ends_byeIf_neg hr, ends_byeIf_neg hw, onlyIf, if_neg hmem, if_neg hfile,
    ends_pure, ends_modify]

/-- `vctr_memo` moves the window by one chunk at most. -/
theorem ends_vctrMemo_bare (hv : t.vctrs u = some w) (he : w.isEov = false) (hidx : w.maxChnkIdx = j)
    (hmin : w.minChnkIdx = w.lowIdx j) (hj : j + 1 < 2 ^ 32)
    (hbare : ∀ i, w.lowIdx j ≤ i → i < j → ∃ c, t.chnks (u, i) = some c ∧ c.Bare) :
    Ends (vctrMemo u) t (fun _ t' => t'.vctrs u = some { w with minChnkIdx := w.lowIdx (j + 1) } ∧
      (∀ i, t'.chnks (u, i) = if w.lowIdx j ≤ i ∧ i < w.lowIdx (j + 1) then none
        else t.chnks (u, i)) ∧ t'.fs = t.fs) fun _ _ => False := by
  have hsame : w.lowIdx (j + 1) = w.lowIdx j →
      t.vctrs u = some { w with minChnkIdx := w.lowIdx (j + 1) } ∧
        (∀ i, t.chnks (u, i) = if w.lowIdx j ≤ i ∧ i < w.lowIdx (j + 1) then none
          else t.chnks (u, i)) ∧ t.fs = t.fs := by
    intro hlow
    refine ⟨?_, fun i => ?_, rfl⟩
    · rw [hlow, ← hmin, hv]
    · rw [hlow, if_neg (by omega)]
  by_cases hmoves : w.Moves w.maxChnkIdx
  · obtain ⟨hlen, -, hgt⟩ := hmoves
    have hlow : ∀ k, w.lowIdx k = k - w.memoLen := fun k => by rw [VctrVal.lowIdx, if_neg hlen]
    rw [hidx, hmin, hlow] at hgt
    have hge : w.memoLen ≤ j := by
      unfold u32 at hgt
      omega
    have hnew : u32 (j + 1 + 2 ^ 32 - w.memoLen) = j + 1 - w.memoLen := by
      unfold u32
      omega
    obtain ⟨c, hc, hb⟩ := hbare (j - w.memoLen) (by rw [hlow]) (by omega)
    rw [vctrMemo, ends_bind, ends_getVctr_of hv, if_neg hlen, if_neg (by rw [he]; decide)]
    simp only [hidx, hmin, hlow, if_pos hgt, hnew]
    rw [show j + 1 - w.memoLen - (j - w.memoLen) = 1 by omega, memoLoop, ends_bind, ends_bind,
      ends_statusOf]
    refine (ends_chnkDel_bare (by rw [hv]; simp) hc hb w.isPersist).imp ?_ fun _ _ => False.elim
    rintro - _ rfl
    rw [memoLoop, ends_pure, ends_bind, ends_modVctr_of (v := w) (by exact hv), if_neg (by decide),
      ends_pure]
    refine ⟨St.setVctr_self.trans (by rw [hidx]), fun k => ?_, rfl⟩
    rw [St.setVctr_chnks]
    by_cases hk : k = j - w.memoLen
    · rw [hk, if_pos (by omega)]
      exact St.delChnk_self
    · rw [if_neg (by omega)]
      exact update_of_ne (by simp [hk]) ..
  · refine (ends_vctrMemo_idle hv hmoves).imp ?_ fun _ _ => id
    rintro - _ rfl
    refine hsame ?_
    rw [VctrVal.lowIdx, VctrVal.lowIdx]
    split
    · rfl
    · next hlen =>
      have hle : ¬ u32 (j + 1 + 2 ^ 32 - (j - w.memoLen)) > w.memoLen := by
        intro hgt
        refine hmoves ⟨hlen, he, ?_⟩
        rw [hidx, hmin, VctrVal.lowIdx, if_neg hlen]
        exact hgt
      unfold u32 at hle
      omega

/-- The window is never wider than `memo_len`. -/
theorem filling_not_moves (hj : j < 2 ^ 32) : ¬ (v.filling r j).Moves (v.filling r j).maxChnkIdx := by
  rintro ⟨hlen, -, hgt⟩
  have hlen' : v.memoLen ≠ 0 := hlen
  simp only [VctrVal.filling, VctrVal.lowIdx, if_neg hlen'] at hgt
  unfold u32 at hgt
  omega

section Round

variable (h : Filling s t u v r j) (hu : u ≠ 0) (hsize : v.chnkSize ≠ 0) (hmax : 0 < v.maxNumInChnk)
  (hj : j * v.maxNumInChnk < r) (hr : r < 2 ^ 32)
include h hu hsize hmax hj hr

/-- Nothing changes until the chunk is entered. -/
theorem Filling.ends_take : Ends (putChunkTake u (emptyCmem v) (v.share r j)) t
    (fun p t' => t' = t ∧ p.vctr = v.filling r j ∧ p.idx = j ∧ p.size = v.chnkSize ∧
      p.l1Mem = none) fun _ _ => False := by
  have hjr : j ≤ j * v.maxNumInChnk := Nat.le_mul_of_pos_right j hmax
  have hshare : ¬ v.share r j = 0 := by rw [VctrVal.share]; omega
  have hle : ¬ v.share r j > (v.filling r j).maxNumInChnk := Nat.not_lt.mpr (Nat.min_le_left _ _)
  have hnum : (v.filling r j).numElements = j * v.maxNumInChnk := Nat.min_eq_left (Nat.le_of_lt hj)
  have heov : ¬ (v.filling r j).isEov = true := by
    rw [show (v.filling r j).isEov = false from decide_eq_false (by omega)]
    decide
  have hu32 : u32 (emptyCmem v).size = v.chnkSize := Nat.mod_mod _ _
  have hsize' : ¬ u32 (emptyCmem v).size = 0 := by rw [hu32]; exact hsize
  have hsame : ¬ ((v.filling r j).qtype ≠ .B1 ∧
      u32 (emptyCmem v).size ≠ (v.filling r j).chnkSize) := fun hne => hne.2 hu32
  have hwhole : ¬ (v.filling r j).numElements / (v.filling r j).maxNumInChnk *
      (v.filling r j).maxNumInChnk ≠ (v.filling r j).numElements := by
    rw [hnum, show (v.filling r j).maxNumInChnk = v.maxNumInChnk from rfl,
      Nat.mul_div_cancel _ hmax]
    exact fun hne => hne rfl
  have hidx : (if (v.filling r j).numElements = 0 then 0
      else u32 ((v.filling r j).maxChnkIdx + 1)) = j := by
    rw [hnum, show (v.filling r j).maxChnkIdx = j - 1 from rfl]
    by_cases h0 : j = 0
    · rw [h0, Nat.zero_mul, if_pos rfl]
    · rw [if_neg (Nat.ne_of_gt (Nat.mul_pos (Nat.pos_of_ne_zero h0) hmax)), u32_eq (by omega)]
      omega
  have hmemo : Ends (onlyIf (v.share r j < (v.filling r j).maxNumInChnk) (vctrMemo u)) t
      (fun _ t' => t' = t) fun _ _ => False := by
    rw [ends_onlyIf]
    exact ⟨fun _ => ends_vctrMemo_idle h.found (filling_not_moves (by omega)), fun _ => rfl⟩
  rw [putChunkTake]
  simp only [ends_bind, ends_byeIf_neg hu, ends_byeIf_neg hshare, ends_getVctr_of h.found,
    ends_byeIf_neg heov, ends_byeIf_neg hle, ends_byeIf_neg hsize', ends_byeIf_neg hsame,
    ends_byeIf_neg hwhole]
  refine hmemo.imp ?_ fun _ _ => id
  rintro - _ rfl
  simp only [ends_getVctr_of h.found, hidx, takeOver, emptyCmem, if_true, ends_bind, ends_pure]
  exact ⟨rfl, trivial, trivial, hu32, trivial⟩

/-- **One round** of the loop enters the next chunk. -/
theorem Filling.ends_put : Ends (do let _ ← vctrPutChunk u (emptyCmem v) (v.share r j)) t
    (fun _ t' => Filling s t' u v r (j + 1)) fun _ _ => False := by
  have hjr : j ≤ j * v.maxNumInChnk := Nat.le_mul_of_pos_right j hmax
  have hnum : (v.filling r j).numElements = j * v.maxNumInChnk := Nat.min_eq_left (Nat.le_of_lt hj)
  have hshare : j * v.maxNumInChnk + v.share r j = min ((j + 1) * v.maxNumInChnk) r := by
    rw [VctrVal.share, Nat.add_mul, Nat.one_mul]
    omega
  rw [vctrPutChunk]
  simp only [ends_bind]
  refine (h.ends_take hu hsize hmax hj hr).imp ?_ fun _ _ => id
  rintro ⟨vctr, idx, size, l1Mem, cmem⟩ t ⟨rfl, hvctr, hidx, hsz, hmem⟩
  simp only at hvctr hidx hsz hmem
  subst vctr idx size l1Mem
  -- the chunks before `vctr_memo` passes
  obtain ⟨t1, ht1⟩ : ∃ t1, t1 = (t.setChnk u j (putChnk v v.chnkSize none (v.share r j))).setVctr u
      (v.entering r j) := ⟨_, rfl⟩
  have hchnks : ∀ i, t1.chnks (u, i) = if v.lowIdx j ≤ i ∧ i < j + 1 then
      some (putChnk v v.chnkSize none (v.share r i)) else none := by
    intro i
    rw [ht1, St.setVctr_chnks]
    by_cases hi : i = j
    · have hlow : v.lowIdx j ≤ j := by
        rw [VctrVal.lowIdx]
        split <;> omega
      rw [hi, St.setChnk_self, if_pos ⟨hlow, Nat.lt_succ_self j⟩]
    · rw [St.setChnk_of_ne (by simp [hi]), h.chnks]
      split <;> split <;> first | rfl | omega
  have hfound : t1.vctrs u = some (v.entering r j) := by
    rw [ht1]
    exact St.setVctr_self
  have hmemo := ends_vctrMemo_bare (j := j) hfound (decide_eq_false (by omega)) rfl rfl (by omega)
    fun i hlo hhi => ⟨_, by rw [hchnks, if_pos ⟨hlo, by omega⟩], putChnk_bare _ _⟩
  simp only [putChunkEnter, ends_bind, ends_setChnk]
  rw [ends_modVctr_of (v := v.filling r j) (by exact h.found), hnum, hshare]
  have hfs : t1.fs = s.fs := by
    rw [ht1]
    exact h.fs
  rw [ht1] at hmemo
  refine hmemo.imp ?_ fun _ _ => id
  rintro - t' ⟨hv', hc', hfs'⟩
  rw [ends_modVctr_of hv']
  refine ⟨St.setVctr_self.trans ?_, fun i => ?_, ?_⟩
  · have heov : decide (v.share r j < v.maxNumInChnk) = decide (r < (j + 1) * v.maxNumInChnk) := by
      rw [decide_eq_decide, VctrVal.share, Nat.add_mul, Nat.one_mul]
      omega
    exact congrArg (fun b => some { v with
      numElements := min ((j + 1) * v.maxNumInChnk) r, minChnkIdx := v.lowIdx (j + 1),
      maxChnkIdx := j, isEov := b }) heov
  · have hlow : v.lowIdx j ≤ v.lowIdx (j + 1) := by
      rw [VctrVal.lowIdx, VctrVal.lowIdx]
      split <;> omega
    have hlow' : ∀ k, (v.entering r j).lowIdx k = v.lowIdx k := fun _ => rfl
    rw [St.setVctr_chnks, hc', ← ht1, hchnks, hlow', hlow']
    split
    · rw [if_neg (by omega)]
    · split
      · rw [if_pos (by omega)]
      · rw [if_neg (by omega)]
  · rw [← hfs, ht1]
    exact hfs'

end Round

/-- **The loop** enters `k` chunks more, unless it runs out of elements before. -/
theorem Filling.ends_loop (h : Filling s t u v r j) (hu : u ≠ 0) (hsize : v.chnkSize ≠ 0)
    (hmax : 0 < v.maxNumInChnk) (hr : r < 2 ^ 32)
    (hj : 0 < j → (j - 1) * v.maxNumInChnk < r) (st : Int) :
    Ends (setLmaLoop u v k (r - j * v.maxNumInChnk) st) t
      (fun st' t' => st' = (if k = 0 then st else 0) ∧ Filling s t' u v r (j + k) ∧
        (0 < j + k → (j + k - 1) * v.maxNumInChnk < r))
      fun e t' => e = .bye (-1) ∧ ∃ j', j' < j + k ∧ r ≤ j' * v.maxNumInChnk ∧
        (0 < j' → (j' - 1) * v.maxNumInChnk < r) ∧ Filling s t' u v r j' := by
  induction k generalizing t j st with
  | zero => exact ⟨rfl, h, hj⟩
  | succ k ih =>
      rw [setLmaLoop, ends_bind, ends_byeIf]
      constructor
      · intro h0
        exact ⟨rfl, j, by omega, by omega, hj, h⟩
      · intro h0
        have hlt : j * v.maxNumInChnk < r := by omega
        rw [ends_bind, ends_statusOf]
        refine (h.ends_put hu hsize hmax hlt hr).imp ?_ fun _ _ => False.elim
        rintro - t' ht'
        have hrest : r - j * v.maxNumInChnk - min v.maxNumInChnk (r - j * v.maxNumInChnk) =
            r - (j + 1) * v.maxNumInChnk := by
          rw [Nat.add_mul, Nat.one_mul]
          omega
        rw [hrest, if_neg (Nat.succ_ne_zero k), show j + (k + 1) = j + 1 + k by omega]
        refine (ih ht' (fun _ => by rwa [Nat.add_sub_cancel]) 0).imp ?_ fun _ _ => id
        rintro st' t'' ⟨hst, ht'', hlast⟩
        exact ⟨by rw [hst, ite_self], ht'', hlast⟩

/-- `vctr_put_chunk` refuses the id 0, and a chunk of no bytes. -/
theorem ends_vctrPutChunk_refused (h : u = 0 ∨ v.chnkSize = 0) (n : Nat) :
    Ends (do let _ ← vctrPutChunk u (emptyCmem v) n : M Unit) t (fun _ _ => False)
      fun e t' => e = .bye (-1) ∧ t' = t := by
  have hsize : u ≠ 0 → u32 (emptyCmem v).size = 0 := by
    intro hu
    rw [emptyCmem, h.resolve_left hu]
    rfl
  rw [vctrPutChunk, putChunkTake]
  generalize hE : (fun (e : Err) (t' : St) => e = .bye (-1) ∧ t' = t) = E
  have hfail : E (.bye (-1)) t := by
    rw [← hE]
    exact ⟨rfl, rfl⟩
  simp only [ends_bind, ends_byeIf, ends_getVctr, hfail, implies_true, true_and]
  intro hu _ w _ _ _ hsize0
  exact absurd (hsize hu) hsize0

/-- The loop does nothing where no chunk is taken. -/
theorem ends_setLmaLoop_refused (h : u = 0 ∨ v.chnkSize = 0) (hmax : 0 < v.maxNumInChnk) (st : Int) :
    Ends (setLmaLoop u v k r st) t
      (fun st' t' => t' = t ∧ st' = (if k = 0 then st else -1) ∧
        (0 < k → (k - 1) * v.maxNumInChnk < r))
      fun e t' => e = .bye (-1) ∧ t' = t ∧ 0 < k ∧ r ≤ (k - 1) * v.maxNumInChnk := by
  induction k generalizing r st with
  | zero => exact ⟨rfl, rfl, fun h => absurd h (Nat.lt_irrefl 0)⟩
  | succ k ih =>
      rw [setLmaLoop, ends_bind, ends_byeIf, Nat.add_sub_cancel]
      constructor
      · intro h0
        exact ⟨rfl, rfl, Nat.succ_pos k, by omega⟩
      · intro h0
        rw [ends_bind, ends_statusOf]
        refine (ends_vctrPutChunk_refused h _).imp (fun _ _ => False.elim) ?_
        rintro _ _ ⟨rfl, rfl⟩
        rw [if_neg (Nat.succ_ne_zero k)]
        refine (ih (-1)).imp ?_ ?_
        · rintro st' t' ⟨rfl, hst, hlast⟩
          refine ⟨rfl, by rw [hst, ite_self], fun _ => ?_⟩
          cases k with
          | zero => omega
          | succ k =>
              have := hlast (Nat.succ_pos k)
              rw [Nat.add_sub_cancel] at this
              rw [Nat.add_mul, Nat.one_mul]
              omega
        · rintro e t' ⟨he, ht', hk, hle⟩
          refine ⟨he, ht', Nat.succ_pos k, ?_⟩
          obtain ⟨k, rfl⟩ := Nat.exists_eq_succ_of_ne_zero (Nat.ne_of_gt hk)
          rw [Nat.succ_eq_add_one, Nat.add_sub_cancel] at hle
          rw [Nat.succ_eq_add_one, Nat.add_mul, Nat.one_mul]
          omega

/-- The number of chunks, where it fits `uint32_t`. -/
theorem lmaChnks_spec {M : Nat} (hM : 0 < M) (hnum : num < 2 ^ 32) (hpos : 0 < num) :
    num ≤ lmaChnks M num * M ∧ 0 < lmaChnks M num ∧ (lmaChnks M num - 1) * M < num := by
  have hmul := Nat.div_mul_le_self num M
  have hlt := Nat.lt_div_mul_add (a := num) hM
  have hdiv := Nat.div_le_self num M
  rw [lmaChnks, u32_eq (show num / M < 2 ^ 32 by omega),
    u32_eq (show num / M * M < 2 ^ 32 by omega)]
  split
  · next heq =>
    have hq : 0 < num / M := by
      refine Nat.pos_of_ne_zero fun h0 => ?_
      rw [h0, Nat.zero_mul] at heq
      omega
    refine ⟨heq.ge, hq, ?_⟩
    rw [Nat.sub_mul, heq, Nat.one_mul]
    omega
  · next hne =>
    -- a chunk holds two elements at least, so one chunk more can be counted
    have htwo : 2 ≤ M := by
      by_contra hone
      obtain rfl : M = 1 := by omega
      rw [Nat.div_one, Nat.mul_one] at hne
      exact hne rfl
    have hhalf : num / M ≤ num / 2 := Nat.div_le_div_left htwo (by decide)
    have hcount : num / M + 1 < 2 ^ 32 := by
      generalize num / M = q at hhalf ⊢
      omega
    rw [u32_eq hcount, Nat.add_sub_cancel, Nat.add_mul, Nat.one_mul]
    exact ⟨Nat.le_of_lt hlt, Nat.succ_pos _, Nat.lt_of_le_of_ne hmul hne⟩

/-! ## reading the elements -/

/-- **Reading an element** of the linear file: it is the record of the file, unless the type has
no read of one element or the file is too short. -/
theorem ends_vctrGet1_lma (hv : t.vctrs u = some w) (hl : w.isLma = true) (hr : w.numReaders = 0)
    (hw : w.numWriters = 0) (hfile : t.fs.read (lmaFile u) = some bs) (hne : bs ≠ [])
    (hi : i < w.numElements) :
    Ends (vctrGet1 u i) t
      (fun x _ => x = w.elem bs i ∧ w.qtype ≠ .SC ∧ w.qtype ≠ .B1)
      fun _ _ => w.qtype = .SC ∨ w.qtype = .B1 ∨ bs.length < w.width * i + w.width := by
  have hi' : ¬ i ≥ w.numElements := Nat.not_le.mpr hi
  have hl' : ¬ w.isLma = false := by rw [hl]; decide
  have hw' : ¬ w.numWriters ≠ 0 := not_not.mpr hw
  rw [vctrGet1, ends_bind, ends_getVctr_of hv, ends_bind, ends_byeIf_neg hi', if_pos hl, vctrGet1Lma]
  simp only [ends_bind, ends_getVctr_of hv, ends_byeIf_neg hl', ends_byeIf_neg hw',
    ends_byeIf_neg hi']
  refine (ends_vctrGetLmaXnX hv hr hfile hne).imp ?_ fun _ _ => False.elim
  rintro _ t' ⟨m, rfl, hlen, hlive, hdata, w', hw', hr'⟩
  have hnX : nX (some m) = bs.length := hlen
  simp only [ends_byeIf, hnX, ends_readMapping, hlive, if_true, hdata, ends_slice]
  refine ⟨.inl, fun hsc => ⟨fun hb => .inr (.inl hb), fun hb => ⟨fun hlt => .inr (.inr hlt),
    fun hin => ⟨fun _ => ?_, fun hout => absurd (Nat.not_lt.mp hin) hout⟩⟩⟩⟩
  rw [vctrUngetLmaXnX, ends_bind, ends_getVctr_of hw', ends_bind, ends_byeIf_neg hr',
    decrNumReaders, ends_bind, ends_getVctr_of hw', ends_setVctr, ends_pure]
  exact ⟨rfl, hsc, hb⟩

/-! ## the call -/

/-- The chunks are as many as the elements take, the file has as many records, and they can be
read one by one; and no chunk falls out of a memo window. -/
structure LmaExact (u : Nat) (v : VctrVal) (bs : List UInt8) (num : Nat) : Prop where
  uqid : u ≠ 0
  size : v.chnkSize ≠ 0
  num_lt : num < 2 ^ 32
  file : v.width * num = bs.length
  type : v.qtype ≠ .SC ∧ v.qtype ≠ .B1
  memo : v.memoLen = 0 ∨ num ≤ v.memoLen * v.maxNumInChnk

/-- The loop runs out of elements before it has entered a chunk. -/
structure LmaStops (u : Nat) (v : VctrVal) (num : Nat) : Prop where
  some_chnk : 0 < lmaChnks v.maxNumInChnk num
  out : u32 num ≤ (lmaChnks v.maxNumInChnk num - 1) * v.maxNumInChnk
  none_put : u32 num = 0 ∨ u = 0 ∨ v.chnkSize = 0

/-- Where all tests are passed, the file is exact or the loop stops. -/
def SetLmaFits (oneFs : Bool) (u : Nat) (f : FileName) (n : Nat) (s : St) : Prop :=
  ∀ v bs, LmaAccepts oneFs s u v f n bs →
    LmaExact u v bs (lmaNum v bs n) ∨ LmaStops u v (lmaNum v bs n)

/-- What is owed of a call that returns. -/
def LmaDone (u : Nat) (f : FileName) (n : Nat) (s t : St) : Prop :=
  ∃ v bs, s.vctrs u = some v ∧ s.fs.read f = some bs ∧ MadeOf t u v bs (lmaNum v bs n)

/-- What is owed of a call that fails. -/
def LmaFailed (u : Nat) (s : St) (e : Err) (t : St) : Prop :=
  match e with
  | .bye _ => t.vctrs u = s.vctrs u ∧ ∀ i, t.chnks (u, i) = s.chnks (u, i)
  | .ub => False

theorem setLmaRight_iff_ends : SetLmaRight oneFs u f n s ↔
    Ends (vctrSetLma oneFs u f n) s (fun _ t => LmaDone u f n s t) (LmaFailed u s) := by
  rw [SetLmaRight, Ends]
  cases vctrSetLma oneFs u f n s with
  | ok a t => rfl
  | error e t => cases e <;> rfl

/-- The loop starts at an empty vector, with a file under the name of its linear file. -/
structure LmaReady (s t : St) (u : Nat) (v : VctrVal) (bs : List UInt8) (num : Nat) : Prop where
  found : s.vctrs u = some v
  unfilled : Unfilled s u v
  empty : v.numElements = 0
  isLma : v.isLma = false
  readers : v.numReaders = 0
  writers : v.numWriters = 0
  opened : LmaOpened s t u bs
  ne_nil : bs ≠ []
  pos : 0 < num
  size : num < 2 ^ 32 → bs.length ≤ v.width * num

/-- The vector's entry in the end. -/
def VctrVal.made (v : VctrVal) (num : Nat) : VctrVal :=
  { v with isLma := true, numElements := num, isEov := true }

namespace LmaReady

variable (h : LmaReady s t u v bs num)
include h

theorem filling : Filling t t u v (u32 num) 0 :=
  Unfilled.filling ⟨h.unfilled.isEov, h.unfilled.minIdx, h.unfilled.maxIdx, h.unfilled.max_pos,
    h.unfilled.max_lt, fun i => by rw [h.opened.chnks]; exact h.unfilled.chnks i⟩
    (by rw [h.opened.vctrs]; exact h.found) h.empty _

/-- The reads of a vector whose chunks were entered. -/
theorem ends_get {t2 : St} (ht : Filling t t2 u v r k) (hi : i < num) :
    Ends (vctrGet1 u i) (t2.setVctr u ((v.filling r k).made num))
      (fun x _ => x = v.elem bs i ∧ v.qtype ≠ .SC ∧ v.qtype ≠ .B1)
      fun _ _ => v.qtype = .SC ∨ v.qtype = .B1 ∨ bs.length < v.width * i + v.width :=
  ends_vctrGet1_lma (w := (v.filling r k).made num) St.setVctr_self rfl h.readers h.writers
    (by rw [St.setVctr_fs, ht.fs]; exact h.opened.file) h.ne_nil hi

/-- The chunks that are there are as many as the elements take, only if nothing wrapped round. -/
theorem exact_of_made {t2 : St} (hu : u ≠ 0) (hsize : v.chnkSize ≠ 0)
    (ht : Filling t t2 u v (u32 num) k) (hk : 0 < k → (k - 1) * v.maxNumInChnk < u32 num)
    (hm : MadeOf (t2.setVctr u ((v.filling (u32 num) k).made num)) u v bs num) :
    LmaExact u v bs num := by
  have hmax := h.unfilled.max_lt
  have hr : u32 num < 2 ^ 32 := Nat.mod_lt _ (by decide)
  have htable : ∀ i, (v.lowIdx k ≤ i ∧ i < k) ↔ i * v.maxNumInChnk < num := by
    intro i
    rw [← hm.table i, St.setVctr_chnks, ht.chnks]
    split
    · next hin => exact iff_of_true hin rfl
    · next hout => exact iff_of_false hout (by simp)
  have hlast : num ≤ k * v.maxNumInChnk := by
    by_contra hlt
    have := (htable k).mpr (Nat.not_le.mp hlt)
    omega
  have hk0 : 0 < k := by
    refine Nat.pos_of_ne_zero fun h0 => ?_
    rw [h0, Nat.zero_mul] at hlast
    have := h.pos
    omega
  have hprev := hk hk0
  have hnum : num < 2 ^ 32 := by
    -- the chunk before the last would end below `2^32`, and the last one at `2^32` or above
    by_contra hge
    have hmul : k * v.maxNumInChnk = (k - 1) * v.maxNumInChnk + v.maxNumInChnk := by
      rw [← Nat.succ_mul, Nat.succ_eq_add_one, Nat.sub_add_cancel hk0]
    have hsplit : num = 2 ^ 32 * (num / 2 ^ 32) + u32 num := (Nat.div_add_mod num (2 ^ 32)).symm
    omega
  obtain ⟨t', hget⟩ := hm.get 0 h.pos
  have htype := ((h.ends_get ht h.pos).of_ok hget).2
  refine ⟨hu, hsize, hnum, Nat.le_antisymm hm.size (h.size hnum), htype, ?_⟩
  have hlow := ((htable 0).mpr (by rw [Nat.zero_mul]; exact h.pos)).1
  by_cases hmemo : v.memoLen = 0
  · exact .inl hmemo
  · rw [VctrVal.lowIdx, if_neg hmemo] at hlow
    exact .inr (Nat.le_trans hlast (Nat.mul_le_mul_right _ (by omega)))

/-- Where nothing wrapped round and the file is exact, the vector is made of it. -/
theorem made_of_exact {t2 : St} (he : LmaExact u v bs num)
    (ht : Filling t t2 u v (u32 num) (lmaChnks v.maxNumInChnk num)) :
    MadeOf (t2.setVctr u ((v.filling (u32 num) (lmaChnks v.maxNumInChnk num)).made num)) u v bs
      num := by
  obtain ⟨hle, hk0, hprev⟩ := lmaChnks_spec h.unfilled.max_pos he.num_lt h.pos
  generalize lmaChnks v.maxNumInChnk num = k at hle hk0 hprev ht ⊢
  rw [u32_eq he.num_lt] at ht ⊢
  have hlow : v.lowIdx k = 0 := by
    rw [VctrVal.lowIdx]
    split
    · rfl
    · next hmemo =>
      have hlt : k - 1 < v.memoLen := Nat.lt_of_mul_lt_mul_right
        (Nat.lt_of_lt_of_le hprev (he.memo.resolve_left hmemo))
      omega
  have hin : ∀ i, i < k ↔ i * v.maxNumInChnk < num := by
    intro i
    constructor
    · intro hi
      exact Nat.lt_of_le_of_lt (Nat.mul_le_mul_right _ (by omega)) hprev
    · intro hi
      exact Nat.lt_of_mul_lt_mul_right (Nat.lt_of_lt_of_le hi hle)
  have hchnks : ∀ i, (t2.setVctr u ((v.filling num k).made num)).chnks (u, i) =
      if i * v.maxNumInChnk < num then some (putChnk v v.chnkSize none (v.share num i)) else none := by
    intro i
    rw [St.setVctr_chnks, ht.chnks, hlow]
    simp only [Nat.zero_le, true_and, hin]
  have hcount : ∀ i, chnkCount (t2.setVctr u ((v.filling num k).made num)) u i =
      min v.maxNumInChnk (num - i * v.maxNumInChnk) := by
    intro i
    rw [chnkCount, hchnks]
    split
    · rfl
    · rw [show num - i * v.maxNumInChnk = 0 by omega, Nat.min_zero]
      rfl
  refine ⟨Nat.le_of_eq he.file, ⟨_, St.setVctr_self, rfl, rfl⟩, fun i => ?_, fun i hi => ?_,
    fun k' hk' => ?_, fun i hi => ?_⟩
  · rw [hchnks]
    split
    · next hlt => exact iff_of_true rfl hlt
    · next hlt => exact iff_of_false (by simp) hlt
  · rw [Nat.add_mul, Nat.one_mul] at hi
    rw [hcount]
    omega
  · rw [Finset.sum_congr rfl fun i _ => hcount i, sum_min_page]
    exact Nat.min_eq_left hk'
  · have hrecord : ¬ bs.length < v.width * i + v.width := by
      rw [← he.file, ← Nat.mul_succ]
      exact Nat.not_lt.mpr (Nat.mul_le_mul_left _ hi)
    obtain ⟨x, t', hx, rfl, -⟩ := ((h.ends_get ht hi).imp (fun _ _ => id) fun _ _ hbad => by
      rcases hbad with hsc | hb | hlt
      · exact absurd hsc he.type.1
      · exact absurd hb he.type.2
      · exact absurd hlt hrecord).returns
    exact ⟨t', hx⟩

/-- Where no chunk is taken, the loop must run out of elements. -/
theorem ends_enter_refused (hput : u = 0 ∨ v.chnkSize = 0) : Ends (setLmaEnter u v num) t
    (fun _ t' => MadeOf t' u v bs num ↔ LmaExact u v bs num ∨ LmaStops u v num)
    fun e t' => LmaFailed u s e t' ↔ LmaExact u v bs num ∨ LmaStops u v num := by
  have hv : t.vctrs u = some v := by rw [h.opened.vctrs]; exact h.found
  have hno : ¬ LmaExact u v bs num := fun he => hput.elim he.uqid he.size
  rw [setLmaEnter, ends_bind]
  refine (ends_setLmaLoop_refused hput h.unfilled.max_pos 0).imp ?_ ?_
  · rintro st _ ⟨rfl, rfl, hlast⟩
    have hno' : ¬ LmaStops u v num := fun hs =>
      Nat.not_le.mpr (hlast hs.some_chnk) hs.out
    rw [ends_bind, ends_modVctr_of hv]
    split
    · -- no chunk at all, for a vector with elements
      rw [if_neg (by decide), ends_pure]
      refine iff_of_false (fun hm => ?_) fun h => h.elim hno hno'
      have hfirst := (hm.table 0).mpr (by rw [Nat.zero_mul]; exact h.pos)
      rw [St.setVctr_chnks, h.opened.chnks, h.unfilled.chnks] at hfirst
      contradiction
    · rw [if_pos (by decide), ends_throw]
      refine iff_of_false (fun hf => ?_) fun h => h.elim hno hno'
      have hsame := hf.1
      rw [St.setVctr_self, h.found, Option.some.injEq] at hsame
      have hl := h.isLma
      rw [← hsame] at hl
      contradiction
  · rintro _ _ ⟨rfl, rfl, hk, hout⟩
    refine iff_of_true ⟨by rw [h.opened.vctrs], fun i => by rw [h.opened.chnks]⟩ (.inr ⟨hk, hout, ?_⟩)
    exact .inr hput

/-- Where chunks are taken, the loop must not run out of them half way. -/
theorem ends_enter_filling (hu : u ≠ 0) (hsize : v.chnkSize ≠ 0) : Ends (setLmaEnter u v num) t
    (fun _ t' => MadeOf t' u v bs num ↔ LmaExact u v bs num ∨ LmaStops u v num)
    fun e t' => LmaFailed u s e t' ↔ LmaExact u v bs num ∨ LmaStops u v num := by
  have hloop := h.filling.ends_loop (k := lmaChnks v.maxNumInChnk num) hu hsize h.unfilled.max_pos
    (Nat.mod_lt _ (by decide)) (fun h0 => absurd h0 (Nat.lt_irrefl 0)) 0
  rw [Nat.zero_mul, Nat.sub_zero, Nat.zero_add] at hloop
  rw [setLmaEnter, ends_bind]
  refine hloop.imp ?_ ?_
  · rintro st t2 ⟨hst, ht, hlast⟩
    have hno : ¬ LmaStops u v num := fun hs => Nat.not_le.mpr (hlast hs.some_chnk) hs.out
    rw [ite_self] at hst
    rw [ends_bind, ends_modVctr_of ht.found, if_neg (by rw [hst]; decide), ends_pure]
    exact ⟨fun hm => .inl (h.exact_of_made hu hsize ht hlast hm), fun hc =>
      h.made_of_exact (hc.resolve_right hno) ht⟩
  · rintro _ t2 ⟨rfl, j, hj, hout, hprev, ht⟩
    have hsome : 0 < lmaChnks v.maxNumInChnk num := by omega
    have hend : u32 num ≤ (lmaChnks v.maxNumInChnk num - 1) * v.maxNumInChnk :=
      Nat.le_trans hout (Nat.mul_le_mul_right _ (by omega))
    by_cases h0 : u32 num = 0
    · -- nothing to put, so nothing was put
      obtain rfl : j = 0 := by
        by_contra hj0
        have := hprev (Nat.pos_of_ne_zero hj0)
        omega
      refine iff_of_true ⟨?_, fun i => ?_⟩ (.inr ⟨hsome, hend, .inl h0⟩)
      · rw [ht.found, ← h.filling.found, h.opened.vctrs]
      · rw [ht.chnks, ← h.filling.chnks, h.opened.chnks]
    · refine iff_of_false (fun hf => ?_) ?_
      · have hsame := hf.1
        rw [ht.found, h.found, Option.some.injEq] at hsame
        have hnum : v.numElements = u32 num := by
          rw [← hsame]
          exact Nat.min_eq_right hout
        exact h0 (hnum.symm.trans h.empty)
      · rintro (he | hs)
        · have hspec := (lmaChnks_spec h.unfilled.max_pos he.num_lt h.pos).2.2
          rw [u32_eq he.num_lt] at hend
          omega
        · exact hs.none_put.elim h0 fun hput => hput.elim hu hsize

theorem ends_enter : Ends (setLmaEnter u v num) t
    (fun _ t' => MadeOf t' u v bs num ↔ LmaExact u v bs num ∨ LmaStops u v num)
    fun e t' => LmaFailed u s e t' ↔ LmaExact u v bs num ∨ LmaStops u v num := by
  by_cases hput : u = 0 ∨ v.chnkSize = 0
  · exact h.ends_enter_refused hput
  · rw [not_or] at hput
    exact h.ends_enter_filling hput.1 hput.2

end LmaReady

theorem LmaAccepts.ready (h : LmaAccepts oneFs s u v f n bs) (hun : Unfilled s u v)
    (ht : LmaOpened s t u bs) : LmaReady s t u v bs (lmaNum v bs n) where
  found := h.found
  unfilled := hun
  empty := h.empty
  isLma := h.isLma
  readers := h.readers
  writers := h.writers
  opened := ht
  ne_nil := List.length_pos_iff.mp h.pos
  pos := by
    rw [lmaNum]
    split
    · next hn =>
      refine Nat.pos_of_ne_zero fun h0 => ?_
      have hwhole := h.whole hn
      rw [h0, Nat.zero_mul] at hwhole
      exact Nat.ne_of_lt h.pos hwhole
    · next hn => exact Nat.pos_of_ne_zero hn
  size _ := by
    rw [lmaNum]
    split
    · next hn => rw [Nat.mul_comm, h.whole hn]
    · next hn =>
      rw [Nat.mul_comm]
      exact Nat.le_trans (h.size hn) (Nat.mod_le _ _)

/-- **When `vctr_set_lma` does what it owes**: where a test fails, where the file has exactly the
elements asked for and they can be read, and where the loop stops before its first chunk. -/
theorem setLmaRight_iff (hempty : ∀ v, s.vctrs u = some v → v.numElements = 0 → Unfilled s u v) :
    SetLmaRight oneFs u f n s ↔ SetLmaFits oneFs u f n s := by
  rw [setLmaRight_iff_ends]
  refine Ends.iff_of ?_
  rw [vctrSetLma, ends_bind]
  refine (ends_setLmaOpen fun v hv h0 => (hempty v hv h0).max_pos).imp ?_ ?_
  · rintro _ t ⟨v, bs, rfl, ha, ht⟩
    have hone : ∀ v' bs', s.vctrs u = some v' → s.fs.read f = some bs' → v' = v ∧ bs' = bs := by
      intro v' bs' hv' hbs'
      exact ⟨Option.some.inj (hv'.symm.trans ha.found), Option.some.inj (hbs'.symm.trans ha.file)⟩
    have hfits : SetLmaFits oneFs u f n s ↔
        LmaExact u v bs (lmaNum v bs n) ∨ LmaStops u v (lmaNum v bs n) := by
      refine ⟨fun h => h v bs ha, fun h v' bs' ha' => ?_⟩
      obtain ⟨rfl, rfl⟩ := hone v' bs' ha'.found ha'.file
      exact h
    have hdone : ∀ t', LmaDone u f n s t' ↔ MadeOf t' u v bs (lmaNum v bs n) := by
      intro t'
      refine ⟨?_, fun hm => ⟨v, bs, ha.found, ha.file, hm⟩⟩
      rintro ⟨v', bs', hv', hbs', hm⟩
      obtain ⟨rfl, rfl⟩ := hone v' bs' hv' hbs'
      exact hm
    simp only [hfits, hdone]
    exact (ha.ready (hempty v ha.found ha.empty) ht).ends_enter
  · rintro _ t ⟨rfl, hv, hc, hno⟩
    exact iff_of_true ⟨by rw [hv], fun i => by rw [hc]⟩ fun v bs ha => absurd ha (hno v bs)

/-- What `vctr_add` enters is an empty vector. -/
theorem AddArgs.Ok.unfilled {a : AddArgs} (h : a.Ok) (hlt : a.maxOf < 2 ^ 32)
    (hc : ∀ i, s.chnks (u, i) = none) : Unfilled s u a.entry :=
  ⟨rfl, rfl, rfl, h.max_pos, hlt, hc⟩

/-- A new vector of bytes, and a file of three. -/
def threeBytes : St :=
  (added (plainArgs .I1 0)).setFs (Fs.empty.write (.other "data") [1, 2, 3])

theorem threeBytes_vctr (h : threeBytes.vctrs 1 = some v) : v = (plainArgs .I1 0).entry :=
  (Option.some.inj h).symm

theorem setLmaRight_iff_three : SetLmaRight true 1 (.other "data") 0 threeBytes ↔
    SetLmaFits true 1 (.other "data") 0 threeBytes :=
  setLmaRight_iff fun v hv _ => by
    rw [threeBytes_vctr hv]
    exact AddArgs.Ok.unfilled ⟨.inr ⟨rfl, rfl⟩, by decide, by decide, fun _ => by decide⟩ (by decide)
      fun _ => rfl

/-- The three bytes are taken for four elements. -/
theorem setLmaRight_fails : ¬ SetLmaRight true 1 (.other "data") 4 threeBytes := by
  rw [setLmaRight_iff_ends]
  intro h
  obtain ⟨v, bs, hv, hbs, hm⟩ := h.of_ok (run_of_outcome_ok (a := ()) (by decide +kernel))
  have hfile : threeBytes.fs.read (.other "data") = some [1, 2, 3] := Fs.read_write_self _
  have hsize := hm.size
  rw [threeBytes_vctr hv, ← Option.some.inj (hfile.symm.trans hbs)] at hsize
  exact absurd hsize (by decide)

end QStore.Vctr
