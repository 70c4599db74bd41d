import QStore.Lib.Decides
import QStore.Vctr.Marked
import QStore.Vctr.Setters

/-!
# QStore.Vctr.VctrChk

`vctr_chk` (`vctr_chk.c`), with which the tests look over a vector: its type and width, its flags,
the readers of its linear file, and then each of its chunks.

```
chunk 0   readers 0
chunk 1   readers 1     handed out, and not given back: -1
```

It finds fault with a vector while one of its chunks is handed out, and for good with one whose
linear file was dropped under its readers. With a vector that was filled, ended and moved about it
finds no other (`tierRun_vctrChk`). `num_elements` as the chunks have it is added up and not looked
at.
-/

namespace QStore.Vctr

section Model

/-- An `uint32_t` as an `int`. -/
def i32 (x : Nat) : Int := if x < 2 ^ 31 then x else x - 2 ^ 32

/-- `get_file_size`: there is none at `NULL`. -/
def getFileSize (f : Option FileName) : M Int := do
  match f.bind (← get).fs.read with
  | some bs => pure bs.length
  | none => pure (-1)

/-- `num_chnks` -/
def VctrVal.window (v : VctrVal) : Nat := u32 (v.maxChnkIdx + 1 + 2 ^ 32 - v.minChnkIdx)

/-- The type, which is never too large, and the width. -/
def chkQtype (v : VctrVal) : M Unit := do
  byeIf (v.qtype = .Q0)
  if v.qtype = .B1 then byeIf (v.width ≠ 0)
  else if v.qtype = .SC then byeIf (v.width < 2)
  else byeIf (getWidthCQtype v.qtype ≠ v.width)

/-- A vector without elements is one that is being made. -/
def chkEmpty (v : VctrVal) : M Unit := do
  byeIf (v.minChnkIdx ≠ 0)
  byeIf (v.maxChnkIdx ≠ 0)
  byeIf v.isEov
  byeIf v.isPersist
  byeIf v.isLma
  byeIf (v.x ≠ none)
  byeIf (nX v.x ≠ 0)

/-- How many chunks there are for the elements. The products are of 32 bits. -/
def chkWindow (v : VctrVal) : M Unit := do
  byeIf (v.minChnkIdx > v.maxChnkIdx)
  byeIf (v.numElements < u32 ((v.window + 2 ^ 32 - 1) * v.maxNumInChnk))
  byeIf (v.isMemo = false ∧ v.numElements > u32 (v.window * v.maxNumInChnk))

/-- How long the vector is kept. -/
def chkKept (v : VctrVal) : M Unit := do
  byeIf (v.isPersist ∧ v.isEarlyFreeable)
  byeIf (v.isPersist ∧ v.isKillable)
  byeIf (v.numFreeIgnore > 0 ∧ v.isPersist)
  byeIf (v.numFreeIgnore > 0 ∧ v.isEarlyFreeable = false)
  byeIf (v.numKillIgnore > 0 ∧ v.isPersist)
  byeIf (v.numKillIgnore > 0 ∧ v.isKillable = false)
  byeIf (v.isEarlyFreeable = false ∧ v.numFreeIgnore ≠ 0)
  byeIf (v.isKillable = false ∧ v.numKillIgnore ≠ 0)

/-- Who reads or writes the linear file, and whether it is mapped. -/
def chkAccess (v : VctrVal) : M Unit := do
  byeIf (v.isLma = false ∧ v.x ≠ none)
  byeIf (v.isLma = false ∧ nX v.x ≠ 0)
  byeIf (v.isLma = false ∧ v.numReaders ≠ 0)
  byeIf (v.isLma = false ∧ v.numWriters ≠ 0)
  byeIf ((v.numReaders = 0 ∧ v.numWriters = 0) ∧ v.x ≠ none)
  byeIf ((v.numReaders = 0 ∧ v.numWriters = 0) ∧ nX v.x ≠ 0)
  byeIf (v.numReaders > 0 ∧ v.numWriters ≠ 0)
  byeIf (v.numReaders > 0 ∧ v.x = none)
  byeIf (v.numReaders > 0 ∧ nX v.x = 0)
  byeIf (v.numWriters > 0 ∧ v.numReaders ≠ 0)
  byeIf (v.numWriters > 0 ∧ v.numWriters ≠ 1)
  byeIf (v.numWriters > 0 ∧ v.x = none)
  byeIf (v.numWriters > 0 ∧ nX v.x = 0)
  byeIf (v.x = none ∧ nX v.x ≠ 0)
  byeIf (v.x = none ∧ v.numReaders ≠ 0)
  byeIf (v.x = none ∧ v.numWriters ≠ 0)
  byeIf (v.x ≠ none ∧ nX v.x = 0)
  byeIf (v.x ≠ none ∧ v.isEov = false)

/-- The linear file, which has a name. -/
def chkLma (u : Nat) (v : VctrVal) : M Unit :=
  if v.isLma then do
    byeIf (v.isEov = false)
    byeIf ((← isfile (lmaFile u)) = false)
    byeIf ((← getFileSize (some (lmaFile u))) ≠ u32 (v.numElements * v.width))
  else byeIf (v.numElements > 0 ∧ v.window = 0)

/-- Without a memo no chunk is gone, and with one not more chunks are left than it has. -/
def chkMemo (v : VctrVal) : M Unit :=
  if v.isMemo = false then byeIf (v.minChnkIdx ≠ 0) else byeIf (v.window > v.memoLen)

/-- A chunk. It is not looked at whether `chnk_is` has found it. -/
def chkChnk (u : Nat) (v : VctrVal) (i : Nat) : M Unit := do
  match (← get).chnks (u, i) with
  | none => ub
  | some c => do
    byeIf (v.isEarlyFreeable ∧ c.numFreeIgnore > v.numFreeIgnore)
    byeIf (c.numReaders ≠ 0)
    byeIf (c.numWriters ≠ 0)
    byeIf (c.numReaders > 0 ∧ c.numWriters ≠ 0)
    byeIf (c.numWriters > 0 ∧ c.numReaders ≠ 0)
    byeIf (c.numElements = 0 ∨ c.numElements > v.maxNumInChnk)
    byeIf (i < v.maxChnkIdx ∧ c.numElements ≠ v.maxNumInChnk)
    byeIf (c.qtype ≠ v.qtype)
    if c.l2Exists = false then byeIf (c.l1Mem = none ∧ v.isLma = false)
    else do
      let f := l2FileName u i
      let s ← get
      byeIf (f.bind s.fs.read = none ∧ v.isLma = false)
      byeIf ((← getFileSize f) ≠ i32 (u32 (v.width * v.maxNumInChnk)))

/-- `vctr_chk`. (No chunk has the index `2^32 - 1`, which its loop would not get past.) -/
def vctrChk (u : Nat) : M Unit :=
  if u = 0 then pure ()
  else do
    let v ← getVctr u
    chkQtype v
    if v.numElements = 0 then chkEmpty v
    else do
      chkWindow v
      chkKept v
      chkAccess v
      chkLma u v
      byeIf (v.maxNumInChnk / 64 * 64 ≠ v.maxNumInChnk)
      byeIf (v.name.getD maxLenVctrName 0 ≠ 0)
      if v.isLma ∧ v.window = 0 then pure ()
      else do
        chkMemo v
        if lmaIdx ≤ v.maxChnkIdx then ub
        else forUp (chkChnk u v) v.minChnkIdx (v.maxChnkIdx + 1 - v.minChnkIdx)

end Model

variable {a : AddArgs} {s t : St} {u i n : Nat} {v w : VctrVal} {c : ChnkVal} {D : List UInt8}
  {L : List (List UInt8)} {blank : Nat → List UInt8} {C : Prop}

/-! ## what it finds -/

theorem decides_byeIf [Decidable C] : Decides (.bye (-1)) (byeIf C) s (¬ C) := by
  simp only [Decides, ends_byeIf, true_and]
  exact ⟨not_not_intro, id⟩

/-- What `vctr_chk` asks of the fields that no call changes. -/
structure VctrVal.Proper (v : VctrVal) : Prop where
  qtype : v.qtype ≠ .Q0
  plain : v.qtype ≠ .B1 ∧ v.qtype ≠ .SC
  width : v.width = getWidthCQtype v.qtype
  eov : v.isEov = true
  memo : v.isMemo = false
  persist : v.isPersist = false
  free : v.isEarlyFreeable = false → v.numFreeIgnore = 0
  kill : v.isKillable = false → v.numKillIgnore = 0
  round : v.maxNumInChnk / 64 * 64 = v.maxNumInChnk
  name : v.name = []
  size : v.width * v.maxNumInChnk < 2 ^ 31
  total : v.numElements * v.width < 2 ^ 32
  count : (v.maxChnkIdx + 1) * v.maxNumInChnk < 2 ^ 32

/-- What was handed out of the vector has been given back: the chunks, and the linear file before
it was dropped. -/
structure Returned (s : St) (u : Nat) (v : VctrVal) : Prop where
  chnks : ∀ i c, s.chnks (u, i) = some c → c.numReaders = 0
  line : v.isLma = false → v.numReaders = 0

theorem decides_chkQtype (h : v.Proper) : Decides (.bye (-1)) (chkQtype v) s True := by
  refine decides_byeIf.skip h.qtype ?_
  rw [if_neg h.plain.1, if_neg h.plain.2]
  exact decides_byeIf.congr (iff_true_intro (not_not_intro h.width.symm))

namespace Synced

theorem window_eq (h : Synced s u v D) : v.window = v.maxChnkIdx + 1 := by
  have hidx := h.names
  rw [VctrVal.window, h.first, Nat.sub_zero, u32, Nat.add_mod_right, Nat.mod_eq_of_lt (by omega)]

theorem decides_chkWindow (h : Synced s u v D) (hp : v.Proper) :
    Decides (.bye (-1)) (chkWindow v) s True := by
  have hshape := h.held.shape
  have hlo := hshape.lo
  have hcount := hp.count
  have hprev : u32 ((v.maxChnkIdx + 1 + 2 ^ 32 - 1) * v.maxNumInChnk) ≤
      v.maxChnkIdx * v.maxNumInChnk := by
    rw [show v.maxChnkIdx + 1 + 2 ^ 32 - 1 = v.maxChnkIdx + 2 ^ 32 by omega, Nat.add_mul, u32,
      Nat.add_mul_mod_self_left]
    exact Nat.mod_le _ _
  rw [chkWindow, h.window_eq, u32_eq hcount]
  refine decides_byeIf.skip (by have := hshape.min_le; omega) ?_
  refine decides_byeIf.skip (by omega) ?_
  exact decides_byeIf.congr (iff_true_intro fun hc => absurd hshape.hi (Nat.not_le.mpr hc.2))

end Synced

theorem decides_chkKept (h : v.Proper) : Decides (.bye (-1)) (chkKept v) s True := by
  have hp := h.persist
  have hf := h.free
  have hk := h.kill
  simp only [Decides, chkKept, ends_bind, ends_byeIf]
  grind

/-- The readers of a linear file that is gone are all there is to find. -/
theorem Synced.decides_chkAccess (h : Synced s u v D) (he : v.isEov = true) :
    Decides (.bye (-1)) (chkAccess v) s (v.isLma = false → v.numReaders = 0) := by
  have hw : v.numWriters = 0 := h.writers
  have hnil : nX none = 0 := rfl
  have hpos : 0 < D.length := List.length_pos_iff.mpr h.ne_nil
  by_cases hr : v.numReaders = 0
  · have hx : v.x = none := h.unmapped hr
    simp [Decides, chkAccess, ends_bind, ends_byeIf, hw, hr, hx, hnil]
  · cases hl : v.isLma with
    | false => simp [Decides, chkAccess, ends_bind, ends_byeIf, hw, hr, hl]
    | true =>
        obtain ⟨m, hx, -, hlen, -⟩ := (h.line hl).mapped hr
        have hn : nX (some m) = D.length := hlen
        simp [Decides, chkAccess, ends_bind, ends_byeIf, hw, hr, hx, hl, he, hn, h.ne_nil]

theorem Synced.decides_chkLma (h : Synced s u v D) (hp : v.Proper) :
    Decides (.bye (-1)) (chkLma u v) s True := by
  rw [chkLma]
  cases hl : v.isLma with
  | false =>
      refine decides_byeIf.congr (iff_true_intro fun hc => ?_)
      rw [h.window_eq] at hc
      exact Nat.succ_ne_zero _ hc.2
  | true =>
      have hfile := (h.line hl).file
      have hlen : D.length = u32 (v.numElements * v.width) := by
        rw [u32_eq hp.total, h.held.shape.len, Nat.mul_comm]
      simp [Decides, ends_bind, ends_byeIf, getFileSize, hp.eov, hfile, hlen]

/-- A chunk is found fault with if it is handed out. -/
theorem Synced.decides_chkChnk (h : Synced s u v D) (hp : v.Proper) (hm : Marked u v.mark s)
    (hi : i ≤ v.maxChnkIdx) (hc : s.chnks (u, i) = some c) :
    Decides (.bye (-1)) (chkChnk u v i) s (c.numReaders = 0) := by
  have hok := h.held.chnkOk hc
  have hshape := h.held.shape
  have hmark : c.mark = v.mark := hm i c hc
  have hq : c.qtype = v.qtype := congrArg Prod.fst hmark
  have hfree : c.numFreeIgnore = if v.isEarlyFreeable then v.numFreeIgnore else 0 :=
    congrArg Prod.snd hmark
  have hlen : c.numElements = min v.maxNumInChnk (v.numElements - i * v.maxNumInChnk) :=
    hok.numElements_eq hshape
  have hpos : i * v.maxNumInChnk < v.numElements :=
    Nat.lt_of_le_of_lt (Nat.mul_le_mul_right _ hi) h.last
  have hmax := hshape.max_pos
  have hw : ¬ c.numWriters ≠ 0 := fun hne => hne hok.writers
  rw [chkChnk]
  refine Ends.bind (Q := fun s' t => s' = s ∧ t = s) ⟨rfl, rfl⟩ ?_
  rintro _ _ ⟨rfl, rfl⟩
  simp only [hc]
  refine decides_byeIf.skip (fun hlt => ?_) ?_
  · rw [hfree, if_pos hlt.1] at hlt
    exact Nat.lt_irrefl _ hlt.2
  refine (decides_byeIf.bind fun hr => ?_).congr
    (show ¬ c.numReaders ≠ 0 ∧ True ↔ c.numReaders = 0 by simp)
  refine decides_byeIf.skip hw ?_
  refine decides_byeIf.skip (fun hlt => hw hlt.2) ?_
  refine decides_byeIf.skip (fun hlt => hr hlt.2) ?_
  refine decides_byeIf.skip (by rw [hlen]; omega) ?_
  refine decides_byeIf.skip (fun hlt => hlt.2 (hok.numElements_full hshape hlt.1)) ?_
  refine decides_byeIf.skip (not_not_intro hq) ?_
  split
  · next he =>
    refine decides_byeIf.congr (iff_true_intro fun hnone => ?_)
    have := hok.kept hnone.1 he
    rw [hnone.2] at this
    contradiction
  · next he =>
    obtain ⟨f, bs, hf, hread, hsize, -⟩ := hok.l2 (by simpa using he)
    have hgood : i32 (u32 (v.width * v.maxNumInChnk)) = (bs.length : Int) := by
      rw [u32_eq hshape.size_lt, i32, if_pos hp.size, hsize]
    simp [Decides, ends_bind, ends_byeIf, getFileSize, hf, hread, hgood]

/-- **`vctr_chk`** finds fault with what has not been given back. -/
theorem Synced.decides_vctrChk (h : Synced s u v D) (hp : v.Proper) (hm : Marked u v.mark s)
    (hu : u ≠ 0) : Decides (.bye (-1)) (vctrChk u) s (Returned s u v) := by
  have hnum : v.numElements ≠ 0 := by
    have := h.last
    omega
  have hidx : ¬ lmaIdx ≤ v.maxChnkIdx := Nat.not_le.mpr h.held.shape.idx_lt
  have hloop : Decides (.bye (-1))
      (forUp (chkChnk u v) v.minChnkIdx (v.maxChnkIdx + 1 - v.minChnkIdx)) s
      (∀ i, v.minChnkIdx ≤ i → i < v.minChnkIdx + (v.maxChnkIdx + 1 - v.minChnkIdx) →
        ∀ c, s.chnks (u, i) = some c → c.numReaders = 0) := by
    refine Decides.forUp fun i _ hi => ?_
    have hi' : i ≤ v.maxChnkIdx := by
      have := h.first
      omega
    obtain ⟨c, hc, -⟩ := h.inside hi'
    refine (h.decides_chkChnk hp hm hi' hc).congr ⟨fun hr d hd => ?_, fun hall => hall c hc⟩
    obtain rfl := Option.some.inj (hc.symm.trans hd)
    exact hr
  have hiff : (v.isLma = false → v.numReaders = 0) ∧
      (∀ i c, s.chnks (u, i) = some c → c.numReaders = 0) ↔ Returned s u v :=
    ⟨fun hall => ⟨hall.2, hall.1⟩, fun hall => ⟨hall.line, hall.chnks⟩⟩
  rw [vctrChk, if_neg hu]
  refine Ends.bind (Q := fun w t => w = v ∧ t = s) (by rw [ends_getVctr_of h.held.found]; simp) ?_
  intro w r hwr
  rw [hwr.1, hwr.2]
  refine (decides_chkQtype hp).skip trivial ?_
  rw [if_neg hnum]
  refine (h.decides_chkWindow hp).skip trivial ?_
  refine (decides_chkKept hp).skip trivial ?_
  refine ((h.decides_chkAccess hp.eov).bind fun _ => ?_).congr hiff
  refine (h.decides_chkLma hp).skip trivial ?_
  refine decides_byeIf.skip (not_not_intro hp.round) ?_
  refine decides_byeIf.skip (by simp [hp.name]) ?_
  rw [if_neg (by simp [h.window_eq])]
  have hmemo : Decides (.bye (-1)) (chkMemo v) s True := by
    rw [chkMemo, if_pos hp.memo]
    exact decides_byeIf.congr (iff_true_intro (not_not_intro h.first))
  refine hmemo.skip trivial ?_
  rw [if_neg hidx]
  refine hloop.congr ⟨fun hall i c hc => hall i ?_ ?_ c hc, fun hall i _ _ => hall i⟩
  · rw [h.first]
    exact Nat.zero_le i
  · have := h.mem_window hc
    have := h.first
    omega

/-! ## from `vctr_add` on -/

/-- What else `vctr_add` asks of its arguments. -/
structure AddArgs.Asked (a : AddArgs) : Prop where
  qtype : a.qtype ≠ .Q0
  free : a.isEarlyFreeable = false → a.numFreeIgnore = 0
  kill : a.isKillable = false → a.numKillIgnore = 0

theorem ends_vctrAdd_asked : Ends (vctrAdd a) s (fun _ _ => a.Asked) fun _ _ => True := by
  simp only [vctrAdd, vctrNewUqid, ends_bind, ends_byeIf, ends_get, ends_modify, ends_pure,
    ends_setVctr, implies_true, true_and]
  intro hq _ _ _ _ _ hk _ _ hf _ _ _ _
  exact ⟨hq, fun h => by simpa [h] using hf, fun h => by simpa [h] using hk⟩

theorem run_asked {P : St → VctrVal → Op → Prop} (h : Run P a u s L) : a.Asked := by
  induction h with
  | add _ ha => exact ends_vctrAdd_asked.of_ok ha
  | ok _ _ _ _ ih => exact ih
  | bye _ _ _ _ ih => exact ih

/-- A vector that is filled and ended is one that `vctr_chk` finds no fault with, but for its
readers. -/
theorem Grown.proper (h : Grown a s u v L) (hask : a.Asked) (hq : a.qtype ≠ .B1)
    (hsc : a.qtype ≠ .SC) (hm : a.isMemo = false) (hL : L ≠ [])
    (hwidth : a.widthOf = getWidthCQtype a.qtype) (hsize : a.widthOf * a.maxOf < 2 ^ 31)
    (htotal : a.widthOf * L.length < 2 ^ 32) (hcount : L.length + a.maxOf ≤ 2 ^ 32)
    (hw : ({ v with isEov := true } : VctrVal).SameBut w) : w.Proper := by
  obtain ⟨b, r, x, rfl⟩ := hw
  have hqt : v.qtype = a.qtype := static_qtype h.static
  have hwd : v.width = a.widthOf := static_width h.static
  have hmx : v.maxNumInChnk = a.maxOf := static_maxNumInChnk h.static
  have hnum : v.numElements = L.length := h.num
  have hlast : v.maxChnkIdx * v.maxNumInChnk < v.numElements :=
    (h.vec.held (hnum ▸ List.length_pos_iff.mpr hL)).2
  have hdvd : a.maxOf / 64 * 64 = a.maxOf := Nat.div_mul_cancel h.args.max_dvd
  have hearly : v.isEarlyFreeable = a.isEarlyFreeable := congrArg VctrVal.isEarlyFreeable h.static
  have hignore : v.numFreeIgnore = a.numFreeIgnore.toNat := congrArg VctrVal.numFreeIgnore h.static
  have hkill : v.isKillable = a.isKillable := congrArg VctrVal.isKillable h.static
  have hkills : v.numKillIgnore = a.numKillIgnore.toNat := congrArg VctrVal.numKillIgnore h.static
  constructor
  case qtype => exact hqt ▸ hask.qtype
  case plain => exact hqt ▸ ⟨hq, hsc⟩
  case width => exact hwd.trans (hqt ▸ hwidth)
  case eov => rfl
  case memo => exact (congrArg VctrVal.isMemo h.static :).trans hm
  case persist => exact (congrArg VctrVal.isPersist h.static :)
  case free => exact fun hf => by simp [hignore, hask.free (hearly.symm.trans hf)]
  case kill => exact fun hk => by simp [hkills, hask.kill (hkill.symm.trans hk)]
  case round => simpa [hmx] using hdvd
  case name => exact (congrArg VctrVal.name h.static :)
  case size => simpa [hwd, hmx] using hsize
  case total => simpa [hwd, hnum, Nat.mul_comm] using htotal
  case count =>
    show (v.maxChnkIdx + 1) * v.maxNumInChnk < 2 ^ 32
    rw [Nat.add_mul]
    omega

/-- **`vctr_chk` after a vector's life**: it finds fault exactly where a chunk is handed out, or the
linear file was dropped while it was read. -/
theorem tierRun_vctrChk {s₁ : St} (h : Run (fun _ v o => o.isPut ∧ o.Fair v) a u s L)
    (hq : a.qtype ≠ .B1) (hsc : a.qtype ≠ .SC) (hm : a.isMemo = false)
    (hwidth : a.widthOf = getWidthCQtype a.qtype) (hsize : a.widthOf * a.maxOf < 2 ^ 31)
    (hL : L ≠ []) (hnames : L.length ≤ (2 ^ 24 - 1) * a.maxOf)
    (htotal : a.widthOf * L.length < 2 ^ 32) (hcount : L.length + a.maxOf ≤ 2 ^ 32)
    (hfs : ∀ i f, l2FileName u i = some f → s.fs.read f = none)
    (hblank : ∀ n, (blank n).length = n) (heov : vctrEov u s = .ok () s₁)
    (hrun : TierRun blank u s₁ t) : ∃ v, t.vctrs u = some v ∧
      (Returned t u v → vctrChk u t = .ok () t) ∧
      (¬ Returned t u v → vctrChk u t = .error (.bye (-1)) t) := by
  have hfit : a.widthOf * a.maxOf < 2 ^ 32 := Nat.lt_trans hsize (by decide)
  obtain ⟨v, hg, hunf, -, hc⟩ := run_ended h hq hsc hm hfit hL hnames hfs heov
  have hwide : a.widthOf * L.length < 2 ^ 32 * a.maxOf :=
    Nat.lt_of_lt_of_le htotal (Nat.le_mul_of_pos_right _ hg.args.max_pos)
  obtain ⟨v', w, hg', hw, hs, -⟩ :=
    tierRun_synced h hq hsc hm hfit hL hnames hwide hfs hblank heov hrun
  obtain rfl := Option.some.inj (hg.vec.found.symm.trans hg'.vec.found)
  have hmark : Marked u a.entry.mark s₁ := fun i c hi => (hunf.2 i c (hc ▸ hi)).2
  have hwmark : w.mark = a.entry.mark := by
    obtain ⟨b, r, x, rfl⟩ := hw
    exact hunf.1 v hg.vec.found
  have hu : u ≠ 0 := fun h0 => hL (hg.zero h0)
  have hdec := hs.decides_vctrChk (hg.proper (run_asked h) hq hsc hm hL hwidth hsize htotal hcount hw)
    (hwmark ▸ hrun.marked hmark) hu
  exact ⟨w, hs.held.found, hdec.yes, hdec.no⟩

/-- Two chunks, the second of which is handed out. -/
theorem tierRun_vctrChk_sixtyFive : ∃ t, vctrChk 1 t = .error (.bye (-1)) t ∧
    TierRun (fun n => List.replicate n 0) 1 ended t := by
  have r0 : TierRun (fun n => List.replicate n 0) 1 ended ended := .start
  have r1 := r0.next (o := .getChunk 1) (by decide +kernel) fun _ h => h
  obtain ⟨v, hv, -, hno⟩ := tierRun_vctrChk run_sixtyFive (by decide) (by decide) rfl (by decide)
    (by decide) (by simp [slices]) (by decide +kernel) (by decide +kernel) (by decide +kernel)
    (fun _ _ _ => rfl) (by simp) (run_of_outcome_ok (by decide +kernel)) r1
  have hout : ((final ((TierOp.getChunk 1).run (fun n => List.replicate n 0) 1) ended).chnks
      (1, 1)).map ChnkVal.numReaders = some 1 := by decide +kernel
  obtain ⟨c, hc, hone⟩ := Option.map_eq_some_iff.mp hout
  exact ⟨_, hno fun hret => by simp [hret.chnks 1 c hc] at hone, r1⟩

end QStore.Vctr
