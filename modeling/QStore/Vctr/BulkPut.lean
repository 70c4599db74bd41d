import QStore.Vctr.Contract
import QStore.Vctr.Trim

/-!
# QStore.Vctr.BulkPut

One `vctr_putn` of `n` elements against `n` calls of `vctr_put1`.

`vctr_putn` trims the window once its last element is in, and then again on its
way out of each round, where it finds nothing more to do. The calls of
`vctr_put1` trim it after each element. An append reaches only the last chunk,
and trimming never does, so the one can be carried past the other
(`Core.write_trim`); and the last of several trims does what they all do
(`Core.trim_trim`). The accounts may differ afterwards, the tables do not.
-/

namespace QStore.Vctr

open Function

/-- `vctr_put1` of each of the elements, however the call before it ended. -/
def put1s (u : Nat) : List (List UInt8) → M Unit
  | [] => pure ()
  | x :: xs => do
    ignoreStatus (vctrPut1 u x)
    put1s u xs

/-- What appending to a vector reads and writes: its entry, the tables of chunks and
files, and the next address. -/
structure Core where
  vctr : VctrVal
  tab : Tab
  brk : Nat

namespace Core

variable (j : UInt8) (u : Nat) (K : Core)

/-- The last chunk. -/
def last : Option ChnkVal := K.tab.chnks (u, K.vctr.maxChnkIdx)

/-- A chunk that has just been opened, where `j` is what fresh memory holds. -/
def fresh : ChnkVal :=
  freshChnk K.vctr K.vctr.chnkSize ⟨K.brk, List.replicate K.vctr.chnkSize j⟩

/-- `chnk_first` -/
def first : Core :=
  if K.vctr.numElements ≠ 0 then K
  else { K with tab := K.tab.set u 0 (K.fresh j), brk := K.brk + 1 }

/-- The next chunk, if the last is full. -/
def next : Core :=
  if (K.last u).map ChnkVal.numElements = some K.vctr.maxNumInChnk then
    { vctr := { K.vctr with maxChnkIdx := u32 (K.vctr.maxChnkIdx + 1) }
      tab := K.tab.set u (u32 (K.vctr.maxChnkIdx + 1)) (K.fresh j)
      brk := K.brk + 1 }
  else K

/-- A last chunk with room. -/
def opn : Core := (K.first j u).next j u

/-- Write `k` elements into the last chunk. -/
def write (k : Nat) (x : List UInt8) : Core :=
  match K.last u with
  | none => K
  | some c =>
    match c.l1Mem with
    | none => K
    | some b =>
      { K with
        vctr := { K.vctr with numElements := K.vctr.numElements + k }
        tab := K.tab.set u K.vctr.maxChnkIdx
          { c with
            l1Mem := some { b with bytes := splice b.bytes (u32 (c.numElements * K.vctr.width)) x }
            numElements := c.numElements + k } }

/-- Let go of the chunks below `m`. -/
def trim (m : Nat) : Core :=
  { K with
    vctr := { K.vctr with minChnkIdx := m }
    tab := K.tab.dels K.vctr.isPersist u K.vctr.minChnkIdx (m - K.vctr.minChnkIdx) }

/-- Where `vctr_memo` lets the window start. -/
def top : Nat :=
  if K.vctr.memoLen = 0 then K.vctr.minChnkIdx
  else max K.vctr.minChnkIdx (K.vctr.maxChnkIdx + 1 - K.vctr.memoLen)

variable {j u K} {m m' k l : Nat} {x y : List UInt8} {c : ChnkVal} {b : Buf}

/-! ## appending and trimming -/

theorem trim_self : K.trim u K.vctr.minChnkIdx = K := by
  rw [trim, Nat.sub_self]
  rfl

theorem trim_trim (hm : K.vctr.minChnkIdx ≤ m) (hm' : m ≤ m') :
    (K.trim u m).trim u m' = K.trim u m' := by
  have hdels := Tab.dels_add (T := K.tab) (p := K.vctr.isPersist) (u := u)
    (i := K.vctr.minChnkIdx) (m := m - K.vctr.minChnkIdx) (n := m' - m)
  rw [show m - K.vctr.minChnkIdx + (m' - m) = m' - K.vctr.minChnkIdx by omega,
    Nat.add_sub_cancel' hm] at hdels
  simp only [trim, hdels]

theorem last_trim (hm : m ≤ K.vctr.maxChnkIdx) : (K.trim u m).last u = K.last u := by
  refine Tab.dels_chnks fun i hlo hhi => ?_
  rw [show (K.trim u m).vctr.maxChnkIdx = K.vctr.maxChnkIdx from rfl]
  simp only [ne_eq, Prod.mk.injEq, true_and]
  omega

theorem first_trim (hm : m ≤ K.vctr.maxChnkIdx)
    (h0 : K.vctr.numElements = 0 → K.vctr.maxChnkIdx = 0) :
    (K.trim u m).first j u = (K.first j u).trim u m := by
  by_cases hn : K.vctr.numElements ≠ 0
  · rw [first, first, if_pos hn]
    exact if_pos hn
  · have hmax := h0 (by simpa using hn)
    rw [first, first, if_neg hn]
    refine (if_neg hn).trans ?_
    simp only [trim, Core.mk.injEq, true_and, and_true]
    exact (Tab.dels_set (by omega)).symm

theorem next_trim (hm : m ≤ K.vctr.maxChnkIdx) (hidx : K.vctr.maxChnkIdx < lmaIdx) :
    (K.trim u m).next j u = (K.next j u).trim u m := by
  have hu : u32 (K.vctr.maxChnkIdx + 1) = K.vctr.maxChnkIdx + 1 := by
    unfold lmaIdx at hidx
    exact u32_eq (by omega)
  unfold next
  rw [last_trim hm]
  by_cases hfull : (K.last u).map ChnkVal.numElements = some K.vctr.maxNumInChnk
  · rw [if_pos hfull]
    refine (if_pos hfull).trans ?_
    simp only [trim, Core.mk.injEq, true_and, and_true, hu]
    exact (Tab.dels_set (by omega)).symm
  · rw [if_neg hfull]
    exact if_neg hfull

theorem write_trim (hm : m ≤ K.vctr.maxChnkIdx) :
    (K.trim u m).write u k x = (K.write u k x).trim u m := by
  unfold write
  rw [last_trim hm]
  cases K.last u with
  | none => rfl
  | some c =>
      cases hb : c.l1Mem with
      | none => simp only [hb]
      | some b =>
          simp only [hb, trim, Core.mk.injEq, true_and, and_true]
          exact (Tab.dels_set (by omega)).symm

theorem write_of (hl : K.last u = some c) (hb : c.l1Mem = some b) : K.write u k x =
    { K with
      vctr := { K.vctr with numElements := K.vctr.numElements + k }
      tab := K.tab.set u K.vctr.maxChnkIdx
        { c with
          l1Mem := some { b with bytes := splice b.bytes (u32 (c.numElements * K.vctr.width)) x }
          numElements := c.numElements + k } } := by
  rw [write, hl]
  simp only [hb]

theorem last_write (hl : K.last u = some c) (hb : c.l1Mem = some b) :
    (K.write u k x).last u = some
      { c with
        l1Mem := some { b with bytes := splice b.bytes (u32 (c.numElements * K.vctr.width)) x }
        numElements := c.numElements + k } := by
  rw [write_of hl hb]
  exact update_self ..

/-- Trimming further leads to the same place. -/
theorem top_trim (hm : K.vctr.minChnkIdx ≤ m) (hm' : m ≤ K.top) : (K.trim u m).top = K.top := by
  have htrim : (K.trim u m).top = if K.vctr.memoLen = 0 then m
      else max m (K.vctr.maxChnkIdx + 1 - K.vctr.memoLen) := rfl
  rw [htrim]
  unfold top at hm' ⊢
  split at hm'
  · next h0 =>
    rw [if_pos h0, if_pos h0]
    omega
  · next h0 =>
    rw [if_neg h0, if_neg h0]
    omega

theorem min_le_top : K.vctr.minChnkIdx ≤ K.top := by
  unfold top
  split
  · exact Nat.le_refl _
  · exact Nat.le_max_left _ _

theorem top_le (h : K.vctr.minChnkIdx ≤ K.vctr.maxChnkIdx) : K.top ≤ K.vctr.maxChnkIdx := by
  unfold top
  split
  · exact h
  · next h0 =>
    have := Nat.pos_of_ne_zero h0
    omega

/-- Two writes, one behind the other. -/
theorem write_write (hl : K.last u = some c) (hb : c.l1Mem = some b)
    (hx : x.length = K.vctr.width * k) (hsmall : b.bytes.length < 2 ^ 32)
    (hfit : K.vctr.width * (c.numElements + k) + y.length ≤ b.bytes.length) :
    (K.write u k x).write u l y = K.write u (k + l) (x ++ y) := by
  rw [Nat.mul_add] at hfit
  have hoff : u32 ((c.numElements + k) * K.vctr.width) =
      u32 (c.numElements * K.vctr.width) + x.length := by
    rw [Nat.add_mul, Nat.mul_comm c.numElements, Nat.mul_comm k, u32_eq (by omega),
      u32_eq (by omega), hx]
  have hsplice : u32 (c.numElements * K.vctr.width) + x.length + y.length ≤ b.bytes.length := by
    rw [Nat.mul_comm c.numElements, u32_eq (by omega), hx]
    omega
  rw [write_of (last_write hl hb) rfl, write_of hl hb, write_of hl hb]
  simp only [hoff, splice_append hsplice, Tab.set, update_idem, Nat.add_assoc]

theorem first_vctr : (K.first j u).vctr = K.vctr := by
  unfold first
  split <;> rfl

/-- Opening a chunk moves the last index and nothing else. -/
theorem opn_vctr :
    (K.opn j u).vctr = { K.vctr with maxChnkIdx := (K.opn j u).vctr.maxChnkIdx } := by
  unfold opn next
  split
  · simp only [first_vctr]
  · rw [first_vctr]

/-- What both ways to append find: a vector that takes elements, and a last chunk in
memory. -/
structure Good (j : UInt8) (u : Nat) (K : Core) : Prop where
  uqid : u ≠ 0
  eov : K.vctr.isEov = false
  notSc : K.vctr.qtype ≠ .SC
  empty : K.vctr.numElements = 0 → K.vctr.maxChnkIdx = 0
  min_le : K.vctr.minChnkIdx ≤ K.vctr.maxChnkIdx
  idx : K.vctr.maxChnkIdx < lmaIdx
  opn_idx : (K.opn j u).vctr.maxChnkIdx < lmaIdx
  fits : K.vctr.numElements = 0 → 0 < K.vctr.chnkSize ∧ K.vctr.chnkSize ≤ 1024 * 1048576
  mem : ∃ c b, (K.first j u).last u = some c ∧ c.l1Mem = some b

theorem opn_trim (h0 : K.vctr.numElements = 0 → K.vctr.maxChnkIdx = 0)
    (hidx : K.vctr.maxChnkIdx < lmaIdx) (hm : m ≤ K.vctr.maxChnkIdx) :
    (K.trim u m).opn j u = (K.opn j u).trim u m := by
  rw [opn, first_trim hm h0, next_trim (by rwa [first_vctr]) (by rwa [first_vctr])]
  rfl

theorem Good.trim (h : K.Good j u) (hm : m ≤ K.top) : (K.trim u m).Good j u := by
  have hmax := Nat.le_trans hm (top_le h.min_le)
  have hlast : ((K.trim u m).first j u).last u = (K.first j u).last u := by
    rw [first_trim hmax h.empty, last_trim (by rwa [first_vctr])]
  refine ⟨h.uqid, h.eov, h.notSc, h.empty, hmax, h.idx, ?_, h.fits, ?_⟩
  · rw [opn_trim h.empty h.idx hmax]
    exact h.opn_idx
  · rw [hlast]
    exact h.mem

theorem Good.le_opn (h : K.Good j u) : K.vctr.maxChnkIdx ≤ (K.opn j u).vctr.maxChnkIdx := by
  have hidx := h.idx
  unfold lmaIdx at hidx
  have hu : u32 (K.vctr.maxChnkIdx + 1) = K.vctr.maxChnkIdx + 1 := u32_eq (by omega)
  unfold opn next
  split
  · simp only [first_vctr, hu]
    omega
  · rw [first_vctr]

/-- A write that leaves room in its chunk. -/
theorem opn_write (hl : (K.opn j u).last u = some c) (hb : c.l1Mem = some b) (hk : 0 < k)
    (hroom : c.numElements + k ≠ K.vctr.maxNumInChnk) :
    ((K.opn j u).write u k x).opn j u = (K.opn j u).write u k x := by
  have hnum : ((K.opn j u).write u k x).vctr.numElements ≠ 0 := by
    rw [write_of hl hb]
    simp only
    omega
  have hmax : ((K.opn j u).write u k x).vctr.maxNumInChnk = K.vctr.maxNumInChnk := by
    rw [write_of hl hb, opn_vctr]
  rw [opn, first, if_pos hnum, next, if_neg]
  rw [last_write hl hb, hmax, Option.map_some, Option.some.injEq]
  exact hroom

theorem write_vctr (hl : (K.opn j u).last u = some c) (hb : c.l1Mem = some b) :
    ((K.opn j u).write u k x).vctr = { K.vctr with
      maxChnkIdx := (K.opn j u).vctr.maxChnkIdx, numElements := K.vctr.numElements + k } := by
  rw [write_of hl hb, opn_vctr]

/-- A write leaves the window and its last chunk in order. -/
theorem Good.write_shape (h : K.Good j u) (hl : (K.opn j u).last u = some c)
    (hb : c.l1Mem = some b) : ((K.opn j u).write u k x).vctr.isEov = false ∧
      ((K.opn j u).write u k x).vctr.minChnkIdx ≤ ((K.opn j u).write u k x).vctr.maxChnkIdx ∧
      ((K.opn j u).write u k x).vctr.maxChnkIdx < lmaIdx := by
  rw [write_vctr hl hb]
  exact ⟨h.eov, Nat.le_trans h.min_le h.le_opn, h.opn_idx⟩

theorem Good.write (h : K.Good j u) (hl : (K.opn j u).last u = some c) (hb : c.l1Mem = some b)
    (hk : 0 < k) (hidx : (((K.opn j u).write u k x).opn j u).vctr.maxChnkIdx < lmaIdx) :
    ((K.opn j u).write u k x).Good j u := by
  have hv := write_vctr (k := k) (x := x) hl hb
  obtain ⟨heov, hmin, hmax⟩ := h.write_shape (k := k) (x := x) hl hb
  have hnum : ((K.opn j u).write u k x).vctr.numElements ≠ 0 := by
    rw [hv]
    simp only
    omega
  have hfirst : ((K.opn j u).write u k x).first j u = (K.opn j u).write u k x := if_pos hnum
  refine ⟨h.uqid, heov, ?_, fun h0 => absurd h0 hnum, hmin, hmax, hidx,
    fun h0 => absurd h0 hnum, ?_⟩
  · rw [hv]
    exact h.notSc
  · rw [hfirst, last_write hl hb]
    exact ⟨_, _, rfl, rfl⟩

end Core

/-! ## the programs -/

/-- The state shows `K` as vector `u`. The other vectors are those of `V`. -/
structure Shows (V : Nat → Option VctrVal) (j : UInt8) (s : St) (u : Nat) (K : Core) : Prop where
  vctrs : s.vctrs = update V u (some K.vctr)
  tab : s.tab = K.tab
  brk : s.brk = K.brk
  junk : s.junk = j

section Programs

variable {V : Nat → Option VctrVal} {j : UInt8} {s t : St} {u k n : Nat} {K : Core}
  {x X : List UInt8} {c : ChnkVal} {b : Buf}

namespace Shows

theorem found (h : Shows V j s u K) : s.vctrs u = some K.vctr := by rw [h.vctrs, update_self]

theorem chnks (h : Shows V j s u K) : s.chnks = K.tab.chnks := congrArg Tab.chnks h.tab

theorem fs (h : Shows V j s u K) : s.fs = K.tab.fs := congrArg Tab.fs h.tab

/-- The accounts do not show. -/
theorem accounts (h : Shows V j s u K) (m : Nat) (r : Bool) :
    Shows V j ((s.setMem m).setRefused r) u K := ⟨h.vctrs, h.tab, h.brk, h.junk⟩

theorem setVctr (h : Shows V j s u K) (v : VctrVal) :
    Shows V j (s.setVctr u v) u { K with vctr := v } :=
  ⟨by rw [St.setVctr, h.vctrs, update_idem], h.tab, h.brk, h.junk⟩

theorem setChnk (h : Shows V j s u K) (i : Nat) (c : ChnkVal) :
    Shows V j (s.setChnk u i c) u { K with tab := K.tab.set u i c } :=
  ⟨h.vctrs, by rw [St.tab, St.setChnk, Tab.set, ← h.tab]; rfl, h.brk, h.junk⟩

end Shows

theorem Shows.bump (h : Shows V j s u K) : Shows V j s.bump u { K with brk := K.brk + 1 } :=
  ⟨h.vctrs, h.tab, by rw [← h.brk]; rfl, h.junk⟩

theorem Shows.ends_chnkFirst (h : Shows V j s u K) :
    Ends (chnkFirst u) s
      (fun _ t => (K.vctr.numElements = 0 →
        0 < K.vctr.chnkSize ∧ K.vctr.chnkSize ≤ 1024 * 1048576) ∧ Shows V j t u (K.first j u))
      fun e _ => e = .bye (-1) ∧ ¬ (K.vctr.numElements = 0 →
        0 < K.vctr.chnkSize ∧ K.vctr.chnkSize ≤ 1024 * 1048576) := by
  rw [chnkFirst, ends_bind, ends_getVctr_of h.found, Core.first]
  by_cases h0 : K.vctr.numElements ≠ 0
  · rw [if_pos h0, if_pos h0]
    exact ⟨fun hz => absurd hz h0, h⟩
  · rw [if_neg h0, if_neg h0, ends_bind, ends_memalign, ends_bind, h.brk, h.junk]
    have hz : K.vctr.numElements = 0 := by simpa using h0
    refine ends_incrMem_of_size (fun hsz _ => ⟨rfl, fun hf => ?_⟩) fun hpos hle m r => ?_
    · have := hf hz
      omega
    · exact ⟨fun _ => ⟨hpos, hle⟩, (h.bump.accounts m r).setChnk 0 _⟩

theorem Shows.ends_chnkToPut (h : Shows V j s u K) :
    Ends (chnkToPut u K.vctr) s
      (fun i t => (∃ c b, K.last u = some c ∧ c.l1Mem = some b) ∧
        i = (K.next j u).vctr.maxChnkIdx ∧ Shows V j t u (K.next j u))
      fun e _ => e = .bye (-1) ∧ ¬ ∃ c b, K.last u = some c ∧ c.l1Mem = some b := by
  rw [chnkToPut, ends_bind, ends_getChnk, h.chnks]
  constructor
  · intro hnone
    refine ⟨rfl, ?_⟩
    rintro ⟨c, b, hc, -⟩
    rw [Core.last, hnone] at hc
    contradiction
  · intro c hc
    have hl : K.last u = some c := hc
    rw [ends_bind, ends_byeIf]
    refine ⟨fun hnone => ⟨rfl, ?_⟩, fun hm => ?_⟩
    · rintro ⟨c', b, hc', hb⟩
      rw [hl, Option.some.injEq] at hc'
      rw [hc', hb] at hnone
      contradiction
    · obtain ⟨b, hb⟩ := Option.ne_none_iff_exists'.mp hm
      refine ends_ite.mpr ⟨fun hfull => ?_, fun hfull => ?_⟩
      · have hnext : K.next j u = _ := if_pos (by rw [hl, Option.map_some, hfull])
        rw [hnext, ends_bind, ends_memalign, ends_bind, h.brk, h.junk]
        refine ends_ignore_incrMem fun m r => ?_
        have ht := ((h.bump.accounts m r).setChnk (u32 (K.vctr.maxChnkIdx + 1)) (K.fresh j))
        rw [ends_bind, ends_setChnk, ends_bind]
        refine (ends_modVctr_of ht.found).mpr ?_
        rw [ends_pure]
        exact ⟨⟨c, b, hl, hb⟩, rfl, ht.setVctr _⟩
      · have hnext : K.next j u = K := if_neg (by rw [hl]; simpa using hfull)
        rw [hnext]
        exact ⟨⟨c, b, hl, hb⟩, rfl, h⟩

/-- `vctr_memo`, whether it succeeds or not. It succeeds where there is nothing to do. -/
theorem Shows.ends_vctrMemo (h : Shows V j s u K) (he : K.vctr.isEov = false)
    (hmin : K.vctr.minChnkIdx ≤ K.vctr.maxChnkIdx) (hidx : K.vctr.maxChnkIdx < lmaIdx) :
    Ends (vctrMemo u) s (fun _ t => Shows V j t u (K.trim u K.top))
      fun e t => e.Negative ∧ K.vctr.minChnkIdx < K.top ∧ Shows V j t u (K.trim u K.top) := by
  have htop : K.vctr.trimTo K.vctr.maxChnkIdx = K.top := trimTo_eq he (by omega) hidx
  have hshows : ∀ t, Trims s t u K.vctr (K.vctr.trimTo K.vctr.maxChnkIdx) →
      Shows V j t u (K.trim u K.top) := by
    intro t ht
    rw [htop] at ht
    exact ⟨by rw [ht.vctrs, h.vctrs, update_idem]; rfl, by rw [ht.tab, h.tab]; rfl,
      ht.brk.trans h.brk, ht.junk.trans h.junk⟩
  refine (ends_vctrMemo_trims h.found).imp (fun _ t ht => hshows t ht.1) fun e t ht => ?_
  exact ⟨ht.1, htop ▸ ht.2.2, hshows t ht.2.1⟩

/-- Writing into the last chunk. -/
theorem Shows.write (h : Shows V j s u K) (hl : K.last u = some c) (hb : c.l1Mem = some b) :
    Shows V j ((s.setVctr u { K.vctr with numElements := K.vctr.numElements + k }).setChnk u
      K.vctr.maxChnkIdx { c with
        l1Mem := some { b with bytes := splice b.bytes (u32 (c.numElements * K.vctr.width)) x }
        numElements := c.numElements + k }) u (K.write u k x) := by
  rw [Core.write_of hl hb]
  exact (h.setVctr _).setChnk _ _

/-- **`vctr_put1`** of an element that fits. The element is there also where
`vctr_memo` fails. -/
theorem Core.Good.ends_vctrPut1 (hg : K.Good j u) (h : Shows V j s u K)
    (hl : (K.opn j u).last u = some c) (hb : c.l1Mem = some b) (hx : x.length = K.vctr.width) :
    Ends (vctrPut1 u x) s
      (fun _ t => u32 (c.numElements * K.vctr.width) + K.vctr.width ≤ b.bytes.length ∧
        Shows V j t u (((K.opn j u).write u 1 x).trim u ((K.opn j u).write u 1 x).top))
      fun e t => (e = .ub ∧
        ¬ u32 (c.numElements * K.vctr.width) + K.vctr.width ≤ b.bytes.length) ∨
        (e.Negative ∧ u32 (c.numElements * K.vctr.width) + K.vctr.width ≤ b.bytes.length ∧
        Shows V j t u (((K.opn j u).write u 1 x).trim u ((K.opn j u).write u 1 x).top)) := by
  have he : ¬ K.vctr.isEov = true := by simp [hg.eov]
  have hopn := Core.opn_vctr (K := K) (j := j) (u := u)
  have hwid : (K.opn j u).vctr.width = K.vctr.width := by rw [hopn]
  rw [vctrPut1, ends_bind, ends_byeIf_neg hg.uqid, ends_bind, ends_getVctr_of h.found, ends_bind,
    ends_byeIf_neg he, ends_bind]
  refine h.ends_chnkFirst.imp ?_ fun e t ht => absurd hg.fits ht.2
  rintro - t ⟨-, ht⟩
  have hfound : t.vctrs u = some K.vctr := by rw [ht.found, Core.first_vctr]
  rw [ends_bind, ends_getVctr_of hfound, ends_bind, ← Core.first_vctr (j := j) (u := u)]
  refine ht.ends_chnkToPut.imp ?_ fun e t ht => absurd hg.mem ht.2
  rintro _ a ⟨-, rfl, ha⟩
  rw [show (K.first j u).next j u = K.opn j u from rfl] at ha ⊢
  rw [Core.first_vctr]
  have hc : a.chnks (u, (K.opn j u).vctr.maxChnkIdx) = some c := by rw [ha.chnks]; exact hl
  rw [ends_bind, ends_getChnk_of hc, hb]
  simp only [ends_bind, ends_poke, List.length_replicate]
  refine ⟨fun hfit => ?_, fun hno => Or.inl ⟨trivial, hno⟩⟩
  rw [sclrBytes, if_neg hg.notSc, ends_takeN]
  refine ⟨fun _ => ?_, fun hno => absurd hx.ge hno⟩
  rw [List.take_of_length_le hx.le, length_splice (by rwa [List.length_replicate]), hx]
  refine ⟨fun _ => ?_, fun hno => absurd hfit hno⟩
  -- the copy, over the slot that was cleared
  have hbytes : splice (splice b.bytes (u32 (c.numElements * K.vctr.width))
      (List.replicate K.vctr.width 0)) (u32 (c.numElements * K.vctr.width)) x =
        splice b.bytes (u32 (c.numElements * K.vctr.width)) x := by
    have hlen : x.length = (List.replicate K.vctr.width (0 : UInt8)).length := by
      rw [List.length_replicate, hx]
    have hroom : u32 (c.numElements * K.vctr.width) +
        (List.replicate K.vctr.width (0 : UInt8) ++ []).length ≤ b.bytes.length := by
      rwa [List.append_nil, List.length_replicate]
    have h0 := splice_splice hlen hroom
    rwa [List.append_nil, List.append_nil] at h0
  rw [hbytes, ends_modVctr_of ha.found, ends_setChnk]
  have hwrite := ha.write (k := 1) (x := x) hl hb
  rw [hwid] at hwrite
  obtain ⟨heov, hmin, hidx⟩ := hg.write_shape (k := 1) (x := x) hl hb
  exact (hwrite.ends_vctrMemo heov hmin hidx).imp (fun _ t ht => ⟨hfit, ht⟩)
    fun e t ht => Or.inr ⟨ht.1, hfit, ht.2.2⟩

/-- The same from a state that is trimmed already. -/
theorem Core.Good.ends_put1_trimmed (hg : K.Good j u) {m : Nat} (hm : K.vctr.minChnkIdx ≤ m)
    (hm' : m ≤ K.top) (h : Shows V j s u (K.trim u m)) (hl : (K.opn j u).last u = some c)
    (hb : c.l1Mem = some b) (hin : K.vctr.width * c.numElements ≤ b.bytes.length)
    (hsmall : b.bytes.length < 2 ^ 32) (hx : x.length = K.vctr.width) :
    Ends (ignoreStatus (vctrPut1 u x)) s
      (fun _ t => K.vctr.width * (c.numElements + 1) ≤ b.bytes.length ∧
        Shows V j t u (((K.opn j u).write u 1 x).trim u ((K.opn j u).write u 1 x).top))
      fun e _ => e = .ub ∧ ¬ K.vctr.width * (c.numElements + 1) ≤ b.bytes.length := by
  have hmax := Nat.le_trans hm' (Core.top_le hg.min_le)
  have hopn := Core.opn_trim (j := j) (u := u) hg.empty hg.idx hmax
  have hmax' : m ≤ (K.opn j u).vctr.maxChnkIdx := Nat.le_trans hmax hg.le_opn
  have hl' : ((K.trim u m).opn j u).last u = some c := by rw [hopn, Core.last_trim hmax', hl]
  -- trimming first to `m` and then to the end is trimming to the end
  have hv := Core.write_vctr (k := 1) (x := x) hl hb
  have hmin : ((K.opn j u).write u 1 x).vctr.minChnkIdx ≤ m := by
    rw [hv]
    exact hm
  have htop : m ≤ ((K.opn j u).write u 1 x).top := by
    have hle := hg.le_opn
    unfold Core.top at hm' ⊢
    rw [hv]
    simp only
    split
    · next h0 => rwa [if_pos h0] at hm'
    · next h0 =>
      rw [if_neg h0] at hm'
      omega
  have hspec := (hg.trim hm').ends_vctrPut1 h hl' hb hx
  have hoff : u32 (c.numElements * K.vctr.width) + K.vctr.width =
      K.vctr.width * (c.numElements + 1) := by
    rw [Nat.mul_comm, u32_eq (by omega), Nat.mul_succ]
  rw [hopn, Core.write_trim hmax', Core.top_trim hmin htop, Core.trim_trim hmin htop,
    show (K.trim u m).vctr.width = K.vctr.width from rfl, hoff] at hspec
  rw [ends_ignoreStatus]
  refine hspec.imp (fun _ t ht => ht) ?_
  rintro e t (⟨rfl, hno⟩ | ⟨⟨k, -, rfl⟩, ht⟩)
  · exact ⟨rfl, hno⟩
  · exact ht

/-- **Calls of `vctr_put1` that stay in one chunk** write their elements one behind the
other, up to the first that its memory does not hold. -/
theorem Core.Good.ends_put1s {xs : List (List UInt8)} {m : Nat} (hg : K.Good j u)
    (hm : K.vctr.minChnkIdx ≤ m) (hm' : m ≤ K.top) (h : Shows V j s u (K.trim u m))
    (hl : (K.opn j u).last u = some c) (hb : c.l1Mem = some b)
    (hin : K.vctr.width * c.numElements ≤ b.bytes.length) (hsmall : b.bytes.length < 2 ^ 32)
    (hx : ∀ y ∈ x :: xs, y.length = K.vctr.width)
    (hroom : c.numElements + (xs.length + 1) ≤ K.vctr.maxNumInChnk) :
    Ends (put1s u (x :: xs)) s
      (fun _ t => K.vctr.width * (c.numElements + (xs.length + 1)) ≤ b.bytes.length ∧
        Shows V j t u (((K.opn j u).write u (xs.length + 1) (x :: xs).flatten).trim u
          ((K.opn j u).write u (xs.length + 1) (x :: xs).flatten).top))
      fun e _ => e = .ub ∧
        ¬ K.vctr.width * (c.numElements + (xs.length + 1)) ≤ b.bytes.length := by
  induction xs generalizing x K m s c b with
  | nil =>
      rw [put1s, ends_bind]
      refine (hg.ends_put1_trimmed hm hm' h hl hb hin hsmall (hx x List.mem_cons_self)).imp ?_
        fun e t => id
      rintro - t ht
      rw [put1s, ends_pure, List.flatten_singleton]
      exact ht
  | cons y ys ih =>
      have hx1 : x.length = K.vctr.width := hx x List.mem_cons_self
      have hmono : K.vctr.width * (c.numElements + 1) ≤
          K.vctr.width * (c.numElements + ((y :: ys).length + 1)) :=
        Nat.mul_le_mul_left _ (by omega)
      rw [List.length_cons] at hroom
      rw [put1s, ends_bind]
      refine (hg.ends_put1_trimmed hm hm' h hl hb hin hsmall hx1).imp ?_ ?_
      · rintro - t ⟨hfit, ht⟩
        -- the chunk has room left, so the next call does not open another
        have hopn := Core.opn_write (x := x) hl hb Nat.one_pos (by omega)
        have hg' := hg.write (x := x) hl hb Nat.one_pos (by
          rw [hopn, Core.write_of hl hb]
          exact hg.opn_idx)
        have hv := Core.write_vctr (k := 1) (x := x) hl hb
        have hl' := Core.last_write (k := 1) (x := x) hl hb
        rw [← hopn] at hl'
        have hwid : (K.opn j u).vctr.width = K.vctr.width := by rw [Core.opn_vctr]
        have hlen : (splice b.bytes (u32 (c.numElements * (K.opn j u).vctr.width)) x).length =
            b.bytes.length := by
          refine length_splice ?_
          rw [hwid, Nat.mul_comm, u32_eq (by omega), hx1, ← Nat.mul_succ]
          exact hfit
        have hw : ((K.opn j u).write u 1 x).vctr.width = K.vctr.width := by rw [hv]
        have hrest := ih hg' Core.min_le_top (Nat.le_refl _) ht hl' rfl (x := y)
          (by rw [hw, hlen]; exact hfit) (by rw [hlen]; exact hsmall)
          (fun z hz => by rw [hw]; exact hx z (List.mem_cons_of_mem _ hz))
          (by rw [hv]; simp only; omega)
        rw [hw, hlen, hopn, show c.numElements + 1 + (ys.length + 1) =
          c.numElements + ((y :: ys).length + 1) by rw [List.length_cons]; omega] at hrest
        refine hrest.imp ?_ fun e t => id
        rintro - r ⟨hall, hr⟩
        refine ⟨hall, ?_⟩
        have hend : (K.opn j u).vctr.width * (c.numElements + 1) + (y :: ys).flatten.length ≤
            b.bytes.length := by
          rw [hwid, length_flatten_of_eq fun z hz => hx z (List.mem_cons_of_mem _ hz),
            ← Nat.mul_add, show c.numElements + 1 + (y :: ys).length =
            c.numElements + ((y :: ys).length + 1) by omega]
          exact hall
        have hjoin : ((K.opn j u).write u 1 x).write u (ys.length + 1) (y :: ys).flatten =
            (K.opn j u).write u ((y :: ys).length + 1) (x :: y :: ys).flatten := by
          rw [Core.write_write hl hb (by rw [hwid, hx1, Nat.mul_one]) hsmall hend, Nat.add_comm 1]
          rfl
        rw [← hjoin]
        exact hr
      · rintro e t ⟨rfl, hno⟩
        exact ⟨rfl, fun hall => hno (Nat.le_trans hmono hall)⟩

/-- A round of `vctr_putn`. -/
theorem Shows.ends_putnRound (h : Shows V j s u K) :
    Ends (putnRound u X n) s
      (fun r t => u ≠ 0 ∧ 0 < n ∧ K.vctr.isEov = false ∧ (K.vctr.numElements = 0 →
          0 < K.vctr.chnkSize ∧ K.vctr.chnkSize ≤ 1024 * 1048576) ∧
        (∃ c b, (K.first j u).last u = some c ∧ c.l1Mem = some b) ∧
        ∀ c b, (K.opn j u).last u = some c → c.l1Mem = some b →
          ∃ k, k = min n (u32 (K.vctr.maxNumInChnk + 2 ^ 32 - c.numElements)) ∧
            r = (k, u32 (k * K.vctr.width)) ∧
            u32 (c.numElements * K.vctr.width) + u32 (k * K.vctr.width) ≤ b.bytes.length ∧
            Shows V j t u ((K.opn j u).write u k (X.take (u32 (k * K.vctr.width)))))
      fun _ _ => True := by
  have hopn := Core.opn_vctr (K := K) (j := j) (u := u)
  have hwid : (K.opn j u).vctr.width = K.vctr.width := by rw [hopn]
  rw [putnRound, ends_bind, ends_byeIf]
  refine ⟨fun _ => trivial, fun hu => ?_⟩
  rw [ends_bind, ends_byeIf]
  refine ⟨fun _ => trivial, fun hn => ?_⟩
  rw [ends_bind, ends_getVctr_of h.found, ends_bind, ends_byeIf]
  refine ⟨fun _ => trivial, fun he => ?_⟩
  rw [ends_bind]
  refine h.ends_chnkFirst.imp ?_ fun _ _ _ => trivial
  rintro - t ⟨hfits, ht⟩
  rw [ends_bind, ← Core.first_vctr (j := j) (u := u)]
  refine ht.ends_chnkToPut.imp ?_ fun _ _ _ => trivial
  rintro _ a ⟨hmem, rfl, ha⟩
  rw [show (K.first j u).next j u = K.opn j u from rfl] at ha ⊢
  rw [Core.first_vctr, ends_bind, ends_getChnk, ha.chnks]
  refine ⟨fun _ => trivial, fun c hc => ?_⟩
  have hl : (K.opn j u).last u = some c := hc
  cases hb : c.l1Mem with
  | none => trivial
  | some b =>
      simp only [ends_bind, ends_takeN, implies_true, and_true, ends_poke, List.length_take]
      generalize hk : (if n > u32 (K.vctr.maxNumInChnk + 2 ^ 32 - c.numElements)
        then u32 (K.vctr.maxNumInChnk + 2 ^ 32 - c.numElements) else n) = k
      have hmin : k = min n (u32 (K.vctr.maxNumInChnk + 2 ^ 32 - c.numElements)) := by
        rw [← hk]
        split <;> omega
      intro hX hfit
      rw [Nat.min_eq_left hX] at hfit
      rw [ends_modVctr_of ha.found, ends_setChnk, ends_pure]
      refine ⟨hu, Nat.pos_of_ne_zero hn, by simpa using he, hfits, hmem, fun c' b' hl' hb' => ?_⟩
      obtain rfl := Option.some.inj (hl.symm.trans hl')
      obtain rfl := Option.some.inj (hb.symm.trans hb')
      have hwrite := ha.write (k := k) (x := X.take (u32 (k * K.vctr.width))) hl hb
      rw [hwid] at hwrite
      exact ⟨k, hmin, rfl, hfit, hwrite⟩

end Programs

/-! ## rounds -/

/-- The room in the last chunk, or in the next one if it is full. -/
def VctrVal.room (v : VctrVal) (o : Option ChnkVal) : Nat :=
  if v.numElements = 0 then v.maxNumInChnk
  else match o with
    | none => 0
    | some c =>
      if c.numElements = v.maxNumInChnk then v.maxNumInChnk else v.maxNumInChnk - c.numElements

/-- No round of `vctr_putn` of `n` elements copies 2^32 bytes or more. The second of them
is the longest of those that fill a chunk from its start. -/
def VctrVal.NoWrap (v : VctrVal) (o : Option ChnkVal) (n : Nat) : Prop :=
  v.width * min n (v.room o) < 2 ^ 32 ∧ v.width * min (n - v.room o) v.maxNumInChnk < 2 ^ 32

/-- A vector with a last chunk that holds what it says, and chunks enough for `n` more
elements. -/
structure Core.Ready (u : Nat) (K : Core) (n : Nat) : Prop where
  width_pos : 0 < K.vctr.width
  max_pos : 0 < K.vctr.maxNumInChnk
  max_lt : K.vctr.maxNumInChnk < 2 ^ 32
  notSc : K.vctr.qtype ≠ .SC
  empty : K.vctr.numElements = 0 → K.vctr.maxChnkIdx = 0
  min_le : K.vctr.minChnkIdx ≤ K.vctr.maxChnkIdx
  idx : K.vctr.maxChnkIdx + n / K.vctr.maxNumInChnk + 1 < lmaIdx
  last : 0 < K.vctr.numElements → ∀ c b, K.last u = some c → c.l1Mem = some b →
    c.numElements ≤ K.vctr.maxNumInChnk ∧ K.vctr.width * c.numElements ≤ b.bytes.length ∧
      b.bytes.length < 2 ^ 32

section Rounds

variable {V : Nat → Option VctrVal} {j : UInt8} {s s' t : St} {u k m n : Nat} {K : Core}
  {x X : List UInt8} {c : ChnkVal} {b : Buf}

/-- The chunk that is written to: it has room, and as much of it as the last chunk or a
fresh one. -/
structure Core.Opened (j : UInt8) (u : Nat) (K : Core) (c : ChnkVal) (b : Buf) : Prop where
  last : (K.opn j u).last u = some c
  mem : c.l1Mem = some b
  lt : c.numElements < K.vctr.maxNumInChnk
  room : K.vctr.room (K.last u) = K.vctr.maxNumInChnk - c.numElements
  fits : K.vctr.width * c.numElements ≤ b.bytes.length
  small : b.bytes.length < 2 ^ 32
  idx : (K.opn j u).vctr.maxChnkIdx = K.vctr.maxChnkIdx ∨
    (K.opn j u).vctr.maxChnkIdx = K.vctr.maxChnkIdx + 1 ∧ c.numElements = 0

theorem Core.Ready.opened (h : K.Ready u n)
    (hmem : ∃ c b, (K.first j u).last u = some c ∧ c.l1Mem = some b) :
    ∃ c b, K.Opened j u c b := by
  have hidx := h.idx
  generalize n / K.vctr.maxNumInChnk = q at hidx
  unfold lmaIdx at hidx
  have hsize : K.vctr.chnkSize < 2 ^ 32 := Nat.mod_lt _ (by decide)
  have hu : u32 (K.vctr.maxChnkIdx + 1) = K.vctr.maxChnkIdx + 1 := u32_eq (by omega)
  obtain ⟨c, b, hl, hb⟩ := hmem
  by_cases h0 : K.vctr.numElements = 0
  · -- the first chunk
    have hmax := h.empty h0
    have hfirst : K.first j u =
        { K with tab := K.tab.set u 0 (K.fresh j), brk := K.brk + 1 } := if_neg (by simp [h0])
    have hlast : (K.first j u).last u = some (K.fresh j) := by
      rw [hfirst]
      show (K.tab.set u 0 (K.fresh j)).chnks (u, K.vctr.maxChnkIdx) = _
      rw [hmax]
      exact update_self ..
    have hopn : K.opn j u = K.first j u := by
      rw [opn, next, if_neg]
      rw [hlast, Core.first_vctr, Option.map_some, Option.some.injEq]
      exact Nat.ne_of_lt h.max_pos
    refine ⟨K.fresh j, _, by rw [hopn, hlast], rfl, h.max_pos, ?_, Nat.zero_le _, ?_, Or.inl ?_⟩
    · unfold VctrVal.room
      rw [if_pos h0]
      rfl
    · rw [List.length_replicate]
      exact hsize
    · rw [hopn, Core.first_vctr]
  · have hfirst : K.first j u = K := if_pos h0
    rw [hfirst] at hl
    obtain ⟨hle, hin, hsmall⟩ := h.last (Nat.pos_of_ne_zero h0) c b hl hb
    by_cases hfull : c.numElements = K.vctr.maxNumInChnk
    · -- the next chunk
      have hopn : K.opn j u =
          { vctr := { K.vctr with maxChnkIdx := u32 (K.vctr.maxChnkIdx + 1) }
            tab := K.tab.set u (u32 (K.vctr.maxChnkIdx + 1)) (K.fresh j)
            brk := K.brk + 1 } := by
        rw [opn, hfirst, next, if_pos (by rw [hl, Option.map_some, hfull])]
      refine ⟨K.fresh j, _, ?_, rfl, h.max_pos, ?_, Nat.zero_le _, ?_, Or.inr ⟨?_, rfl⟩⟩
      · rw [hopn]
        exact update_self ..
      · unfold VctrVal.room
        rw [if_neg h0, hl]
        simp only [if_pos hfull]
        rfl
      · rw [List.length_replicate]
        exact hsize
      · rw [hopn]
        exact hu
    · have hopn : K.opn j u = K := by
        rw [opn, hfirst, next, if_neg (by rw [hl]; simpa using hfull)]
      refine ⟨c, b, by rw [hopn, hl], hb, by omega, ?_, hin, hsmall, Or.inl (by rw [hopn])⟩
      unfold VctrVal.room
      rw [if_neg h0, hl]
      simp only [if_neg hfull]

theorem Core.Ready.good (h : K.Ready u n) (ho : K.Opened j u c b) (hu : u ≠ 0)
    (he : K.vctr.isEov = false)
    (hfits : K.vctr.numElements = 0 → 0 < K.vctr.chnkSize ∧ K.vctr.chnkSize ≤ 1024 * 1048576)
    (hmem : ∃ c b, (K.first j u).last u = some c ∧ c.l1Mem = some b) : K.Good j u := by
  have hidx := h.idx
  generalize n / K.vctr.maxNumInChnk = q at hidx
  refine ⟨hu, he, h.notSc, h.empty, h.min_le, by omega, ?_, hfits, hmem⟩
  have := ho.idx
  omega

/-- A round that leaves something over has filled its chunk. -/
theorem Core.Ready.write (h : K.Ready u n) (ho : K.Opened j u c b) (hkn : k < n)
    (hk : c.numElements + k = K.vctr.maxNumInChnk) (hx : x.length = K.vctr.width * k)
    (hfit : K.vctr.width * (c.numElements + k) ≤ b.bytes.length) :
    ((K.opn j u).write u k x).Ready u (n - k) ∧
      ((K.opn j u).write u k x).vctr.room (((K.opn j u).write u k x).last u) =
        K.vctr.maxNumInChnk := by
  have hlt := ho.lt
  have hv := Core.write_vctr (k := k) (x := x) ho.last ho.mem
  have hwid : (K.opn j u).vctr.width = K.vctr.width := by rw [Core.opn_vctr]
  have hl := Core.last_write (k := k) (x := x) ho.last ho.mem
  have hnum : K.vctr.numElements + k ≠ 0 := by omega
  have hidx : (K.opn j u).vctr.maxChnkIdx + (n - k) / K.vctr.maxNumInChnk + 1 < lmaIdx := by
    have hK := h.idx
    cases ho.idx with
    | inl hsame =>
        have := Nat.div_le_div_right (c := K.vctr.maxNumInChnk) (Nat.sub_le n k)
        rw [hsame]
        omega
    | inr hnext =>
        obtain ⟨hsucc, h0⟩ := hnext
        have hkm : k = K.vctr.maxNumInChnk := by omega
        have := Nat.div_eq_sub_div h.max_pos (show K.vctr.maxNumInChnk ≤ n by omega)
        rw [hsucc, hkm]
        omega
  constructor
  · refine ⟨?_, ?_, ?_, ?_, fun h0 => ?_, ?_, ?_, fun _ c' b' hl' hb' => ?_⟩
    · rw [hv]
      exact h.width_pos
    · rw [hv]
      exact h.max_pos
    · rw [hv]
      exact h.max_lt
    · rw [hv]
      exact h.notSc
    · rw [hv] at h0
      exact absurd h0 hnum
    · rw [hv]
      have := ho.idx
      have := h.min_le
      simp only
      omega
    · rw [hv]
      exact hidx
    · obtain rfl := Option.some.inj (hl.symm.trans hl')
      obtain rfl := Option.some.inj hb'
      rw [hv]
      have hoff : u32 (c.numElements * K.vctr.width) + x.length ≤ b.bytes.length := by
        have := ho.fits
        have := ho.small
        rw [Nat.mul_comm, u32_eq (by omega), hx, ← Nat.mul_add]
        exact hfit
      simp only [hwid, length_splice hoff]
      exact ⟨by omega, hfit, ho.small⟩
  · unfold VctrVal.room
    rw [hl, hv, if_neg hnum]
    exact if_pos hk

/-- After a round that has filled its chunk, the longest round to come is the next. -/
theorem VctrVal.noWrap_rest {v w : VctrVal} {o o' : Option ChnkVal} (hk : v.room o = k)
    (hkn : k ≤ n) (hwrap : v.width * k < 2 ^ 32) (hw : w.width = v.width)
    (hm : w.maxNumInChnk = v.maxNumInChnk) (hr : w.room o' = v.maxNumInChnk) :
    w.NoWrap o' (n - k) ↔ v.NoWrap o n := by
  unfold VctrVal.NoWrap
  rw [hr, hw, hm, hk, Nat.min_eq_right hkn]
  refine ⟨fun h => ⟨hwrap, h.1⟩, fun h => ⟨h.2, Nat.lt_of_le_of_lt ?_ h.2⟩⟩
  exact Nat.mul_le_mul_left _ (by omega)

theorem put1s_append (xs ys : List (List UInt8)) :
    put1s u (xs ++ ys) = put1s u xs >>= fun _ => put1s u ys := by
  induction xs with
  | nil => rw [List.nil_append, put1s, pure_bind]
  | cons x xs ih => rw [List.cons_append, put1s, put1s, ih, bind_assoc]

theorem throws_ub {α : Type} {p : M α} (h : Ends p s (fun _ _ => False) fun e _ => e = .ub) :
    ∃ t, p s = .error .ub t := by
  cases hp : p s with
  | ok a t => exact (h.of_ok hp).elim
  | error e t => exact ⟨t, by rw [h.of_error hp]⟩

/-- The calls of `vctr_put1` for the elements of one round. -/
theorem Core.Good.ends_put1s_slices (hg : K.Good j u) (hm : K.vctr.minChnkIdx ≤ m)
    (hm' : m ≤ K.top) (h : Shows V j s u (K.trim u m)) (ho : K.Opened j u c b) (hk : 0 < k)
    (hroom : c.numElements + k ≤ K.vctr.maxNumInChnk) (hX : K.vctr.width * k ≤ X.length) :
    Ends (put1s u (slices K.vctr.width k X)) s
      (fun _ t => K.vctr.width * (c.numElements + k) ≤ b.bytes.length ∧
        Shows V j t u (((K.opn j u).write u k (X.take (K.vctr.width * k))).trim u
          ((K.opn j u).write u k (X.take (K.vctr.width * k))).top))
      fun e _ => e = .ub ∧ ¬ K.vctr.width * (c.numElements + k) ≤ b.bytes.length := by
  have hlen : (slices K.vctr.width k X).length = k := length_slices
  have hall : ∀ y ∈ slices K.vctr.width k X, y.length = K.vctr.width :=
    fun y hy => length_of_mem_slices hX hy
  rw [← flatten_slices]
  generalize slices K.vctr.width k X = L at hlen hall ⊢
  cases L with
  | nil =>
      rw [List.length_nil] at hlen
      omega
  | cons x xs =>
      rw [List.length_cons] at hlen
      subst hlen
      exact hg.ends_put1s hm hm' h ho.last ho.mem ho.fits ho.small hall hroom

/-- The last round, where it does not copy too much. -/
theorem VctrVal.noWrap_of_le {v : VctrVal} {o : Option ChnkVal} (hroom : n ≤ v.room o)
    (hwrap : v.width * n < 2 ^ 32) : v.NoWrap o n := by
  unfold VctrVal.NoWrap
  rw [Nat.min_eq_left hroom, Nat.sub_eq_zero_of_le hroom, Nat.zero_min, Nat.mul_zero]
  exact ⟨hwrap, by decide⟩

/-- Two states that show the same, with a window that is trimmed. -/
structure Meet (V : Nat → Option VctrVal) (j : UInt8) (t t' : St) (u : Nat) (Z : Core) :
    Prop where
  left : Shows V j t u Z
  right : Shows V j t' u Z
  trimmed : Z.top = Z.vctr.minChnkIdx
  open_ : Z.vctr.isEov = false
  min_le : Z.vctr.minChnkIdx ≤ Z.vctr.maxChnkIdx
  idx_lt : Z.vctr.maxChnkIdx < lmaIdx

/-- `vctr_memo` does nothing to a window that is trimmed. -/
theorem Meet.vctrMemo {Z : Core} (h : Meet V j s t u Z) (hok : vctrMemo u s = .ok () s') :
    Meet V j s' t u Z := by
  have ht := (h.left.ends_vctrMemo h.open_ h.min_le h.idx_lt).of_ok hok
  rw [h.trimmed, Core.trim_self] at ht
  exact { h with left := ht }

/-- **A `vctr_putn` that succeeds**, and `vctr_put1` of the same elements from a state
that may have been trimmed already: they end with the same tables, unless a round of the
first copies 2^32 bytes or more. Then the memory of the chunk runs out under the second. -/
theorem put1s_of_putn (depth : Nat) (h : Shows V j s u K) (hs' : Shows V j s' u (K.trim u m))
    (hm : K.vctr.minChnkIdx ≤ m) (hm' : m ≤ K.top) (hr : K.Ready u n)
    (hX : K.vctr.width * n ≤ X.length) (hok : vctrPutnLoop depth u X n s = .ok () t) :
    (K.vctr.NoWrap (K.last u) n →
      ∃ Z t', put1s u (slices K.vctr.width n X) s' = .ok () t' ∧ Meet V j t t' u Z) ∧
    (¬ K.vctr.NoWrap (K.last u) n →
      ∃ t', put1s u (slices K.vctr.width n X) s' = .error .ub t') := by
  induction depth generalizing n X s s' K m t with
  | zero => contradiction
  | succ depth ih =>
      rw [vctrPutnLoop, bind_eq_ok] at hok
      obtain ⟨⟨k, nbytes⟩, s₁, hround, hok⟩ := hok
      rw [bind_eq_ok] at hok
      obtain ⟨⟨⟩, s₂, hloop, hmemo⟩ := hok
      obtain ⟨hu, hn, he, hfits, hmem, hspec⟩ := h.ends_putnRound.of_ok hround
      obtain ⟨c, b, ho⟩ := hr.opened hmem
      obtain ⟨k', hk, hkn, hfit, hs₁⟩ := hspec c b ho.last ho.mem
      obtain ⟨rfl, rfl⟩ := Prod.mk.inj hkn
      have hg := hr.good ho hu he hfits hmem
      have hlt := ho.lt
      have hmaxlt := hr.max_lt
      have hsmall := ho.small
      have hin := ho.fits
      have hspace : u32 (K.vctr.maxNumInChnk + 2 ^ 32 - c.numElements) =
          K.vctr.maxNumInChnk - c.numElements := by
        unfold u32
        omega
      rw [hspace, ← ho.room] at hk
      have hroom := ho.room
      have hk0 : 0 < k := by omega
      have hkle : k ≤ n := by omega
      have hXk : K.vctr.width * k ≤ X.length :=
        Nat.le_trans (Nat.mul_le_mul_left _ hkle) hX
      have hsplit : slices K.vctr.width n X = slices K.vctr.width k X ++
          slices K.vctr.width (n - k) (X.drop (K.vctr.width * k)) := by
        rw [← slices_add, Nat.add_sub_cancel' hkle]
      have hfirst := hg.ends_put1s_slices hm hm' hs' ho hk0 (by omega) hXk
      rw [hsplit, put1s_append]
      by_cases hwrap : K.vctr.width * k < 2 ^ 32
      swap
      · -- the memory runs out
        have hno : ¬ K.vctr.width * (c.numElements + k) ≤ b.bytes.length := by
          rw [Nat.mul_add]
          omega
        refine ⟨fun hw => absurd (hk ▸ hw.1) hwrap, fun _ => throws_ub ?_⟩
        rw [ends_bind]
        exact hfirst.imp (fun _ t ht => absurd ht.1 hno) fun e t ht => ht.1
      have hu32 : u32 (k * K.vctr.width) = K.vctr.width * k := by
        rw [Nat.mul_comm, u32_eq hwrap]
      have hfit' : K.vctr.width * (c.numElements + k) ≤ b.bytes.length := by
        rw [hu32, Nat.mul_comm, u32_eq (by omega)] at hfit
        rw [Nat.mul_add]
        exact hfit
      rw [hu32] at hs₁ hloop
      obtain ⟨⟨⟩, s₁', hput, -, hs₁'⟩ := Ends.returns (hfirst.imp (fun _ _ ht => ht)
        fun e t ht => ht.2 hfit')
      have hxlen : (X.take (K.vctr.width * k)).length = K.vctr.width * k := by
        rw [List.length_take, Nat.min_eq_left hXk]
      have hv := Core.write_vctr (k := k) (x := X.take (K.vctr.width * k)) ho.last ho.mem
      obtain ⟨hZe, hZmin, hZidx⟩ := hg.write_shape (k := k) (x := X.take (K.vctr.width * k))
        ho.last ho.mem
      by_cases hmore : n > k
      · -- the chunk is full, and the next round starts on it
        obtain ⟨hr₁, hroom₁⟩ := hr.write ho hmore (by omega) hxlen hfit'
        generalize (K.opn j u).write u k (X.take (K.vctr.width * k)) = Z at *
        rw [onlyIf, if_pos hmore] at hloop
        have hZw : Z.vctr.width = K.vctr.width := by rw [hv]
        have hZm : Z.vctr.maxNumInChnk = K.vctr.maxNumInChnk := by rw [hv]
        have hih := ih hs₁ hs₁' Core.min_le_top (Nat.le_refl _) hr₁
          (by rw [hZw, List.length_drop, Nat.mul_sub]; omega) hloop
        rw [hZw] at hih
        rw [← VctrVal.noWrap_rest (by omega) hkle hwrap hZw hZm hroom₁]
        constructor
        · intro hw
          obtain ⟨Z', t', hput', hmeet⟩ := hih.1 hw
          exact ⟨Z', t', bind_eq_ok.mpr ⟨_, s₁', hput, hput'⟩, hmeet.vctrMemo hmemo⟩
        · intro hw
          obtain ⟨t', hput'⟩ := hih.2 hw
          refine ⟨t', ?_⟩
          simp only [bind, EStateM.bind, hput]
          exact hput'
      · -- the last round
        have hkn : k = n := by omega
        subst hkn
        generalize (K.opn j u).write u k (X.take (K.vctr.width * k)) = Z at *
        rw [onlyIf, if_neg hmore] at hloop
        cases hloop
        refine ⟨fun _ => ⟨Z.trim u Z.top, s₁', ?_, ?_⟩,
          fun h => absurd (VctrVal.noWrap_of_le (by omega) hwrap) h⟩
        · rw [Nat.sub_self]
          exact bind_eq_ok.mpr ⟨_, s₁', hput, rfl⟩
        · exact ⟨(hs₁.ends_vctrMemo hZe hZmin hZidx).of_ok hmemo, hs₁',
            Core.top_trim Core.min_le_top (Nat.le_refl _), hZe, Core.top_le hZmin, hZidx⟩

end Rounds

/-! ## both ways -/

section Both

variable {s t : St} {u n : Nat} {v : VctrVal} {X : List UInt8}

/-- What appending to a vector finds in a state. -/
def St.core (s : St) (v : VctrVal) : Core := ⟨v, s.tab, s.brk⟩

/-- The calls of `vctr_put1` for the elements of `X` end with the tables of `t`. -/
def SameAsSingles (s t : St) (u : Nat) (v : VctrVal) (X : List UInt8) (n : Nat) : Prop :=
  ∃ t', put1s u (slices v.width n X) s = .ok () t' ∧
    t'.vctrs = t.vctrs ∧ t'.chnks = t.chnks ∧ t'.fs = t.fs

theorem shows_core (hv : s.vctrs u = some v) : Shows s.vctrs s.junk s u (s.core v) :=
  ⟨by rw [St.core, ← hv, update_eq_self], rfl, rfl, rfl⟩

/-- **`vctr_putn` against `vctr_put1`**: the same tables, exactly if no round of
`vctr_putn` copies 2^32 bytes or more. -/
theorem putn_sameAsSingles_iff (hv : s.vctrs u = some v) (hr : (s.core v).Ready u n)
    (hX : v.width * n ≤ X.length) (hput : vctrPutn u X n s = .ok () t) :
    SameAsSingles s t u v X n ↔ v.NoWrap (s.chnks (u, v.maxChnkIdx)) n := by
  have hs := shows_core hv
  have htrim : Shows s.vctrs s.junk s u ((s.core v).trim u v.minChnkIdx) := by
    rw [show v.minChnkIdx = (s.core v).vctr.minChnkIdx from rfl, Core.trim_self]
    exact hs
  obtain ⟨hsame, hfails⟩ := put1s_of_putn (n + 1) hs htrim (Nat.le_refl _)
    (Core.min_le_top (K := s.core v)) hr hX hput
  constructor
  · rintro ⟨t', hrun, -⟩
    by_contra hwrap
    obtain ⟨t'', hub⟩ := hfails hwrap
    rw [show (s.core v).vctr.width = v.width from rfl, hrun] at hub
    contradiction
  · intro hwrap
    obtain ⟨Z, t', hrun, hmeet⟩ := hsame hwrap
    have ht := hmeet.left
    have ht' := hmeet.right
    exact ⟨t', hrun, ht'.vctrs.trans ht.vctrs.symm, ht'.chnks.trans ht.chnks.symm,
      ht'.fs.trans ht.fs.symm⟩

/-- Two bytes. -/
theorem putn_sameAsSingles_two : ∃ t v, (added (plainArgs .I1 0)).vctrs 1 = some v ∧
    vctrPutn 1 [7, 8] 2 (added (plainArgs .I1 0)) = .ok () t ∧
    SameAsSingles (added (plainArgs .I1 0)) t 1 v [7, 8] 2 := by
  have hput : vctrPutn 1 [7, 8] 2 (added (plainArgs .I1 0)) = .ok () _ :=
    run_of_outcome_ok (by decide +kernel)
  refine ⟨_, _, rfl, hput, (putn_sameAsSingles_iff rfl ?_ (by decide) hput).mpr ?_⟩
  · exact ⟨by decide, by decide, by decide, by decide, fun _ => rfl, by decide, by decide,
      fun h => absurd h (by decide)⟩
  · exact ⟨by decide, by decide⟩

/-- A vector of 8-byte integers whose chunks are too large: their size is taken to be 512
bytes. -/
def huge : St := added (plainArgs .I8 (2 ^ 29 + 64))

/-- 2^29 elements are put at once, without an error and without a byte being copied. -/
theorem ends_putn_huge : Ends (vctrPutn 1 X (2 ^ 29)) huge (fun _ _ => True) fun _ _ => False := by
  have hv : huge.vctrs 1 = some (plainArgs .I8 (2 ^ 29 + 64)).entry := rfl
  have hs := shows_core hv
  rw [vctrPutn, vctrPutnLoop, ends_bind, putnRound, ends_bind, ends_byeIf_neg (by decide),
    ends_bind, ends_byeIf_neg (by decide), ends_bind, ends_getVctr_of hv, ends_bind,
    ends_byeIf_neg (by decide), ends_bind]
  refine hs.ends_chnkFirst.imp ?_ fun e t ht => ht.2 fun _ => by decide
  rintro - t ⟨-, ht⟩
  rw [ends_bind]
  refine ht.ends_chnkToPut.imp ?_ fun e t ht => ht.2 ⟨_, _, rfl, rfl⟩
  rintro _ a ⟨-, rfl, ha⟩
  generalize hi : (Core.next huge.junk 1 ((huge.core (plainArgs .I8 (2 ^ 29 + 64)).entry).first
    huge.junk 1)).vctr.maxChnkIdx = i
  obtain rfl : i = 0 := hi.symm
  -- the chunk that is found, and what is to be copied into it
  obtain ⟨c, hc, hmem, hnum⟩ : ∃ c, a.chnks (1, 0) = some c ∧
      c.l1Mem = some ⟨1, List.replicate 512 huge.junk⟩ ∧ c.numElements = 0 := by
    rw [ha.chnks]
    exact ⟨_, rfl, rfl, rfl⟩
  rw [ends_bind, ends_getChnk_of hc, hmem, hnum]
  have hk : (if 2 ^ 29 > u32 ((plainArgs .I8 (2 ^ 29 + 64)).entry.maxNumInChnk + 2 ^ 32 - 0)
      then u32 ((plainArgs .I8 (2 ^ 29 + 64)).entry.maxNumInChnk + 2 ^ 32 - 0) else 2 ^ 29) =
      2 ^ 29 := by decide
  have hbytes : u32 (2 ^ 29 * (plainArgs .I8 (2 ^ 29 + 64)).entry.width) = 0 := by decide
  simp only [hk, hbytes]
  rw [ends_bind, ends_takeN]
  refine ⟨fun _ => ?_, fun h => absurd (Nat.zero_le _) h⟩
  rw [List.take_zero, ends_bind, ends_poke]
  refine ⟨fun _ => ?_, fun h => absurd (by rw [List.length_replicate]; decide) h⟩
  rw [ends_bind, ends_modVctr_of ha.found, ends_bind, ends_setChnk, ends_pure, onlyIf,
    if_neg (Nat.lt_irrefl _)]
  rw [ends_bind, ends_pure, vctrMemo, ends_bind, ends_getVctr_of (by
    rw [St.setChnk_vctrs, St.setVctr_self])]
  trivial

/-- The calls of `vctr_put1` write past the end of the memory. -/
theorem putn_sameAsSingles_fails : ∃ t v, huge.vctrs 1 = some v ∧ (huge.core v).Ready 1 (2 ^ 29) ∧
    v.width * 2 ^ 29 = (List.replicate (2 ^ 32) (7 : UInt8)).length ∧
    vctrPutn 1 (List.replicate (2 ^ 32) 7) (2 ^ 29) huge = .ok () t ∧
    ¬ SameAsSingles huge t 1 v (List.replicate (2 ^ 32) 7) (2 ^ 29) := by
  have hv : huge.vctrs 1 = some (plainArgs .I8 (2 ^ 29 + 64)).entry := rfl
  have hlen : (plainArgs .I8 (2 ^ 29 + 64)).entry.width * 2 ^ 29 =
      (List.replicate (2 ^ 32) (7 : UInt8)).length := by
    rw [List.length_replicate]
    decide
  have hr : (huge.core (plainArgs .I8 (2 ^ 29 + 64)).entry).Ready 1 (2 ^ 29) :=
    ⟨by decide, by decide, by decide, by decide, fun _ => rfl, by decide, by decide,
      fun h => absurd h (by decide)⟩
  obtain ⟨⟨⟩, t, hput, -⟩ := Ends.returns (ends_putn_huge (X := List.replicate (2 ^ 32) 7))
  refine ⟨t, _, hv, hr, hlen, hput, ?_⟩
  rintro ⟨t', hrun, -⟩
  have hs := shows_core hv
  have htrim : Shows huge.vctrs huge.junk huge 1
      ((huge.core (plainArgs .I8 (2 ^ 29 + 64)).entry).trim 1 0) := hs
  obtain ⟨t'', hub⟩ := (put1s_of_putn (2 ^ 29 + 1) hs htrim (Nat.le_refl _) (Nat.zero_le _) hr
    hlen.le hput).2 (by
      rintro ⟨hw, -⟩
      exact absurd hw (by decide))
  have hboth := hrun.symm.trans hub
  simp only [reduceCtorEq] at hboth

end Both

end QStore.Vctr
