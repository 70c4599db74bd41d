import QStore.Vctr.LVector

/-!
# QStore.Vctr.Stages

How far a lazily evaluated vector has come.

A stream is some full chunks and a shorter one (`Lengths`). A `Column` is a vector
of the runtime and what is put into it. It is at stage `k` when the first `k`
chunks of its stream, less an empty last one, are in the runtime and nothing else
is; each call into C takes it from one stage to another, or changes the number of
readers of a chunk.
-/

namespace QStore.Vctr

open Function

/-! ## the lengths of the chunks -/

/-- The chunks of a stream: `last` of them are full, and the one after them has
`short` elements. -/
structure Lengths where
  max : Nat
  last : Nat
  short : Nat
  short_lt : short < max
  max_lt : max < 2 ^ 32

namespace Lengths

variable (n : Lengths) {k j : Nat}

/-- The number of elements in chunk `j`. -/
def num (j : Nat) : Nat := if j < n.last then n.max else if j = n.last then n.short else 0

/-- The number of elements in the first `k` chunks. -/
def total (k : Nat) : Nat := min k n.last * n.max + if n.last < k then n.short else 0

/-- How many of the first `k` chunks have elements. -/
def chunks (k : Nat) : Nat := if n.last < k ∧ n.short = 0 then n.last else k

variable {n}

theorem max_pos : 0 < n.max := Nat.lt_of_le_of_lt (Nat.zero_le _) n.short_lt

theorem num_of_lt (h : j < n.last) : n.num j = n.max := by rw [num, if_pos h]

theorem num_last : n.num n.last = n.short := by simp [num]

theorem num_le : n.num j ≤ n.max := by
  have := n.short_lt
  unfold num
  split
  · omega
  · split <;> omega

/-- A chunk is full unless it is the last. -/
theorem num_lt_iff (h : k ≤ n.last) : n.num k < n.max ↔ k = n.last := by
  have := n.short_lt
  by_cases hk : k = n.last
  · simp [hk, num_last, this]
  · simp [hk, num_of_lt (Nat.lt_of_le_of_ne h hk)]

/-- Only the last chunk can be empty. -/
theorem empty (h : k ≤ n.last) (h0 : n.num k = 0) : k = n.last ∧ n.short = 0 := by
  have hmax := n.max_pos
  by_cases hk : k = n.last
  · rw [hk, num_last] at h0
    exact ⟨hk, h0⟩
  · rw [num_of_lt (Nat.lt_of_le_of_ne h hk)] at h0
    omega

theorem total_of_le (h : k ≤ n.last) : n.total k = k * n.max := by
  simp [total, Nat.min_eq_left h, Nat.not_lt.mpr h]

theorem total_succ (h : k ≤ n.last) : n.total (k + 1) = n.total k + n.num k := by
  rw [total_of_le h]
  by_cases hk : k = n.last
  · simp [total, hk, num_last]
  · have hlt := Nat.lt_of_le_of_ne h hk
    rw [total_of_le hlt, num_of_lt hlt, Nat.succ_mul]

theorem total_zero : n.total 0 = 0 := by simp [total]

/-- If the first chunk is not empty, the vector is not once it was put. -/
theorem total_pos (hfirst : 0 < n.last ∨ 0 < n.short) (h : 0 < k) : 0 < n.total k := by
  have hmax := n.max_pos
  unfold total
  by_cases hl : 0 < n.last
  · have : 0 < min k n.last * n.max := Nat.mul_pos (by omega) hmax
    omega
  · have hlast : n.last < k := by omega
    simp only [hlast, if_true]
    omega

theorem chunks_of_le (h : k ≤ n.last) : n.chunks k = k := by
  rw [chunks, if_neg (by omega)]

theorem chunks_succ (h : k ≤ n.last) (hn : 0 < n.num k) : n.chunks (k + 1) = k + 1 := by
  by_cases hk : k = n.last
  · rw [hk, num_last] at hn
    rw [chunks, if_neg (by omega)]
  · exact chunks_of_le (Nat.lt_of_le_of_ne h hk)

theorem chunks_end (h : n.short = 0) : n.chunks (n.last + 1) = n.last := by
  simp [chunks, h]

theorem chunks_le (h : k ≤ n.last + 1) : n.chunks k ≤ k ∧ n.chunks k ≤ n.last + 1 := by
  unfold chunks
  split <;> omega

theorem chunks_mono (hkj : k ≤ j) (hj : j ≤ n.last + 1) : n.chunks k ≤ n.chunks j := by
  unfold chunks
  split <;> split <;> omega

/-- The chunks that are in the runtime have elements. -/
theorem num_pos (hk : k ≤ n.last + 1) (hj : j < n.chunks k) : 0 < n.num j := by
  have := n.max_pos
  unfold chunks at hj
  unfold num
  split at hj
  · rw [if_pos hj]
    exact this
  · split
    · exact this
    · rw [if_pos (by omega)]
      omega

/-- At the end, those that are not there have none. -/
theorem num_past (hj : n.chunks (n.last + 1) ≤ j) : n.num j = 0 := by
  unfold chunks at hj
  unfold num
  split at hj
  · rw [if_neg (by omega)]
    split <;> omega
  · rw [if_neg (by omega), if_neg (by omega)]

end Lengths

/-! ## a vector of the runtime -/

/-- The entry of a vector at stage `k`. -/
def VctrVal.after (v : VctrVal) (n : Lengths) (k : Nat) : VctrVal :=
  { v with
    numElements := n.total k
    maxChnkIdx := n.chunks k - 1
    isEov := decide (n.last < k) }

/-- How many bytes `n` elements take. -/
def VctrVal.bytesOf (v : VctrVal) (n : Nat) : Nat :=
  if v.qtype = .B1 then (n + 7) / 8 else v.width * n

/-- `vctr_put_chunk` keeps what is in such a block: its memory can be taken over, or
it is copied, where there is a bound on how much can be allocated at once and
bits, which have no width, are not copied. -/
structure VctrVal.Keeps (v : VctrVal) (cmem : Cmem) : Prop where
  size : 0 < u32 cmem.size
  fits : v.qtype ≠ .B1 → u32 cmem.size = v.chnkSize
  owned : cmem.isStealable = true → cmem.isForeign = false
  copied : cmem.isStealable = false →
    v.qtype ≠ .B1 ∧ v.width * v.maxNumInChnk ≤ 1024 * 1048576

/-- A vector of the runtime, the blocks that are put into it, and the bytes of its
elements in each. -/
structure Column where
  uqid : Nat
  entry : VctrVal
  cmem : Nat → Cmem
  bytes : Nat → List UInt8

/-- The blocks hold the chunks, and the runtime keeps them. The first chunk is not
empty, and the numbers of the chunks fit an `int`. -/
structure Column.Fits (col : Column) (n : Lengths) : Prop where
  first : 0 < n.last ∨ 0 < n.short
  last_lt : n.last < 2 ^ 31
  uqid_pos : col.uqid ≠ 0
  max_eq : col.entry.maxNumInChnk = n.max
  memo : col.entry.memoLen = 0
  lma : col.entry.isLma = false
  error : col.entry.isError = false
  length : ∀ j, 0 < n.num j → (col.bytes j).length = col.entry.bytesOf (n.num j)
  holds : ∀ j, 0 < n.num j → ∃ b, (col.cmem j).data = some b ∧ col.bytes j <+: b.bytes
  kept : ∀ j, 0 < n.num j → col.entry.Keeps (col.cmem j)

/-- Chunk `j` is in the runtime. -/
structure Column.Stored (col : Column) (n : Lengths) (j : Nat) (c : ChnkVal) : Prop where
  writers : c.numWriters = 0
  num : c.numElements = n.num j
  mem : ∃ b, c.l1Mem = some b ∧ col.bytes j <+: b.bytes

/-- The first `k` chunks are in the runtime, with so many readers each. -/
structure Column.At (col : Column) (n : Lengths) (k : Nat) (readers : Nat → UInt16) (s : St) :
    Prop where
  vctr : s.vctrs col.uqid = some (col.entry.after n k)
  inside : ∀ j, j < n.chunks k → ∃ c, s.chnks (col.uqid, j) = some c ∧ col.Stored n j c ∧
    c.numReaders = readers j
  outside : ∀ j, n.chunks k ≤ j → s.chnks (col.uqid, j) = none

/-- Only vector `u` and its chunks differ. -/
structure OnlyAt (u : Nat) (s t : St) : Prop where
  vctrs : ∀ w, w ≠ u → t.vctrs w = s.vctrs w
  chnks : ∀ w j, w ≠ u → t.chnks (w, j) = s.chnks (w, j)

theorem OnlyAt.refl {u : Nat} {s : St} : OnlyAt u s s := ⟨fun _ _ => rfl, fun _ _ _ => rfl⟩

theorem OnlyAt.trans {u : Nat} {r s t : St} (h : OnlyAt u r s) (h' : OnlyAt u s t) :
    OnlyAt u r t :=
  ⟨fun w hw => (h'.vctrs w hw).trans (h.vctrs w hw),
    fun w j hw => (h'.chnks w j hw).trans (h.chnks w j hw)⟩

section Column

variable {col : Column} {n : Lengths} {k i : Nat} {readers : Nat → UInt16} {s t : St}

theorem ends_vctrMemo_of {u : Nat} {v : VctrVal} (hv : s.vctrs u = some v) (hm : v.memoLen = 0)
    {Q : Unit → St → Prop} {E : Err → St → Prop} : Ends (vctrMemo u) s Q E ↔ Q () s := by
  simp [vctrMemo, hv, hm]

theorem ends_onlyIf_vctrMemo {u : Nat} {v : VctrVal} {c : Prop} [Decidable c]
    (hv : s.vctrs u = some v) (hm : v.memoLen = 0) {Q : Unit → St → Prop} {E : Err → St → Prop} :
    Ends (onlyIf c (vctrMemo u)) s Q E ↔ Q () s := by
  by_cases hc : c <;> simp [hc, ends_vctrMemo_of hv hm]

/-- What is true of a stage stays true when another vector changes. -/
theorem Column.At.frame (h : col.At n k readers s) {u : Nat} (ht : OnlyAt u s t)
    (hu : col.uqid ≠ u) : col.At n k readers t where
  vctr := (ht.vctrs _ hu).trans h.vctr
  inside j hj := by
    rw [ht.chnks _ j hu]
    exact h.inside j hj
  outside j hj := by
    rw [ht.chnks _ j hu]
    exact h.outside j hj

/-- The memory of the new chunk holds what the block held. -/
theorem Column.Fits.ends_takeOver (h : col.Fits n) (hn : 0 < n.num k) :
    Ends (takeOver (col.cmem k) (u32 (col.cmem k).size) (u32 (n.num k * col.entry.width))) s
      (fun r t => (∃ b, r.1 = some b ∧ col.bytes k <+: b.bytes) ∧ r.2.data = (col.cmem k).data ∧
        t.vctrs = s.vctrs ∧ t.chnks = s.chnks)
      fun _ _ => False := by
  obtain ⟨b, hb, hbytes⟩ := h.holds k hn
  have hkept := h.kept k hn
  unfold takeOver
  cases hs : (col.cmem k).isStealable with
  | true =>
      have hforeign := hkept.owned hs
      simp only [if_true, ends_bind, hforeign, ends_byeIf, Bool.false_eq_true, false_implies,
        not_false_eq_true, true_implies, ends_pure, true_and]
      exact ⟨⟨b, hb, hbytes⟩, trivial⟩
  | false =>
      obtain ⟨hq, hsmall⟩ := hkept.copied hs
      have hsize : u32 (col.cmem k).size = col.entry.width * n.max := by
        rw [hkept.fits hq, VctrVal.chnkSize, h.max_eq]
        rw [h.max_eq] at hsmall
        exact u32_eq (by omega)
      have hlen : (col.bytes k).length = n.num k * col.entry.width := by
        rw [h.length k hn, VctrVal.bytesOf, if_neg hq, Nat.mul_comm]
      have hle : n.num k * col.entry.width ≤ col.entry.width * n.max := by
        rw [Nat.mul_comm]
        exact Nat.mul_le_mul_left _ Lengths.num_le
      rw [h.max_eq] at hsmall
      have hcopy : u32 (n.num k * col.entry.width) = (col.bytes k).length := by
        rw [hlen]
        exact u32_eq (by omega)
      have htake : b.bytes.take (col.bytes k).length = col.bytes k :=
        (List.prefix_iff_eq_take.mp hbytes).symm
      simp only [Bool.false_eq_true, if_false, ends_bind, ends_memalign]
      refine ends_incrMem_of_size ?_ fun _ _ m r => ?_
      · have := hkept.size
        intro hbad
        omega
      · have hroom : (col.bytes k).length ≤ u32 (col.cmem k).size := by
          rw [hsize, hlen]
          exact hle
        simp only [hb, hcopy, ends_bind, ends_takeN, hbytes.length_le, true_implies, htake,
          ends_poke, List.length_replicate, Nat.zero_add, hroom, ends_pure, not_true_eq_false,
          false_implies, and_true]
        exact ⟨⟨_, rfl, by simp [splice]⟩, trivial, rfl, rfl⟩

/-- One more chunk takes a vector to the next stage. -/
theorem Column.At.next (hs : col.At n k readers s) (hk : k ≤ n.last) (hn : 0 < n.num k) {c : ChnkVal}
    (hc : col.Stored n k c) (hv : t.vctrs col.uqid = some (col.entry.after n (k + 1)))
    (ht : ∀ j, t.chnks (col.uqid, j) = if j = k then some c else s.chnks (col.uqid, j)) :
    col.At n (k + 1) (update readers k c.numReaders) t where
  vctr := hv
  inside j hj := by
    rw [Lengths.chunks_succ hk hn] at hj
    rw [ht]
    by_cases hjk : j = k
    · subst hjk
      exact ⟨c, by simp, hc, by simp⟩
    · rw [if_neg hjk, update_of_ne hjk]
      exact hs.inside j (by rw [Lengths.chunks_of_le hk]; omega)
  outside j hj := by
    rw [Lengths.chunks_succ hk hn] at hj
    rw [ht, if_neg (by omega)]
    exact hs.outside j (by rw [Lengths.chunks_of_le hk]; omega)

/-- **Putting a chunk** takes a vector to the next stage. -/
theorem Column.Fits.ends_put (h : col.Fits n) (hs : col.At n k readers s) (hk : k ≤ n.last)
    (hn : 0 < n.num k) :
    Ends (vctrPutChunk col.uqid (col.cmem k) (n.num k)) s
      (fun r t => r.data = (col.cmem k).data ∧ col.At n (k + 1) (update readers k 0) t ∧
        OnlyAt col.uqid s t)
      fun _ _ => False := by
  have hkept := h.kept k hn
  have hopen : ¬ (col.entry.after n k).isEov = true := by simp [VctrVal.after, hk]
  have hle : ¬ n.num k > (col.entry.after n k).maxNumInChnk := by
    rw [VctrVal.after, h.max_eq]
    exact Nat.not_lt.mpr Lengths.num_le
  have hsize : ¬ u32 (col.cmem k).size = 0 := Nat.ne_of_gt hkept.size
  have hfit : ¬ ((col.entry.after n k).qtype ≠ .B1 ∧
      u32 (col.cmem k).size ≠ (col.entry.after n k).chnkSize) := by
    intro hbad
    exact hbad.2 (hkept.fits hbad.1)
  have hmult : ¬ (col.entry.after n k).numElements / (col.entry.after n k).maxNumInChnk *
      (col.entry.after n k).maxNumInChnk ≠ (col.entry.after n k).numElements := by
    simp only [VctrVal.after, h.max_eq, Lengths.total_of_le hk, Nat.mul_div_cancel _ n.max_pos]
    simp
  have hidx : (if n.total k = 0 then 0 else u32 (n.chunks k - 1 + 1)) = k := by
    by_cases h0 : k = 0
    · simp [h0, Lengths.total_zero]
    · have hpos := n.total_pos h.first (Nat.pos_of_ne_zero h0)
      have hlast := h.last_lt
      rw [if_neg (by omega), Lengths.chunks_of_le hk, u32_eq (by omega)]
      omega
  have htake : Ends (putChunkTake col.uqid (col.cmem k) (n.num k)) s
      (fun r t => r.vctr = col.entry.after n k ∧ r.idx = k ∧
        (∃ b, r.l1Mem = some b ∧ col.bytes k <+: b.bytes) ∧ r.cmem.data = (col.cmem k).data ∧
        t.vctrs = s.vctrs ∧ t.chnks = s.chnks)
      fun _ _ => False := by
    simp only [putChunkTake, ends_bind, ends_byeIf_neg h.uqid_pos, ends_byeIf_neg (Nat.ne_of_gt hn),
      ends_getVctr_of hs.vctr, ends_byeIf_neg hopen, ends_byeIf_neg hle, ends_byeIf_neg hsize,
      ends_byeIf_neg hfit, ends_byeIf_neg hmult,
      ends_onlyIf_vctrMemo hs.vctr h.memo, ends_pure]
    refine (h.ends_takeOver hn).imp ?_ fun _ _ => id
    intro r t hr
    exact ⟨trivial, hidx, hr⟩
  rw [vctrPutChunk, ends_bind]
  refine htake.imp ?_ fun _ _ => id
  intro r t hr
  obtain ⟨hv, hi, ⟨b, hb, hbytes⟩, hdata, hvctrs, hchnks⟩ := hr
  have hfound : (t.setChnk col.uqid k (putChnk r.vctr r.size r.l1Mem (n.num k))).vctrs col.uqid =
      some (col.entry.after n k) := hvctrs ▸ hs.vctr
  rw [ends_bind, putChunkEnter, ends_bind, ends_setChnk, hi, ends_bind, ends_modVctr_of hfound,
    ends_bind, ends_vctrMemo_of St.setVctr_self, ends_modVctr_of St.setVctr_self, ends_pure]
  · have hlast : decide (n.num k < n.max) = decide (n.last < k + 1) := by
      rw [decide_eq_decide, Lengths.num_lt_iff hk]
      omega
    have hstored : col.Stored n k (putChnk r.vctr r.size r.l1Mem (n.num k)) := ⟨rfl, rfl, b, hb, hbytes⟩
    refine ⟨hdata, hs.next hk hn hstored ?_ ?_, ?_, ?_⟩
    · simp [VctrVal.after, Lengths.total_succ hk, Lengths.chunks_succ hk hn, hv, h.max_eq, hlast]
    · intro j
      simp [St.setVctr, St.setChnk, update_apply, hchnks]
    · intro w hw
      simp [St.setVctr, hw, hvctrs]
    · intro w j hw
      simp [St.setVctr, St.setChnk, hw, hchnks]
  · exact h.memo

/-- The end of a stream whose last chunk is empty. -/
theorem Column.Fits.ends_eov_empty (h : col.Fits n) (hs : col.At n n.last readers s)
    (h0 : n.short = 0) :
    Ends (vctrEov col.uqid) s
      (fun _ t => col.At n (n.last + 1) readers t ∧ OnlyAt col.uqid s t) fun _ _ => False := by
  have hopen : (col.entry.after n n.last).isEov = false := by simp [VctrVal.after]
  have hpos : ¬ (col.entry.after n n.last).numElements = 0 := by
    have := n.total_pos h.first (k := n.last) (by have := h.first; omega)
    simp only [VctrVal.after]
    omega
  have hnum : n.num n.last = 0 := Lengths.num_last.trans h0
  have hend := Lengths.chunks_end h0
  simp only [vctrEov, ends_bind, ends_getVctr_of hs.vctr, hopen, Bool.false_eq_true, if_false,
    ends_byeIf_neg hpos, ends_vctrMemo_of hs.vctr h.memo, ends_modVctr_of hs.vctr]
  refine ⟨⟨?_, ?_, ?_⟩, ?_, ?_⟩
  · simp [VctrVal.after, Lengths.total_succ, hnum, hend, Lengths.chunks_of_le]
  · intro j hj
    rw [hend] at hj
    exact hs.inside j (by rwa [Lengths.chunks_of_le (Nat.le_refl _)])
  · intro j hj
    rw [hend] at hj
    exact hs.outside j (by rwa [Lengths.chunks_of_le (Nat.le_refl _)])
  · intro w hw
    exact St.setVctr_of_ne hw
  · simp

/-- At the end it is the end already. -/
theorem Column.At.ends_eov (hs : col.At n (n.last + 1) readers s) {Q : Unit → St → Prop}
    {E : Err → St → Prop} : Ends (vctrEov col.uqid) s Q E ↔ Q () s := by
  have heov : (col.entry.after n (n.last + 1)).isEov = true := by simp [VctrVal.after]
  simp only [vctrEov, ends_bind, ends_getVctr_of hs.vctr, heov, if_true, ends_pure]

/-! ### one chunk -/

/-- The number of readers of a chunk changes. -/
theorem Column.At.setReaders (hs : col.At n k readers s) {c : ChnkVal}
    (hc : s.chnks (col.uqid, i) = some c) (hst : col.Stored n i c) (r : UInt16) :
    col.At n k (update readers i r) (s.setChnk col.uqid i { c with numReaders := r }) where
  vctr := hs.vctr
  inside j hj := by
    by_cases hji : j = i
    · subst hji
      exact ⟨_, St.setChnk_self, ⟨hst.writers, hst.num, hst.mem⟩, by simp⟩
    · rw [St.setChnk_of_ne (by simp [hji]), update_of_ne hji]
      exact hs.inside j hj
  outside j hj := by
    have hji : j ≠ i := by
      intro h
      rw [← h, hs.outside j hj] at hc
      cases hc
    rw [St.setChnk_of_ne (by simp [hji])]
    exact hs.outside j hj

theorem onlyAt_setChnk {u : Nat} {c : ChnkVal} : OnlyAt u s (s.setChnk u i c) :=
  ⟨fun _ _ => rfl, fun w j hw => St.setChnk_of_ne (by simp [hw])⟩

/-- A chunk that is not there is one after the last. -/
theorem Column.At.le_of_none (hs : col.At n k readers s) (hc : s.chnks (col.uqid, i) = none) :
    n.chunks k ≤ i := by
  by_contra hlt
  obtain ⟨c, hc', -⟩ := hs.inside i (Nat.lt_of_not_le hlt)
  rw [hc] at hc'
  cases hc'

/-- A chunk that is there is stored. -/
theorem Column.At.of_some (hs : col.At n k readers s) {c : ChnkVal}
    (hc : s.chnks (col.uqid, i) = some c) :
    i < n.chunks k ∧ col.Stored n i c ∧ c.numReaders = readers i := by
  have hlt : i < n.chunks k := by
    by_contra hle
    rw [hs.outside i (Nat.le_of_not_lt hle)] at hc
    cases hc
  obtain ⟨c', hc', hrest⟩ := hs.inside i hlt
  rw [hc, Option.some.injEq] at hc'
  exact ⟨hlt, hc' ▸ hrest⟩

/-- `chnk_get_data` of a chunk in memory. -/
theorem ends_chnkGetData_mem {u : Nat} {c : ChnkVal} {b : Buf} (hc : s.chnks (u, i) = some c)
    (hw : c.numWriters = 0) (hb : c.l1Mem = some b) {Q : Option Buf → St → Prop}
    {E : Err → St → Prop} :
    Ends (chnkGetData u i false) s Q E ↔
      Q (some b) (s.setChnk u i { c with numReaders := c.numReaders + 1 }) := by
  simp [chnkGetData, hc, hw, hb]

/-- **Getting a chunk** that is in the runtime counts a reader; of one that is not,
nothing is known. -/
theorem Column.Fits.ends_getChunk (h : col.Fits n) (hs : col.At n k readers s) :
    Ends (vctrGetChunk col.uqid i) s
      (fun r t => i < n.chunks k ∧ r.num = n.num i ∧ col.bytes i <+: r.bytes ∧
        col.At n k (update readers i (readers i + 1)) t ∧ OnlyAt col.uqid s t)
      fun e t => e = .bye (-1) ∧ t = s ∧ n.chunks k ≤ i := by
  have hlma : (col.entry.after n k).isLma = false := h.lma
  simp only [vctrGetChunk, ends_bind, ends_getVctr_of hs.vctr, hlma, Bool.false_eq_true, if_false]
  rw [ends_getChnk]
  constructor
  · intro hnone
    exact ⟨rfl, rfl, hs.le_of_none hnone⟩
  · intro c hc
    obtain ⟨hlt, hst, hreaders⟩ := hs.of_some hc
    obtain ⟨b, hb, hbytes⟩ := hst.mem
    rw [ends_chnkGetData_mem hc hst.writers hb, ends_pure, ← hreaders]
    exact ⟨hlt, hst.num, hbytes, hs.setReaders hc hst _, onlyAt_setChnk⟩

/-- **Giving a chunk back** takes a reader off, if it has one. -/
theorem Column.Fits.ends_ungetChunk (h : col.Fits n) (hs : col.At n k readers s) :
    Ends (vctrUngetChunk col.uqid i) s
      (fun _ t => i < n.chunks k ∧ readers i ≠ 0 ∧
        col.At n k (update readers i (readers i - 1)) t ∧ OnlyAt col.uqid s t)
      fun e t => e = .bye (-1) ∧ t = s ∧ ¬ (i < n.chunks k ∧ readers i ≠ 0) := by
  have hlma : (col.entry.after n k).isLma = false := h.lma
  simp only [vctrUngetChunk, ends_bind, ends_getVctr_of hs.vctr, hlma, Bool.false_eq_true, if_false]
  rw [ends_getChnk]
  constructor
  · intro hnone
    have hle := hs.le_of_none hnone
    exact ⟨rfl, rfl, by omega⟩
  · intro c hc
    obtain ⟨hlt, hst, hreaders⟩ := hs.of_some hc
    rw [ends_byeIf, ends_setChnk, hreaders]
    constructor
    · intro h0
      simp [h0]
    · intro h0
      exact ⟨hlt, h0, hs.setReaders hc hst _, onlyAt_setChnk⟩

/-- Counting a reader. -/
theorem Column.At.ends_incrNumReaders (hs : col.At n k readers s) (hi : i < n.chunks k) :
    Ends (chnkIncrNumReaders col.uqid i) s
      (fun _ t => col.At n k (update readers i (readers i + 1)) t ∧ OnlyAt col.uqid s t)
      fun _ _ => False := by
  obtain ⟨c, hc, hst, hreaders⟩ := hs.inside i hi
  simp only [chnkIncrNumReaders, ends_bind, ends_getVctr_of hs.vctr, ends_modChnk_of hc]
  rw [← hreaders]
  exact ⟨hs.setReaders hc hst _, onlyAt_setChnk⟩

/-! ### one element -/

/-- Reading an element that a stored chunk may have stays within the memory of the
chunk. -/
theorem Column.Fits.ends_elemAt (h : col.Fits n) {b : Buf} {num off : Nat} (hn : 0 < n.num i)
    (hnum : num = n.num i) (hbytes : col.bytes i <+: b.bytes) :
    Ends (elemAt (col.entry.after n k) num b off) s (fun _ t => t = s) fun _ _ => False := by
  subst hnum
  have hlen := hbytes.length_le
  rw [h.length i hn, VctrVal.bytesOf] at hlen
  unfold elemAt
  by_cases hoff : off + 1 > n.num i
  · simp [hoff]
  have hslice : col.entry.qtype ≠ .B1 →
      u32 (col.entry.width * off) + col.entry.width ≤ b.bytes.length := by
    intro hq
    rw [if_neg hq] at hlen
    have hle : col.entry.width * (off + 1) ≤ col.entry.width * n.num i :=
      Nat.mul_le_mul_left _ (by omega)
    have hmod : u32 (col.entry.width * off) ≤ col.entry.width * off := Nat.mod_le _ _
    rw [Nat.mul_succ] at hle
    omega
  rw [if_neg hoff]
  by_cases hsc : col.entry.qtype = .SC
  · simp [VctrVal.after, hsc, hslice (by simp [hsc])]
  · by_cases hb1 : col.entry.qtype = .B1
    · rw [if_pos hb1] at hlen
      have hin : off / 8 < b.bytes.length := by omega
      simp [VctrVal.after, hb1, getBit, hin]
    · simp [VctrVal.after, hsc, hb1, hslice hb1]

/-- **Reading an element** leaves everything as it was. -/
theorem Column.Fits.ends_get1 (h : col.Fits n) (hs : col.At n k readers s) (hk : k ≤ n.last + 1) :
    Ends (vctrGet1 col.uqid i) s (fun _ t => t = s) fun e t => e = .bye (-1) ∧ t = s := by
  have hlma : (col.entry.after n k).isLma = false := h.lma
  have hmax : ¬ (col.entry.after n k).maxNumInChnk = 0 := by
    have := n.max_pos
    simp only [VctrVal.after, h.max_eq]
    omega
  simp only [vctrGet1, ends_bind, ends_getVctr_of hs.vctr]
  rw [ends_byeIf]
  refine ⟨fun _ => ⟨rfl, rfl⟩, fun _ => ?_⟩
  simp only [hlma, Bool.false_eq_true, if_false, if_neg hmax, ends_bind]
  rw [ends_getChnk]
  refine ⟨fun _ => ⟨rfl, rfl⟩, fun c hc => ?_⟩
  obtain ⟨hlt, hst, hreaders⟩ := hs.of_some hc
  obtain ⟨b, hb, hbytes⟩ := hst.mem
  rw [ends_chnkGetData_mem hc hst.writers hb]
  simp only [ends_bind, ends_getChnk_of St.setChnk_self]
  refine (h.ends_elemAt (Lengths.num_pos hk hlt) hst.num hbytes).imp ?_ fun _ _ => False.elim
  intro r t ht
  subst ht
  have hback : ∀ j, (s.setChnk col.uqid j { c with numReaders := c.numReaders + 1 }).setChnk
      col.uqid j { c with numReaders := c.numReaders + 1 - 1 } = s.setChnk col.uqid j c := by
    intro j
    simp [St.setChnk]
  rw [ends_modChnk_of St.setChnk_self, hback]
  have hsame : s.setChnk col.uqid (u32 (i / (col.entry.after n k).maxNumInChnk)) c = s := by
    rw [St.setChnk, ← hc, update_eq_self]
  rw [hsame]
  cases r <;> simp

end Column

end QStore.Vctr
