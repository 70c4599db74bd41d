import QStore.Vctr.Contract
import QStore.Vctr.Trim

/-!
# QStore.Vctr.PutGet

A chunk that is put is got back (`vctr_put_chunk`, `vctr_get_chunk`).

The memory of a stealable `CMEM` becomes that of the chunk. Of any other,
`n * width` bytes are copied, which is none at all for a bit vector: its `width`
is 0. The chunks that were there before are read as before, but for those that a
memo window lets go.
-/

namespace QStore.Vctr

open Function

variable {s t r : St} {u i j n : Nat} {v w : VctrVal} {c : ChnkVal} {cmem : Cmem} {d : Buf}
  {fs : Fs FileName}

/-! ## what a chunk read finds -/

/-- What `chnk_get_data` finds: the memory of the chunk, or its file if that is of
its size. -/
def chnkData (fs : Fs FileName) (u i : Nat) (c : ChnkVal) : Option (List UInt8) :=
  if c.numWriters > 0 then none
  else match c.l1Mem with
    | some b => some b.bytes
    | none =>
      if c.l2Exists = false then none
      else ((l2FileName u i).bind fs.read).bind fun x => if x.length ≠ c.size then none else some x

theorem ends_chnkGetData_data (hc : s.chnks (u, i) = some c) :
    Ends (chnkGetData u i false) s
      (fun r _ => r.map Buf.bytes = chnkData s.fs u i c) fun _ _ => False := by
  rw [chnkGetData, if_neg (by decide), ends_bind, ends_getChnk_of hc, chnkData]
  by_cases hw : c.numWriters > 0
  · rw [if_pos hw, if_pos hw]
    rfl
  rw [if_neg hw, if_neg hw, ends_bind, ends_setChnk]
  cases hm : c.l1Mem with
  | some b => rfl
  | none =>
      simp only
      by_cases he : c.l2Exists = false
      · rw [if_pos he, if_pos he]
        rfl
      rw [if_neg he, if_neg he]
      cases hf : l2FileName u i with
      | none => rfl
      | some f =>
          simp only [Option.bind_some, ends_bind, ends_get, St.setChnk_fs]
          cases hr : s.fs.read f with
          | none => rfl
          | some x =>
              simp only [Option.bind_some]
              by_cases hx : x.length ≠ c.size
              · rw [if_pos hx, if_pos hx]
                rfl
              · rw [if_neg hx, if_neg hx, ends_bind, ends_memalign, ends_bind, ends_setChnk,
                  ends_bind]
                exact ends_ignore_incrMem fun _ _ => rfl

/-- `vctr_get_chunk` of a vector in chunks. -/
theorem ends_vctrGetChunk_data (hv : s.vctrs u = some v) (hl : v.isLma = false) :
    Ends (vctrGetChunk u i) s
      (fun r _ => ∃ c, s.chnks (u, i) = some c ∧ chnkData s.fs u i c = some r.bytes ∧
        r.num = c.numElements)
      fun _ _ => ∀ c, s.chnks (u, i) = some c → chnkData s.fs u i c = none := by
  rw [vctrGetChunk, ends_bind, ends_getVctr_of hv, if_neg (by simp [hl]), ends_bind, ends_getChnk]
  constructor
  · intro hnone c hc
    rw [hnone] at hc
    contradiction
  · intro c hc
    rw [ends_bind]
    refine (ends_chnkGetData_data hc).imp ?_ fun _ _ => False.elim
    intro b t hb
    cases b with
    | none =>
        intro c' hc'
        cases hc.symm.trans hc'
        exact hb.symm
    | some b => exact ⟨c, hc, hb.symm, rfl⟩

/-- Chunk `j` is read in `t` as it is in `s`. -/
structure ReadsAsBefore (s t : St) (u j : Nat) : Prop where
  succeeds : (∃ r t', vctrGetChunk u j t = .ok r t') ↔ ∃ r s', vctrGetChunk u j s = .ok r s'
  same : ∀ r s' r' t', vctrGetChunk u j s = .ok r s' → vctrGetChunk u j t = .ok r' t' →
    r'.num = r.num ∧ r'.bytes = r.bytes

/-- A read succeeds where there is data, and finds it. -/
theorem vctrGetChunk_ok_iff (hv : s.vctrs u = some v) (hl : v.isLma = false) :
    (∃ r s', vctrGetChunk u i s = .ok r s') ↔
      ∃ c, s.chnks (u, i) = some c ∧ chnkData s.fs u i c ≠ none := by
  have hends := ends_vctrGetChunk_data (i := i) hv hl
  constructor
  · rintro ⟨r, s', hr⟩
    obtain ⟨c, hc, hd, -⟩ := hends.of_ok hr
    exact ⟨c, hc, by rw [hd]; simp⟩
  · rintro ⟨c, hc, hd⟩
    cases hr : vctrGetChunk u i s with
    | ok r s' => exact ⟨r, s', rfl⟩
    | error e s' => exact absurd (hends.of_error hr c hc) hd

/-- What a read finds depends on the chunk and its file. -/
theorem readsAsBefore_of (hv : s.vctrs u = some v) (hl : v.isLma = false)
    (hv' : t.vctrs u = some w) (hl' : w.isLma = false) (hc : t.chnks (u, j) = s.chnks (u, j))
    (hf : t.fs.read = s.fs.read) : ReadsAsBefore s t u j := by
  have hdata : ∀ c, chnkData t.fs u j c = chnkData s.fs u j c := by
    intro c
    rw [chnkData, chnkData, hf]
  constructor
  · rw [vctrGetChunk_ok_iff hv' hl', vctrGetChunk_ok_iff hv hl, hc]
    simp only [hdata]
  · intro r s' r' t' hr hr'
    obtain ⟨c, hcs, hd, hn⟩ := (ends_vctrGetChunk_data hv hl).of_ok hr
    obtain ⟨c', hct, hd', hn'⟩ := (ends_vctrGetChunk_data hv' hl').of_ok hr'
    cases hcs.symm.trans (hc.symm.trans hct)
    rw [hdata, hd, Option.some.injEq] at hd'
    exact ⟨hn'.trans hn.symm, hd'.symm⟩

/-! ## what a put leaves -/

/-- The index of the chunk that `vctr_put_chunk` enters. -/
def VctrVal.nextIdx (v : VctrVal) : Nat :=
  if v.numElements = 0 then 0 else u32 (v.maxChnkIdx + 1)

/-- The first chunk of the window once that chunk is in it. -/
def VctrVal.nextMin (v : VctrVal) : Nat :=
  if v.memoLen = 0 then v.minChnkIdx else max v.minChnkIdx (v.nextIdx + 1 - v.memoLen)

/-- A vector in chunks, each of which is in memory or has a file of its size. -/
structure InOrder (s : St) (u : Nat) (v : VctrVal) : Prop where
  found : s.vctrs u = some v
  inChnks : v.isLma = false
  empty : v.numElements = 0 → v.maxChnkIdx = 0
  min_le : v.minChnkIdx ≤ v.maxChnkIdx
  idx_lt : v.maxChnkIdx + 1 < lmaIdx
  data : ∀ i c, s.chnks (u, i) = some c → c.l1Mem = none → c.l2Exists = true ∧
    ∃ f x, l2FileName u i = some f ∧ s.fs.read f = some x ∧ x.length = c.size

/-- The memory that `vctr_put_chunk` gives the chunk. -/
def takenBytes (junk : UInt8) (cmem : Cmem) (d : Buf) (nbytes : Nat) : List UInt8 :=
  if cmem.isStealable then d.bytes
  else splice (List.replicate (u32 cmem.size) junk) 0 (d.bytes.take nbytes)

/-- What `t` is to `s` once chunk `i` is entered and the window starts at `m`. -/
structure Enters (s t : St) (u : Nat) (v : VctrVal) (i m : Nat) (c : ChnkVal) : Prop where
  found : ∃ w, t.vctrs u = some w ∧ w.isLma = v.isLma
  entered : t.chnks (u, i) = some c
  others : m = v.minChnkIdx → ∀ j, j ≠ i → t.chnks (u, j) = s.chnks (u, j)
  files : m = v.minChnkIdx → t.fs.read = s.fs.read
  gone : v.minChnkIdx < m → FreeChnk s u (m - 1) ∧ t.chnks (u, m - 1) = none

theorem ends_takeOver_bytes {nbytes : Nat} (hd : cmem.data = some d) :
    Ends (takeOver cmem (u32 cmem.size) nbytes) s
      (fun x t => (∃ b, x.1 = some b ∧ b.bytes = takenBytes s.junk cmem d nbytes) ∧
        (cmem.isStealable = false → nbytes ≤ u32 cmem.size ∧ nbytes ≤ d.bytes.length) ∧
        t.vctrs = s.vctrs ∧ t.chnks = s.chnks ∧ t.fs = s.fs)
      fun _ _ => True := by
  rw [takeOver, takenBytes]
  cases hst : cmem.isStealable with
  | true =>
      simp only [if_true, ends_bind, ends_byeIf, ends_pure]
      exact ⟨fun _ => trivial, fun _ => ⟨⟨d, hd, rfl⟩, by simp⟩⟩
  | false =>
      simp only [Bool.false_eq_true, if_false, ends_bind, ends_memalign]
      refine ends_incrMem (fun _ _ => trivial) fun m b => ?_
      simp only [hd, ends_bind, ends_takeN, ends_poke, ends_pure, implies_true, and_true,
        List.length_take, List.length_replicate, Nat.zero_add]
      intro hle hfit
      rw [Nat.min_eq_left hle] at hfit
      exact ⟨⟨_, rfl, rfl⟩, fun _ => ⟨hfit, hle⟩, rfl, rfl, rfl⟩

/-- A first pass of `vctr_memo`, if there is one, moves the window less far than the
chunk that is to come. -/
structure FirstPass (s t : St) (u : Nat) (v : VctrVal) (m : Nat) : Prop where
  trims : Trims s t u v m
  min_le : v.minChnkIdx ≤ m
  stays : v.memoLen = 0 → m = v.minChnkIdx
  le_max : v.memoLen ≠ 0 → m ≤ max v.minChnkIdx (v.maxChnkIdx + 1 - v.memoLen)
  gone : v.minChnkIdx < m → FreeChnk s u (m - 1) ∧ t.chnks (u, m - 1) = none

theorem InOrder.ends_firstPass (h : InOrder s u v) (he : v.isEov = false) {p : Prop}
    [Decidable p] :
    Ends (onlyIf p (vctrMemo u)) s (fun _ t => ∃ m, FirstPass s t u v m) fun _ _ => True := by
  have hmin := h.min_le
  have hidx := h.idx_lt
  rw [ends_onlyIf]
  constructor
  · intro _
    refine (ends_vctrMemo_trims h.found).imp ?_ fun _ _ _ => trivial
    rintro - t ⟨ht, hgone⟩
    have hm := trimTo_eq he (by omega : v.minChnkIdx ≤ v.maxChnkIdx + 1) (by omega)
    refine ⟨_, ht, ?_, fun h0 => ?_, fun h0 => ?_, hgone⟩
    · rw [hm]
      split <;> omega
    · rw [hm, if_pos h0]
    · rw [hm, if_neg h0]
  · intro _
    exact ⟨_, .refl h.found, Nat.le_refl _, fun _ => rfl, fun _ => Nat.le_max_left _ _,
      fun hlt => absurd hlt (Nat.lt_irrefl _)⟩

theorem InOrder.nextIdx_eq (h : InOrder s u v) :
    v.nextIdx = if v.numElements = 0 then 0 else v.maxChnkIdx + 1 := by
  have hidx := h.idx_lt
  unfold lmaIdx at hidx
  rw [VctrVal.nextIdx, u32_eq (by omega)]

/-- The last chunk is not beyond the next. -/
theorem InOrder.le_nextIdx (h : InOrder s u v) :
    v.maxChnkIdx ≤ v.nextIdx ∧ v.nextIdx < lmaIdx := by
  have hidx := h.idx_lt
  rw [h.nextIdx_eq]
  split
  · next h0 => rw [h.empty h0]; exact ⟨Nat.le_refl 0, by decide⟩
  · exact ⟨Nat.le_succ _, hidx⟩

/-- Both passes together, once the second has been through the state `a` in which the
chunk is entered. -/
theorem InOrder.enters (h : InOrder s u v) {m : Nat} {a a' : St} {w : VctrVal}
    (hp : FirstPass s t u v m)
    (hac : a.chnks = update t.chnks (u, v.nextIdx) (some c)) (haf : a.fs = t.fs)
    (hw : w.isLma = v.isLma ∧ w.minChnkIdx = m)
    (ht : Trims a a' u w v.nextMin)
    (hgone : w.minChnkIdx < v.nextMin → FreeChnk a u (v.nextMin - 1) ∧
      a'.chnks (u, v.nextMin - 1) = none) :
    Enters s a' u v v.nextIdx v.nextMin c := by
  have hmin := h.min_le
  have hle := h.le_nextIdx
  have hfirst := hp.min_le
  have hstays := hp.stays
  have hmax := hp.le_max
  obtain ⟨hwl, rfl⟩ := hw
  have hnext : w.minChnkIdx ≤ v.nextMin ∧ (v.nextMin ≤ v.nextIdx ∨
      v.nextMin = w.minChnkIdx) := by
    rw [VctrVal.nextMin]
    split
    · next h0 => exact ⟨Nat.le_of_eq (hstays h0), Or.inr (hstays h0).symm⟩
    · next h0 =>
      have := hmax h0
      omega
  have hother : ∀ j, j ≠ v.nextIdx → a.chnks (u, j) = t.chnks (u, j) := by
    intro j hj
    rw [hac, update_of_ne (by simpa using hj)]
  constructor
  · exact ⟨_, ht.found, hwl⟩
  · rw [ht.chnks fun k hlo hhi => by simp; omega, hac, update_self]
  · intro heq j hj
    rw [ht.chnks fun k hlo hhi => by omega, hother j hj]
    exact hp.trims.chnks fun k hlo hhi => by omega
  · intro heq
    funext f
    rw [ht.files fun k hlo hhi => by omega, haf]
    exact hp.trims.files fun k hlo hhi => by omega
  · intro hlt
    by_cases hsec : w.minChnkIdx < v.nextMin
    · -- the second pass went on from where the first had stopped
      obtain ⟨hfree, hnone⟩ := hgone hsec
      have hne : v.nextMin - 1 ≠ v.nextIdx := by omega
      refine ⟨(FreeChnk.congr ?_).mp hfree, hnone⟩
      rw [hother _ hne]
      exact hp.trims.chnks fun k hlo hhi => by simp; omega
    · have heq : v.nextMin = w.minChnkIdx := by omega
      rw [heq] at hlt ⊢
      obtain ⟨hfree, hnone⟩ := hp.gone hlt
      refine ⟨hfree, ?_⟩
      rw [ht.chnks fun k hlo hhi => by omega, hother _ (by omega)]
      exact hnone

theorem Enters.setVctr {m : Nat} (h : Enters s t u v i m c) (hw : w.isLma = v.isLma) :
    Enters s (t.setVctr u w) u v i m c :=
  ⟨⟨w, St.setVctr_self, hw⟩, h.entered, h.others, h.files, h.gone⟩

/-- The first chunk of the window after the second pass. -/
theorem InOrder.trimTo_nextIdx (h : InOrder s u v) {m : Nat} (hp : FirstPass s t u v m)
    (hw : w.memoLen = v.memoLen) (hm : w.minChnkIdx = m) (he : w.isEov = false) :
    w.trimTo v.nextIdx = v.nextMin := by
  have hmin := h.min_le
  have hle := h.le_nextIdx
  have hfirst := hp.min_le
  have hstays := hp.stays
  have hmax := hp.le_max
  subst hm
  have htrim : w.trimTo v.nextIdx = if w.memoLen = 0 then w.minChnkIdx
      else max w.minChnkIdx (v.nextIdx + 1 - w.memoLen) := by
    refine trimTo_eq he ?_ hle.2
    by_cases h0 : v.memoLen = 0
    · rw [hstays h0]
      omega
    · have := hmax h0
      omega
  rw [htrim, VctrVal.nextMin, hw]
  split
  · next h0 => exact hstays h0
  · next h0 =>
    have := hmax h0
    omega

/-- `vctr_put_chunk` makes two passes of `vctr_memo`; together they move the window
to where the second leaves it. -/
theorem InOrder.ends_putChunk (h : InOrder s u v) (hd : cmem.data = some d) :
    Ends (vctrPutChunk u cmem n) s
      (fun _ t => n ≤ v.maxNumInChnk ∧ (v.qtype ≠ .B1 → u32 cmem.size = v.chnkSize) ∧
        (cmem.isStealable = false →
          u32 (n * v.width) ≤ u32 cmem.size ∧ u32 (n * v.width) ≤ d.bytes.length) ∧
        ∃ b, b.bytes = takenBytes s.junk cmem d (u32 (n * v.width)) ∧
          Enters s t u v v.nextIdx v.nextMin (putChnk v (u32 cmem.size) (some b) n))
      fun _ _ => True := by
  simp only [vctrPutChunk, putChunkTake, bind_assoc, pure_bind, ends_bind, ends_byeIf,
    ends_getVctr_of h.found, implies_true, true_and]
  intro _ _ he hle _ hsz _
  have he' : v.isEov = false := by simpa using he
  refine (h.ends_firstPass he').imp ?_ fun _ _ _ => trivial
  rintro - t ⟨m, hp⟩
  rw [ends_getVctr_of hp.trims.found]
  refine (ends_takeOver_bytes hd).imp ?_ fun _ _ _ => trivial
  rintro ⟨l1, cmem'⟩ a ⟨⟨b, rfl, hb⟩, hfit, hav, hac, haf⟩
  have htrim : VctrVal.trimTo { v with
      numElements := v.numElements + n, minChnkIdx := m, maxChnkIdx := v.nextIdx } v.nextIdx =
      v.nextMin := h.trimTo_nextIdx hp rfl rfl he'
  have ha : (a.setChnk u v.nextIdx (putChnk v (u32 cmem.size) (some b) n)).vctrs u =
      some { v with minChnkIdx := m } := by
    rw [St.setChnk_vctrs, hav, hp.trims.found]
  rw [putChunkEnter, ends_bind, ends_setChnk, ends_bind]
  simp only [show (if v.numElements = 0 then 0 else u32 (v.maxChnkIdx + 1)) = v.nextIdx from rfl]
  rw [ends_modVctr_of ha, ends_bind]
  refine (ends_vctrMemo_trims St.setVctr_self).imp ?_ fun _ _ _ => trivial
  rintro - a' ⟨hr', hgone⟩
  simp only at hr' hgone
  rw [htrim] at hr' hgone
  have henters : Enters s a' u v v.nextIdx v.nextMin
      (putChnk v (u32 cmem.size) (some b) n) := by
    refine h.enters hp ?_ ?_ ⟨?_, ?_⟩ hr' hgone
    · simp only [St.setVctr_chnks, St.setChnk, hac]
    · simp only [St.setVctr_fs, St.setChnk_fs, haf]
    · rfl
    · rfl
  rw [ends_modVctr_of hr'.found, ends_pure]
  refine ⟨by omega, fun hq => ?_, hfit, b, ?_, henters.setVctr rfl⟩
  · by_contra hne
    exact hsz ⟨hq, hne⟩
  · rw [hb, hp.trims.junk]

/-! ## the round trip -/

/-- The buffer holds `n` elements. -/
def HoldsElems (v : VctrVal) (d : Buf) (n : Nat) : Prop :=
  if v.qtype = .B1 then n ≤ 8 * d.bytes.length else v.width * n ≤ d.bytes.length

instance : Decidable (HoldsElems v d n) := inferInstanceAs
  (Decidable (if v.qtype = .B1 then n ≤ 8 * d.bytes.length else v.width * n ≤ d.bytes.length))

/-- The bits of the first `n` elements are the same. -/
def SameBits (v : VctrVal) (n : Nat) (x y : List UInt8) : Prop :=
  if v.qtype = .B1 then ∀ k, k < n → getBit x k = getBit y k
  else x.take (v.width * n) = y.take (v.width * n)

/-- The new chunk is got back as it was put, and every other as before. -/
structure RoundTrips (s t : St) (u : Nat) (v : VctrVal) (d : Buf) (n : Nat) : Prop where
  returned : ∃ r t', vctrGetChunk u v.nextIdx t = .ok r t' ∧ r.num = n ∧
    SameBits v n r.bytes d.bytes
  others : ∀ j, j ≠ v.nextIdx → ReadsAsBefore s t u j

/-- The memory is handed over, or all of the elements are copied. What is not copied
of a bit vector is what fresh memory happens to hold. -/
def Copied (junk : UInt8) (v : VctrVal) (cmem : Cmem) (d : Buf) (n : Nat) : Prop :=
  cmem.isStealable = true ∨
    if v.qtype = .B1 then ∀ k, k < n → 8 * u32 (n * v.width) ≤ k →
      getBit (List.replicate (u32 cmem.size) junk) k = getBit d.bytes k
    else n * v.width < 2 ^ 32

/-- No chunk falls out of a memo window when the next one is entered. -/
def VctrVal.KeepsAll (v : VctrVal) : Prop := v.memoLen = 0 ∨ v.nextIdx < v.minChnkIdx + v.memoLen

theorem getElem?_takenBytes {junk : UInt8} {nbytes k : Nat} (hs : cmem.isStealable = false)
    (hd : nbytes ≤ d.bytes.length) :
    (takenBytes junk cmem d nbytes)[k]? =
      if k < nbytes then d.bytes[k]? else (List.replicate (u32 cmem.size) junk)[k]? := by
  have hlen : (d.bytes.take nbytes).length = nbytes := by
    rw [List.length_take, Nat.min_eq_left hd]
  rw [takenBytes, if_neg (by simp [hs]), splice, List.take_zero, List.nil_append,
    List.getElem?_append, hlen]
  split
  · next hk => rw [List.getElem?_take_of_lt hk]
  · next hk => rw [List.getElem?_drop, Nat.zero_add, Nat.add_sub_cancel' (Nat.le_of_not_lt hk)]

theorem length_takenBytes {junk : UInt8} {nbytes : Nat} (hs : cmem.isStealable = false)
    (hsize : nbytes ≤ u32 cmem.size) (hd : nbytes ≤ d.bytes.length) :
    (takenBytes junk cmem d nbytes).length = u32 cmem.size := by
  have hlen : (d.bytes.take nbytes).length = nbytes := by
    rw [List.length_take, Nat.min_eq_left hd]
  rw [takenBytes, if_neg (by simp [hs]), length_splice, List.length_replicate]
  rw [hlen, List.length_replicate, Nat.zero_add]
  exact hsize

/-- The chunk has the bits of the buffer exactly if they were all copied. -/
theorem sameBits_takenBytes {junk : UInt8} (hel : HoldsElems v d n)
    (hfit : cmem.isStealable = false →
      u32 (n * v.width) ≤ u32 cmem.size ∧ u32 (n * v.width) ≤ d.bytes.length) :
    SameBits v n (takenBytes junk cmem d (u32 (n * v.width))) d.bytes ↔
      Copied junk v cmem d n := by
  unfold SameBits Copied
  cases hs : cmem.isStealable with
  | true =>
      have hsame : takenBytes junk cmem d (u32 (n * v.width)) = d.bytes := if_pos hs
      rw [hsame]
      refine iff_of_true ?_ (Or.inl rfl)
      split
      · exact fun _ _ => rfl
      · rfl
  | false =>
      obtain ⟨hsize, hlen⟩ := hfit hs
      by_cases hq : v.qtype = .B1
      · simp only [if_pos hq, Bool.false_eq_true, false_or]
        refine forall_congr' fun k => forall_congr' fun hk => ?_
        rw [getBit, getElem?_takenBytes hs hlen]
        split
        · next hin => exact iff_of_true rfl fun h => by omega
        · next hin =>
          rw [← getBit]
          exact ⟨fun h _ => h, fun h => h (by omega)⟩
      · simp only [if_neg hq, Bool.false_eq_true, false_or]
        rw [HoldsElems, if_neg hq] at hel
        constructor
        · intro heq
          -- the chunk is shorter than the elements are
          by_contra hlt
          have hl := congrArg List.length heq
          rw [List.length_take, List.length_take, length_takenBytes hs hsize hlen,
            Nat.mul_comm v.width] at hl
          rw [Nat.mul_comm] at hel
          have hu : u32 cmem.size < 2 ^ 32 := Nat.mod_lt _ (by decide)
          omega
        · intro hlt
          refine List.ext_getElem? fun k => ?_
          rw [List.getElem?_take, List.getElem?_take]
          split
          · next hk =>
            rw [getElem?_takenBytes hs hlen, if_pos]
            rwa [u32_eq hlt, Nat.mul_comm]
          · rfl

/-- The new chunk is there to read. -/
theorem Enters.reads {m size : Nat} {b : Buf} (h : Enters s t u v i m (putChnk v size (some b) n))
    (hl : v.isLma = false) :
    ∃ r t', vctrGetChunk u i t = .ok r t' ∧ r.num = n ∧ r.bytes = b.bytes := by
  obtain ⟨w, hw, hwl⟩ := h.found
  rw [hl] at hwl
  have hdata : chnkData t.fs u i (putChnk v size (some b) n) = some b.bytes := by
    rw [chnkData]
    exact if_neg (show ¬ (0 : UInt16) > 0 by decide)
  obtain ⟨r, t', hr⟩ := (vctrGetChunk_ok_iff hw hwl).mpr
    ⟨_, h.entered, by rw [hdata]; exact Option.some_ne_none _⟩
  obtain ⟨c, hc, hd, hn⟩ := (ends_vctrGetChunk_data hw hwl).of_ok hr
  cases h.entered.symm.trans hc
  rw [hdata, Option.some.injEq] at hd
  exact ⟨r, t', hr, hn, hd.symm⟩

/-- A chunk that nobody writes can be read. -/
theorem InOrder.reads_free (h : InOrder s u v) (hf : FreeChnk s u i) :
    ∃ r s', vctrGetChunk u i s = .ok r s' := by
  obtain ⟨c, hc, -, hw⟩ := hf
  refine (vctrGetChunk_ok_iff h.found h.inChnks).mpr ⟨c, hc, ?_⟩
  rw [chnkData, if_neg hw]
  cases hm : c.l1Mem with
  | some b => simp
  | none =>
      obtain ⟨he, f, x, hf, hr, hx⟩ := h.data i c hc hm
      simp [he, hf, hr, hx]

theorem VctrVal.keepsAll_iff : v.KeepsAll ↔ v.nextMin = v.minChnkIdx := by
  unfold VctrVal.KeepsAll VctrVal.nextMin
  split
  · next h0 => exact iff_of_true (Or.inl h0) rfl
  · next h0 => omega

/-- The other chunks are read as before exactly if none falls out of the window: the
last one that does was there to read. -/
theorem InOrder.others_iff (h : InOrder s u v) (he : Enters s t u v v.nextIdx v.nextMin c) :
    (∀ j, j ≠ v.nextIdx → ReadsAsBefore s t u j) ↔ v.KeepsAll := by
  obtain ⟨w, hw, hwl⟩ := he.found
  rw [h.inChnks] at hwl
  rw [VctrVal.keepsAll_iff]
  constructor
  · intro hall
    by_contra hne
    have hmin := h.min_le
    have hle := h.le_nextIdx
    have hlt : v.minChnkIdx < v.nextMin := by
      unfold VctrVal.nextMin at hne ⊢
      split at hne
      · exact absurd rfl hne
      · next h0 =>
        rw [if_neg h0]
        omega
    obtain ⟨hfree, hnone⟩ := he.gone hlt
    have hi : v.nextMin - 1 ≠ v.nextIdx := by
      rintro heq
      rw [heq, he.entered] at hnone
      contradiction
    obtain ⟨r, t', hr⟩ := (hall _ hi).succeeds.mpr (h.reads_free hfree)
    obtain ⟨c', hc', -⟩ := (vctrGetChunk_ok_iff hw hwl).mp ⟨r, t', hr⟩
    rw [hnone] at hc'
    contradiction
  · intro heq j hj
    exact readsAsBefore_of h.found h.inChnks hw hwl (he.others heq j hj) (he.files heq)

/-- **`vctr_put_chunk`, then `vctr_get_chunk`**: the chunk comes back and the others
stay, exactly if all its elements were copied and no chunk falls out of the window. -/
theorem putChunk_roundTrips_iff (h : InOrder s u v) (hd : cmem.data = some d)
    (hel : HoldsElems v d n) {cmem' : Cmem} (hput : vctrPutChunk u cmem n s = .ok cmem' t) :
    RoundTrips s t u v d n ↔ Copied s.junk v cmem d n ∧ v.KeepsAll := by
  obtain ⟨-, -, hfit, b, hb, henters⟩ := (h.ends_putChunk hd).of_ok hput
  obtain ⟨r, t', hr, hnum, hbytes⟩ := henters.reads h.inChnks
  rw [← sameBits_takenBytes hel hfit, ← h.others_iff henters, ← hb]
  constructor
  · rintro ⟨⟨r', t'', hr', -, hsame⟩, hothers⟩
    rw [hr] at hr'
    cases hr'
    exact ⟨hbytes ▸ hsame, hothers⟩
  · rintro ⟨hsame, hothers⟩
    exact ⟨⟨r, t', hr, hnum, hbytes ▸ hsame⟩, hothers⟩

/-- A vector that has just been added. -/
theorem inOrder_added {a : AddArgs} (hv : (added a).vctrs 1 = some v)
    (hc : (added a).chnks = fun _ => none)
    (h0 : v.isLma = false ∧ v.minChnkIdx = 0 ∧ v.maxChnkIdx = 0) : InOrder (added a) 1 v where
  found := hv
  inChnks := h0.1
  empty _ := h0.2.2
  min_le := by rw [h0.2.1]; exact Nat.zero_le _
  idx_lt := by rw [h0.2.2]; decide
  data i c hi := by
    rw [hc] at hi
    contradiction

/-- Eight bytes of ones, handed over or to be copied. -/
def ones (isStealable : Bool) (size : Nat) : Cmem :=
  ⟨some ⟨9, List.replicate size 255⟩, size, isStealable, false⟩

/-- A vector that has been filled, as long as its chunks are in memory. -/
theorem Grown.inOrder {a : AddArgs} {L : List (List UInt8)} (hg : Grown a s u v L)
    (hp : 0 < v.numElements) (hl : v.isLma = false) (hidx : v.maxChnkIdx + 1 < lmaIdx)
    (hmem : ∀ i ≤ v.maxChnkIdx, (s.chnks (u, i)).any (fun c => c.l1Mem.isSome) = true) :
    InOrder s u v where
  found := hg.vec.found
  inChnks := hl
  empty h0 := absurd h0 hp.ne'
  min_le := hg.vec.shape.min_le
  idx_lt := hidx
  data i c hc hnone := by
    by_cases hi : v.minChnkIdx ≤ i ∧ i ≤ v.maxChnkIdx
    · have hsome := hmem i hi.2
      simp [hc, hnone] at hsome
    · rw [(hg.vec.held hp).1.outside i hi] at hc
      contradiction

/-- A full chunk of bytes. -/
def oneFull : St := final (vctrPutn 1 (List.replicate 64 7) 64) (added (plainArgs .I1 0))

/-- Three bytes after a full chunk. -/
theorem putChunk_roundTrips_three : ∃ cmem' t v, oneFull.vctrs 1 = some v ∧ v.numElements = 64 ∧
    vctrPutChunk 1 (ones true 64) 3 oneFull = .ok cmem' t ∧
    RoundTrips oneFull t 1 v ⟨9, List.replicate 64 255⟩ 3 := by
  have h0 := run_added (a := plainArgs .I1 0) (P := fun s v o => o.Fair v ∧ o.Safe s 1 v) (by decide)
  have h1 := h0.ok (o := .putn (List.replicate 64 7) 64) rfl
    ⟨⟨by decide, show 0 + 64 ≤ lmaIdx * 64 by decide⟩, fun hm => absurd rfl hm⟩
    (run_of_outcome_ok (by decide +kernel))
  obtain ⟨v, hg⟩ := run_grown h1 (by decide) (by decide) fun s v o _ _ ho => ho
  have hfields := congrArg (Option.map fun v => (v.maxChnkIdx, v.qtype, v.width, v.numElements,
    v.isLma, v.memoLen)) hg.vec.found
  rw [show Option.map _ _ = some (0, .I1, 1, 64, false, 0) by decide +kernel] at hfields
  simp only [Option.map_some, Option.some.injEq, Prod.mk.injEq] at hfields
  obtain ⟨hidx, hq, hw, hnum, hl, hm⟩ := hfields
  have hput : vctrPutChunk 1 (ones true 64) 3 oneFull =
      .ok ⟨some ⟨9, List.replicate 64 255⟩, 0, false, true⟩ _ :=
    run_of_outcome_ok (by decide +kernel)
  refine ⟨_, _, v, hg.vec.found, hnum.symm, hput, (putChunk_roundTrips_iff (hg.inOrder ?_ hl.symm ?_ ?_)
    rfl ?_ hput).mpr ⟨Or.inl rfl, Or.inl hm.symm⟩⟩
  · omega
  · rw [← hidx]
    decide
  · rw [← hidx]
    intro i hi
    rw [Nat.le_zero.mp hi]
    decide +kernel
  · rw [HoldsElems, ← hq, if_neg (by decide), ← hw]
    decide

/-- No bit of a bit vector is copied. -/
theorem putChunk_roundTrips_fails : ∃ cmem' t v, InOrder (added (plainArgs .B1 0)) 1 v ∧
    HoldsElems v ⟨9, List.replicate 8 255⟩ 1 ∧
    vctrPutChunk 1 (ones false 8) 1 (added (plainArgs .B1 0)) = .ok cmem' t ∧
    ¬ RoundTrips (added (plainArgs .B1 0)) t 1 v ⟨9, List.replicate 8 255⟩ 1 := by
  have hput : vctrPutChunk 1 (ones false 8) 1 (added (plainArgs .B1 0)) = .ok (ones false 8) _ :=
    run_of_outcome_ok (by decide +kernel)
  refine ⟨_, _, _, inOrder_added rfl rfl ⟨rfl, rfl, rfl⟩, by decide, hput, fun h => ?_⟩
  obtain ⟨r, t', hr, -, hsame⟩ := h.returned
  have hget : vctrGetChunk 1 0 (final (vctrPutChunk 1 (ones false 8) 1)
      (added (plainArgs .B1 0))) = .ok ⟨1, List.replicate 8 0, 0, 1⟩ _ :=
    run_of_outcome_ok (by decide +kernel)
  cases hr.symm.trans hget
  exact absurd (hsame 0 (by decide)) (by decide)

end QStore.Vctr
