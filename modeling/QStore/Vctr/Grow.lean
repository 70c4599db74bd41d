import QStore.Vctr.Append

/-!
# QStore.Vctr.Grow

The three ways to append, from `D` to `D` and the new bytes.

They share the write into the last chunk (`Held.append`) and the pass of
`vctr_memo` after it (`Held.ends_finish`). `vctr_putn` is an induction on its
depth: a round that leaves something over has filled its chunk, so the next
round starts on a full chunk in memory and cannot fail.
-/

namespace QStore.Vctr

open Function

variable {s t : St} {u i k n : Nat} {D x : List UInt8} {v v' : VctrVal} {c : ChnkVal} {b : Buf}

/-- Writing `k` more elements into the last chunk. -/
theorem Held.append (h : Held False s u v D) (hc : s.chnks (u, v.maxChnkIdx) = some c)
    (hk : c.numElements + k ≤ v.maxNumInChnk) (hx : x.length = v.width * k)
    (hb : v.width * v.maxNumInChnk ≤ b.bytes.length) (hw : v.page D v.maxChnkIdx ++ x <+: b.bytes)
    (hv : t.vctrs u = some { v with numElements := v.numElements + k }) (hf : t.fs = s.fs)
    (ht : t.chnks = update s.chnks (u, v.maxChnkIdx)
      (some { c with l1Mem := some b, numElements := c.numElements + k })) :
    Held False t u { v with numElements := v.numElements + k } (D ++ x) := by
  have hok := h.chnkOk hc
  have hlast := hok.numElements_last h.shape
  have hlo := h.shape.lo
  have hshape : Shape { v with numElements := v.numElements + k } (D ++ x) :=
    { h.shape with
      len := by rw [List.length_append, h.shape.len, hx, ← Nat.mul_add]
      lo := by simp only; omega
      hi := by simp only; rw [Nat.add_mul, Nat.one_mul]; omega }
  have hend : D.length + x.length ≤ (v.maxChnkIdx + 1) * (v.width * v.maxNumInChnk) := by
    have := hshape.len_le hshape.hi
    rwa [List.length_append] at this
  have hpage : QStore.page (v.width * v.maxNumInChnk) (D ++ x) v.maxChnkIdx =
      v.page D v.maxChnkIdx ++ x := page_append_last (h.shape.le_len hlo) hend
  refine ⟨hv, hshape, fun i hi hi' => ?_, fun i hi => ?_⟩
  · by_cases hne : i = v.maxChnkIdx
    · subst hne
      refine ⟨_, by rw [ht, update_self], ?_⟩
      show ChnkOk _ _ _ _ _ _ _ (QStore.page (v.width * v.maxNumInChnk) (D ++ x) v.maxChnkIdx) _
      rw [hpage]
      refine ⟨?_, hok.size_eq, ?_, hok.writers, fun b' hb' => ?_, fun he => ?_, fun hn => by cases hn⟩
      · rw [List.length_append, hok.count, hx, ← Nat.mul_add]
      · have := length_page_le (p := v.width * v.maxNumInChnk) (D := D ++ x) (i := v.maxChnkIdx)
        rwa [hpage] at this
      · rw [Option.some.injEq] at hb'
        exact hb' ▸ ⟨hb, hw⟩
      · obtain ⟨f, bs, hf', hr, hlen, -⟩ := hok.l2 he
        exact ⟨f, bs, hf', hf ▸ hr, hlen, fun hs => hs.elim False.elim fun hn => by cases hn⟩
    · obtain ⟨c', hc', hok'⟩ := h.inside i hi hi'
      refine ⟨c', by rw [ht, update_of_ne (by simp [hne])]; exact hc', ?_⟩
      have hfull : (i + 1) * (v.width * v.maxNumInChnk) ≤ D.length :=
        h.shape.le_len (Nat.le_trans (Nat.mul_le_mul_right _ (by simp only at hi'; omega)) hlo)
      show ChnkOk _ _ _ _ _ _ _ (QStore.page (v.width * v.maxNumInChnk) (D ++ x) i) _
      rw [page_append_of_full hfull, hf]
      exact hok'
  · have hin := h.mem_window hc
    rw [ht, update_of_ne (by simp only [ne_eq, Prod.mk.injEq, true_and]; exact fun e => hi (e ▸ hin))]
    exact h.outside i hi

/-- There is room for `n` more elements: their chunks can be numbered, and the
chunks they push out of a memo window are deletable. -/
structure Room (s : St) (u : Nat) (v : VctrVal) (n : Nat) : Prop where
  idx : v.numElements + n ≤ lmaIdx * v.maxNumInChnk
  memo : v.memoLen ≠ 0 → v.width * v.maxNumInChnk ≤ 1024 * 1048576 ∧
    Idle s u ((v.numElements + n - 1) / v.maxNumInChnk + 1 - v.memoLen)

/-- The pass of `vctr_memo` at the end of an append. -/
theorem Held.ends_finish (h : Held False s u v D) (he : v.isEov = false)
    (hpos : v.maxChnkIdx * v.maxNumInChnk < v.numElements)
    (hwin : ∃ j, j ≤ v.maxChnkIdx ∧ v.minChnkIdx = v.lowest j)
    (hmemo : v.memoLen ≠ 0 → v.width * v.maxNumInChnk ≤ 1024 * 1048576 ∧
      Idle s u (v.maxChnkIdx + 1 - v.memoLen)) :
    Ends (vctrMemo u) s (fun _ t => Vec t u v.trimmed D ∧ v.trimmed.Narrow) fun _ _ => False := by
  obtain ⟨j, hj, hmin⟩ := hwin
  refine (h.ends_vctrMemo he hmemo).imp (fun _ t ht => ?_) fun _ _ => False.elim
  have hnarrow : v.trimmed.Narrow := by
    by_cases hm : v.memoLen = 0
    · simp only [VctrVal.Narrow, VctrVal.trimmed, VctrVal.lowest, hm, if_true] at hmin ⊢
      exact hmin
    · simp only [VctrVal.Narrow, VctrVal.trimmed, VctrVal.lowest, hm, if_false] at hmin ⊢
      omega
  have hsame : v.trimmed.maxChnkIdx * v.trimmed.maxNumInChnk < v.trimmed.numElements := by
    by_cases hm : v.memoLen = 0 <;> simpa [VctrVal.trimmed, hm] using hpos
  exact ⟨⟨ht.found, ht.shape, ⟨_, Nat.le_refl _, hnarrow⟩, fun h0 => by omega,
    fun _ => ⟨ht, hsame⟩⟩, hnarrow⟩

@[simp] theorem trimmed_static (v : VctrVal) : v.trimmed.static = v.static := by
  unfold VctrVal.trimmed
  split <;> rfl

theorem trimmed_isEov (v : VctrVal) : v.trimmed.isEov = v.isEov := by
  unfold VctrVal.trimmed
  split <;> rfl

/-- The state after `k` elements were written into the last chunk. -/
def St.written (s : St) (u : Nat) (v : VctrVal) (c : ChnkVal) (b : Buf) (k : Nat) : St :=
  (s.setVctr u { v with numElements := v.numElements + k }).setChnk u v.maxChnkIdx
    { c with l1Mem := some b, numElements := c.numElements + k }

theorem St.written_inMem : InMem (s.written u v c b k) u
    { v with numElements := v.numElements + k } :=
  ⟨_, _, St.setChnk_self, rfl⟩

theorem Stamps.written (hc : s.chnks (u, v.maxChnkIdx) = some c) :
    Stamps s (s.written u v c b k) u v' := by
  have hstamp : (ChnkVal.stamp { c with l1Mem := some b, numElements := c.numElements + k }) =
      c.stamp := rfl
  exact .sets hc hstamp rfl

theorem Held.written (h : Held False s u v D) (hc : s.chnks (u, v.maxChnkIdx) = some c)
    (hk : c.numElements + k ≤ v.maxNumInChnk) (hx : x.length = v.width * k)
    (hb : v.width * v.maxNumInChnk ≤ b.bytes.length)
    (hw : v.page D v.maxChnkIdx ++ x <+: b.bytes) :
    Held False (s.written u v c b k) u { v with numElements := v.numElements + k } (D ++ x) :=
  h.append hc hk hx hb hw St.setVctr_self rfl rfl

/-- The offset in its chunk of the first element to write. -/
theorem Held.off_eq (h : Held False s u v D) (hc : s.chnks (u, v.maxChnkIdx) = some c) :
    u32 (c.numElements * v.width) = (v.page D v.maxChnkIdx).length := by
  have hok := h.chnkOk hc
  have hle : c.numElements ≤ v.maxNumInChnk := by
    rw [hok.numElements_eq h.shape]
    exact Nat.min_le_left _ _
  rw [h.shape.u32_width hle, hok.count]

/-! ## one element -/

/-- What `vctr_put1` copies from the scalar. -/
def VctrVal.sclr (v : VctrVal) (x : List UInt8) : List UInt8 :=
  if v.qtype = .SC then cstr x else x.take v.width

/-- The bytes that stand for a scalar in a vector: what is copied, after the slot
was cleared. -/
def VctrVal.put1Bytes (v : VctrVal) (x : List UInt8) : List UInt8 :=
  v.sclr x ++ List.replicate (v.width - (v.sclr x).length) 0

theorem length_put1Bytes (hsc : v.qtype = .SC → (cstr x).length ≤ v.width) :
    (v.put1Bytes x).length = v.width := by
  have hle : (v.sclr x).length ≤ v.width := by
    unfold VctrVal.sclr
    split
    · next h => exact hsc h
    · exact List.length_take_le ..
  rw [VctrVal.put1Bytes, List.length_append, List.length_replicate]
  omega

/-- `k` more elements fit into the memory of a chunk that has room for them. -/
theorem Held.room_bytes (h : Held False s u v D) (hc : s.chnks (u, v.maxChnkIdx) = some c)
    (hk : c.numElements + k ≤ v.maxNumInChnk) :
    (v.page D v.maxChnkIdx).length + v.width * k ≤ v.width * v.maxNumInChnk := by
  rw [(h.chnkOk hc).count, ← Nat.mul_add]
  exact Nat.mul_le_mul_left _ hk

/-- The vector now holds `D`, and is otherwise what it was. -/
def Appended (u : Nat) (v : VctrVal) (D : List UInt8) (t : St) : Prop :=
  ∃ v', Vec t u v' D ∧ v'.Narrow ∧ v'.static = v.static ∧ v'.isEov = false

/-- `t` is `s` with `k` elements more in vector `u`, which then holds `D`, and before
`vctr_memo` passes. -/
structure Grows (s t : St) (u : Nat) (v w : VctrVal) (D : List UInt8) (k : Nat) : Prop where
  filled : Filled t u w D
  static : w.static = v.static
  eov : w.isEov = false
  num : w.numElements = v.numElements + k
  min : w.minChnkIdx = v.minChnkIdx
  max : v.maxChnkIdx ≤ w.maxChnkIdx
  inMem : InMem t u w
  stamps : Stamps s t u v

theorem static_stamp {w : VctrVal} (h : w.static = v.static) : w.stamp = v.stamp := by
  have h1 : w.isEarlyFreeable = v.isEarlyFreeable := (congrArg VctrVal.isEarlyFreeable h :)
  have h2 : w.numFreeIgnore = v.numFreeIgnore := (congrArg VctrVal.numFreeIgnore h :)
  rw [VctrVal.stamp, VctrVal.stamp, h1, h2]

namespace Grows

variable {w w' : VctrVal} {r : St} {l : Nat} {D' : List UInt8}

theorem trans (h : Grows s t u v w D k) (h' : Grows t r u w w' D' l) :
    Grows s r u v w' D' (k + l) where
  filled := h'.filled
  static := h'.static.trans h.static
  eov := h'.eov
  num := by rw [h'.num, h.num, Nat.add_assoc]
  min := h'.min.trans h.min
  max := Nat.le_trans h.max h'.max
  inMem := h'.inMem
  stamps := h.stamps.trans h'.stamps (static_stamp h.static)

/-- The window is that of an earlier last chunk. -/
theorem vec (h : Grows s t u v w D' k) (hs : Vec s u v D) : Vec t u w D' := by
  obtain ⟨j, hj, hmin⟩ := hs.window
  refine h.filled.vec ⟨j, Nat.le_trans hj h.max, ?_⟩
  rw [h.min, static_lowest h.static, hmin]

end Grows

/-- After `k` elements were written into the chunk that was found, the vector
holds them, whether or not `vctr_memo` has passed. -/
theorem Opened.written {w : VctrVal} (hk0 : 0 < k) (ho : Opened v w) (he : v.isEov = false)
    (hst : Stamps s t u v) (hh : Held False t u w D) (hc : t.chnks (u, w.maxChnkIdx) = some c)
    (hk : c.numElements + k ≤ w.maxNumInChnk) (hx : x.length = w.width * k)
    (hb : w.width * w.maxNumInChnk ≤ b.bytes.length)
    (hw : w.page D w.maxChnkIdx ++ x <+: b.bytes) :
    Grows s (t.written u w c b k) u v { w with numElements := w.numElements + k } (D ++ x) k := by
  have hwr := hh.written hc hk hx hb hw
  refine ⟨⟨hwr.found, hwr.shape, fun h0 => ?_, fun _ => ⟨hwr, ?_⟩⟩, ho.static, ho.eov.trans he, ?_,
    ho.min, ho.le, St.written_inMem, hst.trans (Stamps.written hc) rfl⟩
  · simp only at h0
    omega
  · exact Nat.lt_of_le_of_lt hh.shape.lo (Nat.lt_add_of_pos_right hk0)
  · simp only [ho.num]

/-- `vctr_memo` after an append of `k` elements. -/
theorem Grows.ends_memo {w : VctrVal} (h : Grows s t u v w D k) (hw : Vec t u w D) (hk : 0 < k)
    (hroom : Room s u v k) :
    Ends (vctrMemo u) t (fun _ t => Appended u v D t) fun _ _ => False := by
  have hst := h.static
  have hnum := h.num
  obtain ⟨hh, hlt⟩ := hw.held (by omega)
  refine (hh.ends_finish h.eov hlt hw.window fun hm => ?_).imp (fun _ t ht => ?_)
    fun _ _ => False.elim
  · obtain ⟨hsz, hid⟩ := hroom.memo (by rw [← static_memoLen hst]; exact hm)
    rw [← hnum, ← static_maxNumInChnk hst, ← static_memoLen hst,
      div_of_between hlt hh.shape.hi] at hid
    rw [← static_width hst, ← static_maxNumInChnk hst] at hsz
    exact ⟨hsz, h.stamps.idle hid⟩
  · exact ⟨_, ht.1, ht.2, (trimmed_static _).trans hst, (trimmed_isEov _).trans h.eov⟩

/-- `vctr_memo` finds nothing more to do after an append. -/
theorem Appended.ends_memo (h : Appended u v D t) :
    Ends (vctrMemo u) t (fun _ t => Appended u v D t) fun _ _ => False := by
  obtain ⟨w, hw, hnar, hst, he⟩ := h
  refine (ends_vctrMemo_narrow hw.found hw.shape fun hm => ?_).imp (fun _ t ht => ?_)
    fun _ _ => False.elim
  · rw [hnar, VctrVal.lowest, if_neg hm]
    omega
  · rw [ht]
    exact ⟨w, hw, hnar, hst, he⟩

/-- What `sclrBytes` makes of a scalar that fits. -/
theorem ends_sclrBytes (hsc : v.qtype = .SC → (cstr x).length ≤ v.width) :
    Ends (sclrBytes v x) s (fun y t => t = s ∧ y = v.sclr x ∧ y.length ≤ v.width)
      fun e _ => e = .ub ∧ ¬ (v.qtype = .SC ∨ v.width ≤ x.length) := by
  by_cases hq : v.qtype = .SC
  · rw [sclrBytes, if_pos hq, ends_pure, VctrVal.sclr, if_pos hq]
    exact ⟨rfl, rfl, hsc hq⟩
  · rw [sclrBytes, if_neg hq, ends_takeN, VctrVal.sclr, if_neg hq, or_iff_right hq]
    exact ⟨fun hle => ⟨rfl, rfl, by rw [List.length_take]; omega⟩, fun hle => ⟨rfl, hle⟩⟩

/-- `vctr_put1`, up to what `vctr_memo` makes of the vector that has grown. A string
has to fit its slot. It is refused, with nothing changed, for no other reason than
those listed. -/
theorem Filled.ends_vctrPut1 {Q : St → Prop} (h : Filled s u v D)
    (hsc : v.qtype = .SC → (cstr x).length ≤ v.width)
    (hidx : v.numElements + 1 ≤ lmaIdx * v.maxNumInChnk)
    (hmemo : ∀ w t, Grows s t u v w (D ++ v.put1Bytes x) 1 →
      Ends (vctrMemo u) t (fun _ t => Q t) fun _ _ => False) :
    Ends (vctrPut1 u x) s (fun _ t => Q t)
      fun e t => (v.qtype = .SC ∨ v.width ≤ x.length → e ≠ .ub) ∧
        (e ≠ .ub → Alike s t ∧ (u = 0 ∨ v.isEov = true ∨ ¬ InMem s u v)) := by
  simp only [vctrPut1, ends_bind, ends_byeIf, ends_getVctr_of h.found]
  refine ⟨fun hu => ⟨by simp, fun _ => ⟨.refl, Or.inl hu⟩⟩, fun _ =>
    ⟨fun he => ⟨by simp, fun _ => ⟨.refl, Or.inr (Or.inl he)⟩⟩, fun he => ?_⟩⟩
  have he' : v.isEov = false := by simpa using he
  refine h.ends_chnkFirst.imp ?_ ?_
  swap
  · rintro e t ⟨hne, h0, ht⟩
    refine ⟨fun _ => hne, fun _ => ⟨ht, Or.inr (Or.inr ?_)⟩⟩
    rintro ⟨c, b, hc, -⟩
    rw [h.empty h0] at hc
    contradiction
  rintro - t ⟨ht, hst, hin⟩
  rw [ends_getVctr_of ht.found]
  refine (ht.ends_chnkToPut hidx).imp ?_ ?_
  · rintro _ t' ⟨w, c, b, rfl, ho, hh, hc, hb, hlt, hst'⟩
    have hoff := hh.off_eq hc
    have hfit := hh.room_bytes hc (k := 1) hlt
    have hlen := ((hh.chnkOk hc).l1 b hb).1
    have hfit' := Nat.le_trans hfit hlen
    have hwid := static_width ho.static
    rw [Nat.mul_one] at hfit hfit'
    simp only [ends_bind, ends_getChnk_of hc, hb, ends_poke, List.length_replicate, ← hwid]
    rw [hoff]
    refine ⟨fun _ => ?_, fun hn => (hn hfit').elim⟩
    refine (ends_sclrBytes hsc).imp ?_ ?_
    swap
    · rintro e t ⟨hub, hshort⟩
      exact ⟨fun hle => absurd (hwid ▸ hle) hshort, fun hne => absurd hub hne⟩
    rintro _ t' ⟨rfl, rfl, hle⟩
    -- the copy, over the slot that was cleared
    have hzero : List.replicate w.width (0 : UInt8) =
        List.replicate (v.sclr x).length 0 ++ List.replicate (v.width - (v.sclr x).length) 0 := by
      rw [← List.replicate_add, Nat.add_sub_cancel' hle, hwid]
    have hbytes : splice (splice b.bytes (w.page D w.maxChnkIdx).length (List.replicate w.width 0))
        (w.page D w.maxChnkIdx).length (v.sclr x) =
          splice b.bytes (w.page D w.maxChnkIdx).length (v.put1Bytes x) := by
      rw [hzero, splice_splice (by rw [List.length_replicate]), VctrVal.put1Bytes]
      rw [← hzero, List.length_replicate]
      exact hfit'
    have hplen : (v.put1Bytes x).length = w.width * 1 := by
      rw [length_put1Bytes hsc, Nat.mul_one, hwid]
    have hfits : (w.page D w.maxChnkIdx).length + (v.put1Bytes x).length ≤ b.bytes.length := by
      rw [hplen, Nat.mul_one]
      exact hfit'
    rw [hbytes, length_splice (by rwa [List.length_replicate])]
    refine ⟨fun _ => ?_, fun hn => (hn (by omega)).elim⟩
    simp only [ends_modVctr_of hh.found, ends_setChnk]
    have hgrows := ho.written (b := ⟨b.addr, splice b.bytes (w.page D w.maxChnkIdx).length
        (v.put1Bytes x)⟩) Nat.one_pos he' (hst.trans hst' rfl) hh hc hlt hplen
      (hlen.trans (length_splice hfits).ge) (prefix_splice ((hh.chnkOk hc).l1 b hb).2 hfits)
    exact (hmemo _ _ hgrows).imp (fun _ _ ht => ht) fun _ _ => False.elim
  · rintro e t' ⟨hne, rfl, hnot⟩
    obtain ⟨-, rfl⟩ := hin.resolve_left hnot
    exact ⟨fun _ => hne, fun _ => ⟨.refl, Or.inr (Or.inr hnot)⟩⟩

/-- **`vctr_put1`** appends an element or leaves the vector as it was. -/
theorem Vec.ends_vctrPut1 (h : Vec s u v D) (hsc : v.qtype = .SC → (cstr x).length ≤ v.width)
    (hroom : Room s u v 1) :
    Ends (vctrPut1 u x) s
      (fun _ t => Appended u v (D ++ v.put1Bytes x) t) fun e t => e ≠ .ub → Vec t u v D :=
  (h.filled.ends_vctrPut1 hsc hroom.idx fun _ _ ht => ht.ends_memo (ht.vec h) Nat.one_pos hroom).imp
    (fun _ _ => id) fun _ _ ht hub => h.congr (ht.2 hub).1

/-! ## many elements -/

/-- One round of `vctr_putn` appends `k` elements, and stops short of `n` only
where the last chunk is full. It is refused, with nothing changed, for no other
reason than those listed. -/
theorem Filled.ends_putnRound (h : Filled s u v D)
    (hidx : v.numElements + n ≤ lmaIdx * v.maxNumInChnk) (X : List UInt8) :
    Ends (putnRound u X n) s
      (fun r t => u ≠ 0 ∧ ∃ k w, r = (k, v.width * k) ∧ 0 < k ∧ k ≤ n ∧ v.width * k ≤ X.length ∧
        Grows s t u v w (D ++ X.take (v.width * k)) k)
      fun e t => (v.width * n ≤ X.length → e ≠ .ub) ∧
        (e ≠ .ub → Alike s t ∧ (u = 0 ∨ n = 0 ∨ v.isEov = true ∨ ¬ InMem s u v)) := by
  simp only [putnRound, ends_bind, ends_byeIf, ends_getVctr_of h.found]
  refine ⟨fun hu => ⟨by simp, fun _ => ⟨.refl, Or.inl hu⟩⟩, fun hu =>
    ⟨fun hn => ⟨by simp, fun _ => ⟨.refl, Or.inr (Or.inl hn)⟩⟩, fun hn =>
    ⟨fun he => ⟨by simp, fun _ => ⟨.refl, Or.inr (Or.inr (Or.inl he))⟩⟩, fun he => ?_⟩⟩⟩
  have hfull : v.numElements < lmaIdx * v.maxNumInChnk :=
    Nat.lt_of_lt_of_le (Nat.lt_add_of_pos_right (Nat.pos_of_ne_zero hn)) hidx
  refine h.ends_chnkFirst.imp ?_ ?_
  · rintro - t ⟨ht, hst, hin⟩
    refine (ht.ends_chnkToPut hfull).imp ?_ ?_
    · rintro _ t' ⟨w, c, b, rfl, ho, hh, hc, hb, hlt, hst'⟩
      have hoff := hh.off_eq hc
      have hlen := ((hh.chnkOk hc).l1 b hb).1
      have hwid := static_width ho.static
      have hmax := static_maxNumInChnk ho.static
      have hm32 : w.maxNumInChnk < 2 ^ 32 :=
        Nat.lt_of_le_of_lt (Nat.le_mul_of_pos_left _ hh.shape.width_pos) hh.shape.size_lt
      have hspace : u32 (v.maxNumInChnk + 2 ^ 32 - c.numElements) =
          w.maxNumInChnk - c.numElements := by
        rw [← hmax]
        unfold u32
        omega
      simp only [ends_bind, ends_getChnk_of hc, hb, ← hwid, hoff, hspace]
      generalize hk : (if n > w.maxNumInChnk - c.numElements then w.maxNumInChnk - c.numElements
        else n) = k
      have hk0 : 0 < k := by split at hk <;> omega
      have hkle : c.numElements + k ≤ w.maxNumInChnk := by split at hk <;> omega
      have hkn : k ≤ n := by split at hk <;> omega
      have hmul : w.width * k ≤ w.width * n := Nat.mul_le_mul_left _ hkn
      have hfit := hh.room_bytes hc hkle
      simp only [hh.shape.u32_width (Nat.le_trans (Nat.le_add_left _ _) hkle), ends_takeN,
        ends_poke, List.length_take]
      refine ⟨fun hX => ?_, fun hX => ⟨fun hle => by omega, fun hub => absurd rfl hub⟩⟩
      rw [Nat.min_eq_left hX]
      refine ⟨fun _ => ?_, fun hno => (hno (Nat.le_trans hfit hlen)).elim⟩
      have hxl : (X.take (w.width * k)).length = w.width * k := by
        rw [List.length_take, Nat.min_eq_left hX]
      have hfits : (w.page D w.maxChnkIdx).length + (X.take (w.width * k)).length ≤
          b.bytes.length := by rw [hxl]; exact Nat.le_trans hfit hlen
      have hgrows := ho.written
        (b := ⟨b.addr, splice b.bytes (w.page D w.maxChnkIdx).length (X.take (w.width * k))⟩)
        hk0 (by simpa using he) (hst.trans hst' rfl) hh hc hkle hxl
        (hlen.trans (length_splice hfits).ge) (prefix_splice ((hh.chnkOk hc).l1 b hb).2 hfits)
      simp only [ends_modVctr_of hh.found, ends_setChnk, ends_pure]
      exact ⟨hu, k, _, rfl, hk0, hkn, hX, hgrows⟩
    · rintro e t' ⟨hne, rfl, hnot⟩
      obtain ⟨-, rfl⟩ := hin.resolve_left hnot
      exact ⟨fun _ => hne, fun _ => ⟨.refl, Or.inr (Or.inr (Or.inr hnot))⟩⟩
  · rintro e t ⟨hne, h0, ht⟩
    refine ⟨fun _ => hne, fun _ => ⟨ht, Or.inr (Or.inr (Or.inr ?_))⟩⟩
    rintro ⟨c, b, hc, -⟩
    rw [h.empty h0] at hc
    cases hc

/-- `vctr_putn`, up to what `vctr_memo` makes of the vector that has grown: every round
appends what fits, and the rounds together append all of `X`. -/
theorem Filled.ends_vctrPutnLoop {Q : St → Prop}
    (hQ : ∀ t, Q t → Ends (vctrMemo u) t (fun _ t => Q t) fun _ _ => False) :
    ∀ (depth n : Nat) (s : St) (v : VctrVal) (D X : List UInt8), Filled s u v D →
    v.numElements + n ≤ lmaIdx * v.maxNumInChnk →
    (∀ w t, 0 < n → Grows s t u v w (D ++ X.take (v.width * n)) n →
      Ends (vctrMemo u) t (fun _ t => Q t) fun _ _ => False) →
    Ends (vctrPutnLoop depth u X n) s (fun _ t => Q t)
      fun e t => (n < depth → v.width * n ≤ X.length → e ≠ .ub) ∧
        (e ≠ .ub → Alike s t ∧ (u = 0 ∨ n = 0 ∨ v.isEov = true ∨ ¬ InMem s u v))
  | 0, _, _, _, _, _, _, _, _ => ⟨fun h => absurd h (Nat.not_lt_zero _), fun h => absurd rfl h⟩
  | depth + 1, n, s, v, D, X, h, hidx, hmemo => by
    simp only [vctrPutnLoop, ends_bind, ends_onlyIf]
    refine (h.ends_putnRound hidx X).imp ?_ fun e t ht => ⟨fun _ => ht.1, ht.2⟩
    rintro _ t ⟨hu, k, w, rfl, hk0, hkn, hX, hg⟩
    have hwid := static_width hg.static
    have hnum := hg.num
    refine ⟨fun hmore => ?_, fun hall => ?_⟩
    · have hsum : v.width * k + v.width * (n - k) = v.width * n := by
        rw [← Nat.mul_add, Nat.add_sub_cancel' hkn]
      have hidx' : w.numElements + (n - k) ≤ lmaIdx * w.maxNumInChnk := by
        rw [static_maxNumInChnk hg.static]
        omega
      -- the growth of this round and of the rest together
      have hmemo' : ∀ w' t', 0 < n - k → Grows t t' u w w'
          (D ++ X.take (v.width * k) ++ (X.drop (v.width * k)).take (w.width * (n - k))) (n - k) →
          Ends (vctrMemo u) t' (fun _ t => Q t) fun _ _ => False := by
        intro w' t' _ hg'
        have hboth := hg.trans hg'
        rw [hwid, List.append_assoc, ← List.take_add, hsum, Nat.add_sub_cancel' hkn] at hboth
        exact hmemo w' t' (by omega) hboth
      refine (Filled.ends_vctrPutnLoop hQ depth (n - k) t w _ (X.drop (v.width * k)) hg.filled hidx'
        hmemo').imp ?_ ?_
      · rintro - t' ht'
        exact (hQ t' ht').imp (fun _ _ ht => ht) fun _ _ => False.elim
      · -- a round that left something over cannot be followed by a refusal
        rintro e t' ⟨hub, hbye⟩
        have hnever : e = .ub := by
          by_contra hne
          obtain ⟨-, hu' | hn | hev | hnot⟩ := hbye hne
          · exact hu hu'
          · omega
          · rw [hg.eov] at hev; cases hev
          · exact hnot hg.inMem
        refine ⟨fun hd hl => hub (by omega) ?_, fun hne => absurd hnever hne⟩
        rw [hwid, List.length_drop]
        omega
    · obtain rfl : k = n := by omega
      exact (hmemo w t hk0 hg).imp (fun _ _ ht => ht) fun _ _ => False.elim

/-- **`vctr_putn`** appends all of `X` or leaves the vector as it was. -/
theorem Vec.ends_vctrPutnLoop {X : List UInt8} (depth : Nat) (h : Vec s u v D)
    (hroom : Room s u v n) :
    Ends (vctrPutnLoop depth u X n) s
      (fun _ t => Appended u v (D ++ X.take (v.width * n)) t)
      fun e t => (n < depth → v.width * n ≤ X.length → e ≠ .ub) ∧
        (e ≠ .ub → Vec t u v D ∧ (u = 0 ∨ n = 0 ∨ v.isEov = true ∨ ¬ InMem s u v)) :=
  (Filled.ends_vctrPutnLoop (fun _ ht => ht.ends_memo) depth n s v D X h.filled hroom.idx
    fun _ _ hn ht => ht.ends_memo (ht.vec h) hn hroom).imp (fun _ _ => id)
    fun _ _ ht => ⟨ht.1, fun hub => ⟨h.congr (ht.2 hub).1, (ht.2 hub).2⟩⟩

/-! ## one chunk -/

/-- The bytes that `n` elements of a `CMEM` stand for. -/
def VctrVal.cmemBytes (v : VctrVal) (cmem : Cmem) (n : Nat) : List UInt8 :=
  ((cmem.data.map Buf.bytes).getD []).take (v.width * n)

/-- The `CMEM` has the memory it says it has. -/
def Cmem.Valid (cmem : Cmem) : Prop := ∃ d, cmem.data = some d ∧ cmem.size ≤ d.bytes.length

/-- Marking the end of a vector does not touch what it holds. -/
theorem Held.setEov (h : Held False s u v D) (e : Bool) :
    Held False (s.setVctr u { v with isEov := e }) u { v with isEov := e } D :=
  ⟨St.setVctr_self, { h.shape with }, h.inside, h.outside⟩

theorem Vec.setEov (h : Vec s u v D) (e : Bool) :
    Vec (s.setVctr u { v with isEov := e }) u { v with isEov := e } D :=
  ⟨St.setVctr_self, { h.shape with }, h.window, h.empty, fun hp =>
    ⟨(h.held hp).1.setEov e, (h.held hp).2⟩⟩

/-- The memory of the new chunk holds the elements. -/
theorem ends_takeOver {cmem : Cmem} {size nbytes : Nat} (hd : ∃ d, cmem.data = some d ∧
    size ≤ d.bytes.length) (hn : nbytes ≤ size) :
    Ends (takeOver cmem size nbytes) s
      (fun r t => ∃ b, r.1 = some b ∧ size ≤ b.bytes.length ∧
        ((cmem.data.map Buf.bytes).getD []).take nbytes <+: b.bytes ∧
        t.vctrs = s.vctrs ∧ t.chnks = s.chnks ∧ t.fs = s.fs)
      fun e t => e ≠ .ub ∧ t.vctrs = s.vctrs ∧ t.chnks = s.chnks ∧ t.fs = s.fs := by
  obtain ⟨d, hd, hl⟩ := hd
  rw [takeOver]
  split
  · rw [ends_bind, ends_byeIf]
    refine ⟨fun _ => ⟨by simp, rfl, rfl, rfl⟩, fun _ => ⟨d, hd, hl, ?_, rfl, rfl, rfl⟩⟩
    rw [hd]
    exact List.take_prefix _ _
  · rw [ends_bind, ends_memalign, ends_bind, hd]
    refine ends_incrMem (fun _ _ => ⟨by simp, rfl, rfl, rfl⟩) fun k r => ?_
    have hfit : ([] : List UInt8).length + (d.bytes.take nbytes).length ≤
        (List.replicate size s.junk).length := by
      rw [List.length_nil, List.length_take, List.length_replicate]
      omega
    rw [ends_bind, ends_takeN]
    refine ⟨fun _ => ?_, fun hno => (hno (by omega)).elim⟩
    rw [ends_bind, ends_poke]
    refine ⟨fun _ => ⟨_, rfl, ?_, ?_, rfl, rfl, rfl⟩, fun hno => (hno hfit).elim⟩
    · exact Nat.le_of_eq ((length_splice hfit).trans List.length_replicate).symm
    · exact prefix_splice List.nil_prefix hfit

/-- The vector as `vctr_put_chunk` leaves it, before it marks the end. -/
theorem Filled.putChunk {m : List UInt8} (h : Filled s u v D) (he : v.isEov = false) (hn : 0 < n)
    (hle : n ≤ v.maxNumInChnk)
    (hi : i = if v.numElements = 0 then 0 else v.maxChnkIdx + 1)
    (hidx : v.numElements < lmaIdx * v.maxNumInChnk)
    (hmul : v.numElements / v.maxNumInChnk * v.maxNumInChnk = v.numElements)
    (hm : m.length = v.width * n) (hb : v.width * v.maxNumInChnk ≤ b.bytes.length)
    (hw : m <+: b.bytes) (htv : t.vctrs = update s.vctrs u
      (some { v with numElements := v.numElements + n, maxChnkIdx := i })) (htf : t.fs = s.fs)
    (htc : t.chnks = update s.chnks (u, i)
      (some (putChnk v (v.width * v.maxNumInChnk) (some b) n))) :
    Grows s t u v { v with numElements := v.numElements + n, maxChnkIdx := i } (D ++ m) n := by
  -- the chunk as if it had been opened empty, and then filled
  have hopen : ∀ b₀ : Buf, b₀.bytes.length = v.width * v.maxNumInChnk →
      Held False ((s.setVctr u { v with maxChnkIdx := i }).setChnk u i
        (freshChnk v (v.width * v.maxNumInChnk) b₀)) u { v with maxChnkIdx := i } D ∧
      v.maxChnkIdx ≤ i ∧ v.numElements = i * v.maxNumInChnk ∧ s.chnks (u, i) = none := by
    intro b₀ hb₀
    by_cases h0 : v.numElements = 0
    · rw [if_pos h0] at hi
      obtain ⟨hmax, -⟩ := h.shape.maxChnkIdx_of_empty h0
      subst hi
      have hv : { v with maxChnkIdx := 0 } = v := by rw [← hmax]
      have hs : s.setVctr u v = s := by rw [St.setVctr, ← h.found, update_eq_self]
      rw [hv, hs]
      exact ⟨h.openFirst h0 hb₀ rfl rfl, by omega, by omega, h.empty h0 0⟩
    · rw [if_neg h0] at hi
      obtain ⟨hh, hlt⟩ := h.held (Nat.pos_of_ne_zero h0)
      have hq : v.numElements / v.maxNumInChnk = v.maxChnkIdx + 1 := by
        have h1 : v.maxChnkIdx < v.numElements / v.maxNumInChnk := by
          rw [← hmul] at hlt
          exact Nat.lt_of_mul_lt_mul_right hlt
        have h2 : v.numElements / v.maxNumInChnk ≤ v.maxChnkIdx + 1 := by
          have := h.shape.hi
          rw [← hmul] at this
          exact Nat.le_of_mul_le_mul_right this h.shape.max_pos
        omega
      rw [hq] at hmul
      subst hi
      have hlt' : v.maxChnkIdx + 1 < lmaIdx := by
        rw [← hmul] at hidx
        exact Nat.lt_of_mul_lt_mul_right hidx
      exact ⟨hh.openNext hmul.symm hlt' hb₀ St.setVctr_self rfl rfl, Nat.le_succ _, hmul.symm,
        hh.outside _ (by omega)⟩
  obtain ⟨hh, hge, hnum, hnone⟩ := hopen ⟨0, List.replicate (v.width * v.maxNumInChnk) 0⟩
    List.length_replicate
  have hnil : v.page D i = [] := page_eq_nil (h.shape.len_le (Nat.le_of_eq hnum))
  have hheld : Held False t u { v with numElements := v.numElements + n, maxChnkIdx := i }
      (D ++ m) := by
    refine hh.append (k := n) (b := b) St.setChnk_self (by simpa [freshChnk] using hle) hm hb ?_
      (by rw [htv, update_self]) htf ?_
    · show v.page D i ++ m <+: b.bytes
      rw [hnil]
      exact hw
    · rw [htc, St.setChnk, update_idem]
      simp only [freshChnk, putChnk, Nat.zero_add]
      rfl
  refine ⟨⟨hheld.found, hheld.shape, fun h0 => ?_, fun _ => ⟨hheld, ?_⟩⟩, rfl, he, rfl, rfl, hge,
    ⟨_, b, by rw [htc, update_self], rfl⟩, .opens hnone rfl htc⟩
  · simp only at h0
    omega
  · show i * v.maxNumInChnk < v.numElements + n
    omega

/-- `vctr_put_chunk` where its first pass of `vctr_memo` has nothing to do, up to what the
second makes of the vector that has grown. -/
theorem Filled.ends_vctrPutChunk {cmem : Cmem} {Q : VctrVal → St → Prop} (h : Filled s u v D)
    (hq : v.qtype ≠ .B1) (hcm : cmem.Valid) (hidle : Ends (vctrMemo u) s (fun _ t => t = s)
      fun _ _ => False) (hroom : v.numElements + n ≤ lmaIdx * v.maxNumInChnk)
    (hfound : ∀ w t, Q w t → t.vctrs u = some w)
    (hmemo : ∀ w t, 0 < n → Grows s t u v w (D ++ v.cmemBytes cmem n) n →
      Ends (vctrMemo u) t (fun _ t => ∃ w, Q w t) fun _ _ => False) :
    Ends (vctrPutChunk u cmem n) s
      (fun _ t => (v.cmemBytes cmem n).length = v.width * n ∧ ∃ w r, Q w r ∧
        t = r.setVctr u { w with isEov := decide (n < v.maxNumInChnk) })
      fun e t => e ≠ .ub ∧ Alike s t := by
  have hstay : (Err.bye (-1)) ≠ .ub ∧ Alike s s := ⟨by simp, .refl⟩
  rw [vctrPutChunk, ends_bind, putChunkTake, ends_bind, ends_byeIf]
  refine ⟨fun _ => hstay, fun hu => ?_⟩
  rw [ends_bind, ends_byeIf]
  refine ⟨fun _ => hstay, fun hn => ?_⟩
  rw [ends_bind, ends_getVctr_of h.found, ends_bind, ends_byeIf]
  refine ⟨fun _ => hstay, fun he => ?_⟩
  rw [ends_bind, ends_byeIf]
  refine ⟨fun _ => hstay, fun hle => ?_⟩
  rw [ends_bind, ends_byeIf]
  refine ⟨fun _ => hstay, fun h0 => ?_⟩
  rw [ends_bind, ends_byeIf]
  refine ⟨fun _ => hstay, fun hsz => ?_⟩
  rw [ends_bind, ends_byeIf]
  refine ⟨fun _ => hstay, fun hmul => ?_⟩
  have he' : v.isEov = false := by simpa using he
  have hsz' : u32 cmem.size = v.width * v.maxNumInChnk := by
    rw [← h.shape.chnkSize_eq]
    by_contra hne
    exact hsz ⟨hq, hne⟩
  have hmul' : v.numElements / v.maxNumInChnk * v.maxNumInChnk = v.numElements := by
    by_contra hne
    exact hmul hne
  have hle' : n ≤ v.maxNumInChnk := Nat.le_of_not_lt hle
  have hpos : 0 < n := Nat.pos_of_ne_zero hn
  have hfirst : Ends (onlyIf (n < v.maxNumInChnk) (vctrMemo u)) s (fun _ t => t = s)
      fun _ _ => False := by
    rw [ends_onlyIf]
    exact ⟨fun _ => hidle, fun _ => rfl⟩
  rw [ends_bind]
  refine hfirst.imp ?_ fun _ _ => False.elim
  rintro - t ht
  rw [ht, ends_bind, ends_getVctr_of h.found]
  generalize hi : (if v.numElements = 0 then 0 else u32 (v.maxChnkIdx + 1)) = i
  have hmax : u32 (v.maxChnkIdx + 1) = v.maxChnkIdx + 1 := by
    have := h.shape.idx_lt
    unfold lmaIdx at this
    exact u32_eq (by omega)
  rw [hmax] at hi
  have hidx : v.numElements < lmaIdx * v.maxNumInChnk :=
    Nat.lt_of_lt_of_le (Nat.lt_add_of_pos_right hpos) hroom
  have hbytes : u32 (n * v.width) = v.width * n := h.shape.u32_width hle'
  have hfits : v.width * n ≤ v.width * v.maxNumInChnk := Nat.mul_le_mul_left _ hle'
  obtain ⟨d, hd, hdl⟩ := hcm
  have hdl' : v.width * v.maxNumInChnk ≤ d.bytes.length := by
    rw [← hsz']
    exact Nat.le_trans (Nat.mod_le _ _) hdl
  rw [ends_bind, hbytes, hsz']
  refine (ends_takeOver ⟨d, hd, hdl'⟩ hfits).imp ?_ ?_
  · rintro ⟨l1, cmem'⟩ t ⟨b, rfl, hb, hw, htv, htc, htf⟩
    have hm : (v.cmemBytes cmem n).length = v.width * n := by
      rw [VctrVal.cmemBytes, hd, Option.map_some, Option.getD_some, List.length_take]
      omega
    have htv' : (t.setChnk u i (putChnk v (v.width * v.maxNumInChnk) (some b) n)).vctrs u =
        some v := by rw [St.setChnk_vctrs, htv, h.found]
    simp only [ends_pure, putChunkEnter, ends_bind, ends_setChnk, ends_modVctr_of htv']
    have hgrows := h.putChunk (i := i) (b := b) (m := v.cmemBytes cmem n)
      (t := (t.setChnk u i (putChnk v (v.width * v.maxNumInChnk) (some b) n)).setVctr u
        { v with numElements := v.numElements + n, maxChnkIdx := i })
      he' hpos hle' hi.symm hidx hmul' hm hb hw
      (by simp only [St.setVctr, St.setChnk, htv]) htf (by simp only [St.setVctr, St.setChnk, htc])
    refine (hmemo _ _ hpos hgrows).imp ?_ fun _ _ => False.elim
    rintro - t' ⟨w, hw'⟩
    simp only [ends_modVctr_of (hfound w t' hw')]
    exact ⟨hm, w, t', hw', rfl⟩
  · rintro e t ⟨hub, htv, htc, htf⟩
    exact ⟨hub, htv, htc, htf⟩

/-- **`vctr_put_chunk`** appends up to a chunk of elements at once, and ends the
vector if it is less than one. -/
theorem Vec.ends_vctrPutChunk {cmem : Cmem} (h : Vec s u v D) (hnar : v.Narrow)
    (hq : v.qtype ≠ .B1) (hcm : cmem.Valid) (hroom : Room s u v n) :
    Ends (vctrPutChunk u cmem n) s
      (fun _ t => (v.cmemBytes cmem n).length = v.width * n ∧ ∃ v',
        Vec t u v' (D ++ v.cmemBytes cmem n) ∧ v'.Narrow ∧ v'.static = v.static ∧
        v'.isEov = decide (n < v.maxNumInChnk))
      fun e t => e ≠ .ub ∧ Vec t u v D := by
  -- the first pass of `vctr_memo` has nothing to do
  have hidle : Ends (vctrMemo u) s (fun _ t => t = s) fun _ _ => False := by
    refine ends_vctrMemo_narrow h.found h.shape fun hm => ?_
    rw [hnar, VctrVal.lowest, if_neg hm]
    omega
  refine (h.filled.ends_vctrPutChunk (Q := fun w t => Vec t u w (D ++ v.cmemBytes cmem n) ∧
    w.Narrow ∧ w.static = v.static) hq hcm hidle hroom.idx (fun _ _ ht => ht.1.found)
    fun w t hn ht => ?_).imp ?_ fun e t ht => ⟨ht.1, h.congr ht.2⟩
  · refine (ht.ends_memo (ht.vec h) hn hroom).imp ?_ fun _ _ => False.elim
    rintro - t ⟨v', hv', hnar', hst, -⟩
    exact ⟨v', hv', hnar', hst⟩
  · rintro - t ⟨hm, w, r, ⟨hw, hnar', hst⟩, rfl⟩
    exact ⟨hm, _, hw.setEov _, hnar', hst, rfl⟩

end QStore.Vctr
