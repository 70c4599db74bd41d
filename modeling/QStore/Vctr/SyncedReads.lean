import QStore.Vctr.LmaSynced

/-!
# QStore.Vctr.SyncedReads

Reading a vector whose copies all agree, from its chunks or from its linear file.

What is read is what was appended, whichever copy it comes from. A read may bring a chunk into
memory or map the linear file, and may be counted and never given back: the vector is as good
after it.
-/

namespace QStore.Vctr

open Function

/-- The entry of a vector with its linear file mapped as `x` for `r` readers. -/
abbrev VctrVal.readBy (v : VctrVal) (r : Nat) (x : Option Mapping) : VctrVal :=
  { v with numReaders := r, x := x }

variable {s t : St} {u i r : Nat} {v : VctrVal} {c : ChnkVal} {D : List UInt8} {x : Option Mapping}
  {m : Mapping}

namespace Synced

/-- The readers of the linear file come and go. -/
theorem setReaders (h : Synced s u v D) (hl : v.isLma = true)
    (hx : r = 0 → x = none) (hm : r ≠ 0 → ∃ m, x = some m ∧ m.live = true ∧ m.len = D.length ∧
      s.fs.dir (lmaFile u) = some m.ino) :
    Synced (s.setVctr u (v.readBy r x)) u (v.readBy r x) D :=
  h.relinear v.isLma r x St.setVctr_self rfl (fun _ _ => rfl) hx
    (fun hno => by rw [hl] at hno; contradiction) fun _ => ⟨(h.line hl).file, hm⟩

/-- `num_readers++` with the file mapped. -/
theorem ends_incrNumReaders (h : Synced s u v D) (hl : v.isLma = true) (hr : v.numReaders + 1 < 2 ^ 31)
    (hx : v.x = some m) (hlive : m.live = true) (hlen : m.len = D.length)
    (hdir : s.fs.dir (lmaFile u) = some m.ino) :
    Ends (incrNumReaders u) s (fun _ t => t = s.setVctr u (v.readBy (v.numReaders + 1) (some m)) ∧
      Synced t u (v.readBy (v.numReaders + 1) (some m)) D) fun _ _ => False := by
  rw [incrNumReaders, ends_bind, ends_getVctr_of h.held.found, if_pos hr, ends_setVctr]
  have heq : ({ v with numReaders := v.numReaders + 1 } : VctrVal) =
      v.readBy (v.numReaders + 1) (some m) := by rw [← hx]
  rw [heq]
  exact ⟨rfl, h.setReaders hl (fun h0 => absurd h0 (Nat.succ_ne_zero _))
    fun _ => ⟨m, rfl, hlive, hlen, hdir⟩⟩

/-- The first reader maps the file. The entry has the mapping before it has the reader. -/
theorem ends_mapLma (h : Synced s u v D) (hl : v.isLma = true) (hr : v.numReaders + 1 < 2 ^ 31) :
    Ends (do
      let x ← rsMmap (lmaFile u)
      setVctr u { v with x := x }
      incrNumReaders u
      pure x) s (fun y t => ∃ m, y = some m ∧ m.live = true ∧ m.len = D.length ∧
        t.fs.dir (lmaFile u) = some m.ino ∧ Synced t u (v.readBy (v.numReaders + 1) (some m)) D)
      fun _ _ => False := by
  rw [ends_bind]
  refine (ends_rsMmap_of (h.line hl).file h.ne_nil).imp ?_ fun _ _ => False.elim
  rintro _ _ ⟨rfl, m, rfl, hlive, hlen, hdir⟩
  simp only [ends_bind, ends_setVctr, incrNumReaders, ends_getVctr_of St.setVctr_self, if_pos hr,
    ends_pure]
  refine ⟨m, rfl, hlive, hlen, hdir, ?_⟩
  have hend := h.setReaders (r := v.numReaders + 1) (x := some m) hl
    (fun h0 => absurd h0 (Nat.succ_ne_zero _)) fun _ => ⟨m, rfl, hlive, hlen, hdir⟩
  refine hend.congr ?_ rfl rfl
  show update (update s.vctrs u _) u _ = update s.vctrs u _
  rw [update_idem]

/-- **`vctr_get_lma_X_nX`** hands out a mapping of all the elements. -/
theorem ends_vctrGetLmaXnX (h : Synced s u v D) (hl : v.isLma = true)
    (hr : v.numReaders + 1 < 2 ^ 31) :
    Ends (vctrGetLmaXnX u) s (fun y t => ∃ m, y = some m ∧ m.live = true ∧ m.len = D.length ∧
      t.fs.dir (lmaFile u) = some m.ino ∧ Synced t u (v.readBy (v.numReaders + 1) (some m)) D)
      fun _ _ => False := by
  rw [vctrGetLmaXnX, ends_bind, ends_getVctr_of h.held.found]
  split
  · next hpos =>
    obtain ⟨m, hx, hlive, hlen, hdir⟩ := (h.line hl).mapped hpos.ne'
    rw [ends_bind]
    refine (h.ends_incrNumReaders hl hr hx hlive hlen hdir).imp ?_ fun _ _ => id
    rintro - t ⟨rfl, ht⟩
    exact ⟨m, hx, hlive, hlen, hdir, ht⟩
  · exact h.ends_mapLma hl hr

/-- `num_readers--` -/
theorem ends_decrNumReaders (h : Synced s u v D) (hl : v.isLma = true) (hr : v.numReaders ≠ 0) :
    Ends (decrNumReaders u) s (fun _ t => ∃ y, Synced t u (v.readBy (v.numReaders - 1) y) D)
      fun _ _ => False := by
  obtain ⟨m, hx, hlive, hlen, hdir⟩ := (h.line hl).mapped hr
  rw [decrNumReaders, ends_bind, ends_getVctr_of h.held.found, ends_setVctr]
  refine ⟨_, h.setReaders hl (fun h0 => if_pos h0) fun h1 => ⟨m, ?_, hlive, hlen, hdir⟩⟩
  rw [if_neg h1, hx]

/-- A chunk that is read stays as good. -/
theorem ends_chnkGetData (h : Synced s u v D) (hl : v.isLma = false) (hc : s.chnks (u, i) = some c) :
    Ends (chnkGetData u i false) s (fun y t => Synced t u v D ∧ ∃ b, y = some b ∧
      v.page D i <+: b.bytes ∧ ∃ c', t.chnks (u, i) = some c' ∧ c'.numElements = c.numElements)
      fun _ _ => False := by
  refine (QStore.Vctr.ends_chnkGetData hc (h.held.chnkOk hc)
    (h.held.backed hl i c hc)).imp ?_ fun _ _ => id
  rintro _ t ⟨b, rfl, hb, hw, ht⟩
  exact ⟨h.reload hc ht hb hw, b, rfl, hw, _, ht.self, rfl⟩

/-! ## an element -/

/-- **An element** is read from the linear file as it was appended. -/
theorem ends_vctrGet1Lma (h : Synced s u v D) (hl : v.isLma = true) (hr : v.numReaders + 1 < 2 ^ 31)
    (hi : i < v.numElements) :
    Ends (vctrGet1Lma u i) s
      (fun y t => y = v.elem D i ∧ ∃ r x, Synced t u (v.readBy r x) D)
      fun e t => e ≠ .ub ∧ (v.qtype = .SC ∨ v.qtype = .B1) ∧ ∃ r x, Synced t u (v.readBy r x) D := by
  have hin : v.width * i + v.width ≤ D.length := by
    rw [h.held.shape.len, ← Nat.mul_succ]
    exact Nat.mul_le_mul_left _ hi
  simp only [vctrGet1Lma, ends_bind, ends_getVctr_of h.held.found,
    ends_byeIf_neg (show ¬ v.isLma = false by simp [hl]),
    ends_byeIf_neg (show ¬ v.numWriters ≠ 0 by simp [h.writers]),
    ends_byeIf_neg (Nat.not_le.mpr hi)]
  refine (h.ends_vctrGetLmaXnX hl hr).imp ?_ fun _ _ => False.elim
  rintro _ t ⟨m, rfl, hlive, hlen, hdir, ht⟩
  have hdata : (t.fs.data m.ino).take m.len = D := by
    rw [(ht.line hl).data hdir, hlen, List.take_length]
  have hnX : nX (some m) = D.length := hlen
  simp only [ends_byeIf, hnX]
  refine ⟨fun hsc => ⟨by simp, .inl hsc, _, _, ht⟩, fun _ => ⟨fun hb => ⟨by simp, .inr hb, _, _, ht⟩,
    fun _ => ⟨fun hgt => absurd hin (by omega), fun _ => ?_⟩⟩⟩
  simp only [ends_readMapping, hlive, if_true, ends_slice, hdata]
  refine ⟨fun _ => ?_, fun hlong => absurd hin hlong⟩
  rw [vctrUngetLmaXnX, ends_bind, ends_getVctr_of ht.held.found, ends_bind, ends_byeIf_neg (by simp)]
  refine (ht.ends_decrNumReaders hl (by simp)).imp ?_ fun _ _ => False.elim
  rintro - t' ⟨y, ht'⟩
  exact ⟨rfl, _, _, ht'⟩

/-- An element is read from its chunk as it was appended, if it is a string that ends. -/
theorem ends_vctrGet1Chnk (h : Synced s u v D) (hl : v.isLma = false) (hq : v.qtype ≠ .B1) :
    Ends (vctrGet1 u i) s (fun _ t => Synced t u v D) fun e t => e ≠ .ub ∧ Synced t u v D := by
  have hm0 : v.maxNumInChnk ≠ 0 := Nat.ne_of_gt h.held.shape.max_pos
  simp only [vctrGet1, ends_bind, ends_getVctr_of h.held.found, ends_byeIf, hl,
    Bool.false_eq_true, if_false, if_neg hm0]
  refine ⟨fun _ => ⟨by simp, h⟩, fun hlt => ?_⟩
  obtain ⟨hidx, hu, hoff⟩ := h.held.shape.chnk_of_elem (Nat.lt_of_not_le hlt)
  obtain ⟨c, hc, hok⟩ := h.inside hidx
  rw [hu, ends_getChnk_of hc]
  refine (h.ends_chnkGetData hl hc).imp ?_ fun _ _ => False.elim
  rintro _ t ⟨ht, b, rfl, hw, c', hc', hn⟩
  have helem := hok.numElements_eq h.held.shape
  simp only [ends_bind, ends_getChnk_of hc', hn]
  refine (ends_elemAt hq (by rw [helem]; exact hoff) hok.count hw
    (Nat.lt_of_le_of_lt hok.fits h.held.shape.size_lt)).imp ?_ fun _ _ => False.elim
  rintro y _ ⟨rfl, rfl⟩
  rw [ends_modChnk_of hc']
  have hend := ht.reread hc' (c'.numReaders - 1)
  split
  · exact hend
  · exact ⟨by simp, hend⟩

/-- **`vctr_get1`** reads what was appended. -/
theorem ends_vctrGet1 (h : Synced s u v D) (hq : v.qtype ≠ .B1) (hr : v.numReaders + 1 < 2 ^ 31) :
    Ends (vctrGet1 u i) s
      (fun y t => y = v.elem D i ∧ ∃ r x, Synced t u (v.readBy r x) D)
      fun e t => e ≠ .ub ∧ (v.qtype ≠ .SC → v.numElements ≤ i) ∧
        ∃ r x, Synced t u (v.readBy r x) D := by
  by_cases hi : i < v.numElements
  · cases hl : v.isLma with
    | true =>
        rw [vctrGet1, ends_bind, ends_getVctr_of h.held.found, ends_bind,
          ends_byeIf_neg (Nat.not_le.mpr hi), if_pos hl]
        refine (h.ends_vctrGet1Lma hl hr hi).imp (fun _ _ => id) ?_
        rintro e t ⟨he, hsc, ht⟩
        exact ⟨he, fun hno => absurd (hsc.resolve_left hno) hq, ht⟩
    | false =>
        have hmin : v.minChnkIdx ≤ i / v.maxNumInChnk := by
          rw [h.first]
          exact Nat.zero_le _
        refine ((h.held.ends_vctrGet1 hl hq hi hmin).and (h.ends_vctrGet1Chnk hl hq)).imp ?_ ?_
        · rintro y t ⟨⟨hy, -⟩, ht⟩
          exact ⟨hy, _, _, ht⟩
        · rintro e t ⟨⟨-, hsc, -⟩, he, ht⟩
          exact ⟨he, fun hno => absurd (fun hsc => absurd hsc hno) hsc, _, _, ht⟩
  · rw [vctrGet1, ends_bind, ends_getVctr_of h.held.found, ends_bind, ends_byeIf]
    exact ⟨fun hge => ⟨by simp, fun _ => hge, _, _, h⟩, fun hlt => absurd (Nat.le_of_not_lt hi) hlt⟩

/-- Past the end it fails, and changes nothing. -/
theorem vctrGet1_past (h : Synced s u v D) (hi : v.numElements ≤ i) :
    vctrGet1 u i s = .error (.bye (-1)) s := by
  refine Ends.throws ?_
  simp only [vctrGet1, ends_bind, ends_getVctr_of h.held.found, ends_byeIf]
  exact ⟨fun _ => ⟨trivial, trivial⟩, fun hlt => absurd hi hlt⟩

/-! ## a chunk -/

/-- **`vctr_get_chunk`** hands out the page, from the chunk or out of the linear file. -/
theorem ends_vctrGetChunk (h : Synced s u v D) (hq : v.qtype ≠ .B1) (hr : v.numReaders + 1 < 2 ^ 31) :
    Ends (vctrGetChunk u i) s
      (fun g t => v.page D i <+: g.bytes ∧ (v.page D i).length = v.width * g.num ∧
        ∃ r x, Synced t u (v.readBy r x) D)
      fun e t => e ≠ .ub ∧ v.maxChnkIdx < i ∧ ∃ r x, Synced t u (v.readBy r x) D := by
  have hshape := h.held.shape
  rw [vctrGetChunk, ends_bind, ends_getVctr_of h.held.found]
  cases hl : v.isLma with
  | false =>
      rw [if_neg (by simp), ends_bind, ends_getChnk]
      refine ⟨fun hnone => ⟨by simp, ?_, _, _, h⟩, fun c hc => ?_⟩
      · by_contra hi
        obtain ⟨c, hc, -⟩ := h.inside (Nat.le_of_not_lt hi)
        rw [hnone] at hc
        contradiction
      · rw [ends_bind]
        refine (h.ends_chnkGetData hl hc).imp ?_ fun _ _ => False.elim
        rintro _ t ⟨ht, b, rfl, hw, -⟩
        exact ⟨hw, (h.held.chnkOk hc).count, _, _, ht⟩
  | true =>
      have hw0 : ¬ v.width = 0 := Nat.ne_of_gt hshape.width_pos
      rw [if_pos rfl, vctrGetChunkLma, ends_bind, ends_getVctr_of h.held.found]
      simp only [ends_bind, ends_byeIf_neg (show ¬ v.isLma = false by simp [hl]),
        ends_byeIf_neg (show ¬ v.numWriters ≠ 0 by simp [h.writers])]
      refine (h.ends_vctrGetLmaXnX hl hr).imp ?_ fun _ _ => False.elim
      rintro _ t ⟨m, rfl, hlive, hlen, hdir, ht⟩
      have hdata : (t.fs.data m.ino).take m.len = D := by
        rw [(ht.line hl).data hdir, hlen, List.take_length]
      have hnX : nX (some m) = D.length := hlen
      have hpage : (v.page D i).length = min (D.length - v.width * v.maxNumInChnk * i)
          (v.width * v.maxNumInChnk) := by
        rw [length_page, Nat.min_comm, Nat.mul_comm]
      simp only [ends_byeIf, ends_get, hnX, if_neg hw0, if_neg hq, ends_pure, mappedFrom, hdata,
        hshape.chnkSize_eq, ← hpage]
      refine ⟨fun hgt => ⟨by simp, ?_, _, _, ht⟩, fun _ => ⟨?_, ?_, _, _, ht⟩⟩
      · by_contra hi
        have := hshape.le_len ((Nat.mul_le_mul_right v.maxNumInChnk (Nat.le_of_not_lt hi)).trans
          hshape.lo)
        rw [Nat.mul_comm] at hgt
        omega
      · have hsame : v.page D i = (D.drop (v.width * v.maxNumInChnk * i)).take (v.page D i).length := by
          rw [hpage, Nat.min_comm, ← List.length_drop, Nat.mul_comm _ i]
          exact List.take_eq_take_min
        exact hsame ▸ List.prefix_rfl
      · rw [hshape.page_length, Nat.mul_div_cancel_left _ hshape.width_pos]

/-- **`vctr_unget_chunk`** -/
theorem ends_vctrUngetChunk (h : Synced s u v D) :
    Ends (vctrUngetChunk u i) s (fun _ t => ∃ r x, Synced t u (v.readBy r x) D)
      fun e t => e ≠ .ub ∧ ∃ r x, Synced t u (v.readBy r x) D := by
  have hbye : Err.bye (-1) ≠ .ub ∧ ∃ r x, Synced s u (v.readBy r x) D := ⟨by simp, _, _, h⟩
  rw [vctrUngetChunk, ends_bind, ends_getVctr_of h.held.found]
  cases hl : v.isLma with
  | true =>
      rw [if_pos rfl, ends_bind, ends_byeIf]
      refine ⟨fun _ => hbye, fun hr => ?_⟩
      refine (h.ends_decrNumReaders hl hr).imp ?_ fun _ _ => False.elim
      rintro - t ⟨y, ht⟩
      exact ⟨_, _, ht⟩
  | false =>
      rw [if_neg (by simp), ends_bind, ends_getChnk]
      refine ⟨fun _ => hbye, fun c hc => ?_⟩
      rw [ends_bind, ends_byeIf]
      exact ⟨fun _ => hbye, fun _ => ⟨_, _, h.reread hc _⟩⟩

/-! ## the linear file -/

/-- **`vctr_get_lma_read`** hands out a mapping of all the elements. -/
theorem ends_vctrGetLmaRead (h : Synced s u v D) (hr : v.numReaders + 1 < 2 ^ 31) :
    Ends (vctrGetLmaRead u) s
      (fun y t => (∃ m, y = some m ∧ m.live = true ∧ (t.fs.data m.ino).take m.len = D) ∧
        ∃ r x, Synced t u (v.readBy r x) D)
      fun e t => e ≠ .ub ∧ v.isLma = false ∧ t = s := by
  simp only [vctrGetLmaRead, ends_bind, ends_get, h.held.found, ends_byeIf]
  refine ⟨fun hl => ⟨by simp, hl, trivial⟩, fun hl => ⟨fun hw => absurd h.writers hw, fun _ => ?_⟩⟩
  rw [Bool.not_eq_false] at hl
  have hline := h.line hl
  cases hx : v.x with
  | some m =>
      have hr0 : v.numReaders ≠ 0 := fun h0 => by
        rw [h.unmapped h0] at hx
        contradiction
      obtain ⟨m', hx', hlive, hlen, hdir⟩ := hline.mapped hr0
      obtain rfl := Option.some.inj (hx.symm.trans hx')
      rw [ends_bind]
      refine (h.ends_incrNumReaders hl hr hx hlive hlen hdir).imp ?_ fun _ _ => False.elim
      rintro - t ⟨rfl, ht⟩
      refine ⟨⟨m, rfl, hlive, ?_⟩, _, _, ht⟩
      rw [St.setVctr_fs, hline.data hdir, hlen, List.take_length]
  | none =>
      refine (h.ends_mapLma hl hr).imp ?_ fun _ _ => False.elim
      rintro _ t ⟨m, rfl, hlive, hlen, hdir, ht⟩
      refine ⟨⟨m, rfl, hlive, ?_⟩, _, _, ht⟩
      rw [(ht.line hl).data hdir, hlen, List.take_length]

/-- **`vctr_unget_lma_read`** -/
theorem ends_vctrUngetLmaRead (h : Synced s u v D) :
    Ends (vctrUngetLmaRead u) s (fun _ t => ∃ r x, Synced t u (v.readBy r x) D)
      fun e t => e ≠ .ub ∧ t = s := by
  simp only [vctrUngetLmaRead, ends_bind, ends_getVctr_of h.held.found, ends_byeIf]
  refine ⟨fun _ => by simp, fun hl => ⟨fun _ => by simp, fun _ => ⟨fun _ => by simp, fun hr =>
    ⟨fun _ => by simp, fun _ => ?_⟩⟩⟩⟩
  refine (h.ends_decrNumReaders (by simpa using hl) hr).imp ?_ fun _ _ => False.elim
  rintro - t ⟨y, ht⟩
  exact ⟨_, _, ht⟩

end Synced

end QStore.Vctr
