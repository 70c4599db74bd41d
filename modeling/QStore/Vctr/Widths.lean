import QStore.Vctr.Calls

/-!
# QStore.Vctr.Widths

The type of a vector says how wide its elements are, and its width and the number
of elements in a chunk say how large its chunks are.

`width`, `max_num_in_chnk` and `qtype` are written when the vector is made and
are not to change once there is an element. `Sound` says what holds where that
is so. What can break it is a width given to `vctr_add` that is not that of the
type, a chunk whose size does not fit 32 bits, a chunk of bits, the two texts
`qtype` and `max_num_in_chunk` of `vctr_get_set`, and a cast from a type of 4 or
8 bytes.
-/

namespace QStore.Vctr

open Function

/-- The width of a vector goes with its type, where the type has a width. -/
def VctrVal.WidthOk (v : VctrVal) : Prop :=
  v.qtype ≠ .B1 → v.qtype ≠ .SC → v.width = getWidthCQtype v.qtype

/-- Widths go with types, and sizes with widths. -/
structure Consistent (s : St) : Prop where
  width : ∀ u v, s.vctrs u = some v → v.WidthOk
  size : ∀ u i v c, s.vctrs u = some v → s.chnks (u, i) = some c → c.size = v.width * v.maxNumInChnk

/-- A vector that had an element has one, and is as wide, with as many elements in a
chunk. -/
def KeepsDims (s t : St) : Prop :=
  ∀ u v, s.vctrs u = some v → 0 < v.numElements →
    ∃ w, t.vctrs u = some w ∧ 0 < w.numElements ∧ w.width = v.width ∧
      w.maxNumInChnk = v.maxNumInChnk

/-- What holds as long as no call breaks it. -/
structure Sound (s : St) : Prop where
  width : ∀ u v, s.vctrs u = some v → v.WidthOk
  size : ∀ u i c, s.chnks (u, i) = some c →
    ∃ v, s.vctrs u = some v ∧ 0 < v.numElements ∧ c.size = v.width * v.maxNumInChnk
  fits : ∀ u v, s.vctrs u = some v → 0 < v.numElements → v.width * v.maxNumInChnk < 2 ^ 32
  first : ∀ u v, s.vctrs u = some v → v.numElements = 0 → v.maxChnkIdx = 0

/-- A chunk of the size that a vector gives it is of the right size, unless there is
no such chunk: `incr_mem_used` refuses it. -/
def VctrVal.SizeOk (v : VctrVal) : Prop :=
  v.width * v.maxNumInChnk < 2 ^ 32 ∨ v.chnkSize = 0 ∨ v.chnkSize > 1024 * 1048576

/-- Where a call leaves types, widths and sizes consistent. -/
def Call.KeepsWidths (s : St) : Call → Prop
  | .add a => a.qtype = .B1 ∨ a.qtype = .SC ∨ a.width = 0 ∨ a.width = getWidthCQtype a.qtype
  | .getSet u (some .qtype) (some .set) p => ∀ v, s.vctrs u = some v → v.isError = false →
      ∀ n q, p.i8 = some n → Qtype.ofNum n = some q →
        q = .B1 ∨ q = .SC ∨ v.width = getWidthCQtype q
  | .getSet u (some .maxNumInChunk) (some .set) p => ∀ v, s.vctrs u = some v → v.isError = false →
      v.numElements = 0 ∨ ∀ n, p.i8 = some n → n < 64 ∨ n / 64 * 64 ≠ n ∨ u32 n.toNat = v.maxNumInChnk
  | .cast u strQtype => ∀ v, s.vctrs u = some v → getWidthCQtype v.qtype ∈ [4, 8] →
      getWidthCQtype (getCQtype strQtype) = getWidthCQtype v.qtype
  | .put1 u _ | .putn u _ _ => ∀ v, s.vctrs u = some v → v.numElements = 0 → v.SizeOk
  | .putChunk u cmem _ => ∀ v, s.vctrs u = some v → v.qtype = .B1 ∨ u32 cmem.size = v.chnkSize →
      u32 cmem.size = v.width * v.maxNumInChnk
  | _ => True

variable {s t r : St} {u i : Nat} {v w : VctrVal} {c : ChnkVal}

theorem Sound.consistent (h : Sound s) : Consistent s where
  width := h.width
  size u i v c hv hc := by
    obtain ⟨w, hw, -, hsize⟩ := h.size u i c hc
    cases hv.symm.trans hw
    exact hsize

/-- `t` is sound, and has kept the dimensions of the vectors of `s`. -/
structure Along (s t : St) : Prop extends Sound t where
  dims : KeepsDims s t

theorem Sound.along (h : Sound s) : Along s s := ⟨h, fun _ v hv hn => ⟨v, hv, hn, rfl, rfl⟩⟩

/-! ## one write -/

/-- Only the vectors and the chunks are looked at. -/
theorem Along.congr (h : Along r s) (hv : t.vctrs = s.vctrs) (hc : t.chnks = s.chnks) :
    Along r t where
  width := by rw [hv]; exact h.width
  size := by rw [hv, hc]; exact h.size
  fits := by rw [hv]; exact h.fits
  first := by rw [hv]; exact h.first
  dims := by unfold KeepsDims; rw [hv]; exact h.dims

/-- A chunk is entered or written. -/
theorem Along.enter (h : Along r s) (hv : s.vctrs u = some v) (hn : 0 < v.numElements)
    (hsize : c.size = v.width * v.maxNumInChnk) : Along r (s.setChnk u i c) where
  width := h.width
  size u' i' c' hc' := by
    by_cases hk : (u', i') = (u, i)
    · obtain ⟨rfl, rfl⟩ := Prod.mk.inj hk
      rw [St.setChnk_self, Option.some.injEq] at hc'
      exact ⟨v, hv, hn, hc' ▸ hsize⟩
    · rw [St.setChnk_of_ne hk] at hc'
      exact h.size u' i' c' hc'
  fits := h.fits
  first := h.first
  dims := h.dims

/-- A chunk is written over with one of its size. -/
theorem Along.reChnk (h : Along r s) {c' : ChnkVal} (hc : s.chnks (u, i) = some c)
    (hsize : c'.size = c.size) : Along r (s.setChnk u i c') := by
  obtain ⟨v, hv, hn, hs⟩ := h.size u i c hc
  exact h.enter hv hn (hsize.trans hs)

theorem Along.remove (h : Along r s) : Along r (s.delChnk u i) where
  width := h.width
  size u' i' c' hc' := by
    by_cases hk : (u', i') = (u, i)
    · obtain ⟨rfl, rfl⟩ := Prod.mk.inj hk
      rw [St.delChnk_self] at hc'
      cases hc'
    · rw [St.delChnk_of_ne hk] at hc'
      exact h.size u' i' c' hc'
  fits := h.fits
  first := h.first
  dims := h.dims

/-- How the entry of a vector may be written over: the dimensions change only while
there is no element. -/
structure Revises (v w : VctrVal) : Prop where
  widthOk : w.WidthOk
  num : 0 < v.numElements → 0 < w.numElements ∧ w.width = v.width ∧
    w.maxNumInChnk = v.maxNumInChnk
  fits : 0 < w.numElements → w.width * w.maxNumInChnk < 2 ^ 32
  first : w.numElements = 0 → w.maxChnkIdx = 0

/-- The entry of a vector is written over. -/
theorem Along.write (h : Along r s) (hv : s.vctrs u = some v) (hw : Revises v w) :
    Along r (s.setVctr u w) where
  width u' v' hv' := by
    by_cases hu : u' = u
    · rw [hu, St.setVctr_self, Option.some.injEq] at hv'
      exact hv' ▸ hw.widthOk
    · rw [St.setVctr_of_ne hu] at hv'
      exact h.width u' v' hv'
  size u' i c hc := by
    obtain ⟨v', hv', hn, hs⟩ := h.size u' i c hc
    by_cases hu : u' = u
    · rw [hu] at hv' ⊢
      cases hv.symm.trans hv'
      obtain ⟨h1, h2, h3⟩ := hw.num hn
      exact ⟨w, St.setVctr_self, h1, by rw [h2, h3]; exact hs⟩
    · exact ⟨v', by rw [St.setVctr_of_ne hu]; exact hv', hn, hs⟩
  fits u' v' hv' := by
    by_cases hu : u' = u
    · rw [hu, St.setVctr_self, Option.some.injEq] at hv'
      exact hv' ▸ hw.fits
    · rw [St.setVctr_of_ne hu] at hv'
      exact h.fits u' v' hv'
  first u' v' hv' := by
    by_cases hu : u' = u
    · rw [hu, St.setVctr_self, Option.some.injEq] at hv'
      exact hv' ▸ hw.first
    · rw [St.setVctr_of_ne hu] at hv'
      exact h.first u' v' hv'
  dims u' v' hv' hn' := by
    obtain ⟨x, hx, hxn, hxw, hxm⟩ := h.dims u' v' hv' hn'
    by_cases hu : u' = u
    · rw [hu] at hx ⊢
      cases hv.symm.trans hx
      obtain ⟨h1, h2, h3⟩ := hw.num hxn
      exact ⟨w, St.setVctr_self, h1, h2.trans hxw, h3.trans hxm⟩
    · exact ⟨x, by rw [St.setVctr_of_ne hu]; exact hx, hxn, hxw, hxm⟩

/-- A write that leaves the dimensions alone and does not take the elements away. -/
theorem Along.revises (h : Along r s) (hv : s.vctrs u = some v) (hq : w.qtype = v.qtype)
    (hwid : w.width = v.width) (hmax : w.maxNumInChnk = v.maxNumInChnk)
    (hnum : w.numElements = v.numElements) (hidx : w.maxChnkIdx = v.maxChnkIdx) : Revises v w where
  widthOk := by
    unfold VctrVal.WidthOk
    rw [hq, hwid]
    exact h.width u v hv
  num hn := ⟨hnum ▸ hn, hwid, hmax⟩
  fits := by
    rw [hnum, hwid, hmax]
    exact h.fits u v hv
  first := by
    rw [hnum, hidx]
    exact h.first u v hv

/-! ## the memo window -/

theorem Along.ends_chnkDel (h : Along r s) (p : Bool) :
    Ends (chnkDel u i p) s (fun _ t => Along r t) fun _ t => Along r t := by
  have hfree : Ends (chnkFreeResources u i p) s (fun _ t => Along r t) fun _ t => Along r t := by
    simp only [chnkFreeResources, ends_bind, ends_getChnk, ends_byeIf, h, implies_true, true_and]
    intro c hc _ _
    have hmem : Ends (onlyIf (c.l1Mem ≠ none) do
        decrMemUsed c.size
        setChnk u i { c with l1Mem := none }) s (fun _ t => Along r t) fun _ t => Along r t := by
      simp only [ends_onlyIf, ends_bind, ends_setChnk, h, implies_true, and_true]
      intro _
      exact ends_decrMemUsed (fun _ => h) fun n => (h.congr (t := s.setMem n) rfl rfl).reChnk hc rfl
    refine hmem.imp (fun _ t ht => ?_) fun _ _ => id
    simp only [ends_onlyIf, ends_bind, ends_l2Name, ends_unlinkFile, ht, implies_true, true_and,
      and_true]
    intro _ f _ bs _
    have hun : Along r (t.setFs (t.fs.unlink f)) := ht.congr rfl rfl
    refine ends_decrDskUsed (fun _ => hun) fun n => ?_
    have hdsk : Along r ((t.setFs (t.fs.unlink f)).setDsk n) := hun.congr rfl rfl
    rw [ends_modChnk]
    exact ⟨fun _ => hdsk, fun c' hc' => hdsk.reChnk hc' rfl⟩
  simp only [chnkDel, ends_bind, ends_get]
  split
  · exact h
  split
  · exact h
  rw [ends_bind]
  exact hfree.imp (fun _ _ ht => ht.remove) fun _ _ => id

theorem Along.ends_memoLoop (p : Bool) :
    ∀ (n i : Nat) (k : Int) (s : St), Along r s →
      Ends (memoLoop u p i n k) s (fun _ t => Along r t ∧ t.vctrs = s.vctrs) fun _ t => Along r t
  | 0, _, _, _, h => ⟨h, rfl⟩
  | n + 1, i, k, s, h => by
    have hdel : Ends (statusOf (chnkDel u i p)) s
        (fun _ t => Along r t ∧ t.vctrs = s.vctrs) fun _ t => Along r t := by
      rw [ends_statusOf]
      refine ((h.ends_chnkDel p).and (keeps_chnkDel s)).imp (fun _ _ => id) fun e t ht => ?_
      cases e with
      | bye k => exact ht
      | ub => exact ht.1
    refine Ends.bind hdel fun st t ht => ?_
    refine (Along.ends_memoLoop p n (i + 1) st t ht.1).imp ?_ fun _ _ => id
    rintro _ t' ⟨h1, h2⟩
    exact ⟨h1, h2.trans ht.2⟩

theorem Along.ends_vctrMemo (h : Along r s) :
    Ends (vctrMemo u) s (fun _ t => Along r t) fun _ t => Along r t := by
  simp only [vctrMemo, ends_bind, ends_getVctr, ends_ite, ends_pure, h, implies_true, true_and,
    and_true]
  intro v hv _ _ _
  refine (Along.ends_memoLoop v.isPersist _ _ _ s h).imp ?_ fun _ _ => id
  rintro st t ⟨ht, htv⟩
  have hv' : t.vctrs u = some v := by rw [htv, hv]
  rw [ends_modVctr_of hv']
  have hmin := ht.write hv' (ht.revises (w := { v with
    minChnkIdx := u32 (v.maxChnkIdx + 1 + 2 ^ 32 - v.memoLen) }) hv' rfl rfl rfl rfl rfl)
  exact ⟨fun _ => hmin, fun _ => hmin⟩

/-! ## appending -/

/-- The size that a vector with elements gives its chunks is the right one. -/
theorem Along.chnkSize_eq (h : Along r s) (hv : s.vctrs u = some v) (hn : 0 < v.numElements) :
    v.chnkSize = v.width * v.maxNumInChnk :=
  u32_eq (h.fits u v hv hn)

/-- `chnk_to_put` for a vector with elements. The chunk it leads to is of the vector. -/
theorem Along.ends_chnkToPut (h : Along r s) (hv : s.vctrs u = some v) (hn : 0 < v.numElements) :
    Ends (chnkToPut u v) s (fun _ t => Along r t ∧ ∃ w, t.vctrs u = some w ∧
      w.static = v.static ∧ w.numElements = v.numElements) fun _ t => Along r t := by
  simp only [chnkToPut, ends_bind, ends_getChnk, ends_byeIf, ends_ite, ends_pure, ends_memalign,
    ends_setChnk, h, implies_true, true_and]
  intro c hc _
  refine ⟨fun _ => ends_ignore_incrMem fun n b => ?_, fun _ => ⟨v, hv, rfl, rfl⟩⟩
  have hnew : ∀ (k : Nat) (b' : Buf),
      Along r (((s.bump.setMem n).setRefused b).setChnk u k (freshChnk v v.chnkSize b')) := by
    intro k b'
    have hs : Along r ((s.bump.setMem n).setRefused b) := h.congr rfl rfl
    exact hs.enter hv hn (h.chnkSize_eq hv hn)
  refine (ends_modVctr_of (v := v) ?_).mpr ?_
  · exact hv
  refine ⟨(hnew _ _).write hv ⟨h.width u v hv, fun hn => ⟨hn, rfl, rfl⟩, h.fits u v hv,
    fun h0 => absurd h0 (Nat.ne_of_gt hn)⟩, _, St.setVctr_self, ?_, rfl⟩
  simp only [VctrVal.static]

/-- Elements can be put into chunk `i`: once the vector and the chunk say so, all is
sound. The first ones are at least one. -/
structure Ready (r t : St) (u i m : Nat) : Prop where
  found : ∃ w, t.vctrs u = some w ∧ w.maxNumInChnk = m
  miss : t.chnks (u, i) = none → Along r t
  fill : ∀ w c c' k, t.vctrs u = some w → t.chnks (u, i) = some c → c'.size = c.size →
    (w.numElements = 0 → 0 < k) →
      Along r ((t.setVctr u { w with numElements := w.numElements + k }).setChnk u i c')
  room : ∀ w c, t.vctrs u = some w → w.numElements = 0 → t.chnks (u, i) = some c →
    c.numElements = 0 ∧ 0 < w.maxNumInChnk ∧ w.maxNumInChnk < 2 ^ 32

theorem Along.ready (h : Along r s) (hv : s.vctrs u = some v) (hn : 0 < v.numElements) :
    Ready r s u i v.maxNumInChnk where
  found := ⟨v, hv, rfl⟩
  miss := fun _ => h
  fill := by
    intro w c c' k hw hc hsize _
    cases hv.symm.trans hw
    have hrev : Revises v { v with numElements := v.numElements + k } :=
      ⟨h.width u v hv, fun _ => ⟨Nat.add_pos_left hn k, rfl, rfl⟩, fun _ => h.fits u v hv hn,
        fun h0 => by simp only at h0; omega⟩
    exact (h.write hv hrev).reChnk hc hsize
  room := by
    intro w c hw h0
    cases hv.symm.trans hw
    omega

/-- The first chunk of a vector without elements. -/
theorem Along.ready_first (h : Along r s) (hv : s.vctrs u = some v) (h0 : v.numElements = 0)
    (hpos : 0 < v.chnkSize) (hfit : v.width * v.maxNumInChnk < 2 ^ 32) (htv : t.vctrs = s.vctrs)
    {b : Buf} (htc : t.chnks = update s.chnks (u, 0) (some (freshChnk v v.chnkSize b))) :
    Ready r t u 0 v.maxNumInChnk where
  found := ⟨v, htv ▸ hv, rfl⟩
  miss := by simp [htc]
  fill := by
    intro w c c' k hw hc hsize hk
    rw [htv] at hw
    cases hv.symm.trans hw
    rw [htc, update_self, Option.some.injEq] at hc
    have hrev : Revises v { v with numElements := v.numElements + k } :=
      ⟨h.width u v hv, fun hn => by omega, fun _ => hfit, fun hz => by
        have := hk h0
        simp only at hz
        omega⟩
    have hsize' : c'.size = v.width * v.maxNumInChnk := by
      rw [hsize, ← hc]
      exact u32_eq hfit
    refine ((h.write hv hrev).enter (c := c') (i := 0) St.setVctr_self ?_ hsize').congr ?_ ?_
    · exact Nat.add_pos_right _ (hk h0)
    · simp only [St.setChnk, St.setVctr, htv]
    · simp only [St.setChnk, St.setVctr, htc, update_idem]
  room := by
    intro w c hw _ hc
    rw [htv] at hw
    cases hv.symm.trans hw
    rw [htc, update_self, Option.some.injEq] at hc
    rw [VctrVal.chnkSize, u32_eq hfit] at hpos
    have hmax := Nat.pos_of_mul_pos_left hpos
    have hwid := Nat.pos_of_mul_pos_right hpos
    exact ⟨hc ▸ rfl, hmax, lt_of_le_of_lt (Nat.le_mul_of_pos_left _ hwid) hfit⟩

/-- `chnk_first` and the search for a chunk with room. -/
theorem Along.ends_chnkFirst (h : Along r s) (hv : s.vctrs u = some v)
    (hok : v.numElements = 0 → v.SizeOk) :
    Ends (chnkFirst u) s
      (fun _ t => t.vctrs u = some v ∧
        Ends (chnkToPut u v) t (fun i t' => Ready r t' u i v.maxNumInChnk)
          fun _ t' => Along r t')
      fun _ t => Along r t := by
  simp only [chnkFirst, ends_bind, ends_getVctr_of hv]
  by_cases h0 : v.numElements = 0
  · rw [if_neg (not_not.mpr h0)]
    simp only [ends_bind, ends_memalign, ends_setChnk]
    refine ends_incrMem_of_size (fun _ _ => h.congr rfl rfl) fun hpos hle n b => ⟨hv, ?_⟩
    have hfit : v.width * v.maxNumInChnk < 2 ^ 32 := by
      rcases hok h0 with hf | hf | hf
      · exact hf
      · omega
      · omega
    have hready := h.ready_first hv h0 hpos hfit
      (t := ((s.bump.setMem n).setRefused b).setChnk u 0 (freshChnk v v.chnkSize
        ⟨s.brk, List.replicate v.chnkSize s.junk⟩)) rfl rfl
    obtain ⟨-, hmax, -⟩ := hready.room v _ hv h0 St.setChnk_self
    rw [chnkToPut, h.first u v hv h0, ends_bind, ends_getChnk_of St.setChnk_self, ends_bind,
      ends_byeIf_neg (by simp [freshChnk]), if_neg (by simpa [freshChnk] using Nat.ne_of_lt hmax),
      ends_pure]
    exact hready
  · rw [if_pos h0]
    refine ⟨hv, (h.ends_chnkToPut hv (Nat.pos_of_ne_zero h0)).imp ?_ fun _ _ => id⟩
    rintro i t ⟨ht, w, hw, hst, hnum⟩
    rw [← static_maxNumInChnk hst]
    exact ht.ready hw (by omega)

/-- The element counts and the chunk are written. -/
theorem Ready.ends_fill {m : Nat} (h : Ready r t u i m) (hc : t.chnks (u, i) = some c)
    {c' : ChnkVal} {k : Nat} (hsize : c'.size = c.size)
    (hk : c.numElements = 0 → 0 < m → m < 2 ^ 32 → 0 < k)
    {Q : Unit → St → Prop} {E : Err → St → Prop}
    (hQ : ∀ t' w, Along r t' → t'.vctrs u = some w → 0 < w.numElements → Q () t') :
    Ends (modVctr u fun v => { v with numElements := v.numElements + k }) t
      (fun _ t' => Ends (setChnk u i c') t' Q E) E := by
  obtain ⟨w, hw, rfl⟩ := h.found
  have hpos : w.numElements = 0 → 0 < k := by
    intro h0
    obtain ⟨h1, h2, h3⟩ := h.room w c hw h0 hc
    exact hk h1 h2 h3
  rw [ends_modVctr_of hw, ends_setChnk]
  refine hQ _ _ (h.fill w c c' k hw hc hsize hpos) St.setVctr_self ?_
  simp only
  omega

/-- `vctr_put1` -/
theorem Along.ends_vctrPut1 (h : Along r s) (sclr : List UInt8)
    (hok : (Call.put1 u sclr).KeepsWidths s) :
    Ends (vctrPut1 u sclr) s (fun _ t => Along r t) fun e t => e ≠ .ub → Along r t := by
  simp only [vctrPut1, ends_bind, ends_byeIf, ends_getVctr, h, implies_true, true_and]
  intro _ v hv _
  refine (h.ends_chnkFirst hv (hok v hv)).imp ?_ fun _ _ ht _ => ht
  rintro - t ⟨htv, hput⟩
  refine ⟨fun hn => absurd (hn.symm.trans htv) (by simp), fun w hw => ?_⟩
  cases htv.symm.trans hw
  refine hput.imp (fun i t' ht' => ?_) fun _ _ ht _ => ht
  rw [ends_getChnk]
  refine ⟨fun hn _ => ht'.miss hn, fun c hc => ?_⟩
  cases hb : c.l1Mem with
  | none => simp
  | some b =>
      have hsclr : Ends (sclrBytes v sclr) t' (fun _ t'' => t'' = t') fun e _ => e = .ub := by
        simp [sclrBytes, ends_ite]
      simp only [ends_bind, ends_poke]
      refine ⟨fun _ => hsclr.imp ?_ fun e _ he hub => absurd he hub, fun _ hub => absurd rfl hub⟩
      rintro x _ rfl
      refine ⟨fun _ => ?_, fun _ hub => absurd rfl hub⟩
      refine ht'.ends_fill hc ?_ (fun _ _ _ => Nat.one_pos) fun t'' _ ht'' _ _ => ?_
      · rfl
      exact ht''.ends_vctrMemo.imp (fun _ _ => id) fun _ _ ht _ => ht

/-- A round of `vctr_putn`. -/
theorem Along.ends_putnRound (h : Along r s) (X : List UInt8) {n : Nat}
    (hok : (Call.putn u X n).KeepsWidths s) :
    Ends (putnRound u X n) s (fun _ t => Along r t ∧ ∃ w, t.vctrs u = some w ∧ 0 < w.numElements)
      fun e t => e ≠ .ub → Along r t := by
  simp only [putnRound, ends_bind, ends_byeIf, ends_getVctr, h, implies_true, true_and]
  intro _ hn v hv _
  refine (h.ends_chnkFirst hv (hok v hv)).imp ?_ fun _ _ ht _ => ht
  rintro - t ⟨htv, hput⟩
  refine hput.imp (fun i t' ht' => ?_) fun _ _ ht _ => ht
  rw [ends_getChnk]
  refine ⟨fun hn _ => ht'.miss hn, fun c hc => ?_⟩
  cases hb : c.l1Mem with
  | none => simp
  | some b =>
      simp only [ends_bind, ends_takeN, ends_poke, ends_pure]
      refine ⟨fun _ => ⟨fun _ => ?_, fun _ hub => absurd rfl hub⟩, fun _ hub => absurd rfl hub⟩
      refine ht'.ends_fill hc ?_ ?_ fun t'' w ht'' hw hw0 => ?_
      · rfl
      · intro h0 hpos hlt
        -- an empty chunk has room for some of them
        have hspace : u32 (v.maxNumInChnk + 2 ^ 32 - c.numElements) = v.maxNumInChnk := by
          unfold u32
          omega
        rw [hspace]
        split <;> omega
      · exact ⟨ht'', w, hw, hw0⟩

theorem Along.ends_vctrPutnLoop :
    ∀ (depth n : Nat) (X : List UInt8) (s : St), Along r s → (Call.putn u X n).KeepsWidths s →
      Ends (vctrPutnLoop depth u X n) s (fun _ t => Along r t) fun e t => e ≠ .ub → Along r t
  | 0, _, _, _, _, _ => by simp [vctrPutnLoop]
  | depth + 1, n, X, s, h, hok => by
    rw [vctrPutnLoop]
    refine Ends.bind (h.ends_putnRound X hok) fun k t ht => ?_
    obtain ⟨ht, w, hw, hw0⟩ := ht
    refine Ends.bind (Q := fun _ t => Along r t) ?_ fun _ t ht =>
      ht.ends_vctrMemo.imp (fun _ _ => id) fun _ _ ht _ => ht
    rw [ends_onlyIf]
    refine ⟨fun _ => Along.ends_vctrPutnLoop depth _ _ t ht fun v hv h0 => ?_, fun _ => ht⟩
    cases hw.symm.trans hv
    omega

/-- The memory of a chunk leaves the tables alone. -/
theorem Along.ends_takeOver (h : Along r s) (cmem : Cmem) (size nbytes : Nat) :
    Ends (takeOver cmem size nbytes) s (fun _ t => Along r t ∧ t.vctrs = s.vctrs)
      fun e t => e ≠ .ub → Along r t := by
  simp only [takeOver, ends_ite, ends_bind, ends_byeIf, ends_pure, ends_memalign, h, implies_true,
    and_true, true_and]
  intro _
  refine ends_incrMem (fun _ _ _ => h.congr rfl rfl) fun n b => ?_
  cases cmem.data with
  | none => simp
  | some d =>
      simp only [ends_bind, ends_takeN, ends_poke, ends_pure]
      exact ⟨fun _ => ⟨fun _ => ⟨h.congr rfl rfl, rfl⟩, fun _ hub => absurd rfl hub⟩,
        fun _ hub => absurd rfl hub⟩

/-- `vctr_put_chunk` up to the memory: the size is that of a chunk of the vector. -/
theorem Along.ends_putChunkTake (h : Along r s) (cmem : Cmem) (n : Nat)
    (hok : (Call.putChunk u cmem n).KeepsWidths s) :
    Ends (putChunkTake u cmem n) s (fun x t => Along r t ∧ 0 < n ∧ ∃ w, t.vctrs u = some w ∧
      x.size = w.width * w.maxNumInChnk ∧ x.size < 2 ^ 32) fun e t => e ≠ .ub → Along r t := by
  simp only [putChunkTake, ends_bind, ends_byeIf, ends_getVctr, ends_pure, h, implies_true, true_and]
  intro _ hn v hv _ _ _ hsize _
  have hmemo : Ends (onlyIf (n < v.maxNumInChnk) (vctrMemo u)) s
      (fun _ t => Along r t ∧ t.statics = s.statics) fun e t => e ≠ .ub → Along r t := by
    rw [ends_onlyIf]
    exact ⟨fun _ => (h.ends_vctrMemo.and (keepsStatics_vctrMemo s)).imp (fun _ _ => id)
      fun _ _ ht _ => ht.1, fun _ => ⟨h, rfl⟩⟩
  refine hmemo.imp ?_ fun _ _ => id
  rintro - t ⟨ht, hst⟩
  refine ⟨fun _ _ => ht, fun w hw => (ht.ends_takeOver _ _ _).imp ?_ fun _ _ => id⟩
  rintro x t' ⟨ht', htv'⟩
  have hvw : w.static = v.static := by
    have := congrFun hst u
    rw [St.statics, St.statics, hw, hv, Option.map_some, Option.map_some, Option.some.injEq] at this
    exact this
  have hsz : u32 cmem.size = w.width * w.maxNumInChnk := by
    rw [static_width hvw, static_maxNumInChnk hvw]
    refine hok v hv ?_
    by_contra hno
    rw [not_or] at hno
    exact hsize hno
  exact ⟨ht', Nat.pos_of_ne_zero hn, w, by rw [htv', hw], hsz, Nat.mod_lt _ (by decide)⟩

/-- `vctr_put_chunk` -/
theorem Along.ends_vctrPutChunk (h : Along r s) (cmem : Cmem) (n : Nat)
    (hok : (Call.putChunk u cmem n).KeepsWidths s) :
    Ends (vctrPutChunk u cmem n) s (fun _ t => Along r t) fun e t => e ≠ .ub → Along r t := by
  rw [vctrPutChunk]
  refine Ends.bind (h.ends_putChunkTake cmem n hok) fun x t ht => ?_
  obtain ⟨ht, hn, w, hw, hsize, hlt⟩ := ht
  simp only [putChunkEnter, ends_bind, ends_setChnk, ends_pure]
  refine (ends_modVctr_of (v := w) ?_).mpr ?_
  · exact hw
  have hrev : Revises w { w with numElements := w.numElements + n, maxChnkIdx := x.idx } :=
    ⟨ht.width u w hw, fun hp => ⟨Nat.add_pos_left hp n, rfl, rfl⟩, fun _ => hsize ▸ hlt,
      fun hz => by simp only at hz; omega⟩
  have hnew : Along r ((t.setChnk u x.idx (putChnk x.vctr x.size x.l1Mem n)).setVctr u
      { w with numElements := w.numElements + n, maxChnkIdx := x.idx }) :=
    ((ht.write hw hrev).enter St.setVctr_self (Nat.add_pos_right _ hn) hsize).congr rfl rfl
  refine hnew.ends_vctrMemo.imp (fun _ t' ht' => ?_) fun _ _ ht _ => ht
  rw [ends_modVctr]
  exact ⟨fun _ _ => ht', fun v hv => ht'.write hv (ht'.revises hv rfl rfl rfl rfl rfl)⟩

/-! ## making a vector and setting what it is -/

/-- A vector without elements is entered. -/
theorem Along.make (h : Along r s) (hv : s.vctrs u = none) (hw : w.WidthOk)
    (h0 : w.numElements = 0) (hi : w.maxChnkIdx = 0) : Along r (s.setVctr u w) where
  width u' v' hv' := by
    by_cases hu : u' = u
    · rw [hu, St.setVctr_self, Option.some.injEq] at hv'
      exact hv' ▸ hw
    · rw [St.setVctr_of_ne hu] at hv'
      exact h.width u' v' hv'
  size u' i c hc := by
    obtain ⟨v', hv', hn, hs⟩ := h.size u' i c hc
    have hu : u' ≠ u := by
      rintro rfl
      rw [hv] at hv'
      cases hv'
    exact ⟨v', by rw [St.setVctr_of_ne hu]; exact hv', hn, hs⟩
  fits u' v' hv' hn := by
    by_cases hu : u' = u
    · rw [hu, St.setVctr_self, Option.some.injEq] at hv'
      rw [← hv', h0] at hn
      exact absurd hn (Nat.lt_irrefl 0)
    · rw [St.setVctr_of_ne hu] at hv'
      exact h.fits u' v' hv' hn
  first u' v' hv' h0' := by
    by_cases hu : u' = u
    · rw [hu, St.setVctr_self, Option.some.injEq] at hv'
      rw [← hv', hi]
    · rw [St.setVctr_of_ne hu] at hv'
      exact h.first u' v' hv' h0'
  dims u' v' hv' hn' := by
    obtain ⟨x, hx, hrest⟩ := h.dims u' v' hv' hn'
    have hu : u' ≠ u := by
      rintro rfl
      rw [hv] at hx
      cases hx
    exact ⟨x, by rw [St.setVctr_of_ne hu]; exact hx, hrest⟩

theorem Along.ends_vctrAdd (h : Along r s) (a : AddArgs) (hok : (Call.add a).KeepsWidths s) :
    Ends (vctrAdd a) s (fun _ t => Along r t) fun _ t => Along r t := by
  have hwid : a.entry.WidthOk := by
    intro hb1 hsc
    rcases hok with hq | hq | hq | hq
    · exact absurd hq hb1
    · exact absurd hq hsc
    · simp [AddArgs.entry, AddArgs.widthOf, hq]
    · simp only [AddArgs.entry, AddArgs.widthOf]
      split
      · rfl
      · exact hq
  have huqid : ∀ n, Along r (s.setUqid n) := fun n => h.congr rfl rfl
  exact QStore.Vctr.ends_vctrAdd a (fun _ hfree => (huqid _).make hfree hwid rfl rfl) h (huqid _)

/-- `vctr_cast`, where it succeeds, is from a type to one of its width. -/
theorem castable_width {q q' : Qtype} (h : castable q q' = true)
    (hw : getWidthCQtype q ∈ [4, 8] → getWidthCQtype q' = getWidthCQtype q) :
    getWidthCQtype q' = getWidthCQtype q ∧ 0 < getWidthCQtype q := by
  cases q <;> simp [castable, getWidthCQtype] at h hw ⊢ <;> first | exact hw | skip
  all_goals rcases h with rfl | rfl | rfl <;> rfl

theorem Along.ends_vctrCast (h : Along r s) (strQtype : String)
    (hok : (Call.cast u strQtype).KeepsWidths s) :
    Ends (vctrCast u strQtype) s (fun _ t => Along r t) fun _ t => Along r t := by
  simp only [vctrCast, ends_bind, ends_getVctr, ends_byeIf, ends_setVctr, h, implies_true, true_and]
  intro v hv hcast _ _ _
  obtain ⟨hwid, hpos⟩ := castable_width (by simpa using hcast) (hok v hv)
  refine h.write hv ⟨fun _ _ => ?_, fun hn => ⟨hn, rfl, rfl⟩, h.fits u v hv, h.first u v hv⟩
  have hold := h.width u v hv (by rintro he; simp [he, getWidthCQtype] at hpos)
    (by rintro he; simp [he, getWidthCQtype] at hpos)
  exact hold.trans hwid.symm

/-- `vctr_get_set` in its `set` branches. -/
theorem Along.ends_setMeta (h : Along r s) (hv : s.vctrs u = some v) (herr : v.isError = false)
    (p : Ptrs) (what : Meta) (hok : (Call.getSet u (some what) (some .set) p).KeepsWidths s) :
    Ends (setMeta u v p what) s (fun _ t => Along r t) fun _ t => Along r t := by
  have hsame : ∀ w : VctrVal, w.qtype = v.qtype → w.width = v.width →
      w.maxNumInChnk = v.maxNumInChnk → w.numElements = v.numElements →
      w.maxChnkIdx = v.maxChnkIdx → Along r (s.setVctr u w) :=
    fun w h1 h2 h3 h4 h5 => h.write hv (h.revises hv h1 h2 h3 h4 h5)
  cases what with
  | eov | error => exact hsame _ rfl rfl rfl rfl rfl
  | persist => cases hb : p.bl <;> simp [setMeta, hb, deref, h, hsame]
  | maxNumInChunk =>
      cases hi : p.i8 with
      | none => simpa [setMeta, hi, deref] using h
      | some n =>
          simp only [setMeta, hi, deref, ends_bind, ends_pure, ends_byeIf, ends_setVctr, h,
            implies_true, true_and]
          intro hlo hmul
          rcases hok v hv herr with h0 | hsm
          · exact h.write hv ⟨h.width u v hv, fun hn => by omega, fun hn => by simp only at hn; omega,
              fun _ => h.first u v hv h0⟩
          · have hsm' : u32 n.toNat = v.maxNumInChnk := by
              rcases hsm n hi with hc | hc | hc
              · exact absurd hc hlo
              · exact absurd hc hmul
              · exact hc
            exact hsame _ rfl rfl hsm' rfl rfl
  | qtype =>
      cases hi : p.i8 with
      | none => simpa [setMeta, hi, deref] using h
      | some n =>
          cases hq : Qtype.ofNum n with
          | none => simpa [setMeta, hi, hq, deref] using h
          | some q =>
              simp only [setMeta, hi, hq, deref, ends_bind, ends_pure, ends_setVctr]
              refine h.write hv ⟨fun h1 h2 => ?_, fun hn => ⟨hn, rfl, rfl⟩, h.fits u v hv,
                h.first u v hv⟩
              rcases hok v hv herr n q hi hq with hc | hc | hc
              · exact absurd hc h1
              · exact absurd hc h2
              · exact hc
  | name => cases hi : p.inStr <;> simp [setMeta, hi, h, hsame]
  | earlyFreeable =>
      cases hi : p.i8 <;> simp [setMeta, hi, deref, setVctr_twice, h, hsame]
  | maxChnkIdx | minChnkIdx | width | lma | hasParent | nnKey | hasNn | isNn =>
      simpa [setMeta] using h

theorem Along.ends_vctrGetSet (h : Along r s) (what : Option Meta) (mode : Option Mode) (p : Ptrs)
    (hok : (Call.getSet u what mode p).KeepsWidths s) :
    Ends (vctrGetSet u what mode p) s (fun _ t => Along r t) fun _ t => Along r t := by
  cases mode with
  | none => exact h
  | some mode =>
  simp only [vctrGetSet, ends_bind, ends_getVctr, ends_byeIf, h, implies_true, true_and]
  intro v hv herr
  cases what with
  | none => exact h
  | some what =>
  cases mode with
  | get =>
      refine (keeps_getMeta s).imp (fun _ t ht => ?_) fun _ t ht => ?_
      all_goals
        cases (ht : t = s)
        exact h
  | set =>
      rw [ends_bind]
      exact h.ends_setMeta hv (by simpa using herr) p what hok

/-- The setters that write something else. -/
theorem Along.ends_vctrSetMemo (h : Along r s) (memoLen : Int) :
    Ends (vctrSetMemo u memoLen) s (fun _ t => Along r t) fun _ t => Along r t := by
  simp only [vctrSetMemo, ends_bind, ends_getVctr, ends_byeIf, ends_onlyIf, ends_setVctr, h,
    implies_true, true_and, and_true]
  intro v hv _ _ _ _
  exact h.write hv (h.revises hv rfl rfl rfl rfl rfl)

theorem Along.ends_vctrSetNumKillIgnore (h : Along r s) (n : Int) :
    Ends (vctrSetNumKillIgnore u n) s (fun _ t => Along r t) fun _ t => Along r t := by
  simp only [vctrSetNumKillIgnore, ends_bind, ends_getVctr, ends_byeIf, ends_setVctr, h,
    implies_true, true_and]
  intro _ _ v hv _ _ _ _
  exact h.write hv (h.revises hv rfl rfl rfl rfl rfl)

theorem Along.ends_vctrPersist (h : Along r s) (bval : Bool) :
    Ends (vctrPersist u bval) s (fun _ t => Along r t) fun _ t => Along r t := by
  simp only [vctrPersist, ends_bind, ends_getVctr, ends_byeIf, ends_setVctr, h, implies_true,
    true_and]
  intro v hv _ _ _ _
  exact h.write hv (h.revises hv rfl rfl rfl rfl rfl)

end QStore.Vctr
