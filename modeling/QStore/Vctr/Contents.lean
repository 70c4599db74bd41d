import QStore.Vctr.Put
import QStore.Vctr.Read

/-!
# QStore.Vctr.Contents

When the chunks of a vector hold the bytes appended to it.

`Held` says it of the whole vector: the chunks of the window, and no others, are
in the table, and each holds its page of the bytes in every tier a read can
reach. The functions of `QStore.Vctr.Chnk` keep it one chunk at a time, and
`vctr_get1` finds the element that was appended.
-/

namespace QStore.Vctr

open Function

/-- Chunk `c` holds `want`: in memory if it is there, and in its file if that is
what is left, or in any case when `sync` is asked for. A linear file (`lma`) may
stand in for both. -/
structure ChnkOk (fs : Fs FileName) (sync : Prop) (lma : Bool) (u i w size : Nat)
    (want : List UInt8) (c : ChnkVal) : Prop where
  count : want.length = w * c.numElements
  size_eq : c.size = size
  fits : want.length ≤ size
  writers : c.numWriters = 0
  l1 : ∀ b, c.l1Mem = some b → size ≤ b.bytes.length ∧ want <+: b.bytes
  l2 : c.l2Exists = true → ∃ f bs, l2FileName u i = some f ∧ fs.read f = some bs ∧
    bs.length = size ∧ (sync ∨ c.l1Mem = none → want <+: bs)
  kept : c.l1Mem = none → c.l2Exists = false → lma = true

/-- How the fields of a vector and the bytes appended to it fit together. -/
structure Shape (v : VctrVal) (D : List UInt8) : Prop where
  width_pos : 0 < v.width
  max_pos : 0 < v.maxNumInChnk
  size_lt : v.width * v.maxNumInChnk < 2 ^ 32
  len : D.length = v.width * v.numElements
  min_le : v.minChnkIdx ≤ v.maxChnkIdx
  lo : v.maxChnkIdx * v.maxNumInChnk ≤ v.numElements
  hi : v.numElements ≤ (v.maxChnkIdx + 1) * v.maxNumInChnk
  idx_lt : v.maxChnkIdx < lmaIdx

/-- The page of `D` that belongs in chunk `i`. -/
abbrev VctrVal.page (v : VctrVal) (D : List UInt8) (i : Nat) : List UInt8 :=
  QStore.page (v.width * v.maxNumInChnk) D i

/-- The chunks `minChnkIdx..maxChnkIdx`, and no others, are there and hold `D`. -/
structure Held (sync : Prop) (s : St) (u : Nat) (v : VctrVal) (D : List UInt8) : Prop where
  found : s.vctrs u = some v
  shape : Shape v D
  inside : ∀ i, v.minChnkIdx ≤ i → i ≤ v.maxChnkIdx → ∃ c, s.chnks (u, i) = some c ∧
    ChnkOk s.fs sync v.isLma u i v.width (v.width * v.maxNumInChnk) (v.page D i) c
  outside : ∀ i, ¬ (v.minChnkIdx ≤ i ∧ i ≤ v.maxChnkIdx) → s.chnks (u, i) = none

/-- `t` is `s` but for chunk `(u, i)`, which is `c`. -/
structure SetsChnk (s t : St) (u i : Nat) (c : ChnkVal) : Prop where
  vctrs : t.vctrs = s.vctrs
  fs : t.fs = s.fs
  chnks : t.chnks = update s.chnks (u, i) (some c)

variable {s t : St} {u i w size n : Nat} {sync : Prop} {lma : Bool} {want D : List UInt8}
  {v : VctrVal} {c c' : ChnkVal} {fs : Fs FileName}

theorem SetsChnk.trans {t' : St} (h : SetsChnk s t u i c) (h' : SetsChnk t t' u i c') :
    SetsChnk s t' u i c' where
  vctrs := h'.vctrs.trans h.vctrs
  fs := h'.fs.trans h.fs
  chnks := by rw [h'.chnks, h.chnks, update_idem]

theorem SetsChnk.self (h : SetsChnk s t u i c) : t.chnks (u, i) = some c := by
  rw [h.chnks, update_self]

theorem SetsChnk.of_ne {j : Nat} (h : SetsChnk s t u i c) (hj : j ≠ i) :
    t.chnks (u, j) = s.chnks (u, j) := by
  rw [h.chnks, update_of_ne (by simp [hj])]

/-! ## the shape of a vector -/

namespace Shape

variable (h : Shape v D)
include h

theorem chnkSize_eq : v.chnkSize = v.width * v.maxNumInChnk := u32_eq h.size_lt

theorem u32_width {k : Nat} (hk : k ≤ v.maxNumInChnk) : u32 (k * v.width) = v.width * k := by
  rw [Nat.mul_comm]
  exact u32_eq (Nat.lt_of_le_of_lt (Nat.mul_le_mul_left _ hk) h.size_lt)

theorem page_length (i : Nat) :
    (v.page D i).length = v.width * min v.maxNumInChnk (v.numElements - i * v.maxNumInChnk) := by
  rw [length_page, h.len, Nat.mul_left_comm i, ← Nat.mul_sub, Nat.mul_min_mul_left]

end Shape

/-- How many elements a chunk of a held vector has. -/
theorem ChnkOk.numElements_eq (h : Shape v D)
    (hc : ChnkOk fs sync lma u i v.width size (v.page D i) c) :
    c.numElements = min v.maxNumInChnk (v.numElements - i * v.maxNumInChnk) :=
  Nat.eq_of_mul_eq_mul_left h.width_pos (hc.count.symm.trans (h.page_length i))

theorem ChnkOk.numElements_full (h : Shape v D) (hi : i < v.maxChnkIdx)
    (hc : ChnkOk fs sync lma u i v.width size (v.page D i) c) :
    c.numElements = v.maxNumInChnk := by
  have h1 := hc.numElements_eq h
  have h2 : (i + 1) * v.maxNumInChnk ≤ v.maxChnkIdx * v.maxNumInChnk := Nat.mul_le_mul_right _ hi
  have h3 := h.lo
  rw [Nat.add_mul, Nat.one_mul] at h2
  omega

theorem ChnkOk.numElements_last (h : Shape v D)
    (hc : ChnkOk fs sync lma u v.maxChnkIdx v.width size (v.page D v.maxChnkIdx) c) :
    c.numElements = v.numElements - v.maxChnkIdx * v.maxNumInChnk := by
  have h1 := hc.numElements_eq h
  have h2 := h.hi
  rw [Nat.add_mul, Nat.one_mul] at h2
  omega

/-! ## one chunk changes -/

/-- Reading counters and tiers of one chunk may change under a held vector. -/
theorem Held.setsChnk (h : Held sync s u v D) (ht : SetsChnk s t u i c)
    (hi : v.minChnkIdx ≤ i ∧ i ≤ v.maxChnkIdx)
    (hc : ChnkOk s.fs sync v.isLma u i v.width (v.width * v.maxNumInChnk) (v.page D i) c) :
    Held sync t u v D where
  found := by rw [ht.vctrs]; exact h.found
  shape := h.shape
  inside j hj hj' := by
    by_cases hji : j = i
    · subst hji
      exact ⟨c, ht.self, ht.fs ▸ hc⟩
    · rw [ht.of_ne hji, ht.fs]
      exact h.inside j hj hj'
  outside j hj := by
    have hji : j ≠ i := fun e => hj (e ▸ hi)
    rw [ht.of_ne hji]
    exact h.outside j hj

/-- A state that agrees on tables and files is as good. -/
theorem Held.congr (h : Held sync s u v D) (hv : t.vctrs = s.vctrs) (hc : t.chnks = s.chnks)
    (hf : t.fs = s.fs) : Held sync t u v D where
  found := hv ▸ h.found
  shape := h.shape
  inside := by rw [hc, hf]; exact h.inside
  outside := by rw [hc]; exact h.outside

theorem Held.mem_window (h : Held sync s u v D) (hc : s.chnks (u, i) = some c) :
    v.minChnkIdx ≤ i ∧ i ≤ v.maxChnkIdx := by
  by_contra hn
  rw [h.outside i hn] at hc
  cases hc

/-- A chunk in the table is one of the window and holds its page. -/
theorem Held.chnkOk (h : Held sync s u v D) (hc : s.chnks (u, i) = some c) :
    ChnkOk s.fs sync v.isLma u i v.width (v.width * v.maxNumInChnk) (v.page D i) c := by
  obtain ⟨hlo, hhi⟩ := h.mem_window hc
  obtain ⟨c', hc', hok⟩ := h.inside i hlo hhi
  rw [hc, Option.some.injEq] at hc'
  exact hc' ▸ hok

/-! ## getting a chunk into memory -/

/-- `chnk_get_data` of a chunk that has a tier of its own. -/
theorem ends_chnkGetData (hc : s.chnks (u, i) = some c)
    (h : ChnkOk s.fs sync lma u i w size want c)
    (hm : c.l1Mem = none → c.l2Exists = true) :
    Ends (chnkGetData u i false) s (fun r t => ∃ b, r = some b ∧ size ≤ b.bytes.length ∧
      want <+: b.bytes ∧ SetsChnk s t u i { c with numReaders := c.numReaders + 1, l1Mem := some b })
      fun _ _ => False := by
  simp only [chnkGetData, Bool.false_eq_true, if_false, ends_bind, ends_getChnk_of hc, h.writers,
    gt_iff_lt, UInt16.lt_irrefl, ends_setChnk]
  cases hl : c.l1Mem with
  | some b =>
      exact ⟨b, rfl, (h.l1 b hl).1, (h.l1 b hl).2, rfl, rfl, by simp only [← hl]; rfl⟩
  | none =>
      obtain ⟨f, bs, hf, hr, hlen, hw⟩ := h.l2 (hm hl)
      have hlen' : ¬ bs.length ≠ c.size := by rw [hlen, h.size_eq]; simp
      simp only [hm hl, Bool.true_eq_false, if_false, hf, ends_bind, ends_get, St.setChnk_fs, hr,
        hlen', ends_memalign, ends_setChnk, ends_pure]
      refine ends_ignore_incrMem fun n r => ⟨_, rfl, hlen.ge, hw (Or.inr hl), rfl, rfl, ?_⟩
      simp only [St.setRefused, St.setMem, St.setChnk, St.bump, update_idem]

/-- Reader counts do not matter to what a chunk holds. -/
theorem ChnkOk.setReaders (h : ChnkOk fs sync lma u i w size want c) (r : UInt16) :
    ChnkOk fs sync lma u i w size want { c with numReaders := r } :=
  ⟨h.count, h.size_eq, h.fits, h.writers, h.l1, h.l2, h.kept⟩

/-- Nor does a further copy in memory. -/
theorem ChnkOk.setL1 (h : ChnkOk fs sync lma u i w size want c) {b : Buf}
    (hb : size ≤ b.bytes.length) (hw : want <+: b.bytes) :
    ChnkOk fs sync lma u i w size want { c with l1Mem := some b } where
  count := h.count
  size_eq := h.size_eq
  fits := h.fits
  writers := h.writers
  l1 b' hb' := by rw [Option.some.injEq] at hb'; exact hb' ▸ ⟨hb, hw⟩
  l2 he := by
    obtain ⟨f, bs, hf, hr, hlen, hp⟩ := h.l2 he
    exact ⟨f, bs, hf, hr, hlen, fun hs => hp (hs.imp id fun hn => by cases hn)⟩
  kept hn := by cases hn

/-! ## one element -/

/-- The bytes of element `i`. -/
def VctrVal.elem (v : VctrVal) (D : List UInt8) (i : Nat) : List UInt8 :=
  (D.drop (v.width * i)).take v.width

/-- What `vctr_get1` asks of an element of type `SC`. -/
def ScOk (v : VctrVal) (x : List UInt8) : Prop :=
  v.qtype = .SC → 0 ∈ x ∧ x.getLast? = some 0

instance (v : VctrVal) (x : List UInt8) : Decidable (ScOk v x) := by unfold ScOk; infer_instance

/-- `elemAt` reads the element out of any block that holds the chunk. -/
theorem ends_elemAt {b : Buf} {off : Nat} (hq : v.qtype ≠ .B1) (hoff : off < n)
    (hlen : want.length = v.width * n) (hw : want <+: b.bytes)
    (hsize : want.length < 2 ^ 32) :
    Ends (elemAt v n b off) s
      (fun r t => t = s ∧ r = if ScOk v ((want.drop (v.width * off)).take v.width)
        then some ((want.drop (v.width * off)).take v.width) else none)
      fun _ _ => False := by
  have hin : v.width * off + v.width ≤ want.length := by
    have := Nat.mul_le_mul_left v.width (show off + 1 ≤ n from hoff)
    rw [Nat.mul_add, Nat.mul_one] at this
    omega
  have hfit : v.width * off + v.width ≤ b.bytes.length := Nat.le_trans hin hw.length_le
  have hu : u32 (v.width * off) = v.width * off := u32_eq (by omega)
  have hn : ¬ off + 1 > n := by omega
  rw [elemAt, if_neg hn, hu]
  by_cases hs : v.qtype = .SC
  · simp only [hs, if_true, ends_bind, ends_slice, hfit, true_implies, not_true_eq_false,
      false_implies, ends_pure, take_drop_within hw hin, ScOk, and_self]
  · simp only [hs, hq, if_false, ends_bind, ends_slice, hfit, true_implies, not_true_eq_false,
      false_implies, ends_pure, take_drop_within hw hin, ScOk, if_true, and_self]

/-- The chunk that holds element `i` of a vector. -/
theorem Shape.chnk_of_elem (h : Shape v D) (hi : i < v.numElements) :
    i / v.maxNumInChnk ≤ v.maxChnkIdx ∧ u32 (i / v.maxNumInChnk) = i / v.maxNumInChnk ∧
      i % v.maxNumInChnk <
        min v.maxNumInChnk (v.numElements - i / v.maxNumInChnk * v.maxNumInChnk) := by
  have h1 := h.hi
  have h2 := h.idx_lt
  have h3 : i / v.maxNumInChnk < v.maxChnkIdx + 1 := Nat.div_lt_of_lt_mul (by rw [Nat.mul_comm]; omega)
  have h4 := Nat.mod_lt i h.max_pos
  have h5 := Nat.div_add_mod' i v.maxNumInChnk
  unfold lmaIdx at h2
  exact ⟨by omega, u32_eq (by omega), by omega⟩

/-- The page that holds an element, read at the element's offset. -/
theorem Shape.elem_page (h : Shape v D) (i : Nat) :
    ((v.page D (i / v.maxNumInChnk)).drop (v.width * (i % v.maxNumInChnk))).take v.width =
      v.elem D i := by
  have h1 := Nat.mod_lt i h.max_pos
  have h2 : v.width * (i % v.maxNumInChnk) + v.width ≤ v.width * v.maxNumInChnk := by
    have := Nat.mul_le_mul_left v.width (show i % v.maxNumInChnk + 1 ≤ v.maxNumInChnk from h1)
    rwa [Nat.mul_add, Nat.mul_one] at this
  rw [take_drop_page h2, VctrVal.elem, Nat.mul_left_comm, ← Nat.mul_add, Nat.div_add_mod']

/-- **Reading an element** of a vector stored in chunks: the element appended, at
the cost of no more than bringing its chunk into memory. An `SC` that does not
end is refused. -/
theorem Held.ends_vctrGet1 (h : Held sync s u v D) (hl : v.isLma = false) (hq : v.qtype ≠ .B1)
    (hi : i < v.numElements) (hmin : v.minChnkIdx ≤ i / v.maxNumInChnk) :
    Ends (vctrGet1 u i) s
      (fun x t => x = v.elem D i ∧ ScOk v (v.elem D i) ∧ Held sync t u v D)
      (fun e t => e = .bye (-1) ∧ ¬ ScOk v (v.elem D i) ∧ Held sync t u v D) := by
  obtain ⟨hidx, hu, hoff⟩ := h.shape.chnk_of_elem hi
  obtain ⟨c, hc, hok⟩ := h.inside _ hmin hidx
  have hm : c.l1Mem = none → c.l2Exists = true := fun hn => by
    by_contra he
    rw [hl] at hok
    exact Bool.false_ne_true (hok.kept hn (by simpa using he))
  have hm0 : v.maxNumInChnk ≠ 0 := Nat.ne_of_gt h.shape.max_pos
  have hi' : ¬ i ≥ v.numElements := by omega
  simp only [vctrGet1, ends_bind, ends_getVctr_of h.found, ends_byeIf_neg hi', hl,
    Bool.false_eq_true, if_false, hm0, hu, ends_getChnk_of hc]
  refine (ends_chnkGetData hc hok hm).imp ?_ fun _ _ => False.elim
  rintro _ t ⟨b, rfl, hblen, hbw, ht⟩
  have hn := hok.numElements_eq h.shape
  have hok' : ChnkOk s.fs sync v.isLma u _ v.width (v.width * v.maxNumInChnk) (v.page D _)
      { c with l1Mem := some b } := hok.setL1 hblen hbw
  have hend : Held sync (t.setChnk u (i / v.maxNumInChnk) { c with l1Mem := some b }) u v D :=
    h.setsChnk (ht.trans ⟨rfl, rfl, rfl⟩) ⟨hmin, hidx⟩ hok'
  simp only [ends_bind, ends_getChnk_of ht.self]
  refine (ends_elemAt hq (by rw [hn]; exact hoff) hok.count hbw
    (Nat.lt_of_le_of_lt hok.fits h.shape.size_lt)).imp ?_ fun _ _ => False.elim
  rintro r _ ⟨rfl, rfl⟩
  rw [h.shape.elem_page]
  simp only [ends_modChnk_of ht.self, UInt16.add_sub_cancel]
  by_cases hsc : ScOk v (v.elem D i)
  · rw [if_pos hsc]
    exact ⟨rfl, hsc, hend⟩
  · rw [if_neg hsc]
    exact ⟨rfl, hsc, hend⟩

/-- A read past the end, or below the window, fails and changes nothing. -/
theorem Held.vctrGet1_fails (h : Held sync s u v D) (hl : v.isLma = false)
    (hi : i ≥ v.numElements ∨ i / v.maxNumInChnk < v.minChnkIdx) :
    vctrGet1 u i s = .error (.bye (-1)) s := by
  refine Ends.throws ?_
  simp only [vctrGet1, ends_bind, ends_getVctr_of h.found, ends_byeIf, hl, Bool.false_eq_true,
    if_false, implies_true, true_and]
  intro hi'
  have hlt : i / v.maxNumInChnk < v.minChnkIdx := hi.resolve_left hi'
  have hm0 : v.maxNumInChnk ≠ 0 := Nat.ne_of_gt h.shape.max_pos
  have hu := (h.shape.chnk_of_elem (Nat.lt_of_not_le hi')).2.1
  have hnone := h.outside (i / v.maxNumInChnk) (by omega)
  simp [hm0, hu, hnone]

/-! ## one chunk -/

/-- **Getting a chunk** hands out its page, and counts a reader. -/
theorem Held.ends_vctrGetChunk_of (h : Held sync s u v D) (hl : v.isLma = false)
    (hc : s.chnks (u, i) = some c) :
    Ends (vctrGetChunk u i) s
      (fun r t => Held sync t u v D ∧ v.page D i <+: r.bytes ∧ (v.page D i).length = v.width * r.num)
      fun _ _ => False := by
  simp only [vctrGetChunk, ends_bind, ends_getVctr_of h.found, hl, Bool.false_eq_true, if_false]
  rw [ends_getChnk_of hc]
  have hok := h.chnkOk hc
  have hm : c.l1Mem = none → c.l2Exists = true := fun hn => by
    by_contra he
    rw [hl] at hok
    exact Bool.false_ne_true (hok.kept hn (by simpa using he))
  refine (ends_chnkGetData hc hok hm).imp ?_ fun _ _ => False.elim
  rintro _ t ⟨b, rfl, hblen, hbw, ht⟩
  exact ⟨h.setsChnk ht (h.mem_window hc) ((hok.setL1 hblen hbw).setReaders _), hbw, hok.count⟩

/-- A chunk that is not in the table is not handed out. -/
theorem vctrGetChunk_none (hv : s.vctrs u = some v) (hl : v.isLma = false)
    (hc : s.chnks (u, i) = none) : vctrGetChunk u i s = .error (.bye (-1)) s := by
  refine Ends.throws ?_
  simp only [vctrGetChunk, ends_bind, ends_getVctr_of hv, hl, Bool.false_eq_true, if_false]
  rw [ends_getChnk]
  refine ⟨fun _ => ⟨rfl, rfl⟩, fun c hc' => ?_⟩
  rw [hc] at hc'
  contradiction

theorem Held.ends_vctrGetChunk (h : Held sync s u v D) (hl : v.isLma = false) :
    Ends (vctrGetChunk u i) s
      (fun r t => Held sync t u v D ∧ v.page D i <+: r.bytes ∧ (v.page D i).length = v.width * r.num)
      fun e t => e = .bye (-1) ∧ t = s := by
  cases hc : s.chnks (u, i) with
  | none =>
      rw [Ends, vctrGetChunk_none h.found hl hc]
      exact ⟨rfl, rfl⟩
  | some c => exact (h.ends_vctrGetChunk_of hl hc).imp (fun _ _ => id) fun _ _ => False.elim

/-- Giving a chunk back takes a reader off. -/
theorem Held.ends_vctrUngetChunk (h : Held sync s u v D) (hl : v.isLma = false) :
    Ends (vctrUngetChunk u i) s (fun _ t => Held sync t u v D)
      fun e t => e = .bye (-1) ∧ t = s := by
  simp only [vctrUngetChunk, ends_bind, ends_getVctr_of h.found, hl, Bool.false_eq_true, if_false]
  rw [ends_getChnk]
  refine ⟨fun _ => ⟨rfl, rfl⟩, fun c hc => ?_⟩
  simp only [ends_byeIf, ends_setChnk]
  exact ⟨fun _ => ⟨trivial, trivial⟩, fun _ => h.setsChnk ⟨rfl, rfl, rfl⟩ (h.mem_window hc)
    ((h.chnkOk hc).setReaders _)⟩

end QStore.Vctr
