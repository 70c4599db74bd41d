import Mathlib.Data.List.TakeWhile
import QStore.Vctr.Lma
import QStore.Vctr.Print

/-!
# QStore.Vctr.PrintRange

A range is printed as it is in the whole.

An element prints on its own as it does where it lies in a chunk or in the linear
file. So the text of a range is that of its elements, one after the other,
however the loop over the chunks cuts it up. The flags of a `BL` null vector are
the exception: they are read from the start of the chunk, not from where the range
starts.
-/

namespace QStore.Vctr

variable {s t : St} {u w i n off lb ub : Nat} {v nv : VctrVal} {c : ChnkVal} {x : List UInt8}
  {bs : List UInt8} {X F : Nat → List UInt8} {libc : Libc} {format : List UInt8}

/-! ## rows -/

/-- The lines `lb..ub-1`, one after the other. -/
def linesOf (line : Nat → List UInt8) (lb ub : Nat) : List UInt8 :=
  ((List.range' lb (ub - lb)).map line).flatten

theorem linesOf_append {line : Nat → List UInt8} {m : Nat} (h : lb ≤ m) (h' : m ≤ ub) :
    linesOf line lb m ++ linesOf line m ub = linesOf line lb ub := by
  have hsplit : List.range' lb (ub - lb) = List.range' lb (m - lb) ++ List.range' m (ub - m) := by
    rw [show ub - lb = (m - lb) + (ub - m) by omega, ← List.range'_append_1,
      show lb + (m - lb) = m by omega]
  rw [linesOf, linesOf, linesOf, hsplit, List.map_append, List.flatten_append]

/-- The lines of a range are those of the whole. -/
theorem linesOf_eq_slice {line : Nat → List UInt8} (h : ub ≤ n) :
    linesOf line lb ub = ((((List.range n).map line).drop lb).take (ub - lb)).flatten := by
  rw [linesOf, ← List.map_drop, ← List.map_take, List.range_eq_range', List.drop_range',
    List.take_range'_of_length_ge (by omega), Nat.zero_add, Nat.mul_one]

theorem printRows_ok {row : Nat → Except Err (List UInt8)} {line : Nat → List UInt8}
    (h : ∀ j, j < n → row (i + j) = .ok (line (lb + j))) :
    printRows row i n = .ok (linesOf line lb (lb + n)) := by
  induction n generalizing i lb with
  | zero => simp [printRows, linesOf]
  | succ n ih =>
      have hrest : printRows row (i + 1) n = .ok (linesOf line (lb + 1) (lb + 1 + n)) := by
        refine ih fun j hj => ?_
        rw [Nat.add_assoc, Nat.add_comm 1 j, h (j + 1) (by omega), Nat.add_assoc, Nat.add_comm 1 j]
      have hone : line lb = linesOf line lb (lb + 1) := by
        simp [linesOf]
      rw [printRows, show row i = .ok (line lb) from h 0 (Nat.succ_pos n), hrest, hone]
      show Except.ok (_ ++ _) = _
      rw [linesOf_append (by omega) (by omega), show lb + 1 + n = lb + (n + 1) by omega]

/-! ## one element -/

/-- Element `off` of a block of the elements of a vector is `x`. A bit is taken out
and put in a byte. -/
def VctrVal.Lies (v : VctrVal) (bs : List UInt8) (off : Nat) (x : List UInt8) : Prop :=
  if v.qtype = .B1 then ∃ b, getBit bs off = some b ∧ x = [if b then 1 else 0]
  else v.width * off + v.width ≤ bs.length ∧ (bs.drop (v.width * off)).take v.width = x

theorem readBytes_of_lies (h : v.width * off + v.width ≤ bs.length)
    (hx : (bs.drop (v.width * off)).take v.width = x) :
    readBytes (some bs) (v.width * off) v.width = .ok x ∧ readBytes (some x) 0 v.width = .ok x := by
  have hlen : x.length = v.width := by
    rw [← hx, List.length_take, List.length_drop]
    omega
  rw [readBytes, readBytes, if_pos h, if_pos (by omega), hx, List.drop_zero, ← hlen,
    List.take_length]
  exact ⟨rfl, rfl⟩

/-- A string that ends within its width is read alone as it is among others. -/
theorem readString_of_lies (hx : (bs.drop (v.width * off)).take v.width = x) {txt : List UInt8}
    (h : readString (some x) 0 = .ok txt) : readString (some bs) (v.width * off) = .ok txt := by
  have hsplit := List.take_append_drop v.width (bs.drop (v.width * off))
  rw [hx] at hsplit
  rw [readString, List.drop_zero] at h
  split at h
  · next h0 =>
    rw [readString, ← hsplit, if_pos (List.mem_append_left _ h0), ← h,
      List.takeWhile_append, if_neg]
    intro hall
    have := List.takeWhile_eq_self_iff.mp
      ((List.takeWhile_prefix (· ≠ (0 : UInt8))).eq_of_length hall) 0 h0
    simp at this
  · contradiction

section Elem

variable {base k : Nat} {txt : List UInt8} (hl : v.width * k + v.width ≤ bs.length)
  (hx : (bs.drop (v.width * k)).take v.width = x) (hbase : base + v.width * i = v.width * k)
include hl hx hbase

theorem showAt_of_lies {f : List UInt8 → List UInt8} (hn : v.width = n) :
    showAt (some bs) base n i f = showAt (some x) 0 n 0 f := by
  obtain ⟨h1, h2⟩ := readBytes_of_lies hl hx
  rw [showAt, showAt, ← hn, hbase, h1, Nat.mul_zero, h2]

theorem tmText_of_lies (hn : v.width = 56) :
    (readBytes (some bs) (base + 56 * i) 56).bind (tmText libc format) =
      (readBytes (some x) (0 + 56 * 0) 56).bind (tmText libc format) := by
  obtain ⟨h1, h2⟩ := readBytes_of_lies hl hx
  rw [← hn, hbase, h1, Nat.mul_zero, h2]

omit hl in
theorem string_of_lies (ho : readString (some x) (0 + 0 * v.width) = .ok txt) :
    readString (some bs) (base + i * v.width) = .ok txt := by
  rw [Nat.zero_mul] at ho
  rw [Nat.mul_comm i, hbase]
  exact readString_of_lies hx ho

end Elem

/-- An element is printed from its chunk as it is on its own. -/
theorem printElem_of_lies {chnkOff : Nat} {txt : List UInt8} (hw : v.WidthOk)
    (hu : u32 (chnkOff * v.width) = v.width * chnkOff) (h : v.Lies bs (chnkOff + i) x)
    (ho : printElem libc format v (some x) 0 0 = .ok txt) :
    printElem libc format v (some bs) chnkOff i = .ok txt := by
  have h0 : u32 (0 * v.width) = 0 := by
    rw [Nat.zero_mul]
    rfl
  rw [VctrVal.Lies] at h
  by_cases hb : v.qtype = .B1
  · rw [if_pos hb] at h
    obtain ⟨b, hbit, rfl⟩ := h
    have hone : readBit (some [if b then 1 else 0]) (0 + 0) = .ok b := by
      cases b <;> decide
    simp only [printElem, hb, hone] at ho ⊢
    rw [readBit, Option.bind_some, hbit]
    exact ho
  · rw [if_neg hb] at h
    have hbase : v.width * chnkOff + v.width * i = v.width * (chnkOff + i) := by
      rw [Nat.mul_add]
    have hshow : ∀ n f, v.width = n →
        showAt (some bs) (v.width * chnkOff) n i f = showAt (some x) 0 n 0 f :=
      fun n f hn => showAt_of_lies h.1 h.2 hbase hn
    cases hq : v.qtype <;> simp only [printElem, hq, hu, h0] at ho ⊢ <;>
      first
        | contradiction
        | exact (hshow _ _ (by simpa [hq, getWidthCQtype] using hw hb (by simp [hq]))).trans ho
        | exact string_of_lies h.2 hbase ho
        | exact (tmText_of_lies h.1 h.2 hbase
            (by simpa [hq, getWidthCQtype] using hw hb (by simp [hq]))).trans ho

/-- So is an element of the linear file. -/
theorem printElemLma_of_lies {txt : List UInt8} (hw : v.WidthOk) (h : v.Lies bs (lb + i) x)
    (ho : printElemLma libc format v (some x) 0 0 = .ok txt) :
    printElemLma libc format v (some bs) (lb * v.width) i = .ok txt := by
  by_cases hb : v.qtype = .B1
  · simp only [printElemLma, hb] at ho
    contradiction
  · rw [VctrVal.Lies, if_neg hb] at h
    have hbase : lb * v.width + v.width * i = v.width * (lb + i) := by
      rw [Nat.mul_add, Nat.mul_comm lb]
    have hshow : ∀ n f, v.width = n →
        showAt (some bs) (lb * v.width) n i f = showAt (some x) 0 n 0 f :=
      fun n f hn => showAt_of_lies h.1 h.2 hbase hn
    cases hq : v.qtype <;> simp only [printElemLma, hq] at ho ⊢ <;>
      first
        | contradiction
        | exact (hshow _ _ (by simpa [hq, getWidthCQtype] using hw hb (by simp [hq]))).trans ho
        | exact string_of_lies h.2 hbase ho
        | exact (tmText_of_lies h.1 h.2 hbase
            (by simpa [hq, getWidthCQtype] using hw hb (by simp [hq]))).trans ho

/-- The types that the chunk form and the linear form print alike. -/
def BothPrint (q : Qtype) : Prop := q ∈ [.BL, .I1, .I2, .I4, .I8, .F2, .F4, .F8, .SC, .TM]

instance : DecidablePred BothPrint := fun q => inferInstanceAs (Decidable (q ∈ _))

theorem printElemLma_eq (h : BothPrint v.qtype) {mem : Option (List UInt8)} :
    printElemLma libc format v mem 0 i = printElem libc format v mem 0 i := by
  have h0 : u32 (0 * v.width) = 0 := by
    rw [Nat.zero_mul]
    rfl
  cases hq : v.qtype <;> simp only [printElemLma, printElem, hq, h0] <;> simp [BothPrint, hq] at h

/-! ## the chunks -/

/-- Every vector is the same, and every chunk has the elements and the data that it
had. -/
structure SameData (s t : St) : Prop where
  vctrs : t.vctrs = s.vctrs
  fs : t.fs = s.fs
  chnk : ∀ u i c bs, s.chnks (u, i) = some c → chnkData s.fs u i c = some bs →
    ∃ c', t.chnks (u, i) = some c' ∧ c'.numElements = c.numElements ∧
      chnkData s.fs u i c' = some bs

theorem SameData.refl : SameData s s := ⟨rfl, rfl, fun _ _ c _ hc hd => ⟨c, hc, rfl, hd⟩⟩

theorem SameData.trans {r : St} (h : SameData s t) (h' : SameData t r) : SameData s r where
  vctrs := h'.vctrs.trans h.vctrs
  fs := h'.fs.trans h.fs
  chnk u i c bs hc hd := by
    obtain ⟨c1, hc1, hn1, hd1⟩ := h.chnk u i c bs hc hd
    obtain ⟨c2, hc2, hn2, hd2⟩ := h'.chnk u i c1 bs hc1 (by rw [h.fs]; exact hd1)
    exact ⟨c2, hc2, hn2.trans hn1, by rwa [h.fs] at hd2⟩

/-- A chunk that is put in the place of another with the same data. -/
theorem SameData.of_setsChnk (c' : ChnkVal) (hc : s.chnks (u, i) = some c)
    (ht : SetsChnk s t u i c') (hn : c'.numElements = c.numElements)
    (hd : chnkData s.fs u i c' = chnkData s.fs u i c) : SameData s t where
  vctrs := ht.vctrs
  fs := ht.fs
  chnk w j d bs hd' hbs := by
    by_cases hk : (w, j) = (u, i)
    · cases hk
      cases hc.symm.trans hd'
      exact ⟨c', ht.self, hn, hd.trans hbs⟩
    · refine ⟨d, ?_, rfl, hbs⟩
      rw [ht.chnks, Function.update_of_ne hk]
      exact hd'

/-- `chnk_get_data` hands out the data of a chunk, and changes that of none. -/
theorem ends_chnkGetData_same (hc : s.chnks (u, i) = some c)
    (hd : chnkData s.fs u i c = some bs) :
    Ends (chnkGetData u i false) s
      (fun r t => r.map Buf.bytes = some bs ∧ SameData s t) fun _ _ => False := by
  have hdata := hd
  rw [chnkData] at hd
  by_cases hw : c.numWriters > 0
  · rw [if_pos hw] at hd
    contradiction
  rw [if_neg hw] at hd
  rw [chnkGetData, if_neg (by decide), ends_bind, ends_getChnk_of hc, if_neg hw, ends_bind,
    ends_setChnk]
  cases hm : c.l1Mem with
  | some b =>
      rw [hm] at hd
      refine ⟨hd, .of_setsChnk _ hc ⟨rfl, rfl, rfl⟩ rfl ?_⟩
      rw [hdata, chnkData, if_neg hw]
      exact hd
  | none =>
      simp only [hm] at hd
      by_cases he : c.l2Exists = false
      · rw [if_pos he] at hd
        contradiction
      rw [if_neg he, Option.bind_eq_some_iff] at hd
      obtain ⟨y, hy, hlen⟩ := hd
      obtain ⟨f, hf, hr⟩ := Option.bind_eq_some_iff.mp hy
      by_cases hne : y.length ≠ c.size
      · rw [if_pos hne] at hlen
        contradiction
      rw [if_neg hne] at hlen
      cases hlen
      simp only [if_neg he, hf, ends_bind, ends_get, St.setChnk_fs, hr, if_neg hne, ends_memalign,
        ends_setChnk, ends_pure]
      refine ends_ignore_incrMem fun n r => ⟨rfl, .of_setsChnk
        { c with numReaders := c.numReaders + 1, l1Mem := some ⟨s.brk, bs⟩ } hc
        ⟨rfl, rfl, ?_⟩ rfl ?_⟩
      · simp only [St.setRefused, St.setMem, St.setChnk, St.bump, Function.update_idem]
      · rw [hdata, chnkData, if_neg hw]

/-- Vector `u` is in its chunks: element `i` is `X i`, and it lies where it belongs. -/
structure Chunked (s : St) (u : Nat) (v : VctrVal) (X : Nat → List UInt8) : Prop where
  found : s.vctrs u = some v
  widthOk : v.WidthOk
  max_pos : 0 < v.maxNumInChnk
  max_lt : v.maxNumInChnk < 2 ^ 32
  size_lt : v.width * v.maxNumInChnk < 2 ^ 32
  num_le : v.numElements ≤ 2 ^ 32 * v.maxNumInChnk
  chnk : ∀ i, i * v.maxNumInChnk < v.numElements → ∃ c bs, s.chnks (u, i) = some c ∧
    c.numElements = min v.maxNumInChnk (v.numElements - i * v.maxNumInChnk) ∧
    chnkData s.fs u i c = some bs ∧
    ∀ off, off < c.numElements → v.Lies bs off (X (i * v.maxNumInChnk + off))

theorem Chunked.same (h : Chunked s u v X) (ht : SameData s t) : Chunked t u v X where
  found := by rw [ht.vctrs]; exact h.found
  widthOk := h.widthOk
  max_pos := h.max_pos
  max_lt := h.max_lt
  size_lt := h.size_lt
  num_le := h.num_le
  chnk i hi := by
    obtain ⟨c, bs, hc, hn, hd, hx⟩ := h.chnk i hi
    obtain ⟨c', hc', hn', hd'⟩ := ht.chnk u i c bs hc hd
    exact ⟨c', bs, hc', hn'.trans hn, by rw [ht.fs]; exact hd', by rw [hn']; exact hx⟩

/-- A vector that holds the bytes appended to it is in its chunks, unless it has let
some go. -/
theorem Held.chunked {sync : Prop} {D : List UInt8} (h : Held sync s u v D) (hl : v.isLma = false)
    (hmin : v.minChnkIdx = 0) (hq : v.qtype ≠ .B1) (hw : v.WidthOk)
    (hmax : v.maxNumInChnk < 2 ^ 32) : Chunked s u v (v.elem D) where
  found := h.found
  widthOk := hw
  max_pos := h.shape.max_pos
  max_lt := hmax
  size_lt := h.shape.size_lt
  num_le := by
    have h1 := h.shape.idx_lt
    have h2 := Nat.mul_le_mul_right v.maxNumInChnk (show v.maxChnkIdx + 1 ≤ 2 ^ 32 by
      unfold lmaIdx at h1
      omega)
    exact h.shape.hi.trans h2
  chnk i hi := by
    have hidx : i ≤ v.maxChnkIdx := by
      by_contra hgt
      have := Nat.mul_le_mul_right v.maxNumInChnk (show v.maxChnkIdx + 1 ≤ i by omega)
      have := h.shape.hi
      omega
    obtain ⟨c, hc, hok⟩ := h.inside i (by omega) hidx
    have hnum := hok.numElements_eq h.shape
    have hm : c.l1Mem = none → c.l2Exists = true := fun hn => by
      by_contra he
      rw [hl] at hok
      exact Bool.false_ne_true (hok.kept hn (by simpa using he))
    obtain ⟨r, t, -, ⟨b, rfl, -, hpre, -⟩, hdata⟩ :=
      (((ends_chnkGetData hc hok hm).and (ends_chnkGetData_data hc)).imp (fun _ _ => id)
        fun _ _ hf => hf.1).returns
    refine ⟨c, b.bytes, hc, hnum, hdata.symm, fun off hoff => ?_⟩
    have hin : v.width * off + v.width ≤ (v.page D i).length := by
      have := Nat.mul_le_mul_left v.width (show off + 1 ≤ c.numElements from hoff)
      rw [Nat.mul_add, Nat.mul_one] at this
      exact this.trans hok.count.ge
    have hpage := h.shape.elem_page (i * v.maxNumInChnk + off)
    have hlt : off < v.maxNumInChnk := by omega
    rw [Nat.add_comm, Nat.add_mul_div_right _ _ h.shape.max_pos, Nat.div_eq_of_lt hlt, Nat.zero_add,
      Nat.add_mul_mod_self_right, Nat.mod_eq_of_lt hlt, Nat.add_comm] at hpage
    rw [VctrVal.Lies, if_neg hq, ← hpage]
    exact ⟨hin.trans hpre.length_le, take_drop_within hpre hin⟩

/-! ## the null vector -/

/-- `vctr_print` takes `w` for the null vector of `v`. -/
structure NnFits (s : St) (v : VctrVal) (w : Nat) (nv : VctrVal) : Prop where
  found : s.vctrs w = some nv
  flags : nv.qtype = .BL ∨ nv.qtype = .B1
  widthOk : nv.WidthOk
  max_eq : nv.maxNumInChnk = v.maxNumInChnk
  num_eq : nv.numElements = v.numElements

/-- It is in its chunks, and says of the elements which are null: of `F i`, whether it
is a zero byte. -/
structure Nulls (s : St) (v : VctrVal) (w : Nat) (nv : VctrVal) (F : Nat → List UInt8) : Prop where
  fits : NnFits s v w nv
  chunked : Chunked s w nv F

/-- Element `i` is null. There is no null vector if `w` is 0. -/
def IsNull (w : Nat) (F : Nat → List UInt8) (i : Nat) : Prop := 0 < w ∧ F i = [0]

instance : Decidable (IsNull w F i) := inferInstanceAs (Decidable (_ ∧ _))

/-- The flags of a `BL` null vector that a print from `lb` to `ub` reads, in the chunk
of `lb`, say the same as those of the elements it prints. -/
def FlagsMeet (w : Nat) (v nv : VctrVal) (F : Nat → List UInt8) (lb ub : Nat) : Prop :=
  0 < w → nv.qtype = .BL → ∀ k, lb + k < ub → lb % v.maxNumInChnk + k < v.maxNumInChnk →
    (F (lb / v.maxNumInChnk * v.maxNumInChnk + k) = [0] ↔ F (lb + k) = [0])

/-- So it is where the range starts with a chunk. -/
theorem flagsMeet_of_dvd (h : lb % v.maxNumInChnk = 0) : FlagsMeet w v nv F lb ub := by
  intro _ _ k _ _
  rw [Nat.div_mul_cancel (Nat.dvd_of_mod_eq_zero h)]

theorem isNullRow_ok {num chnkOff : Nat} {Y : Nat → List UInt8} (hw : nv.WidthOk)
    (hq : nv.qtype = .BL ∨ nv.qtype = .B1) (hY : ∀ off, off < num → nv.Lies bs off (Y off))
    (hi : chnkOff + i < num) (hmeet : nv.qtype = .BL → (Y i = [0] ↔ Y (chnkOff + i) = [0])) :
    isNullRow (some (nv, some bs)) chnkOff i = .ok (decide (Y (chnkOff + i) = [0])) := by
  rcases hq with hq | hq
  · have hone : nv.width = 1 := by
      have := hw (by rw [hq]; decide) (by rw [hq]; decide)
      rwa [hq] at this
    have hlies := hY i (by omega)
    rw [VctrVal.Lies, if_neg (by rw [hq]; decide), hone, Nat.one_mul] at hlies
    simp only [isNullRow, hq, readBytes, if_pos hlies.1, hlies.2, Except.map]
    congr 1
    rw [Bool.eq_iff_iff, beq_iff_eq, decide_eq_true_iff]
    exact hmeet hq
  · have hlies := hY (chnkOff + i) hi
    rw [VctrVal.Lies, if_pos hq] at hlies
    obtain ⟨b, hbit, hb⟩ := hlies
    simp only [isNullRow, hq, readBit, Option.bind_some, hbit, Except.map, hb]
    cases b <;> rfl

/-! ## a turn -/

/-- The null vector as `vctr_print` knows it. -/
def nnOf (w : Nat) (nv : VctrVal) : Option (Nat × VctrVal) := if 0 < w then some (w, nv) else none

/-- The line of element `i`, whose text is `txt i`. -/
def lineOf (w : Nat) (F txt : Nat → List UInt8) (i : Nat) : List UInt8 :=
  if IsNull w F i then nullLine else txt i ++ [10]

theorem Nulls.same (h : Nulls s v w nv F) (ht : SameData s t) : Nulls t v w nv F :=
  ⟨⟨ht.vctrs ▸ h.fits.found, h.fits.flags, h.fits.widthOk, h.fits.max_eq, h.fits.num_eq⟩,
    h.chunked.same ht⟩

theorem NnFits.width_eq (h : NnFits s v w nv) (hq : nv.qtype = .BL) : nv.width = 1 := by
  have := h.widthOk (by rw [hq]; decide) (by rw [hq]; decide)
  rwa [hq] at this

theorem ends_nnVctr (h : 0 < w → NnFits s v w nv) :
    Ends (nnVctr v w) s (fun r t => t = s ∧ r = nnOf w nv) fun _ _ => False := by
  rw [nnVctr, nnOf]
  by_cases hw : 0 < w
  · obtain ⟨hfound, hq, -, hmax, hnum⟩ := h hw
    have hqtype : ¬ (nv.qtype ≠ .BL ∧ nv.qtype ≠ .B1) := by
      rintro ⟨h1, h2⟩
      exact hq.elim h1 h2
    have hwidth : ¬ (nv.qtype = .BL ∧ nv.width ≠ 1) := fun hb => hb.2 ((h hw).width_eq hb.1)
    rw [if_pos hw, if_pos hw, ends_bind, ends_getVctr_of hfound, ends_bind,
      ends_byeIf_neg hqtype, ends_bind, ends_byeIf_neg hwidth, ends_bind,
      ends_byeIf_neg (not_not.mpr hmax), ends_bind, ends_byeIf_neg (not_not.mpr hnum), ends_pure]
    exact ⟨rfl, rfl⟩
  · rw [if_neg hw, if_neg hw]
    exact ⟨rfl, rfl⟩

/-- The flags of a chunk. -/
theorem ends_nnChnk (h : 0 < w → Nulls s v w nv F) {num : Nat}
    (hi : i * v.maxNumInChnk < v.numElements)
    (hnum : num = min v.maxNumInChnk (v.numElements - i * v.maxNumInChnk)) :
    Ends (nnChnk (nnOf w nv) i num) s
      (fun nn t => SameData s t ∧ ∀ chnkOff j, chnkOff + j < num →
        (0 < w → nv.qtype = .BL → (F (i * v.maxNumInChnk + j) = [0] ↔
          F (i * v.maxNumInChnk + (chnkOff + j)) = [0])) →
        isNullRow nn chnkOff j = .ok (decide (IsNull w F (i * v.maxNumInChnk + (chnkOff + j)))))
      fun _ _ => False := by
  by_cases hw : 0 < w
  · obtain ⟨⟨-, hq, hwidth, hmax, hn⟩, hch⟩ := h hw
    obtain ⟨d, bs, hd, hdnum, hdata, hlies⟩ := hch.chnk i (by rw [hmax, hn]; exact hi)
    have hsame : ¬ d.numElements ≠ num := by
      rw [hdnum, hnum, hmax, hn]
      simp
    rw [nnOf, if_pos hw, nnChnk, ends_bind, ends_getChnk_of hd, ends_bind, ends_byeIf_neg hsame,
      ends_bind]
    refine (ends_chnkGetData_same hd hdata).imp ?_ fun _ _ => id
    rintro r t ⟨hr, ht⟩
    rw [ends_pure, hr]
    refine ⟨ht, fun chnkOff j hj hmeet => ?_⟩
    rw [hmax] at hlies
    rw [isNullRow_ok (Y := fun off => F (i * v.maxNumInChnk + off)) hwidth hq hlies
      (by rw [Decidable.not_not.mp hsame]; exact hj) (hmeet hw)]
    simp only [IsNull, hw, true_and]
  · rw [nnOf, if_neg hw]
    refine ⟨.refl, fun chnkOff j _ _ => ?_⟩
    simp only [isNullRow, IsNull, hw, false_and, decide_false]

theorem ends_releaseChnk (hc : s.chnks (u, i) = some c) :
    Ends (releaseChnk u i) s (fun _ t => SameData s t) fun _ _ => False := by
  rw [releaseChnk, ends_modChnk_of hc]
  exact .of_setsChnk _ hc ⟨rfl, rfl, rfl⟩ rfl rfl

theorem ends_releaseNn (h : 0 < w → s.chnks (w, i) ≠ none) :
    Ends (releaseNn (nnOf w nv) i) s (fun _ t => SameData s t) fun _ _ => False := by
  by_cases hw : 0 < w
  · rw [nnOf, if_pos hw]
    obtain ⟨d, hd⟩ := Option.ne_none_iff_exists'.mp (h hw)
    exact ends_releaseChnk hd
  · rw [nnOf, if_neg hw]
    exact .refl

theorem printRow_ok {mem : Option (List UInt8)} {nn : Option (VctrVal × Option (List UInt8))}
    {chnkOff : Nat} {b : Bool} {txt : List UInt8} (hn : isNullRow nn chnkOff i = .ok b)
    (ho : b = false → printElem libc format v mem chnkOff i = .ok txt) :
    printRow libc format v mem nn chnkOff i = .ok (if b then nullLine else txt ++ [10]) := by
  cases b with
  | true => rw [printRow, hn]; rfl
  | false => rw [printRow, hn, ho rfl]; rfl

/-- Subtraction of `uint32_t`. -/
theorem u32_sub {a b : Nat} (h : b ≤ a) (ha : a < 2 ^ 32) : u32 (a + 2 ^ 32 - b) = a - b := by
  rw [u32, show a + 2 ^ 32 - b = (a - b) + 2 ^ 32 by omega, Nat.add_mod_right,
    Nat.mod_eq_of_lt (by omega)]

/-- Where row `j` of a turn lies. -/
theorem row_in_chnk {m num j : Nat} (hnum : num = min m (n - lb / m * m)) (hub : ub ≤ n)
    (hj : j < min (m - lb % m) (ub - lb)) :
    lb / m * m + (lb % m + j) = lb + j ∧ lb % m + j < num := by
  have hdiv := Nat.div_add_mod' lb m
  omega

/-- Past its checks, `vctr_print` goes one way or the other. -/
theorem ends_pastChecks (huqid : u ≠ 0) (hv : s.vctrs u = some v) (hnn : 0 < w → NnFits s v w nv)
    (hformat : v.qtype = .TM → format ≠ []) (hlb : lb < ub) (hub : ub ≤ v.numElements)
    {Q : List UInt8 → St → Prop} {E : Err → St → Prop}
    (h : Ends (if v.isLma then vctrPrintLma libc u format lb ub
      else printChnks libc format u v (nnOf w nv) ub (ub - lb) lb) s Q E) :
    Ends (vctrPrint libc u w format lb ub) s Q E := by
  rw [vctrPrint, ends_bind, ends_byeIf_neg huqid, ends_bind, ends_getVctr_of hv, ends_bind]
  refine (ends_nnVctr hnn).imp ?_ fun _ _ => False.elim
  rintro - _ ⟨rfl, rfl⟩
  have hend : (if ub = 0 then v.numElements else ub) = ub := if_neg (by omega)
  rw [ends_bind, ends_byeIf_neg (by rw [hend]; omega), ends_bind,
    ends_byeIf_neg (by rw [hend]; omega), ends_bind,
    ends_byeIf_neg fun hq => hformat hq.1 hq.2, hend]
  exact h

/-- A vector can be printed from its chunks, and `txt i` is the text of element `i`,
unless that is null. -/
structure Printable (libc : Libc) (format : List UInt8) (s : St) (u : Nat) (v : VctrVal)
    (w : Nat) (nv : VctrVal) (X F txt : Nat → List UInt8) : Prop where
  uqid : u ≠ 0
  hasFormat : v.qtype = .TM → format ≠ []
  isLma : v.isLma = false
  chunked : Chunked s u v X
  nulls : 0 < w → Nulls s v w nv F
  text : ∀ i, i < v.numElements → ¬ IsNull w F i →
    printElem libc format v (some (X i)) 0 0 = .ok (txt i)

section Turns

variable {txt : Nat → List UInt8} (h : Printable libc format s u v w nv X F txt)
include h

theorem Printable.same (ht : SameData s t) : Printable libc format t u v w nv X F txt :=
  ⟨h.uqid, h.hasFormat, h.isLma, h.chunked.same ht, fun hw => (h.nulls hw).same ht, h.text⟩

/-- A turn prints from `lb` to the end of its chunk, or to the end of the range. -/
theorem Printable.ends_printChnk (hlb : lb < ub) (hub : ub ≤ v.numElements)
    (hmeet : FlagsMeet w v nv F lb ub) :
    Ends (printChnk libc format u v (nnOf w nv) lb (ub - lb)) s
      (fun r t => SameData s t ∧ r.2 = min (v.maxNumInChnk - lb % v.maxNumInChnk) (ub - lb) ∧
        r.1 = linesOf (lineOf w F txt) lb (lb + r.2)) fun _ _ => False := by
  have hpos := h.chunked.max_pos
  have hoff := Nat.mod_lt lb hpos
  have hdiv := Nat.div_add_mod' lb v.maxNumInChnk
  have hidx : u32 (lb / v.maxNumInChnk) = lb / v.maxNumInChnk := by
    refine u32_eq (Nat.div_lt_of_lt_mul ?_)
    have := h.chunked.num_le
    rw [Nat.mul_comm]
    omega
  have hi : lb / v.maxNumInChnk * v.maxNumInChnk < v.numElements := by omega
  obtain ⟨c, bs, hc, hnum, hdata, hlies⟩ := h.chunked.chnk _ hi
  have hlen : min (u32 (c.numElements + 2 ^ 32 - lb % v.maxNumInChnk)) (ub - lb) =
      min (v.maxNumInChnk - lb % v.maxNumInChnk) (ub - lb) := by
    have hmax := h.chunked.max_lt
    rw [u32_sub (by omega) (by omega)]
    omega
  rw [printChnk, if_neg hpos.ne', ends_bind, hidx, ends_getChnk_of hc, ends_bind]
  refine (ends_chnkGetData_same hc hdata).imp ?_ fun _ _ => id
  rintro r s1 ⟨hr, hs1⟩
  rw [ends_bind]
  refine (ends_nnChnk (fun hw => (h.nulls hw).same hs1) hi hnum).imp ?_ fun _ _ => id
  rintro nn s2 ⟨hs2, hnn⟩
  simp only [hr, hlen]
  have hu : u32 (lb % v.maxNumInChnk * v.width) = v.width * (lb % v.maxNumInChnk) := by
    rw [Nat.mul_comm]
    exact u32_eq (Nat.lt_of_le_of_lt (Nat.mul_le_mul_left _ hoff.le) h.chunked.size_lt)
  -- each row is that of its element
  have hrows : printRows (printRow libc format v (some bs) nn (lb % v.maxNumInChnk)) 0
      (min (v.maxNumInChnk - lb % v.maxNumInChnk) (ub - lb)) =
      .ok (linesOf (lineOf w F txt) lb
        (lb + min (v.maxNumInChnk - lb % v.maxNumInChnk) (ub - lb))) := by
    refine printRows_ok fun j hj => ?_
    obtain ⟨hplace, hin⟩ := row_in_chnk hnum hub hj
    have hrow := hnn (lb % v.maxNumInChnk) j hin fun hw hq => by
      rw [hplace]
      exact hmeet hw hq j (by omega) (by omega)
    rw [hplace] at hrow
    have hx := hlies _ hin
    rw [hplace] at hx
    rw [Nat.zero_add, printRow_ok hrow fun hb => printElem_of_lies h.chunked.widthOk hu hx
      (h.text _ (by omega) (of_decide_eq_false hb)), lineOf]
    simp only [decide_eq_true_eq]
  have hs := hs1.trans hs2
  obtain ⟨c2, hc2, -, -⟩ := hs.chnk u _ c bs hc hdata
  rw [hrows, ends_bind, ofExcept, ends_pure, ends_bind]
  refine (ends_releaseChnk hc2).imp ?_ fun _ _ => id
  rintro - s3 hs3
  rw [ends_bind]
  refine (ends_releaseNn fun hw => ?_).imp ?_ fun _ _ => id
  · obtain ⟨d, ds, hd, -, hdd, -⟩ := ((h.nulls hw).same (hs.trans hs3)).chunked.chnk
      (lb / v.maxNumInChnk) (by rw [(h.nulls hw).fits.max_eq, (h.nulls hw).fits.num_eq]; exact hi)
    rw [hd]
    simp
  · rintro - s4 hs4
    exact ⟨(hs.trans hs3).trans hs4, rfl, rfl⟩

/-- The turns print the range. -/
theorem Printable.ends_printChnks (hub : ub ≤ v.numElements) {fuel : Nat} (hf : ub - lb ≤ fuel)
    (hmeet : FlagsMeet w v nv F lb ub) :
    Ends (printChnks libc format u v (nnOf w nv) ub fuel lb) s
      (fun r _ => r = linesOf (lineOf w F txt) lb ub) fun _ _ => False := by
  induction fuel generalizing s lb with
  | zero =>
      rw [printChnks, if_pos (by omega), ends_pure, linesOf, Nat.le_zero.mp hf]
      rfl
  | succ fuel ih =>
      rw [printChnks]
      by_cases hdone : ub - lb = 0
      · rw [if_pos hdone, ends_pure, linesOf, hdone]
        rfl
      · rw [if_neg hdone, ends_bind]
        refine (h.ends_printChnk (by omega) hub hmeet).imp ?_ fun _ _ => id
        rintro r t ⟨ht, hr2, hr1⟩
        have hoff := Nat.mod_lt lb h.chunked.max_pos
        have hnext : FlagsMeet w v nv F (lb + r.2) ub := by
          by_cases hend : r.2 = ub - lb
          · intro _ _ k hk
            omega
          · -- the next turn starts with a chunk
            refine flagsMeet_of_dvd ?_
            have hdiv := Nat.div_add_mod' lb v.maxNumInChnk
            have hstart : lb + r.2 = (lb / v.maxNumInChnk + 1) * v.maxNumInChnk := by
              rw [Nat.add_mul, Nat.one_mul]
              omega
            rw [hstart]
            exact Nat.mul_mod_left _ _
        rw [ends_bind]
        refine (ih (h.same ht) (by omega) hnext).imp ?_ fun _ _ => id
        rintro rest - rfl
        rw [ends_pure, hr1, linesOf_append (by omega) (by omega)]

/-- **Printing a range** from the chunks. -/
theorem Printable.ends_vctrPrint (hlb : lb < ub) (hub : ub ≤ v.numElements)
    (hmeet : FlagsMeet w v nv F lb ub) :
    Ends (vctrPrint libc u w format lb ub) s (fun r _ => r = linesOf (lineOf w F txt) lb ub)
      fun _ _ => False := by
  refine ends_pastChecks h.uqid h.chunked.found (fun hw => (h.nulls hw).fits) h.hasFormat hlb hub ?_
  rw [if_neg (by simp [h.isLma])]
  exact h.ends_printChnks hub (Nat.le_refl _) hmeet

end Turns

/-! ## the linear file -/

/-- Vector `u` is in its linear file, element after element, and no one is writing it.
If someone is reading it the file is mapped. -/
structure InFile (s : St) (u : Nat) (v : VctrVal) (X : Nat → List UInt8) : Prop where
  found : s.vctrs u = some v
  widthOk : v.WidthOk
  isLma : v.isLma = true
  writers : v.numWriters = 0
  file : ∃ bs, bs ≠ [] ∧ (∀ i, i < v.numElements → v.Lies bs i (X i)) ∧
    if v.numReaders = 0 then v.x = none ∧ s.fs.read (lmaFile u) = some bs
    else ∃ m, v.x = some m ∧ m.live = true ∧ (s.fs.data m.ino).take m.len = bs

/-- A vector can be printed from its linear file. -/
structure PrintableLma (format : List UInt8) (s : St) (u : Nat) (v : VctrVal) (w : Nat)
    (nv : VctrVal) (X : Nat → List UInt8) : Prop where
  uqid : u ≠ 0
  hasFormat : v.qtype = .TM → format ≠ []
  inFile : InFile s u v X
  fits : 0 < w → NnFits s v w nv

section Lma

variable {txt : Nat → List UInt8}

/-- The mapping that is printed from. -/
theorem InFile.ends_mapForPrint (h : InFile s u v X) :
    Ends (mapForPrint u v) s
      (fun x t => t.vctrs = s.vctrs ∧ ∃ m bs, x = some m ∧ m.live = true ∧ m.len ≠ 0 ∧
        (t.fs.data m.ino).take m.len = bs ∧ ∀ i, i < v.numElements → v.Lies bs i (X i))
      fun _ _ => False := by
  obtain ⟨bs, hne, hlies, hx⟩ := h.file
  by_cases hr : v.numReaders = 0
  · rw [if_pos hr] at hx
    obtain ⟨hnone, hread⟩ := hx
    rw [Fs.read, Option.map_eq_some_iff] at hread
    obtain ⟨ino, hino, hdata⟩ := hread
    rw [mapForPrint, if_neg (by omega), ends_bind, ends_byeIf_neg (not_not.mpr hnone), ends_rsMmap]
    refine ⟨fun hno => ?_, fun ino' hino' => ⟨fun hnil => ?_, fun _ => ?_⟩⟩
    · rw [hino] at hno
      contradiction
    · cases hino.symm.trans hino'
      exact absurd (hdata.symm.trans hnil) hne
    · cases hino.symm.trans hino'
      refine ⟨rfl, _, bs, rfl, rfl, ?_, ?_, hlies⟩
      · rw [hdata]
        exact fun h0 => hne (List.length_eq_zero_iff.mp h0)
      · show (s.fs.data ino).take (s.fs.data ino).length = bs
        rw [List.take_length, hdata]
  · rw [if_neg hr] at hx
    obtain ⟨m, hm, hlive, hdata⟩ := hx
    rw [mapForPrint, if_pos (by omega), ends_pure]
    refine ⟨rfl, m, bs, hm, hlive, fun h0 => hne ?_, hdata, hlies⟩
    rw [← hdata, h0, List.take_zero]

/-- **Printing a range** from the linear file: all elements as they are, null or not. -/
theorem PrintableLma.ends_vctrPrint (h : PrintableLma format s u v w nv X) (hlb : lb < ub)
    (hub : ub ≤ v.numElements) (htxt : ∀ i, lb ≤ i → i < ub →
      printElemLma libc format v (some (X i)) 0 0 = .ok (txt i)) :
    Ends (vctrPrint libc u w format lb ub) s
      (fun r _ => r = linesOf (fun i => txt i ++ [10]) lb ub) fun _ _ => False := by
  refine ends_pastChecks h.uqid h.inFile.found h.fits h.hasFormat hlb hub ?_
  rw [if_pos h.inFile.isLma, vctrPrintLma, ends_bind, ends_getVctr_of h.inFile.found, ends_bind,
    ends_byeIf_neg (by simp [h.inFile.isLma]), ends_bind,
    ends_byeIf_neg (by simp [h.inFile.writers]), ends_bind]
  refine h.inFile.ends_mapForPrint.imp ?_ fun _ _ => id
  rintro _ t ⟨hv, m, bs, rfl, hlive, hlen, hdata, hlies⟩
  have hrows : printRows (fun i => (printElemLma libc format v (some bs) (lb * v.width) i).map
      (· ++ [10])) 0 (ub - lb) = .ok (linesOf (fun i => txt i ++ [10]) lb (lb + (ub - lb))) := by
    refine printRows_ok fun j hj => ?_
    rw [Nat.zero_add, printElemLma_of_lies h.inFile.widthOk (hlies _ (by omega))
      (htxt _ (by omega) (by omega))]
    rfl
  simp only [ends_bind]
  rw [ends_byeIf_neg hlen, ends_get]
  simp only [hlive, if_true, hdata]
  rw [hrows, show lb + (ub - lb) = ub by omega, ofExcept, ends_pure, ends_onlyIf]
  constructor
  · intro _
    rw [munmapX, ends_modVctr_of (by rw [hv]; exact h.inFile.found), ends_pure]
  · intro _
    rw [ends_pure]

end Lma

/-! ## ranges against the whole -/

/-- In state `s`, each range for which `ok` holds is printed as those lines of `L`. -/
def PrintsRanges (libc : Libc) (format : List UInt8) (u w : Nat) (s : St)
    (L : List (List UInt8)) (ok : Nat → Nat → Prop) : Prop :=
  ∀ lb ub, lb < ub → ub ≤ L.length → ok lb ub →
    outcome (vctrPrint libc u w format lb ub) s = .ok ((L.drop lb).take (ub - lb)).flatten

/-- What `printElem` looks at of a vector. -/
theorem printElem_congr {v' : VctrVal} (hq : v'.qtype = v.qtype) (hw : v'.width = v.width)
    {mem : Option (List UInt8)} {k : Nat} :
    printElem libc format v' mem k i = printElem libc format v mem k i := by
  simp only [printElem, hq, hw]

/-- Lines of a list of lines by number. -/
theorem PrintsRanges.of_linesOf {line : Nat → List UInt8} {ok : Nat → Nat → Prop}
    (h : ∀ lb ub, lb < ub → ub ≤ n → ok lb ub →
      outcome (vctrPrint libc u w format lb ub) s = .ok (linesOf line lb ub)) :
    PrintsRanges libc format u w s ((List.range n).map line) ok := by
  intro lb ub hlb hub hok
  rw [List.length_map, List.length_range] at hub
  rw [← linesOf_eq_slice hub]
  exact h lb ub hlb hub hok

/-- **A range is printed as it is in the whole**: from the chunks, where a null is a
pair of quotes, as long as the flags that are read for it are its own; and from the
linear file. Both print a range without nulls alike, of a type that both print alike. -/
theorem vctrPrint_slices (libc : Libc) (format : List UInt8) (u w : Nat) :
    (∀ s v nv X F txt, Printable libc format s u v w nv X F txt →
      ∃ L : List (List UInt8), L.length = v.numElements ∧
        (∀ i, i < v.numElements → IsNull w F i → L[i]? = some nullLine) ∧
        PrintsRanges libc format u w s L (FlagsMeet w v nv F)) ∧
    (∀ t v nv X, PrintableLma format t u v w nv X →
      (∀ i, i < v.numElements → ∃ txt, printElemLma libc format v (some (X i)) 0 0 = .ok txt) →
      ∃ L : List (List UInt8), L.length = v.numElements ∧
        PrintsRanges libc format u w t L fun _ _ => True) ∧
    (∀ s t v v' nv nv' X F txt, Printable libc format s u v w nv X F txt →
      PrintableLma format t u v' w nv' X → v'.qtype = v.qtype → v'.width = v.width →
      v'.numElements = v.numElements → BothPrint v.qtype →
      ∀ lb ub, lb < ub → ub ≤ v.numElements → (∀ i, lb ≤ i → i < ub → ¬ IsNull w F i) →
        FlagsMeet w v nv F lb ub →
        outcome (vctrPrint libc u w format lb ub) t =
          outcome (vctrPrint libc u w format lb ub) s) := by
  refine ⟨fun s v nv X F txt h => ?_, fun t v nv X h hprint => ?_, ?_⟩
  · refine ⟨(List.range v.numElements).map (lineOf w F txt), by simp, fun i hi hnull => ?_, ?_⟩
    · rw [List.getElem?_map, List.getElem?_range hi, Option.map_some, lineOf, if_pos hnull]
    · exact .of_linesOf fun lb ub hlb hub hmeet => (h.ends_vctrPrint hlb hub hmeet).outcome_eq
  · have hget : ∀ i, ∃ txt, i < v.numElements →
        printElemLma libc format v (some (X i)) 0 0 = .ok txt := by
      intro i
      by_cases hi : i < v.numElements
      · obtain ⟨txt, htxt⟩ := hprint i hi
        exact ⟨txt, fun _ => htxt⟩
      · exact ⟨[], fun h => absurd h hi⟩
    choose txt htxt using hget
    refine ⟨(List.range v.numElements).map fun i => txt i ++ [10], by simp, ?_⟩
    exact .of_linesOf fun lb ub hlb hub _ =>
      (h.ends_vctrPrint hlb hub fun i _ hi => htxt i (by omega)).outcome_eq
  · intro s t v v' nv nv' X F txt h ht hq hw hn hboth lb ub hlb hub hnone hmeet
    have htxt : ∀ i, lb ≤ i → i < ub →
        printElemLma libc format v' (some (X i)) 0 0 = .ok (txt i) := by
      intro i hi hi'
      rw [printElemLma_eq (by rw [hq]; exact hboth), printElem_congr hq hw]
      exact h.text i (by omega) (hnone i hi hi')
    have hlines : linesOf (lineOf w F txt) lb ub = linesOf (fun i => txt i ++ [10]) lb ub := by
      refine congrArg List.flatten (List.map_congr_left fun i hi => ?_)
      obtain ⟨hi1, hi2⟩ := List.mem_range'_1.mp hi
      exact if_neg (hnone i hi1 (by omega))
    rw [(h.ends_vctrPrint hlb hub hmeet).outcome_eq, hlines]
    exact (ht.ends_vctrPrint hlb (by omega) htxt).outcome_eq

/-! ## two elements, the second of which is null -/

/-- A C library that prints nothing. -/
def noLibc : Libc := ⟨fun _ => [], fun _ => [], fun _ _ _ => []⟩

/-- Vector 1 has the elements 5 and 6, and vector 2 the flags 1 and 0. -/
def flagged : St :=
  final (vctrPutChunk 2 ⟨some ⟨8, 1 :: List.replicate 63 0⟩, 64, true, false⟩ 2)
    (final (vctrAdd (plainArgs .BL 0))
      (final (vctrPutChunk 1 ⟨some ⟨9, 5 :: 6 :: List.replicate 62 0⟩, 64, true, false⟩ 2)
        (added (plainArgs .I1 0))))

/-- The same with a linear file of vector 1. -/
def flaggedLma : St := final (vctrChnksToLma (fun n => List.replicate n 0) 1) flagged

/-- The entry of either. -/
def pair (q : Qtype) : VctrVal := { (plainArgs q 0).entry with numElements := 2, isEov := true }

def fiveSix (i : Nat) : List UInt8 := [UInt8.ofNat (5 + i)]
def oneZero (i : Nat) : List UInt8 := [UInt8.ofNat (1 - i)]

/-- Its chunk. -/
def pairChnk (q : Qtype) (b : Buf) : ChnkVal := ⟨0, 0, 2, q, false, 0, 64, some b⟩

theorem chunked_pair {q : Qtype} {b : Buf} (hv : s.vctrs u = some (pair q))
    (hc : s.chnks (u, 0) = some (pairChnk q b)) (hw : (pair q).WidthOk) (hq : q ≠ .B1)
    (hone : (pair q).width = 1) (hlen : 2 ≤ b.bytes.length)
    (hX : ∀ off, off < 2 → (b.bytes.drop off).take 1 = X off) : Chunked s u (pair q) X where
  found := hv
  widthOk := hw
  max_pos := show 0 < 64 by decide
  max_lt := show 64 < 2 ^ 32 by decide
  size_lt := by rw [hone]; exact show 1 * 64 < 2 ^ 32 by decide
  num_le := show 2 ≤ 2 ^ 32 * 64 by decide
  chnk i hi := by
    have h0 : i = 0 := by
      have : i * 64 < 2 := hi
      omega
    subst h0
    refine ⟨pairChnk q b, b.bytes, hc, rfl, rfl, fun off hoff => ?_⟩
    have hoff' : off < 2 := hoff
    rw [VctrVal.Lies, if_neg (show ¬ (pair q).qtype = .B1 from hq), hone, Nat.one_mul,
      Nat.zero_mul, Nat.zero_add]
    exact ⟨by omega, hX off hoff'⟩

theorem printable_flagged : Printable noLibc [] flagged 1 (pair .I1) 2 (pair .BL) fiveSix oneZero
    fun i => [UInt8.ofNat (53 + i)] where
  uqid := by decide
  hasFormat := by decide
  isLma := rfl
  chunked := chunked_pair (b := ⟨9, 5 :: 6 :: List.replicate 62 0⟩) (by decide +kernel)
    (by decide +kernel) (by unfold VctrVal.WidthOk; decide) (by decide) rfl (by decide) (by decide)
  nulls _ := by
    refine ⟨⟨by decide +kernel, .inl rfl, by unfold VctrVal.WidthOk; decide, rfl, rfl⟩, ?_⟩
    exact chunked_pair (b := ⟨8, 1 :: List.replicate 63 0⟩) (by decide +kernel)
      (by decide +kernel) (by unfold VctrVal.WidthOk; decide) (by decide) rfl (by decide) (by decide)
  text i hi _ := by
    have hall : ∀ i, i < 2 → printElem noLibc [] (pair .I1) (some (fiveSix i)) 0 0 =
        .ok [UInt8.ofNat (53 + i)] := by decide
    exact hall i hi

theorem printableLma_flagged :
    PrintableLma [] flaggedLma 1 { pair .I1 with isLma := true } 2 (pair .BL) fiveSix where
  uqid := by decide
  hasFormat := by decide
  inFile := by
    refine ⟨by decide +kernel, by unfold VctrVal.WidthOk; decide, rfl, rfl, [5, 6], by decide,
      fun i hi => ?_, ?_⟩
    · have hall : ∀ i, i < 2 → 1 * i + 1 ≤ [(5 : UInt8), 6].length ∧
          ([(5 : UInt8), 6].drop (1 * i)).take 1 = fiveSix i := by decide
      exact hall i hi
    · exact ⟨rfl, by decide +kernel⟩
  fits _ := ⟨by decide +kernel, .inl rfl, by unfold VctrVal.WidthOk; decide, rfl, rfl⟩

/-- The whole of them and its first line, from the chunk and from the file. -/
theorem vctrPrint_slices_two :
    (∃ L : List (List UInt8), L.length = 2 ∧
      (∀ i, i < 2 → IsNull 2 oneZero i → L[i]? = some nullLine) ∧
      PrintsRanges noLibc [] 1 2 flagged L (FlagsMeet 2 (pair .I1) (pair .BL) oneZero)) ∧
    (∃ L : List (List UInt8), L.length = 2 ∧
      PrintsRanges noLibc [] 1 2 flaggedLma L fun _ _ => True) ∧
    outcome (vctrPrint noLibc 1 2 [] 0 1) flaggedLma =
      outcome (vctrPrint noLibc 1 2 [] 0 1) flagged := by
  have hall : ∀ i, i < 2 → printElemLma noLibc [] { pair .I1 with isLma := true }
      (some (fiveSix i)) 0 0 = .ok [UInt8.ofNat (53 + i)] := by decide
  have hnone : ∀ i, i < 1 → ¬ IsNull 2 oneZero i := by decide
  obtain ⟨h1, h2, h3⟩ := vctrPrint_slices noLibc [] 1 2
  exact ⟨h1 _ _ _ _ _ _ printable_flagged,
    h2 _ _ _ _ printableLma_flagged fun i hi => ⟨_, hall i hi⟩,
    h3 _ _ _ _ _ _ _ _ _ printable_flagged printableLma_flagged rfl rfl rfl (by decide) 0 1
      (by decide) (by decide) (fun i _ hi => hnone i hi) (flagsMeet_of_dvd rfl)⟩

/-- Ranges are printed as slices of one list of lines, whichever the form, and a null as
`nullText`. -/
def SlicesAlike (libc : Libc) (format : List UInt8) (u w n : Nat) (null : Nat → Prop)
    (nullText : List UInt8) (s t : St) : Prop :=
  ∃ L : List (List UInt8), L.length = n ∧ (∀ i, i < n → null i → L[i]? = some nullText) ∧
    PrintsRanges libc format u w s L (fun _ _ => True) ∧
    PrintsRanges libc format u w t L fun _ _ => True

/-- A null is not an empty line. Nor are there lines with another for it: the second
element is null in the whole, and 6 where the print starts with it. -/
theorem vctrPrint_slices_fails :
    vctrChnksToLma (fun n => List.replicate n 0) 1 flagged = .ok () flaggedLma ∧
    ¬ SlicesAlike noLibc [] 1 2 2 (IsNull 2 oneZero) [10] flagged flaggedLma ∧
    ¬ ∃ nullText, SlicesAlike noLibc [] 1 2 2 (IsNull 2 oneZero) nullText flagged flaggedLma := by
  have hno : ¬ ∃ nullText, SlicesAlike noLibc [] 1 2 2 (IsNull 2 oneZero) nullText flagged
      flaggedLma := by
    rintro ⟨nullText, L, hlen, -, hs, -⟩
    obtain ⟨x, y, rfl⟩ := List.length_eq_two.mp hlen
    have h02 := hs 0 2 (by decide) (by simp) trivial
    have h01 := hs 0 1 (by decide) (by simp) trivial
    have h12 := hs 1 2 (by decide) (by simp) trivial
    rw [show outcome (vctrPrint noLibc 1 2 [] 0 2) flagged = .ok [53, 10, 34, 34, 10] by
      decide +kernel] at h02
    rw [show outcome (vctrPrint noLibc 1 2 [] 0 1) flagged = .ok [53, 10] by decide +kernel] at h01
    rw [show outcome (vctrPrint noLibc 1 2 [] 1 2) flagged = .ok [54, 10] by decide +kernel] at h12
    simp at h02 h01 h12
    subst h01 h12
    simp at h02
  exact ⟨run_of_outcome_ok (by decide +kernel), fun h => hno ⟨_, h⟩, hno⟩

end QStore.Vctr
