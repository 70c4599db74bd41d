import QStore.Vctr.Contract
import QStore.Vctr.Lma

/-!
# QStore.Vctr.LmaChunks

A chunk read from the linear file against the same chunk read from its own
memory or file.

`vctr_get_chunk_lma` refuses a chunk only if its offset is past the end of the
file. So it hands out an empty chunk that starts at the end, and of a bit vector,
whose chunks it takes to be 1/8 of a byte an element, the wrong bytes.
-/

namespace QStore.Vctr

/-- Two chunks have the same elements. -/
structure SameElems (v : VctrVal) (r r' : GotChunk) : Prop where
  num : r'.num = r.num
  bytes : r'.bytes.take (v.width * r'.num) = r.bytes.take (v.width * r.num)

/-- Chunk `i` is read in `t` as it is in `s`. -/
structure ReadsSame (s t : St) (u : Nat) (v : VctrVal) (i : Nat) : Prop where
  defined : ∀ t', vctrGetChunk u i t ≠ .error .ub t'
  succeeds : (∃ r t', vctrGetChunk u i t = .ok r t') ↔ ∃ r s', vctrGetChunk u i s = .ok r s'
  same : ∀ r s' r' t', vctrGetChunk u i s = .ok r s' → vctrGetChunk u i t = .ok r' t' →
    SameElems v r r'

/-- The file does not end where a chunk read takes a chunk to end. -/
def VctrVal.LmaFits (v : VctrVal) : Prop :=
  if v.qtype = .B1 then v.width * v.numElements < v.maxNumInChnk / 8
  else v.numElements % v.maxNumInChnk ≠ 0

variable {s t : St} {u i : Nat} {v : VctrVal} {D : List UInt8} {blank : Nat → List UInt8}

/-- A vector in chunks, and the same in one file. -/
structure Switched (s t : St) (u : Nat) (v : VctrVal) (D : List UInt8) : Prop where
  held : Held False s u v D
  isLma : v.isLma = false
  linear : Linear t u v D

namespace Switched

variable (h : Switched s t u v D)
include h

theorem ne_nil : D ≠ [] := by
  refine List.ne_nil_of_length_pos ?_
  rw [h.held.shape.len]
  exact Nat.mul_pos h.held.shape.width_pos (Nat.lt_of_le_of_lt (Nat.zero_le _) h.linear.last)

/-- A read from the chunks succeeds inside of the window. -/
theorem of_chunks : (∃ r s', vctrGetChunk u i s = .ok r s') ↔ i ≤ v.maxChnkIdx := by
  constructor
  · rintro ⟨r, s', hr⟩
    by_contra hi
    rw [vctrGetChunk_none h.held.found h.isLma (h.held.outside i fun hin => hi hin.2)] at hr
    contradiction
  · intro hi
    obtain ⟨c, hc, -⟩ := h.held.inside i (by rw [h.linear.first]; exact Nat.zero_le i) hi
    obtain ⟨r, s', hr, -⟩ := (h.held.ends_vctrGetChunk_of h.isLma hc).returns
    exact ⟨r, s', hr⟩

/-- A read from the file succeeds up to its end. -/
theorem of_file : (∃ r t', vctrGetChunk u i t = .ok r t') ↔
    v.lmaSize * i ≤ v.width * v.numElements := by
  have hend := h.linear.ends_vctrGetChunk (i := i) h.ne_nil h.held.shape.width_pos
  rw [h.held.shape.len] at hend
  constructor
  · rintro ⟨r, t', hr⟩
    exact (hend.of_ok hr).1
  · intro hle
    obtain ⟨r, t', hr, -⟩ := (hend.imp (R := fun _ _ => True) (F := fun _ _ => False)
      (fun _ _ _ => trivial) fun e t' he => by omega).returns
    exact ⟨r, t', hr⟩

theorem defined (t' : St) : vctrGetChunk u i t ≠ .error .ub t' := by
  intro hub
  have := ((h.linear.ends_vctrGetChunk (i := i) h.ne_nil h.held.shape.width_pos).of_error hub).1
  contradiction

/-- The number of elements a read from the chunks finds. -/
theorem num_chunks {r : GotChunk} {s' : St} (hr : vctrGetChunk u i s = .ok r s') :
    r.num = min v.maxNumInChnk (v.numElements - i * v.maxNumInChnk) ∧
      r.bytes.take (v.width * r.num) = v.page D i := by
  obtain ⟨-, hpre, hlen⟩ := (h.held.ends_vctrGetChunk h.isLma).of_ok hr
  have hnum := hlen
  rw [h.held.shape.page_length] at hnum
  refine ⟨(Nat.eq_of_mul_eq_mul_left h.held.shape.width_pos hnum).symm, ?_⟩
  rw [← hlen]
  exact (List.prefix_iff_eq_take.mp hpre).symm

/-- Where the chunks of the file are those of the vector, a read finds the same. -/
theorem num_file (hsize : v.lmaSize = v.width * v.maxNumInChnk) {r : GotChunk} {t' : St}
    (hr : vctrGetChunk u i t = .ok r t') :
    r.num = min v.maxNumInChnk (v.numElements - i * v.maxNumInChnk) ∧
      r.bytes.take (v.width * r.num) = v.page D i := by
  obtain ⟨-, hnum, hbytes⟩ :=
    (h.linear.ends_vctrGetChunk h.ne_nil h.held.shape.width_pos).of_ok hr
  have hpage : r.bytes = v.page D i := by
    rw [hbytes, hsize, VctrVal.page, page, Nat.mul_comm i]
    have hlen := List.length_drop (i := v.width * v.maxNumInChnk * i) (l := D)
    rcases Nat.le_total (D.length - v.width * v.maxNumInChnk * i) (v.width * v.maxNumInChnk)
      with hle | hle
    · rw [Nat.min_eq_left hle, List.take_of_length_le (by omega), List.take_of_length_le (by omega)]
    · rw [Nat.min_eq_right hle]
  have hn : r.num = min v.maxNumInChnk (v.numElements - i * v.maxNumInChnk) := by
    have hrest : D.length - v.width * v.maxNumInChnk * i =
        v.width * (v.numElements - i * v.maxNumInChnk) := by
      rw [h.held.shape.len, Nat.mul_sub, Nat.mul_assoc, Nat.mul_comm i]
    rw [hnum, hsize, hrest, Nat.mul_min_mul_left, Nat.mul_div_cancel_left _ h.held.shape.width_pos,
      Nat.min_comm]
  refine ⟨hn, ?_⟩
  rw [hn, hpage, ← h.held.shape.page_length, List.take_length]

/-- The number of elements of the last chunk, by division. -/
theorem mod_eq_zero_iff : v.numElements % v.maxNumInChnk = 0 ↔
    v.numElements = (v.maxChnkIdx + 1) * v.maxNumInChnk := by
  have hlast := h.linear.last
  have hhi := h.held.shape.hi
  constructor
  · intro hmod
    obtain ⟨q, hq⟩ := Nat.dvd_of_mod_eq_zero hmod
    rw [Nat.mul_comm] at hq
    rw [hq] at hlast hhi
    have h1 := Nat.lt_of_mul_lt_mul_right hlast
    have h2 := Nat.le_of_mul_le_mul_right hhi h.held.shape.max_pos
    rw [hq, show q = v.maxChnkIdx + 1 by omega]
  · intro heq
    rw [heq]
    exact Nat.mul_mod_left _ _

theorem reads_elems (hq : v.qtype ≠ .B1) :
    (∀ i, ReadsSame s t u v i) ↔ v.numElements % v.maxNumInChnk ≠ 0 := by
  have hsize : v.lmaSize = v.width * v.maxNumInChnk := by
    rw [VctrVal.lmaSize, if_neg hq, h.held.shape.chnkSize_eq]
  have hfile : ∀ i, (∃ r t', vctrGetChunk u i t = .ok r t') ↔
      i * v.maxNumInChnk ≤ v.numElements := by
    intro i
    rw [h.of_file, hsize, Nat.mul_assoc, Nat.mul_comm v.maxNumInChnk]
    exact Nat.mul_le_mul_left_iff h.held.shape.width_pos
  rw [ne_eq, h.mod_eq_zero_iff]
  have hlast := h.linear.last
  have hhi := h.held.shape.hi
  constructor
  · intro hall heq
    -- the chunk after the last starts where the file ends
    have hpast := (hall (v.maxChnkIdx + 1)).succeeds.mp ((hfile _).mpr heq.ge)
    have := h.of_chunks.mp hpast
    omega
  · intro hne i
    refine ⟨h.defined, ?_, ?_⟩
    · rw [hfile, h.of_chunks]
      constructor
      · intro hi
        by_contra hgt
        have := Nat.mul_le_mul_right v.maxNumInChnk (show v.maxChnkIdx + 1 ≤ i by omega)
        omega
      · intro hi
        have := Nat.mul_le_mul_right v.maxNumInChnk hi
        omega
    · intro r s' r' t' hr hr'
      obtain ⟨hn, hb⟩ := h.num_chunks hr
      obtain ⟨hn', hb'⟩ := h.num_file hsize hr'
      exact ⟨hn'.trans hn.symm, hb'.trans hb.symm⟩

theorem reads_bits (hq : v.qtype = .B1) :
    (∀ i, ReadsSame s t u v i) ↔ v.width * v.numElements < v.maxNumInChnk / 8 := by
  have hsize : v.lmaSize = v.maxNumInChnk / 8 := by
    rw [VctrVal.lmaSize, if_pos hq]
  have hw := h.held.shape.width_pos
  have hmax := h.held.shape.max_pos
  have hlast := h.linear.last
  have hfirst := h.linear.ends_vctrGetChunk (i := 0) h.ne_nil hw
  rw [hsize, Nat.mul_zero, Nat.sub_zero, List.drop_zero, h.held.shape.len] at hfirst
  constructor
  · intro hall
    by_contra hge
    obtain ⟨r, s', hr⟩ := h.of_chunks.mpr (Nat.zero_le v.maxChnkIdx)
    obtain ⟨r', t', hr'⟩ := h.of_file.mpr (show v.lmaSize * 0 ≤ _ from Nat.zero_le _)
    have hnum := ((hall 0).same r s' r' t' hr hr').num
    rw [(hfirst.of_ok hr').2.1, (h.num_chunks hr).1, Nat.min_eq_right (Nat.le_of_not_lt hge),
      Nat.zero_mul, Nat.sub_zero] at hnum
    -- the first chunk would be all there is, and end at the end of the file
    have hle : v.width * min v.maxNumInChnk v.numElements ≤ v.maxNumInChnk / 8 := by
      rw [← hnum]
      exact Nat.mul_div_le _ _
    have hself : min v.maxNumInChnk v.numElements ≤
        v.width * min v.maxNumInChnk v.numElements := Nat.le_mul_of_pos_left _ hw
    have hmin : min v.maxNumInChnk v.numElements = v.numElements := by omega
    rw [hmin] at hle hself
    have hidx : v.maxChnkIdx = 0 := by
      by_contra h0
      have := Nat.le_mul_of_pos_left v.maxNumInChnk (Nat.pos_of_ne_zero h0)
      omega
    have hpast := (hall 1).succeeds.mp (h.of_file.mpr (by rw [hsize]; omega))
    have := h.of_chunks.mp hpast
    omega
  · intro hlt i
    have hself : v.numElements ≤ v.width * v.numElements := Nat.le_mul_of_pos_left _ hw
    have hidx : v.maxChnkIdx = 0 := by
      by_contra h0
      have := Nat.le_mul_of_pos_left v.maxNumInChnk (Nat.pos_of_ne_zero h0)
      omega
    refine ⟨h.defined, ?_, ?_⟩
    · rw [h.of_file, h.of_chunks, hidx, hsize]
      constructor
      · intro hi
        by_contra hpos
        have := Nat.le_mul_of_pos_right (v.maxNumInChnk / 8) (show 0 < i by omega)
        omega
      · intro hi
        rw [Nat.le_zero.mp hi]
        exact Nat.zero_le _
    · intro r s' r' t' hr hr'
      have hi := h.of_chunks.mp ⟨r, s', hr⟩
      rw [hidx, Nat.le_zero] at hi
      subst hi
      obtain ⟨hn, hb⟩ := h.num_chunks hr
      obtain ⟨-, hn', hb'⟩ := hfirst.of_ok hr'
      rw [Nat.zero_mul, Nat.sub_zero, Nat.min_eq_right (by omega)] at hn
      rw [Nat.min_eq_left hlt.le, Nat.mul_div_cancel_left _ hw] at hn'
      have hlen := h.held.shape.len
      have hpage : v.page D 0 = D := by
        rw [VctrVal.page, page, Nat.zero_mul, List.drop_zero, List.take_of_length_le]
        rw [hlen]
        exact Nat.mul_le_mul_left _ (by omega)
      have hall : r'.bytes = D := by
        rw [hb', Nat.min_eq_left hlt.le, List.take_of_length_le hlen.le]
      refine ⟨hn'.trans hn.symm, ?_⟩
      rw [hb, hpage, hall, hn', List.take_of_length_le hlen.le]

end Switched

/-- **Chunk reads** of a vector do not change when it gets a linear file, exactly
where the file does not end at the end of a chunk. -/
theorem chnksToLma_reads_iff (h : Held False s u v D) (hl : v.isLma = false)
    (hnames : v.maxChnkIdx + 1 < 2 ^ 24) (hblank : ∀ n, (blank n).length = n)
    (hrun : vctrChnksToLma blank u s = .ok () t) :
    (∀ i, ReadsSame s t u v i) ↔ v.LmaFits := by
  have hsw : Switched s t u v D := ⟨h, hl, (h.ends_vctrChnksToLma hl hnames hblank).of_ok hrun⟩
  rw [VctrVal.LmaFits]
  split
  · next hq => exact hsw.reads_bits hq
  · next hq => exact hsw.reads_elems hq

/-- The bytes 7 in a block of one chunk, to be taken over. -/
def sevens : Cmem := ⟨some ⟨9, List.replicate 64 7⟩, 64, true, false⟩

/-- A vector of one full chunk. -/
def oneSevens : St := final (Op.run 1 (.putChunk sevens 64)) (added (plainArgs .I1 0))

theorem isSome_oneSevens : (oneSevens.vctrs 1).isSome = true := by decide +kernel

/-- A full chunk and one element. -/
theorem chnksToLma_reads_sixtyFive : ∃ s t v, s.vctrs 1 = some v ∧
    vctrChnksToLma (fun n => List.replicate n 0) 1 s = .ok () t ∧ ∀ i, ReadsSame s t 1 v i := by
  have h0 := run_added (a := plainArgs .I1 0) (P := fun s v o => o.Fair v ∧ o.Safe s 1 v) (by decide)
  have h1 := h0.ok (o := .putChunk sevens 64) rfl
    ⟨⟨⟨_, rfl, by decide⟩, show 0 + 64 ≤ lmaIdx * 64 by decide⟩, fun hm => absurd rfl hm⟩
    (run_of_outcome_ok (by decide +kernel))
  have h2 := h1.ok (o := .putChunk sevens 1) (Option.some_get isSome_oneSevens).symm
    ⟨⟨⟨_, rfl, by decide⟩, by decide +kernel⟩, fun hm => absurd (by decide +kernel) hm⟩
    (run_of_outcome_ok (by decide +kernel))
  obtain ⟨v, hg⟩ := run_grown h2 (by decide) (by decide) fun s v o _ _ ho => ho
  have hfields := congrArg (Option.map fun v => (v.maxChnkIdx, v.qtype, v.numElements,
    v.maxNumInChnk)) hg.vec.found
  rw [show Option.map _ _ = some (1, .I1, 65, 64) by decide +kernel, Option.map_some,
    Option.some.injEq, Prod.mk.injEq, Prod.mk.injEq, Prod.mk.injEq] at hfields
  obtain ⟨hidx, hq, hnum, hmax⟩ := hfields
  have hrun : vctrChnksToLma (fun n => List.replicate n 0) 1 _ = .ok () _ :=
    run_of_outcome_ok (s := final (Op.run 1 (.putChunk sevens 1)) oneSevens)
      (by decide +kernel)
  refine ⟨_, _, v, hg.vec.found, hrun, (chnksToLma_reads_iff (hg.held (by decide +kernel)) hg.isLma
    (by rw [← hidx]; decide) (fun n => List.length_replicate) hrun).mpr ?_⟩
  rw [VctrVal.LmaFits, ← hq, if_neg (by decide), ← hnum, ← hmax]
  decide

/-- A vector of one full chunk, finished. -/
def fullChunk : St :=
  final (vctrEov 1) (final (vctrPutChunk 1 sevens 64) (added (plainArgs .I1 0)))

/-- The file of one full chunk has a second one, which is empty. -/
theorem chnksToLma_reads_fails : ∃ t v, fullChunk.vctrs 1 = some v ∧ v.isEov = true ∧
    vctrChnksToLma (fun n => List.replicate n 0) 1 fullChunk = .ok () t ∧
    ¬ ∀ i, ReadsSame fullChunk t 1 v i := by
  refine ⟨_, _, rfl, rfl, run_of_outcome_ok (by decide +kernel), fun hall => ?_⟩
  obtain ⟨r, s', hr⟩ := (hall 1).succeeds.mp ⟨_, _, run_of_outcome_ok
    (a := ⟨65, [], 0, 0⟩) (by decide +kernel)⟩
  rw [show vctrGetChunk 1 1 fullChunk = .error (.bye (-1)) _ from
    run_of_outcome_error (by decide +kernel)] at hr
  contradiction

end QStore.Vctr
