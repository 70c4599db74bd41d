import QStore.Operators.LVector
import QStore.Lib.Pull
import QStore.Lib.Matches

/-!
# QStore.Operators.Isby

`isby` (`GROUPBY/lua/isby.lua` and its kernel `isby.tmpl`): every row of the destination takes
the value of the first row of the source with its link, or null.

```
source        1 a   1 b   4 c   7 d        destination   1 1 3 7 8
                                           values        a a - d -
```

The kernel stops where the chunk of either side ends. The generator goes on with the next
chunk of the source only when it has passed the whole of the last, and to pass a row takes a
greater link of the destination: what is left of the source is all that matters for what is
left of the destination.
-/

namespace QStore.Operators

variable {κ β : Type} [LinearOrder κ]

/-- The kernel, on a chunk of the source, row by row, and one of the destination; an entry of
the output is a value with its `nn`. -/
def isbyKernel (zero : β) (src : List (κ × β)) (dstLnk : List κ) (srcIdx dstIdx : Nat)
    (dst : List (β × Bool)) : Nat × Nat × List (β × Bool) :=
  if h : srcIdx < src.length ∧ dstIdx < dstLnk.length then
    if src[srcIdx].1 = dstLnk[dstIdx] then
      isbyKernel zero src dstLnk srcIdx (dstIdx + 1) (dst.set dstIdx (src[srcIdx].2, true))
    else if src[srcIdx].1 < dstLnk[dstIdx] then
      isbyKernel zero src dstLnk (srcIdx + 1) dstIdx dst
    else isbyKernel zero src dstLnk srcIdx (dstIdx + 1) (dst.set dstIdx (zero, false))
  else (srcIdx, dstIdx, dst)
termination_by (src.length - srcIdx) + (dstLnk.length - dstIdx)

/-- The three vectors, evaluated. The source columns go together, as the generator asserts of
each two chunks, and the links ascend. -/
structure Isby (κ β : Type) [LinearOrder κ] where
  srcVal : LVector β
  srcLnk : LVector κ
  dstLnk : LVector κ
  length_eq : srcVal.elems.length = srcLnk.elems.length
  size_eq : srcVal.maxNumInChunk = srcLnk.maxNumInChunk
  srcSorted : srcLnk.elems.Pairwise (· ≤ ·)
  dstSorted : dstLnk.elems.Pairwise (· ≤ ·)

/-- What the generator keeps between calls. -/
structure IsbyState where
  srcChunkIdx : Nat
  srcIdx : Nat
  dstChunkIdx : Nat

namespace Isby

variable (a : Isby κ β)

/-- `while ( true )` of the generator, for at most `fuel` turns. -/
def loop (zero : β) (dl : List κ) :
    Nat → Nat → Nat → Nat → List (β × Bool) → Option (List (β × Bool) × Nat × Nat)
  | 0, _, _, _, _ => none
  | fuel + 1, srcChunkIdx, srcIdx, dstIdx, dst =>
    let sl := a.srcLnk.getChunk srcChunkIdx
    let sv := a.srcVal.getChunk srcChunkIdx
    if sl.length ≠ sv.length then none
    else if sl.length = 0 then some (dst, srcChunkIdx, srcIdx)
    else
      let r := isbyKernel zero (sl.zip sv) dl srcIdx dstIdx dst
      let next := if r.1 = sl.length then (srcChunkIdx + 1, 0) else (srcChunkIdx, r.1)
      if r.2.1 = dl.length then some (r.2.2, next)
      else loop zero dl fuel next.1 next.2 r.2.1 r.2.2

/-- `gen` -/
def gen (zero : β) (fuel : Nat) : Gen IsbyState (β × Bool) := fun s chunkNum =>
  if chunkNum ≠ s.dstChunkIdx then none
  else
    let dl := a.dstLnk.getChunk s.dstChunkIdx
    if dl.length = 0 then some ([], s)
    else
      (a.loop zero dl fuel s.srcChunkIdx s.srcIdx 0
        (List.replicate a.dstLnk.maxNumInChunk (zero, false))).map fun r =>
          (r.1.take dl.length, ⟨r.2.1, r.2.2, s.dstChunkIdx + 1⟩)

def start : IsbyState := ⟨0, 0, 0⟩

/-- The rows of the source. -/
def rows : List (κ × β) := a.srcLnk.elems.zip a.srcVal.elems

end Isby

/-- The value of the first row with the link, or null. -/
def firstOf (zero : β) (rows : List (κ × β)) (l : κ) : β × Bool :=
  match valuesAt l rows with
  | [] => (zero, false)
  | v :: _ => (v, true)

/-! ## The first row with a link -/

variable {zero : β} {src rest rows : List (κ × β)} {dstLnk T : List κ} {si di fuel : Nat}
  {dst : List (β × Bool)} {l : κ} {r : κ × β}

theorem firstOf_cons_self : firstOf zero (r :: rows) r.1 = (r.2, true) := by
  rw [firstOf, show r = (r.1, r.2) from rfl, valuesAt_cons_self]

theorem firstOf_cons_of_ne (h : r.1 ≠ l) : firstOf zero (r :: rows) l = firstOf zero rows l := by
  rw [firstOf, firstOf, valuesAt_cons_of_ne h]

theorem firstOf_eq_null (h : ∀ r ∈ rows, r.1 ≠ l) : firstOf zero rows l = (zero, false) := by
  rw [firstOf, valuesAt_eq_nil_iff.mpr h]

/-! ## The kernel -/

/-- What the kernel does, when `rest` is the rest of the source and `T` that of the
destination. -/
structure IsbyDone (zero : β) (src rest : List (κ × β)) (dstLnk T : List κ) (si di : Nat)
    (dst : List (β × Bool)) (r : Nat × Nat × List (β × Bool)) : Prop where
  src_le : si ≤ r.1 ∧ r.1 ≤ src.length
  dst_le : di ≤ r.2.1 ∧ r.2.1 ≤ dstLnk.length
  length : r.2.2.length = dst.length
  cells : ∀ d, r.2.2[d]? =
    if di ≤ d ∧ d < r.2.1 then dstLnk[d]?.map (firstOf zero (src.drop si ++ rest)) else dst[d]?
  left : ∀ l ∈ dstLnk.drop r.2.1 ++ T,
    firstOf zero (src.drop r.1 ++ rest) l = firstOf zero (src.drop si ++ rest) l
  ended : r.1 = src.length ∨ r.2.1 = dstLnk.length

/-- A row of the destination that is at the front has been written. -/
theorem IsbyDone.of_dst {c : β × Bool} {r : Nat × Nat × List (β × Bool)} (hd : di < dstLnk.length)
    (hlen : dstLnk.length ≤ dst.length)
    (hc : firstOf zero (src.drop si ++ rest) dstLnk[di] = c)
    (h : IsbyDone zero src rest dstLnk T si (di + 1) (dst.set di c) r) :
    IsbyDone zero src rest dstLnk T si di dst r where
  src_le := h.src_le
  dst_le := ⟨by have := h.dst_le; omega, h.dst_le.2⟩
  length := by simpa using h.length
  cells d := by
    have hdi := h.dst_le.1
    rw [h.cells d]
    by_cases hdd : d = di
    · subst hdd
      rw [if_neg (by omega), if_pos (by omega), List.getElem?_set_self (by omega),
        List.getElem?_eq_getElem hd, Option.map_some, hc]
    · rw [List.getElem?_set_ne (Ne.symm hdd)]
      by_cases hin : di ≤ d ∧ d < r.2.1
      · rw [if_pos (by omega), if_pos hin]
      · rw [if_neg (by omega), if_neg hin]
  left := h.left
  ended := h.ended

/-- A row of the source with a link smaller than all that is left has been passed. -/
theorem IsbyDone.of_src {r : Nat × Nat × List (β × Bool)} (hs : si < src.length)
    (hne : ∀ l ∈ dstLnk.drop di ++ T, src[si].1 ≠ l)
    (h : IsbyDone zero src rest dstLnk T (si + 1) di dst r) :
    IsbyDone zero src rest dstLnk T si di dst r := by
  have hpass : ∀ l ∈ dstLnk.drop di ++ T, firstOf zero (src.drop si ++ rest) l =
      firstOf zero (src.drop (si + 1) ++ rest) l := by
    intro l hl
    rw [List.drop_eq_getElem_cons hs, List.cons_append, firstOf_cons_of_ne (hne l hl)]
  constructor
  · exact ⟨by have := h.src_le; omega, h.src_le.2⟩
  · exact h.dst_le
  · exact h.length
  · intro d
    rw [h.cells d]
    by_cases hin : di ≤ d ∧ d < r.2.1
    · rw [if_pos hin, if_pos hin]
      cases hl : dstLnk[d]? with
      | none => rfl
      | some l =>
          have hmem : l ∈ dstLnk.drop di := by
            apply List.mem_of_getElem? (i := d - di)
            rw [List.getElem?_drop, Nat.add_sub_cancel' hin.1, hl]
          rw [Option.map_some, Option.map_some, hpass l (List.mem_append_left _ hmem)]
    · rw [if_neg hin, if_neg hin]
  · intro l hl
    rw [h.left l hl]
    apply (hpass l _).symm
    have hle := h.dst_le.1
    cases List.mem_append.mp hl with
    | inl hl => exact List.mem_append_left _ (List.drop_subset_drop_left dstLnk hle hl)
    | inr hl => exact List.mem_append_right _ hl
  · exact h.ended

theorem isbyKernel_done (zero : β) (dst : List (β × Bool))
    (hsrc : ((src.drop si ++ rest).map Prod.fst).Pairwise (· ≤ ·))
    (hdst : (dstLnk.drop di ++ T).Pairwise (· ≤ ·)) (hsi : si ≤ src.length)
    (hdi : di ≤ dstLnk.length) (hlen : dstLnk.length ≤ dst.length) :
    IsbyDone zero src rest dstLnk T si di dst (isbyKernel zero src dstLnk si di dst) := by
  fun_induction isbyKernel zero src dstLnk si di dst with
  | case1 si di dst h heq ih =>
      rw [List.drop_eq_getElem_cons h.2, List.cons_append, List.pairwise_cons] at hdst
      refine (ih hsrc hdst.2 hsi h.2 (by simpa using hlen)).of_dst h.2 hlen ?_
      rw [List.drop_eq_getElem_cons h.1, List.cons_append, ← heq, firstOf_cons_self]
  | case2 si di dst h hne hlt ih =>
      have hsrc' : ((src.drop (si + 1) ++ rest).map Prod.fst).Pairwise (· ≤ ·) := by
        rw [List.drop_eq_getElem_cons h.1, List.cons_append, List.map_cons,
          List.pairwise_cons] at hsrc
        exact hsrc.2
      refine (ih hsrc' hdst h.1 hdi hlen).of_src h.1 fun l hl => ne_of_lt ?_
      rw [List.drop_eq_getElem_cons h.2, List.cons_append] at hl hdst
      cases List.mem_cons.mp hl with
      | inl heq => exact heq ▸ hlt
      | inr hmem => exact lt_of_lt_of_le hlt ((List.pairwise_cons.mp hdst).1 l hmem)
  | case3 si di dst h hne hnlt ih =>
      have hgt : dstLnk[di] < src[si].1 := lt_of_le_of_ne (not_lt.mp hnlt) (Ne.symm hne)
      have hdst' : (dstLnk.drop (di + 1) ++ T).Pairwise (· ≤ ·) := by
        rw [List.drop_eq_getElem_cons h.2, List.cons_append, List.pairwise_cons] at hdst
        exact hdst.2
      refine (ih hsrc hdst' hsi h.2 (by simpa using hlen)).of_dst h.2 hlen ?_
      refine firstOf_eq_null fun r hr => ne_of_gt ?_
      rw [List.drop_eq_getElem_cons h.1, List.cons_append] at hr hsrc
      rw [List.map_cons, List.pairwise_cons] at hsrc
      cases List.mem_cons.mp hr with
      | inl heq => exact heq ▸ hgt
      | inr hmem => exact lt_of_lt_of_le hgt (hsrc.1 r.1 (List.mem_map_of_mem hmem))
  | case4 si di dst h =>
      constructor
      · exact ⟨Nat.le_refl _, hsi⟩
      · exact ⟨Nat.le_refl _, hdi⟩
      · rfl
      · intro d
        rw [if_neg (by simp only; omega)]
      · exact fun _ _ => rfl
      · simp only
        omega

/-! ## The turns of a call -/

namespace Isby

variable {a : Isby κ β} {j k sci : Nat}

/-- The rows of a chunk of the source. -/
def chunk (a : Isby κ β) (j : Nat) : List (κ × β) :=
  (a.srcLnk.getChunk j).zip (a.srcVal.getChunk j)

theorem chunk_eq : a.chunk j = page a.srcLnk.maxNumInChunk a.rows j := by
  simp only [chunk, LVector.getChunk, a.size_eq, page, rows, List.zip, List.drop_zipWith,
    List.take_zipWith]

theorem length_rows : a.rows.length = a.srcLnk.elems.length := by
  rw [rows, List.length_zip, a.length_eq, Nat.min_self]

theorem rows_sorted : (a.rows.map Prod.fst).Pairwise (· ≤ ·) := by
  rw [rows, List.map_fst_zip (Nat.le_of_eq a.length_eq.symm)]
  exact a.srcSorted

theorem length_chunk : (a.srcLnk.getChunk j).length = (a.chunk j).length ∧
    (a.srcVal.getChunk j).length = (a.chunk j).length := by
  rw [chunk, List.length_zip, LVector.length_getChunk, LVector.length_getChunk, a.size_eq,
    a.length_eq, Nat.min_self]
  exact ⟨rfl, rfl⟩

/-- What is left of the source from row `si` of a chunk on. -/
def remaining (a : Isby κ β) (sci si : Nat) : List (κ × β) :=
  (a.chunk sci).drop si ++ a.rows.drop ((sci + 1) * a.srcLnk.maxNumInChunk)

theorem remaining_eq (h : si ≤ (a.chunk sci).length) :
    a.remaining sci si = a.rows.drop (sci * a.srcLnk.maxNumInChunk + si) := by
  rw [remaining, ← List.drop_append_of_le_length h, chunk_eq, page_append_drop, List.drop_drop]

theorem remaining_sorted (h : si ≤ (a.chunk sci).length) :
    ((a.remaining sci si).map Prod.fst).Pairwise (· ≤ ·) := by
  rw [remaining_eq h, List.map_drop]
  exact a.rows_sorted.sublist (List.drop_sublist _ _)

/-- The end of a chunk is the start of the next. -/
theorem remaining_next :
    a.remaining sci (a.chunk sci).length = a.remaining (sci + 1) 0 := by
  rw [remaining_eq (Nat.zero_le _), remaining, List.drop_length, List.nil_append]
  rfl

theorem remaining_nil (h : (a.chunk sci).length = 0) : a.remaining sci si = [] := by
  have hlen := length_page (p := a.srcLnk.maxNumInChunk) (D := a.rows) (i := sci)
  have hpos := a.srcLnk.pos
  rw [← chunk_eq, h] at hlen
  rw [remaining, List.eq_nil_of_length_eq_zero h, List.drop_nil, List.nil_append,
    List.drop_eq_nil_iff, Nat.add_mul]
  omega

/-- The links of chunk `k` of the destination. -/
def links (a : Isby κ β) (k : Nat) : List κ := a.dstLnk.getChunk k

/-- Where a call for chunk `k` has come to: what is left of the source is as good as all of it
for what is left of the destination, and what is before `di` has been written. -/
structure At (zero : β) (a : Isby κ β) (k sci si di : Nat) (dst : List (β × Bool)) : Prop where
  sci_le : sci ≤ a.rows.length
  si_le : si ≤ (a.chunk sci).length
  di_le : di ≤ (a.links k).length
  length : dst.length = a.dstLnk.maxNumInChunk
  left : ∀ l ∈ (a.links k).drop di ++ a.dstLnk.elems.drop ((k + 1) * a.dstLnk.maxNumInChunk),
    firstOf zero (a.remaining sci si) l = firstOf zero a.rows l
  cells : ∀ d, d < di → dst[d]? = (a.links k)[d]?.map (firstOf zero a.rows)
  nulls : ∀ d, di ≤ d → d < a.dstLnk.maxNumInChunk → dst[d]? = some (zero, false)

theorem length_links_le : (a.links k).length ≤ a.dstLnk.maxNumInChunk := by
  rw [links, LVector.length_getChunk]
  omega

theorem links_sorted (di : Nat) : ((a.links k).drop di ++
    a.dstLnk.elems.drop ((k + 1) * a.dstLnk.maxNumInChunk)).Pairwise (· ≤ ·) := by
  by_cases h : di ≤ (a.links k).length
  · rw [← List.drop_append_of_le_length h, links, LVector.getChunk, page_append_drop,
      List.drop_drop]
    exact a.dstSorted.sublist (List.drop_sublist _ _)
  · rw [List.drop_eq_nil_of_le (by omega), List.nil_append]
    exact a.dstSorted.sublist (List.drop_sublist _ _)

/-- Without a source, null is what all of the rest has to be. -/
theorem At.done_of_empty (h : At zero a k sci si di dst) (hnil : (a.chunk sci).length = 0) :
    At zero a k sci si (a.links k).length dst where
  sci_le := h.sci_le
  si_le := h.si_le
  di_le := Nat.le_refl _
  length := h.length
  left l hl := h.left l <| by
    rw [List.drop_length, List.nil_append] at hl
    exact List.mem_append_right _ hl
  cells d hd := by
    by_cases hdi : d < di
    · exact h.cells d hdi
    · have hlinks := length_links_le (a := a) (k := k)
      have hmem : (a.links k)[d] ∈ (a.links k).drop di := by
        apply List.mem_of_getElem? (i := d - di)
        rw [List.getElem?_drop, Nat.add_sub_cancel' (by omega), List.getElem?_eq_getElem hd]
      have hfirst := h.left _ (List.mem_append_left _ hmem)
      rw [remaining_nil hnil, firstOf_eq_null (by simp)] at hfirst
      rw [h.nulls d (by omega) (by omega), List.getElem?_eq_getElem hd, Option.map_some, ← hfirst]
  nulls d hd := h.nulls d (Nat.le_trans h.di_le hd)

/-- One call of the kernel. -/
theorem At.kernel (h : At zero a k sci si di dst) (hsci : 0 < (a.chunk sci).length)
    {r : Nat × Nat × List (β × Bool)}
    (hr : IsbyDone zero (a.chunk sci) (a.rows.drop ((sci + 1) * a.srcLnk.maxNumInChunk))
      (a.links k) (a.dstLnk.elems.drop ((k + 1) * a.dstLnk.maxNumInChunk)) si di dst r) :
    At zero a k (if r.1 = (a.chunk sci).length then sci + 1 else sci)
      (if r.1 = (a.chunk sci).length then 0 else r.1) r.2.1 r.2.2 := by
  have hrest : a.remaining (if r.1 = (a.chunk sci).length then sci + 1 else sci)
      (if r.1 = (a.chunk sci).length then 0 else r.1) = a.remaining sci r.1 := by
    split
    · next heq => rw [heq, remaining_next]
    · rfl
  have hlinks := length_links_le (a := a) (k := k)
  have hdst := hr.dst_le
  constructor
  · have hlen := length_page (p := a.srcLnk.maxNumInChunk) (D := a.rows) (i := sci)
    have hmul := Nat.le_mul_of_pos_right sci a.srcLnk.pos
    rw [← chunk_eq] at hlen
    split <;> omega
  · split
    · exact Nat.zero_le _
    · exact hr.src_le.2
  · exact hdst.2
  · rw [hr.length, h.length]
  · intro l hl
    rw [hrest]
    refine (hr.left l hl).trans (h.left l ?_)
    cases List.mem_append.mp hl with
    | inl hl => exact List.mem_append_left _ (List.drop_subset_drop_left _ hdst.1 hl)
    | inr hl => exact List.mem_append_right _ hl
  · intro d hd
    rw [hr.cells d]
    by_cases hdi : di ≤ d
    · rw [if_pos ⟨hdi, hd⟩]
      have hlt : d < (a.links k).length := by omega
      have hmem : (a.links k)[d] ∈ (a.links k).drop di := by
        apply List.mem_of_getElem? (i := d - di)
        rw [List.getElem?_drop, Nat.add_sub_cancel' hdi, List.getElem?_eq_getElem hlt]
      rw [List.getElem?_eq_getElem hlt, Option.map_some, Option.map_some]
      exact congrArg some (h.left _ (List.mem_append_left _ hmem))
    · rw [if_neg (by omega), h.cells d (by omega)]
  · intro d hd hdn
    rw [hr.cells d, if_neg (by omega)]
    exact h.nulls d (by omega) hdn

/-- The turns of a call come to an end, with the whole chunk written. -/
theorem At.loop (h : At zero a k sci si di dst) (hdi : di < (a.links k).length)
    (hfuel : a.rows.length < fuel + sci) :
    ∃ r, a.loop zero (a.links k) fuel sci si di dst = some r ∧
      At zero a k r.2.1 r.2.2 (a.links k).length r.1 := by
  induction fuel generalizing sci si di dst with
  | zero =>
      have := h.sci_le
      omega
  | succ fuel ih =>
      obtain ⟨hsl, hsv⟩ := length_chunk (a := a) (j := sci)
      rw [Isby.loop]
      by_cases hnil : (a.chunk sci).length = 0
      · refine ⟨(dst, sci, si), ?_, h.done_of_empty hnil⟩
        simp only [hsl, hsv, hnil, ne_eq, not_true, if_false, if_true]
      · have hr := isbyKernel_done zero dst
          (remaining_sorted h.si_le) (links_sorted di) h.si_le h.di_le
          (by have := length_links_le (a := a) (k := k); have := h.length; omega)
        have hk := h.kernel (by omega) hr
        have hended := hr.ended
        simp only [hsl, hsv, hnil, ne_eq, not_true, if_false]
        rw [← chunk]
        generalize isbyKernel zero (a.chunk sci) (a.links k) si di dst = r at hk hended
        have hnext : (if r.1 = (a.chunk sci).length then (sci + 1, 0) else (sci, r.1)) =
            ((if r.1 = (a.chunk sci).length then sci + 1 else sci),
              if r.1 = (a.chunk sci).length then 0 else r.1) := by
          split <;> rfl
        rw [hnext]
        by_cases hend : r.2.1 = (a.links k).length
        · rw [if_pos hend]
          exact ⟨_, rfl, hend ▸ hk⟩
        · rw [if_neg hend]
          have hlt : r.2.1 < (a.links k).length := Nat.lt_of_le_of_ne hk.di_le hend
          have hsrc := hended.resolve_right hend
          apply ih hk hlt
          rw [if_pos hsrc]
          omega

/-! ## All calls -/

/-- Between two calls. -/
structure Ready (zero : β) (a : Isby κ β) (s : IsbyState) (k : Nat) : Prop where
  chunk : s.dstChunkIdx = k
  sci_le : s.srcChunkIdx ≤ a.rows.length
  si_le : s.srcIdx ≤ (a.chunk s.srcChunkIdx).length
  left : ∀ l ∈ a.dstLnk.elems.drop (k * a.dstLnk.maxNumInChunk),
    firstOf zero (a.remaining s.srcChunkIdx s.srcIdx) l = firstOf zero a.rows l

/-- The call of a chunk that is there. -/
theorem Ready.gen {s : IsbyState} (h : Ready zero a s k) (hfuel : a.rows.length < fuel)
    (hlen : 0 < (a.links k).length) :
    ∃ t, a.gen zero fuel s k = some ((a.links k).map (firstOf zero a.rows), t) ∧
      Ready zero a t (k + 1) := by
  have hat : At zero a k s.srcChunkIdx s.srcIdx 0
      (List.replicate a.dstLnk.maxNumInChunk (zero, false)) := by
    constructor
    · exact h.sci_le
    · exact h.si_le
    · exact Nat.zero_le _
    · simp
    · intro l hl
      rw [List.drop_zero, links, LVector.getChunk, page_append_drop] at hl
      exact h.left l hl
    · exact fun d hd => absurd hd (Nat.not_lt_zero d)
    · exact fun d _ hd => List.getElem?_replicate_of_lt hd
  obtain ⟨r, hr, hdone⟩ := hat.loop hlen (Nat.lt_add_right _ hfuel)
  have hcells : r.1.take (a.links k).length = (a.links k).map (firstOf zero a.rows) := by
    refine List.ext_getElem? fun d => ?_
    rw [List.getElem?_take, List.getElem?_map]
    split
    · next hd => exact hdone.cells d hd
    · next hd => rw [List.getElem?_eq_none (by omega), Option.map_none]
  refine ⟨⟨r.2.1, r.2.2, k + 1⟩, ?_, rfl, hdone.sci_le, hdone.si_le, ?_⟩
  · have hne : (a.dstLnk.getChunk k).length ≠ 0 := Nat.ne_of_gt hlen
    rw [links] at hr hcells
    simp only [Isby.gen, h.chunk, ne_eq, not_true, if_false, hne, hr, Option.map_some, hcells]
    rfl
  · intro l hl
    refine hdone.left l ?_
    rw [List.drop_length, List.nil_append]
    exact hl

theorem pulls (zero : β) (hfuel : a.rows.length < fuel) :
    ∃ outs, Pulls (a.gen zero fuel) a.dstLnk.maxNumInChunk start 0 outs ∧
      outs.flatten = a.dstLnk.elems.map (firstOf zero a.rows) := by
  apply Pulls.of_pieces (fun s k rest => Ready zero a s k ∧
    rest = (a.dstLnk.elems.drop (k * a.dstLnk.maxNumInChunk)).map (firstOf zero a.rows))
    a.dstLnk.pos
  · intro s k rest hI
    obtain ⟨hready, rfl⟩ := hI
    have htake : ((a.dstLnk.elems.drop (k * a.dstLnk.maxNumInChunk)).map
        (firstOf zero a.rows)).take a.dstLnk.maxNumInChunk =
          (a.links k).map (firstOf zero a.rows) := by
      rw [← List.map_take]
      rfl
    rw [htake]
    by_cases hlen : 0 < (a.links k).length
    · obtain ⟨t, ht, hnext⟩ := hready.gen hfuel hlen
      refine ⟨t, ht, fun _ => ⟨hnext, ?_⟩⟩
      rw [← List.map_drop, List.drop_drop, Nat.add_mul, Nat.one_mul]
    · have hzero : (a.dstLnk.getChunk k).length = 0 := Nat.eq_zero_of_not_pos hlen
      refine ⟨s, ?_, fun hfull => absurd hfull ?_⟩
      · have hnil : a.links k = [] := List.eq_nil_of_length_eq_zero hzero
        rw [hnil, List.map_nil]
        simp only [Isby.gen, hready.chunk, ne_eq, not_true, if_false, hzero, if_true]
      · have hpos := a.dstLnk.pos
        rw [LVector.length_getChunk] at hzero
        rw [List.length_map, List.length_drop]
        omega
  · refine ⟨⟨rfl, Nat.zero_le _, Nat.zero_le _, fun l _ => ?_⟩, by simp⟩
    simp only [start]
    rw [remaining_eq (Nat.zero_le _), Nat.zero_mul, Nat.zero_add, List.drop_zero]

/-- The kernel, called once on the whole of the vectors. -/
theorem kernel_whole (a : Isby κ β) (zero : β) :
    (isbyKernel zero a.rows a.dstLnk.elems 0 0
      (List.replicate a.dstLnk.elems.length (zero, false))).2.2 =
        a.dstLnk.elems.map (firstOf zero a.rows) := by
  have hsrc : ((a.rows.drop 0 ++ []).map Prod.fst).Pairwise (· ≤ ·) := by
    simpa using a.rows_sorted
  have hdst : (a.dstLnk.elems.drop 0 ++ []).Pairwise (· ≤ ·) := by simpa using a.dstSorted
  have h := isbyKernel_done zero (List.replicate a.dstLnk.elems.length (zero, false)) hsrc hdst
    (Nat.zero_le _) (Nat.zero_le _) (by simp)
  refine List.ext_getElem? fun d => ?_
  have hcell := h.cells d
  rw [List.drop_zero, List.append_nil] at hcell
  rw [hcell, List.getElem?_map]
  split
  · rfl
  · next hd =>
    by_cases hlt : d < a.dstLnk.elems.length
    · have hdst := h.dst_le.2
      have hsrc := h.ended.resolve_right (by omega)
      -- the source has been passed before this row
      have hmem : a.dstLnk.elems[d] ∈ a.dstLnk.elems.drop (isbyKernel zero a.rows a.dstLnk.elems
          0 0 (List.replicate a.dstLnk.elems.length (zero, false))).2.1 ++ [] := by
        rw [List.append_nil]
        apply List.mem_of_getElem? (i := d - (isbyKernel zero a.rows a.dstLnk.elems
          0 0 (List.replicate a.dstLnk.elems.length (zero, false))).2.1)
        rw [List.getElem?_drop, Nat.add_sub_cancel' (by omega), List.getElem?_eq_getElem hlt]
      have hfirst := h.left _ hmem
      rw [hsrc, List.drop_length, List.append_nil, List.drop_zero, List.append_nil,
        firstOf_eq_null (by simp)] at hfirst
      rw [List.getElem?_replicate_of_lt hlt, List.getElem?_eq_getElem hlt, Option.map_some,
        ← hfirst]
    · rw [List.getElem?_eq_none (by simpa using hlt), List.getElem?_eq_none (by omega),
        Option.map_none]

/-- **isby.** Chunk by chunk or at once: the value of the first row of the source with the link
of each row of the destination, or null. -/
theorem isby_chunks (a : Isby κ β) (zero : β) :
    ∃ fuel outs, Pulls (a.gen zero fuel) a.dstLnk.maxNumInChunk start 0 outs ∧
      outs.flatten = a.dstLnk.elems.map (firstOf zero a.rows) ∧
      outs.flatten = (isbyKernel zero a.rows a.dstLnk.elems 0 0
        (List.replicate a.dstLnk.elems.length (zero, false))).2.2 := by
  obtain ⟨outs, hp, hflat⟩ := pulls (a := a) zero (Nat.lt_succ_self a.rows.length)
  exact ⟨_, outs, hp, hflat, hflat.trans (kernel_whole a zero).symm⟩

/-- A source of 130 rows, three with each link, and a destination of 140, two with each. -/
def threeToTwo : Isby Nat Nat where
  srcVal := ⟨(List.range 130).map (10 * ·), 64, sixtyFour_pos⟩
  srcLnk := ⟨(List.range 130).map (· / 3), 64, sixtyFour_pos⟩
  dstLnk := ⟨(List.range 140).map (· / 2), 64, sixtyFour_pos⟩
  length_eq := by simp
  size_eq := rfl
  srcSorted := List.pairwise_map.mpr
    (List.pairwise_le_range.imp fun h => Nat.div_le_div_right h)
  dstSorted := List.pairwise_map.mpr
    (List.pairwise_le_range.imp fun h => Nat.div_le_div_right h)

/-- The first of three values for two rows, over three chunks, and null behind the last link of the
source. -/
theorem isby_chunks_threeToTwo : ∃ fuel outs,
    Pulls (threeToTwo.gen 0 fuel) 64 start 0 outs ∧
      outs.flatten = (List.range 140).map fun i =>
        if i / 2 ≤ 43 then (30 * (i / 2), true) else (0, false) := by
  obtain ⟨fuel, outs, hp, hflat, -⟩ := isby_chunks threeToTwo 0
  refine ⟨fuel, outs, hp, hflat.trans ?_⟩
  decide +kernel

end Isby

end QStore.Operators
