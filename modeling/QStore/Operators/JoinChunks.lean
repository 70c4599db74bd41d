import QStore.Operators.Join

/-!
# QStore.Operators.JoinChunks

When the chunks of a `join` do not show: each output vector is what its kernel
makes of the whole of the vectors in one call.

The cursors of a turn lie between what has been seen and what has not. A kernel
that finds values for an entry in two turns, or looks for them after another has
passed the entry, is what goes wrong; both take a link that lies on both sides of
the end of a chunk and has a match.
-/

namespace QStore.Operators

variable {κ β σ γ : Type} [LinearOrder κ]

/-! ## the whole of the vectors -/

/-- The rows of the source. -/
def JoinInput.rows (a : JoinInput κ β) : List (κ × β) := a.srcLnk.elems.zip a.srcVal.elems

/-- The size of the chunks. -/
def JoinInput.size (a : JoinInput κ β) : Nat := a.srcVal.maxNumInChunk

/-- What a kernel makes of the whole of the vectors in one call. -/
def joinAlone (a : JoinInput κ β) (K : JoinKernel β γ) : List γ :=
  (joinLoop K a.rows a.dstLnk.elems (a.rows.length + a.dstLnk.elems.length) 0 0
    (List.replicate a.dstLnk.elems.length K.zero)).dstVal

variable {a : JoinInput κ β} {K : JoinKernel β γ}

theorem JoinInput.length_rows : a.rows.length = a.srcLnk.elems.length := by
  rw [rows, List.length_zip, a.length_eq, Nat.min_self]

theorem JoinInput.rows_fst : a.rows.map Prod.fst = a.srcLnk.elems :=
  List.map_fst_zip (Nat.le_of_eq a.length_eq.symm)

theorem JoinInput.rows_sorted : (a.rows.map Prod.fst).Pairwise (· ≤ ·) :=
  a.rows_fst ▸ a.srcSorted

theorem joinAlone_eq : joinAlone a K =
    (List.range a.dstLnk.elems.length).map (cellOf K a.rows a.dstLnk.elems) := by
  have h := joinLoop_done (K := K) a.rows_sorted a.dstSorted
    (a.rows.length + a.dstLnk.elems.length) 0 0
    (List.replicate a.dstLnk.elems.length K.zero) (Nat.zero_le _) (Nat.zero_le _) (by omega)
  rw [joinAlone]
  apply List.ext_getElem?
  intro d
  have hd := h.after d
  rw [Nat.zero_add, List.drop_zero, List.drop_zero] at hd
  rw [hd, List.getElem?_map, List.getElem?_replicate]
  by_cases hlt : d < a.dstLnk.elems.length
  · simp [hlt, cellOf]
  · simp [hlt]

/-! ## parts of the source, and of the destination -/

section Parts

variable {X Y : List (κ × β)} {D : List κ} {i d m : Nat} {l : κ}

/-- Only the entry and those before it matter. -/
theorem hits_take (h : d < m) : hits K X (D.take m) d = hits K X D d := by
  simp only [hits, List.getElem?_take_of_lt h, List.take_take, Nat.min_eq_left (Nat.le_of_lt h)]

/-- Rows without the link add nothing. -/
theorem hits_append_of_nil (hl : D[d]? = some l) (hY : valuesAt l Y = []) :
    hits K (X ++ Y) D d = hits K X D d := by
  simp only [hits, hl, valuesAt_append, hY, List.append_nil]

/-- The two parts of the source have no match for one entry both, and what the
second has a match for is not among the entries before `i`. -/
theorem hits_append (hd : D[i + d]? = some l) (hone : valuesAt l X = [] ∨ valuesAt l Y = [])
    (hfirst : valuesAt l Y ≠ [] → l ∉ D.take i) :
    hits K (X ++ Y) D (i + d) = hits K X D (i + d) ++ hits K Y (D.drop i) d := by
  by_cases hY : valuesAt l Y = []
  · have hnil : hits K Y (D.drop i) d = [] := by
      simp [hits, List.getElem?_drop, hd, hY]
    rw [hits_append_of_nil hd hY, hnil, List.append_nil]
  · have hX : valuesAt l X = [] := hone.resolve_right hY
    have hmem : l ∈ D.take (i + d) ↔ l ∈ (D.drop i).take d := by
      rw [List.take_add, List.mem_append, or_iff_right (hfirst hY)]
    simp [hits, List.getElem?_drop, hd, valuesAt_append, hX, hmem]

theorem cellOf_append (hd : D[i + d]? = some l) (hone : valuesAt l X = [] ∨ valuesAt l Y = [])
    (hfirst : valuesAt l Y ≠ [] → l ∉ D.take i) :
    (hits K Y (D.drop i) d).foldl K.hit (cellOf K X D (i + d)) = cellOf K (X ++ Y) D (i + d) := by
  rw [cellOf, cellOf, hits_append hd hone hfirst, List.foldl_append]

theorem cellOf_append_of_nil (hl : D[d]? = some l) (hY : valuesAt l Y = []) :
    cellOf K (X ++ Y) D d = cellOf K X D d := by
  rw [cellOf, cellOf, hits_append_of_nil hl hY]

theorem cellOf_eq_zero (hl : D[d]? = some l) (hX : valuesAt l X = []) : cellOf K X D d = K.zero := by
  simp [cellOf, hits, hl, hX]

end Parts

/-- No row from `x` to `y` has the link. -/
theorem valuesAt_drop_take_eq_nil_iff {rows : List (κ × β)} {l : κ} {x y : Nat} :
    valuesAt l ((rows.take y).drop x) = [] ↔
      ∀ z, x ≤ z → z < y → (rows.map Prod.fst)[z]? ≠ some l := by
  rw [valuesAt_eq_nil_iff_notMem, List.map_drop, List.map_take, List.mem_iff_getElem?, not_exists]
  constructor
  · intro h z hz hzy hzl
    refine h (z - x) ?_
    rw [List.getElem?_drop, Nat.add_sub_cancel' hz, List.getElem?_take_of_lt hzy, hzl]
  · intro h z hz
    rw [List.getElem?_drop, List.getElem?_take] at hz
    split at hz
    · next hlt => exact h (x + z) (by omega) hlt hz
    · contradiction

/-! ## one turn of one kernel -/

/-- The vectors whose chunks do not show. -/
structure JoinClean (a : JoinInput κ β) : Prop where
  lnkSize : a.srcLnk.maxNumInChunk = a.size
  dstSize : a.dstLnk.maxNumInChunk = a.size
  dstShort : ¬ a.size ∣ a.dstLnk.elems.length
  src_ne : a.srcLnk.elems ≠ []
  srcEnd : a.size ∣ a.srcLnk.elems.length →
    ∀ d ∈ a.dstLnk.elems, ∃ l ∈ a.srcLnk.elems, d < l
  srcEdge : ∀ i l, Spans a.srcLnk.elems (i * a.size) l → l ∉ a.dstLnk.elems
  dstEdge : ∀ i l, Spans a.dstLnk.elems (i * a.size) l → l ∉ a.srcLnk.elems

/-- The rows of a source chunk. -/
def JoinInput.chunk (a : JoinInput κ β) (j : Nat) : List (κ × β) :=
  (a.srcLnk.getChunk j).zip (a.srcVal.getChunk j)

variable {k j s q d x : Nat} {l : κ}

theorem JoinInput.size_pos : 0 < a.size := a.srcVal.pos

theorem JoinInput.chunk_eq (h : a.srcLnk.maxNumInChunk = a.size) :
    a.chunk j = page a.size a.rows j := by
  simp only [chunk, LVector.getChunk, h, page, rows, List.zip, List.drop_zipWith,
    List.take_zipWith]
  rfl

theorem JoinInput.dst_eq (h : a.dstLnk.maxNumInChunk = a.size) :
    a.dstLnk.getChunk k = page a.size a.dstLnk.elems k := by
  rw [LVector.getChunk, h]

theorem JoinInput.chunk_sorted (h : a.srcLnk.maxNumInChunk = a.size) :
    ((a.chunk j).map Prod.fst).Pairwise (· ≤ ·) := by
  rw [chunk_eq h, page, List.map_take, List.map_drop, rows_fst]
  exact (a.srcSorted.sublist (List.drop_sublist ..)).sublist (List.take_sublist ..)

theorem JoinInput.dst_sorted : (a.dstLnk.getChunk k).Pairwise (· ≤ ·) :=
  (a.dstSorted.sublist (List.drop_sublist ..)).sublist (List.take_sublist ..)

/-- The cells of a buffer, once the rows before `m` have been seen. -/
def cellsAt (K : JoinKernel β γ) (a : JoinInput κ β) (k m : Nat) : List γ :=
  (List.range (a.dstLnk.getChunk k).length).map fun d =>
    cellOf K (a.rows.take m) a.dstLnk.elems (k * a.size + d)

/-- The cursors at the start of a turn: chunk `j` of the source from row `s` on,
chunk `k` of the destination from entry `q` on. What an entry before has a match
for has been seen, and no entry has a match on both sides. -/
structure Turn (a : JoinInput κ β) (k j s q : Nat) : Prop where
  chunk : j * a.size < a.rows.length
  start : s < a.size
  le : j * a.size + s ≤ a.rows.length
  done : ∀ d l, d < q → (a.dstLnk.getChunk k)[d]? = some l →
    ∀ x, j * a.size + s ≤ x → a.srcLnk.elems[x]? ≠ some l
  apart : ∀ l ∈ a.dstLnk.getChunk k, ∀ x y, x < j * a.size + s → j * a.size + s ≤ y →
    a.srcLnk.elems[x]? = some l → a.srcLnk.elems[y]? ≠ some l
  ahead : ∀ x l, x < j * a.size + s → a.srcLnk.elems[x]? = some l →
    ∀ d, (k + 1) * a.size ≤ d → a.dstLnk.elems[d]? ≠ some l

/-- What one kernel does in a turn. -/
structure TurnDone (K : JoinKernel β γ) (a : JoinInput κ β) (k j s q : Nat) (r : Joined γ) :
    Prop where
  cells : r.dstVal = cellsAt K a k ((j + 1) * a.size)
  src_le : s ≤ r.srcStart ∧ r.srcStart ≤ (a.chunk j).length
  dst_le : q ≤ r.dstStart ∧ r.dstStart ≤ (a.dstLnk.getChunk k).length
  ended : r.srcStart = (a.chunk j).length ∨ r.dstStart = (a.dstLnk.getChunk k).length
  moved : s < (a.chunk j).length ∨ r.dstStart = (a.dstLnk.getChunk k).length
  srcPassed : ∀ x l, j * a.size + s ≤ x → x < j * a.size + r.srcStart →
    a.srcLnk.elems[x]? = some l → ∃ l' ∈ a.dstLnk.getChunk k, l ≤ l'
  dstPassed : ∀ d l, d < r.dstStart → (a.dstLnk.getChunk k)[d]? = some l →
    ∀ x, (j + 1) * a.size ≤ x → a.srcLnk.elems[x]? ≠ some l

theorem JoinInput.lnk_of_chunk {r : κ × β} (h : a.srcLnk.maxNumInChunk = a.size)
    (hr : (a.chunk j)[x]? = some r) : x < a.size ∧ a.srcLnk.elems[j * a.size + x]? = some r.1 := by
  rw [chunk_eq h, getElem?_page] at hr
  exact ⟨hr.1, by rw [← a.rows_fst, List.getElem?_map, hr.2, Option.map_some]⟩

theorem JoinInput.chunk_of_lnk (h : a.srcLnk.maxNumInChunk = a.size) (hx : x < a.size)
    (hl : a.srcLnk.elems[j * a.size + x]? = some l) : ∃ r, (a.chunk j)[x]? = some r ∧ r.1 = l := by
  rw [← a.rows_fst, List.getElem?_map, Option.map_eq_some_iff] at hl
  obtain ⟨r, hr, hrl⟩ := hl
  exact ⟨r, by rw [chunk_eq h, getElem?_page]; exact ⟨hx, hr⟩, hrl⟩

theorem JoinInput.length_chunk (h : a.srcLnk.maxNumInChunk = a.size) :
    (a.chunk j).length = min a.size (a.rows.length - j * a.size) := by
  rw [chunk_eq h, length_page]

/-- The two source vectors have chunks of one length. -/
theorem JoinInput.length_getChunk (h : a.srcLnk.maxNumInChunk = a.size) :
    (a.srcLnk.getChunk j).length = (a.chunk j).length ∧
      (a.srcVal.getChunk j).length = (a.chunk j).length := by
  rw [length_chunk h, LVector.length_getChunk, LVector.length_getChunk, h, a.length_eq,
    a.length_rows]
  exact ⟨rfl, rfl⟩

theorem getElem?_cellsAt {m : Nat} (hd : d < (a.dstLnk.getChunk k).length) :
    (cellsAt K a k m)[d]? = some (cellOf K (a.rows.take m) a.dstLnk.elems (k * a.size + d)) := by
  simp [cellsAt, hd]

@[simp] theorem length_cellsAt {m : Nat} :
    (cellsAt K a k m).length = (a.dstLnk.getChunk k).length := by
  simp [cellsAt]

/-- The rows that a turn sees. -/
theorem JoinInput.drop_chunk (h : a.srcLnk.maxNumInChunk = a.size) :
    (a.chunk j).drop s = (a.rows.take ((j + 1) * a.size)).drop (j * a.size + s) := by
  rw [chunk_eq h, page, ← List.drop_drop]
  congr 1
  rw [List.drop_take]
  congr 1
  rw [Nat.add_mul, Nat.one_mul]
  omega

namespace Turn

/-- An entry gets what the rows of the turn have for it, on top of what was seen. -/
theorem cell (hc : JoinClean a) (ht : Turn a k j s q) (hq : q ≤ d)
    (hl : (a.dstLnk.getChunk k)[d]? = some l) :
    (hits K ((a.chunk j).drop s) ((a.dstLnk.getChunk k).drop q) (d - q)).foldl K.hit
      (cellOf K (a.rows.take (j * a.size + s)) a.dstLnk.elems (k * a.size + d)) =
    cellOf K (a.rows.take ((j + 1) * a.size)) a.dstLnk.elems (k * a.size + d) := by
  have hpage := hl
  rw [a.dst_eq hc.dstSize, getElem?_page] at hpage
  obtain ⟨hdn, hD⟩ := hpage
  have hpe : j * a.size + s ≤ (j + 1) * a.size := by
    have := ht.start
    rw [Nat.add_mul, Nat.one_mul]
    omega
  have hX : a.rows.take (j * a.size + s) =
      (a.rows.take ((j + 1) * a.size)).take (j * a.size + s) := by
    rw [List.take_take, Nat.min_eq_left hpe]
  have hdl : hits K ((a.chunk j).drop s) ((a.dstLnk.getChunk k).drop q) (d - q) =
      hits K ((a.chunk j).drop s) (a.dstLnk.elems.drop (k * a.size + q)) (d - q) := by
    rw [a.dst_eq hc.dstSize, page, List.drop_take, List.drop_drop]
    exact hits_take (by omega)
  have hindex : k * a.size + d = k * a.size + q + (d - q) := by omega
  have hwhole : (a.rows.take ((j + 1) * a.size)).take (j * a.size + s) ++
      (a.rows.take ((j + 1) * a.size)).drop (j * a.size + s) = a.rows.take ((j + 1) * a.size) :=
    List.take_append_drop ..
  rw [hdl, hX, a.drop_chunk hc.lnkSize, hindex]
  rw [hindex] at hD
  refine (cellOf_append hD ?_ fun hY hmem => ?_).trans (by rw [hwhole])
  · by_cases hseen : ∃ x, x < j * a.size + s ∧ a.srcLnk.elems[x]? = some l
    · obtain ⟨x, hx, hxl⟩ := hseen
      refine .inr (valuesAt_drop_take_eq_nil_iff.mpr fun z hz _ => ?_)
      rw [a.rows_fst]
      exact ht.apart l (List.mem_of_getElem? hl) x z hx hz hxl
    · left
      rw [← hX, ← List.drop_zero (l := a.rows.take _)]
      refine valuesAt_drop_take_eq_nil_iff.mpr fun z _ hz => ?_
      rw [a.rows_fst]
      exact fun hzl => hseen ⟨z, hz, hzl⟩
  · -- an entry of the same link before this one took the match, or there is none
    obtain ⟨y, hy, hyl⟩ : ∃ y, j * a.size + s ≤ y ∧ a.srcLnk.elems[y]? = some l := by
      by_contra hno
      refine hY (valuesAt_drop_take_eq_nil_iff.mpr fun z hz _ => ?_)
      rw [a.rows_fst]
      exact fun hzl => hno ⟨z, hz, hzl⟩
    obtain ⟨i, hi⟩ := List.mem_iff_getElem?.mp hmem
    have hilt : i < k * a.size + q := by
      have := (List.getElem?_eq_some_iff.mp hi).1
      rw [List.length_take] at this
      omega
    rw [List.getElem?_take_of_lt hilt] at hi
    by_cases hik : k * a.size ≤ i
    · refine ht.done (i - k * a.size) l (by omega) ?_ y hy hyl
      rw [a.dst_eq hc.dstSize, getElem?_page, Nat.add_sub_cancel' hik]
      exact ⟨by omega, hi⟩
    · exact hc.dstEdge k l (spans_of_sorted a.dstSorted hi (by omega) hD (by omega))
        (List.mem_of_getElem? hyl)

/-- The last chunk of the source has been seen in full: what is left of the
destination has no match. -/
theorem exhausted (hc : JoinClean a) (ht : Turn a k j s q) (hq : q < (a.dstLnk.getChunk k).length)
    (hs : s = (a.chunk j).length) :
    TurnDone K a k j s q
      ⟨s, (a.dstLnk.getChunk k).length, cellsAt K a k (j * a.size + s)⟩ := by
  have hlen := a.length_chunk (j := j) hc.lnkSize
  have hstart := ht.start
  have hall : a.rows.length = j * a.size + s := by
    have := ht.le
    omega
  have hend : j * a.size + s ≤ (j + 1) * a.size := by
    rw [Nat.add_mul, Nat.one_mul]
    omega
  constructor
  · rw [cellsAt, cellsAt, List.take_of_length_le (Nat.le_of_eq hall),
      List.take_of_length_le (by omega)]
  · exact ⟨Nat.le_refl _, Nat.le_of_eq hs⟩
  · exact ⟨Nat.le_of_lt hq, Nat.le_refl _⟩
  · exact .inl hs
  · exact .inr rfl
  · exact fun x l hx hx' => absurd hx (Nat.not_le_of_lt hx')
  · intro d l _ _ x hx hl
    have := (List.getElem?_eq_some_iff.mp hl).1
    rw [← a.length_rows] at this
    omega

/-- The loop of a kernel. -/
theorem loop (hc : JoinClean a) (ht : Turn a k j s q) (hs : s < (a.chunk j).length) {r : Joined γ}
    (h : LoopDone K (a.chunk j) (a.dstLnk.getChunk k) s q (cellsAt K a k (j * a.size + s)) r) :
    TurnDone K a k j s q r where
  cells := by
    apply List.ext_getElem?
    intro d
    by_cases hd : d < (a.dstLnk.getChunk k).length
    · obtain ⟨l, hl⟩ : ∃ l, (a.dstLnk.getChunk k)[d]? = some l :=
        ⟨_, List.getElem?_eq_getElem hd⟩
      rw [getElem?_cellsAt hd]
      by_cases hdq : d < q
      · rw [h.before d hdq, getElem?_cellsAt hd]
        congr 1
        have hpage := hl
        rw [a.dst_eq hc.dstSize, getElem?_page] at hpage
        have hpe : j * a.size + s ≤ (j + 1) * a.size := by
          have := ht.start
          rw [Nat.add_mul, Nat.one_mul]
          omega
        rw [← List.take_append_drop (j * a.size + s) (a.rows.take ((j + 1) * a.size)),
          List.take_take, Nat.min_eq_left hpe]
        refine (cellOf_append_of_nil hpage.2 (valuesAt_drop_take_eq_nil_iff.mpr fun z hz _ => ?_)).symm
        rw [a.rows_fst]
        exact ht.done d l hdq hl z hz
      · have hafter := h.after (d - q)
        rw [show q + (d - q) = d by omega] at hafter
        rw [hafter, getElem?_cellsAt hd, Option.map_some, ht.cell hc (by omega) hl]
    · rw [List.getElem?_eq_none, List.getElem?_eq_none]
      · rw [length_cellsAt]
        omega
      · rw [h.length, length_cellsAt]
        omega
  src_le := h.src_le
  dst_le := h.dst_le
  ended := h.ended
  moved := .inl hs
  srcPassed := by
    intro x l hx hx' hl
    obtain ⟨z, rfl⟩ := Nat.exists_eq_add_of_le (show j * a.size ≤ x by omega)
    have hlt : z < a.size := by
      have h1 := h.src_le.2
      rw [a.length_chunk hc.lnkSize] at h1
      omega
    obtain ⟨r', hr, rfl⟩ := a.chunk_of_lnk hc.lnkSize hlt hl
    obtain ⟨d, l', -, hl', hpass⟩ := h.srcPassed z r' (by omega) (by omega) hr
    refine ⟨l', List.mem_of_getElem? hl', ?_⟩
    rw [JoinKernel.Passes] at hpass
    split at hpass
    · exact hpass
    · exact le_of_lt hpass
  dstPassed := by
    intro d l hd hl x hx hxl
    by_cases hdq : d < q
    · have hstart := ht.start
      rw [Nat.add_mul, Nat.one_mul] at hx
      exact ht.done d l hdq hl x (by omega) hxl
    · obtain ⟨z, r', hz, hr, hleave⟩ := h.dstPassed d l (by omega) hd hl
      have hle : l ≤ r'.1 := by
        rw [JoinKernel.Leaves] at hleave
        split at hleave
        · exact le_of_lt hleave
        · exact hleave
      obtain ⟨hzn, hzl⟩ := a.lnk_of_chunk hc.lnkSize hr
      have hlt : j * a.size + z < (j + 1) * a.size := by
        rw [Nat.add_mul, Nat.one_mul]
        omega
      have heq : r'.1 = l := le_antisymm (le_of_sorted a.srcSorted hzl hxl (by omega)) hle
      rw [heq] at hzl
      refine hc.srcEdge (j + 1) l (spans_of_sorted a.srcSorted hzl hlt hxl hx) ?_
      exact List.mem_of_mem_drop (List.mem_of_mem_take (List.mem_of_getElem? hl))

/-- A kernel in a turn. -/
theorem kernel (hc : JoinClean a) (ht : Turn a k j s q) (hq : q < (a.dstLnk.getChunk k).length) :
    ∃ r, joinKernel K (a.chunk j) s (a.dstLnk.getChunk k) (cellsAt K a k (j * a.size + s)) q =
      some r ∧ TurnDone K a k j s q r := by
  have hlen := a.length_chunk (j := j) hc.lnkSize
  have hpos := a.size_pos
  have hle : s ≤ (a.chunk j).length := by
    have := ht.start
    have := ht.le
    omega
  have hne : a.chunk j ≠ [] := by
    rw [← List.length_pos_iff]
    have := ht.chunk
    omega
  rw [joinKernel, if_neg (by omega)]
  by_cases hs : s = (a.chunk j).length
  · rw [if_pos (.inr (Nat.le_of_eq hs.symm))]
    exact ⟨_, rfl, ht.exhausted hc hq hs⟩
  · rw [if_neg (by rintro (h | h); exacts [hne h, hs (by omega)])]
    exact ⟨_, rfl, ht.loop hc (by omega) (joinLoop_done (a.chunk_sorted hc.lnkSize) a.dst_sorted _ _ _ _ hle
      (Nat.le_of_lt hq) (Nat.le_refl _))⟩

/-- The source is not used up as long as chunks of it are full. -/
theorem room (hc : JoinClean a) (ht : Turn a k j s q) {r : Joined γ} (h : TurnDone K a k j s q r)
    (hfull : r.srcStart = (a.chunk j).length ∧ (a.chunk j).length = a.size) :
    (j + 1) * a.size < a.rows.length := by
  have hlen := a.length_chunk (j := j) hc.lnkSize
  have hstart := ht.start
  by_contra hno
  have hmul : (j + 1) * a.size = j * a.size + a.size := by rw [Nat.add_mul, Nat.one_mul]
  have hend : a.srcLnk.elems.length = (j + 1) * a.size := by
    rw [← a.length_rows]
    omega
  -- the last row is behind an entry, which is then not below all rows
  obtain ⟨b, hb⟩ : ∃ b, a.srcLnk.elems[a.srcLnk.elems.length - 1]? = some b :=
    ⟨_, List.getElem?_eq_getElem (by omega)⟩
  obtain ⟨l, hl, hbl⟩ := h.srcPassed _ b (by omega) (by omega) hb
  have hmem : l ∈ a.dstLnk.elems := List.mem_of_mem_drop (List.mem_of_mem_take hl)
  obtain ⟨l', hl', hlt⟩ := hc.srcEnd ⟨j + 1, by rw [hend, Nat.mul_comm]⟩ l hmem
  obtain ⟨x, hx⟩ := List.mem_iff_getElem?.mp hl'
  have hle := le_of_sorted a.srcSorted hx hb (by
    have := (List.getElem?_eq_some_iff.mp hx).1
    omega)
  exact absurd (lt_of_lt_of_le hlt (hle.trans hbl)) (lt_irrefl l)

end Turn

/-- What the generators keep between calls: all rows before the cursor are below
the entries to come. -/
structure Between (a : JoinInput κ β) (k : Nat) (st : JoinState) : Prop where
  chunk : st.srcChunkNum * a.size < a.rows.length
  start : st.srcStart < a.size
  le : st.srcChunkNum * a.size + st.srcStart ≤ a.rows.length
  ahead : ∀ x l, x < st.srcChunkNum * a.size + st.srcStart → a.srcLnk.elems[x]? = some l →
    ∀ d, k * a.size ≤ d → a.dstLnk.elems[d]? ≠ some l

theorem moveTo_pos {st : JoinState} {i m n : Nat} :
    (st.moveTo i m n).srcChunkNum * n + (st.moveTo i m n).srcStart = st.srcChunkNum * n + i := by
  rw [JoinState.moveTo]
  split
  · next h =>
    rw [h.1, h.2]
    simp only
    rw [Nat.add_mul, Nat.one_mul, Nat.add_zero]
  · rfl

variable {st : JoinState}

/-- After a turn, whether or not there is another. -/
theorem Turn.between (hc : JoinClean a) (ht : Turn a k st.srcChunkNum st.srcStart q) {r : Joined γ}
    (h : TurnDone K a k st.srcChunkNum st.srcStart q r) :
    Between a (k + 1) (st.moveTo r.srcStart (a.chunk st.srcChunkNum).length a.size) := by
  have hlen := a.length_chunk (j := st.srcChunkNum) hc.lnkSize
  have hsrc := h.src_le
  have hchunk := ht.chunk
  constructor
  · rw [JoinState.moveTo]
    split
    · next hfull => exact ht.room hc h hfull
    · exact hchunk
  · rw [JoinState.moveTo]
    split
    · exact a.size_pos
    · simp only
      omega
  · rw [moveTo_pos]
    omega
  · rw [moveTo_pos]
    intro x l hx hl d hd hdl
    by_cases hold : x < st.srcChunkNum * a.size + st.srcStart
    · exact ht.ahead x l hold hl d hd hdl
    · obtain ⟨l', hl', hle⟩ := h.srcPassed x l (by omega) hx hl
      obtain ⟨i, hi⟩ := List.mem_iff_getElem?.mp hl'
      rw [a.dst_eq hc.dstSize, getElem?_page] at hi
      have hlt : k * a.size + i < (k + 1) * a.size := by
        rw [Nat.add_mul, Nat.one_mul]
        omega
      have heq : l' = l := le_antisymm (le_of_sorted a.dstSorted hi.2 hdl (by omega)) hle
      refine hc.dstEdge (k + 1) l (spans_of_sorted a.dstSorted (heq ▸ hi.2) hlt hdl hd) ?_
      exact List.mem_of_getElem? hl

/-- The start of the next turn. -/
theorem Turn.next (hc : JoinClean a) (ht : Turn a k st.srcChunkNum st.srcStart q) {r : Joined γ}
    (h : TurnDone K a k st.srcChunkNum st.srcStart q r)
    (hmore : r.dstStart ≠ (a.dstLnk.getChunk k).length) :
    Turn a k (st.moveTo r.srcStart (a.chunk st.srcChunkNum).length a.size).srcChunkNum
      (st.moveTo r.srcStart (a.chunk st.srcChunkNum).length a.size).srcStart r.dstStart := by
  have hb := ht.between hc h
  have hend : r.srcStart = (a.chunk st.srcChunkNum).length := h.ended.resolve_right hmore
  have hlen := a.length_chunk (j := st.srcChunkNum) hc.lnkSize
  have hmul : (st.srcChunkNum + 1) * a.size = st.srcChunkNum * a.size + a.size := by
    rw [Nat.add_mul, Nat.one_mul]
  -- what is left of the source comes after this chunk
  have hleft : ∀ x l, st.srcChunkNum * a.size + r.srcStart ≤ x → a.srcLnk.elems[x]? = some l →
      (st.srcChunkNum + 1) * a.size ≤ x := by
    intro x l hx hl
    have := (List.getElem?_eq_some_iff.mp hl).1
    rw [← a.length_rows] at this
    omega
  refine ⟨hb.chunk, hb.start, hb.le, ?_, ?_, hb.ahead⟩
  · rw [moveTo_pos]
    intro d l hd hl x hx hxl
    exact h.dstPassed d l hd hl x (hleft x l hx hxl) hxl
  · rw [moveTo_pos]
    intro l hl x y hx hy hxl hyl
    refine hc.srcEdge (st.srcChunkNum + 1) l
      (spans_of_sorted a.srcSorted hxl (by omega) hyl (hleft y l hy hyl)) ?_
    exact List.mem_of_mem_drop (List.mem_of_mem_take hl)

/-- A chunk that has been seen to its end. -/
theorem cellsAt_chunk (hc : JoinClean a) :
    cellsAt K a k ((j + 1) * a.size) = cellsAt K a k (j * a.size + (a.chunk j).length) := by
  have hlen := a.length_chunk (j := j) hc.lnkSize
  have hmul : (j + 1) * a.size = j * a.size + a.size := by rw [Nat.add_mul, Nat.one_mul]
  by_cases hfull : (a.chunk j).length = a.size
  · rw [hfull, hmul]
  · rw [cellsAt, cellsAt, List.take_of_length_le (by omega), List.take_of_length_le (by omega)]

/-- Once a kernel has passed an output chunk, the chunk is complete for all. -/
theorem TurnDone.complete (hc : JoinClean a) {r : Joined γ} (h : TurnDone K a k j s q r)
    (hend : r.dstStart = (a.dstLnk.getChunk k).length) {γ' : Type} {K' : JoinKernel β γ'} :
    cellsAt K' a k ((j + 1) * a.size) = cellsAt K' a k a.rows.length := by
  apply List.ext_getElem?
  intro d
  by_cases hd : d < (a.dstLnk.getChunk k).length
  · obtain ⟨l, hl⟩ : ∃ l, (a.dstLnk.getChunk k)[d]? = some l := ⟨_, List.getElem?_eq_getElem hd⟩
    have hpage := hl
    rw [a.dst_eq hc.dstSize, getElem?_page] at hpage
    rw [getElem?_cellsAt hd, getElem?_cellsAt hd, List.take_length]
    congr 1
    nth_rewrite 2 [← List.take_append_drop ((j + 1) * a.size) a.rows]
    have hno : valuesAt l (a.rows.drop ((j + 1) * a.size)) = [] := by
      rw [← List.take_length (l := a.rows)]
      refine valuesAt_drop_take_eq_nil_iff.mpr fun z hz _ => ?_
      rw [a.rows_fst]
      exact h.dstPassed d l (by omega) hl z hz
    exact (cellOf_append_of_nil hpage.2 hno).symm
  · rw [List.getElem?_eq_none (by rw [length_cellsAt]; omega),
      List.getElem?_eq_none (by rw [length_cellsAt]; omega)]

theorem Between.turn (hc : JoinClean a) (h : Between a k st) :
    Turn a k st.srcChunkNum st.srcStart 0 where
  chunk := h.chunk
  start := h.start
  le := h.le
  done := fun _ _ hd => absurd hd (Nat.not_lt_zero _)
  apart := by
    intro l hl x y hx _ hxl _
    obtain ⟨d, hd⟩ := List.mem_iff_getElem?.mp hl
    rw [a.dst_eq hc.dstSize, getElem?_page] at hd
    exact h.ahead x l hx hxl _ (by omega) hd.2
  ahead := by
    intro x l hx hxl d hd
    rw [Nat.add_mul, Nat.one_mul] at hd
    exact h.ahead x l hx hxl d (by omega)

/-- Nothing has been found yet for the entries to come. -/
theorem Between.cells (hc : JoinClean a) (h : Between a k st) :
    List.replicate (a.dstLnk.getChunk k).length K.zero =
      cellsAt K a k (st.srcChunkNum * a.size + st.srcStart) := by
  apply List.ext_getElem?
  intro d
  by_cases hd : d < (a.dstLnk.getChunk k).length
  · obtain ⟨l, hl⟩ : ∃ l, (a.dstLnk.getChunk k)[d]? = some l := ⟨_, List.getElem?_eq_getElem hd⟩
    rw [a.dst_eq hc.dstSize, getElem?_page] at hl
    have hno : valuesAt l (a.rows.take (st.srcChunkNum * a.size + st.srcStart)) = [] := by
      rw [← List.drop_zero (l := a.rows.take _)]
      refine valuesAt_drop_take_eq_nil_iff.mpr fun z _ hz => ?_
      rw [a.rows_fst]
      exact fun hzl => h.ahead z l hz hzl _ (by omega) hl.2
    rw [getElem?_cellsAt hd, cellOf_eq_zero hl.2 hno, List.getElem?_replicate, if_pos hd]
  · rw [List.getElem?_eq_none (by rw [List.length_replicate]; omega),
      List.getElem?_eq_none (by rw [length_cellsAt]; omega)]

theorem between_start (hc : JoinClean a) : Between a 0 ⟨0, 0, 0⟩ where
  chunk := by
    rw [Nat.zero_mul, a.length_rows]
    exact List.length_pos_iff.mpr hc.src_ne
  start := a.size_pos
  le := by simp
  ahead := fun _ _ hx => by simp at hx

/-- The chunks of the whole. -/
theorem cellsAt_eq (hc : JoinClean a) :
    cellsAt K a k a.rows.length = ((joinAlone a K).drop (k * a.size)).take a.size := by
  rw [joinAlone_eq, cellsAt, List.take_length, a.dst_eq hc.dstSize, length_page]
  apply List.ext_getElem?
  intro d
  rw [List.getElem?_take, List.getElem?_drop, List.getElem?_map, List.getElem?_map]
  by_cases hd : d < a.size
  · by_cases hd' : k * a.size + d < a.dstLnk.elems.length
    · rw [if_pos hd, List.getElem?_range (by omega), List.getElem?_range hd']
      rfl
    · rw [if_pos hd, List.getElem?_eq_none (by rw [List.length_range]; omega),
        List.getElem?_eq_none (by rw [List.length_range]; omega)]
      rfl
  · rw [if_neg hd, List.getElem?_eq_none (by rw [List.length_range]; omega), Option.map_none]

/-! ## the driver -/

section Driver

variable [Zero β] [Zero σ] [LT β] [DecidableLT β] {add : σ → β → σ} {ts : List JoinType}
  {bufs : JoinBufs β σ}

/-- The kernels of a turn start from the same cursors, each on its own buffer. -/
theorem joinAll_some {src : List (κ × β)} {dl : List κ}
    (P : (t : JoinType) → Joined (t.Entry β σ) → Prop) :
    ∀ (ts : List JoinType) (final : Nat × Nat) (bufs : JoinBufs β σ), ts.Nodup →
      (∀ t ∈ ts, ∃ r, joinKernel (t.kernel add) src s dl (bufs t) q = some r ∧ P t r) →
      ∃ final' bufs', joinAll add src dl s q ts final bufs = some (final', bufs') ∧
        (∀ t ∈ ts, ∃ r, P t r ∧ bufs' t = r.dstVal) ∧ (∀ t, t ∉ ts → bufs' t = bufs t) ∧
        (ts = [] ∧ final' = final ∨
          ∃ t ∈ ts, ∃ r, P t r ∧ final' = (r.srcStart, r.dstStart))
  | [], final, bufs, _, _ => ⟨final, bufs, rfl, by simp, by simp, .inl ⟨rfl, rfl⟩⟩
  | t :: ts, final, bufs, hnd, h => by
      obtain ⟨hnot, hnd⟩ := List.nodup_cons.mp hnd
      obtain ⟨r, hr, hpost⟩ := h t List.mem_cons_self
      have hrest : ∀ u ∈ ts, ∃ r', joinKernel (u.kernel add) src s dl
          (Function.update bufs t r.dstVal u) q = some r' ∧ P u r' := by
        intro u hu
        rw [Function.update_of_ne (fun h : u = t => hnot (h ▸ hu))]
        exact h u (List.mem_cons_of_mem _ hu)
      obtain ⟨final', bufs', hall, hin, hout, hfin⟩ :=
        joinAll_some P ts (r.srcStart, r.dstStart) _ hnd hrest
      refine ⟨final', bufs', ?_, ?_, ?_, ?_⟩
      · rw [joinAll, hr, Option.bind_some, hall]
      · rw [List.forall_mem_cons]
        refine ⟨⟨r, hpost, ?_⟩, hin⟩
        rw [hout t hnot, Function.update_self]
      · intro u hu
        rw [List.mem_cons, not_or] at hu
        rw [hout u hu.2, Function.update_of_ne hu.1]
      · rcases hfin with ⟨rfl, hfin⟩ | ⟨u, hu, hlast⟩
        · exact .inr ⟨t, List.mem_cons_self, r, hpost, hfin⟩
        · exact .inr ⟨u, List.mem_cons_of_mem _ hu, hlast⟩

/-- **The turns for one destination chunk**, for whatever join types. -/
theorem joinWhile_clean (add : σ → β → σ) (hc : JoinClean a) (hne : ts ≠ []) (hnd : ts.Nodup) :
    ∀ (fuel : Nat) (st : JoinState) (q : Nat) (bufs : JoinBufs β σ),
      Turn a k st.srcChunkNum st.srcStart q → q < (a.dstLnk.getChunk k).length →
      (∀ t ∈ ts, bufs t = cellsAt (t.kernel add) a k (st.srcChunkNum * a.size + st.srcStart)) →
      a.rows.length < fuel + (st.srcChunkNum * a.size + st.srcStart) →
      ∃ bufs' st', joinWhile a add ts (a.dstLnk.getChunk k) fuel st q bufs = some (bufs', st') ∧
        (∀ t ∈ ts, bufs' t = cellsAt (t.kernel add) a k a.rows.length) ∧
        Between a (k + 1) st' ∧ st'.lChunkNum = st.lChunkNum := by
  intro fuel
  induction fuel with
  | zero =>
      intro st q bufs ht _ _ hfuel
      have := ht.le
      omega
  | succ fuel ih =>
      intro st q bufs ht hq hcells hfuel
      have hlen := a.length_chunk (j := st.srcChunkNum) hc.lnkSize
      have hchunk := ht.chunk
      have hpos := a.size_pos
      obtain ⟨hsl, hsv⟩ := a.length_getChunk (j := st.srcChunkNum) hc.lnkSize
      obtain ⟨final, bufs', hall, hin, -, hfin⟩ := joinAll_some
        (fun t r => TurnDone (t.kernel add) a k st.srcChunkNum st.srcStart q r) ts (0, 0) bufs hnd
        fun t ht' => hcells t ht' ▸ ht.kernel hc hq
      obtain ⟨t, hts, r, hdone, rfl⟩ := hfin.resolve_left fun h => hne h.1
      rw [JoinInput.chunk] at hall
      simp only [joinWhile, hsl, hsv, hall, ne_eq, not_true_eq_false, if_false, Option.bind_some]
      rw [if_neg (by omega)]
      have hcells' : ∀ t ∈ ts, bufs' t = cellsAt (t.kernel add) a k ((st.srcChunkNum + 1) * a.size) := by
        intro t ht'
        obtain ⟨r', hr', hbuf⟩ := hin t ht'
        rw [hbuf, hr'.cells]
      by_cases hend : r.dstStart = (a.dstLnk.getChunk k).length
      · rw [if_pos hend]
        refine ⟨_, _, rfl, fun t ht' => ?_, ht.between hc hdone, ?_⟩
        · rw [hcells' t ht', hdone.complete hc hend]
        · rw [JoinState.moveTo]
          split <;> rfl
      · rw [if_neg hend]
        have hsrc : r.srcStart = (a.chunk st.srcChunkNum).length := hdone.ended.resolve_right hend
        have hmoved := hdone.moved.resolve_right hend
        obtain ⟨bufs'', st', hrun, hfinal, hbetween, hnum⟩ := ih
          (st.moveTo r.srcStart (a.chunk st.srcChunkNum).length a.size) r.dstStart bufs'
          (ht.next hc hdone hend) (by have := hdone.dst_le; omega)
          (fun t ht' => by rw [hcells' t ht', cellsAt_chunk hc, moveTo_pos, hsrc])
          (by rw [moveTo_pos]; omega)
        refine ⟨bufs'', st', hrun, hfinal, hbetween, hnum.trans ?_⟩
        rw [JoinState.moveTo]
        split <;> rfl

/-- One output chunk. -/
theorem joinGen_clean (add : σ → β → σ) (hc : JoinClean a) (hne : ts ≠ []) (hnd : ts.Nodup) {t : JoinType} (ht : t ∈ ts)
    (h : Between a k st) (hnum : st.lChunkNum = k) (hk : k * a.size < a.dstLnk.elems.length) :
    ∃ st', joinGen a add ts t st k = some (cellsAt (t.kernel add) a k a.rows.length, st') ∧
      Between a (k + 1) st' ∧ st'.lChunkNum = k + 1 := by
  have hpos : 0 < (a.dstLnk.getChunk k).length := by
    have := a.size_pos
    rw [a.dst_eq hc.dstSize, length_page]
    omega
  obtain ⟨bufs', st', hrun, hcells, hb, -⟩ := joinWhile_clean add hc hne hnd
    (a.srcLnk.elems.length + 2) st 0
    (fun t => List.replicate (a.dstLnk.getChunk k).length (t.kernel add).zero) (h.turn hc) hpos
    (fun t _ => h.cells hc) (by rw [a.length_rows]; omega)
  refine ⟨{ st' with lChunkNum := k + 1 }, ?_, ⟨hb.chunk, hb.start, hb.le, hb.ahead⟩, rfl⟩
  rw [joinGen, if_neg (not_not.mpr hnum.symm)]
  simp only [hnum]
  rw [if_neg (by omega), hrun]
  simp only [Option.bind_some, hcells t ht]

/-- Whatever join types are asked for together, each output vector is what its
kernel makes of the whole of the vectors. -/
def JoinsWell (a : JoinInput κ β) (add : σ → β → σ) : Prop :=
  ∃ st, expanderJoin a = some st ∧ ∀ ts : List JoinType, ts ≠ [] → ts.Nodup → ∀ t ∈ ts,
    ∃ outs, Pulls (joinGen a add ts t) a.size st 0 outs ∧
      outs.flatten = joinAlone a (t.kernel add)

theorem JoinClean.joinsWell (hc : JoinClean a) : JoinsWell a add := by
  refine ⟨⟨0, 0, 0⟩, if_pos ⟨hc.lnkSize.symm, hc.dstSize.symm⟩, fun ts hne hnd t ht => ?_⟩
  refine Pulls.of_pieces (fun st k rest => Between a k st ∧ st.lChunkNum = k ∧
    k * a.size ≤ a.dstLnk.elems.length ∧ rest = (joinAlone a (t.kernel add)).drop (k * a.size))
    a.size_pos ?_ ⟨between_start hc, rfl, by simp, by simp⟩
  rintro st k rest ⟨hb, hnum, hle, rfl⟩
  have hk : k * a.size < a.dstLnk.elems.length :=
    Nat.lt_of_le_of_ne hle fun h => hc.dstShort ⟨k, by rw [← h, Nat.mul_comm]⟩
  obtain ⟨st', hgen, hb', hnum'⟩ := joinGen_clean add hc hne hnd ht hb hnum hk
  refine ⟨st', by rw [hgen, cellsAt_eq hc], fun hlen => ⟨hb', hnum', ?_, ?_⟩⟩
  · rw [List.length_drop, joinAlone_eq, List.length_map, List.length_range] at hlen
    rw [Nat.add_mul, Nat.one_mul]
    omega
  · rw [List.drop_drop, Nat.add_mul, Nat.one_mul]

end Driver

end QStore.Operators
