import QStore.Csv.Chunks

/-!
# QStore.Csv.OneShot

A file loaded in chunks against the same file loaded by one call of a chunk
larger than the file.

The two agree row by row as long as each row is read back from where it was
stored. In the buffer of the one call a string column wraps round at `2^32`
bytes; in the buffers of the chunks it need not.
-/

namespace QStore.Csv

/-- The same arguments with another `chunk_size`. -/
def LoadArgs.inChunks (a : LoadArgs) (size : Nat) : LoadArgs := { a with chunkSize := size }

/-- The calls `rs` give, put together, what the call `one` gives. -/
structure SameLoad (a : LoadArgs) (rs : List LoadResult) (one : LoadResult) : Prop where
  nR : (rs.map LoadResult.nR).sum = one.nR
  columns : ∀ c col, a.cols[c]? = some col → col.isLoad = true →
    rs.flatMap (fun r => r.column c col) = one.column c col
  flags : ∀ c col, a.cols[c]? = some col → col.isLoad = true → col.hasNulls = true →
    rs.flatMap (fun r => r.flags c) = one.flags c

/-- **Chunked loading equals loading at once**: the calls end, and either both
ways fail or both give the same. -/
def ChunkedIsOneShot (a : LoadArgs) (oneSize : Nat) : Prop :=
  ∃ n rs one, loadUntil a n 0 = some rs ∧ loadCsvSeq (a.inChunks oneSize) 0 = some one ∧
    ((one.status < 0 ∧ ∃ r ∈ rs, r.status < 0) ∨
      (one.status = 0 ∧ (∀ r ∈ rs, r.status = 0) ∧ SameLoad a rs one))

variable {a : LoadArgs} {X : Bytes} {sep : UInt8} {fileOffset : Nat} {rows : List (List Bytes)}
  {row : List Bytes} {cell : Bytes} {c x x' : Nat}

/-! ## columns and flags -/

/-- The cells of column `c`. -/
def columnCells (c : Nat) (rows : List (List Bytes)) : List Bytes :=
  rows.map fun row => row.getD c []

section Columns

variable {r : LoadResult} {col : Column}

theorem CallRead.column_eq (h : CallRead a rows r) (hlen : ∀ row ∈ rows, row.length = a.nC)
    (hcol : a.cols[c]? = some col) (hload : col.isLoad = true) :
    r.column c col = (List.range (columnCells c rows).length).map
      (valueAt col (columnWrites a col (columnCells c rows))) := by
  rw [LoadResult.column, h.nR, h.data, writesOf_call hcol hload hlen, columnCells, List.length_map]

/-- The columns of a call, if no slot wraps round. -/
theorem CallRead.column_of_fit (h : CallRead a rows r) (hlen : ∀ row ∈ rows, row.length = a.nC)
    (hcol : a.cols[c]? = some col) (hload : col.isLoad = true)
    (hfit : col.qtype = .SC → (rows.length - 1) * col.width < 2 ^ 32) :
    r.column c col = (columnCells c rows).map (cellValue a col) := by
  rw [h.column_eq hlen hcol hload]
  exact column_eq_map _ (by rw [columnCells, List.length_map]; exact hfit)

theorem CallRead.flags_eq (h : CallRead a rows r) (hcol : a.cols[c]? = some col)
    (hload : col.isLoad = true) (hnull : col.hasNulls = true) :
    r.flags c = (columnCells c rows).map fun cell => some (!isNull cell) := by
  rw [LoadResult.flags, h.nR, columnCells]
  apply List.ext_getElem (by simp)
  intro i hi _
  rw [List.length_map, List.length_range] at hi
  simp only [List.getElem_map, List.getElem_range]
  rw [h.nn i c col hi hcol hload hnull]
  simp [List.getD_eq_getElem?_getD, hi]

end Columns

/-- What each call gives of its piece, the run gives of the whole. -/
theorem flatMap_pieces {β : Type} {pieces : List (List (List Bytes))} {rs : List LoadResult}
    {R : List (List Bytes) → LoadResult → Prop} {g : LoadResult → List β} {f : Bytes → β}
    (h : List.Forall₂ R pieces rs)
    (hg : ∀ p r, p ∈ pieces → R p r → g r = (columnCells c p).map f) :
    rs.flatMap g = (columnCells c pieces.flatten).map f := by
  induction h with
  | nil => rfl
  | @cons p r ps rs hr _ ih =>
      rw [List.flatMap_cons, List.flatten_cons, columnCells, List.map_append, List.map_append,
        ih fun q r' hq => hg q r' (List.mem_cons_of_mem p hq), hg p r (by simp) hr]
      rfl

theorem sum_nR {pieces : List (List (List Bytes))} {rs : List LoadResult}
    (h : List.Forall₂ (CallRead a) pieces rs) :
    (rs.map LoadResult.nR).sum = pieces.flatten.length := by
  induction h with
  | nil => rfl
  | cons hr _ ih =>
      rw [List.map_cons, List.sum_cons, ih, hr.nR, List.flatten_cons, List.length_append]

theorem forall_status {pieces : List (List (List Bytes))} {rs : List LoadResult}
    (h : List.Forall₂ (CallRead a) pieces rs) : ∀ r ∈ rs, r.status = 0 := by
  induction h with
  | nil => simp
  | cons hr _ ih => exact List.forall_mem_cons.mpr ⟨hr.status, ih⟩

/-! What the chunk size leaves as it is. -/

section InChunks

variable {size : Nat}

theorem takesRows_inChunks : takesRows (a.inChunks size) rows = takesRows a rows := by
  have hrow : ∀ c (row : List Bytes), takesFrom (a.inChunks size) c row = takesFrom a c row := by
    intro c row
    induction row generalizing c with
    | nil => rfl
    | cons cell cells ih => simp only [takesFrom, ih]; rfl
  rw [takesRows, takesRows, funext (hrow 0)]

theorem ReadsRow.inChunks (h : ReadsRow a X sep c x row x') :
    ReadsRow (a.inChunks size) X sep c x row x' := by
  induction h with
  | last hc hcol hget hlt hle => exact .last hc hcol hget hlt hle
  | cons hc hcol hget hlt _ ih => exact .cons hc hcol hget hlt ih

theorem ReadsRows.inChunks (h : ReadsRows a X sep x rows) :
    ReadsRows (a.inChunks size) X sep x rows := by
  induction h with
  | nil => exact .nil
  | cons hrow _ ih => exact .cons hrow.inChunks ih

theorem RowsAt.inChunks (h : RowsAt a X sep fileOffset rows) :
    RowsAt (a.inChunks size) X sep fileOffset rows := by
  unfold RowsAt at h ⊢
  by_cases hh : (a.isHdr && fileOffset == 0) = true
  · rw [if_pos hh] at h
    rw [if_pos (show ((a.inChunks size).isHdr && fileOffset == 0) = true from hh)]
    obtain ⟨hdr, x, hrow, hrest⟩ := h
    exact ⟨hdr, x, hrow.inChunks, hrest.inChunks⟩
  · rw [if_neg hh] at h
    rw [if_neg (show ¬ ((a.inChunks size).isHdr && fileOffset == 0) = true from hh)]
    exact h.inChunks

end InChunks

/-! ## the two loads -/

/-- Every load of the file is refused: the buffers, an empty file, or a cell. -/
def LoadFails (a : LoadArgs) (X : Bytes) (rows : List (List Bytes)) : Prop :=
  a.nC = 0 ∨ chkData a.cols a.maxWidth = false ∨ X = [] ∨ takesRows a rows = false

/-- The last slot of every string column begins below `2^32`. -/
def SlotsFit (a : LoadArgs) (n : Nat) : Prop :=
  ∀ (c : Nat) (col : Column), a.cols[c]? = some col → col.isLoad = true → col.qtype = .SC →
    (n - 1) * col.width < 2 ^ 32

/-- A call that is refused before it reads a row. -/
theorem loadCsvSeq_refused (hfile : a.file = some X)
    (h : a.nC = 0 ∨ chkData a.cols a.maxWidth = false ∨ X = []) :
    loadCsvSeq a 0 = some (noRows (-1) 0) := by
  unfold loadCsvSeq
  by_cases h0 : a.nC = 0
  · rw [if_pos h0]
  · rw [if_neg h0]
    by_cases hc : chkData a.cols a.maxWidth = false
    · rw [if_pos (by rw [hc]; rfl)]
    · obtain rfl : X = [] := (h.resolve_left h0).resolve_left hc
      rw [if_neg (by simpa using hc), hfile]
      rfl

theorem WellFormed.ready (hf : WellFormed a X sep rows) (hpos : 0 < a.chunkSize)
    (h : ¬ (a.nC = 0 ∨ chkData a.cols a.maxWidth = false ∨ X = [])) : Ready a X sep := by
  rw [not_or, not_or] at h
  constructor
  · omega
  · simpa using h.2.1
  · exact hf.file
  · exact hf.separator
  · exact List.length_pos_iff.mpr h.2.2
  · exact hpos

theorem RowsAt.lengths (h : RowsAt a X sep fileOffset rows) : ∀ row ∈ rows, row.length = a.nC := by
  unfold RowsAt at h
  split at h
  · obtain ⟨hdr, x, -, hrest⟩ := h
    exact hrest.lengths
  · exact h.lengths

/-- The one call reads every row, or fails on one. -/
theorem oneShot_reads (hl : Ready a X sep) (hrows : RowsAt a X sep 0 rows) {size : Nat}
    (hsize : rows.length < size) :
    (takesRows a rows = true → ∃ one, loadCsvSeq (a.inChunks size) 0 = some one ∧
      CallRead (a.inChunks size) rows one) ∧
    (takesRows a rows = false → ∃ one, loadCsvSeq (a.inChunks size) 0 = some one ∧
      one.status < 0) := by
  have hl' : Ready (a.inChunks size) X sep := by
    constructor
    · exact hl.columns
    · exact hl.checked
    · exact hl.file
    · exact hl.separator
    · exact hl.nonempty
    · exact Nat.lt_of_le_of_lt (Nat.zero_le _) hsize
  have hall : rows.take (a.inChunks size).chunkSize = rows :=
    List.take_of_length_le (Nat.le_of_lt hsize)
  obtain ⟨hgo, hfail⟩ := callReads hl' hrows.inChunks
  rw [hall, takesRows_inChunks] at hgo hfail
  refine ⟨fun h => ?_, hfail⟩
  obtain ⟨one, hone, hread, -⟩ := hgo h
  exact ⟨one, hone, hread⟩

/-- Where the slots fit, or one chunk takes it all, the chunks give what the one
call gives. -/
theorem sameLoad_of_pieces {pieces : List (List (List Bytes))} {rs : List LoadResult}
    {one : LoadResult} {size : Nat} (hlens : ∀ row ∈ rows, row.length = a.nC)
    (hp : List.Forall₂ (CallRead a) pieces rs) (hflat : pieces.flatten = rows)
    (hhead : pieces.head? = some (rows.take a.chunkSize))
    (hone : CallRead (a.inChunks size) rows one)
    (h : rows.length ≤ a.chunkSize ∨ SlotsFit a rows.length) : SameLoad a rs one := by
  -- a row of a piece is a row of the file
  have hpiece : ∀ p ∈ pieces, (∀ row ∈ p, row.length = a.nC) ∧ p.length ≤ rows.length := by
    intro p hmem
    rw [← hflat] at hlens ⊢
    exact ⟨fun row hr => hlens row (List.mem_flatten.mpr ⟨p, hmem, hr⟩),
      (List.sublist_flatten_of_mem hmem).length_le⟩
  constructor
  · rw [sum_nR hp, hflat, hone.nR]
  · intro c col hcol hload
    rcases h with hle | hfit
    · -- the first piece is the file, and the others are empty
      cases hp with
      | nil => contradiction
      | @cons p r ps rs hr hrest =>
          obtain rfl : p = rows := by
            rw [List.head?_cons, Option.some.injEq] at hhead
            rw [hhead, List.take_of_length_le hle]
          have hempty : ps.flatten = [] := by simpa using hflat
          have hnone : rs.flatMap (fun r => r.column c col) =
              (columnCells c ps.flatten).map fun _ => Value.num none := by
            refine flatMap_pieces hrest fun q r' hq hr' => ?_
            obtain rfl : q = [] := List.flatten_eq_nil_iff.mp hempty q hq
            rw [LoadResult.column, hr'.nR]
            rfl
          rw [List.flatMap_cons, hnone, hempty, hr.column_eq hlens hcol hload,
            hone.column_eq hlens hcol hload]
          exact List.append_nil _
    · have hfits := hfit c col hcol hload
      rw [flatMap_pieces hp fun p r hmem hr => hr.column_of_fit (hpiece p hmem).1 hcol hload
        fun hq => ?_, hflat]
      · exact (hone.column_of_fit hlens hcol hload hfits).symm
      · refine Nat.lt_of_le_of_lt (Nat.mul_le_mul_right _ ?_) (hfits hq)
        exact Nat.sub_le_sub_right (hpiece p hmem).2 1
  · intro c col hcol hload hnull
    rw [flatMap_pieces hp fun p r _ hr => hr.flags_eq hcol hload hnull, hflat]
    exact (hone.flags_eq hcol hload hnull).symm

theorem chunkedIsOneShot_of (hf : WellFormed a X sep rows) (hpos : 0 < a.chunkSize) {size : Nat}
    (hsize : rows.length < size)
    (h : LoadFails a X rows ∨ rows.length ≤ a.chunkSize ∨ SlotsFit a rows.length) :
    ChunkedIsOneShot a size := by
  by_cases href : a.nC = 0 ∨ chkData a.cols a.maxWidth = false ∨ X = []
  · refine ⟨1, [noRows (-1) 0], noRows (-1) 0, ?_, ?_,
      .inl ⟨by decide, noRows (-1) 0, by simp, by decide⟩⟩
    · rw [loadUntil, loadCsvSeq_refused hf.file href, Option.bind_some, if_pos (.inl (by decide))]
    · exact loadCsvSeq_refused (a := a.inChunks size) hf.file href
  · have hl := hf.ready hpos href
    obtain ⟨rs, hrs, hok, herr⟩ := loadUntil_reads hl rows.length (Nat.le_refl _) hf.reads
    obtain ⟨hone, hone'⟩ := oneShot_reads hl hf.reads hsize
    cases htakes : takesRows a rows with
    | false =>
        obtain ⟨one, h1, h2⟩ := hone' htakes
        exact ⟨_, rs, one, hrs, h1, .inl ⟨h2, herr htakes⟩⟩
    | true =>
        obtain ⟨one, h1, hread⟩ := hone htakes
        obtain ⟨pieces, hp, hflat, -, hhead⟩ := hok htakes
        have hfits : rows.length ≤ a.chunkSize ∨ SlotsFit a rows.length := by
          refine h.resolve_left fun hfails => ?_
          rcases hfails with h0 | h0 | h0 | h0
          · exact href (.inl h0)
          · exact href (.inr (.inl h0))
          · exact href (.inr (.inr h0))
          · rw [htakes] at h0
            contradiction
        exact ⟨_, rs, one, hrs, h1, .inr ⟨hread.status, forall_status hp,
          sameLoad_of_pieces hf.reads.lengths hp hflat hhead hread hfits⟩⟩

/-! ## slots that do not fit -/

/-- Which rows of a call's string column are whole. -/
theorem CallRead.whole {r : LoadResult} {col : Column} (h : CallRead a rows r)
    (hlen : ∀ row ∈ rows, row.length = a.nC) (hcol : a.cols[c]? = some col)
    (hload : col.isLoad = true) (hq : col.qtype = .SC) :
    (r.column c col).map Value.whole =
      (List.range rows.length).map fun i => decide (i * col.width < 2 ^ 32) := by
  have hcells : (columnCells c rows).length = rows.length := List.length_map _
  rw [h.column_eq hlen hcol hload, hcells, List.map_map]
  apply List.map_congr_left
  intro i hi
  rw [List.mem_range] at hi
  exact whole_valueAt hq _ (by rw [hcells]; exact hi)

section Pieces

variable {ps : List (List (List Bytes))} {D : Nat → Bool}

/-- What is true of row 0 of each piece is true of the first row of all. -/
theorem head_pieces (hne : ps.flatten ≠ []) :
    (ps.flatMap fun p => (List.range p.length).map D).head? = some (D 0) := by
  induction ps with
  | nil => contradiction
  | cons p ps ih =>
      cases p with
      | nil => simpa using ih (by simpa using hne)
      | cons row p => simp [List.range_succ_eq_map]

/-- Numbering the rows anew in each piece is numbering them through only as far
as nothing changes from the first row on. -/
theorem last_of_pieces {p : List (List Bytes)} {n : Nat} (h0 : D 0 = true)
    (hanti : ∀ i j, i ≤ j → D j = true → D i = true) (hne : ps.flatten ≠ [])
    (hlens : ∀ q ∈ ps, q.length ≤ p.length) (hn : p.length < n)
    (h : (p :: ps).flatMap (fun p => (List.range p.length).map D) = (List.range n).map D) :
    D (n - 1) = true := by
  rw [List.flatMap_cons] at h
  have hk : D p.length = true := by
    have hget := congrArg (fun l => l[p.length]?) h
    rw [List.getElem?_append_right (by simp), List.length_map, List.length_range, Nat.sub_self,
      ← List.head?_eq_getElem?, head_pieces hne, h0, List.getElem?_map,
      List.getElem?_range hn] at hget
    exact (Option.some.inj hget).symm
  have hmem : D (n - 1) ∈ (List.range n).map D :=
    List.mem_map.mpr ⟨n - 1, List.mem_range.mpr (by omega), rfl⟩
  rw [← h, List.mem_append] at hmem
  rcases hmem with hmem | hmem
  · obtain ⟨i, hi, hD⟩ := List.mem_map.mp hmem
    rw [← hD]
    exact hanti i p.length (Nat.le_of_lt (List.mem_range.mp hi)) hk
  · obtain ⟨q, hq, hmem⟩ := List.mem_flatMap.mp hmem
    obtain ⟨i, hi, hD⟩ := List.mem_map.mp hmem
    rw [← hD]
    have hlt := List.mem_range.mp hi
    have hle := hlens q hq
    exact hanti i p.length (by omega) hk

end Pieces

/-- The rows of the pieces that are whole. -/
theorem whole_pieces {pieces : List (List (List Bytes))} {rs : List LoadResult} {col : Column}
    (hp : List.Forall₂ (CallRead a) pieces rs)
    (hlen : ∀ p ∈ pieces, ∀ row ∈ p, row.length = a.nC) (hcol : a.cols[c]? = some col)
    (hload : col.isLoad = true) (hq : col.qtype = .SC) :
    (rs.flatMap fun r => r.column c col).map Value.whole =
      pieces.flatMap fun p =>
        (List.range p.length).map fun i => decide (i * col.width < 2 ^ 32) := by
  induction hp with
  | nil => rfl
  | @cons p r ps rs hr _ ih =>
      rw [List.flatMap_cons, List.map_append, List.flatMap_cons,
        hr.whole (hlen p (by simp)) hcol hload hq,
        ih fun q hq => hlen q (List.mem_cons_of_mem p hq)]

/-- If more than one chunk gives what the one call gives, the slots fit. -/
theorem slotsFit_of_sameLoad {pieces : List (List (List Bytes))} {rs : List LoadResult}
    {one : LoadResult} {size : Nat} (hlens : ∀ row ∈ rows, row.length = a.nC)
    (hp : List.Forall₂ (CallRead a) pieces rs) (hflat : pieces.flatten = rows)
    (hsmall : ∀ p ∈ pieces, p.length ≤ a.chunkSize)
    (hhead : pieces.head? = some (rows.take a.chunkSize))
    (hone : CallRead (a.inChunks size) rows one) (hlt : a.chunkSize < rows.length)
    (h : SameLoad a rs one) : SlotsFit a rows.length := by
  intro c col hcol hload hq
  have hwhole := congrArg (List.map Value.whole) (h.columns c col hcol hload)
  have hpieces : ∀ p ∈ pieces, ∀ row ∈ p, row.length = a.nC := by
    intro p hmem row hr
    exact hlens row (hflat ▸ List.mem_flatten.mpr ⟨p, hmem, hr⟩)
  rw [whole_pieces hp hpieces hcol hload hq, hone.whole hlens hcol hload hq] at hwhole
  cases pieces with
  | nil => contradiction
  | cons p ps =>
      rw [List.head?_cons, Option.some.injEq] at hhead
      have hfirst : p.length = a.chunkSize := by
        rw [hhead, List.length_take]
        omega
      have hrest : ps.flatten ≠ [] := by
        intro hnil
        have hlen := congrArg List.length hflat
        rw [List.flatten_cons, hnil, List.append_nil] at hlen
        omega
      have hlast := last_of_pieces (by simp) (fun i j hij hj => ?_) hrest
        (fun q hmem => hfirst ▸ hsmall q (List.mem_cons_of_mem p hmem)) (by omega) hwhole
      · simpa using hlast
      · rw [decide_eq_true_eq] at hj ⊢
        exact Nat.lt_of_le_of_lt (Nat.mul_le_mul_right _ hij) hj

theorem slotsFit_of_chunkedIsOneShot (hf : WellFormed a X sep rows) (hpos : 0 < a.chunkSize)
    {size : Nat} (hsize : rows.length < size) (h : ChunkedIsOneShot a size) :
    LoadFails a X rows ∨ rows.length ≤ a.chunkSize ∨ SlotsFit a rows.length := by
  by_cases href : a.nC = 0 ∨ chkData a.cols a.maxWidth = false ∨ X = []
  · left
    rcases href with h0 | h0 | h0
    · exact .inl h0
    · exact .inr (.inl h0)
    · exact .inr (.inr (.inl h0))
  · have hl := hf.ready hpos href
    cases htakes : takesRows a rows with
    | false => exact .inl (.inr (.inr (.inr htakes)))
    | true =>
        right
        by_cases hle : rows.length ≤ a.chunkSize
        · exact .inl hle
        · obtain ⟨rs, hrs, hok, -⟩ := loadUntil_reads hl rows.length (Nat.le_refl _) hf.reads
          obtain ⟨one, hone, hread⟩ := (oneShot_reads hl hf.reads hsize).1 htakes
          obtain ⟨pieces, hp, hflat, hsmall, hhead⟩ := hok htakes
          obtain ⟨n, rs', one', h1, h2, hsame⟩ := h
          obtain rfl := loadUntil_unique hrs h1
          rw [hone, Option.some.injEq] at h2
          subst h2
          rcases hsame with ⟨hst, -⟩ | ⟨-, -, hsame⟩
          · rw [hread.status] at hst
            contradiction
          · exact .inr (slotsFit_of_sameLoad hf.reads.lengths hp hflat hsmall hhead hread
              (by omega) hsame)

/-- **When chunks give what one call gives**: exactly when every load of the file
fails, or one chunk takes it whole, or in the buffer of the one call the last
slot of every string column begins below `2^32`. -/
theorem chunkedIsOneShot_iff (hf : WellFormed a X sep rows) (hpos : 0 < a.chunkSize) {size : Nat}
    (hsize : rows.length < size) :
    ChunkedIsOneShot a size ↔
      LoadFails a X rows ∨ rows.length ≤ a.chunkSize ∨ SlotsFit a rows.length :=
  ⟨slotsFit_of_chunkedIsOneShot hf hpos hsize, chunkedIsOneShot_of hf hpos hsize⟩

/-! ## files that were written as CSV -/

/-- Cells that `get_cell` has room for. -/
def CellsFit (a : LoadArgs) (cells : List Bytes) : Prop :=
  1 < a.maxWidth ∧ ∀ cell ∈ cells, cell.length < a.maxWidth

theorem ReadsRow.of_encodes (hsep : getFldSep a.strFldSep = some sep)
    (hnt : ∀ (c : Nat) (col : Column), a.cols[c]? = some col → col.isTrim = false)
    {p bs post : Bytes} (henc : EncodesRow sep row bs) (hX : X = p ++ (bs ++ post))
    (hlen : c + row.length = a.nC) (hfit : CellsFit a row) :
    ReadsRow a X sep c p.length row (p.length + bs.length) := by
  obtain ⟨hbuf, hcells⟩ := hfit
  have hget : ∀ {c : Nat}, c < a.nC → ∃ col, a.cols[c]? = some col ∧ col.isTrim = false := by
    intro c hc
    have hsome := List.getElem?_eq_getElem (show c < a.cols.length from hc)
    exact ⟨_, hsome, hnt c _ hsome⟩
  induction henc generalizing c p with
  | @last cell b h =>
      rw [List.length_singleton] at hlen
      obtain ⟨col, hcol, htrim⟩ := hget (show c < a.nC by omega)
      have hshort := hcells cell (by simp)
      have hread : getCell (p ++ (b ++ eoln :: post)) p.length sep true false (a.maxWidth - 1) =
          some ⟨p.length + b.length + 1, cell, false⟩ :=
        getCell_encoded p post h (getFldSep_ne hsep) (by omega) (by omega) rfl
      rw [List.length_append, List.length_singleton]
      refine .last hlen hcol ?_ (by omega) (by rw [hX]; simp)
      rw [htrim, show X = p ++ (b ++ eoln :: post) by rw [hX]; simp]
      exact hread
  | @cons cell b bs cells h hr ih =>
      rw [List.length_cons] at hlen
      have hpos : 0 < cells.length := List.length_pos_iff.mpr hr.ne_nil.1
      obtain ⟨col, hcol, htrim⟩ := hget (show c < a.nC by omega)
      have hshort := hcells cell (by simp)
      have hread : getCell (p ++ (b ++ sep :: (bs ++ post))) p.length sep false false
          (a.maxWidth - 1) = some ⟨p.length + b.length + 1, cell, false⟩ :=
        getCell_encoded p (bs ++ post) h (getFldSep_ne hsep) (by omega) (by omega) rfl
      have hrest := ih (c := c + 1) (p := p ++ (b ++ [sep])) (by rw [hX]; simp) (by omega)
        (fun cell' hc' => hcells cell' (List.mem_cons_of_mem cell hc'))
      have hplace : (p ++ (b ++ [sep])).length = p.length + b.length + 1 := by
        simp [Nat.add_assoc]
      rw [hplace] at hrest
      have hstop : p.length + (b ++ sep :: bs).length = p.length + b.length + 1 + bs.length := by
        rw [List.length_append, List.length_cons]
        omega
      rw [hstop]
      refine .cons (by omega) hcol ?_ (by omega) hrest
      rw [htrim, show X = p ++ (b ++ sep :: (bs ++ post)) by rw [hX]; simp]
      exact hread

/-- A table written as CSV, with rows of `nC` cells, reads back as its rows. -/
theorem ReadsRows.of_encodes (hsep : getFldSep a.strFldSep = some sep)
    (hnt : ∀ (c : Nat) (col : Column), a.cols[c]? = some col → col.isTrim = false)
    {p bs : Bytes} (henc : EncodesFile sep rows bs) (hX : X = p ++ bs)
    (hrows : ∀ row ∈ rows, row.length = a.nC ∧ CellsFit a row) :
    ReadsRows a X sep p.length rows := by
  induction henc generalizing p with
  | nil =>
      rw [hX, List.append_nil]
      exact .nil
  | @cons row rows b bs hr _ ih =>
      obtain ⟨hlen, hfit⟩ := hrows row (by simp)
      have hrow := ReadsRow.of_encodes (c := 0) hsep hnt hr hX (by omega) hfit
      have hrest := ih (p := p ++ b) (by rw [hX]; simp)
        (fun row' hr' => hrows row' (List.mem_cons_of_mem row hr'))
      rw [List.length_append] at hrest
      exact .cons hrow hrest

/-- One string column of the given width, in chunks of one row, from a file of
`n` rows `a`. -/
def oneColumn (width n : Nat) : LoadArgs where
  file := some (List.replicate n [97, 10]).flatten
  cols := [⟨.SC, width, false, true, false, true, false⟩]
  strFldSep := "comma".toUTF8.data.toList
  chunkSize := 1
  maxWidth := width
  nnQtype := .BL
  isHdr := false
  txt := fun _ _ => none

theorem wellFormed_oneColumn {width : Nat} (hw : 1 < width) (n : Nat) :
    WellFormed (oneColumn width n) (List.replicate n [97, 10]).flatten 44
      (List.replicate n [[97]]) := by
  have hsep : getFldSep ("comma".toUTF8.data.toList) = some 44 := by decide +kernel
  have henc : EncodesFile 44 (List.replicate n [[97]]) (List.replicate n [97, 10]).flatten := by
    induction n with
    | zero => exact .nil
    | succ n ih =>
        rw [List.replicate_succ, List.replicate_succ, List.flatten_cons]
        exact .cons (.last (.raw ⟨by decide, by decide, by decide, by decide⟩)) ih
  constructor
  · rfl
  · exact hsep
  · rw [RowsAt, if_neg (by simp [oneColumn])]
    refine ReadsRows.of_encodes (p := []) hsep ?_ henc rfl ?_
    · intro c col hcol
      have hmem := List.mem_of_getElem? hcol
      simp only [oneColumn, List.mem_singleton] at hmem
      rw [hmem]
    · intro row hrow
      rw [List.eq_of_mem_replicate hrow]
      exact ⟨rfl, hw, by simpa [oneColumn] using hw⟩

/-- Three rows in chunks of one. -/
theorem chunkedIsOneShot_three : ChunkedIsOneShot (oneColumn 8 3) 4 :=
  (chunkedIsOneShot_iff (wellFormed_oneColumn (by decide) 3) (by decide) (by decide)).mpr
    (.inr (.inr (by
      intro c col hcol _ _
      have hmem := List.mem_of_getElem? hcol
      simp only [oneColumn, List.mem_singleton] at hmem
      rw [hmem]
      decide)))

/-- A string column whose rows do not fit below `2^32`: the one call stores the
last row over rows before it. -/
theorem oneColumn_wraps {width n : Nat} (hw : 1 < width) (hmax : width ≤ 65536)
    (hn : 2 ^ 32 ≤ (n - 1) * width) : ¬ ChunkedIsOneShot (oneColumn width n) (n + 1) := by
  intro h
  have hlen : (List.replicate n [([97] : Bytes)]).length = n := List.length_replicate
  have hpos : 1 < n := by
    rcases Nat.lt_or_ge 1 n with h1 | h1
    · exact h1
    · rw [Nat.sub_eq_zero_of_le h1, Nat.zero_mul] at hn
      omega
  have hsize : (List.replicate n [([97] : Bytes)]).length < n + 1 := by omega
  rcases slotsFit_of_chunkedIsOneShot (wellFormed_oneColumn hw n) Nat.one_pos hsize h with
    h | h | h
  · rcases h with h | h | h | h
    · contradiction
    · simp [chkData, oneColumn, hmax] at h
      omega
    · rw [List.flatten_eq_nil_iff] at h
      have hmem := h [97, 10] (List.mem_replicate.mpr ⟨by omega, rfl⟩)
      contradiction
    · have hall : takesRows (oneColumn width n) (List.replicate n [[97]]) = true := by
        rw [takesRows, List.all_eq_true]
        intro row hrow
        rw [List.eq_of_mem_replicate hrow]
        rfl
      rw [hall] at h
      contradiction
  · rw [hlen] at h
    simp only [oneColumn] at h
    omega
  · have hwrap := h 0 _ rfl rfl rfl
    rw [hlen] at hwrap
    exact absurd hwrap (Nat.not_lt.mpr hn)

/-- 65537 strings of 65536 bytes. -/
theorem chunkedIsOneShot_fails : ¬ ChunkedIsOneShot (oneColumn 65536 65537) (65537 + 1) :=
  oneColumn_wraps (by decide) (by decide) (by decide)

end QStore.Csv
