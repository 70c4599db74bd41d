import QStore.Csv.LoadCsv

/-!
# QStore.Csv.RoundTrip

A table written as CSV and loaded back by successive calls of `load_csv_seq`,
each from the file offset the one before left.

```
row   =  cell sep cell sep … cell eoln
file  =  row row …
```

`getCell_encoded` is the round trip of one cell. Here it is carried through a
turn of the loop, a row, the rows of one call and the calls of a run.
-/

namespace QStore.Csv

/-- The ways to write a row. -/
inductive EncodesRow (sep : UInt8) : List Bytes → Bytes → Prop
  | last {c b : Bytes} (h : EncodesCell sep c b) : EncodesRow sep [c] (b ++ [eoln])
  | cons {c b bs : Bytes} {cs : List Bytes} (h : EncodesCell sep c b) (hr : EncodesRow sep cs bs) :
      EncodesRow sep (c :: cs) (b ++ sep :: bs)

/-- The ways to write a table. -/
inductive EncodesFile (sep : UInt8) : List (List Bytes) → Bytes → Prop
  | nil : EncodesFile sep [] []
  | cons {r : List Bytes} {rs : List (List Bytes)} {b bs : Bytes} (h : EncodesRow sep r b)
      (hf : EncodesFile sep rs bs) : EncodesFile sep (r :: rs) (b ++ bs)

/-- A cell that a column takes: NUL-free and shorter than the buffer and, if the
column is loaded, not null unless nulls are allowed, and convertible. -/
structure Loadable (a : LoadArgs) (col : Column) (cell : Bytes) : Prop where
  noNul : (0 : UInt8) ∉ cell
  short : cell.length < a.maxWidth
  notNull : col.isLoad = true → cell = [] → col.hasNulls = true
  converts : col.isLoad = true → ∀ row, ∃ d,
    ascToBin a.txt cell (cell.headD 0 == 0) col.qtype col.width row = some d

/-- Arguments for loading a table: no header, no trimming, and buffers that
`chk_data` accepts. -/
structure Loads (a : LoadArgs) (sep : UInt8) : Prop where
  columns : 0 < a.nC
  checked : chkData a.cols a.maxWidth = true
  separator : getFldSep a.strFldSep = some sep
  noHdr : a.isHdr = false
  noTrim : ∀ (c : Nat) (col : Column), a.cols[c]? = some col → col.isTrim = false
  buffer : 1 < a.maxWidth
  chunk : 0 < a.chunkSize
  flags : a.nnQtype = .B1 ∨ a.nnQtype = .BL

/-- A row the columns take, from column `c` on. -/
def RowFrom (a : LoadArgs) (c : Nat) (row : List Bytes) : Prop :=
  c + row.length = a.nC ∧
    ∀ i cell col, row[i]? = some cell → a.cols[c + i]? = some col → Loadable a col cell

variable {a : LoadArgs} {sep : UInt8} {X : Bytes} {fileOffset : Nat} {s : LoadState}

theorem getFldSep_ne {str : Bytes} (h : getFldSep str = some sep) :
    sep ≠ bslash ∧ sep ≠ dquote := by
  unfold getFldSep at h
  split at h
  · rw [← Option.some.inj h]; decide
  · split at h
    · rw [← Option.some.inj h]; decide
    · contradiction

theorem EncodesRow.ne_nil {cs : List Bytes} {bs : Bytes} (h : EncodesRow sep cs bs) :
    cs ≠ [] ∧ bs ≠ [] := by
  cases h <;> simp

theorem EncodesFile.nil_iff {rs : List (List Bytes)} {bs : Bytes} (h : EncodesFile sep rs bs) :
    bs = [] ↔ rs = [] := by
  cases h with
  | nil => simp
  | cons hr hf => simp [hr.ne_nil.2]

/-! ## one cell -/

/-- A cell the column takes is stored. -/
theorem storeCell_isSome {col : Column} {cell : Bytes} (hf : a.nnQtype = .B1 ∨ a.nnQtype = .BL)
    (hload : col.isLoad = true) (hc : Loadable a col cell) (s : LoadState) :
    ∃ t, storeCell a col cell s = some t ∧ t.xidx = s.xidx ∧ t.isHdr = s.isHdr ∧
      t.rowCtr = s.rowCtr ∧ t.colCtr = s.colCtr ∧ t.cells = s.cells := by
  have hnull : ¬ (cell.headD 0 == 0 && !col.hasNulls) = true := by
    cases cell with
    | nil => simp [hc.notNull hload rfl]
    | cons b bs =>
        have hb : b ≠ 0 := by rintro rfl; exact hc.noNul (by simp)
        simp [hb]
  obtain ⟨d, hd⟩ := hc.converts hload s.rowCtr
  simp only [storeCell, if_neg hnull]
  cases hn : col.hasNulls with
  | false =>
      refine ⟨setData s d, ?_, rfl, rfl, rfl, rfl, rfl⟩
      simp only [Bool.false_eq_true, if_false, Option.bind_some, hd, Option.map_some]
  | true =>
      refine ⟨setData (setNn s (!(cell.headD 0 == 0))) d, ?_, rfl, rfl, rfl, rfl, rfl⟩
      simp only [if_pos hf, if_true, Option.bind_some]
      rw [show (setNn s (!(cell.headD 0 == 0))).rowCtr = s.rowCtr from rfl, hd]
      rfl

/-- **One turn** at an encoded cell reads the cell and moves past the byte that
ends it. -/
theorem loadStep_encoded (fileOffset : Nat) (hl : Loads a sep) {p b post cell : Bytes}
    {col : Column} {term : UInt8} (hX : X = p ++ (b ++ term :: post)) (hx : s.xidx = p.length) (hh : s.isHdr = false)
    (hcol : a.cols[s.colCtr]? = some col) (henc : EncodesCell sep cell b)
    (hc : Loadable a col cell)
    (hterm : term = if decide (s.colCtr = a.nC - 1) then eoln else sep) :
    ∃ t, loadStep a X sep fileOffset s = some (endTurn a.nC a.chunkSize post.isEmpty t) ∧
      t.xidx = p.length + b.length + 1 ∧ t.isHdr = false ∧ t.rowCtr = s.rowCtr ∧
      t.colCtr = s.colCtr ∧ t.cells = s.cells ++ [cell] := by
  have hbuf := hl.buffer
  have hshort := hc.short
  have hget := getCell_encoded p post henc (getFldSep_ne hl.separator)
    (show cell.length ≤ a.maxWidth - 1 by omega) (by omega) hterm
  obtain ⟨u, hu⟩ : ∃ u : LoadState, u = setXidx s (p.length + b.length + 1) := ⟨_, rfl⟩
  have hstep : loadStep a X sep fileOffset s = some (bodyTurn a X.length col cell u) := by
    simp only [loadStep, hcol, Option.bind_some, hx, hX, hl.noTrim _ _ hcol, hget, Option.map_some,
      Bool.false_eq_true, if_false, hh, Bool.false_and, ← hu]
  have hend : (decide (u.xidx ≥ X.length)) = post.isEmpty := by
    rw [hu, hX]
    cases post with
    | nil => simp [setXidx]; omega
    | cons => simp [setXidx]; omega
  have hend' : (u.xidx == X.length) = post.isEmpty := by
    rw [hu, hX]
    cases post with
    | nil => simp [setXidx]; omega
    | cons => simp [setXidx]; omega
  rw [hstep]
  by_cases hload : col.isLoad = true
  · obtain ⟨t, ht, h1, h2, h3, h4, h5⟩ :=
      storeCell_isSome hl.flags hload hc { u with cells := u.cells ++ [cell] }
    refine ⟨t, ?_, h1.trans (by rw [hu]; rfl), h2.trans (by rw [hu]; exact hh),
      h3.trans (by rw [hu]; rfl), h4.trans (by rw [hu]; rfl), h5.trans (by rw [hu]; rfl)⟩
    simp only [bodyTurn, hload, Bool.not_true, Bool.false_eq_true, if_false, ht, hend]
  · refine ⟨{ u with cells := u.cells ++ [cell] }, ?_, by rw [hu]; rfl, by rw [hu]; exact hh,
      by rw [hu]; rfl, by rw [hu]; rfl, by rw [hu]; rfl⟩
    simp only [bodyTurn, hload, Bool.not_false, if_true, hend']

/-! ## one row -/

/-- **One row**, from the column the loop stands at: its cells are read in order,
and the loop is left at the chunk's end or at the end of the file. -/
theorem loadLoop_row (fileOffset : Nat) (hl : Loads a sep) {p bs post : Bytes} {row : List Bytes}
    (henc : EncodesRow sep row bs) (hX : X = p ++ (bs ++ post)) (hx : s.xidx = p.length)
    (hh : s.isHdr = false) (hrow : RowFrom a s.colCtr row) :
    ∃ t : LoadState, t.xidx = p.length + bs.length ∧ t.isHdr = false ∧
      t.rowCtr = s.rowCtr + 1 ∧ t.colCtr = 0 ∧ t.cells = s.cells ++ row ∧
      ∀ fuel, loadLoop a X sep fileOffset (row.length + fuel) s =
        if t.rowCtr = a.chunkSize ∨ post = [] then some (some t)
        else loadLoop a X sep fileOffset fuel t := by
  induction henc generalizing s p with
  | @last c b h =>
      obtain ⟨hlen, hcells⟩ := hrow
      simp only [List.length_singleton] at hlen
      obtain ⟨col, hcol⟩ : ∃ col, a.cols[s.colCtr]? = some col := by
        rw [List.getElem?_eq_getElem (show s.colCtr < a.cols.length from by
          unfold LoadArgs.nC at hlen; omega)]
        exact ⟨_, rfl⟩
      have hX' : X = p ++ (b ++ eoln :: post) := by rw [hX]; simp
      obtain ⟨t, hstep, h1, h2, h3, h4, h5⟩ := loadStep_encoded fileOffset hl hX' hx hh hcol h
        (hcells 0 c col rfl (by simpa using hcol))
        (by rw [if_pos (by simp only [decide_eq_true_eq]; omega)])
      have hadv : advance a.nC t = { t with colCtr := 0, rowCtr := t.rowCtr + 1 } := by
        rw [advance, if_pos (by omega)]
      refine ⟨advance a.nC t, ?_, ?_, ?_, ?_, ?_, fun fuel => ?_⟩
      · rw [hadv]; simp [h1]; omega
      · rw [hadv]; exact h2
      · rw [hadv]; simp [h3]
      · rw [hadv]
      · rw [hadv]; exact h5
      · rw [List.length_singleton, Nat.add_comm, loadLoop, hstep]
        have hrt : (advance a.nC t).rowCtr = t.rowCtr + 1 := by rw [hadv]
        by_cases hchunk : t.rowCtr + 1 = a.chunkSize
        · rw [if_pos (.inl (hrt.trans hchunk)), endTurn, if_pos ⟨by omega, hchunk⟩]
        · rw [endTurn, if_neg (by simp [hchunk])]
          cases post with
          | nil =>
              rw [if_pos (show _ ∨ ([] : Bytes) = [] from .inr rfl)]
              rfl
          | cons d ds =>
              have hgo : ¬ ((advance a.nC t).rowCtr = a.chunkSize ∨ d :: ds = []) := by
                rw [hrt]; simp [hchunk]
              rw [if_neg hgo]
              rfl
  | @cons c b bs' cs h hr ih =>
      obtain ⟨hlen, hcells⟩ := hrow
      simp only [List.length_cons] at hlen
      have hne := hr.ne_nil
      have hcs : 0 < cs.length := List.length_pos_iff.mpr hne.1
      obtain ⟨col, hcol⟩ : ∃ col, a.cols[s.colCtr]? = some col := by
        rw [List.getElem?_eq_getElem (show s.colCtr < a.cols.length from by
          unfold LoadArgs.nC at hlen; omega)]
        exact ⟨_, rfl⟩
      have hX' : X = p ++ (b ++ sep :: (bs' ++ post)) := by rw [hX]; simp
      obtain ⟨t, hstep, h1, h2, h3, h4, h5⟩ := loadStep_encoded fileOffset hl hX' hx hh hcol h
        (hcells 0 c col rfl (by simpa using hcol))
        (by rw [if_neg (by simp only [decide_eq_true_eq]; omega)])
      have hadv : advance a.nC t = { t with colCtr := t.colCtr + 1 } := by
        rw [advance, if_neg (by omega)]
      have hmore : endTurn a.nC a.chunkSize (bs' ++ post).isEmpty t = .more (advance a.nC t) := by
        rw [endTurn, if_neg (by omega), if_neg (by simp [hne.2])]
      obtain ⟨u, g1, g2, g3, g4, g5, gloop⟩ := ih (s := advance a.nC t) (p := p ++ (b ++ [sep]))
        (by rw [hX]; simp) (by rw [hadv]; simp [h1]; omega) (by rw [hadv]; exact h2)
        (by
          rw [hadv]
          refine ⟨by simp only [h4]; omega, fun i cell col' hi hc' => ?_⟩
          refine hcells (i + 1) cell col' (by simpa using hi) ?_
          simp only [h4] at hc'
          rw [← hc']
          congr 1
          omega)
      refine ⟨u, ?_, g2, ?_, g4, ?_, fun fuel => ?_⟩
      · rw [g1]; simp; omega
      · rw [g3, hadv]; simp only; rw [h3]
      · rw [g5, hadv]; simp only; rw [h5]; simp
      · rw [List.length_cons, show cs.length + 1 + fuel = cs.length + fuel + 1 by omega, loadLoop,
          hstep, hmore]
        exact gloop fuel

/-! ## the rows of one call -/

/-- **The rows of one call**: it reads as many as are left, up to a full chunk,
and stands at the start of the next. -/
theorem loadLoop_rows (fileOffset : Nat) (hl : Loads a sep) {rows : List (List Bytes)} {p bs : Bytes}
    (henc : EncodesFile sep rows bs) (hrows : ∀ r ∈ rows, RowFrom a 0 r) (hne : rows ≠ [])
    (hX : X = p ++ bs) (hx : s.xidx = p.length) (hh : s.isHdr = false) (hc : s.colCtr = 0)
    (hlt : s.rowCtr < a.chunkSize) (fuel : Nat)
    (hfuel : a.nC * (a.chunkSize - s.rowCtr) ≤ fuel) :
    ∃ t k, loadLoop a X sep fileOffset fuel s = some (some t) ∧
      k = min rows.length (a.chunkSize - s.rowCtr) ∧ t.rowCtr = s.rowCtr + k ∧
      t.cells = s.cells ++ (rows.take k).flatten ∧ t.xidx ≤ X.length ∧
      EncodesFile sep (rows.drop k) (X.drop t.xidx) := by
  induction henc generalizing s p fuel with
  | nil => contradiction
  | @cons r rs b bs' hr hf ih =>
      have hrlen := (hrows r (by simp)).1
      rw [Nat.zero_add] at hrlen
      obtain ⟨d, hd⟩ : ∃ d, a.chunkSize - s.rowCtr = d + 1 := ⟨a.chunkSize - s.rowCtr - 1, by omega⟩
      obtain ⟨fuel', rfl⟩ : ∃ fuel', fuel = r.length + fuel' := by
        refine ⟨fuel - r.length, ?_⟩
        rw [hd, Nat.mul_succ] at hfuel
        omega
      obtain ⟨t, h1, h2, h3, h4, h5, hloop⟩ := loadLoop_row fileOffset hl hr hX hx hh
        (by rw [hc]; exact hrows r (by simp))
      have hdrop : X.drop t.xidx = bs' := by
        rw [hX, h1, ← List.append_assoc]
        exact List.drop_left' (by simp)
      have hle : t.xidx ≤ X.length := by rw [h1, hX]; simp
      rw [hloop]
      by_cases hstop : t.rowCtr = a.chunkSize ∨ bs' = []
      · rw [if_pos hstop]
        refine ⟨t, 1, rfl, ?_, h3, by simp [h5], hle, by simpa [hdrop] using hf⟩
        rcases hstop with hfull | hend
        · simp only [List.length_cons]; omega
        · rw [hf.nil_iff] at hend
          simp only [hend, List.length_cons, List.length_nil]
          omega
      · rw [if_neg hstop]
        rw [not_or] at hstop
        have hrs : rs ≠ [] := fun h => hstop.2 (hf.nil_iff.mpr h)
        obtain ⟨u, k, hu, hk, g1, g2, g3, g4⟩ := ih (s := t) (p := p ++ b)
          (fun r' hr' => hrows r' (by simp [hr'])) hrs (by rw [hX]; simp) (by rw [h1]; simp) h2 h4
          (by omega) fuel' (by
            rw [hd, Nat.mul_succ] at hfuel
            rw [show a.chunkSize - t.rowCtr = d by omega]
            omega)
        refine ⟨u, k + 1, hu, ?_, by omega, ?_, g3, by simpa using g4⟩
        · simp only [List.length_cons]; omega
        · rw [g2, h5]; simp

/-- **One call** of `load_csv_seq` at the start of a row. -/
theorem loadCsvSeq_rows (hl : Loads a sep) (hfile : a.file = some X)
    {rows : List (List Bytes)} (hle : fileOffset ≤ X.length)
    (henc : EncodesFile sep rows (X.drop fileOffset)) (hrows : ∀ r ∈ rows, RowFrom a 0 r)
    (hne : rows ≠ []) :
    ∃ r, loadCsvSeq a fileOffset = some r ∧ r.status = 0 ∧
      r.nR = min rows.length a.chunkSize ∧ r.cells = (rows.take r.nR).flatten ∧
      r.fileOffset ≤ X.length ∧ EncodesFile sep (rows.drop r.nR) (X.drop r.fileOffset) ∧
      ∀ i c col, i < r.nR → a.cols[c]? = some col → col.isLoad = true → col.hasNulls = true →
        r.nn c i = some (!((cellAt a.nC r.cells i c).headD 0 == 0)) := by
  have hpos := hl.chunk
  have hlt : fileOffset < X.length := by
    rcases Nat.lt_or_eq_of_le hle with h | h
    · exact h
    · rw [h, List.drop_length] at henc
      exact absurd (henc.nil_iff.mp rfl) hne
  obtain ⟨t, k, hloop, hk, h1, h2, h3, h4⟩ := loadLoop_rows fileOffset
    (s := startState a fileOffset) (p := X.take fileOffset) hl henc hrows hne
    (List.take_append_drop fileOffset X).symm (by simp [startState]; omega)
    (by simpa [startState] using hl.noHdr) rfl (by simpa [startState] using hpos)
    (a.nC * (a.chunkSize + 1) + X.length) (by simp only [startState, Nat.sub_zero, Nat.mul_succ]; omega)
  have hrec : Recorded a t := loadLoop_recorded
    (by exact ⟨hl.columns, by simp [startState], by simp [startState]⟩)
    (by simp [startState, hl.noHdr]) hloop
  simp only [startState, Nat.sub_zero, Nat.zero_add, List.nil_append] at hk h1 h2
  refine ⟨⟨0, t.rowCtr, t.xidx, t.nn, t.data, t.cells⟩, ?_, rfl, by simp only; omega,
    by simp only; rw [h1]; exact h2, h3, by simp only; rw [h1]; exact h4, ?_⟩
  · have hn0 : ¬ a.nC = 0 := Nat.pos_iff_ne_zero.mp hl.columns
    have hx0 : ¬ X.length = 0 := by omega
    simp only [loadCsvSeq, if_neg hn0, hl.checked, hfile, if_neg hx0, hl.separator, hloop,
      Bool.not_true, Bool.false_eq_true, if_false, if_neg (show ¬ fileOffset > X.length by omega),
      if_neg (show ¬ fileOffset ≥ X.length by omega)]
  · intro i c col hi hcol hload hnull
    refine hrec.nn i c col ?_ hcol hload hnull
    have hcn : c < a.nC := (List.getElem?_eq_some_iff.mp hcol).1
    have hmul : (i + 1) * a.nC ≤ t.rowCtr * a.nC := Nat.mul_le_mul_right _ hi
    rw [hrec.count]
    rw [Nat.add_mul] at hmul
    omega

/-! ## the calls of a run -/

/-- The number of calls that `n` rows take, in chunks of `size`. -/
def callsFor (n size : Nat) : Nat := (n + size - 1) / size

/-- The offset after a run of calls from `fileOffset`. -/
def finalOffset (fileOffset : Nat) (rs : List LoadResult) : Nat :=
  (rs.getLast?.map LoadResult.fileOffset).getD fileOffset

/-- The calls of a run, from the start of a row: they read the rows that are
left in order and end at the end of the file. -/
theorem loadCalls_encoded (hl : Loads a sep) (hfile : a.file = some X)
    {rows : List (List Bytes)} (hle : fileOffset ≤ X.length)
    (henc : EncodesFile sep rows (X.drop fileOffset)) (hrows : ∀ r ∈ rows, RowFrom a 0 r) :
    ∃ rs, loadCalls a (callsFor rows.length a.chunkSize) fileOffset = some rs ∧
      (∀ r ∈ rs, r.status = 0) ∧ rs.flatMap LoadResult.cells = rows.flatten ∧
      (rs.map LoadResult.nR).sum = rows.length ∧ finalOffset fileOffset rs = X.length ∧
      ∀ r ∈ rs, ∀ i c col, i < r.nR → a.cols[c]? = some col → col.isLoad = true →
        col.hasNulls = true →
        r.nn c i = some (!((cellAt a.nC r.cells i c).headD 0 == 0)) := by
  have hpos := hl.chunk
  induction hn : callsFor rows.length a.chunkSize generalizing rows fileOffset with
  | zero =>
      have hlen : rows.length = 0 := by
        unfold callsFor at hn
        rw [Nat.div_eq_zero_iff] at hn
        omega
      obtain rfl : rows = [] := List.eq_nil_of_length_eq_zero hlen
      have hend : X.length ≤ fileOffset := by
        rw [← List.drop_eq_nil_iff]
        exact henc.nil_iff.mpr rfl
      exact ⟨[], rfl, by simp, rfl, rfl, Nat.le_antisymm hle hend, by simp⟩
  | succ n ih =>
      have hne : rows ≠ [] := by
        rintro rfl
        simp only [callsFor, List.length_nil, Nat.zero_add] at hn
        rw [Nat.div_eq_of_lt (by omega)] at hn
        contradiction
      obtain ⟨r, hr, hst, hnR, hcells, hoff, hrest, hnn⟩ :=
        loadCsvSeq_rows hl hfile hle henc hrows hne
      have hcalls : callsFor (rows.drop r.nR).length a.chunkSize = n := by
        rw [List.length_drop, hnR]
        unfold callsFor at hn ⊢
        rcases Nat.le_total rows.length a.chunkSize with h | h
        · rw [Nat.min_eq_left h, Nat.sub_self, Nat.zero_add, Nat.div_eq_of_lt (by omega)]
          have : (rows.length + a.chunkSize - 1) / a.chunkSize < 2 := by
            rw [Nat.div_lt_iff_lt_mul hpos]; omega
          omega
        · rw [Nat.min_eq_right h]
          have hsplit : rows.length + a.chunkSize - 1 =
              rows.length - a.chunkSize + a.chunkSize - 1 + a.chunkSize := by omega
          rw [hsplit, Nat.add_div_right _ hpos] at hn
          omega
      obtain ⟨rs, hrs, h1, h2, h3, h4, h5⟩ := ih hoff hrest
        (fun x hx => hrows x (List.mem_of_mem_drop hx)) hcalls
      refine ⟨r :: rs, ?_, ?_, ?_, ?_, ?_, ?_⟩
      · rw [loadCalls, hr, Option.bind_some, if_neg (by rw [hst]; decide), hrs, Option.map_some]
      · simpa [hst] using h1
      · rw [List.flatMap_cons, h2, hcells, ← List.flatten_append, List.take_append_drop]
      · rw [List.map_cons, List.sum_cons, h3, List.length_drop, hnR]
        omega
      · rw [← h4]
        unfold finalOffset
        cases rs with
        | nil => rfl
        | cons x xs => simp [List.getLast?_cons]
      · exact List.forall_mem_cons.mpr ⟨hnn, h5⟩

/-- A NUL-free cell is null exactly when it is empty. -/
theorem isNull_iff {cell : Bytes} (h : (0 : UInt8) ∉ cell) :
    (cell.headD 0 == 0) = cell.isEmpty := by
  cases cell with
  | nil => rfl
  | cons b bs =>
      have hb : b ≠ 0 := by rintro rfl; exact h (by simp)
      simp [hb]

/-- **CSV round trip**: loading a table written as CSV, call after call, gives
its cells in row-major order, flags the empty ones as null and the others as
not null, counts its rows, and leaves the offset at the end of the file. A table
of no rows takes no call. -/
theorem csv_round_trip (hl : Loads a sep) (hfile : a.file = some X) {rows : List (List Bytes)}
    (henc : EncodesFile sep rows X) (hrows : ∀ r ∈ rows, RowFrom a 0 r) :
    ∃ rs, loadCalls a (callsFor rows.length a.chunkSize) 0 = some rs ∧
      (∀ r ∈ rs, r.status = 0) ∧ rs.flatMap LoadResult.cells = rows.flatten ∧
      (rs.map LoadResult.nR).sum = rows.length ∧ finalOffset 0 rs = X.length ∧
      ∀ r ∈ rs, ∀ i c col, i < r.nR → a.cols[c]? = some col → col.isLoad = true →
        col.hasNulls = true → r.nn c i = some (!(cellAt a.nC r.cells i c).isEmpty) := by
  obtain ⟨rs, h1, h2, h3, h4, h5, h6⟩ := loadCalls_encoded hl hfile (Nat.zero_le _) henc hrows
  refine ⟨rs, h1, h2, h3, h4, h5, fun r hr i c col hi hcol hload hnull => ?_⟩
  -- a cell of the call is a cell of the table, so it has no NUL
  have hmem : ∀ cell ∈ r.cells, (0 : UInt8) ∉ cell := by
    intro cell hcell
    have hflat : cell ∈ rows.flatten := h3 ▸ List.mem_flatMap.mpr ⟨r, hr, hcell⟩
    obtain ⟨row, hrow, hin⟩ := List.mem_flatten.mp hflat
    obtain ⟨j, hj, hget⟩ := List.mem_iff_getElem.mp hin
    obtain ⟨hlen, hcells⟩ := hrows row hrow
    have hjn : 0 + j < a.cols.length := by
      have hn : a.nC = a.cols.length := rfl
      omega
    exact (hcells j cell _ (by rw [List.getElem?_eq_getElem hj, hget])
      (List.getElem?_eq_getElem hjn)).noNul
  rw [h6 r hr i c col hi hcol hload hnull, isNull_iff]
  unfold cellAt
  rw [List.getD_eq_getElem?_getD]
  cases hg : r.cells[i * a.nC + c]? with
  | none => simp
  | some cell => exact hmem cell (List.mem_of_getElem? hg)

/-- A string column that takes nulls. -/
def stringColumn : Column := ⟨.SC, 8, false, true, true, true, true⟩

/-- Two string columns, loaded in chunks of one row, from the file
`a,⏎"b,c","\""⏎`. -/
def twoColumns : LoadArgs where
  file := some [97, 44, 10, 34, 98, 44, 99, 34, 44, 34, 92, 34, 34, 10]
  cols := [stringColumn, stringColumn]
  strFldSep := "comma".toUTF8.data.toList
  chunkSize := 1
  maxWidth := 8
  nnQtype := .BL
  isHdr := false
  txt := fun _ _ => none

theorem loads_twoColumns : Loads twoColumns 44 where
  columns := by decide
  checked := by decide
  separator := by decide +kernel
  noHdr := rfl
  noTrim := by
    intro c col h
    have : col ∈ twoColumns.cols := List.mem_of_getElem? h
    simp only [twoColumns, List.mem_cons, List.not_mem_nil, or_false, or_self] at this
    rw [this]
    rfl
  buffer := by decide
  chunk := by decide
  flags := .inr rfl

/-- A row of two raw cells, the second empty, and a row of two quoted ones. -/
theorem csv_round_trip_two : ∃ rs, loadCalls twoColumns 2 0 = some rs ∧
    rs.flatMap LoadResult.cells = [[97], [], [98, 44, 99], [34]] ∧
    (rs.map LoadResult.nR).sum = 2 := by
  have henc : EncodesFile 44 [[[97], []], [[98, 44, 99], [34]]]
      [97, 44, 10, 34, 98, 44, 99, 34, 44, 34, 92, 34, 34, 10] :=
    .cons (.cons (.raw ⟨by decide, by decide, by decide, by decide⟩)
        (.last (.raw ⟨by decide, by decide, by decide, by decide⟩)))
      (.cons (.cons (.quoted _) (.last (.quoted [34]))) .nil)
  have hrows : ∀ r ∈ ([[[97], []], [[98, 44, 99], [34]]] : List (List Bytes)),
      RowFrom twoColumns 0 r := by
    intro r hr
    refine ⟨by revert r; decide, fun i cell col hi hc => ?_⟩
    have hcol : col = stringColumn := by
      have : col ∈ twoColumns.cols := List.mem_of_getElem? hc
      simpa [twoColumns] using this
    have hcell : (0 : UInt8) ∉ cell ∧ cell.length < 8 := by
      have hall : ∀ r ∈ ([[[97], []], [[98, 44, 99], [34]]] : List (List Bytes)),
          ∀ cell ∈ r, (0 : UInt8) ∉ cell ∧ cell.length < 8 := by decide
      exact hall r hr cell (List.mem_of_getElem? hi)
    subst hcol
    exact ⟨hcell.1, hcell.2, fun _ _ => rfl, fun _ row => ⟨_, rfl⟩⟩
  obtain ⟨rs, h1, -, h2, h3, -⟩ := csv_round_trip loads_twoColumns rfl henc hrows
  exact ⟨rs, h1, h2, h3⟩

end QStore.Csv
