import QStore.Csv.OneShot
import QStore.Csv.Print
import QStore.Csv.Slots
import Mathlib.Data.List.TakeWhile

/-!
# QStore.Csv.PrintLoad

What `cprint` prints, loaded again by `load_csv_seq`.

```
null        ""                      an empty cell
number      -12                     written as it is
boolean     true, false             written as it is
string      "a\"b"                  quoted
```

The printed text is the table of these cells written as CSV, so the calls of
`load_csv_seq` read them back. What is left is where the strings are stored.
-/

namespace QStore.Csv

/-! ## the cells of a table -/

/-- The text of an element. -/
def Elem.cell : Elem → Bytes
  | .num v => intText v
  | .flag b => if b then trueText else falseText
  | .text bs => cStr bs

/-- Element `i` is not null. -/
def PrintVector.notNull (v : PrintVector) (i : Nat) : Bool :=
  v.nn.all fun nn => nn.getD i true

/-- The cell of row `i`: empty for a null. -/
def PrintVector.cellAt (v : PrintVector) (i : Nat) : Bytes :=
  if v.notNull i then ((v.elems[i]?).map Elem.cell).getD [] else []

/-- The cells of row `i`. -/
def Table.rowCells (t : Table) (i : Nat) : List Bytes := t.V.map fun v => v.cellAt i

/-- The cells of the rows `lb` to `ub - 1`. -/
def Table.cells (t : Table) (lb ub : Nat) : List (List Bytes) :=
  (List.range' lb (ub - lb)).map t.rowCells

section Cells

variable {v : PrintVector} {e : Elem} {i j n : Nat}

/-- The terminated part of a string holds no NUL. -/
theorem cStr_noNul {bs : Bytes} : (0 : UInt8) ∉ cStr bs := by
  intro h
  simpa using List.mem_takeWhile_imp h

theorem cStr_of_noNul {bs : Bytes} (h : (0 : UInt8) ∉ bs) : cStr bs = bs := by
  rw [cStr, List.takeWhile_eq_self_iff]
  intro b hb
  rw [bne_iff_ne]
  rintro rfl
  exact h hb

theorem length_cStr_lt {bs : Bytes} (h : (0 : UInt8) ∈ bs) : (cStr bs).length < bs.length := by
  induction bs with
  | nil => contradiction
  | cons b bs ih =>
      by_cases hb : b = 0
      · simp [cStr, hb]
      · have hmem : (0 : UInt8) ∈ bs := by
          cases h with
          | head => exact absurd rfl hb
          | tail _ h => exact h
        have := ih hmem
        simp only [cStr] at this
        simp [cStr, hb, this]

/-- A string is printed up to its NUL, with what has to be escaped escaped. -/
theorem scText_eq (bs : Bytes) (k : Nat) (hk : bs.length ≤ k) :
    scText false k bs = escape (cStr bs) := by
  induction bs generalizing k with
  | nil => cases k <;> rfl
  | cons c bs ih =>
      rw [List.length_cons] at hk
      obtain ⟨m, rfl⟩ : ∃ m, k = m + 1 := ⟨k - 1, by omega⟩
      by_cases h0 : c = 0
      · simp [scText, cStr, h0, escape]
      · have hrest := ih m (by omega)
        simp only [cStr] at hrest
        by_cases hesc : c = bslash ∨ c = dquote
        · simp [scText, cStr, h0, escape, hesc, hesc.symm, hrest]
        · rw [not_or] at hesc
          simp [scText, cStr, h0, escape, hesc.1, hesc.2, hrest]

/-- A number's text needs no quotes. -/
theorem rawOk_intText {x : Int} : RawOk comma (intText x) := by
  have hnot : ∀ b : UInt8, b.toNat < 45 ∨ 57 < b.toNat → b ∉ intText x := by
    intro b hb h
    have := bounds_of_mem_intText h
    omega
  constructor
  · exact hnot comma (by decide)
  · exact hnot eoln (by decide)
  · exact hnot bslash (by decide)
  · intro h
    exact hnot dquote (by decide) (List.mem_of_head? h)

/-- An element is printed as its cell is written. -/
theorem printElem_encodes (he : e.Fits v.qtype v.width) :
    ∃ txt, printElem false v.width e = some txt ∧ EncodesCell comma e.cell txt := by
  cases e with
  | num x => exact ⟨_, rfl, .raw rawOk_intText⟩
  | flag b =>
      cases b
      · exact ⟨_, rfl, .raw ⟨by decide, by decide, by decide, by decide⟩⟩
      · exact ⟨_, rfl, .raw ⟨by decide, by decide, by decide, by decide⟩⟩
  | text X =>
      obtain ⟨hq, hlen, -⟩ := he
      have hw := v.width_eq
      rw [if_pos hq] at hw
      refine ⟨_, if_neg (by omega), ?_⟩
      have hquoted : EncodesCell comma (cStr X) (dquote :: (escape (cStr X) ++ [dquote])) :=
        .quoted (cStr X)
      rw [← scText_eq X v.width (by omega)] at hquoted
      simpa [Elem.cell] using hquoted

/-- **A field** is printed as its cell is written. -/
theorem printField_encodes (hi : i < v.elems.length)
    (hnn : ∀ nn, v.nn = some nn → i < nn.length) :
    ∃ txt, printField false v.whole i = some txt ∧ EncodesCell comma (v.cellAt i) txt := by
  obtain ⟨txt, htxt, henc⟩ := printElem_encodes (v := v) (v.fits _ (List.getElem_mem hi))
  have hvalue : ((v.elems[i]?).bind (printElem false v.width)).map (fun t => t) = some txt := by
    rw [List.getElem?_eq_getElem hi, Option.bind_some, htxt, Option.map_some]
  have hcell : ((v.elems[i]?).map Elem.cell).getD [] = v.elems[i].cell := by
    rw [List.getElem?_eq_getElem hi]
    rfl
  unfold printField PrintVector.cellAt PrintVector.notNull PrintVector.whole
  rw [hcell]
  simp only [Bool.false_eq_true, if_false, hvalue]
  cases hv : v.nn with
  | none => exact ⟨txt, rfl, henc⟩
  | some nn =>
      obtain ⟨b, hb⟩ : ∃ b, nn[i]? = some b := ⟨_, List.getElem?_eq_getElem (hnn nn hv)⟩
      simp only [hb, Option.all_some, List.getD_eq_getElem?_getD, Option.getD_some]
      cases b with
      | true => exact ⟨txt, rfl, henc⟩
      | false => exact ⟨_, rfl, .quoted []⟩

/-- The columns of a row, the first one without a separator before it. -/
theorem printCols_encodes {V : List PrintVector} (hne : V ≠ [])
    (hV : ∀ v ∈ V, i < v.elems.length ∧ ∀ nn, v.nn = some nn → i < nn.length) :
    ∃ txt, EncodesRow comma (V.map fun v => v.cellAt i) (txt ++ [eoln]) ∧
      ∀ j, printCols false i j (V.map PrintVector.whole) =
        some ((if j = 0 then [] else [comma]) ++ txt) := by
  induction V with
  | nil => contradiction
  | cons v V ih =>
      obtain ⟨field, hfield, henc⟩ := printField_encodes (hV v (by simp)).1 (hV v (by simp)).2
      have hsep : ∀ j : Nat, (if !false && decide (j > 0) then [comma] else []) =
          if j = 0 then [] else [comma] := by
        intro j
        cases j <;> simp
      cases V with
      | nil =>
          refine ⟨field, .last henc, fun j => ?_⟩
          simp only [List.map_cons, List.map_nil, printCols, hfield, Option.bind_some,
            Option.map_some, hsep, List.append_nil]
      | cons w V =>
          obtain ⟨txt, hrow, htxt⟩ := ih (by simp) fun u hu => hV u (List.mem_cons_of_mem v hu)
          refine ⟨field ++ comma :: txt, ?_, fun j => ?_⟩
          · have := EncodesRow.cons henc hrow
            simpa using this
          · rw [List.map_cons, printCols, hfield, Option.bind_some, htxt, hsep]
            simp

variable {t : Table} {lb ub : Nat}

/-- **A row** is printed as its cells are written. -/
theorem printRow_encodes (hi : i < t.n) :
    ∃ txt, printRow false (t.V.map PrintVector.whole) i = some txt ∧
      EncodesRow comma (t.rowCells i) txt := by
  obtain ⟨txt, hrow, htxt⟩ := printCols_encodes (i := i) t.ne fun v hv =>
    ⟨by rw [t.length_elems v hv]; exact hi, fun nn hnn => by rw [t.length_nn v hv nn hnn]; exact hi⟩
  exact ⟨txt ++ [eoln], by simp [printRow, htxt], hrow⟩

theorem printRows_encodes (hn : i + n ≤ t.n) :
    ∃ txt, printRows false (t.V.map PrintVector.whole) n i = some txt ∧
      EncodesFile comma ((List.range' i n).map t.rowCells) txt := by
  induction n generalizing i with
  | zero => exact ⟨[], rfl, .nil⟩
  | succ n ih =>
      obtain ⟨row, hrow, henc⟩ := printRow_encodes (t := t) (i := i) (by omega)
      obtain ⟨rest, hrest, hfile⟩ := ih (i := i + 1) (by omega)
      refine ⟨row ++ rest, ?_, ?_⟩
      · rw [printRows, hrow, Option.bind_some, hrest, Option.map_some]
      · rw [List.range'_succ, List.map_cons]
        exact .cons henc hfile

/-- **What `cprint` prints** is the table of the cells, written as CSV. -/
theorem cprint_encodes (hlt : lb < ub) (hub : ub ≤ t.n) :
    ∃ txt, cprint false t lb ub = some txt ∧ EncodesFile comma (t.cells lb ub) txt := by
  rw [cprint_eq hlt hub]
  exact printRows_encodes (by omega)

end Cells

/-! ## loading it -/

/-- What is printed, and how it is loaded. -/
structure PrintLoad where
  t : Table
  lb : Nat
  ub : Nat
  lt : lb < ub
  le : ub ≤ t.n
  /-- a string is null or not empty -/
  nonempty : ∀ v ∈ t.V, ∀ i X, v.elems[i]? = some (.text X) → v.notNull i = true → cStr X ≠ []
  chunkSize : Nat
  chunk_pos : 0 < chunkSize
  /-- the length of the buffer for a cell: `qcfg.max_width_SC` in `load_csv` -/
  maxWidth : Nat
  widths : ∀ v ∈ t.V, v.width ≤ maxWidth
  room : 20 < maxWidth
  maxWidth_le : maxWidth ≤ 65536
  txt : TxtFns
  /-- the converters read what `printf` writes -/
  inverse : ∀ q x b, intBounds q = some b → b.1 ≤ x → x ≤ b.2 → txt q (intText x) = some x

/-- The column a vector is loaded into. -/
def PrintVector.column (v : PrintVector) : Column where
  qtype := v.qtype
  width := v.width
  isTrim := false
  isLoad := true
  hasNulls := v.nn.isSome
  hasData := true
  hasNnData := v.nn.isSome

/-- The arguments of `load_csv_seq` for the file `X`. -/
def PrintLoad.args (p : PrintLoad) (X : Bytes) : LoadArgs where
  file := some X
  cols := p.t.V.map PrintVector.column
  strFldSep := ascii "comma"
  chunkSize := p.chunkSize
  maxWidth := p.maxWidth
  nnQtype := .BL
  isHdr := false
  txt := p.txt

/-- A loaded value is the element. -/
def Value.Holds : Value → Elem → Prop
  | .num x, .num y => x = some y
  | .num x, .flag b => x = some (if b then 1 else 0)
  | .str bs, .text X => (cStr X ++ [0]).map some <+: bs
  | _, _ => False

/-- The calls give back the rows that were printed: as many, with the same null
flags, and with the same values where they are not null. -/
structure LoadsBack (p : PrintLoad) (rs : List LoadResult) : Prop where
  status : ∀ r ∈ rs, r.status = 0
  rows : (rs.map LoadResult.nR).sum = p.ub - p.lb
  flags : ∀ (c : Nat) (v : PrintVector) (nn : List Bool), p.t.V[c]? = some v → v.nn = some nn →
    rs.flatMap (fun r => r.flags c) = ((nn.drop p.lb).take (p.ub - p.lb)).map some
  values : ∀ (c : Nat) (v : PrintVector) (i : Nat) (e : Elem), p.t.V[c]? = some v →
    i < p.ub - p.lb → v.notNull (p.lb + i) = true → v.elems[p.lb + i]? = some e →
    ∃ x, (rs.flatMap fun r => r.column c v.column)[i]? = some x ∧ x.Holds e

/-- **Loading what was printed gives the data back.** -/
def PrintLoad.RoundTrips (p : PrintLoad) : Prop :=
  ∃ X n rs, cprint false p.t p.lb p.ub = some X ∧ loadUntil (p.args X) n 0 = some rs ∧
    LoadsBack p rs

/-- The slot of every string that is not null is kept, in the buffer of the call
that loads it. -/
def PrintLoad.SlotsKept (p : PrintLoad) : Prop :=
  ∀ v ∈ p.t.V, v.qtype = .SC → ∀ i, i < p.ub - p.lb → v.notNull (p.lb + i) = true →
    SlotKept v.width (min p.chunkSize (p.ub - p.lb - i / p.chunkSize * p.chunkSize))
      (i % p.chunkSize) (v.cellAt (p.lb + i)).length

/-! ## every cell is taken -/

section Cell

variable {e : Elem} {q : Qtype} {w i : Nat} {txt : TxtFns}

theorem cell_noNul (he : e.Fits q w) : (0 : UInt8) ∉ e.cell := by
  cases e with
  | num x =>
      intro h
      have := bounds_of_mem_intText h
      simp at this
  | flag b => cases b <;> simp [Elem.cell, trueText, falseText]
  | text X => exact cStr_noNul

/-- Only a string has an empty text. -/
theorem cell_eq_nil (h : e.cell = []) : ∃ X, e = .text X := by
  cases e with
  | num x => exact absurd h intText_ne_nil
  | flag b => cases b <;> simp [Elem.cell, trueText, falseText] at h
  | text X => exact ⟨X, rfl⟩

theorem length_cell (he : e.Fits q w) {size : Nat} (hw : w ≤ size) (hroom : 20 < size) :
    e.cell.length < size := by
  cases e with
  | num x =>
      obtain ⟨b, hb, hl, hu⟩ := he
      have hbounds : -2 ^ 63 ≤ b.1 ∧ b.2 ≤ 2 ^ 64 - 1 := by
        cases q <;> simp only [intBounds, reduceCtorEq, Option.some.injEq] at hb <;>
          subst hb <;> decide
      have hlen : (intText x).length ≤ 20 := by
        rcases Int.lt_or_le x 0 with hneg | hpos
        · exact length_intText (k := 19) (by omega) (by omega)
        · exact length_intText_nonneg (k := 20) (by omega) (by omega) hpos
      simp only [Elem.cell]
      omega
  | flag b => cases b <;> simp [Elem.cell, trueText, falseText] <;> omega
  | text X =>
      obtain ⟨-, hlen, hnul⟩ := he
      have := length_cStr_lt hnul
      simp only [Elem.cell]
      omega

/-- The datum an element is stored as. -/
def Elem.datum (w i : Nat) : Elem → Datum
  | .num x => .num x
  | .flag b => .num (if b then 1 else 0)
  | .text X => .bytes (slotOf w i) (padded w (cStr X))

/-- **`asc_to_bin` of a printed cell.** -/
theorem ascToBin_cell (he : e.Fits q w)
    (hinv : ∀ q x b, intBounds q = some b → b.1 ≤ x → x ≤ b.2 → txt q (intText x) = some x) :
    ascToBin txt e.cell false q w i = some (e.datum w i) := by
  have hstr := cStr_of_noNul (cell_noNul he)
  cases e with
  | num x =>
      obtain ⟨b, hb, hl, hu⟩ := he
      have hread := hinv q x b hb hl hu
      simp only [Elem.cell] at hstr
      cases q <;> simp only [intBounds, reduceCtorEq] at hb <;>
        simp [ascToBin, Elem.cell, Elem.datum, hstr, hread]
  | flag b =>
      simp only [Elem.Fits] at he
      subst he
      cases b
      · have h1 : strCaseEq falseText "true" = false := by decide +kernel
        have h2 : strCaseEq falseText "false" = true := by decide +kernel
        have h3 : falseText ≠ [49] := by decide
        simp only [Elem.cell] at hstr
        simp_all [ascToBin, Elem.cell, Elem.datum]
      · have h1 : strCaseEq trueText "true" = true := by decide +kernel
        simp only [Elem.cell] at hstr
        simp_all [ascToBin, Elem.cell, Elem.datum]
  | text X =>
      obtain ⟨hq, -, -⟩ := he
      subst hq
      rfl

/-- A null is stored as something. -/
theorem ascToBin_null (hq : q = .BL ∨ q = .SC ∨ (intBounds q).isSome = true) :
    (ascToBin txt [] true q w i).isSome = true := by
  cases q <;> simp_all [ascToBin, intBounds]

end Cell

/-- A row is taken if every cell of it is. -/
theorem takesFrom_of {a : LoadArgs} {c : Nat} {cells : List Bytes}
    (h : ∀ k cell col, cells[k]? = some cell → a.cols[c + k]? = some col →
      takesCell a col cell = true) : takesFrom a c cells = true := by
  induction cells generalizing c with
  | nil => rfl
  | cons cell cells ih =>
      rw [takesFrom, Bool.and_eq_true]
      constructor
      · cases hcol : a.cols[c]? with
        | none => rfl
        | some col => exact h 0 cell col rfl hcol
      · apply ih
        intro k cell' col hk hcol
        exact h (k + 1) cell' col hk (by rw [← hcol]; congr 1; omega)

section Load

variable {p : PrintLoad} {X : Bytes} {v : PrintVector} {c i : Nat} {e : Elem}

theorem PrintVector.notNull_eq_false (h : v.notNull i = false) : v.nn.isSome = true := by
  unfold notNull at h
  cases hv : v.nn with
  | none => simp [hv] at h
  | some nn => rfl

theorem PrintVector.cellAt_eq (he : v.elems[i]? = some e) (hn : v.notNull i = true) :
    v.cellAt i = e.cell := by
  rw [cellAt, if_pos hn, he]
  rfl

/-- A row of a vector has an element. -/
theorem PrintLoad.exists_elem (hv : v ∈ p.t.V) (hi : i < p.t.n) :
    ∃ e, v.elems[i]? = some e ∧ e.Fits v.qtype v.width := by
  have hlen := p.t.length_elems v hv
  exact ⟨_, List.getElem?_eq_getElem (by omega), v.fits _ (List.getElem_mem (by omega))⟩

/-- A cell is empty when it is a null. -/
theorem PrintLoad.cellAt_ne_nil_iff (hv : v ∈ p.t.V) (hi : i < p.t.n) :
    v.cellAt i ≠ [] ↔ v.notNull i = true := by
  obtain ⟨e, he, -⟩ := p.exists_elem hv hi
  cases hn : v.notNull i with
  | false => simp [PrintVector.cellAt, hn]
  | true =>
      rw [PrintVector.cellAt_eq he hn]
      constructor
      · exact fun _ => rfl
      · intro _ h
        obtain ⟨X, rfl⟩ := cell_eq_nil h
        exact p.nonempty v hv i X he hn h

theorem PrintLoad.cellAt_noNul (hv : v ∈ p.t.V) (hi : i < p.t.n) : (0 : UInt8) ∉ v.cellAt i := by
  obtain ⟨e, he, hfits⟩ := p.exists_elem hv hi
  cases hn : v.notNull i with
  | false => simp [PrintVector.cellAt, hn]
  | true =>
      rw [PrintVector.cellAt_eq he hn]
      exact cell_noNul hfits

theorem PrintLoad.length_cellAt (hv : v ∈ p.t.V) (hi : i < p.t.n) {size : Nat}
    (hsize : v.width ≤ size) (hroom : 20 < size) : (v.cellAt i).length < size := by
  obtain ⟨e, he, hfits⟩ := p.exists_elem hv hi
  cases hn : v.notNull i with
  | false => simp [PrintVector.cellAt, hn]; omega
  | true =>
      rw [PrintVector.cellAt_eq he hn]
      exact length_cell hfits hsize hroom

/-- A string is shorter than its slot. -/
theorem PrintLoad.length_text (hv : v ∈ p.t.V) (hq : v.qtype = .SC) (hi : i < p.t.n) :
    (v.cellAt i).length < v.width := by
  obtain ⟨e, he, hfits⟩ := p.exists_elem hv hi
  have hw := v.width_eq
  rw [if_pos hq] at hw
  cases hn : v.notNull i with
  | false => simp [PrintVector.cellAt, hn]; omega
  | true =>
      rw [PrintVector.cellAt_eq he hn]
      cases e with
      | num x => simp [Elem.Fits, hq, intBounds] at hfits
      | flag b => simp [Elem.Fits, hq] at hfits
      | text X =>
          have := length_cStr_lt hfits.2.2
          simp only [Elem.cell]
          rw [hfits.2.1] at this
          exact this

theorem PrintLoad.isNull_cellAt (hv : v ∈ p.t.V) (hi : i < p.t.n) :
    isNull (v.cellAt i) = !v.notNull i := by
  rw [isNull, isNull_iff (p.cellAt_noNul hv hi)]
  have := p.cellAt_ne_nil_iff hv hi
  cases hn : v.notNull i <;> simp_all

/-- What is stored of a cell. -/
theorem PrintLoad.datumOf_cellAt (hv : v ∈ p.t.V) (hi : i < p.t.n) (hn : v.notNull i = true)
    (he : v.elems[i]? = some e) (j : Nat) :
    datumOf (p.args X) v.column (v.cellAt i) j = e.datum v.width j := by
  have hfits : e.Fits v.qtype v.width := v.fits e (List.mem_of_getElem? he)
  rw [datumOf, p.isNull_cellAt hv hi, hn, PrintVector.cellAt_eq he hn]
  simp only [Bool.not_true, PrintVector.column]
  rw [show (p.args X).txt = p.txt from rfl, ascToBin_cell hfits p.inverse, Option.getD_some]

theorem PrintLoad.takesCell_cellAt (hv : v ∈ p.t.V) (hi : i < p.t.n) :
    takesCell (p.args X) v.column (v.cellAt i) = true := by
  obtain ⟨e, he, hfits⟩ := p.exists_elem hv hi
  rw [takesCell, p.isNull_cellAt hv hi]
  cases hn : v.notNull i with
  | false =>
      have hcell : v.cellAt i = [] := by simp [PrintVector.cellAt, hn]
      have hsome : (ascToBin p.txt [] true v.qtype v.width 0).isSome = true :=
        ascToBin_null v.printable
      have hnulls := PrintVector.notNull_eq_false hn
      rw [hcell]
      simp [PrintVector.column, PrintLoad.args, hnulls, hsome]
  | true =>
      have hstored := ascToBin_cell (i := 0) hfits p.inverse
      rw [PrintVector.cellAt_eq he hn]
      simp [PrintVector.column, PrintLoad.args, hstored]

theorem PrintLoad.cols_getElem? (hv : p.t.V[c]? = some v) :
    (p.args X).cols[c]? = some v.column := by
  simp [PrintLoad.args, hv]

/-- A row that is printed is a row of the table. -/
theorem PrintLoad.mem_cells {row : List Bytes} (h : row ∈ p.t.cells p.lb p.ub) :
    ∃ i, i < p.t.n ∧ row = p.t.rowCells i := by
  obtain ⟨i, hi, rfl⟩ := List.mem_map.mp h
  have hrange := (List.mem_range'_1.mp hi).2
  have hlt := p.lt
  have hle := p.le
  exact ⟨i, by omega, rfl⟩

/-- Every cell that is printed is taken. -/
theorem PrintLoad.takesRows_cells : takesRows (p.args X) (p.t.cells p.lb p.ub) = true := by
  rw [takesRows, List.all_eq_true]
  intro row hrow
  obtain ⟨i, hi, rfl⟩ := p.mem_cells hrow
  apply takesFrom_of
  intro k cell col hk hcol
  rw [Nat.zero_add] at hcol
  simp only [Table.rowCells, List.getElem?_map, Option.map_eq_some_iff] at hk
  obtain ⟨v, hv, rfl⟩ := hk
  rw [p.cols_getElem? hv, Option.some.injEq] at hcol
  rw [← hcol]
  exact p.takesCell_cellAt (List.mem_of_getElem? hv) hi

theorem PrintLoad.checked : chkData (p.args X).cols (p.args X).maxWidth = true := by
  have hroom := p.room
  have hmax := p.maxWidth_le
  have hw := p.widths
  rw [chkData, Bool.and_eq_true, Bool.and_eq_true, decide_eq_true_eq, decide_eq_true_eq,
    List.all_eq_true]
  constructor
  · simp only [PrintLoad.args]
    omega
  · intro col hcol
    obtain ⟨v, hv, rfl⟩ := List.mem_map.mp hcol
    simp [PrintVector.column, PrintLoad.args, hw v hv]

theorem PrintLoad.separator : getFldSep (p.args X).strFldSep = some comma := by
  have : getFldSep (ascii "comma") = some comma := by decide +kernel
  exact this

theorem PrintLoad.lengths : ∀ row ∈ p.t.cells p.lb p.ub, row.length = (p.args X).nC := by
  intro row hrow
  obtain ⟨i, -, rfl⟩ := p.mem_cells hrow
  simp [Table.rowCells, LoadArgs.nC, PrintLoad.args]

theorem PrintLoad.length_cells : (p.t.cells p.lb p.ub).length = p.ub - p.lb := by
  simp [Table.cells]

/-- The printed text reads back as its cells. -/
theorem PrintLoad.readsRows (henc : EncodesFile comma (p.t.cells p.lb p.ub) X) :
    ReadsRows (p.args X) X comma 0 (p.t.cells p.lb p.ub) := by
  refine ReadsRows.of_encodes (p := []) p.separator ?_ henc rfl ?_
  · intro c col hcol
    simp only [PrintLoad.args, List.getElem?_map, Option.map_eq_some_iff] at hcol
    obtain ⟨v, -, rfl⟩ := hcol
    rfl
  · intro row hrow
    refine ⟨p.lengths row hrow, Nat.lt_of_lt_of_le (by decide) (Nat.le_of_lt p.room), ?_⟩
    obtain ⟨i, hi, rfl⟩ := p.mem_cells hrow
    intro cell hcell
    obtain ⟨v, hv, rfl⟩ := List.mem_map.mp hcell
    exact p.length_cellAt hv hi (p.widths v hv) p.room

theorem PrintLoad.ready (henc : EncodesFile comma (p.t.cells p.lb p.ub) X) :
    Ready (p.args X) X comma := by
  have hrows : p.t.cells p.lb p.ub ≠ [] := by
    have := p.lt
    rw [← List.length_pos_iff, p.length_cells]
    omega
  constructor
  · have := List.length_pos_iff.mpr p.t.ne
    simpa [LoadArgs.nC, PrintLoad.args] using this
  · exact p.checked
  · rfl
  · exact p.separator
  · exact List.length_pos_iff.mpr fun h => hrows (henc.nil_iff.mp h)
  · exact p.chunk_pos

/-- **The calls** on the printed text: call `k` reads page `k` of the cells. -/
theorem PrintLoad.loads : ∃ X rs, cprint false p.t p.lb p.ub = some X ∧
    loadUntil (p.args X) (p.ub - p.lb + 1) 0 = some rs ∧
    List.Forall₂ (CallRead (p.args X))
      ((List.range ((p.ub - p.lb) / p.chunkSize + 1)).map
        (page p.chunkSize (p.t.cells p.lb p.ub))) rs := by
  obtain ⟨X, hX, henc⟩ := cprint_encodes p.lt p.le
  have hat : RowsAt (p.args X) X comma 0 (p.t.cells p.lb p.ub) := by
    rw [RowsAt, if_neg (by simp [PrintLoad.args])]
    exact p.readsRows henc
  obtain ⟨rs, hrs, hall⟩ := loadUntil_pages (p.ready henc) (p.ub - p.lb)
    (by rw [p.length_cells]) hat p.takesRows_cells
  rw [p.length_cells] at hall
  exact ⟨X, rs, hX, hrs, hall⟩

/-! ## the columns of the run -/

/-- The cells of a vector that are printed. -/
def PrintLoad.columnOf (p : PrintLoad) (v : PrintVector) : List Bytes :=
  (List.range' p.lb (p.ub - p.lb)).map v.cellAt

theorem PrintLoad.length_columnOf : (p.columnOf v).length = p.ub - p.lb := by
  simp [columnOf]

theorem PrintLoad.columnOf_getElem? (hi : i < p.ub - p.lb) :
    (p.columnOf v)[i]? = some (v.cellAt (p.lb + i)) := by
  simp [columnOf, hi]

theorem PrintLoad.columnCells_cells (hv : p.t.V[c]? = some v) :
    columnCells c (p.t.cells p.lb p.ub) = p.columnOf v := by
  rw [columnCells, Table.cells, List.map_map, columnOf]
  apply List.map_congr_left
  intro i _
  simp [Table.rowCells, List.getD_eq_getElem?_getD, hv]

theorem columnCells_page (size k : Nat) (rows : List (List Bytes)) :
    columnCells c (page size rows k) = page size (columnCells c rows) k := by
  simp [columnCells, page, List.map_take, List.map_drop]

/-- What each call gives of its piece. -/
theorem flatMap_of_pieces {α β : Type} {R : α → LoadResult → Prop} {pieces : List α}
    {rs : List LoadResult} {g : LoadResult → List β} {f : α → List β}
    (h : List.Forall₂ R pieces rs) (hg : ∀ x r, x ∈ pieces → R x r → g r = f x) :
    rs.flatMap g = pieces.flatMap f := by
  induction h with
  | nil => rfl
  | @cons x r xs rs hr _ ih =>
      rw [List.flatMap_cons, List.flatMap_cons, hg x r (by simp) hr,
        ih fun y r' hy => hg y r' (List.mem_cons_of_mem x hy)]

/-- A row of a page is a row. -/
theorem mem_of_mem_page {α : Type} {D : List α} {x : α} {size k : Nat} (h : x ∈ page size D k) :
    x ∈ D := List.mem_of_mem_drop (List.mem_of_mem_take h)

/-- The number of rows that page after page covers. -/
theorem le_pages_mul (n : Nat) {size : Nat} (hpos : 0 < size) : n ≤ (n / size + 1) * size := by
  rw [Nat.mul_comm]
  exact Nat.le_of_lt (Nat.lt_mul_div_succ n hpos)

/-- The columns of the calls, one after the other: row `i` is read from slot
`i % chunk_size` of call `i / chunk_size`. -/
theorem PrintLoad.columns_eq {rs : List LoadResult} (hv : p.t.V[c]? = some v)
    (hall : List.Forall₂ (CallRead (p.args X))
      ((List.range ((p.ub - p.lb) / p.chunkSize + 1)).map
        (page p.chunkSize (p.t.cells p.lb p.ub))) rs) :
    (rs.flatMap fun r => r.column c v.column) = (List.range (p.ub - p.lb)).map fun i =>
      valueAt v.column (columnWrites (p.args X) v.column
        (page p.chunkSize (p.columnOf v) (i / p.chunkSize))) (i % p.chunkSize) := by
  have hpos := p.chunk_pos
  have hcol := p.cols_getElem? (X := X) hv
  rw [flatMap_of_pieces hall (f := fun rows => (List.range (columnCells c rows).length).map
    (valueAt v.column (columnWrites (p.args X) v.column (columnCells c rows))))]
  · have hpages := flatMap_range_pages (fun i => valueAt v.column (columnWrites (p.args X) v.column
      (page p.chunkSize (p.columnOf v) (i / p.chunkSize))) (i % p.chunkSize)) p.chunkSize
      (p.ub - p.lb) ((p.ub - p.lb) / p.chunkSize + 1)
    rw [Nat.min_eq_left (le_pages_mul (p.ub - p.lb) hpos)] at hpages
    rw [List.flatMap_map, ← hpages]
    congr 1
    funext k
    rw [columnCells_page, p.columnCells_cells hv, length_page, p.length_columnOf]
    apply List.map_congr_left
    intro i hi
    have hlt : i < p.chunkSize := by
      have := List.mem_range.mp hi
      omega
    have hdiv : (k * p.chunkSize + i) / p.chunkSize = k := by
      rw [Nat.mul_comm, Nat.mul_add_div hpos, Nat.div_eq_of_lt hlt, Nat.add_zero]
    have hmod : (k * p.chunkSize + i) % p.chunkSize = i := by
      rw [Nat.mul_comm, Nat.mul_add_mod, Nat.mod_eq_of_lt hlt]
    rw [hdiv, hmod]
  · intro rows r hrows hr
    obtain ⟨k, -, rfl⟩ := List.mem_map.mp hrows
    exact hr.column_eq (fun row hrow => p.lengths row (mem_of_mem_page hrow)) hcol rfl

/-- The null flags of the calls. -/
theorem PrintLoad.flags_eq {rs : List LoadResult} {nn : List Bool} (hv : p.t.V[c]? = some v)
    (hnn : v.nn = some nn)
    (hall : List.Forall₂ (CallRead (p.args X))
      ((List.range ((p.ub - p.lb) / p.chunkSize + 1)).map
        (page p.chunkSize (p.t.cells p.lb p.ub))) rs) :
    (rs.flatMap fun r => r.flags c) = ((nn.drop p.lb).take (p.ub - p.lb)).map some := by
  have hcol := p.cols_getElem? (X := X) hv
  have hnulls : v.column.hasNulls = true := by simp [PrintVector.column, hnn]
  have hmem := List.mem_of_getElem? hv
  have hlen := p.t.length_nn v hmem nn hnn
  have hle := p.le
  rw [flatMap_pieces (c := c) (f := fun cell => some (!isNull cell)) hall fun rows r _ hr =>
    hr.flags_eq hcol rfl hnulls, flatten_pages, List.take_of_length_le, p.columnCells_cells hv]
  · apply List.ext_getElem?
    intro i
    by_cases hi : i < p.ub - p.lb
    · rw [List.getElem?_map, p.columnOf_getElem? hi, List.getElem?_map,
        List.getElem?_take_of_lt hi, List.getElem?_drop,
        List.getElem?_eq_getElem (show p.lb + i < nn.length by omega)]
      simp only [Option.map_some, p.isNull_cellAt hmem (show p.lb + i < p.t.n by omega),
        Bool.not_not]
      rw [PrintVector.notNull, hnn, Option.all_some, List.getD_eq_getElem?_getD,
        List.getElem?_eq_getElem (show p.lb + i < nn.length by omega), Option.getD_some]
    · rw [List.getElem?_eq_none, List.getElem?_eq_none]
      · simp; omega
      · simp [p.length_columnOf]; omega
  · rw [p.length_cells]
    exact le_pages_mul _ p.chunk_pos

/-! ## when it gives the data back -/

/-- What is true of each row of the calls, in its place, is true page by page. -/
theorem PrintLoad.forall_pages {P : Nat → Nat → Bytes → Prop} :
    (∀ i, i < p.ub - p.lb → v.cellAt (p.lb + i) ≠ [] →
      P (i / p.chunkSize) (i % p.chunkSize) (v.cellAt (p.lb + i))) ↔
    ∀ k j cell, (page p.chunkSize (p.columnOf v) k)[j]? = some cell → cell ≠ [] → P k j cell := by
  have hpos := p.chunk_pos
  constructor
  · intro h k j cell hj hne
    obtain ⟨hjlt, hget⟩ := getElem?_page.mp hj
    have hlt : k * p.chunkSize + j < p.ub - p.lb := by
      have := (List.getElem?_eq_some_iff.mp hget).1
      rwa [p.length_columnOf] at this
    rw [p.columnOf_getElem? hlt, Option.some.injEq] at hget
    have hrow := h (k * p.chunkSize + j) hlt (by rw [hget]; exact hne)
    rw [hget, Nat.mul_comm, Nat.mul_add_div hpos, Nat.div_eq_of_lt hjlt, Nat.add_zero,
      Nat.mul_add_mod, Nat.mod_eq_of_lt hjlt] at hrow
    exact hrow
  · intro h i hi hne
    refine h _ _ _ ?_ hne
    rw [getElem?_page]
    refine ⟨Nat.mod_lt i hpos, ?_⟩
    rw [Nat.mul_comm, Nat.div_add_mod]
    exact p.columnOf_getElem? hi

/-- The strings of a vector are read back exactly when their slots are kept. -/
theorem PrintLoad.texts_iff (hv : v ∈ p.t.V) (hq : v.qtype = .SC) :
    (∀ i, i < p.ub - p.lb → v.notNull (p.lb + i) = true →
      (valueAt v.column (columnWrites (p.args X) v.column
        (page p.chunkSize (p.columnOf v) (i / p.chunkSize))) (i % p.chunkSize)).HoldsText
          (v.cellAt (p.lb + i))) ↔
    ∀ i, i < p.ub - p.lb → v.notNull (p.lb + i) = true →
      SlotKept v.width (min p.chunkSize (p.ub - p.lb - i / p.chunkSize * p.chunkSize))
        (i % p.chunkSize) (v.cellAt (p.lb + i)).length := by
  have hlt := p.lt
  have hle := p.le
  have hnull : ∀ i, i < p.ub - p.lb → (v.notNull (p.lb + i) = true ↔ v.cellAt (p.lb + i) ≠ []) :=
    fun i hi => (p.cellAt_ne_nil_iff hv (by omega)).symm
  have htexts : ∀ k, Texts v.column.width (page p.chunkSize (p.columnOf v) k) := by
    intro k
    have hrow : ∀ cell ∈ page p.chunkSize (p.columnOf v) k,
        cell.length < v.width ∧ (0 : UInt8) ∉ cell := by
      intro cell hcell
      obtain ⟨i, hi, rfl⟩ := List.mem_map.mp (mem_of_mem_page hcell)
      have hlast := (List.mem_range'_1.mp hi).2
      exact ⟨p.length_text hv hq (by omega), p.cellAt_noNul hv (by omega)⟩
    exact ⟨fun cell h => (hrow cell h).1, fun cell h => (hrow cell h).2⟩
  have hwidth : v.column.width ≤ 2 ^ 32 :=
    Nat.le_trans (p.widths v hv) (Nat.le_trans p.maxWidth_le (by decide))
  have hpage := fun k => @holdsText_all_iff (p.args X) v.column _ hq (htexts k) hwidth
  have hread := p.forall_pages (v := v) (P := fun k j cell => (valueAt v.column
    (columnWrites (p.args X) v.column (page p.chunkSize (p.columnOf v) k)) j).HoldsText cell)
  have hkept := p.forall_pages (v := v) (P := fun k j cell => SlotKept v.width
    (min p.chunkSize (p.ub - p.lb - k * p.chunkSize)) j cell.length)
  simp only [length_page, p.length_columnOf] at hpage
  constructor
  · intro h i hi hn
    have hall := hread.mp fun i hi hne => h i hi ((hnull i hi).mpr hne)
    exact hkept.mpr (fun k => (hpage k).mp (hall k)) i hi ((hnull i hi).mp hn)
  · intro h i hi hn
    have hall := hkept.mp fun i hi hne => h i hi ((hnull i hi).mpr hne)
    exact hread.mpr (fun k => (hpage k).mpr (hall k)) i hi ((hnull i hi).mp hn)

/-- A value that is read back is the element: a number always, a string when its
slot holds it. -/
theorem PrintLoad.holds_iff (hv : v ∈ p.t.V) (hi : i < p.ub - p.lb)
    (hn : v.notNull (p.lb + i) = true) (he : v.elems[p.lb + i]? = some e) :
    (valueAt v.column (columnWrites (p.args X) v.column
      (page p.chunkSize (p.columnOf v) (i / p.chunkSize))) (i % p.chunkSize)).Holds e ↔
    (v.qtype = .SC → (valueAt v.column (columnWrites (p.args X) v.column
      (page p.chunkSize (p.columnOf v) (i / p.chunkSize))) (i % p.chunkSize)).HoldsText
        (v.cellAt (p.lb + i))) := by
  have hlt := p.lt
  have hle := p.le
  have hfits : e.Fits v.qtype v.width := v.fits e (List.mem_of_getElem? he)
  have hcell := PrintVector.cellAt_eq he hn
  by_cases hq : v.qtype = .SC
  · cases e with
    | num x => simp [Elem.Fits, hq, intBounds] at hfits
    | flag b => simp [Elem.Fits, hq] at hfits
    | text Y =>
        rw [hcell, valueAt, if_pos (show v.column.qtype = .SC from hq)]
        simp [Value.Holds, Value.HoldsText, Elem.cell, hq]
  · have hget : (page p.chunkSize (p.columnOf v) (i / p.chunkSize))[i % p.chunkSize]? =
        some (v.cellAt (p.lb + i)) := by
      rw [getElem?_page, Nat.mul_comm, Nat.div_add_mod]
      exact ⟨Nat.mod_lt i p.chunk_pos, p.columnOf_getElem? hi⟩
    obtain ⟨hj, hjget⟩ := List.getElem?_eq_some_iff.mp hget
    have hval := @valueAt_columnWrites (p.args X) v.column _ _ (fun h => absurd h hq) hj
    rw [hjget, cellValue, p.datumOf_cellAt hv (by omega) hn he] at hval
    rw [hval]
    cases e with
    | num x => simp [Elem.datum, Value.Holds, hq]
    | flag b => simp [Elem.datum, Value.Holds, hq]
    | text Y => exact absurd hfits.1 hq

/-- The rows of the calls. -/
theorem PrintLoad.values_iff {rs : List LoadResult}
    (hall : List.Forall₂ (CallRead (p.args X))
      ((List.range ((p.ub - p.lb) / p.chunkSize + 1)).map
        (page p.chunkSize (p.t.cells p.lb p.ub))) rs) :
    (∀ (c : Nat) (v : PrintVector) (i : Nat) (e : Elem), p.t.V[c]? = some v →
      i < p.ub - p.lb → v.notNull (p.lb + i) = true → v.elems[p.lb + i]? = some e →
      ∃ x, (rs.flatMap fun r => r.column c v.column)[i]? = some x ∧ x.Holds e) ↔ p.SlotsKept := by
  have hlt := p.lt
  have hle := p.le
  constructor
  · intro h v hv hq
    obtain ⟨c, hc⟩ := List.mem_iff_getElem?.mp hv
    refine (p.texts_iff (X := X) hv hq).mp fun i hi hn => ?_
    obtain ⟨e, he, -⟩ := p.exists_elem hv (show p.lb + i < p.t.n by omega)
    obtain ⟨x, hx, hholds⟩ := h c v i e hc hi hn he
    rw [p.columns_eq hc hall, List.getElem?_map, List.getElem?_range hi, Option.map_some,
      Option.some.injEq] at hx
    rw [← hx] at hholds
    exact (p.holds_iff hv hi hn he).mp hholds hq
  · intro h c v i e hc hi hn he
    have hv := List.mem_of_getElem? hc
    refine ⟨_, by rw [p.columns_eq hc hall, List.getElem?_map, List.getElem?_range hi,
      Option.map_some], ?_⟩
    exact (p.holds_iff hv hi hn he).mpr fun hq =>
      (p.texts_iff (X := X) hv hq).mpr (h v hv hq) i hi hn

/-- Where the slots are kept the data comes back. -/
theorem PrintLoad.roundTrips_of (h : p.SlotsKept) : p.RoundTrips := by
  obtain ⟨X, rs, hX, hrs, hall⟩ := p.loads
  refine ⟨X, _, rs, hX, hrs, ?_⟩
  constructor
  · exact forall_status hall
  · rw [sum_nR hall, flatten_pages, List.take_of_length_le, p.length_cells]
    rw [p.length_cells]
    exact le_pages_mul _ p.chunk_pos
  · exact fun c v nn hv hnn => p.flags_eq hv hnn hall
  · exact (p.values_iff hall).mpr h

/-- In particular if the strings of one call take no more than `2^32` bytes. -/
theorem PrintLoad.slotsKept_of_fit (h : ∀ v ∈ p.t.V, v.qtype = .SC →
    min p.chunkSize (p.ub - p.lb) * v.width ≤ 2 ^ 32) : p.SlotsKept := by
  intro v hv hq i hi hn
  have hlt := p.lt
  have hle := p.le
  have hpos := p.chunk_pos
  obtain ⟨n, hn⟩ : ∃ n, n = min p.chunkSize (p.ub - p.lb - i / p.chunkSize * p.chunkSize) :=
    ⟨_, rfl⟩
  have hdiv := Nat.div_add_mod i p.chunkSize
  have hmod := Nat.mod_lt i hpos
  rw [Nat.mul_comm] at hdiv
  rw [← hn]
  apply QStore.Csv.slotKept_of_fit
  · have hmul : n * v.width ≤ min p.chunkSize (p.ub - p.lb) * v.width :=
      Nat.mul_le_mul_right _ (by omega)
    exact Nat.le_trans hmul (h v hv hq)
  · omega
  · exact p.length_text hv hq (by omega)

end Load

end QStore.Csv
