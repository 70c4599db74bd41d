import Mathlib.Tactic.Common

/-!
# QStore.Csv.GetCell

`get_cell` (`LOAD_CSV/src/get_cell.c`): one cell of a CSV file, from byte
`xidx` on.

```
"…"sep      quoted: a backslash makes the next byte literal
…sep        raw: ends at the separator, or at the newline in the last column
```

The scan is written over the bytes that are left, `X[xidx..]`. A failed call
returns the index `0` and leaves `is_err` alone; only a newline in a raw cell
sets it.
-/

namespace QStore.Csv

abbrev Bytes := List UInt8

def dquote : UInt8 := 34
def bslash : UInt8 := 92
def eoln : UInt8 := 10

/-- `isspace` of the C locale. -/
def isSpace (c : UInt8) : Bool := c == 32 || (9 ≤ c && c ≤ 13)

/-- The bytes before the first NUL: what a string function sees of a buffer. -/
def cStr (buf : Bytes) : Bytes := buf.takeWhile (· != 0)

/-- `trim` of a zeroed buffer of `n` bytes into which `inbuf` was written.
`none`: an error. -/
def trim (n : Nat) (inbuf : Bytes) : Option Bytes :=
  if n ≤ 1 then none
  else if inbuf.length ≥ n ∧ inbuf.getLast? ≠ some 0 then none
  else
    match cStr inbuf with
    | [] => some []
    | s@(c :: _) =>
        if !isSpace c && !isSpace (s.getLast?.getD c) then some s
        else
          -- from the first byte that is no space to the last that is neither NUL nor space
          let start := inbuf.findIdx (fun c => !isSpace c)
          let stop := inbuf.length - inbuf.reverse.findIdx (fun c => !(c == 0 || isSpace c))
          some ((inbuf.take stop).drop start)

/-- What `get_cell` returns and writes. -/
structure CellResult where
  xidx : Nat
  buf : Bytes
  isErr : Bool

/-- `BYE` with a negative status. The caller's buffer keeps what was written to
it, unless the cell was read into `lbuf`. -/
def cellFailed (isTrim : Bool) (lbuf : Bytes) : CellResult :=
  ⟨0, if isTrim then [] else lbuf, false⟩

/-- A cell that ends with `xidx` one past its last byte. -/
def cellDone (isTrim : Bool) (bufsz xidx : Nat) (lbuf : Bytes) : CellResult :=
  if isTrim then
    match trim bufsz lbuf with
    | none => cellFailed isTrim lbuf
    | some buf => ⟨xidx, buf, false⟩
  else ⟨xidx, lbuf, false⟩

/-- How the current cell is read. -/
structure CellMode where
  lastChar : UInt8
  startDquote : Bool
  /-- the byte after the cell: newline in the last column, else the separator -/
  term : UInt8
  isTrim : Bool
  bufsz : Nat

/-- The loop of `get_cell` over the bytes left, at index `xidx`, with `lbuf`
written so far. -/
def scanCell (m : CellMode) : Bytes → Nat → Bytes → CellResult
  | [], xidx, lbuf => cellDone m.isTrim m.bufsz xidx lbuf
  | c :: rest, xidx, lbuf =>
      if c = m.lastChar then
        if m.startDquote then
          match rest with
          | [] => cellFailed m.isTrim lbuf
          | d :: _ =>
              if d ≠ m.term then cellFailed m.isTrim lbuf
              else cellDone m.isTrim m.bufsz (xidx + 2) lbuf
        else cellDone m.isTrim m.bufsz (xidx + 1) lbuf
      else if c = bslash then
        match rest with
        | [] => cellFailed m.isTrim lbuf
        | d :: rest' =>
            if lbuf.length ≥ m.bufsz then cellFailed m.isTrim lbuf
            else scanCell m rest' (xidx + 2) (lbuf ++ [d])
      else if lbuf.length ≥ m.bufsz then cellFailed m.isTrim lbuf
      else if !m.startDquote && c == eoln then ⟨0, if m.isTrim then [] else lbuf, true⟩
      else scanCell m rest (xidx + 1) (lbuf ++ [c])

/-- `get_cell`; `isTrim` when the caller passes `lbuf`. `none`: it reads past
the end of the file. -/
def getCell (X : Bytes) (xidx : Nat) (fldSep : UInt8) (isLastCol isTrim : Bool) (bufsz : Nat) :
    Option CellResult :=
  let nX := X.length
  if nX = 0 then some (cellFailed isTrim [])
  else if xidx = nX then some (cellFailed isTrim [])
  else if bufsz = 0 then some (cellFailed isTrim [])
  else
    match X.drop xidx with
    | [] => none
    | c :: rest =>
        let term := if isLastCol then eoln else fldSep
        if c = bslash then
          -- meant for the null value \N; the length test lets it look past the end
          if xidx + 2 ≥ nX then
            match rest with
            | [] => none
            | d :: _ => if d = 78 then none else some ⟨xidx + 3, [], false⟩
          else some ⟨xidx + 3, [], false⟩
        else if c = dquote then some (scanCell ⟨dquote, true, term, isTrim, bufsz⟩ rest (xidx + 1) [])
        else some (scanCell ⟨term, false, term, isTrim, bufsz⟩ (c :: rest) xidx [])

/-! ## encoding a cell -/

/-- A quoted cell between its quotes: a backslash before every quote and every
backslash. -/
def escape : Bytes → Bytes
  | [] => []
  | c :: cs => if c = dquote ∨ c = bslash then bslash :: c :: escape cs else c :: escape cs

/-- A cell that may be written as it is. -/
structure RawOk (sep : UInt8) (cell : Bytes) : Prop where
  noSep : sep ∉ cell
  noEoln : eoln ∉ cell
  noBslash : bslash ∉ cell
  noQuote : cell.head? ≠ some dquote

/-- The ways to write a cell. -/
inductive EncodesCell (sep : UInt8) : Bytes → Bytes → Prop
  | raw {cell : Bytes} (h : RawOk sep cell) : EncodesCell sep cell cell
  | quoted (cell : Bytes) : EncodesCell sep cell (dquote :: (escape cell ++ [dquote]))

/-! ## one turn of the scan -/

variable {m : CellMode} {c d : UInt8} {rest lbuf : Bytes} {xidx : Nat}

/-- The closing quote, followed by the byte that must follow it. -/
theorem scanCell_close (hq : m.startDquote = true) :
    scanCell m (m.lastChar :: m.term :: rest) xidx lbuf =
      cellDone m.isTrim m.bufsz (xidx + 2) lbuf := by
  simp [scanCell, hq]

/-- The end of a raw cell. -/
theorem scanCell_stop (hq : m.startDquote = false) :
    scanCell m (m.lastChar :: rest) xidx lbuf = cellDone m.isTrim m.bufsz (xidx + 1) lbuf := by
  cases rest <;> simp [scanCell, hq]

/-- A backslash and the byte it protects. -/
theorem scanCell_escaped (hlast : bslash ≠ m.lastChar) (hlen : lbuf.length < m.bufsz) :
    scanCell m (bslash :: d :: rest) xidx lbuf = scanCell m rest (xidx + 2) (lbuf ++ [d]) := by
  rw [scanCell, if_neg hlast, if_pos rfl, if_neg (by omega)]

/-- A byte of the cell itself. -/
theorem scanCell_plain (hlast : c ≠ m.lastChar) (hb : c ≠ bslash) (hlen : lbuf.length < m.bufsz)
    (hq : m.startDquote = true ∨ c ≠ eoln) :
    scanCell m (c :: rest) xidx lbuf = scanCell m rest (xidx + 1) (lbuf ++ [c]) := by
  have hnl : (!m.startDquote && c == eoln) = false := by
    rcases hq with hq | hq
    · rw [hq]; rfl
    · rw [beq_eq_false_iff_ne.mpr hq, Bool.and_false]
  cases rest <;> simp [scanCell, hlast, hb, hnl, Nat.not_le.mpr hlen]

/-! ## reading it back -/

variable {sep term : UInt8} {bufsz : Nat} {cell acc bs post : Bytes}

/-- A quoted cell is scanned to its closing quote and the byte after it. -/
theorem scanCell_escape (hlen : acc.length + cell.length ≤ bufsz) :
    scanCell ⟨dquote, true, term, false, bufsz⟩ (escape cell ++ dquote :: term :: post) xidx acc =
      ⟨xidx + (escape cell).length + 2, acc ++ cell, false⟩ := by
  induction cell generalizing xidx acc with
  | nil =>
      have hclose : scanCell ⟨dquote, true, term, false, bufsz⟩ (dquote :: term :: post) xidx acc =
          cellDone false bufsz (xidx + 2) acc := scanCell_close rfl
      simpa [escape, cellDone] using hclose
  | cons c cs ih =>
      simp only [List.length_cons] at hlen
      have hacc : (acc ++ [c]).length + cs.length ≤ bufsz := by
        rw [List.length_append, List.length_singleton]; omega
      by_cases hc : c = dquote ∨ c = bslash
      · rw [escape, if_pos hc, List.cons_append, List.cons_append,
          scanCell_escaped (show bslash ≠ dquote by decide) (show acc.length < bufsz by omega),
          ih hacc]
        simp only [List.length_cons, List.append_assoc, List.singleton_append]
        congr 1
        omega
      · rw [escape, if_neg hc, List.cons_append]
        rw [not_or] at hc
        rw [scanCell_plain hc.1 hc.2 (show acc.length < bufsz by omega) (.inl rfl), ih hacc]
        simp only [List.length_cons, List.append_assoc, List.singleton_append]
        congr 1
        omega

/-- A raw cell is scanned to the byte that ends it. -/
theorem scanCell_raw (hterm : term ∉ cell) (heoln : eoln ∉ cell) (hb : bslash ∉ cell)
    (hlen : acc.length + cell.length ≤ bufsz) :
    scanCell ⟨term, false, term, false, bufsz⟩ (cell ++ term :: post) xidx acc =
      ⟨xidx + cell.length + 1, acc ++ cell, false⟩ := by
  induction cell generalizing xidx acc with
  | nil =>
      have hstop : scanCell ⟨term, false, term, false, bufsz⟩ (term :: post) xidx acc =
          cellDone false bufsz (xidx + 1) acc := scanCell_stop rfl
      simpa [cellDone] using hstop
  | cons c cs ih =>
      simp only [List.mem_cons, not_or] at hterm heoln hb
      simp only [List.length_cons] at hlen
      have hacc : (acc ++ [c]).length + cs.length ≤ bufsz := by
        rw [List.length_append, List.length_singleton]; omega
      rw [List.cons_append, scanCell_plain (Ne.symm hterm.1) (Ne.symm hb.1)
        (show acc.length < bufsz by omega) (.inr (Ne.symm heoln.1)),
        ih hterm.2 heoln.2 hb.2 hacc]
      simp only [List.length_cons, List.append_assoc, List.singleton_append]
      congr 1
      omega

/-- **One cell round trips**: read from its first byte, an encoded cell gives
its bytes and the index one past the byte that ends it. -/
theorem getCell_encoded (pre post : Bytes) {isLastCol : Bool} (henc : EncodesCell sep cell bs)
    (hsep : sep ≠ bslash ∧ sep ≠ dquote) (hlen : cell.length ≤ bufsz) (hpos : 0 < bufsz)
    (hX : term = if isLastCol then eoln else sep) :
    getCell (pre ++ (bs ++ term :: post)) pre.length sep isLastCol false bufsz =
      some ⟨pre.length + bs.length + 1, cell, false⟩ := by
  have hterm : term ≠ bslash ∧ term ≠ dquote := by
    subst hX
    cases isLastCol
    · exact hsep
    · exact (by decide : eoln ≠ bslash ∧ eoln ≠ dquote)
  have hdrop : (pre ++ (bs ++ term :: post)).drop pre.length = bs ++ term :: post := by simp
  have hlenX : ¬ (pre ++ (bs ++ term :: post)).length = 0 := by simp
  have hne : ¬ pre.length = (pre ++ (bs ++ term :: post)).length := by simp
  simp only [getCell, if_neg hlenX, if_neg hne, if_neg (Nat.pos_iff_ne_zero.mp hpos), hdrop, ← hX]
  cases henc with
  | raw hraw =>
      have hnot : term ∉ cell := by
        subst hX
        cases isLastCol
        · exact hraw.noSep
        · exact hraw.noEoln
      have hscan : scanCell ⟨term, false, term, false, bufsz⟩ (cell ++ term :: post) pre.length [] =
          ⟨pre.length + cell.length + 1, cell, false⟩ :=
        scanCell_raw hnot hraw.noEoln hraw.noBslash (by simpa using hlen)
      cases cell with
      | nil =>
          simp only [List.nil_append] at hscan ⊢
          rw [if_neg hterm.1, if_neg hterm.2, hscan]
      | cons c cs =>
          have hc1 : c ≠ bslash := fun h => hraw.noBslash (by simp [h])
          have hc2 : c ≠ dquote := fun h => hraw.noQuote (by simp [h])
          simp only [List.cons_append] at hscan ⊢
          rw [if_neg hc1, if_neg hc2, hscan]
  | quoted =>
      have hscan : scanCell ⟨dquote, true, term, false, bufsz⟩
          (escape cell ++ dquote :: term :: post) (pre.length + 1) [] =
          ⟨pre.length + 1 + (escape cell).length + 2, cell, false⟩ :=
        scanCell_escape (by simpa using hlen)
      have hassoc : dquote :: (escape cell ++ [dquote]) ++ term :: post =
          dquote :: (escape cell ++ dquote :: term :: post) := by simp
      rw [hassoc]
      simp only
      rw [if_neg (by decide), if_pos trivial, hscan]
      simp only [List.length_cons, List.length_append, List.length_nil]
      congr 2
      omega

end QStore.Csv
