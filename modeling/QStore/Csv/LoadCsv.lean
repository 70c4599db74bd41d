import QStore.Qtype
import QStore.Csv.GetCell
import Mathlib.Algebra.Ring.Nat

/-!
# QStore.Csv.LoadCsv

`load_csv_seq` (`LOAD_CSV/src/load_csv_seq.c`) with `chk_data`, `get_fld_sep`
and `asc_to_bin`: read cells from a file offset on, store them column by
column, and stop after `chunk_size` rows or at the end of the file.

`loadStep` is one turn of the loop. `Recorded` is what every turn keeps on any
file at all: the null flags stored are those of the cells `get_cell` returned.
-/

namespace QStore.Csv

/-- What the caller says about one column: the entries of `c_qtypes`, `width`,
`is_trim`, `is_load`, `has_nulls`, and whether `data` and `nn_data` are given. -/
structure Column where
  qtype : Qtype
  width : Nat
  isTrim : Bool
  isLoad : Bool
  hasNulls : Bool
  hasData : Bool
  hasNnData : Bool

/-- What `asc_to_bin` stores: a number, or bytes at an offset. -/
inductive Datum where
  | num (v : Int)
  | bytes (offset : Nat) (bs : Bytes)

/-- The conversions `txt_to_I1` … `txt_to_F8` of a string. `none`: a negative
status. -/
abbrev TxtFns := Qtype → Bytes → Option Int

/-- The arguments of a run of calls on one file. `file` is what `rs_mmap` maps,
`none` when it fails. -/
structure LoadArgs where
  file : Option Bytes
  cols : List Column
  strFldSep : Bytes
  chunkSize : Nat
  maxWidth : Nat
  nnQtype : Qtype
  isHdr : Bool
  txt : TxtFns

/-- `nC` -/
def LoadArgs.nC (a : LoadArgs) : Nat := a.cols.length

/-- `chk_data` -/
def chkData (cols : List Column) (maxWidth : Nat) : Bool :=
  maxWidth ≠ 0 && maxWidth ≤ 65536 &&
    cols.all fun c =>
      (if c.isLoad then c.hasData else !c.hasData && !c.hasNnData) &&
        (c.hasNulls == c.hasNnData) && c.width ≤ maxWidth

/-- `strcasecmp(buf, s) == 0` for a string `s` of small letters. -/
def strCaseEq (buf : Bytes) (s : String) : Bool :=
  buf.map (fun c => if 65 ≤ c ∧ c ≤ 90 then c + 32 else c) == s.toUTF8.data.toList

/-- `get_fld_sep`. `none`: its error, which the caller ignores. -/
def getFldSep (strFldSep : Bytes) : Option UInt8 :=
  if strCaseEq strFldSep "comma" then some 44
  else if strCaseEq strFldSep "tab" then some 9
  else none

/-- `asc_to_bin`. `none`: a negative status. -/
def ascToBin (txt : TxtFns) (buf : Bytes) (isValNull : Bool) (qtype : Qtype)
    (width rowIdx : Nat) : Option Datum :=
  match qtype with
  | .B1 =>
      match txt .I1 (cStr buf) with
      | none => none
      | some v => if v < 0 ∨ v > 1 then none else some (.num v)
  | .BL =>
      if isValNull then some (.num 0)
      else if strCaseEq (cStr buf) "true" ∨ cStr buf = [49] then some (.num 1)
      else if strCaseEq (cStr buf) "false" ∨ cStr buf = [48] then some (.num 0)
      else none
  | .I1 | .I2 | .I4 | .I8 | .UI1 | .UI2 | .UI4 | .UI8 | .F4 | .F8 =>
      if isValNull then some (.num 0) else (txt qtype (cStr buf)).map .num
  | .SC => some (.bytes (rowIdx * width % 2 ^ 32) ((buf ++ List.replicate width 0).take width))
  | _ => none

/-- The variables of the loop. `cells` is no variable of the source: it is the
cells read so far, the header apart. -/
structure LoadState where
  xidx : Nat
  rowCtr : Nat
  colCtr : Nat
  isHdr : Bool
  nn : Nat → Nat → Option Bool
  data : List (Nat × Nat × Datum)
  cells : List Bytes

/-- How a turn of the loop ends. -/
inductive Step where
  | error
  | stop (s : LoadState)
  | more (s : LoadState)

/-- `col_ctr++`, and the end of a row. -/
def advance (nC : Nat) (s : LoadState) : LoadState :=
  if s.colCtr + 1 = nC then { s with colCtr := 0, rowCtr := s.rowCtr + 1 }
  else { s with colCtr := s.colCtr + 1 }

/-- The end of a turn after a cell of the body: stop at a full chunk, and at the
end of the file. -/
def endTurn (nC chunkSize : Nat) (atEnd : Bool) (s : LoadState) : Step :=
  if s.colCtr + 1 = nC ∧ s.rowCtr + 1 = chunkSize then .stop (advance nC s)
  else if atEnd then .stop (advance nC s)
  else .more (advance nC s)

/-- The null flag of the current cell, as a bit (`B1`) or a byte (`BL`). -/
def setNn (s : LoadState) (flag : Bool) : LoadState :=
  { s with nn := fun c r => if c = s.colCtr ∧ r = s.rowCtr then some flag else s.nn c r }

/-- The value of the current cell. -/
def setData (s : LoadState) (d : Datum) : LoadState :=
  { s with data := s.data ++ [(s.colCtr, s.rowCtr, d)] }

/-- Stores the cell `buf` of the loaded column `col`. -/
def storeCell (a : LoadArgs) (col : Column) (buf : Bytes) (s : LoadState) : Option LoadState :=
  -- a cell is null when its first byte is the terminator
  let isValNull := buf.headD 0 == 0
  if isValNull && !col.hasNulls then none
  else
    let flagged : Option LoadState :=
      if col.hasNulls then
        if a.nnQtype = .B1 ∨ a.nnQtype = .BL then some (setNn s !isValNull) else none
      else some s
    flagged.bind fun s =>
      (ascToBin a.txt buf isValNull col.qtype col.width s.rowCtr).map (setData s)

/-- The rest of a turn that read a cell of the header. -/
def headerTurn (nX : Nat) (isLastCol : Bool) (s : LoadState) : Step :=
  if s.rowCtr ≠ 0 then .error
  else
    let t := if isLastCol then { s with colCtr := 0, isHdr := false }
      else { s with colCtr := s.colCtr + 1 }
    if s.xidx ≥ nX then .stop t else .more t

/-- The rest of a turn that read the cell `buf` of the body. -/
def bodyTurn (a : LoadArgs) (nX : Nat) (col : Column) (buf : Bytes) (s : LoadState) : Step :=
  let t := { s with cells := s.cells ++ [buf] }
  if !col.isLoad then endTurn a.nC a.chunkSize (s.xidx == nX) t
  else
    match storeCell a col buf t with
    | none => .error
    | some u => endTurn a.nC a.chunkSize (decide (s.xidx ≥ nX)) u

/-- The index `get_cell` returned. -/
def setXidx (s : LoadState) (xidx : Nat) : LoadState := { s with xidx := xidx }

/-- One turn of the loop. `none`: `get_cell` reads past the end of the file. -/
def loadStep (a : LoadArgs) (X : Bytes) (sep : UInt8) (fileOffset : Nat) (s : LoadState) :
    Option Step :=
  let isLastCol := decide (s.colCtr = a.nC - 1)
  a.cols[s.colCtr]?.bind fun col =>
    (getCell X s.xidx sep isLastCol col.isTrim (a.maxWidth - 1)).map fun r =>
      if r.isErr then .error
      else if s.isHdr && fileOffset == 0 then
        headerTurn X.length isLastCol (setXidx s r.xidx)
      else bodyTurn a X.length col r.buf (setXidx s r.xidx)

/-- The loop, for at most `fuel` turns. The state is `none` after an error. -/
def loadLoop (a : LoadArgs) (X : Bytes) (sep : UInt8) (fileOffset : Nat) :
    Nat → LoadState → Option (Option LoadState)
  | 0, _ => none
  | fuel + 1, s =>
      match loadStep a X sep fileOffset s with
      | none => none
      | some .error => some none
      | some (.stop s) => some (some s)
      | some (.more s) => loadLoop a X sep fileOffset fuel s

/-- What `load_csv_seq` returns and writes. -/
structure LoadResult where
  status : Int
  nR : Nat
  fileOffset : Nat
  nn : Nat → Nat → Option Bool
  data : List (Nat × Nat × Datum)
  cells : List Bytes

/-- A call that stores nothing. -/
def noRows (status : Int) (fileOffset : Nat) : LoadResult :=
  ⟨status, 0, fileOffset, fun _ _ => none, [], []⟩

/-- The state before the first turn. -/
def startState (a : LoadArgs) (fileOffset : Nat) : LoadState :=
  ⟨fileOffset, 0, 0, a.isHdr, fun _ _ => none, [], []⟩

/-- `load_csv_seq` from `fileOffset` on. The header and `chunkSize` rows take no
more turns than the fuel. `none`: it reads past the end of the file or with an
unset separator, or does not return. -/
def loadCsvSeq (a : LoadArgs) (fileOffset : Nat) : Option LoadResult :=
  if a.nC = 0 then some (noRows (-1) fileOffset)
  else if !chkData a.cols a.maxWidth then some (noRows (-1) fileOffset)
  else
    match a.file with
    | none => some (noRows (-1) fileOffset)
    | some X =>
      if X.length = 0 then some (noRows (-1) fileOffset)
      else if fileOffset > X.length then some (noRows (-1) fileOffset)
      else if fileOffset ≥ X.length then some (noRows 0 fileOffset)
      else
        match getFldSep a.strFldSep with
        | none => none
        | some sep =>
          match loadLoop a X sep fileOffset (a.nC * (a.chunkSize + 1) + X.length)
              (startState a fileOffset) with
          | none => none
          | some none => some (noRows (-1) fileOffset)
          | some (some s) => some ⟨0, s.rowCtr, s.xidx, s.nn, s.data, s.cells⟩

/-- `n` calls, each from the offset the one before left. -/
def loadCalls (a : LoadArgs) : Nat → Nat → Option (List LoadResult)
  | 0, _ => some []
  | n + 1, fileOffset =>
      (loadCsvSeq a fileOffset).bind fun r =>
        if r.status < 0 then some [r] else (loadCalls a n r.fileOffset).map (r :: ·)

/-! ## the null flags are those of the cells read -/

/-- The cell of row `i` and column `c`. -/
def cellAt (nC : Nat) (cells : List Bytes) (i c : Nat) : Bytes := cells.getD (i * nC + c) []

/-- What the loop has stored so far agrees with the cells it has read. -/
structure Recorded (a : LoadArgs) (s : LoadState) : Prop where
  col : s.colCtr < a.nC
  count : s.cells.length = s.rowCtr * a.nC + s.colCtr
  nn : ∀ i c col, i * a.nC + c < s.cells.length → a.cols[c]? = some col → col.isLoad = true →
    col.hasNulls = true → s.nn c i = some (!((cellAt a.nC s.cells i c).headD 0 == 0))

/-- Two places of the table with one index are one place. -/
theorem place_inj {n i j c d : Nat} (hc : c < n) (hd : d < n) (h : i * n + c = j * n + d) :
    i = j ∧ c = d := by
  have hdiv : ∀ k e, e < n → (k * n + e) / n = k := by
    intro k e he
    rw [Nat.mul_comm, Nat.mul_add_div (by omega), Nat.div_eq_of_lt he, Nat.add_zero]
  have hij : i = j := by rw [← hdiv i c hc, h, hdiv j d hd]
  subst hij
  exact ⟨rfl, by omega⟩

section Step

variable {a : LoadArgs} {X : Bytes} {sep : UInt8} {fileOffset : Nat} {s t : LoadState}
  {col : Column} {buf : Bytes}

theorem advance_recorded (hcol : s.colCtr < a.nC)
    (hcount : s.cells.length = s.rowCtr * a.nC + s.colCtr + 1)
    (hnn : ∀ i c col, i * a.nC + c < s.cells.length → a.cols[c]? = some col →
      col.isLoad = true → col.hasNulls = true →
      s.nn c i = some (!((cellAt a.nC s.cells i c).headD 0 == 0))) :
    Recorded a (advance a.nC s) := by
  unfold advance
  split
  · next hlast => exact ⟨by simp only; omega, by simp only [Nat.add_mul]; omega, hnn⟩
  · exact ⟨by simp only; omega, by simp only; omega, hnn⟩

/-- A cell that is stored or skipped is recorded. -/
theorem storeCell_recorded (hr : Recorded a s) (hcol : a.cols[s.colCtr]? = some col)
    (hst : (col.isLoad = false ∧ t = { s with cells := s.cells ++ [buf] }) ∨
      storeCell a col buf { s with cells := s.cells ++ [buf] } = some t) :
    t.xidx = s.xidx ∧ t.isHdr = s.isHdr ∧ t.rowCtr = s.rowCtr ∧ t.colCtr = s.colCtr ∧
      t.cells = s.cells ++ [buf] ∧ Recorded a (advance a.nC t) := by
  have hlt := hr.col
  -- cells read earlier keep their places
  have hold : ∀ i c, i * a.nC + c < s.cells.length →
      cellAt a.nC (s.cells ++ [buf]) i c = cellAt a.nC s.cells i c := by
    intro i c hic
    simp only [cellAt, List.getD_eq_getElem?_getD]
    rw [List.getElem?_append_left hic]
  have hnew : cellAt a.nC (s.cells ++ [buf]) s.rowCtr s.colCtr = buf := by
    simp only [cellAt, List.getD_eq_getElem?_getD]
    rw [← hr.count, List.getElem?_concat_length, Option.getD_some]
  rcases hst with ⟨hskip, rfl⟩ | hst
  · refine ⟨rfl, rfl, rfl, rfl, rfl, advance_recorded hlt ?_ ?_⟩
    · simp only [List.length_append, List.length_singleton]; have := hr.count; omega
    · intro i c col' hic hc' hl' hn'
      simp only [List.length_append, List.length_singleton] at hic ⊢
      by_cases hi : i * a.nC + c < s.cells.length
      · rw [hold i c hi]; exact hr.nn i c col' hi hc' hl' hn'
      · have hcn : c < a.nC := (List.getElem?_eq_some_iff.mp hc').1
        have hplace : i * a.nC + c = s.rowCtr * a.nC + s.colCtr := by have := hr.count; omega
        obtain ⟨-, rfl⟩ := place_inj hcn hlt hplace
        rw [hcol, Option.some.injEq] at hc'
        rw [← hc', hskip] at hl'
        contradiction
  · simp only [storeCell] at hst
    split at hst
    · contradiction
    · rw [Option.bind_eq_some_iff] at hst
      obtain ⟨u, hu, ht⟩ := hst
      rw [Option.map_eq_some_iff] at ht
      obtain ⟨d, -, rfl⟩ := ht
      have hu' : (col.hasNulls = true ∧
          u = setNn { s with cells := s.cells ++ [buf] } (!(buf.headD 0 == 0))) ∨
          (col.hasNulls = false ∧ u = { s with cells := s.cells ++ [buf] }) := by
        split at hu
        · next hn =>
          split at hu
          · exact .inl ⟨hn, (Option.some.inj hu).symm⟩
          · contradiction
        · next hn => exact .inr ⟨by simpa using hn, (Option.some.inj hu).symm⟩
      have hfields : u.xidx = s.xidx ∧ u.isHdr = s.isHdr ∧ u.rowCtr = s.rowCtr ∧
          u.colCtr = s.colCtr ∧ u.cells = s.cells ++ [buf] := by
        rcases hu' with ⟨-, rfl⟩ | ⟨-, rfl⟩ <;> exact ⟨rfl, rfl, rfl, rfl, rfl⟩
      obtain ⟨hx, hh, hrow, hcolc, hcells⟩ := hfields
      refine ⟨hx, hh, hrow, hcolc, hcells, advance_recorded ?_ ?_ ?_⟩
      · simp only [setData, hcolc]; exact hlt
      · simp only [setData, hcells, hrow, hcolc, List.length_append, List.length_singleton]
        have := hr.count
        omega
      · intro i c col' hic hc' hl' hn'
        simp only [setData, hcells, List.length_append, List.length_singleton] at hic ⊢
        by_cases hi : i * a.nC + c < s.cells.length
        · rw [hold i c hi]
          rcases hu' with ⟨-, rfl⟩ | ⟨-, rfl⟩
          · simp only [setNn]
            rw [if_neg]
            · exact hr.nn i c col' hi hc' hl' hn'
            · rintro ⟨rfl, rfl⟩
              have := hr.count
              omega
          · exact hr.nn i c col' hi hc' hl' hn'
        · have hcn : c < a.nC := (List.getElem?_eq_some_iff.mp hc').1
          have hplace : i * a.nC + c = s.rowCtr * a.nC + s.colCtr := by have := hr.count; omega
          obtain ⟨rfl, rfl⟩ := place_inj hcn hlt hplace
          rw [hcol, Option.some.injEq] at hc'
          rcases hu' with ⟨-, rfl⟩ | ⟨hn, -⟩
          · rw [hnew]; simp [setNn]
          · rw [← hc', hn] at hn'; contradiction

/-- Whichever way a turn ends, its state is the stored one, advanced. -/
theorem endTurn_eq {b : Bool}
    (ht : endTurn a.nC a.chunkSize b s = .more t ∨ endTurn a.nC a.chunkSize b s = .stop t) :
    t = advance a.nC s := by
  unfold endTurn at ht
  rcases ht with ht | ht <;> split at ht <;> (try split at ht) <;> simp_all

theorem advance_isHdr : (advance a.nC s).isHdr = s.isHdr := by
  unfold advance
  split <;> rfl

theorem bodyTurn_recorded {nX : Nat} (hr : Recorded a s) (hcol : a.cols[s.colCtr]? = some col)
    (ht : bodyTurn a nX col buf s = .more t ∨ bodyTurn a nX col buf s = .stop t) :
    Recorded a t ∧ t.isHdr = s.isHdr := by
  unfold bodyTurn at ht
  by_cases hl : col.isLoad = true
  · rw [if_neg (by simp [hl])] at ht
    cases hst : storeCell a col buf { s with cells := s.cells ++ [buf] } with
    | none => simp [hst] at ht
    | some u =>
        obtain ⟨-, hh, -, -, -, hu⟩ := storeCell_recorded hr hcol (.inr hst)
        rw [hst] at ht
        rw [endTurn_eq ht, advance_isHdr]
        exact ⟨hu, hh⟩
  · have hl' : col.isLoad = false := by simpa using hl
    obtain ⟨-, hh, -, -, -, hu⟩ := storeCell_recorded hr hcol (.inl ⟨hl', rfl⟩)
    rw [if_pos (by simp [hl'])] at ht
    rw [endTurn_eq ht, advance_isHdr]
    exact ⟨hu, hh⟩

/-- **Every turn keeps the record**, on any file. -/
theorem loadStep_recorded (hr : Recorded a s) (hhdr : (s.isHdr && fileOffset == 0) = false)
    (hstep : loadStep a X sep fileOffset s = some (.more t) ∨
      loadStep a X sep fileOffset s = some (.stop t)) : Recorded a t ∧ t.isHdr = s.isHdr := by
  have hcases : ∃ st, loadStep a X sep fileOffset s = some st ∧ (st = .more t ∨ st = .stop t) := by
    rcases hstep with h | h
    · exact ⟨_, h, .inl rfl⟩
    · exact ⟨_, h, .inr rfl⟩
  obtain ⟨st, hst, ht⟩ := hcases
  simp only [loadStep, Option.bind_eq_some_iff, Option.map_eq_some_iff] at hst
  obtain ⟨col, hcol, r, -, rfl⟩ := hst
  by_cases herr : r.isErr = true
  · rw [if_pos herr] at ht
    rcases ht with ht | ht <;> contradiction
  · rw [if_neg herr, hhdr, if_neg (by decide)] at ht
    have hr' : Recorded a (setXidx s r.xidx) := ⟨hr.col, hr.count, hr.nn⟩
    obtain ⟨hrec, hh⟩ := bodyTurn_recorded hr' hcol ht
    exact ⟨hrec, hh⟩

theorem loadLoop_recorded {fuel : Nat} (hr : Recorded a s)
    (hhdr : (s.isHdr && fileOffset == 0) = false)
    (hl : loadLoop a X sep fileOffset fuel s = some (some t)) : Recorded a t := by
  induction fuel generalizing s with
  | zero => simp [loadLoop] at hl
  | succ fuel ih =>
      rw [loadLoop] at hl
      cases hstep : loadStep a X sep fileOffset s with
      | none => simp [hstep] at hl
      | some st =>
          cases st with
          | error => simp [hstep] at hl
          | stop u =>
              simp only [hstep, Option.some.injEq] at hl
              exact hl ▸ (loadStep_recorded hr hhdr (.inr hstep)).1
          | more u =>
              simp only [hstep] at hl
              obtain ⟨hu, hhu⟩ := loadStep_recorded hr hhdr (.inl hstep)
              exact ih hu (by rw [hhu]; exact hhdr) hl

end Step

end QStore.Csv
