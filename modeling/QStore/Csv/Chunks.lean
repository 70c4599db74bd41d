import QStore.Csv.Columns
import QStore.Csv.RoundTrip
import QStore.Lib.Pages

/-!
# QStore.Csv.Chunks

A file loaded in chunks, each call from the offset the one before left.

```
file   =  [header row] row row …
call   =  up to chunk_size rows, each of nC cells
```

`ReadsRow` and `ReadsRows` say what a file of rows is: what `get_cell` reads, cell
after cell, with nothing left over. `callReads` says what one call does at the
start of a row; a run of calls is the list of the pieces its calls read.
-/

namespace QStore.Csv

/-- `get_cell` reads the cells of a row from column `c` on, from index `x` to
`x'`. -/
inductive ReadsRow (a : LoadArgs) (X : Bytes) (sep : UInt8) :
    Nat → Nat → List Bytes → Nat → Prop
  | last {c x x' : Nat} {cell : Bytes} {col : Column} (hc : c + 1 = a.nC)
      (hcol : a.cols[c]? = some col)
      (hget : getCell X x sep true col.isTrim (a.maxWidth - 1) = some ⟨x', cell, false⟩)
      (hlt : x < x') (hle : x' ≤ X.length) : ReadsRow a X sep c x [cell] x'
  | cons {c x y x' : Nat} {cell : Bytes} {cells : List Bytes} {col : Column} (hc : c + 1 < a.nC)
      (hcol : a.cols[c]? = some col)
      (hget : getCell X x sep false col.isTrim (a.maxWidth - 1) = some ⟨y, cell, false⟩)
      (hlt : x < y) (hrest : ReadsRow a X sep (c + 1) y cells x') :
      ReadsRow a X sep c x (cell :: cells) x'

/-- The rows from index `x` to the end of the file. -/
inductive ReadsRows (a : LoadArgs) (X : Bytes) (sep : UInt8) : Nat → List (List Bytes) → Prop
  | nil : ReadsRows a X sep X.length []
  | cons {x x' : Nat} {row : List Bytes} {rows : List (List Bytes)}
      (hrow : ReadsRow a X sep 0 x row x') (hrows : ReadsRows a X sep x' rows) :
      ReadsRows a X sep x (row :: rows)

/-- The rows a call finds at `fileOffset`: at the start of a file with a header,
those after the header. -/
def RowsAt (a : LoadArgs) (X : Bytes) (sep : UInt8) (fileOffset : Nat)
    (rows : List (List Bytes)) : Prop :=
  if (a.isHdr && fileOffset == 0) = true then
    ∃ hdr x, ReadsRow a X sep 0 0 hdr x ∧ ReadsRows a X sep x rows
  else ReadsRows a X sep fileOffset rows

/-- A well-formed file: a header row if there is to be one, and rows of `nC`
cells. -/
structure WellFormed (a : LoadArgs) (X : Bytes) (sep : UInt8) (rows : List (List Bytes)) :
    Prop where
  file : a.file = some X
  separator : getFldSep a.strFldSep = some sep
  reads : RowsAt a X sep 0 rows

/-- Calls until one returns fewer rows than a chunk holds, or fails. `none`: more
than `n` calls. -/
def loadUntil (a : LoadArgs) : Nat → Nat → Option (List LoadResult)
  | 0, _ => none
  | n + 1, fileOffset =>
      (loadCsvSeq a fileOffset).bind fun r =>
        if r.status < 0 ∨ r.nR < a.chunkSize then some [r]
        else (loadUntil a n r.fileOffset).map (r :: ·)

variable {a : LoadArgs} {X : Bytes} {sep : UInt8} {fileOffset : Nat} {s : LoadState}
  {rows : List (List Bytes)} {row cells : List Bytes} {cell : Bytes} {c x x' : Nat}

theorem ReadsRow.lt (h : ReadsRow a X sep c x row x') : x < x' := by
  induction h with
  | last _ _ _ hlt _ => exact hlt
  | cons _ _ _ hlt _ ih => omega

theorem ReadsRow.le (h : ReadsRow a X sep c x row x') : x' ≤ X.length := by
  induction h with
  | last _ _ _ _ hle => exact hle
  | cons _ _ _ _ _ ih => exact ih

theorem ReadsRow.length (h : ReadsRow a X sep c x row x') : c + row.length = a.nC := by
  induction h with
  | last hc _ _ _ _ => simpa using hc
  | cons _ _ _ _ _ ih => rw [List.length_cons]; omega

theorem ReadsRows.nil_iff (h : ReadsRows a X sep x rows) : x = X.length ↔ rows = [] := by
  cases h with
  | nil => simp
  | cons hrow _ =>
      have h1 := hrow.lt
      have h2 := hrow.le
      simp only [reduceCtorEq, iff_false]
      omega

theorem ReadsRows.le (h : ReadsRows a X sep x rows) : x ≤ X.length := by
  cases h with
  | nil => exact Nat.le_refl _
  | cons hrow _ => exact Nat.le_of_lt (Nat.lt_of_lt_of_le hrow.lt hrow.le)

theorem ReadsRows.lengths (h : ReadsRows a X sep x rows) : ∀ row ∈ rows, row.length = a.nC := by
  induction h with
  | nil => simp
  | cons hrow _ ih =>
      have := hrow.length
      exact List.forall_mem_cons.mpr ⟨by omega, ih⟩

/-! ## one cell -/

theorem ascToBin_isSome {b : Bool} {col : Column} (i : Nat) :
    (ascToBin a.txt cell b col.qtype col.width i).isSome =
      (ascToBin a.txt cell b col.qtype col.width 0).isSome := by
  rw [ascToBin_row, ascToBin_row (i := 0)]
  split <;> rfl

/-- A loaded cell is stored if its column takes it, and is an error if not. -/
theorem storeCell_eq {col : Column} (hl : col.isLoad = true) (s : LoadState) :
    storeCell a col cell s =
      if takesCell a col cell = true then
        some (setData (if col.hasNulls = true then setNn s (!isNull cell) else s)
          (datumOf a col cell s.rowCtr))
      else none := by
  have hsome : (ascToBin a.txt cell (isNull cell) col.qtype col.width s.rowCtr).isSome =
      (ascToBin a.txt cell (isNull cell) col.qtype col.width 0).isSome :=
    ascToBin_isSome s.rowCtr
  have hfold : (cell.headD 0 == 0) = isNull cell := rfl
  simp only [storeCell, takesCell, datumOf, hl, ← hsome, hfold, Bool.not_true, Bool.false_or]
  generalize isNull cell = b
  cases hb : b && !col.hasNulls with
  | true => simp
  | false =>
      cases hn : col.hasNulls with
      | false =>
          cases hd : ascToBin a.txt cell b col.qtype col.width s.rowCtr <;> simp [hd]
      | true =>
          by_cases hf : a.nnQtype = .B1 ∨ a.nnQtype = .BL
          · cases hd : ascToBin a.txt cell b col.qtype col.width s.rowCtr <;>
              simp [hf, hd, setNn]
          · simp [hf]

/-- The state after the cell `cell` was read up to `x'` and stored. -/
structure Stored (a : LoadArgs) (col : Column) (cell : Bytes) (x' : Nat) (s t : LoadState) :
    Prop where
  xidx : t.xidx = x'
  isHdr : t.isHdr = s.isHdr
  rowCtr : t.rowCtr = s.rowCtr
  colCtr : t.colCtr = s.colCtr
  cells : t.cells = s.cells ++ [cell]
  data : t.data = s.data ++
    if col.isLoad then [(s.colCtr, s.rowCtr, datumOf a col cell s.rowCtr)] else []

/-- **One turn** of the loop, at a cell of the body. -/
theorem loadStep_reads {col : Column} (hcol : a.cols[s.colCtr]? = some col)
    (hget : getCell X s.xidx sep (decide (s.colCtr = a.nC - 1)) col.isTrim (a.maxWidth - 1) =
      some ⟨x', cell, false⟩) (hle : x' ≤ X.length)
    (hh : (s.isHdr && fileOffset == 0) = false) :
    (takesCell a col cell = true → ∃ t, Stored a col cell x' s t ∧
      loadStep a X sep fileOffset s =
        some (endTurn a.nC a.chunkSize (decide (x' = X.length)) t)) ∧
    (takesCell a col cell = false → loadStep a X sep fileOffset s = some .error) := by
  have hstep : loadStep a X sep fileOffset s =
      some (bodyTurn a X.length col cell (setXidx s x')) := by
    simp only [loadStep, hcol, Option.bind_some, hget, Option.map_some, Bool.false_eq_true,
      if_false, hh]
  have hend : decide (x' ≥ X.length) = decide (x' = X.length) := by
    rw [decide_eq_decide]
    omega
  rw [hstep]
  cases hl : col.isLoad with
  | false =>
      refine ⟨fun _ => ⟨{ setXidx s x' with cells := s.cells ++ [cell] }, ?_, ?_⟩, fun h => ?_⟩
      · constructor <;> simp [setXidx, hl]
      · rw [bodyTurn, if_pos (by rw [hl]; rfl)]
        rfl
      · rw [takesCell, hl] at h
        contradiction
  | true =>
      simp only [bodyTurn, hl, Bool.not_true, Bool.false_eq_true, if_false, storeCell_eq hl]
      refine ⟨fun h => ?_, fun h => ?_⟩
      · rw [if_pos h]
        refine ⟨_, ?_, congrArg (fun b => some (endTurn a.nC a.chunkSize b _)) hend⟩
        constructor <;> cases col.hasNulls <;> simp [setXidx, setData, setNn, hl]
      · rw [if_neg (by simp [h])]

/-! ## one row -/

/-- The state after the row `row` was read up to `x'` and stored. -/
structure StoredRow (a : LoadArgs) (row : List Bytes) (x' : Nat) (s t : LoadState) : Prop where
  xidx : t.xidx = x'
  isHdr : t.isHdr = s.isHdr
  rowCtr : t.rowCtr = s.rowCtr + 1
  colCtr : t.colCtr = 0
  cells : t.cells = s.cells ++ row
  data : t.data = s.data ++ rowWrites a s.rowCtr s.colCtr row

/-- **One row**, from the column the loop stands at: the loop goes on after it
unless the chunk is full or the file ends; or some cell of it is an error. -/
theorem loadLoop_readsRow (hrow : ReadsRow a X sep s.colCtr s.xidx row x')
    (hh : (s.isHdr && fileOffset == 0) = false) :
    (takesFrom a s.colCtr row = true → ∃ t, StoredRow a row x' s t ∧
      ∀ fuel, loadLoop a X sep fileOffset (row.length + fuel) s =
        if t.rowCtr = a.chunkSize ∨ x' = X.length then some (some t)
        else loadLoop a X sep fileOffset fuel t) ∧
    (takesFrom a s.colCtr row = false →
      ∀ fuel, loadLoop a X sep fileOffset (row.length + fuel) s = some none) := by
  obtain ⟨c, hc⟩ : ∃ c, c = s.colCtr := ⟨_, rfl⟩
  obtain ⟨x, hx⟩ : ∃ x, x = s.xidx := ⟨_, rfl⟩
  rw [← hc, ← hx] at hrow
  rw [← hc]
  induction hrow generalizing s with
  | @last c x x' cell col hlast hcol hget hlt hle =>
      subst hc hx
      obtain ⟨htakes, herror⟩ := loadStep_reads hcol
        (by rw [decide_eq_true (by omega)]; exact hget) hle hh
      have hall : takesFrom a s.colCtr [cell] = takesCell a col cell := by
        simp [takesFrom, hcol]
      rw [hall]
      refine ⟨fun h => ?_, fun h fuel => ?_⟩
      · obtain ⟨t, ht, hstep⟩ := htakes h
        have hadv : advance a.nC t = { t with colCtr := 0, rowCtr := t.rowCtr + 1 } := by
          rw [advance, if_pos (by rw [ht.colCtr]; exact hlast)]
        refine ⟨advance a.nC t, ?_, fun fuel => ?_⟩
        · rw [hadv]
          constructor
          · exact ht.xidx
          · exact ht.isHdr
          · simp only [ht.rowCtr]
          · rfl
          · exact ht.cells
          · simp [ht.data, rowWrites, hcol]
        · rw [List.length_singleton, Nat.add_comm, loadLoop, hstep]
          have hend : endTurn a.nC a.chunkSize (decide (x' = X.length)) t =
              if (advance a.nC t).rowCtr = a.chunkSize ∨ x' = X.length then .stop (advance a.nC t)
              else .more (advance a.nC t) := by
            rw [endTurn, show t.colCtr + 1 = a.nC by rw [ht.colCtr]; exact hlast, hadv]
            by_cases hfull : t.rowCtr + 1 = a.chunkSize <;> simp [hfull]
          rw [hend]
          by_cases hstop : (advance a.nC t).rowCtr = a.chunkSize ∨ x' = X.length
          · rw [if_pos hstop, if_pos hstop]
          · rw [if_neg hstop, if_neg hstop]
      · obtain hstep := herror h
        rw [List.length_singleton, Nat.add_comm, loadLoop, hstep]
  | @cons c x y x' cell cells col hlast hcol hget hlt hrest ih =>
      subst hc hx
      have hy : y < X.length := Nat.lt_of_lt_of_le hrest.lt hrest.le
      obtain ⟨htakes, herror⟩ := loadStep_reads hcol
        (by rw [decide_eq_false (by omega)]; exact hget) (by omega) hh
      have hall : takesFrom a s.colCtr (cell :: cells) =
          (takesCell a col cell && takesFrom a (s.colCtr + 1) cells) := by
        simp [takesFrom, hcol]
      rw [hall]
      cases hcell : takesCell a col cell with
      | false =>
          refine ⟨fun h => by simp at h, fun _ fuel => ?_⟩
          rw [List.length_cons, show cells.length + 1 + fuel = cells.length + fuel + 1 by omega,
            loadLoop, herror hcell]
      | true =>
          obtain ⟨t, ht, hstep⟩ := htakes hcell
          have hadv : advance a.nC t = { t with colCtr := t.colCtr + 1 } := by
            rw [advance, if_neg (by rw [ht.colCtr]; omega)]
          have hmore : endTurn a.nC a.chunkSize (decide (y = X.length)) t =
              .more (advance a.nC t) := by
            rw [endTurn, if_neg (by rw [ht.colCtr]; omega), if_neg (by simp; omega)]
          have hloop : ∀ fuel, loadLoop a X sep fileOffset ((cell :: cells).length + fuel) s =
              loadLoop a X sep fileOffset (cells.length + fuel) (advance a.nC t) := by
            intro fuel
            rw [List.length_cons, show cells.length + 1 + fuel = cells.length + fuel + 1 by omega,
              loadLoop, hstep, hmore]
          obtain ⟨hgo, hfail⟩ := ih (s := advance a.nC t) (by rw [hadv]; simpa [ht.isHdr] using hh)
            (by rw [hadv]; simp [ht.colCtr]) (by rw [hadv]; exact ht.xidx.symm)
          rw [Bool.true_and]
          refine ⟨fun h => ?_, fun h fuel => ?_⟩
          · obtain ⟨u, hu, hend⟩ := hgo h
            refine ⟨u, ?_, fun fuel => ?_⟩
            · rw [hadv] at hu
              constructor
              · exact hu.xidx
              · exact hu.isHdr.trans ht.isHdr
              · rw [hu.rowCtr, ← ht.rowCtr]
              · exact hu.colCtr
              · rw [hu.cells, ht.cells, List.append_assoc, List.singleton_append]
              · rw [hu.data, ht.data, rowWrites, hcol, List.append_assoc]
                simp only [ht.rowCtr, ht.colCtr]
            · rw [hloop]
              exact hend fuel
          · rw [hloop]
            exact hfail h fuel

/-- **The header row** is read and not stored. -/
theorem loadLoop_header (hrow : ReadsRow a X sep s.colCtr s.xidx row x') (hh : s.isHdr = true)
    (h0 : s.rowCtr = 0) (fuel : Nat) :
    loadLoop a X sep 0 (row.length + fuel) s =
      if x' = X.length then some (some { s with xidx := x', colCtr := 0, isHdr := false })
      else loadLoop a X sep 0 fuel { s with xidx := x', colCtr := 0, isHdr := false } := by
  obtain ⟨c, hc⟩ : ∃ c, c = s.colCtr := ⟨_, rfl⟩
  obtain ⟨x, hx⟩ : ∃ x, x = s.xidx := ⟨_, rfl⟩
  rw [← hc, ← hx] at hrow
  induction hrow generalizing s with
  | @last c x x' cell col hlast hcol hget hlt hle =>
      subst hc hx
      have hd : decide (s.colCtr = a.nC - 1) = true := decide_eq_true (by omega)
      rw [List.length_singleton, Nat.add_comm, loadLoop]
      simp only [loadStep, hcol, Option.bind_some, hd, hget, Option.map_some, Bool.false_eq_true,
        if_false, hh, BEq.rfl, Bool.and_true, if_true, headerTurn, setXidx, h0, ne_eq,
        not_true_eq_false]
      by_cases hend : x' = X.length
      · rw [if_pos (by omega), if_pos hend]
      · rw [if_neg (by omega), if_neg hend]
  | @cons c x y x' cell cells col hlast hcol hget hlt hrest ih =>
      subst hc hx
      have hy : y < X.length := Nat.lt_of_lt_of_le hrest.lt hrest.le
      have hd : decide (s.colCtr = a.nC - 1) = false := decide_eq_false (by omega)
      have hstep : loadStep a X sep 0 s =
          some (.more { s with xidx := y, colCtr := s.colCtr + 1 }) := by
        simp only [loadStep, hcol, Option.bind_some, hd, hget, Option.map_some,
          Bool.false_eq_true, if_false, hh, BEq.rfl, Bool.and_true, if_true, headerTurn, setXidx,
          h0, ne_eq, not_true_eq_false]
        rw [if_neg (by omega)]
      rw [List.length_cons, show cells.length + 1 + fuel = cells.length + fuel + 1 by omega,
        loadLoop, hstep]
      exact ih (s := { s with xidx := y, colCtr := s.colCtr + 1 }) hh h0 rfl rfl

/-! ## the rows of one call -/

/-- The rows are all taken. -/
def takesRows (a : LoadArgs) (rows : List (List Bytes)) : Bool := rows.all (takesFrom a 0)

/-- The state after the rows `rows` were stored. -/
structure StoredRows (a : LoadArgs) (rows : List (List Bytes)) (s t : LoadState) : Prop where
  xidx : s.xidx < t.xidx
  rowCtr : t.rowCtr = s.rowCtr + rows.length
  cells : t.cells = s.cells ++ rows.flatten
  data : t.data = s.data ++ rowsWrites a s.rowCtr rows

/-- **The rows of one call**: as many as are left, up to a full chunk. -/
theorem loadLoop_readsRows (hrows : ReadsRows a X sep s.xidx rows) (hne : rows ≠ [])
    (hh : (s.isHdr && fileOffset == 0) = false) (hc : s.colCtr = 0)
    (hlt : s.rowCtr < a.chunkSize) (fuel : Nat)
    (hfuel : a.nC * (a.chunkSize - s.rowCtr) ≤ fuel) :
    (takesRows a (rows.take (a.chunkSize - s.rowCtr)) = true → ∃ t,
      loadLoop a X sep fileOffset fuel s = some (some t) ∧
      StoredRows a (rows.take (a.chunkSize - s.rowCtr)) s t ∧
      ReadsRows a X sep t.xidx (rows.drop (a.chunkSize - s.rowCtr))) ∧
    (takesRows a (rows.take (a.chunkSize - s.rowCtr)) = false →
      loadLoop a X sep fileOffset fuel s = some none) := by
  obtain ⟨x, hx⟩ : ∃ x, x = s.xidx := ⟨_, rfl⟩
  rw [← hx] at hrows
  induction hrows generalizing s fuel with
  | nil => contradiction
  | @cons x x' row rows hrow hrest ih =>
      subst hx
      have hlen := hrow.length
      rw [Nat.zero_add] at hlen
      obtain ⟨d, hd⟩ : ∃ d, a.chunkSize - s.rowCtr = d + 1 :=
        ⟨a.chunkSize - s.rowCtr - 1, by omega⟩
      obtain ⟨fuel', rfl⟩ : ∃ fuel', fuel = row.length + fuel' := by
        refine ⟨fuel - row.length, ?_⟩
        rw [hd, Nat.mul_succ] at hfuel
        omega
      rw [← hc] at hrow
      obtain ⟨hgo, hfail⟩ := loadLoop_readsRow hrow hh
      rw [hc] at hgo hfail
      rw [hd, List.take_succ_cons, List.drop_succ_cons, takesRows, List.all_cons]
      cases hfirst : takesFrom a 0 row with
      | false =>
          refine ⟨fun h => by simp at h, fun _ => hfail hfirst fuel'⟩
      | true =>
          obtain ⟨t, ht, hloop⟩ := hgo hfirst
          have hxlt : s.xidx < t.xidx := by rw [ht.xidx]; exact hrow.lt
          rw [Bool.true_and, hloop]
          have hone : StoredRows a [row] s t := by
            constructor
            · exact hxlt
            · exact ht.rowCtr
            · simpa using ht.cells
            · rw [ht.data, hc]
              simp [rowsWrites]
          by_cases hstop : t.rowCtr = a.chunkSize ∨ x' = X.length
          · rw [if_pos hstop]
            have hnone : rows.take d = [] ∧ rows.drop d = rows := by
              rcases hstop with hfull | hend
              · obtain rfl : d = 0 := by have := ht.rowCtr; omega
                simp
              · rw [hrest.nil_iff.mp hend]
                simp
            rw [hnone.1, hnone.2]
            refine ⟨fun _ => ⟨t, rfl, hone, ?_⟩, fun h => by simp at h⟩
            rw [ht.xidx]
            exact hrest
          · rw [if_neg hstop]
            rw [not_or] at hstop
            have hd' : a.chunkSize - t.rowCtr = d := by have := ht.rowCtr; omega
            have htlt : t.rowCtr < a.chunkSize := by have := ht.rowCtr; omega
            obtain ⟨hgo', hfail'⟩ := ih (s := t) (fun h => hstop.2 (hrest.nil_iff.mpr h))
              (by rw [ht.isHdr]; exact hh) ht.colCtr htlt fuel' (by
                rw [hd, Nat.mul_succ] at hfuel
                rw [hd']
                omega) ht.xidx.symm
            rw [hd'] at hgo' hfail'
            refine ⟨fun h => ?_, hfail'⟩
            obtain ⟨u, hu, hall, hleft⟩ := hgo' h
            refine ⟨u, hu, ?_, hleft⟩
            constructor
            · exact Nat.lt_trans hxlt hall.xidx
            · rw [hall.rowCtr, ht.rowCtr, List.length_cons]
              omega
            · rw [hall.cells, ht.cells, List.flatten_cons, List.append_assoc]
            · rw [hall.data, ht.data, hc, ht.rowCtr, rowsWrites, List.append_assoc]

/-- The cells of a table, row after row. -/
theorem cellAt_flatten {n i : Nat} (hlen : ∀ row ∈ rows, row.length = n) (hi : i < rows.length)
    (hc : c < n) : cellAt n rows.flatten i c = (rows.getD i []).getD c [] := by
  induction rows generalizing i with
  | nil => contradiction
  | cons row rows ih =>
      have hrow := hlen row (by simp)
      have hrest := fun r hr => hlen r (List.mem_cons_of_mem row hr)
      rw [cellAt, List.flatten_cons, List.getD_eq_getElem?_getD]
      cases i with
      | zero =>
          rw [Nat.zero_mul, Nat.zero_add, List.getElem?_append_left (by omega),
            List.getD_cons_zero, List.getD_eq_getElem?_getD]
      | succ i =>
          have hplace : (i + 1) * n + c - row.length = i * n + c := by
            rw [Nat.add_mul]
            omega
          rw [List.getElem?_append_right (by rw [Nat.add_mul]; omega), hplace,
            List.getD_cons_succ, ← ih hrest (by simpa using hi), cellAt,
            List.getD_eq_getElem?_getD]

/-- What a call gives that read the rows `rows`. -/
structure CallRead (a : LoadArgs) (rows : List (List Bytes)) (r : LoadResult) : Prop where
  status : r.status = 0
  nR : r.nR = rows.length
  data : r.data = rowsWrites a 0 rows
  nn : ∀ i c col, i < rows.length → a.cols[c]? = some col → col.isLoad = true →
    col.hasNulls = true → r.nn c i = some (!isNull ((rows.getD i []).getD c []))

/-- What the loop left, as the call gives it. -/
def LoadState.toResult (s : LoadState) : LoadResult :=
  ⟨0, s.rowCtr, s.xidx, s.nn, s.data, s.cells⟩

/-- The loop is at the first row of a call. -/
structure AtFirstRow (a : LoadArgs) (fileOffset : Nat) (s : LoadState) : Prop where
  rowCtr : s.rowCtr = 0
  colCtr : s.colCtr = 0
  cells : s.cells = []
  data : s.data = []
  body : (s.isHdr && fileOffset == 0) = false

/-- The loop, from the first row of a call on. -/
theorem loadLoop_call (hpos : 0 < a.nC) (hchunk : 0 < a.chunkSize) (hs : AtFirstRow a fileOffset s)
    (hrows : ReadsRows a X sep s.xidx rows) (hne : rows ≠ []) {fuel : Nat}
    (hfuel : a.nC * a.chunkSize ≤ fuel) :
    (takesRows a (rows.take a.chunkSize) = true → ∃ t,
      loadLoop a X sep fileOffset fuel s = some (some t) ∧ s.xidx < t.xidx ∧
      CallRead a (rows.take a.chunkSize) t.toResult ∧
      ReadsRows a X sep t.xidx (rows.drop a.chunkSize)) ∧
    (takesRows a (rows.take a.chunkSize) = false →
      loadLoop a X sep fileOffset fuel s = some none) := by
  have h := loadLoop_readsRows hrows hne hs.body hs.colCtr (by rw [hs.rowCtr]; exact hchunk) fuel
    (by rw [hs.rowCtr]; exact hfuel)
  rw [hs.rowCtr, Nat.sub_zero] at h
  refine ⟨fun htakes => ?_, h.2⟩
  obtain ⟨t, hloop, ht, hleft⟩ := h.1 htakes
  have hrec : Recorded a t := loadLoop_recorded (by
    constructor
    · rw [hs.colCtr]; exact hpos
    · rw [hs.cells, hs.rowCtr, hs.colCtr]; simp
    · rw [hs.cells]; simp) hs.body hloop
  have hlens : ∀ row ∈ rows.take a.chunkSize, row.length = a.nC :=
    fun row hr => hrows.lengths row (List.mem_of_mem_take hr)
  have hcells : t.cells = (rows.take a.chunkSize).flatten := by rw [ht.cells, hs.cells]; rfl
  refine ⟨t, hloop, ht.xidx, ?_, hleft⟩
  constructor
  · rfl
  · simp only [LoadState.toResult]
    rw [ht.rowCtr, hs.rowCtr, Nat.zero_add]
  · simp only [LoadState.toResult]
    rw [ht.data, hs.data, hs.rowCtr, List.nil_append]
  · intro i c col hi hcol hload hnull
    have hcn : c < a.nC := (List.getElem?_eq_some_iff.mp hcol).1
    have hplace : i * a.nC + c < t.cells.length := by
      have hmul : (i + 1) * a.nC ≤ t.rowCtr * a.nC :=
        Nat.mul_le_mul_right _ (by rw [ht.rowCtr]; omega)
      rw [hrec.count]
      rw [Nat.add_mul] at hmul
      omega
    simp only [LoadState.toResult]
    rw [hrec.nn i c col hplace hcol hload hnull, hcells, cellAt_flatten hlens hi hcn]
    rfl

/-- What a call needs to get to its first row. -/
structure Ready (a : LoadArgs) (X : Bytes) (sep : UInt8) : Prop where
  columns : 0 < a.nC
  checked : chkData a.cols a.maxWidth = true
  file : a.file = some X
  separator : getFldSep a.strFldSep = some sep
  nonempty : 0 < X.length
  chunk : 0 < a.chunkSize

/-- A call that has something to read is its loop. -/
theorem loadCsvSeq_eq (hl : Ready a X sep) (hlt : fileOffset < X.length) :
    loadCsvSeq a fileOffset =
      (loadLoop a X sep fileOffset (a.nC * (a.chunkSize + 1) + X.length)
        (startState a fileOffset)).map
          fun o => o.elim (noRows (-1) fileOffset) LoadState.toResult := by
  have hn0 : ¬ a.nC = 0 := Nat.pos_iff_ne_zero.mp hl.columns
  simp only [loadCsvSeq, if_neg hn0, hl.checked, hl.file, hl.separator, Bool.not_true,
    Bool.false_eq_true, if_false, if_neg (show ¬ X.length = 0 by omega),
    if_neg (show ¬ fileOffset > X.length by omega), if_neg (show ¬ fileOffset ≥ X.length by omega)]
  cases loadLoop a X sep fileOffset (a.nC * (a.chunkSize + 1) + X.length)
    (startState a fileOffset) with
  | none => rfl
  | some o => cases o <;> rfl

theorem loadCsvSeq_end (hl : Ready a X sep) :
    loadCsvSeq a X.length = some (noRows 0 X.length) := by
  have hn0 : ¬ a.nC = 0 := Nat.pos_iff_ne_zero.mp hl.columns
  have hx0 : ¬ X.length = 0 := Nat.pos_iff_ne_zero.mp hl.nonempty
  simp only [loadCsvSeq, if_neg hn0, hl.checked, hl.file, if_neg hx0, Bool.not_true,
    Bool.false_eq_true, if_false, if_neg (Nat.lt_irrefl _), ge_iff_le, Nat.le_refl, if_true]

/-- **One call** of `load_csv_seq`: it reads the next rows, up to a chunk, and
leaves the offset at those after them; or some cell of them is an error. -/
theorem callReads (hl : Ready a X sep) (hrows : RowsAt a X sep fileOffset rows) :
    (takesRows a (rows.take a.chunkSize) = true → ∃ r, loadCsvSeq a fileOffset = some r ∧
      CallRead a (rows.take a.chunkSize) r ∧
      RowsAt a X sep r.fileOffset (rows.drop a.chunkSize)) ∧
    (takesRows a (rows.take a.chunkSize) = false →
      ∃ r, loadCsvSeq a fileOffset = some r ∧ r.status < 0) := by
  have hnone : ∀ off : Nat, CallRead a [] (noRows 0 off) := by
    intro off
    constructor <;> simp [noRows, rowsWrites]
  -- past the first byte the rows are where the offset says
  have hafter : ∀ {x : Nat} {rs : List (List Bytes)}, 0 < x → ReadsRows a X sep x rs →
      RowsAt a X sep x rs := by
    intro x rs hx h
    rw [RowsAt, if_neg (by simp; omega)]
    exact h
  by_cases hh : (a.isHdr && fileOffset == 0) = true
  · rw [RowsAt, if_pos hh] at hrows
    obtain ⟨hdr, x, hrow, hrest⟩ := hrows
    rw [Bool.and_eq_true, beq_iff_eq] at hh
    obtain ⟨hhdr, rfl⟩ := hh
    have hlen := hrow.length
    have hxlt := hrow.lt
    rw [Nat.zero_add] at hlen
    have hfuel : a.nC * (a.chunkSize + 1) + X.length =
        hdr.length + (a.nC * a.chunkSize + X.length) := by
      rw [Nat.mul_succ]
      omega
    rw [loadCsvSeq_eq hl hl.nonempty, hfuel,
      loadLoop_header (s := startState a 0) hrow hhdr rfl]
    by_cases hend : x = X.length
    · rw [if_pos hend, hrest.nil_iff.mp hend, List.take_nil, List.drop_nil]
      refine ⟨fun _ => ⟨_, rfl, ?_, ?_⟩, fun h => by simp [takesRows] at h⟩
      · constructor <;> simp [LoadState.toResult, startState, rowsWrites]
      · exact hafter hxlt (hend ▸ .nil)
    · rw [if_neg hend]
      obtain ⟨hgo, hfail⟩ := loadLoop_call
        (s := { startState a 0 with xidx := x, colCtr := 0, isHdr := false }) hl.columns hl.chunk
        (by constructor <;> simp [startState]) hrest (fun h => hend (hrest.nil_iff.mpr h))
        (Nat.le_add_right (a.nC * a.chunkSize) X.length)
      refine ⟨fun h => ?_, fun h => ⟨_, by rw [hfail h]; rfl, by simp [noRows]⟩⟩
      obtain ⟨t, hloop, hlt, hread, hleft⟩ := hgo h
      exact ⟨_, by rw [hloop]; rfl, hread, hafter (Nat.lt_of_le_of_lt (Nat.zero_le _) hlt) hleft⟩
  · rw [RowsAt, if_neg hh] at hrows
    by_cases hend : fileOffset = X.length
    · rw [hrows.nil_iff.mp hend, List.take_nil, List.drop_nil, hend, loadCsvSeq_end hl]
      refine ⟨fun _ => ⟨_, rfl, hnone _, ?_⟩, fun h => by simp [takesRows] at h⟩
      exact hafter hl.nonempty .nil
    · have hle := hrows.le
      have hbody : (a.isHdr && fileOffset == 0) = false := by simpa using hh
      rw [loadCsvSeq_eq hl (by omega)]
      obtain ⟨hgo, hfail⟩ := loadLoop_call
        (s := startState a fileOffset) hl.columns hl.chunk
        (by
          constructor
          · rfl
          · rfl
          · rfl
          · rfl
          · exact hbody) hrows (fun h => hend (hrows.nil_iff.mpr h))
        (show a.nC * a.chunkSize ≤ a.nC * (a.chunkSize + 1) + X.length by
          rw [Nat.mul_succ]; omega)
      refine ⟨fun h => ?_, fun h => ⟨_, by rw [hfail h]; rfl, by simp [noRows]⟩⟩
      obtain ⟨t, hloop, hlt, hread, hleft⟩ := hgo h
      exact ⟨_, by rw [hloop]; rfl, hread, hafter (Nat.lt_of_le_of_lt (Nat.zero_le _) hlt) hleft⟩

/-! ## the calls of a run -/

theorem takesRows_take_drop (k : Nat) :
    takesRows a rows = (takesRows a (rows.take k) && takesRows a (rows.drop k)) := by
  simp only [takesRows]
  rw [← List.all_append, List.take_append_drop]

/-- **The calls of a run** read the rows piece by piece, each piece at most a
chunk and the first one a chunk if there are as many rows; or one of them is an
error. -/
theorem loadUntil_reads (hl : Ready a X sep) (n : Nat) (hn : rows.length ≤ n)
    (hrows : RowsAt a X sep fileOffset rows) :
    ∃ rs, loadUntil a (n + 1) fileOffset = some rs ∧
      (takesRows a rows = true → ∃ pieces, List.Forall₂ (CallRead a) pieces rs ∧
        pieces.flatten = rows ∧ (∀ p ∈ pieces, p.length ≤ a.chunkSize) ∧
        pieces.head? = some (rows.take a.chunkSize)) ∧
      (takesRows a rows = false → ∃ r ∈ rs, r.status < 0) := by
  have hpos := hl.chunk
  induction n generalizing rows fileOffset with
  | zero =>
      obtain rfl : rows = [] := List.eq_nil_of_length_eq_zero (by omega)
      obtain ⟨hgo, -⟩ := callReads hl hrows
      obtain ⟨r, hr, hread, -⟩ := hgo (by simp [takesRows])
      refine ⟨[r], ?_, fun _ => ⟨[[]], ?_, rfl, by simp, by simp⟩, fun h => by simp [takesRows] at h⟩
      · rw [loadUntil, hr, Option.bind_some, if_pos]
        rw [hread.nR]
        simpa using Or.inr hpos
      · exact .cons (by simpa using hread) .nil
  | succ n ih =>
      obtain ⟨hgo, hfail⟩ := callReads hl hrows
      cases htakes : takesRows a (rows.take a.chunkSize) with
      | false =>
          obtain ⟨r, hr, hst⟩ := hfail htakes
          refine ⟨[r], ?_, fun h => ?_, fun _ => ⟨r, by simp, hst⟩⟩
          · rw [loadUntil, hr, Option.bind_some, if_pos (.inl hst)]
          · rw [takesRows_take_drop a.chunkSize, htakes] at h
            simp at h
      | true =>
          obtain ⟨r, hr, hread, hleft⟩ := hgo htakes
          have hst : ¬ r.status < 0 := by rw [hread.status]; decide
          by_cases hshort : r.nR < a.chunkSize
          · have hall : rows.take a.chunkSize = rows := by
              have hnR := hread.nR
              rw [List.length_take] at hnR
              exact List.take_of_length_le (by omega)
            rw [hall] at hread htakes
            refine ⟨[r], ?_, fun _ => ⟨[rows], .cons hread .nil, by simp, ?_, by rw [hall]; rfl⟩,
              fun h => ?_⟩
            · rw [loadUntil, hr, Option.bind_some, if_pos (.inr hshort)]
            · have hnR := hread.nR
              intro p hp
              rw [List.mem_singleton] at hp
              subst hp
              omega
            · rw [htakes] at h
              contradiction
          · have hfull : a.chunkSize ≤ rows.length := by
              have hnR := hread.nR
              rw [List.length_take] at hnR
              omega
            obtain ⟨rs, hrs, hok, herr⟩ := ih (by rw [List.length_drop]; omega) hleft
            refine ⟨r :: rs, ?_, fun h => ?_, fun h => ?_⟩
            · rw [loadUntil, hr, Option.bind_some, if_neg (by omega), hrs, Option.map_some]
            · rw [takesRows_take_drop a.chunkSize, htakes, Bool.true_and] at h
              obtain ⟨pieces, h1, h2, h3, -⟩ := hok h
              refine ⟨rows.take a.chunkSize :: pieces, .cons hread h1, ?_, ?_, rfl⟩
              · rw [List.flatten_cons, h2, List.take_append_drop]
              · exact List.forall_mem_cons.mpr ⟨by rw [List.length_take]; omega, h3⟩
            · rw [takesRows_take_drop a.chunkSize, htakes, Bool.true_and] at h
              obtain ⟨r', hr', hst'⟩ := herr h
              exact ⟨r', List.mem_cons_of_mem r hr', hst'⟩

/-- **The calls of a run**, where every cell is taken: call `k` reads page `k` of
the rows. -/
theorem loadUntil_pages (hl : Ready a X sep) (n : Nat) (hn : rows.length ≤ n)
    (hrows : RowsAt a X sep fileOffset rows) (htakes : takesRows a rows = true) :
    ∃ rs, loadUntil a (n + 1) fileOffset = some rs ∧
      List.Forall₂ (CallRead a)
        ((List.range (rows.length / a.chunkSize + 1)).map (page a.chunkSize rows)) rs := by
  have hpos := hl.chunk
  induction n generalizing rows fileOffset with
  | zero =>
      obtain rfl : rows = [] := List.eq_nil_of_length_eq_zero (by omega)
      obtain ⟨r, hr, hread, -⟩ := (callReads hl hrows).1 (by simp [takesRows])
      refine ⟨[r], ?_, by simpa [page] using hread⟩
      rw [loadUntil, hr, Option.bind_some, if_pos]
      rw [hread.nR]
      simpa using Or.inr hpos
  | succ n ih =>
      rw [takesRows_take_drop a.chunkSize, Bool.and_eq_true] at htakes
      obtain ⟨r, hr, hread, hleft⟩ := (callReads hl hrows).1 htakes.1
      have hnR := hread.nR
      rw [List.length_take] at hnR
      have hst : ¬ r.status < 0 := by rw [hread.status]; decide
      have hfirst : page a.chunkSize rows 0 = rows.take a.chunkSize := by simp [page]
      rw [List.range_succ_eq_map, List.map_cons, hfirst, List.map_map]
      by_cases hshort : r.nR < a.chunkSize
      · refine ⟨[r], by rw [loadUntil, hr, Option.bind_some, if_pos (.inr hshort)], ?_⟩
        rw [Nat.div_eq_of_lt (by omega)]
        exact .cons hread .nil
      · obtain ⟨rs, hrs, hall⟩ := ih (by rw [List.length_drop]; omega) hleft htakes.2
        refine ⟨r :: rs, ?_, .cons hread ?_⟩
        · rw [loadUntil, hr, Option.bind_some, if_neg (by omega), hrs, Option.map_some]
        · have hcount : rows.length / a.chunkSize =
              (rows.drop a.chunkSize).length / a.chunkSize + 1 := by
            rw [List.length_drop, ← Nat.add_div_right _ hpos, Nat.sub_add_cancel (by omega)]
          have hpage : page a.chunkSize rows ∘ Nat.succ =
              page a.chunkSize (rows.drop a.chunkSize) := by
            funext k
            rw [Function.comp_apply, page, page, List.drop_drop, Nat.succ_mul, Nat.add_comm]
          rw [hcount, hpage]
          exact hall

/-- More calls allowed for change nothing. -/
theorem loadUntil_succ {n : Nat} {rs : List LoadResult} (h : loadUntil a n fileOffset = some rs) :
    loadUntil a (n + 1) fileOffset = some rs := by
  induction n generalizing fileOffset rs with
  | zero => contradiction
  | succ n ih =>
      rw [loadUntil, Option.bind_eq_some_iff] at h
      obtain ⟨r, hr, h⟩ := h
      rw [loadUntil, hr, Option.bind_some]
      by_cases hstop : r.status < 0 ∨ r.nR < a.chunkSize
      · rwa [if_pos hstop] at h ⊢
      · rw [if_neg hstop, Option.map_eq_some_iff] at h
        obtain ⟨rs', hrs', rfl⟩ := h
        rw [if_neg hstop, ih hrs', Option.map_some]

theorem loadUntil_add {n : Nat} {rs : List LoadResult} (h : loadUntil a n fileOffset = some rs)
    (k : Nat) : loadUntil a (n + k) fileOffset = some rs := by
  induction k with
  | zero => exact h
  | succ k ih => exact loadUntil_succ ih

/-- A run has one result. -/
theorem loadUntil_unique {n m : Nat} {rs rs' : List LoadResult}
    (h : loadUntil a n fileOffset = some rs) (h' : loadUntil a m fileOffset = some rs') :
    rs = rs' := by
  have h1 := loadUntil_add h m
  have h2 := loadUntil_add h' n
  rw [Nat.add_comm, h2, Option.some.injEq] at h1
  exact h1.symm

end QStore.Csv
