import QStore.Csv.LoadCsv
import Mathlib.Data.List.Induction

/-!
# QStore.Csv.Columns

What the buffers of `load_csv_seq` hold after a call. A number is stored at its
row; a string is stored at byte `row_idx * width`, a product of two `uint32_t`:

```
row_idx * width < 2^32     the row's own slot
otherwise                  over slots that were written before
```

A call writes its columns row after row. `column_eq_map` reads a column back
when no product wraps, and `whole_value` says which slots are written at all.
-/

namespace QStore.Csv

/-- What a row of a column holds. `none`: never written. -/
inductive Value where
  | num (v : Option Int)
  | str (bs : List (Option UInt8))

/-- What was written to column `c`. -/
def writesOf (c : Nat) (data : List (Nat × Nat × Datum)) : List (Nat × Datum) :=
  data.filterMap fun w => if w.1 = c then some w.2 else none

/-- A store over the number of row `i`. -/
def overNum (i : Nat) (old : Option Int) (w : Nat × Datum) : Option Int :=
  match w.2 with
  | .num v => if w.1 = i then some v else old
  | .bytes _ _ => old

/-- A store over the byte at `p`. -/
def overByte (p : Nat) (old : Option UInt8) (w : Nat × Datum) : Option UInt8 :=
  match w.2 with
  | .num _ => old
  | .bytes off bs => if off ≤ p ∧ p < off + bs.length then bs[p - off]? else old

/-- The number of row `i` after the writes `ws`. -/
def numAt (ws : List (Nat × Datum)) (i : Nat) : Option Int := ws.foldl (overNum i) none

/-- The byte at `p` after the writes `ws`. -/
def byteAt (ws : List (Nat × Datum)) (p : Nat) : Option UInt8 := ws.foldl (overByte p) none

/-- Row `i` of a column after the writes `ws`. -/
def valueAt (col : Column) (ws : List (Nat × Datum)) (i : Nat) : Value :=
  if col.qtype = .SC then .str ((List.range col.width).map fun k => byteAt ws (i * col.width + k))
  else .num (numAt ws i)

/-- The rows a call gave column `c`. -/
def LoadResult.column (r : LoadResult) (c : Nat) (col : Column) : List Value :=
  (List.range r.nR).map (valueAt col (writesOf c r.data))

/-- The null flags a call gave column `c`. -/
def LoadResult.flags (r : LoadResult) (c : Nat) : List (Option Bool) :=
  (List.range r.nR).map (r.nn c)

/-! ## the cells of a row -/

/-- The cell is null: its first byte is the terminator. -/
def isNull (cell : Bytes) : Bool := cell.headD 0 == 0

/-- The column takes the cell: it is not loaded, or the cell is stored. -/
def takesCell (a : LoadArgs) (col : Column) (cell : Bytes) : Bool :=
  !col.isLoad ||
    (!(isNull cell && !col.hasNulls) &&
      (!col.hasNulls || decide (a.nnQtype = .B1 ∨ a.nnQtype = .BL)) &&
        (ascToBin a.txt cell (isNull cell) col.qtype col.width 0).isSome)

/-- What is stored of a cell in row `i`. -/
def datumOf (a : LoadArgs) (col : Column) (cell : Bytes) (i : Nat) : Datum :=
  (ascToBin a.txt cell (isNull cell) col.qtype col.width i).getD (.num 0)

/-- What a row of its own holds of a cell. -/
def cellValue (a : LoadArgs) (col : Column) (cell : Bytes) : Value :=
  match datumOf a col cell 0 with
  | .num v => .num (some v)
  | .bytes _ bs => .str (bs.map some)

/-- The cells of a row from column `c` on are all taken. -/
def takesFrom (a : LoadArgs) : Nat → List Bytes → Bool
  | _, [] => true
  | c, cell :: cells => (a.cols[c]?.all fun col => takesCell a col cell) && takesFrom a (c + 1) cells

/-- What is stored of a row, from column `c` on. -/
def rowWrites (a : LoadArgs) (i : Nat) : Nat → List Bytes → List (Nat × Nat × Datum)
  | _, [] => []
  | c, cell :: cells =>
      (match a.cols[c]? with
        | some col => if col.isLoad then [(c, i, datumOf a col cell i)] else []
        | none => []) ++ rowWrites a i (c + 1) cells

/-- What is stored of the rows of a call, from row `i` on. -/
def rowsWrites (a : LoadArgs) : Nat → List (List Bytes) → List (Nat × Nat × Datum)
  | _, [] => []
  | i, row :: rows => rowWrites a i 0 row ++ rowsWrites a (i + 1) rows

variable {a : LoadArgs} {col : Column} {cell : Bytes} {c i j : Nat}

/-- Only the place of a string depends on the row. -/
theorem ascToBin_row {b : Bool} : ascToBin a.txt cell b col.qtype col.width i =
    if col.qtype = .SC then
      some (.bytes (i * col.width % 2 ^ 32) ((cell ++ List.replicate col.width 0).take col.width))
    else ascToBin a.txt cell b col.qtype col.width 0 := by
  cases hq : col.qtype <;> rfl

theorem datumOf_string (hq : col.qtype = .SC) : datumOf a col cell i =
    .bytes (i * col.width % 2 ^ 32) ((cell ++ List.replicate col.width 0).take col.width) := by
  rw [datumOf, ascToBin_row, if_pos hq, Option.getD_some]

theorem datumOf_number (hq : col.qtype ≠ .SC) : ∃ v, ∀ i, datumOf a col cell i = .num v := by
  have hnum : ∀ d, ascToBin a.txt cell (isNull cell) col.qtype col.width 0 = some d →
      ∃ v, d = .num v := by
    intro d hd
    cases hcase : col.qtype <;> rw [hcase] at hd hq <;>
      simp only [ascToBin] at hd <;> (try contradiction) <;> grind [Option.map_eq_some_iff]
  cases hd : ascToBin a.txt cell (isNull cell) col.qtype col.width 0 with
  | none => exact ⟨0, fun i => by rw [datumOf, ascToBin_row, if_neg hq, hd]; rfl⟩
  | some d =>
      obtain ⟨v, rfl⟩ := hnum d hd
      exact ⟨v, fun i => by rw [datumOf, ascToBin_row, if_neg hq, hd]; rfl⟩

theorem length_stringBytes :
    ((cell ++ List.replicate col.width 0).take col.width).length = col.width := by
  simp

/-! ## a column, row after row -/

/-- A row stores one datum in each loaded column it covers. -/
theorem writesOf_rowWrites {col : Column} (hcol : a.cols[c]? = some col) (hl : col.isLoad = true)
    (row : List Bytes) (i d : Nat) :
    writesOf c (rowWrites a i d row) =
      if d ≤ c ∧ c < d + row.length then [(i, datumOf a col (row.getD (c - d) []) i)] else [] := by
  induction row generalizing d with
  | nil => simp [rowWrites, writesOf]
  | cons cell cells ih =>
      have hsplit : writesOf c (rowWrites a i d (cell :: cells)) =
          (if d = c then [(i, datumOf a col cell i)] else []) ++
            writesOf c (rowWrites a i (d + 1) cells) := by
        rw [rowWrites, writesOf, List.filterMap_append]
        congr 1
        by_cases hd : d = c
        · subst hd
          simp [hcol, hl]
        · cases a.cols[d]? with
          | none => simp [hd]
          | some col' => cases hl' : col'.isLoad <;> simp [hd, hl']
      rw [hsplit, ih, List.length_cons]
      by_cases hd : d = c
      · subst hd
        rw [if_pos rfl, if_neg (by omega), if_pos (by omega), Nat.sub_self, List.getD_cons_zero,
          List.append_nil]
      · by_cases hlt : d ≤ c ∧ c < d + (cells.length + 1)
        · rw [if_neg hd, if_pos (by omega), if_pos hlt, List.nil_append]
          obtain ⟨k, hk⟩ : ∃ k, c - d = k + 1 := ⟨c - d - 1, by omega⟩
          rw [hk, List.getD_cons_succ, show c - (d + 1) = k by omega]
        · rw [if_neg hd, if_neg (by omega), if_neg hlt, List.nil_append]

/-- The rows of a call store one datum each in a loaded column. -/
theorem writesOf_rowsWrites {col : Column} (hcol : a.cols[c]? = some col) (hl : col.isLoad = true)
    {rows : List (List Bytes)} (hrows : ∀ row ∈ rows, row.length = a.nC) (i : Nat) :
    writesOf c (rowsWrites a i rows) =
      rows.mapIdx fun j row => (i + j, datumOf a col (row.getD c []) (i + j)) := by
  have hc : c < a.nC := (List.getElem?_eq_some_iff.mp hcol).1
  induction rows generalizing i with
  | nil => rfl
  | cons row rows ih =>
      have hlen := hrows row (by simp)
      have hrest := ih (fun r hr => hrows r (by simp [hr])) (i + 1)
      rw [rowsWrites, writesOf, List.filterMap_append, ← writesOf, ← writesOf, hrest,
        writesOf_rowWrites hcol hl, if_pos (by omega), List.mapIdx_cons]
      simp only [Nat.sub_zero, Nat.add_zero, List.singleton_append]
      congr 2
      funext j r
      rw [Nat.add_right_comm, Nat.add_assoc]

/-- The writes of a column whose rows hold `cells`. -/
def columnWrites (a : LoadArgs) (col : Column) (cells : List Bytes) : List (Nat × Datum) :=
  cells.mapIdx fun j cell => (j, datumOf a col cell j)

theorem columnWrites_concat (cells : List Bytes) :
    columnWrites a col (cells ++ [cell]) =
      columnWrites a col cells ++ [(cells.length, datumOf a col cell cells.length)] := by
  simp [columnWrites, List.mapIdx_append]

theorem writesOf_call {col : Column} (hcol : a.cols[c]? = some col) (hl : col.isLoad = true)
    {rows : List (List Bytes)} (hrows : ∀ row ∈ rows, row.length = a.nC) :
    writesOf c (rowsWrites a 0 rows) = columnWrites a col (rows.map fun row => row.getD c []) := by
  rw [writesOf_rowsWrites hcol hl hrows, columnWrites]
  apply List.ext_getElem <;> simp

/-! ## reading a column back -/

theorem numAt_concat (ws : List (Nat × Datum)) (w : Nat × Datum) :
    numAt (ws ++ [w]) i = overNum i (numAt ws i) w := by
  simp [numAt]

theorem byteAt_concat (ws : List (Nat × Datum)) (w : Nat × Datum) {p : Nat} :
    byteAt (ws ++ [w]) p = overByte p (byteAt ws p) w := by
  simp [byteAt]

/-- A number is read back from its row. -/
theorem numAt_columnWrites (hq : col.qtype ≠ .SC) (cells : List Bytes) (hi : i < cells.length) :
    Value.num (numAt (columnWrites a col cells) i) = cellValue a col cells[i] := by
  induction cells using List.reverseRecOn with
  | nil => contradiction
  | append_singleton cells cell ih =>
      obtain ⟨v, hv⟩ : ∃ v, ∀ i, datumOf a col cell i = .num v := datumOf_number hq
      rw [columnWrites_concat, numAt_concat]
      by_cases hlast : i = cells.length
      · subst hlast
        simp [overNum, cellValue, hv]
      · have hlt : i < cells.length := by
          rw [List.length_append, List.length_singleton] at hi
          omega
        rw [List.getElem_append_left hlt, ← ih hlt]
        simp [overNum, hv, Ne.symm hlast]

/-- A byte of a string is read back from its slot, if no slot wraps round. -/
theorem byteAt_columnWrites (hq : col.qtype = .SC) (cells : List Bytes)
    (hfit : (cells.length - 1) * col.width < 2 ^ 32) (hi : i < cells.length) {k : Nat}
    (hk : k < col.width) :
    byteAt (columnWrites a col cells) (i * col.width + k) =
      ((cells[i] ++ List.replicate col.width 0).take col.width)[k]? := by
  induction cells using List.reverseRecOn with
  | nil => contradiction
  | append_singleton cells cell ih =>
      rw [List.length_append, List.length_singleton, Nat.add_sub_cancel] at hfit
      rw [columnWrites_concat, byteAt_concat, overByte, datumOf_string hq]
      simp only [Nat.mod_eq_of_lt hfit, length_stringBytes]
      by_cases hlast : i = cells.length
      · subst hlast
        rw [if_pos (by omega)]
        simp
      · have hlt : i < cells.length := by
          rw [List.length_append, List.length_singleton] at hi
          omega
        have hbefore : i * col.width + k < cells.length * col.width := by
          have hmul : (i + 1) * col.width ≤ cells.length * col.width := Nat.mul_le_mul_right _ hlt
          rw [Nat.add_mul, Nat.one_mul] at hmul
          omega
        have hsub : (cells.length - 1) * col.width ≤ cells.length * col.width :=
          Nat.mul_le_mul_right _ (Nat.sub_le _ _)
        rw [if_neg (by omega), ih (by omega) hlt, List.getElem_append_left hlt]

/-- **A column is read back**, row after row, if no slot wraps round. -/
theorem valueAt_columnWrites (cells : List Bytes)
    (hfit : col.qtype = .SC → (cells.length - 1) * col.width < 2 ^ 32) (hi : i < cells.length) :
    valueAt col (columnWrites a col cells) i = cellValue a col cells[i] := by
  by_cases hq : col.qtype = .SC
  · rw [valueAt, if_pos hq, cellValue, datumOf_string hq]
    simp only
    congr 1
    apply List.ext_getElem (by simp)
    intro k hk _
    rw [List.length_map, List.length_range] at hk
    rw [List.getElem_map, List.getElem_range, byteAt_columnWrites hq cells (hfit hq) hi hk,
      List.getElem_map, List.getElem?_eq_getElem]
  · rw [valueAt, if_neg hq]
    exact numAt_columnWrites hq cells hi

theorem column_eq_map (cells : List Bytes)
    (hfit : col.qtype = .SC → (cells.length - 1) * col.width < 2 ^ 32) :
    (List.range cells.length).map (valueAt col (columnWrites a col cells)) =
      cells.map (cellValue a col) := by
  apply List.ext_getElem (by simp)
  intro i hi _
  rw [List.length_map, List.length_range] at hi
  rw [List.getElem_map, List.getElem_range, List.getElem_map, valueAt_columnWrites cells hfit hi]

/-! ## slots that wrap round -/

/-- Every byte of the value was written. -/
def Value.whole : Value → Bool
  | num v => v.isSome
  | str bs => bs.all Option.isSome

/-- A store leaves no byte unwritten that was written. -/
theorem overByte_isSome {p : Nat} {old : Option UInt8} {w : Nat × Datum} (h : old.isSome = true) :
    (overByte p old w).isSome = true := by
  unfold overByte
  split
  · exact h
  · split
    · next hp => rw [List.getElem?_eq_getElem (by omega)]; rfl
    · exact h

/-- A slot below the point where the product wraps round is written. -/
theorem byteAt_isSome (hq : col.qtype = .SC) (cells : List Bytes) (hi : i < cells.length)
    (hwrap : i * col.width < 2 ^ 32) {k : Nat} (hk : k < col.width) :
    (byteAt (columnWrites a col cells) (i * col.width + k)).isSome = true := by
  induction cells using List.reverseRecOn with
  | nil => contradiction
  | append_singleton cells cell ih =>
      rw [columnWrites_concat, byteAt_concat]
      by_cases hlast : i = cells.length
      · subst hlast
        rw [overByte, datumOf_string hq]
        simp only [Nat.mod_eq_of_lt hwrap, length_stringBytes]
        rw [if_pos (by omega), List.getElem?_eq_getElem (by rw [length_stringBytes]; omega)]
        rfl
      · refine overByte_isSome (ih ?_)
        rw [List.length_append, List.length_singleton] at hi
        omega

/-- No store reaches the byte `2^32 + width - 1`, nor any byte after it. -/
theorem byteAt_eq_none (hq : col.qtype = .SC) (cells : List Bytes) {p : Nat}
    (hp : 2 ^ 32 + col.width ≤ p + 1) : byteAt (columnWrites a col cells) p = none := by
  induction cells using List.reverseRecOn with
  | nil => rfl
  | append_singleton cells cell ih =>
      rw [columnWrites_concat, byteAt_concat, ih, overByte, datumOf_string hq]
      simp only [length_stringBytes]
      have hlt : cells.length * col.width % 2 ^ 32 < 2 ^ 32 := Nat.mod_lt _ (by decide)
      rw [if_neg (by omega)]

/-- **Which slots are written**: those below the point where the product wraps
round. -/
theorem whole_valueAt (hq : col.qtype = .SC) (cells : List Bytes) (hi : i < cells.length) :
    (valueAt col (columnWrites a col cells) i).whole = decide (i * col.width < 2 ^ 32) := by
  rw [valueAt, if_pos hq, Value.whole]
  by_cases hwrap : i * col.width < 2 ^ 32
  · rw [decide_eq_true hwrap, List.all_eq_true]
    intro b hb
    rw [List.mem_map] at hb
    obtain ⟨k, hk, rfl⟩ := hb
    exact byteAt_isSome hq cells hi hwrap (List.mem_range.mp hk)
  · -- the last byte of the slot lies beyond every store
    have hw : 0 < col.width := by
      rcases Nat.eq_zero_or_pos col.width with h | h
      · rw [h, Nat.mul_zero] at hwrap
        omega
      · exact h
    have hnone := byteAt_eq_none (a := a) hq cells (p := i * col.width + (col.width - 1)) (by omega)
    rw [decide_eq_false hwrap, List.all_eq_false]
    refine ⟨none, ?_, by simp⟩
    rw [List.mem_map]
    exact ⟨col.width - 1, List.mem_range.mpr (by omega), hnone⟩

end QStore.Csv
