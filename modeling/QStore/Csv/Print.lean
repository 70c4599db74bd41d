import QStore.Csv.GetCell
import QStore.Qtype
import QStore.Lib.Decimal
import QStore.Lib.Pages

/-!
# QStore.Csv.Print

`cprint`: the C function (`PRINT/src/cprint.c`), which prints rows of the chunks
it is given, and the Lua function (`PRINT/lua/cprint.lua`), which walks the
chunks of the vectors with bounds relative to each. Both write to the end of one
file; a printed text is what they write there.

Columns of integers, booleans and strings. The types that are printed with `%f`
or as a time are left out, and so is the unfinished `where`.
-/

namespace QStore.Csv

def comma : UInt8 := 44

/-- The text of a string literal. -/
def ascii (s : String) : Bytes := s.toUTF8.data.toList

def trueText : Bytes := [116, 114, 117, 101]
def falseText : Bytes := [102, 97, 108, 115, 101]

/-- An element of a vector, as the vector's type reads it. -/
inductive Elem where
  | num (v : Int)
  | flag (b : Bool)
  | text (bs : Bytes)

/-- The least and the greatest number of an integer type. -/
def intBounds : Qtype → Option (Int × Int)
  | .I1 => some (-2 ^ 7, 2 ^ 7 - 1)
  | .I2 => some (-2 ^ 15, 2 ^ 15 - 1)
  | .I4 => some (-2 ^ 31, 2 ^ 31 - 1)
  | .I8 => some (-2 ^ 63, 2 ^ 63 - 1)
  | .UI1 => some (0, 2 ^ 8 - 1)
  | .UI2 => some (0, 2 ^ 16 - 1)
  | .UI4 => some (0, 2 ^ 32 - 1)
  | .UI8 => some (0, 2 ^ 64 - 1)
  | _ => none

/-- What elements of a type there are. A string is terminated within its
width. -/
def Elem.Fits (qtype : Qtype) (width : Nat) : Elem → Prop
  | .num v => ∃ b, intBounds qtype = some b ∧ b.1 ≤ v ∧ v ≤ b.2
  | .flag _ => qtype = .BL
  | .text bs => qtype = .SC ∧ bs.length = width ∧ 0 ∈ bs

/-- What `cprint` is given of one column: the type and width, and the chunk with
its null flags. -/
structure Chunk where
  qtype : Qtype
  width : Nat
  data : List Elem
  nnData : Option (List Bool)

/-- The bytes of a string up to its NUL, at most `k` of them. -/
def scText (isHtml : Bool) : Nat → Bytes → Bytes
  | 0, _ => []
  | _, [] => []
  | k + 1, c :: X =>
      if c = 0 then []
      else if !isHtml && (c == bslash || c == dquote) then bslash :: c :: scText isHtml k X
      else c :: scText isHtml k X

/-- The `switch` on the type. `none`: an error. -/
def printElem (isHtml : Bool) (width : Nat) : Elem → Option Bytes
  | .flag b => some (if b then trueText else falseText)
  | .num v => some (intText v)
  | .text X =>
      if width ≤ 1 then none
      else
        let quote := if isHtml then [] else [dquote]
        some (quote ++ scText isHtml width X ++ quote)

/-- One field: a pair of quotes for a null, else the element. -/
def printField (isHtml : Bool) (x : Chunk) (i : Nat) : Option Bytes :=
  let value := ((x.data[i]?).bind (printElem isHtml x.width)).map fun txt =>
    if isHtml then ascii "<td> " ++ txt ++ ascii "</td> " else txt
  match x.nnData with
  | none => value
  | some nn =>
      match nn[i]? with
      | none => none
      | some false => some [dquote, dquote]
      | some true => value

/-- The loop over the columns, from column `j` on. -/
def printCols (isHtml : Bool) (i : Nat) : Nat → List Chunk → Option Bytes
  | _, [] => some []
  | j, x :: xs =>
      (printField isHtml x i).bind fun field =>
        (printCols isHtml i (j + 1) xs).map fun rest =>
          (if !isHtml && decide (j > 0) then [comma] else []) ++ field ++ rest

/-- One row. -/
def printRow (isHtml : Bool) (V : List Chunk) (i : Nat) : Option Bytes :=
  (printCols isHtml i 0 V).map fun txt =>
    (if isHtml then ascii "   <tr> " else []) ++ txt ++ (if isHtml then ascii "</tr>" else []) ++
      [eoln]

/-- `n` rows from row `i` on. -/
def printRows (isHtml : Bool) (V : List Chunk) : Nat → Nat → Option Bytes
  | 0, _ => some []
  | n + 1, i =>
      (printRow isHtml V i).bind fun row =>
        (printRows isHtml V n (i + 1)).map fun rest => row ++ rest

/-- `cprint`, in C. `none`: a negative status. -/
def cprintC (isHtml : Bool) (V : List Chunk) (lb ub : Nat) : Option Bytes :=
  if V.isEmpty then none
  else if ub ≤ lb then none
  else if V.any fun x => x.qtype == .Q0 || (x.qtype != .SC && (x.width == 0 || x.width ≥ 32))
  then none
  else
    (printRows isHtml V (ub - lb) lb).map fun txt =>
      (if isHtml then ascii "<HTML>\n" ++ ascii " <table>\n" else []) ++ txt ++
        (if isHtml then ascii " </table>\n" ++ ascii "</HTML>\n" else [])

/-- An `lVector` to be printed: its elements, and those of its null vector. -/
structure PrintVector where
  qtype : Qtype
  width : Nat
  elems : List Elem
  nn : Option (List Bool)
  fits : ∀ e ∈ elems, e.Fits qtype width
  /-- the types that are printed here -/
  printable : qtype = .BL ∨ qtype = .SC ∨ (intBounds qtype).isSome
  /-- `vctr_add` wants two bytes for a string -/
  width_eq : if qtype = .SC then 2 ≤ width else width = getWidthCQtype qtype

/-- The vectors that are printed together: of `n` rows each, in chunks of one
size. -/
structure Table where
  n : Nat
  maxNumInChunk : Nat
  pos : 0 < maxNumInChunk
  V : List PrintVector
  ne : V ≠ []
  length_elems : ∀ v ∈ V, v.elems.length = n
  length_nn : ∀ v ∈ V, ∀ nn, v.nn = some nn → nn.length = n

/-- `get_chunk` -/
def PrintVector.getChunk (v : PrintVector) (size chunkNum : Nat) : Chunk :=
  ⟨v.qtype, v.width, page size v.elems chunkNum, v.nn.map fun nn => page size nn chunkNum⟩

/-- The loop of `cprint`, in Lua, for at most `fuel` turns. -/
def cprintLoop (isHtml : Bool) (t : Table) (lb ub : Nat) : Nat → Nat → Option Bytes
  | 0, _ => none
  | fuel + 1, chunkNum =>
      let clb := chunkNum * t.maxNumInChunk
      let cub := clb + t.maxNumInChunk
      if clb ≥ ub then some []
      else
        let xlb := max lb clb
        let xub := min ub cub
        let chunks := t.V.map fun v => v.getChunk t.maxNumInChunk chunkNum
        -- every chunk has an element, and all have one length
        if chunks.any fun x => x.data.length == 0 ||
            (chunks.head?.any fun y => x.data.length != y.data.length) then none
        else
          (cprintC isHtml chunks (xlb - clb) (xub - clb)).bind fun txt =>
            (cprintLoop isHtml t lb ub fuel (chunkNum + 1)).map fun rest => txt ++ rest

/-- `cprint`, in Lua: from the chunk that holds row `lb` on. -/
def cprint (isHtml : Bool) (t : Table) (lb ub : Nat) : Option Bytes :=
  cprintLoop isHtml t lb ub (ub + 1) (lb / t.maxNumInChunk)

/-! ## the chunks against the whole -/

/-- The vector as one chunk. -/
def PrintVector.whole (v : PrintVector) : Chunk := ⟨v.qtype, v.width, v.elems, v.nn⟩

section Rows

variable {isHtml : Bool} {V : List Chunk} {i j k m n : Nat}

/-- Rows are printed one after the other. -/
theorem printRows_add :
    printRows isHtml V (m + n) i = (printRows isHtml V m i).bind fun txt =>
      (printRows isHtml V n (i + m)).map fun rest => txt ++ rest := by
  induction m generalizing i with
  | zero =>
      rw [Nat.zero_add, printRows, Option.bind_some]
      simp
  | succ m ih =>
      rw [Nat.succ_add, printRows, printRows]
      cases printRow isHtml V i with
      | none => rfl
      | some row =>
          rw [Option.bind_some, Option.bind_some, ih, Nat.succ_add_eq_add_succ]
          cases printRows isHtml V m (i + 1) with
          | none => rfl
          | some txt =>
              simp only [Option.bind_some, Option.map_some, Option.map_map]
              congr 1
              funext rest
              simp

end Rows

section Chunks

variable {isHtml : Bool} {t : Table} {v : PrintVector} {b i j n size lb ub : Nat}

/-- A row of a chunk is a row of the vector. -/
theorem printField_getChunk (hi : i < size) :
    printField isHtml (v.getChunk size b) i = printField isHtml v.whole (b * size + i) := by
  have hpage : ∀ {α : Type} (D : List α), (page size D b)[i]? = D[b * size + i]? := by
    intro α D
    ext a
    rw [getElem?_page]
    exact and_iff_right hi
  unfold printField PrintVector.getChunk PrintVector.whole
  simp only [hpage]
  cases v.nn with
  | none => rfl
  | some nn => simp only [Option.map_some, hpage]

theorem printCols_getChunk {V : List PrintVector} (hi : i < size) :
    printCols isHtml i j (V.map fun v => v.getChunk size b) =
      printCols isHtml (b * size + i) j (V.map PrintVector.whole) := by
  induction V generalizing j with
  | nil => rfl
  | cons v V ih => simp only [List.map_cons, printCols, printField_getChunk hi, ih]

theorem printRows_getChunk {V : List PrintVector} (hi : i + n ≤ size) :
    printRows isHtml (V.map fun v => v.getChunk size b) n i =
      printRows isHtml (V.map PrintVector.whole) n (b * size + i) := by
  induction n generalizing i with
  | zero => rfl
  | succ n ih =>
      rw [printRows, printRows, printRow, printRow, printCols_getChunk (by omega), ih (by omega)]
      rfl

/-- A vector's type and width pass the checks. -/
theorem PrintVector.checked (v : PrintVector) :
    (v.qtype == .Q0 || (v.qtype != .SC && (v.width == 0 || decide (v.width ≥ 32)))) = false := by
  have hw := v.width_eq
  have hp := v.printable
  generalize v.qtype = q at hw hp
  cases q <;> simp_all [intBounds, getWidthCQtype]

/-- `cprint` in C prints the rows of the vectors. -/
theorem cprintC_getChunk (hlb : lb < ub) (hub : ub ≤ t.maxNumInChunk) :
    cprintC false (t.V.map fun v => v.getChunk t.maxNumInChunk b) lb ub =
      printRows false (t.V.map PrintVector.whole) (ub - lb) (b * t.maxNumInChunk + lb) := by
  have hany : (t.V.map fun v => v.getChunk t.maxNumInChunk b).any (fun x =>
      x.qtype == .Q0 || (x.qtype != .SC && (x.width == 0 || decide (x.width ≥ 32)))) = false := by
    rw [List.any_map, List.any_eq_false]
    intro v _
    rw [Function.comp_apply, Bool.not_eq_true]
    exact v.checked
  have hne : (t.V.map fun v => v.getChunk t.maxNumInChunk b).isEmpty = false := by
    rw [List.isEmpty_map]
    simpa using t.ne
  rw [cprintC, hne, if_neg (by simp), if_neg (by omega), hany, if_neg (by simp),
    printRows_getChunk (by omega)]
  cases printRows false (t.V.map PrintVector.whole) (ub - lb) (b * t.maxNumInChunk + lb) with
  | none => rfl
  | some txt => simp

/-- Every chunk that holds a row to be printed passes the check on lengths. -/
theorem chunks_checked (hb : b * t.maxNumInChunk < t.n) :
    (t.V.map fun v => v.getChunk t.maxNumInChunk b).any (fun x => x.data.length == 0 ||
      ((t.V.map fun v => v.getChunk t.maxNumInChunk b).head?.any
        fun y => x.data.length != y.data.length)) = false := by
  have hlen : ∀ v ∈ t.V, (v.getChunk t.maxNumInChunk b).data.length =
      min t.maxNumInChunk (t.n - b * t.maxNumInChunk) := by
    intro v hv
    rw [PrintVector.getChunk, length_page, t.length_elems v hv]
  have hpos := t.pos
  rw [List.any_map, List.any_eq_false]
  intro v hv
  obtain ⟨w, V, hV⟩ := List.exists_cons_of_ne_nil t.ne
  rw [hV] at hv ⊢
  rw [Function.comp_apply, List.map_cons, List.head?_cons, Option.any_some, hlen v (hV ▸ hv),
    hlen w (by simp [hV])]
  simp
  omega

/-- The loop prints what is left of the rows. -/
theorem cprintLoop_eq {fuel : Nat} (hub : ub ≤ t.n) (hlb : lb < (b + 1) * t.maxNumInChunk)
    (hlt : lb < ub) (hfuel : ub < b + fuel) (hone : 0 < fuel) :
    cprintLoop false t lb ub fuel b = printRows false (t.V.map PrintVector.whole)
      (ub - max lb (b * t.maxNumInChunk)) (max lb (b * t.maxNumInChunk)) := by
  have hpos := t.pos
  induction fuel generalizing b with
  | zero => contradiction
  | succ fuel ih =>
      rw [cprintLoop]
      by_cases hend : b * t.maxNumInChunk ≥ ub
      · rw [if_pos hend, Nat.sub_eq_zero_of_le (by omega), printRows]
      · have hb : b < ub := by
          have := Nat.le_mul_of_pos_right b hpos
          omega
        have hnext : (b + 1) * t.maxNumInChunk = b * t.maxNumInChunk + t.maxNumInChunk :=
          Nat.succ_mul b t.maxNumInChunk
        have hrest := ih (b := b + 1) (by rw [Nat.succ_mul]; omega) (by omega) (by omega)
        simp only [if_neg hend, chunks_checked (show b * t.maxNumInChunk < t.n by omega),
          Bool.false_eq_true, if_false]
        rw [hnext] at hlb hrest
        rw [cprintC_getChunk (by omega) (by omega), hrest]
        -- the rows of this chunk, and those from the next one on
        obtain ⟨k, hk⟩ : ∃ k, k = min ub (b * t.maxNumInChunk + t.maxNumInChunk) -
            max lb (b * t.maxNumInChunk) := ⟨_, rfl⟩
        have hsplit : ub - max lb (b * t.maxNumInChunk) =
            k + (ub - max lb (b * t.maxNumInChunk + t.maxNumInChunk)) := by omega
        have hplace : b * t.maxNumInChunk + (max lb (b * t.maxNumInChunk) - b * t.maxNumInChunk) =
            max lb (b * t.maxNumInChunk) := by omega
        have hcount : min ub (b * t.maxNumInChunk + t.maxNumInChunk) - b * t.maxNumInChunk -
            (max lb (b * t.maxNumInChunk) - b * t.maxNumInChunk) = k := by omega
        rw [hsplit, printRows_add, hplace, hcount]
        by_cases hlast : ub ≤ b * t.maxNumInChunk + t.maxNumInChunk
        · rw [Nat.sub_eq_zero_of_le (show ub ≤ max lb _ by omega), printRows, printRows]
        · rw [show max lb (b * t.maxNumInChunk) + k =
            max lb (b * t.maxNumInChunk + t.maxNumInChunk) by omega]

/-- **`cprint` prints the rows `lb` to `ub - 1`**, whatever the size of the
chunks. -/
theorem cprint_eq (hlt : lb < ub) (hub : ub ≤ t.n) :
    cprint false t lb ub = printRows false (t.V.map PrintVector.whole) (ub - lb) lb := by
  have hlb : lb < (lb / t.maxNumInChunk + 1) * t.maxNumInChunk := by
    rw [Nat.mul_comm]
    exact Nat.lt_mul_div_succ lb t.pos
  have hfuel : ub < lb / t.maxNumInChunk + (ub + 1) :=
    Nat.lt_of_lt_of_le (Nat.lt_succ_self ub) (Nat.le_add_left _ _)
  rw [cprint, cprintLoop_eq hub hlb hlt hfuel (Nat.succ_pos ub),
    Nat.max_eq_left (Nat.div_mul_le_self lb t.maxNumInChunk)]

end Chunks

end QStore.Csv
