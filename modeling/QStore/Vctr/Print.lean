import QStore.Lib.Decimal
import QStore.Vctr.PutGet
import QStore.Vctr.Widths

/-!
# QStore.Vctr.Print

Printing a vector (`vctr_print.c`), one element a line.

`vctr_print` walks over the chunks, or over the linear file if there is one.
What is printed is the text written to the file; how the file is opened, and the
part of the text that is in it when the call fails, are left out. `Libc` stands
for what the C library makes of floating point numbers and of times.
-/

namespace QStore.Vctr

/-! ## elements as texts -/

/-- The C library: `%f` of a `float`, `%lf` of a `double`, and what `strftime` puts
in a buffer of a given size (nothing, where it does not fit). -/
structure Libc where
  float : List UInt8 → List UInt8
  double : List UInt8 → List UInt8
  strftime : Nat → List UInt8 → List UInt8 → List UInt8

/-- The number in little-endian bytes. -/
def natOf : List UInt8 → Nat
  | [] => 0
  | b :: bs => b.toNat + 256 * natOf bs

/-- The same of a signed type. -/
def intOf (x : List UInt8) : Int :=
  if 2 * natOf x < 256 ^ x.length then natOf x else natOf x - 256 ^ x.length

/-- `"true"` and `"false"` -/
def boolText (b : Bool) : List UInt8 :=
  if b then [116, 114, 117, 101] else [102, 97, 108, 115, 101]

/-- `F2_to_F4`, as bytes. -/
def f2ToF4 (x : List UInt8) : List UInt8 := 0 :: 0 :: x

/-- `%02d` -/
def twoDigits (v : Int) : List UInt8 := if 0 ≤ v ∧ v < 10 then 48 :: intText v else intText v

/-- A `tm_t`: the year in two bytes, the month, the day, the hour, the day of the
week, and the day of the year in two bytes. `sep` is what `snprintf` puts between
the last two. -/
def tm1Text (sep : UInt8) (x : List UInt8) : List UInt8 :=
  let fld := fun off n => intOf ((x.drop off).take n)
  ([34] ++ intText (fld 0 2 + 1900) ++ [45] ++ twoDigits (fld 2 1 + 1) ++ [45] ++
    twoDigits (fld 3 1) ++ [32] ++ intText (fld 4 1) ++ [58] ++ intText (fld 5 1) ++ [sep] ++
    intText (fld 6 2) ++ [34]).take 62

/-- A `struct tm`, by `strftime`. An empty text is a failure. -/
def tmText (libc : Libc) (format x : List UInt8) : Except Err (List UInt8) :=
  if libc.strftime 63 format x = [] then .error (.bye (-1)) else .ok (libc.strftime 63 format x)

/-! ## reading memory

The memory that a pointer leads to, unless it is null or unmapped. -/

/-- `n` bytes, `off` bytes in. -/
def readBytes (mem : Option (List UInt8)) (off n : Nat) : Except Err (List UInt8) :=
  match mem with
  | none => .error .ub
  | some bs => if off + n ≤ bs.length then .ok ((bs.drop off).take n) else .error .ub

/-- The string that starts `off` bytes in. -/
def readString (mem : Option (List UInt8)) (off : Nat) : Except Err (List UInt8) :=
  match mem with
  | none => .error .ub
  | some bs =>
    if 0 ∈ bs.drop off then .ok ((bs.drop off).takeWhile (· ≠ 0)) else .error .ub

/-- `get_bit_u64` -/
def readBit (mem : Option (List UInt8)) (i : Nat) : Except Err Bool :=
  match mem.bind fun bs => getBit bs i with
  | none => .error .ub
  | some b => .ok b

/-- Element `i` of an array of elements of `n` bytes, as a text. -/
def showAt (mem : Option (List UInt8)) (off n i : Nat) (f : List UInt8 → List UInt8) :
    Except Err (List UInt8) :=
  (readBytes mem (off + n * i) n).map f

/-! ## `vctr_print_lma` -/

/-- The `switch` of `vctr_print_lma`: element `i` from `Y` on. -/
def printElemLma (libc : Libc) (format : List UInt8) (v : VctrVal) (mem : Option (List UInt8))
    (offset i : Nat) : Except Err (List UInt8) :=
  match v.qtype with
  | .B1 => .error (.bye (-1))
  | .BL => showAt mem offset 1 i fun x => boolText (x != [0])
  | .I1 => showAt mem offset 1 i fun x => intText (intOf x)
  | .I2 => showAt mem offset 2 i fun x => intText (intOf x)
  | .I4 => showAt mem offset 4 i fun x => intText (intOf x)
  | .I8 => showAt mem offset 8 i fun x => intText (intOf x)
  | .F2 => showAt mem offset 2 i fun x => libc.float (f2ToF4 x)
  | .F4 => showAt mem offset 4 i libc.float
  | .F8 => showAt mem offset 8 i libc.double
  | .SC => readString mem (offset + i * v.width)
  | .TM => (readBytes mem (offset + 56 * i) 56).bind (tmText libc format)
  | .TM1 => showAt mem offset 8 i (tm1Text 32)
  | _ => .error (.bye (-1))

/-- `n` rows from row `i` on. -/
def printRows (row : Nat → Except Err (List UInt8)) : Nat → Nat → Except Err (List UInt8)
  | _, 0 => .ok []
  | i, n + 1 => do
    let txt ← row i
    let rest ← printRows row (i + 1) n
    return txt ++ rest

/-- What follows from memory alone, as a part of a call. -/
def ofExcept {α : Type} (r : Except Err α) : M α :=
  match r with
  | .ok a => pure a
  | .error e => throw e

/-- `munmap` of the mapping of a vector. -/
def munmapX (u : Nat) : M Unit :=
  modVctr u fun v => { v with x := v.x.map fun m => { m with live := false } }

/-- The mapping to print from: that of the readers, or a new one. -/
def mapForPrint (u : Nat) (v : VctrVal) : M (Option Mapping) :=
  if v.numReaders > 0 then pure v.x
  else do
    byeIf (v.x ≠ none)
    rsMmap (lmaFile u)

/-- `vctr_print_lma`. A mapping of its own is left; that of the readers is taken
down. -/
def vctrPrintLma (libc : Libc) (u : Nat) (format : List UInt8) (lb ub : Nat) :
    M (List UInt8) := do
  let v ← getVctr u
  byeIf (v.isLma = false)
  byeIf (v.numWriters > 0)
  match ← mapForPrint u v with
  | none => goBYE
  | some m => do
    byeIf (m.len = 0)
    let s ← get
    let mem := if m.live then some ((s.fs.data m.ino).take m.len) else none
    let row := fun i => (printElemLma libc format v mem (lb * v.width) i).map (· ++ [10])
    let txt ← ofExcept (printRows row 0 (ub - lb))
    onlyIf (v.numReaders > 0) (munmapX u)
    pure txt

/-! ## `vctr_print` -/

/-- The line of a null: a pair of quotes. -/
def nullLine : List UInt8 := [34, 34, 10]

/-- Whether the null vector calls row `i` from `chnk_off` on null. Flags of a byte
are read at `nn_data[i]`. -/
def isNullRow (nn : Option (VctrVal × Option (List UInt8))) (chnkOff i : Nat) :
    Except Err Bool :=
  match nn with
  | none => .ok false
  | some (nv, nnData) =>
    match nv.qtype with
    | .BL => (readBytes nnData i 1).map (· == [0])
    | .B1 => (readBit nnData (chnkOff + i)).map (!·)
    | _ => .error (.bye (-1))

/-- The `switch` of `vctr_print`: element `i` from `data` on, which is `chnk_off`
elements into the chunk. An unsigned number of four bytes is printed with `%d`. -/
def printElem (libc : Libc) (format : List UInt8) (v : VctrVal) (origData : Option (List UInt8))
    (chnkOff i : Nat) : Except Err (List UInt8) :=
  let data := u32 (chnkOff * v.width)
  match v.qtype with
  | .B1 => (readBit origData (chnkOff + i)).map boolText
  | .BL => showAt origData data 1 i fun x => boolText (x != [0])
  | .I1 => showAt origData data 1 i fun x => intText (intOf x)
  | .I2 => showAt origData data 2 i fun x => intText (intOf x)
  | .I4 => showAt origData data 4 i fun x => intText (intOf x)
  | .I8 => showAt origData data 8 i fun x => intText (intOf x)
  | .UI1 => showAt origData data 1 i fun x => intText (natOf x)
  | .UI2 => showAt origData data 2 i fun x => intText (natOf x)
  | .UI4 => showAt origData data 4 i fun x => intText (intOf x)
  | .UI8 => showAt origData data 8 i fun x => intText (natOf x)
  | .F2 => showAt origData data 2 i fun x => libc.float (f2ToF4 x)
  | .F4 => showAt origData data 4 i libc.float
  | .F8 => showAt origData data 8 i libc.double
  | .SC => readString origData (data + i * v.width)
  | .TM => (readBytes origData (data + 56 * i) 56).bind (tmText libc format)
  | .TM1 => showAt origData data 8 i (tm1Text 58)
  | _ => .error (.bye (-1))

/-- A row: the element, unless it is null. -/
def printRow (libc : Libc) (format : List UInt8) (v : VctrVal) (origData : Option (List UInt8))
    (nn : Option (VctrVal × Option (List UInt8))) (chnkOff i : Nat) : Except Err (List UInt8) := do
  if ← isNullRow nn chnkOff i then return nullLine
  let txt ← printElem libc format v origData chnkOff i
  return txt ++ [10]

/-- The chunk of the null vector, which has to be as long. The pointer that
`chnk_get_data` hands out is not looked at. -/
def nnChnk (nn : Option (Nat × VctrVal)) (chnkIdx numInChnk : Nat) :
    M (Option (VctrVal × Option (List UInt8))) :=
  match nn with
  | none => pure none
  | some (w, nv) => do
    let d ← getChnk w chnkIdx
    byeIf (d.numElements ≠ numInChnk)
    let nnData ← chnkGetData w chnkIdx false
    pure (some (nv, nnData.map Buf.bytes))

/-- `num_readers--` of a chunk. -/
def releaseChnk (u i : Nat) : M Unit :=
  modChnk u i fun c => { c with numReaders := c.numReaders - 1 }

/-- The same of the null vector's. -/
def releaseNn (nn : Option (Nat × VctrVal)) (i : Nat) : M Unit :=
  match nn with
  | none => pure ()
  | some (w, _) => releaseChnk w i

/-- A turn of the loop of `vctr_print`, from element `lb` on: the text, and how many
elements were printed. -/
def printChnk (libc : Libc) (format : List UInt8) (u : Nat) (v : VctrVal)
    (nn : Option (Nat × VctrVal)) (lb numToPr : Nat) : M (List UInt8 × Nat) :=
  if v.maxNumInChnk = 0 then throw .ub
  else do
    let chnkIdx := u32 (lb / v.maxNumInChnk)
    let chnkOff := lb % v.maxNumInChnk
    let c ← getChnk u chnkIdx
    let origData ← chnkGetData u chnkIdx false
    let nnData ← nnChnk nn chnkIdx c.numElements
    let n := min (u32 (c.numElements + 2 ^ 32 - chnkOff)) numToPr
    let txt ← ofExcept
      (printRows (printRow libc format v (origData.map Buf.bytes) nnData chnkOff) 0 n)
    releaseChnk u chnkIdx
    releaseNn nn chnkIdx
    pure (txt, n)

/-- The loop, for at most `fuel` turns: a turn that prints nothing would be taken
again for ever. -/
def printChnks (libc : Libc) (format : List UInt8) (u : Nat) (v : VctrVal)
    (nn : Option (Nat × VctrVal)) (ub : Nat) : Nat → Nat → M (List UInt8)
  | fuel, lb =>
    if ub - lb = 0 then pure []
    else match fuel with
      | 0 => throw .ub
      | fuel + 1 => do
        let r ← printChnk libc format u v nn lb (ub - lb)
        let rest ← printChnks libc format u v nn ub fuel (lb + r.2)
        pure (r.1 ++ rest)

/-- The null vector, and the checks of it. -/
def nnVctr (v : VctrVal) (nnVctrUqid : Nat) : M (Option (Nat × VctrVal)) :=
  if nnVctrUqid > 0 then do
    let nv ← getVctr nnVctrUqid
    byeIf (nv.qtype ≠ .BL ∧ nv.qtype ≠ .B1)
    byeIf (nv.qtype = .BL ∧ nv.width ≠ 1)
    byeIf (nv.maxNumInChnk ≠ v.maxNumInChnk)
    byeIf (nv.numElements ≠ v.numElements)
    pure (some (nnVctrUqid, nv))
  else pure none

/-- `vctr_print`. No null vector is `nn_vctr_uqid = 0`, and no format the empty
one. -/
def vctrPrint (libc : Libc) (vctrUqid nnVctrUqid : Nat) (format : List UInt8) (lb ub : Nat) :
    M (List UInt8) := do
  byeIf (vctrUqid = 0)
  let v ← getVctr vctrUqid
  let nn ← nnVctr v nnVctrUqid
  let ub := if ub = 0 then v.numElements else ub
  byeIf (ub ≤ lb)
  byeIf (ub > v.numElements)
  byeIf (v.qtype = .TM ∧ format = [])
  if v.isLma then vctrPrintLma libc vctrUqid format lb ub
  else printChnks libc format vctrUqid v nn ub (ub - lb) lb

end QStore.Vctr
