import QStore.Vctr.Chnk

/-!
# QStore.Vctr.Read

Reading a vector: one element, one chunk, the linear file, and printing.

A chunk is handed out by pointer and counted as read until it is given back. A
vector with a linear file is read through a mapping of that file, which the
first reader makes and the last one takes down.
-/

namespace QStore.Vctr

/-! ## the linear file -/

/-- `num_readers++` of a vector, an `int`. -/
def incrNumReaders (u : Nat) : M Unit := do
  let v ← getVctr u
  if v.numReaders + 1 < 2 ^ 31 then setVctr u { v with numReaders := v.numReaders + 1 } else ub

/-- `num_readers--`, with the mapping taken down after the last reader. -/
def decrNumReaders (u : Nat) : M Unit := do
  let v ← getVctr u
  setVctr u { v with
    numReaders := v.numReaders - 1
    x := if v.numReaders - 1 = 0 then none else v.x }

/-- `vctr_get_lma_X_nX` -/
def vctrGetLmaXnX (u : Nat) : M (Option Mapping) := do
  let v ← getVctr u
  if v.numReaders > 0 then do
    incrNumReaders u
    pure v.x
  else do
    let x ← rsMmap (lmaFile u)
    setVctr u { v with x := x }
    incrNumReaders u
    pure x

/-- `vctr_unget_lma_X_nX` -/
def vctrUngetLmaXnX (u : Nat) : M Unit := do
  let v ← getVctr u
  byeIf (v.numReaders = 0)
  decrNumReaders u

/-- `nX` -/
def nX (x : Option Mapping) : Nat := (x.map Mapping.len).getD 0

/-- `vctr_get_lma_read`, with the pointer it hands out. -/
def vctrGetLmaRead (u : Nat) : M (Option Mapping) := do
  match (← get).vctrs u with
  | none => pure none
  | some v => do
    byeIf (v.isLma = false)
    byeIf (v.numWriters ≠ 0)
    match v.x with
    | some m => do
      incrNumReaders u
      pure (some m)
    | none => do
      let x ← rsMmap (lmaFile u)
      setVctr u { v with x := x }
      incrNumReaders u
      pure x

/-- `vctr_get_lma_write`. The writer is counted only if the file is not mapped. -/
def vctrGetLmaWrite (u : Nat) : M (Option Mapping) := do
  match (← get).vctrs u with
  | none => pure none
  | some v => do
    byeIf (v.isLma = false)
    byeIf (v.numWriters ≠ 0)
    byeIf (v.numReaders ≠ 0)
    match v.x with
    | some m => pure (some m)
    | none => do
      let x ← rsMmap (lmaFile u)
      setVctr u { v with x := x, numWriters := v.numWriters + 1 }
      pure x

/-- `vctr_unget_lma_read` -/
def vctrUngetLmaRead (u : Nat) : M Unit := do
  let v ← getVctr u
  byeIf (v.isLma = false)
  byeIf (v.numWriters ≠ 0)
  byeIf (v.numReaders = 0)
  byeIf (v.x = none)
  decrNumReaders u

/-- `vctr_unget_lma_write` -/
def vctrUngetLmaWrite (u : Nat) : M Unit := do
  match (← get).vctrs u with
  | none => pure ()
  | some v => do
    byeIf (v.isLma = false)
    byeIf (v.numWriters ≠ 1)
    byeIf (v.numReaders ≠ 0)
    byeIf (v.x = none)
    setVctr u { v with numWriters := v.numWriters - 1, x := none }

/-! ## one element -/

/-- `get_bit_u64` on a little-endian machine. -/
def getBit (bs : List UInt8) (i : Nat) : Option Bool := bs[i / 8]?.map (·.toNat.testBit (i % 8))

/-- The element that `vctr_get1` copies out of a chunk of `num` elements. It is
`none` past the last of them, and for an `SC` that does not end. -/
def elemAt (v : VctrVal) (num : Nat) (data : Buf) (off : Nat) : M (Option (List UInt8)) :=
  if off + 1 > num then pure none
  else if v.qtype = .SC then do
    let x ← slice data.bytes (u32 (v.width * off)) v.width
    pure (if 0 ∈ x ∧ x.getLast? = some 0 then some x else none)
  else if v.qtype = .B1 then
    match getBit data.bytes off with
    | none => ub
    | some b => pure (some [if b then 1 else 0])
  else do
    let x ← slice data.bytes (u32 (v.width * off)) v.width
    pure (some x)

/-- `vctr_get1_lma` -/
def vctrGet1Lma (u i : Nat) : M (List UInt8) := do
  let v ← getVctr u
  byeIf (v.isLma = false)
  byeIf (v.numWriters ≠ 0)
  byeIf (i ≥ v.numElements)
  let x ← vctrGetLmaXnX u
  byeIf (v.qtype = .SC)
  byeIf (v.qtype = .B1)
  byeIf (v.width * i + v.width > nX x)
  let data ← readMapping x (v.width * i) v.width
  vctrUngetLmaXnX u
  pure data

/-- `vctr_get1` -/
def vctrGet1 (u i : Nat) : M (List UInt8) := do
  let v ← getVctr u
  byeIf (i ≥ v.numElements)
  if v.isLma then vctrGet1Lma u i
  else if v.maxNumInChnk = 0 then ub
  else do
    let idx := u32 (i / v.maxNumInChnk)
    let off := i % v.maxNumInChnk
    let _ ← getChnk u idx
    match ← chnkGetData u idx false with
    | none => goBYE
    | some data => do
      let c ← getChnk u idx
      let r ← elemAt v c.numElements data off
      -- BYE: chnk_get_data counted a reader
      modChnk u idx fun c => { c with numReaders := c.numReaders - 1 }
      match r with
      | some x => pure x
      | none => goBYE

/-! ## one chunk -/

/-- What `vctr_get_chunk` fills in: the pointer, what it leads to, its size and
the number of elements. -/
structure GotChunk where
  addr : Nat
  bytes : List UInt8
  size : Nat
  num : Nat
  deriving DecidableEq, Repr

/-- The address and the bytes of a mapping from `off` on. -/
def mappedFrom (s : St) (x : Option Mapping) (off : Nat) : Nat × List UInt8 :=
  match x with
  | none => (off, [])
  | some m => (m.addr + off, ((s.fs.data m.ino).take m.len).drop off)

/-- `vctr_get_chunk_lma` -/
def vctrGetChunkLma (u i : Nat) : M GotChunk := do
  let v ← getVctr u
  byeIf (v.isLma = false)
  byeIf (v.numWriters ≠ 0)
  let x ← vctrGetLmaXnX u
  let chunkSize := if v.qtype = .B1 then v.maxNumInChnk / 8 else v.chnkSize
  let offset := chunkSize * i
  byeIf (offset > nX x)
  let size := min (nX x - offset) chunkSize
  let p := mappedFrom (← get) x offset
  if v.width = 0 then ub
  else pure ⟨p.1, p.2.take size, size, size / v.width⟩

/-- `vctr_get_chunk` -/
def vctrGetChunk (u i : Nat) : M GotChunk := do
  let v ← getVctr u
  if v.isLma then vctrGetChunkLma u i
  else do
    let c ← getChnk u i
    match ← chnkGetData u i false with
    | none => goBYE
    | some data => pure ⟨data.addr, data.bytes, v.chnkSize, c.numElements⟩

/-- `vctr_unget_chunk` -/
def vctrUngetChunk (u i : Nat) : M Unit := do
  let v ← getVctr u
  if v.isLma then do
    byeIf (v.numReaders = 0)
    decrNumReaders u
  else do
    let c ← getChnk u i
    byeIf (c.numReaders = 0)
    setChnk u i { c with numReaders := c.numReaders - 1 }

end QStore.Vctr
