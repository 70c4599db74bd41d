import QStore.Vctr.Chnk

/-!
# QStore.Vctr.Put

The three ways to append to a vector, and `vctr_eov`.

A scalar is the bytes that `memcpy` reads from `&(ptr_sclr->val)`, or for `SC`
those of the string.
-/

namespace QStore.Vctr

/-- What `strcpy` copies. -/
def cstr (x : List UInt8) : List UInt8 := x.takeWhile (· ≠ 0) ++ [0]

/-- The bytes `vctr_put1` copies. -/
def sclrBytes (v : VctrVal) (sclr : List UInt8) : M (List UInt8) :=
  if v.qtype = .SC then pure (cstr sclr) else takeN sclr v.width

/-- `vctr_put1` -/
def vctrPut1 (u : Nat) (sclr : List UInt8) : M Unit := do
  byeIf (u = 0)
  let v ← getVctr u
  byeIf v.isEov
  chnkFirst u
  let v ← getVctr u
  let i ← chnkToPut u v
  let c ← getChnk u i
  match c.l1Mem with
  | none => ub
  | some b => do
    let b ← poke b (u32 (c.numElements * v.width)) (List.replicate v.width 0)
    let x ← sclrBytes v sclr
    let b ← poke b (u32 (c.numElements * v.width)) x
    modVctr u fun v => { v with numElements := v.numElements + 1 }
    setChnk u i { c with l1Mem := some b, numElements := c.numElements + 1 }
    vctrMemo u

/-- `vctr_putn` up to its recursive call: copies what fits into the last chunk,
and says how many elements and how many bytes that was. -/
def putnRound (u : Nat) (X : List UInt8) (n : Nat) : M (Nat × Nat) := do
  byeIf (u = 0)
  byeIf (n = 0)
  let v ← getVctr u
  byeIf v.isEov
  chnkFirst u
  let i ← chnkToPut u v
  let c ← getChnk u i
  match c.l1Mem with
  | none => ub
  | some b => do
    let space := u32 (v.maxNumInChnk + 2 ^ 32 - c.numElements)
    let k := if n > space then space else n
    let x ← takeN X (u32 (k * v.width))
    let b ← poke b (u32 (c.numElements * v.width)) x
    modVctr u fun v => { v with numElements := v.numElements + k }
    setChnk u i { c with l1Mem := some b, numElements := c.numElements + k }
    pure (k, u32 (k * v.width))

/-- `vctr_putn`, with a bound on the depth of its recursion. Every round but one
that could not move on copies an element, so `n` rounds are enough. -/
def vctrPutnLoop : Nat → Nat → List UInt8 → Nat → M Unit
  | 0, _, _, _ => ub
  | depth + 1, u, X, n => do
    let (k, nbytes) ← putnRound u X n
    onlyIf (n > k) (vctrPutnLoop depth u (X.drop nbytes) (n - k))
    vctrMemo u

/-- `vctr_putn` -/
def vctrPutn (u : Nat) (X : List UInt8) (n : Nat) : M Unit := vctrPutnLoop (n + 1) u X n

/-- `CMEM_REC_TYPE`, as far as `vctr_put_chunk` looks at it. -/
structure Cmem where
  data : Option Buf
  size : Nat
  isStealable : Bool
  isForeign : Bool
  deriving DecidableEq, Repr

/-- The memory of the new chunk: that of a stealable `CMEM`, or a copy of its
first `nbytes` bytes; with the `CMEM` as it is left. -/
def takeOver (cmem : Cmem) (chnkSize nbytes : Nat) : M (Option Buf × Cmem) :=
  if cmem.isStealable then do
    byeIf cmem.isForeign
    pure (cmem.data, { cmem with size := 0, isForeign := true, isStealable := false })
  else do
    let b ← memalign chnkSize
    incrMem chnkSize
    match cmem.data with
    | none => ub
    | some d => do
      let x ← takeN d.bytes nbytes
      let b ← poke b 0 x
      pure (some b, cmem)

/-- The chunk that `vctr_put_chunk` enters. -/
def putChnk (v : VctrVal) (chnkSize : Nat) (l1Mem : Option Buf) (n : Nat) : ChnkVal where
  numReaders := 0
  numWriters := 0
  numElements := n
  qtype := v.qtype
  l2Exists := false
  numFreeIgnore := if v.isEarlyFreeable then v.numFreeIgnore else 0
  size := chnkSize
  l1Mem := l1Mem

/-- What `vctr_put_chunk` has once the memory of the chunk is there, with the
`CMEM` as it leaves it. -/
structure Taken where
  vctr : VctrVal
  idx : Nat
  size : Nat
  l1Mem : Option Buf
  cmem : Cmem

/-- `vctr_put_chunk` up to the memory of the chunk. -/
def putChunkTake (u : Nat) (cmem : Cmem) (n : Nat) : M Taken := do
  byeIf (u = 0)
  byeIf (n = 0)
  let v ← getVctr u
  byeIf v.isEov
  byeIf (n > v.maxNumInChnk)
  let chnkSize := u32 cmem.size
  byeIf (chnkSize = 0)
  byeIf (v.qtype ≠ .B1 ∧ chnkSize ≠ v.chnkSize)
  byeIf (v.numElements / v.maxNumInChnk * v.maxNumInChnk ≠ v.numElements)
  onlyIf (n < v.maxNumInChnk) (vctrMemo u)
  let w ← getVctr u
  let i := if v.numElements = 0 then 0 else u32 (w.maxChnkIdx + 1)
  let (l1Mem, cmem) ← takeOver cmem chnkSize (u32 (n * v.width))
  pure ⟨v, i, chnkSize, l1Mem, cmem⟩

/-- The rest of it: the chunk enters the vector. -/
def putChunkEnter (u n : Nat) (r : Taken) : M Unit := do
  setChnk u r.idx (putChnk r.vctr r.size r.l1Mem n)
  modVctr u fun v => { v with numElements := v.numElements + n, maxChnkIdx := r.idx }
  vctrMemo u
  modVctr u fun w => { w with isEov := decide (n < r.vctr.maxNumInChnk) }

/-- `vctr_put_chunk`, with the `CMEM` as it leaves it. -/
def vctrPutChunk (u : Nat) (cmem : Cmem) (n : Nat) : M Cmem := do
  let r ← putChunkTake u cmem n
  putChunkEnter u n r
  pure r.cmem

/-- `vctr_eov` -/
def vctrEov (u : Nat) : M Unit := do
  let v ← getVctr u
  if v.isEov then pure ()
  else do
    byeIf (v.numElements = 0)
    vctrMemo u
    modVctr u fun v => { v with isEov := true }

end QStore.Vctr
