import QStore.Vctr.AddDel

/-!
# QStore.Vctr.Setters

The functions that set what a vector is and how long it is kept
(`vctr_get_set.c`, `vctr_cast.c`, `vctr_memo.c`, `vctr_kill.c`, `vctr_persist.c`).

Each finds the vector, asks what it was written to ask, and writes a field of the
entry. `vctr_get_set` goes by a text; it can write before it fails.
-/

namespace QStore.Vctr

/-! ## get or set -/

/-- The texts `vctr_get_set` compares `meta` with. -/
inductive Meta
  | eov | error | lma | persist
  | maxNumInChunk | maxChnkIdx | minChnkIdx
  | width | qtype | name
  | hasParent | nnKey | hasNn | isNn
  | earlyFreeable
  deriving DecidableEq, Repr

/-- `get_set_t` -/
inductive Mode
  | get | set
  deriving DecidableEq, Repr

/-- What the pointers given to `vctr_get_set` point to; `none` is `NULL`. -/
structure Ptrs where
  bl : Option Bool
  i8 : Option Int
  inStr : Option (List UInt8)
  outStr : Option Unit
  deriving DecidableEq, Repr

/-- What it leaves there. -/
structure Got where
  bl : Option Bool
  i8 : Option Int
  str : Option (List UInt8)
  deriving DecidableEq, Repr

/-- Nothing is left there. -/
def Got.nothing : Got := ⟨none, none, none⟩

/-- Read or write through a pointer. -/
def deref {α : Type} : Option α → M α
  | some a => pure a
  | none => ub

/-- `*ptr_bl = b` -/
def putBl (p : Ptrs) (b : Bool) : M Got := do
  let _ ← deref p.bl
  pure { Got.nothing with bl := some b }

/-- `*ptr_i8 = n` -/
def putI8 (p : Ptrs) (n : Int) : M Got := do
  let _ ← deref p.i8
  pure { Got.nothing with i8 := some n }

/-- `MAX_LEN_VCTR_NAME` -/
def maxLenVctrName : Nat := 31

/-- The `get` branches of `vctr_get_set`. -/
def getMeta (v : VctrVal) (p : Ptrs) : Meta → M Got
  | .eov => putBl p v.isEov
  | .error => putBl p v.isError
  | .lma => putBl p v.isLma
  | .persist => putBl p v.isPersist
  | .maxNumInChunk => putI8 p v.maxNumInChnk
  | .maxChnkIdx => putI8 p v.maxChnkIdx
  | .minChnkIdx => putI8 p v.minChnkIdx
  | .width => putI8 p v.width
  | .qtype => putI8 p v.qtype.num
  | .name => do
    deref p.outStr
    pure { Got.nothing with str := some v.name }
  | .hasParent => putBl p v.hasParent
  | .nnKey => putI8 p v.nnKey
  | .hasNn => putBl p v.hasNn
  | .isNn => putBl p v.hasParent
  | .earlyFreeable => do
    let _ ← deref p.bl
    let _ ← deref p.i8
    pure { Got.nothing with bl := some v.isEarlyFreeable, i8 := some v.numFreeIgnore }

/-- Its `set` branches. The mark of an early freeable vector is there before the
count is looked at. -/
def setMeta (u : Nat) (v : VctrVal) (p : Ptrs) : Meta → M Unit
  | .eov => setVctr u { v with isEov := true }
  | .error => setVctr u { v with isError := true }
  | .persist => do
    let b ← deref p.bl
    setVctr u { v with isPersist := b }
  | .maxNumInChunk => do
    let n ← deref p.i8
    byeIf (n < 64)
    byeIf (n / 64 * 64 ≠ n)
    setVctr u { v with maxNumInChnk := u32 n.toNat }
  | .qtype => do
    let n ← deref p.i8
    match Qtype.ofNum n with
    | none => goBYE
    | some q => setVctr u { v with qtype := q }
  | .name =>
    match p.inStr with
    | none => goBYE
    | some str => do
      byeIf (str.length > maxLenVctrName)
      setVctr u { v with name := str }
  | .earlyFreeable => do
    byeIf v.isEarlyFreeable
    setVctr u { v with isEarlyFreeable := true }
    let n ← deref p.i8
    byeIf (n < 0)
    setVctr u { v with isEarlyFreeable := true, numFreeIgnore := n.toNat % 2 ^ 16 }
  | .maxChnkIdx | .minChnkIdx | .width => pure ()
  | .lma | .hasParent | .nnKey | .hasNn | .isNn => goBYE

/-- `vctr_get_set`. A text that it does not know, for `meta` or for what to do
with it, is `none`. -/
def vctrGetSet (u : Nat) (what : Option Meta) (mode : Option Mode) (p : Ptrs) : M Got :=
  match mode with
  | none => goBYE
  | some mode => do
    let v ← getVctr u
    byeIf v.isError
    match what, mode with
    | none, _ => goBYE
    | some m, .get => getMeta v p m
    | some m, .set => do
      setMeta u v p m
      pure .nothing

/-! ## the others -/

/-- The pairs of types `vctr_cast` goes through. From the types of 4 and of 8 bytes
it goes anywhere: a `break` stands before the switch that would ask. -/
def castable : Qtype → Qtype → Bool
  | .BL, q | .I1, q | .UI1, q => q ∈ [.BL, .I1, .UI1]
  | .I2, q | .UI2, q | .F2, q => q ∈ [.I2, .UI2, .F2]
  | .I8, _ | .F8, _ | .UI8, _ => true
  | .I4, _ | .F4, _ | .UI4, _ => true
  | _, _ => false

/-- `vctr_cast` -/
def vctrCast (u : Nat) (strQtype : String) : M Unit := do
  let v ← getVctr u
  byeIf (castable v.qtype (getCQtype strQtype) = false)
  byeIf (v.numWriters > 0)
  byeIf (v.numReaders > 0)
  byeIf (v.isEov = false)
  setVctr u { v with qtype := getCQtype strQtype }

/-- `vctr_set_memo` -/
def vctrSetMemo (u : Nat) (memoLen : Int) : M Unit := do
  let v ← getVctr u
  byeIf (v.numElements > 0)
  byeIf v.isPersist
  byeIf v.isMemo
  onlyIf (memoLen ≠ 0) (setVctr u { v with isMemo := true, memoLen := (memoLen % 2 ^ 32).toNat })

/-- `vctr_set_num_kill_ignore` -/
def vctrSetNumKillIgnore (u : Nat) (numKillIgnore : Int) : M Unit := do
  byeIf (numKillIgnore < 0)
  byeIf (numKillIgnore ≥ 16)
  let v ← getVctr u
  byeIf (v.numElements > 0)
  byeIf v.isPersist
  byeIf v.isKillable
  byeIf v.isEov
  setVctr u { v with isKillable := true, numKillIgnore := numKillIgnore.toNat }

/-- `vctr_persist` -/
def vctrPersist (u : Nat) (bval : Bool) : M Unit := do
  let v ← getVctr u
  byeIf v.isError
  byeIf v.isKillable
  byeIf v.isEarlyFreeable
  byeIf v.isMemo
  setVctr u { v with isPersist := bval }

end QStore.Vctr
