import QStore.Vctr.Lma
import QStore.Vctr.Mem

/-!
# QStore.Vctr.LmaToChnks

The chunks of a vector brought back from its linear file (`vctr_lma_to_chnks.c`).

```
linear file    page 0 | page 1 | page 2
chunk          memory | file   | neither        what it has stays; a file is read into memory
                                 ↳ memory (level 1) or file (level 2), from page 2
```

As in `QStore.Vctr.Lma`, what `mk_file` fills a file with is `blank`.
-/

namespace QStore.Vctr

open Function

/-- What `vctr_lma_to_chnks` does with a chunk that has no tier of its own; `x` is the linear
file. -/
def copyFromLma (blank : Nat → List UInt8) (u : Nat) (v : VctrVal) (x : Option Mapping)
    (level i : Nat) : M Unit := do
  let c ← getChnk u i
  -- `(uint64_t)(v.width*chnk_idx)*(uint64_t)v.max_num_in_chnk`
  let off := u64 (u32 (v.width * i) * v.maxNumInChnk)
  let bytesToCopy := u32 (v.width * c.numElements)
  if level = 1 then do
    let b ← memalign c.size
    let y ← readMapping x off bytesToCopy
    let b ← poke b 0 y
    setChnk u i { c with l1Mem := some b }
    ignoreStatus (incrMem c.size)
  else do
    byeIf c.l2Exists
    let f ← l2Name u i
    writeFile f (blank c.size)
    let _ ← rsMmap f
    let y ← readMapping x off bytesToCopy
    storeFile f 0 y
    setChnk u i { c with l2Exists := true }
    ignoreStatus (incrDsk c.size)

/-- One round of its loop. `chnk_get_data` counts a reader, also where it fails; the count is put
back at the end of the round. -/
def resurrectChnk (blank : Nat → List UInt8) (u : Nat) (v : VctrVal) (x : Option Mapping)
    (level i : Nat) : M Unit := do
  let pre := (← getChnk u i).numReaders
  match ← chnkGetData u i false with
  | some _ => pure ()
  | none => copyFromLma blank u v x level i
  modChnk u i fun c => { c with numReaders := pre }

/-- The number of chunks it makes. -/
def VctrVal.numChnks (v : VctrVal) : Nat :=
  let n := u32 (v.numElements / v.maxNumInChnk)
  if u32 (n * v.maxNumInChnk) ≠ v.numElements then u32 (n + 1) else n

/-- `vctr_lma_to_chnks`. It works on a copy of the vector's entry: a mapping that it takes down at
the end, but did not make, is left in the table. -/
def vctrLmaToChnks (blank : Nat → List UInt8) (u level : Nat) : M Unit := do
  byeIf (u = 0)
  byeIf (¬ (level = 1 ∨ level = 2))
  let v ← getVctr u
  byeIf (v.isLma = false)
  byeIf (v.isEov = false)
  byeIf v.isKillable
  byeIf v.isEarlyFreeable
  byeIf v.isMemo
  byeIf (v.numReaders ≠ 0)
  byeIf (v.numWriters ≠ 0)
  let file ← mmapBytes (lmaFile u)
  byeIf (file = [])
  let x ← match v.x with
    | some m => pure (some m)
    | none => rsMmap (lmaFile u)
  byeIf (nX x = 0)
  byeIf (v.maxNumInChnk = 0)
  forUp (resurrectChnk blank u v x level) 0 v.numChnks
  modVctr u fun w => { w with x := w.x.map fun m => { m with live := false } }

end QStore.Vctr
