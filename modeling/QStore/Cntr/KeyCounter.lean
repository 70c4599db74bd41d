import QStore.Hmap.Run
import QStore.Operators.LVector
import QStore.Lib.Pull

/-!
# QStore.Cntr.KeyCounter

`KeyCounter` (`RUNTIME/CNTR/lua/KeyCounter.lua`) and the three kernels it calls
(`TMPL_FIX_HASHMAP/KEY_COUNTER/src/`): it counts the rows of each key in a hash
map, and then numbers the rows so that those of one key lie together.

```
next              one chunk of rows into the map: count, and the order of arrival (guid)
make_cum_count    for each bucket, the rows of the buckets before it
make_permutation  one chunk of rows: cum_count of the bucket + rows seen there so far
```

The columns of a table are one vector of keys here: all have the same chunks,
and the key of a row is made of the bytes of its columns.
-/

namespace QStore.Cntr

open QStore.Hmap QStore.Operators Function

variable {K : Type} [Zero K] [DecidableEq K]

/-- `rs_hmap_val_t` of a key counter: two `uint32_t`. -/
structure Val where
  count : Nat
  guid : Nat
  deriving DecidableEq

instance : Zero Val := ⟨⟨0, 0⟩⟩

/-- `rsx_val_update` -/
def rsxValUpdate (v1 v2 : Val) : Int × Val :=
  if v1.guid = 0 then (-1, v1)
  else if v1.count = 0 then (-1, v1)
  else (0, { v1 with count := (v1.count + v2.count) % 2 ^ 32 })

/-- The function pointers of the map: `rsx_key_cmp` compares all bytes. -/
def kcFns (setHash : K → UInt64 → UInt32) : FnPtrs K Val where
  setHash := setHash
  keyCmp := fun a b => decide (a = b)
  valUpdate := rsxValUpdate
  keyCmp_iff := by simp

/-! ## counting -/

/-- `rsx_kc_put` of the rows from number `i` on; `draw i` is the hash key a resize
in the put of row `i` would draw. `none`: a put never returns. -/
def rsxKcPut (F : FnPtrs K Val) (draw : Nat → UInt64) :
    Nat → List K → RsHmap K Val → Option (Int × RsHmap K Val)
  | _, [], h => some (0, h)
  | i, key :: keys, h =>
      (rsHmapPut F (draw i) h key ⟨1, (h.nitems + 1) % 2 ^ 32⟩).bind fun r =>
        if r.1 < 0 then some r else rsxKcPut F draw (i + 1) keys r.2

/-- `KeyCounter`: `_H`, `_chunk_num` and `_is_eor`. -/
structure KeyCounter (K : Type) where
  H : RsHmap K Val
  chunkNum : Nat
  isEor : Bool

/-- `KeyCounter.new` -/
def KeyCounter.new (h : RsHmap K Val) : KeyCounter K := ⟨h, 0, false⟩

/-- `KeyCounter:next`: what it returns and the counter after it. `none`: an
assert fails. -/
def KeyCounter.next (F : FnPtrs K Val) (draw : Nat → UInt64) (vecs : LVector K)
    (kc : KeyCounter K) : Option (Bool × KeyCounter K) :=
  if kc.isEor then some (false, kc)
  else
    let chunk := vecs.getChunk kc.chunkNum
    if chunk.length = 0 then some (false, { kc with isEor := true })
    else
      (rsxKcPut F draw (kc.chunkNum * vecs.maxNumInChunk) chunk kc.H).bind fun r =>
        if r.1 ≠ 0 then none
        else if chunk.length < vecs.maxNumInChunk then
          some (false, { kc with H := r.2, isEor := true })
        else some (true, { kc with H := r.2, chunkNum := kc.chunkNum + 1 })

/-- `KeyCounter:eval`: `next` until it returns false. -/
inductive Evals (F : FnPtrs K Val) (draw : Nat → UInt64) (vecs : LVector K) :
    KeyCounter K → KeyCounter K → Prop
  | last {kc kc' : KeyCounter K} (h : kc.next F draw vecs = some (false, kc')) :
      Evals F draw vecs kc kc'
  | more {kc kc' kc'' : KeyCounter K} (h : kc.next F draw vecs = some (true, kc'))
      (hrest : Evals F draw vecs kc' kc'') : Evals F draw vecs kc kc''

/-! ## the permutation -/

/-- The loop of `rsx_kc_cum_count` over the first `n` buckets: `cum_count` and
`sum_count`. -/
def rsxKcCumCount (h : RsHmap K Val) : Nat → (Nat → Nat) × Nat
  | 0 => (fun _ => 0, 0)
  | n + 1 =>
      let r := rsxKcCumCount h n
      if h.bktFull n = false then (update r.1 n 0, r.2)
      else (update r.1 n r.2, (r.2 + (h.bkts n).val.count) % 2 ^ 64)

/-- One turn of the loop of `rsx_kc_make_permutation`: the place of the row, and
`run_count` after it. `runSize` entries are allocated for that. `none`: an error
status, or an access outside `run_count`. -/
def permuteRow (F : FnPtrs K Val) (h : RsHmap K Val) (sumCount runSize : Nat)
    (cumCount runCount : Nat → Nat) (key : K) : Option (Nat × (Nat → Nat)) :=
  let r := rsHmapGet F h key
  if r.status < 0 then none
  else if !r.isFound then none
  else if r.whereFound ≥ h.size then none
  else
    r.val.bind fun val =>
      if val.guid = 0 then none
      else if val.guid > h.nitems then none
      else
        let lCumCount := cumCount r.whereFound
        if lCumCount > sumCount then none
        else if r.whereFound ≥ runSize then none
        else
          let lRunCount := runCount r.whereFound
          if lRunCount ≥ val.count then none
          else
            let pos := (lCumCount + lRunCount) % 2 ^ 64
            if pos ≥ sumCount then none
            else some (pos, update runCount r.whereFound ((lRunCount + 1) % 2 ^ 32))

/-- `rsx_kc_make_permutation` -/
def rsxKcMakePermutation (F : FnPtrs K Val) (h : RsHmap K Val) (sumCount runSize : Nat)
    (cumCount : Nat → Nat) : (Nat → Nat) → List K → Option (List Nat × (Nat → Nat))
  | runCount, [] => some ([], runCount)
  | runCount, key :: keys =>
      (permuteRow F h sumCount runSize cumCount runCount key).bind fun r =>
        (rsxKcMakePermutation F h sumCount runSize cumCount r.2 keys).map fun s =>
          (r.1 :: s.1, s.2)

/-- What `gen` of `make_permutation` keeps between calls. -/
structure PermState where
  lChunkNum : Nat
  runCount : Nat → Nat

/-- Before the first call; `run_count` has been zeroed. -/
def permStart : PermState := ⟨0, fun _ => 0⟩

/-- `gen` of `make_permutation`. Its buffer holds `bufsz` entries,
`qcfg.max_num_in_chunk`, and `run_count` was allocated with `nitems` of them. -/
def permGen (F : FnPtrs K Val) (h : RsHmap K Val) (vecs : LVector K) (bufsz : Nat) :
    Gen PermState Nat := fun s chunkNum =>
  if chunkNum ≠ s.lChunkNum then none
  else
    let chunk := vecs.getChunk chunkNum
    -- at the end of the rows it calls `num_elments`, which a vector does not have
    if chunk.length = 0 then none
    else if chunk.length > bufsz then none
    else
      let cum := rsxKcCumCount h h.size
      (rsxKcMakePermutation F h cum.2 h.nitems cum.1 s.runCount chunk).map fun r =>
        (r.1, ⟨s.lChunkNum + 1, r.2⟩)

end QStore.Cntr
