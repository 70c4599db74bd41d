import QStore.Cntr.Permutation
import QStore.Lib.Paged

/-!
# QStore.Cntr.MapOut

`KeyCounter:get_hidx` and `KeyCounter:map_out` (`RUNTIME/CNTR/lua/KeyCounter.lua`) with their kernels
`rsx_kc_get_idx` and `rsx_kc_map_out_native`. The one finds the bucket of each row, the other puts a
field of the buckets in their places:

```
rows      b a b          hidx      17 4 17
          counted a b a  count      1 2 1       guid   2 1 2
```

Together they join rows with what was counted (`mapOut_getHidx`). A row whose key was not counted is
an error: the zero key, which `rs_hmap_get` may find in an empty bucket, has no `guid` there.

The rows come in chunks of the vectors that were counted, and the vector of buckets has the chunks of
`qcfg`. Where these differ it ends with the first chunk, or the buffer is too small for that.
-/

namespace QStore.Cntr

open QStore.Hmap QStore.Operators QStore.Grouping QStore.Ring

section Model

variable {K : Type}

/-- The fields that `map_out` maps out. For one of `auxvals` it ends in an error, "TBC". -/
inductive MapFld
  | count
  | guid

end Model

variable {K : Type} [DecidableEq K] [Zero K] {setHash : K → UInt64 → UInt32}
  {F : FnPtrs K Val} {h : RsHmap K Val} {rows : List K} {keys : LVector K} {k : K}
  {left myPsl p bufsz : Nat} {fld : MapFld}

/-- What the rows say of a key. -/
def MapFld.ofRows (rows : List K) : MapFld → K → Nat
  | .count, k => rows.count k % 2 ^ 32
  | .guid, k => rank rows k

/-! ## one row -/

variable {hidx : LVector Nat} {vecs : LVector K} {kc : KeyCounter K}

variable {draw : Nat → UInt64} {hc : HmapConfig} {hashkey : UInt64} {loads : Bool}
  {h₀ : RsHmap K Val}

end QStore.Cntr
