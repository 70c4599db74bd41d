import QStore.Lib.Double
import QStore.Lib.WeightedRank
import QStore.Lib.Rounding
import Mathlib.Data.Rat.Floor

/-!
# QStore.Approx.Quantile

Quantiles of a stream in one pass, after `src/approx_quantile.c`, `src/determine_b_k.c`,
`src/New.c`, `src/Collapse.c` and `src/slow_output.c` of `approxalgos/ApproxQuantile`.

```
in_buffer [k]  -- full, sorted -->  New  -->  a free one of the b buffers, weight 1
two buffers of one weight      --> Collapse --> one buffer, the weights added
all buffers and in_buffer      --> slow_output --> quantiles [num_quantiles]
```

A result of `none` is a status other than zero or undefined behaviour.
-/

namespace QStore.Approx

/-- `approx_quantile_state_t`. `in_buffer` is given as its first `n_in_buffer` values, and
`n_input_vals` as a number of which only the conversion to `int` is read. -/
structure State where
  nInputVals : Nat
  nInputValsEstimate : Nat
  b : Nat
  k : Nat
  numEmptyBuffers : Nat
  buffer : List (List Double)
  weight : List Nat
  quantiles : List Double
  numQuantiles : Nat
  eps : ℚ
  inBuffer : List Double

/-! ## `determine_b_k` -/

/-- The search for `b`. The power and the sum are exact, or rounded down where they have
more than 53 bits, which changes no comparison with a binary64 number. -/
def bLoop (x : ℚ) : Nat → Nat → Nat
  | 0, b => b
  | fuel + 1, b =>
      if (((b - 2) * 2 ^ (b - 2) + 1 : Nat) : ℚ) < x then bLoop x fuel (b + 1) else b

/-- `determine_b_k`: the number of buffers, and their size converted to `int`. -/
def determineBK (R : Rounding 53) (eps : ℚ) (est : Nat) : Nat × Int :=
  let x := R.rnd (eps * R.rnd est)
  let b := bLoop x ⌈x⌉₊ 2 - 1
  let share := R.rnd est / 2 ^ (b - 1)
  let k := if est % 2 ^ (b - 1) = 0 then ⌊share⌋ else ⌊R.rnd (share + 1)⌋
  (b, k.bmod (2 ^ 32))

/-- As many turns as `x` rounded up are enough: the search has ended by then. -/
theorem bLoop_done {x : ℚ} {fuel b : Nat} (h2 : 2 ≤ b) (h : x ≤ (fuel + (b - 2) : Nat)) :
    ¬ ((((bLoop x fuel b - 2) * 2 ^ (bLoop x fuel b - 2) + 1 : Nat) : ℚ) < x) := by
  induction fuel generalizing b with
  | zero =>
      have hle : b - 2 ≤ (b - 2) * 2 ^ (b - 2) + 1 :=
        (Nat.le_mul_of_pos_right _ (by positivity)).trans (Nat.le_succ _)
      rw [bLoop, not_lt]
      exact h.trans (by exact_mod_cast by omega)
  | succ fuel ih =>
      rw [bLoop]
      split
      · exact ih (by omega) (h.trans (by exact_mod_cast by omega))
      · assumption

theorem le_bLoop {x : ℚ} {fuel b : Nat} : b ≤ bLoop x fuel b := by
  induction fuel generalizing b with
  | zero => exact le_refl b
  | succ fuel ih =>
      rw [bLoop]
      split
      · exact (Nat.le_succ b).trans ih
      · exact le_refl b

/-- It passes only what is too small. -/
theorem bLoop_le {x : ℚ} {fuel b c : Nat} (hc : b ≤ c)
    (h : x ≤ ((c - 2) * 2 ^ (c - 2) + 1 : Nat)) : bLoop x fuel b ≤ c := by
  induction fuel generalizing b with
  | zero => exact hc
  | succ fuel ih =>
      rw [bLoop]
      split
      · next hlt =>
        have hne : b ≠ c := by
          rintro rfl
          exact absurd h (not_le.mpr hlt)
        exact ih (by omega)
      · exact hc

/-- **The number of buffers** is one less than the least `b`, from 2 on, that is large enough. -/
theorem determineBK_isLeast (R : Rounding 53) (eps : ℚ) (est : Nat) :
    IsLeast {b : Nat | 2 ≤ b ∧ R.rnd (eps * R.rnd est) ≤ ((b - 2) * 2 ^ (b - 2) + 1 : Nat)}
      ((determineBK R eps est).1 + 1) := by
  have hle : 2 ≤ bLoop (R.rnd (eps * R.rnd est)) ⌈R.rnd (eps * R.rnd est)⌉₊ 2 := le_bLoop
  have hb : (determineBK R eps est).1 + 1 =
      bLoop (R.rnd (eps * R.rnd est)) ⌈R.rnd (eps * R.rnd est)⌉₊ 2 :=
    Nat.sub_add_cancel (by omega)
  rw [hb]
  constructor
  · exact ⟨hle, not_lt.mp (bLoop_done (le_refl 2) (by simpa using Nat.le_ceil _))⟩
  · intro c hc
    exact bLoop_le hc.1 hc.2

/-! ## `approx_quantile_make` -/

/-- `MAX_SZ` -/
def maxSz : Nat := 1048576

/-- What `approx_quantile_make` fails with. -/
inductive MakeError where
  /-- `-1` without a code -/
  | badInput
  /-- `EPS_OR_SIZ_BAD` -/
  | epsOrSizBad
  /-- `SIZ_INCONSISTENT_WITH_EPS` -/
  | sizInconsistentWithEps
  /-- The test of the memory needed overflows an `int`. -/
  | overflow
deriving DecidableEq

/-- `approx_quantile_make` -/
def approxQuantileMake (R : Rounding 53) (numQuantiles : Int) (est : Nat) (eps : ℚ) :
    Except MakeError State :=
  if eps < 0 ∨ eps > 1 then .error .badInput
  else if numQuantiles < 1 then .error .badInput
  else
    let est := if est = 0 then 1048576 else est
    let (b, k) := determineBK R eps est
    if b = 0 ∨ k ≤ 0 then .error .epsOrSizBad
    else if 2 ^ 31 ≤ (b + 1 + 10) * k then .error .overflow
    else if (b + 1 + 10) * k > maxSz then .error .sizInconsistentWithEps
    else .ok
      { nInputVals := 0
        nInputValsEstimate := est
        b := b
        k := k.toNat
        numEmptyBuffers := b
        buffer := List.replicate b (List.replicate k.toNat .zero)
        weight := List.replicate b 0
        quantiles := List.replicate numQuantiles.toNat .zero
        numQuantiles := numQuantiles.toNat
        eps := eps
        inBuffer := [] }

/-! ## `New` and `Collapse` -/

/-- `memcpy(dst, src, k * sizeof(int))` on arrays of `double`: half of the bytes. The
last number of an odd half gets its low four bytes. -/
def memcpyInts (dst src : List Double) (k : Nat) : List Double :=
  src.take (k / 2) ++
    if k % 2 = 0 then dst.drop (k / 2)
    else (dst.getD (k / 2) .zero).withLow (src.getD (k / 2) .zero) :: dst.drop (k / 2 + 1)

/-- The merge of two sorted buffers, each value with its weight. -/
def mergeBufs (w₁ w₂ : Nat) : List Double → List Double → List (Double × Nat)
  | [], buf2 => buf2.map (·, w₂)
  | buf1, [] => buf1.map (·, w₁)
  | x :: buf1, y :: buf2 =>
      if x ≤ y then (x, w₁) :: mergeBufs w₁ w₂ buf1 (y :: buf2)
      else (y, w₂) :: mergeBufs w₁ w₂ (x :: buf1) buf2
termination_by buf1 buf2 => buf1.length + buf2.length

/-- `tempBuffer` is an array of `int`: every value is converted when it is stored. -/
def toTempBuffer : List (Double × Nat) → Option (List (Int32 × Nat))
  | [] => some []
  | (x, w) :: l => do
      let z ← x.toInt32
      let rest ← toTempBuffer l
      return (z, w) :: rest

/-- `while ( kk >= offSet+jj*outWeight )`: how often one value is stored. There is room
for `room` more values in the buffer, and no room is undefined behaviour. -/
def storeTurns (kk offSet outWeight : Nat) : Nat → Nat → Option Nat
  | 0, jj => if offSet + jj * outWeight ≤ kk then none else some 0
  | room + 1, jj =>
      if offSet + jj * outWeight ≤ kk then
        (storeTurns kk offSet outWeight room (jj + 1)).map (· + 1)
      else some 0

/-- `while ( ii < 2*k )`: the values of `buf1` from `jj` on. -/
def storeLoop (offSet outWeight k : Nat) : List (Int32 × Nat) → Nat → Nat → Option (List Double)
  | [], _, _ => some []
  | (z, w) :: l, kk, jj => do
      let n ← storeTurns (kk + w) offSet outWeight (k - jj) jj
      let rest ← storeLoop offSet outWeight k l (kk + w) (jj + n)
      return List.replicate n (Double.ofInt32 z) ++ rest

/-- `Collapse`: what `buf1` holds afterwards. `2*k` and `outWeight` are of type `int`. -/
def collapse (buf1 buf2 : List Double) (w₁ w₂ k : Nat) : Option (List Double) :=
  if w₁ = 0 ∨ w₂ = 0 then none
  else if 2 ^ 31 ≤ 2 * k ∨ 2 ^ 31 ≤ w₁ + w₂ then none
  else do
    let temp ← toTempBuffer (mergeBufs w₁ w₂ buf1 buf2)
    let stored ← storeLoop ((w₁ + w₂) / 2) (w₁ + w₂) k temp 0 0
    return stored ++ buf1.drop stored.length

/-! ## `approx_quantile_exec` and `approx_quantile_add` -/

/-- `bufidx2` for one `bufidx1`: the next buffer of the same weight. -/
def findSame (weight : List Nat) (w : Nat) (j : Nat) : Nat → Option Nat
  | 0 => none
  | n + 1 => if weight.getD j 0 = w then some j else findSame weight w (j + 1) n

/-- Two buffers of one weight, the first such pair. `none` in the first component is the
failure at an empty buffer. -/
def findPair (weight : List Nat) (b : Nat) (i : Nat) : Nat → Option (Nat × Nat)
  | 0 => none
  | n + 1 =>
      if weight.getD i 0 = 0 then none
      else
        match findSame weight (weight.getD i 0) (i + 1) (b - (i + 1)) with
        | some j => some (i, j)
        | none => findPair weight b (i + 1) n

/-- Steps (2) and (3b): room for a packet, by a collapse where no buffer is free. -/
def makeRoom (s : State) : Option State :=
  if s.numEmptyBuffers = 0 then do
    let (i, j) ← findPair s.weight s.b 0 (s.b - 1)
    let w₁ := s.weight.getD i 0
    let w₂ := s.weight.getD j 0
    let buf ← collapse (s.buffer.getD i []) (s.buffer.getD j []) w₁ w₂ s.k
    return { s with
      buffer := s.buffer.set i buf
      weight := (s.weight.set i (w₁ + w₂)).set j 0
      numEmptyBuffers := 1 }
  else some s

/-- `approx_quantile_exec`; `qsortAsc` is the function `qsort_asc_F8`. -/
def approxQuantileExec (qsortAsc : List Double → List Double) (s : State) : Option State :=
  if s.k ≠ s.inBuffer.length then none
  else do
    let packet := qsortAsc s.inBuffer
    let s ← makeRoom s
    let i := s.weight.findIdx (· = 0)
    if i ≥ s.b then none
    else
      return { s with
        buffer := s.buffer.set i (memcpyInts (s.buffer.getD i []) packet s.k)
        weight := s.weight.set i 1
        numEmptyBuffers := s.numEmptyBuffers - 1
        inBuffer := [] }

/-- `approx_quantile_add` -/
def approxQuantileAdd (qsortAsc : List Double → List Double) (s : State) (val : Double) :
    Option State :=
  let s := { s with nInputVals := s.nInputVals + 1 }
  let s := if s.inBuffer.length < s.k then { s with inBuffer := s.inBuffer ++ [val] } else s
  if s.inBuffer.length < s.k then some s else approxQuantileExec qsortAsc s

/-! ## `slow_output` and `approx_quantile_read` -/

/-- The values with their weights, as the array `final` lists them before it is sorted. -/
def finalRecs (buffer : List (List Double)) (weight : List Nat) (lastPacket : List Double) :
    List (Double × Nat) :=
  ((buffer.zip weight).flatMap fun bw => bw.1.map (·, bw.2)) ++ lastPacket.map (·, 1)

/-- The pass over the sorted array. -/
def quantileLoop (nPerQuantile numQuantiles : Nat) :
    List (Double × Nat) → Nat → Nat → List Double → List Double
  | [], _, _, quantiles => quantiles
  | e :: l, cumWt, qidx, quantiles =>
      if (qidx + 1) * nPerQuantile ≤ cumWt + e.2 then
        if numQuantiles ≤ qidx then quantiles
        else if qidx + 1 = numQuantiles then quantiles.set qidx e.1
        else
          quantileLoop nPerQuantile numQuantiles l (cumWt + e.2) (qidx + 1)
            (quantiles.set qidx e.1)
      else quantileLoop nPerQuantile numQuantiles l (cumWt + e.2) qidx quantiles

/-- `slow_output`. The array is sorted by merging, which takes from the left unless
`sortcompare` is positive. -/
def slowOutput (buffer : List (List Double)) (weight : List Nat) (lastPacket : List Double)
    (quantiles : List Double) (numQuantiles : Nat) (n : Int) (b k : Nat) :
    Option (List Double) :=
  if n < 1 ∨ k < 1 ∨ b < 1 ∨ lastPacket.length > k then none
  else if 2 ^ 31 ≤ numQuantiles + 1 then none
  else
    let final := (finalRecs buffer weight lastPacket).mergeSort fun r₁ r₂ => ¬ r₂.1 < r₁.1
    let nPerQuantile := n.toNat / (numQuantiles + 1)
    some (quantileLoop nPerQuantile numQuantiles final 0 0 quantiles)

/-- `approx_quantile_read` -/
def approxQuantileRead (qsortAsc : List Double → List Double) (s : State) : Option State := do
  let n := Int.bmod s.nInputVals (2 ^ 32)
  let inBuffer := if s.inBuffer.length < s.k then qsortAsc s.inBuffer else s.inBuffer
  let quantiles ← slowOutput s.buffer s.weight inBuffer s.quantiles s.numQuantiles n s.b s.k
  return { s with inBuffer := inBuffer, quantiles := quantiles }

end QStore.Approx
