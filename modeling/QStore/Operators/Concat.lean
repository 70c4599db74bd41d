import QStore.Lib.Paged
import QStore.Operators.LVector
import QStore.Qtype

/-!
# QStore.Operators.Concat

`concat` (`F1F2OPF3/lua/concat_specialize.lua`, `concat.tmpl`, `expander_f1f2opf3.lua`) puts the
bits of two elements next to each other, and `split` (`F1OPF2F3/lua/split_specialize.lua`,
`split.tmpl`, `expander_f1opf2f3.lua`) takes them apart.

```
in1        AB      out   00 AB 01 02      shift_by 16
in2     01 02
```

An element is its bits. `concat` reads and writes them unsigned, and `split` reads a signed type:
what it shifts has copies of the sign in front, which do not fit into what it writes.

`concat` makes an unsigned type unless it is asked for another one, and `split` takes the signed
ones only.
-/

namespace QStore.Operators

section Model

/-- How many bits an element has. -/
def bitsOf (q : Qtype) : Nat := 8 * getWidthCQtype q

/-- `set_defaults`: the type of the output, and `shift_by`. `none`: an assertion or an error. -/
def setDefaults (f1Qtype f2Qtype : Qtype) : Option (Qtype × Nat) :=
  match getWidthCQtype f1Qtype, getWidthCQtype f2Qtype with
  | 1, 1 => some (.UI16, 8)
  | 1, 2 => some (.UI4, 16)
  | 1, 4 => some (.UI8, 32)
  | 2, 1 => some (.UI4, 8)
  | 2, 2 => some (.UI4, 16)
  | 2, 4 => some (.UI8, 32)
  | 4, 1 => some (.UI8, 8)
  | 4, 2 => some (.UI8, 16)
  | 4, 4 => some (.UI8, 32)
  | 8, 1 => some (.UI8, 8)
  | 8, 2 => some (.UI8, 16)
  | 8, 4 => some (.UI8, 32)
  | _, _ => none

/-- What `concat_specialize` returns, as far as the kernel depends on it. -/
structure ConcatSubs where
  f3Qtype : Qtype
  shiftBy : Nat

/-- `concat_specialize`, with `optargs.f3_qtype` and `optargs.shift_by`. -/
def concatSpecialize (f1Qtype f2Qtype : Qtype) (optF3Qtype : Option Qtype)
    (optShiftBy : Option Int) : Option ConcatSubs :=
  if f1Qtype ∉ [.I1, .I2, .I4, .I8, .UI1, .UI2, .UI4, .UI8] then none
  else if f2Qtype ∉ [.I1, .I2, .I4, .I8, .UI1, .UI2, .UI4, .UI8] then none
  else
    match setDefaults f1Qtype f2Qtype with
    | none => none
    | some (q, shift) =>
        let f3Qtype := optF3Qtype.getD q
        let shiftBy := optShiftBy.getD shift
        if f3Qtype ∉ [.I2, .I4, .I8, .UI2, .UI4, .UI8] then none
        else if shiftBy ≥ 0 ∧ shiftBy < 63 then some ⟨f3Qtype, shiftBy.toNat⟩
        else none

/-- One round of `concat.tmpl`. -/
def concatOne (shiftBy w3 : Nat) {w1 w2 : Nat} (in1 : BitVec w1) (in2 : BitVec w2) : BitVec w3 :=
  let v1 := in1.setWidth 64
  let v2 := in2.setWidth 64
  ((v1 <<< shiftBy) ||| v2).setWidth w3

/-- `f3_gen` of `expander_f1f2opf3`, for `concat`. Its state is `l_chunk_num`. -/
def concatGen (subs : ConcatSubs) {w1 w2 : Nat} (f1 : LVector (BitVec w1))
    (f2 : LVector (BitVec w2)) : Gen Nat (BitVec (bitsOf subs.f3Qtype)) := fun lChunkNum chunkNum =>
  if chunkNum ≠ lChunkNum then none
  else
    let f1Chunk := f1.getChunk lChunkNum
    let f2Chunk := f2.getChunk lChunkNum
    if f1Chunk.length ≠ f2Chunk.length then none
    else if f1Chunk.length = 0 then some ([], lChunkNum)
    else
      some (f1Chunk.zipWith (concatOne subs.shiftBy (bitsOf subs.f3Qtype)) f2Chunk, lChunkNum + 1)

/-- `split_specialize`, with the two types of `optargs.out_qtypes`: `shift_by`. -/
def splitSpecialize (inQtype outQtype1 outQtype2 : Qtype) : Option Nat :=
  let validOutQtypes : Option (List Qtype) :=
    match inQtype with
    | .I8 => some [.I1, .I2, .I4]
    | .I4 => some [.I1, .I2]
    | .I2 => some [.I1]
    | _ => none
  let shiftBy : Option Nat :=
    match outQtype2 with
    | .I1 => some (1 * 8)
    | .I2 => some (2 * 8)
    | .I4 => some (4 * 8)
    | _ => none
  match validOutQtypes, shiftBy with
  | some valid, some shift => if outQtype1 ∈ valid ∧ outQtype2 ∈ valid then some shift else none
  | _, _ => none

/-- One round of `split.tmpl`. -/
def splitOne (shift w1 w2 : Nat) {w : Nat} (inp : BitVec w) : BitVec w1 × BitVec w2 :=
  let mask : BitVec 64 := (1 <<< shift) - 1
  let inv1 := inp.signExtend 64
  ((inv1 >>> shift).setWidth w1, (inv1 &&& mask).setWidth w2)

/-- `gens[i]` of `expander_f1opf2f3`, whichever of the two is called: the chunks go to both
vectors. -/
def splitGen (shift w1 w2 : Nat) {w : Nat} (x : LVector (BitVec w)) :
    Gen Nat (BitVec w1 × BitVec w2) := fun lChunkNum chunkNum =>
  if chunkNum ≠ lChunkNum then none
  else
    let inChunk := x.getChunk lChunkNum
    if inChunk.length = 0 then some ([], lChunkNum)
    else some (inChunk.map (splitOne shift w1 w2), lChunkNum + 1)

end Model

variable {f1Qtype f2Qtype q t1 t2 : Qtype} {subs : ConcatSubs} {shift w w1 w2 w3 i : Nat}

/-! ## the specializers -/

theorem setDefaults_shift {d : Qtype × Nat} (h : setDefaults f1Qtype f2Qtype = some d) :
    d.2 = bitsOf f2Qtype ∧ d.1 ∉ [Qtype.I2, .I4, .I8] := by
  rw [setDefaults] at h
  split at h <;> simp_all [bitsOf] <;> simp [← h]

/-- As it is asked to shift, or by the width of its second input. -/
theorem concatSpecialize_eq_some {optF3Qtype : Option Qtype}
    (h : concatSpecialize f1Qtype f2Qtype optF3Qtype none = some subs) :
    subs.shiftBy = bitsOf f2Qtype ∧ (∀ q, optF3Qtype = some q → subs.f3Qtype = q) ∧
      (optF3Qtype = none → subs.f3Qtype ∉ [Qtype.I2, .I4, .I8]) := by
  rw [concatSpecialize] at h
  split at h
  · contradiction
  split at h
  · contradiction
  split at h
  · contradiction
  next d hd =>
  obtain ⟨hshift, hq⟩ := setDefaults_shift hd
  simp only [Option.getD_none] at h
  split at h
  · contradiction
  split at h
  · obtain rfl := Option.some.inj h
    refine ⟨by simpa using hshift, ?_, ?_⟩
    · rintro q rfl
      rfl
    · rintro rfl
      exact hq
  · contradiction

/-- What `split` takes has room for the two types it gives. -/
theorem splitSpecialize_eq_some (h : splitSpecialize q t1 t2 = some shift) :
    shift = bitsOf t2 ∧ bitsOf t1 + bitsOf t2 ≤ bitsOf q ∧ bitsOf q ≤ 64 ∧ bitsOf t2 < 64 ∧
      q ∈ [Qtype.I2, .I4, .I8] := by
  simp only [splitSpecialize] at h
  split at h
  next valid s hvalid hs =>
    split at hvalid
    all_goals split at hs
    all_goals simp_all [bitsOf, getWidthCQtype]
    all_goals grind [getWidthCQtype]
  · contradiction

/-! ## one element -/

theorem getLsbD_concatOne (shiftBy : Nat) (in1 : BitVec w1) (in2 : BitVec w2) :
    (concatOne shiftBy w3 in1 in2).getLsbD i =
      (decide (i < w3) && decide (i < 64) &&
        (decide (shiftBy ≤ i) && in1.getLsbD (i - shiftBy) || in2.getLsbD i)) := by
  simp [concatOne]
  grind

/-- The mask has the bits under the shift. -/
theorem getLsbD_mask (hs : shift < 64) :
    ((1 <<< shift : BitVec 64) - 1).getLsbD i = decide (i < shift) := by
  have hpow : 2 ^ shift < 2 ^ 64 := Nat.pow_lt_pow_right (by decide) hs
  have hpos := Nat.two_pow_pos shift
  have hval : ((1 <<< shift : BitVec 64) - 1).toNat = 2 ^ shift - 1 := by
    simp [BitVec.toNat_sub, Nat.shiftLeft_eq]
    omega
  rw [← BitVec.testBit_toNat, hval, Nat.testBit_two_pow_sub_one]

/-- **One element**: where there is room for both, they come out as they went in. -/
theorem splitOne_concatOne (hfit : w1 + w2 ≤ w3) (h64 : w3 ≤ 64) (hs : w2 < 64) (in1 : BitVec w1)
    (in2 : BitVec w2) : splitOne w2 w1 w2 (concatOne w2 w3 in1 in2) = (in1, in2) := by
  have hmask : ∀ i, ((1 <<< w2 : BitVec 64) - 1).getLsbD i = decide (i < w2) :=
    fun i => getLsbD_mask hs
  refine Prod.ext (BitVec.eq_of_getLsbD_eq fun i hi => ?_) (BitVec.eq_of_getLsbD_eq fun i hi => ?_)
  · have hin2 : in2.getLsbD (w2 + i) = false := BitVec.getLsbD_of_ge _ _ (by omega)
    simp only [splitOne, BitVec.getLsbD_setWidth, BitVec.getLsbD_ushiftRight,
      BitVec.getLsbD_signExtend, getLsbD_concatOne, hin2]
    grind
  · simp only [splitOne, BitVec.getLsbD_setWidth, BitVec.getLsbD_and, hmask,
      BitVec.getLsbD_signExtend, getLsbD_concatOne]
    grind

/-! ## whole vectors -/

variable {f1 : LVector (BitVec w1)} {f2 : LVector (BitVec w2)}

/-- `concat` of two vectors of one length. -/
theorem concatGen_pulls (subs : ConcatSubs) (f1 : LVector (BitVec w1)) (f2 : LVector (BitVec w2))
    (hmax : f1.maxNumInChunk = f2.maxNumInChunk) (hlen : f1.elems.length = f2.elems.length) :
    ∃ outs, Pulls (concatGen subs f1 f2) f1.maxNumInChunk 0 0 outs ∧
      outs.flatten = f1.elems.zipWith (concatOne subs.shiftBy (bitsOf subs.f3Qtype)) f2.elems := by
  refine Pulls.of_counter f1.pos fun k => ?_
  have hsame : (f1.getChunk k).length = (f2.getChunk k).length := by
    rw [LVector.length_getChunk, LVector.length_getChunk, hmax, hlen]
  have hpage : page f1.maxNumInChunk
      (f1.elems.zipWith (concatOne subs.shiftBy (bitsOf subs.f3Qtype)) f2.elems) k =
      (f1.getChunk k).zipWith (concatOne subs.shiftBy (bitsOf subs.f3Qtype)) (f2.getChunk k) := by
    rw [page_zipWith, LVector.getChunk, LVector.getChunk, hmax]
  cases hchunk : f1.getChunk k with
  | nil => simp [concatGen, hpage, hchunk, ← hsame]
  | cons v rest =>
      obtain ⟨v', rest', hchunk'⟩ : ∃ v' rest', f2.getChunk k = v' :: rest' :=
        List.exists_cons_of_length_pos (by simp [← hsame, hchunk])
      simp [concatGen, hpage, hchunk, hchunk', hchunk ▸ hchunk' ▸ hsame]

/-- Two vectors it gets through have one length. Else it stops at the first chunk that is not full on
one side. -/
theorem concatGen_length (hmax : f1.maxNumInChunk = f2.maxNumInChunk)
    {outs : List (List (BitVec (bitsOf subs.f3Qtype)))}
    (h : Pulls (concatGen subs f1 f2) f1.maxNumInChunk 0 0 outs) :
    f1.elems.length = f2.elems.length := by
  by_contra hne
  have hpos := f1.pos
  let m := min f1.elems.length f2.elems.length / f1.maxNumInChunk
  have hm : m * f1.maxNumInChunk ≤ min f1.elems.length f2.elems.length := Nat.div_mul_le_self ..
  have hm' : min f1.elems.length f2.elems.length < m * f1.maxNumInChunk + f1.maxNumInChunk :=
    Nat.lt_div_mul_add hpos
  refine not_pulls_of_fail (fun s k => s = k) (m := m) ?_ ?_ rfl (Nat.zero_le m) h
  · rintro k _ out s' rfl hk hgen
    have hle : k * f1.maxNumInChunk + f1.maxNumInChunk ≤ m * f1.maxNumInChunk := by
      rw [← Nat.succ_mul]
      exact Nat.mul_le_mul_right _ hk
    have hlen1 : (f1.getChunk k).length = f1.maxNumInChunk := by
      rw [LVector.length_getChunk]
      omega
    have hlen2 : (f2.getChunk k).length = f1.maxNumInChunk := by
      rw [LVector.length_getChunk, ← hmax]
      omega
    simp only [concatGen, hlen1, hlen2] at hgen
    grind
  · rintro _ rfl
    have hlen : (f1.getChunk m).length ≠ (f2.getChunk m).length := by
      rw [LVector.length_getChunk, LVector.length_getChunk, ← hmax]
      omega
    simp [concatGen, hlen]

/-- `split` takes every element apart. -/
theorem splitGen_pulls (shift w1 w2 : Nat) (x : LVector (BitVec w)) :
    ∃ outs, Pulls (splitGen shift w1 w2 x) x.maxNumInChunk 0 0 outs ∧
      outs.flatten = x.elems.map (splitOne shift w1 w2) := by
  refine Pulls.of_counter x.pos fun k => ?_
  rw [page_map, ← LVector.getChunk]
  cases hchunk : x.getChunk k with
  | nil => simp [splitGen, hchunk]
  | cons v rest => simp [splitGen, hchunk]

/-- Both, of two columns of the widths that `split` gives. -/
theorem rows_toNat {n1 n2 : Nat} (h1 : n1 = w1) (h2 : n2 = w2) (hfit : n1 + n2 ≤ w3)
    (h64 : w3 ≤ 64) (hs : n2 < 64) {xs : List (BitVec w1)} {ys : List (BitVec w2)}
    (hlen : xs.length = ys.length) {rows : List (BitVec n1 × BitVec n2)}
    (hrows : rows = (xs.zipWith (concatOne n2 w3) ys).map (splitOne n2 n1 n2)) :
    rows.map (fun p => p.1.toNat) = xs.map BitVec.toNat ∧
      rows.map (fun p => p.2.toNat) = ys.map BitVec.toNat := by
  subst h1 h2
  have hzip : rows = xs.zip ys := by
    simp only [hrows, List.map_zipWith, splitOne_concatOne hfit h64 hs, List.zip]
  rw [hzip]
  constructor
  · calc (xs.zip ys).map (fun p => p.1.toNat)
        = ((xs.zip ys).map Prod.fst).map BitVec.toNat := by simp
      _ = xs.map BitVec.toNat := by rw [List.map_fst_zip hlen.le]
  · calc (xs.zip ys).map (fun p => p.2.toNat)
        = ((xs.zip ys).map Prod.snd).map BitVec.toNat := by simp
      _ = ys.map BitVec.toNat := by rw [List.map_snd_zip hlen.ge]

/-- **`split` undoes `concat`**: of whatever types the two take, and for chunks of any size, both
vectors come out with their bits. -/
theorem split_concat {f1 : LVector (BitVec (bitsOf f1Qtype))}
    {f2 : LVector (BitVec (bitsOf f2Qtype))} {optF3Qtype : Option Qtype}
    (hc : concatSpecialize f1Qtype f2Qtype optF3Qtype none = some subs)
    (hs : splitSpecialize subs.f3Qtype t1 t2 = some shift) (h1 : bitsOf t1 = bitsOf f1Qtype)
    (h2 : bitsOf t2 = bitsOf f2Qtype) (hmax : f1.maxNumInChunk = f2.maxNumInChunk)
    {zs : List (List (BitVec (bitsOf subs.f3Qtype)))}
    (hz : Pulls (concatGen subs f1 f2) f1.maxNumInChunk 0 0 zs) :
    ∃ outs, Pulls (splitGen shift (bitsOf t1) (bitsOf t2) ⟨zs.flatten, f1.maxNumInChunk, f1.pos⟩)
        f1.maxNumInChunk 0 0 outs ∧
      outs.flatten.map (fun p => p.1.toNat) = f1.elems.map BitVec.toNat ∧
      outs.flatten.map (fun p => p.2.toNat) = f2.elems.map BitVec.toNat := by
  have hlen := concatGen_length hmax hz
  obtain ⟨zs', hz', hflat⟩ := concatGen_pulls subs f1 f2 hmax hlen
  obtain rfl := hz.unique hz'
  obtain ⟨outs, hpulls, hout⟩ := splitGen_pulls shift (bitsOf t1) (bitsOf t2)
    ⟨zs.flatten, f1.maxNumInChunk, f1.pos⟩
  obtain ⟨hshift, -⟩ := concatSpecialize_eq_some hc
  obtain ⟨rfl, hfit, h64, hs64, -⟩ := splitSpecialize_eq_some hs
  refine ⟨outs, hpulls, rows_toNat h1 h2 hfit h64 hs64 hlen ?_⟩
  rw [hout, hflat, hshift, h2]

/-- Three pairs, two a chunk. -/
theorem split_concat_three : ∃ zs outs,
    Pulls (concatGen ⟨.I4, 8⟩ (⟨[258, 0, 65535], 2, by decide⟩ : LVector (BitVec (bitsOf .I2)))
      (⟨[7, 255, 0], 2, by decide⟩ : LVector (BitVec (bitsOf .UI1)))) 2 0 0 zs ∧
    Pulls (splitGen 8 (bitsOf .I2) (bitsOf .I1) ⟨zs.flatten, 2, by decide⟩) 2 0 0 outs ∧
      outs.flatten.map (fun p => p.1.toNat) = [258, 0, 65535] ∧
      outs.flatten.map (fun p => p.2.toNat) = [7, 255, 0] := by
  obtain ⟨zs, hz, -⟩ := concatGen_pulls ⟨.I4, 8⟩
    (⟨[258, 0, 65535], 2, by decide⟩ : LVector (BitVec (bitsOf .I2)))
    (⟨[7, 255, 0], 2, by decide⟩ : LVector (BitVec (bitsOf .UI1))) rfl rfl
  have hc : concatSpecialize .I2 .UI1 (some .I4) none = some ⟨.I4, 8⟩ := rfl
  have hs : splitSpecialize .I4 .I2 .I1 = some 8 := rfl
  obtain ⟨outs, hpulls, h⟩ := split_concat hc hs rfl rfl rfl hz
  exact ⟨zs, outs, hz, hpulls, h⟩

end QStore.Operators
