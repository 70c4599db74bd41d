import QStore.Lib.Paged

/-!
# QStore.Operators.SToF

The vectors that are made of a few scalars (`S_TO_F/lua/expander_s_to_f.lua`): `const`
(`const.tmpl`), `seq` (`seq.tmpl`) and `period` (`period.tmpl`).

```
seq      start 5, by 3               5  8 11 14 17 20 …
period   start 5, by 3, period 3     5  8 11  5  8 11 …
```

A call makes one chunk. Its kernel is given the position of the first element and starts from there,
in 64 bits, and then goes on in the type of the output. To add up signed values of 32 bits or more
that leave the type is undefined; a kernel does so also behind the last element of a chunk.

The period is an `I4`, of which `period_specialize.lua` reads as many bits as the output has.
-/

namespace QStore.Operators

section Model

variable {α σ : Type}

/-- The loop of a kernel: an element from where it is, and on. `none`: what it does is undefined. -/
def emit (next : σ → Option σ) (out : σ → α) : Nat → σ → Option (List α)
  | 0, _ => some []
  | n + 1, s => (next s).bind fun s' => (emit next out n s').map (out s :: ·)

variable {w : Nat}

/-- `uint64_t` of an element. -/
def toU64 (isSigned : Bool) (v : BitVec w) : BitVec 64 :=
  if isSigned then v.signExtend 64 else v.setWidth 64

/-- `j += by` -/
def plusBy (isSigned : Bool) (by' j : BitVec w) : Option (BitVec w) :=
  if isSigned ∧ 32 ≤ w ∧ j.saddOverflow by' then none else some (j + by')

/-- `const.tmpl` -/
def constKernel (val : α) (nX _lb : Nat) : Option (List α) :=
  if nX = 0 then none else some (List.replicate nX val)

/-- `seq.tmpl` -/
def seqKernel (isSigned : Bool) (start by' : BitVec w) (nX idx : Nat) : Option (List (BitVec w)) :=
  let start := (toU64 isSigned start + BitVec.ofNat 64 idx * toU64 isSigned by').setWidth w
  emit (plusBy isSigned by') id nX start

/-- The period that `period_specialize` hands on: the member of the scalar's union is that of the
type of the output, one of `I1`, `I2`, `I4` and `I8`, and becomes an `int`. -/
def readPeriod (w : Nat) (period : BitVec 32) : BitVec 32 :=
  if w ≤ 32 then (period.setWidth w).signExtend 32 else period

/-- The loop of `period.tmpl`, with `offset`, an `int`, and `j`. -/
def periodNext (start by' : BitVec w) (period : BitVec 32) (s : BitVec 32 × BitVec w) :
    Option (BitVec 32 × BitVec w) :=
  if s.1 = BitVec.intMax 32 then none
  else if s.1 + 1 = period then some (0, start)
  else (plusBy true by' s.2).map fun j => (s.1 + 1, j)

/-- `period.tmpl`; the remainder is one of `uint64_t`. -/
def periodKernel (start by' : BitVec w) (period : BitVec 32) (nX idx : Nat) :
    Option (List (BitVec w)) :=
  if period = 0 then none
  else
    let offset := idx % (period.signExtend 64).toNat
    let j := (toU64 true start + toU64 true by' * BitVec.ofNat 64 offset).setWidth w
    emit (periodNext start by' period) Prod.snd nX (BitVec.ofNat 32 offset, j)

/-- `generator` of `expander_s_to_f`. Its state is `l_chunk_num`. -/
def sToFGen (kernel : Nat → Nat → Option (List α)) (len maxNumInChunk : Nat) : Gen Nat α :=
  fun lChunkNum chunkNum =>
    if chunkNum ≠ lChunkNum then none
    else
      let lb := maxNumInChunk * lChunkNum
      if lb ≥ len then some ([], lChunkNum)
      else
        let numElements := if len - lb > maxNumInChunk then maxNumInChunk else len - lb
        if numElements ≤ 0 then some ([], lChunkNum)
        else (kernel numElements lb).map fun buf => (buf, lChunkNum + 1)

end Model

variable {α σ : Type} {w len n p m k : Nat} {isSigned : Bool} {start by' : BitVec w}
  {next : σ → Option σ} {out : σ → α} {st : Nat → σ} {kernel : Nat → Nat → Option (List α)}
  {f : Nat → α} {good : Nat → Prop}

/-! ## the loop and the generator -/

/-- A loop that is at `st i` for element `i`. -/
theorem emit_eq (h : ∀ i < n, next (st (p + i)) = some (st (p + i + 1))) :
    emit next out n (st p) = some ((List.range n).map fun i => out (st (p + i))) := by
  induction n generalizing p with
  | zero => rfl
  | succ n ih =>
      have hfirst : next (st p) = some (st (p + 1)) := h 0 (Nat.succ_pos n)
      have hrest : emit next out n (st (p + 1)) =
          some ((List.range n).map fun i => out (st (p + 1 + i))) :=
        ih fun i hi => by
          have := h (i + 1) (by omega)
          rwa [← Nat.add_assoc, Nat.add_right_comm p i 1] at this
      rw [emit, hfirst, Option.bind_some, hrest, Option.map_some, List.range_succ_eq_map]
      simp [Function.comp_def, Nat.add_assoc, Nat.add_comm 1]

/-- One that gives anything has gone on from each element. -/
theorem isSome_of_emit (hnext : ∀ i s, next (st i) = some s → s = st (i + 1)) {ys : List α}
    (h : emit next out n (st p) = some ys) : ∀ i < n, next (st (p + i)) = some (st (p + i + 1)) := by
  induction n generalizing p ys with
  | zero => simp
  | succ n ih =>
      obtain ⟨s, hs, hrest⟩ := Option.bind_eq_some_iff.mp h
      obtain ⟨ys', hys', -⟩ := Option.map_eq_some_iff.mp hrest
      obtain rfl := hnext p s hs
      intro i hi
      cases i with
      | zero => exact hs
      | succ i =>
          have := ih hys' i (by omega)
          rwa [Nat.add_right_comm p 1 i] at this

/-- A kernel that gives the elements from `lb` on, if all of them are good, and else fails. -/
structure Makes (kernel : Nat → Nat → Option (List α)) (len : Nat) (f : Nat → α)
    (good : Nat → Prop) : Prop where
  made : ∀ n lb, 0 < n → lb + n ≤ len → (∀ i < n, good (lb + i)) →
    kernel n lb = some ((List.range n).map fun i => f (lb + i))
  good : ∀ n lb ys, lb + n ≤ len → kernel n lb = some ys → ∀ i < n, good (lb + i)

/-- A call, whose chunk is page `k` of what is made. -/
theorem sToFGen_eq (hm : 0 < m) : sToFGen kernel len m k k =
    if len ≤ k * m then some ([], k)
    else (kernel (min m (len - k * m)) (k * m)).map fun buf => (buf, k + 1) := by
  rw [sToFGen, if_neg (not_not_intro rfl), Nat.mul_comm m k]
  by_cases hlen : len ≤ k * m
  · simp [hlen]
  · have hnum : (if len - k * m > m then m else len - k * m) = min m (len - k * m) := by
      split <;> omega
    simp only [hnum, if_neg hlen]
    rw [if_neg (by omega)]

/-- A call that does not fail gives its page, of good elements. -/
theorem Makes.gen_eq_some (hk : Makes kernel len f good) (hm : 0 < m) {s s' : Nat} {buf : List α}
    (h : sToFGen kernel len m s k = some (buf, s')) :
    buf = page m ((List.range len).map f) k ∧
      ∀ i < (page m ((List.range len).map f) k).length, good (k * m + i) := by
  have hs : k = s := by
    by_contra hne
    simp [sToFGen, hne] at h
  subst hs
  rw [sToFGen_eq hm] at h
  rw [page_map_range, List.length_map, List.length_range]
  split at h
  next hlen =>
    obtain ⟨rfl, -⟩ := Prod.mk.inj (Option.some.inj h)
    have hzero : min m (len - k * m) = 0 := by omega
    simp [hzero]
  next hlen =>
    obtain ⟨ys, hys, hout⟩ := Option.map_eq_some_iff.mp h
    obtain ⟨rfl, -⟩ := Prod.mk.inj hout
    have hgood := hk.good _ _ _ (by omega) hys
    have hmade := hk.made _ _ (by omega) (by omega) hgood
    exact ⟨Option.some.inj (hys.symm.trans hmade), hgood⟩

/-- **The whole vector**, whatever the size of a chunk: it is pulled empty if and only if all its
elements are good, and then it has them. -/
theorem Makes.pulls_iff (hk : Makes kernel len f good) (hm : 0 < m) :
    ((∃ outs, Pulls (sToFGen kernel len m) m 0 0 outs) ↔ ∀ i < len, good i) ∧
    ∀ outs, Pulls (sToFGen kernel len m) m 0 0 outs → outs.flatten = (List.range len).map f := by
  have hpulled : ∀ outs, Pulls (sToFGen kernel len m) m 0 0 outs →
      outs.flatten = (List.range len).map f ∧ ∀ i < len, good i := by
    intro outs h
    obtain ⟨hflat, hgood⟩ := h.forall_pages ((List.range len).map f) good
      fun s k buf s' => hk.gen_eq_some hm
    exact ⟨by simpa using hflat, fun i hi => hgood i (by simpa using hi) (by simp)⟩
  refine ⟨⟨fun ⟨outs, h⟩ => (hpulled outs h).2, fun hgood => ?_⟩, fun outs h => (hpulled outs h).1⟩
  have hgen : ∀ k, sToFGen kernel len m k k =
      if page m ((List.range len).map f) k = [] then some ([], k)
      else some (page m ((List.range len).map f) k, k + 1) := by
    intro k
    rw [sToFGen_eq hm, page_map_range]
    by_cases hlen : len ≤ k * m
    · simp [hlen]
    · have hne : min m (len - k * m) ≠ 0 := by omega
      have hmade := hk.made (min m (len - k * m)) (k * m) (by omega) (by omega)
        fun i hi => hgood _ (by omega)
      simp [hlen, hne, hmade]
  obtain ⟨outs, h, -⟩ := Pulls.of_counter hm hgen
  exact ⟨outs, h⟩

/-! ## const, seq and period -/

theorem const_makes (val : α) (len : Nat) : Makes (constKernel val) len (fun _ => val) fun _ => True where
  made n lb hn _ _ := by simp [constKernel, Nat.ne_of_gt hn]
  good := by simp

/-- **`const`**, whatever the size of a chunk: it is pulled empty, and is that value `len` times. -/
theorem const_pulls (hm : 0 < m) (val : α) (len : Nat) :
    ∃ outs, Pulls (sToFGen (constKernel val) len m) m 0 0 outs ∧
      outs.flatten = List.replicate len val := by
  obtain ⟨hiff, hflat⟩ := (const_makes val len).pulls_iff hm
  obtain ⟨outs, h⟩ := hiff.mpr fun _ _ => trivial
  exact ⟨outs, h, by simpa using hflat outs h⟩

/-- Element `i` of `seq`. -/
def seqAt (start by' : BitVec w) (i : Nat) : BitVec w := start + BitVec.ofNat w i * by'

theorem seqAt_succ (start by' : BitVec w) (i : Nat) :
    seqAt start by' i + by' = seqAt start by' (i + 1) := by
  simp [seqAt, BitVec.ofNat_add, BitVec.add_mul, BitVec.add_assoc]

/-- What is computed in 64 bits has the low bits it should. -/
theorem toU64_add_mul (isSigned : Bool) (hw : w ≤ 64) (start by' : BitVec w) (i : Nat) :
    (toU64 isSigned start + BitVec.ofNat 64 i * toU64 isSigned by').setWidth w =
      seqAt start by' i := by
  have hlow : ∀ v : BitVec w, (toU64 isSigned v).setWidth w = v := by
    intro v
    refine BitVec.eq_of_getLsbD_eq fun i hi => ?_
    cases isSigned with
    | true =>
        rw [toU64, if_pos rfl, BitVec.getLsbD_setWidth, BitVec.getLsbD_signExtend]
        simp [hi, Nat.lt_of_lt_of_le hi hw]
    | false => simp [toU64, hi, Nat.lt_of_lt_of_le hi hw]
  rw [BitVec.setWidth_add _ _ hw, BitVec.setWidth_mul _ _ hw, hlow, hlow,
    BitVec.setWidth_ofNat_of_le hw, seqAt]

/-- To add `by` goes on to the next element, if it can be done. -/
theorem plusBy_seqAt {start by' : BitVec w} {i : Nat} {j : BitVec w} :
    plusBy isSigned by' (seqAt start by' i) = some j ↔
      (plusBy isSigned by' (seqAt start by' i)).isSome ∧ j = seqAt start by' (i + 1) := by
  rw [plusBy, seqAt_succ]
  split <;> simp [eq_comm]

/-- `seq` makes `start`, `start + by`, …, where it may add `by` to each of them. -/
theorem seq_makes (hw : w ≤ 64) (start by' : BitVec w) (len : Nat) :
    Makes (seqKernel isSigned start by') len (seqAt start by')
      fun i => (plusBy isSigned by' (seqAt start by' i)).isSome where
  made n lb _ _ hgood := by
    rw [seqKernel, toU64_add_mul isSigned hw]
    exact emit_eq fun i hi => plusBy_seqAt.mpr ⟨hgood i hi, rfl⟩
  good n lb ys _ h i hi := by
    rw [seqKernel, toU64_add_mul isSigned hw] at h
    have hnext := isSome_of_emit (fun i s hs => (plusBy_seqAt.mp hs).2) h i hi
    exact (plusBy_seqAt.mp hnext).1

/-- **`seq`**, whatever the size of a chunk: it is pulled empty if and only if `by` can be added to
each element, and then element `i` is `start + i * by` in the type of the output. -/
theorem seq_pulls_iff (isSigned : Bool) (hw : w ≤ 64) (hm : 0 < m) (start by' : BitVec w) (len : Nat) :
    ((∃ outs, Pulls (sToFGen (seqKernel isSigned start by') len m) m 0 0 outs) ↔
      ∀ i < len, (plusBy isSigned by' (seqAt start by' i)).isSome) ∧
    ∀ outs, Pulls (sToFGen (seqKernel isSigned start by') len m) m 0 0 outs →
      outs.flatten = (List.range len).map (seqAt start by') :=
  (seq_makes hw start by' len).pulls_iff hm

/-- Four elements of 8 bits, three a chunk. -/
theorem seq_pulls_iff_four : ∃ outs,
    Pulls (sToFGen (seqKernel false (250 : BitVec 8) 3) 4 3) 3 0 0 outs ∧
      outs.flatten = [250, 253, 0, 3] := by
  obtain ⟨hiff, hflat⟩ := seq_pulls_iff false (show 8 ≤ 64 by decide)
    (show 0 < 3 by decide) (250 : BitVec 8) 3 4
  obtain ⟨outs, h⟩ := hiff.mpr (by decide)
  exact ⟨outs, h, hflat outs h⟩

theorem not_saddOverflow_iff {x y : BitVec w} : ¬ x.saddOverflow y ↔
    -2 ^ (w - 1) ≤ x.toInt + y.toInt ∧ x.toInt + y.toInt < 2 ^ (w - 1) := by
  simp [BitVec.saddOverflow]
  omega

/-- The number behind one that is `start + i * by`. -/
theorem toInt_step (start by' : BitVec w) (i : Nat) : start.toInt + (i + 1 : Nat) * by'.toInt =
    start.toInt + i * by'.toInt + by'.toInt := by
  rw [Nat.cast_succ, Int.add_mul, Int.one_mul, Int.add_assoc]

/-- Where no number on the way leaves the type, the elements are the numbers. -/
theorem toInt_seqAt {start by' : BitVec w} {i : Nat} (hrange : ∀ k ≤ i,
      -2 ^ (w - 1) ≤ start.toInt + k * by'.toInt ∧ start.toInt + k * by'.toInt < 2 ^ (w - 1)) :
    (seqAt start by' i).toInt = start.toInt + i * by'.toInt := by
  induction i with
  | zero => simp [seqAt]
  | succ i ih =>
      have hprev := ih fun k hk => hrange k (by omega)
      have hno : ¬ (seqAt start by' i).saddOverflow by' := by
        rw [not_saddOverflow_iff, hprev, ← toInt_step]
        exact hrange (i + 1) (Nat.le_refl _)
      rw [← seqAt_succ, BitVec.toInt_add_of_not_saddOverflow hno, hprev, toInt_step]

/-- **`seq` of a signed type** is the numbers from `start` on, if they and the one behind the last
are in the type. -/
theorem seq_pulls_toInt (hw : w ≤ 64) (hm : 0 < m) {start by' : BitVec w} (hrange : ∀ k ≤ len,
      -2 ^ (w - 1) ≤ start.toInt + k * by'.toInt ∧ start.toInt + k * by'.toInt < 2 ^ (w - 1)) :
    ∃ outs, Pulls (sToFGen (seqKernel true start by') len m) m 0 0 outs ∧
      outs.flatten.map BitVec.toInt =
        (List.range len).map fun i : Nat => start.toInt + i * by'.toInt := by
  have hval : ∀ i ≤ len, (seqAt start by' i).toInt = start.toInt + i * by'.toInt :=
    fun i hi => toInt_seqAt fun k hk => hrange k (by omega)
  obtain ⟨hiff, hflat⟩ := seq_pulls_iff true hw hm start by' len
  obtain ⟨outs, h⟩ := hiff.mpr fun i hi => by
    have hno : ¬ (seqAt start by' i).saddOverflow by' := by
      rw [not_saddOverflow_iff, hval i (by omega), ← toInt_step]
      exact hrange (i + 1) hi
    simp [plusBy, hno]
  refine ⟨outs, h, ?_⟩
  rw [hflat outs h, List.map_map]
  exact List.map_congr_left fun i hi => hval i (List.mem_range.mp hi).le

section Period

variable {period : Nat}

/-- A period that the type of the output can hold is read as it is. -/
theorem readPeriod_ofNat (h : period < 2 ^ (w - 1)) :
    readPeriod w (BitVec.ofNat 32 period) = BitVec.ofNat 32 period := by
  rw [readPeriod]
  split
  · next hw =>
      have hlt : period < 2 ^ w := Nat.lt_of_lt_of_le h (Nat.pow_le_pow_right (by decide) (by omega))
      have hmsb : (BitVec.ofNat w period).msb = false := by
        rw [BitVec.msb_eq_decide, BitVec.toNat_ofNat, Nat.mod_eq_of_lt hlt]
        simpa using h
      rw [BitVec.setWidth_ofNat_of_le hw, BitVec.signExtend_eq_setWidth_of_msb_false hmsb]
      exact BitVec.setWidth_ofNat_of_le_of_lt hw hlt
  · rfl

/-- One that it cannot hold is another. -/
example : readPeriod 8 200 = -56 ∧ readPeriod 8 256 = 0 := by decide

/-- As a `uint64_t` it is the same number. -/
theorem toNat_signExtend_ofNat (h : period < 2 ^ 31) :
    ((BitVec.ofNat 32 period).signExtend 64).toNat = period := by
  have hmsb : (BitVec.ofNat 32 period).msb = false := by
    rw [BitVec.msb_eq_decide, BitVec.toNat_ofNat, Nat.mod_eq_of_lt (by omega)]
    simpa using h
  rw [BitVec.signExtend_eq_setWidth_of_msb_false hmsb, BitVec.toNat_setWidth, BitVec.toNat_ofNat]
  omega

/-- `offset` and `j` of `period`, at element `i`. -/
def periodAt (start by' : BitVec w) (period i : Nat) : BitVec 32 × BitVec w :=
  (BitVec.ofNat 32 (i % period), seqAt start by' (i % period))

/-- It starts again, or goes on as `seq` does, if it can be done. -/
theorem periodNext_periodAt (hp : 0 < period) (h31 : period < 2 ^ 31) {start by' : BitVec w} {i : Nat}
    {s : BitVec 32 × BitVec w} :
    periodNext start by' (BitVec.ofNat 32 period) (periodAt start by' period i) = some s ↔
      (i % period + 1 = period ∨ (plusBy true by' (seqAt start by' (i % period))).isSome) ∧
        s = periodAt start by' period (i + 1) := by
  have hmod : (i + 1) % period = (i % period + 1) % period := (Nat.mod_add_mod ..).symm
  have hoff := Nat.mod_lt i hp
  have hmax : BitVec.ofNat 32 (i % period) ≠ BitVec.intMax 32 := by
    rw [Ne, BitVec.toNat_eq, BitVec.toNat_ofNat, BitVec.toNat_intMax]
    omega
  have hnext : BitVec.ofNat 32 (i % period) + 1 = BitVec.ofNat 32 (i % period + 1) := by
    rw [BitVec.ofNat_add]
    rfl
  have hlast : BitVec.ofNat 32 (i % period + 1) = BitVec.ofNat 32 period ↔
      i % period + 1 = period := by
    rw [BitVec.toNat_eq, BitVec.toNat_ofNat, BitVec.toNat_ofNat]
    omega
  rw [periodNext, periodAt, periodAt, if_neg hmax, hnext, hmod]
  by_cases hend : i % period + 1 = period
  · rw [if_pos (hlast.mpr hend), hend, Nat.mod_self]
    simp [seqAt, @eq_comm _ s]
  · rw [if_neg (hlast.not.mpr hend), Nat.mod_eq_of_lt (by omega : i % period + 1 < period),
      Option.map_eq_some_iff]
    simp only [plusBy_seqAt, hend, false_or]
    grind

/-- `period` makes the first elements of `seq` again and again. -/
theorem period_makes (hw : w ≤ 64) (start by' : BitVec w) (hp : 0 < period) (h31 : period < 2 ^ 31)
    (len : Nat) : Makes (periodKernel start by' (BitVec.ofNat 32 period)) len
      (fun i => seqAt start by' (i % period))
      fun i => i % period + 1 = period ∨
        (plusBy true by' (seqAt start by' (i % period))).isSome := by
  have hne : BitVec.ofNat 32 period ≠ 0 := by
    rw [Ne, BitVec.toNat_eq, BitVec.toNat_ofNat]
    simp only [BitVec.ofNat_eq_ofNat, BitVec.toNat_ofNat]
    omega
  have hkern : ∀ n lb, periodKernel start by' (BitVec.ofNat 32 period) n lb =
      emit (periodNext start by' (BitVec.ofNat 32 period)) Prod.snd n
        (periodAt start by' period lb) := by
    intro n lb
    have hj := toU64_add_mul true hw start by' (lb % period)
    rw [BitVec.mul_comm] at hj
    rw [periodKernel, if_neg hne, toNat_signExtend_ofNat h31]
    simp only [hj]
    rfl
  constructor
  · intro n lb _ _ hgood
    rw [hkern]
    exact emit_eq fun i hi => (periodNext_periodAt hp h31).mpr ⟨hgood i hi, rfl⟩
  · intro n lb ys _ h i hi
    rw [hkern] at h
    have hnext := isSome_of_emit (fun i s hs => ((periodNext_periodAt hp h31).mp hs).2) h i hi
    exact ((periodNext_periodAt hp h31).mp hnext).1

/-- **`period`** of a number that the type of the output can hold, whatever the size of a chunk:
element `i` is element `i % period` of `seq`. It is pulled empty if and only if `by` can be added to
each but the last of a period. -/
theorem period_pulls_iff (hw : w ≤ 64) (hm : 0 < m) (hp : 0 < period) (h31 : period < 2 ^ 31)
    (hfit : period < 2 ^ (w - 1)) (start by' : BitVec w) (len : Nat) :
    ((∃ outs, Pulls (sToFGen (periodKernel start by' (readPeriod w (BitVec.ofNat 32 period))) len m)
        m 0 0 outs) ↔
      ∀ i < len, i % period + 1 = period ∨
        (plusBy true by' (seqAt start by' (i % period))).isSome) ∧
    ∀ outs, Pulls (sToFGen (periodKernel start by' (readPeriod w (BitVec.ofNat 32 period))) len m)
        m 0 0 outs →
      outs.flatten = (List.range len).map fun i => seqAt start by' (i % period) := by
  rw [readPeriod_ofNat hfit]
  exact (period_makes hw start by' hp h31 len).pulls_iff hm

/-- Seven elements, two a chunk. -/
theorem period_pulls_iff_seven : ∃ outs,
    Pulls (sToFGen (periodKernel (5 : BitVec 32) 3 (readPeriod 32 3)) 7 2) 2 0 0 outs ∧
      outs.flatten = [5, 8, 11, 5, 8, 11, 5] := by
  obtain ⟨hiff, hflat⟩ := period_pulls_iff (show 32 ≤ 64 by decide) (show 0 < 2 by decide)
    (show 0 < 3 by decide) (by decide) (by decide) (5 : BitVec 32) 3 7
  obtain ⟨outs, h⟩ := hiff.mpr (by decide)
  exact ⟨outs, h, hflat outs h⟩

end Period

end QStore.Operators
