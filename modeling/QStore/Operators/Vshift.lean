import QStore.Operators.LVector
import QStore.Lib.Pull

/-!
# QStore.Operators.Vshift

`vshift` (`F1S1OPF2/lua/vshift.lua`): every element comes `shift_by` places earlier, and the
last places take `newval`.

```
chunk of f1     0 1 2 3 4 5 6 7 | 8 9 a b c          shift_by = 3
chunk of f2     3 4 5 6 7 8 9 a | b c - - -
```

A chunk of the output is made of the end of a chunk of the input, the start of the next and
`newval`.  The last chunk has to be longer than `shift_by` and not full: from a shorter one a
negative number of elements is copied, one of exactly `shift_by` elements is taken for the end,
and after a full one the chunk that follows is released without having been there.
-/

namespace QStore.Operators

variable {α : Type}

/-- `vshift`, with the arguments that `vshift_specialize` lets through; a shift the other way
is answered with an error. -/
structure Vshift (α : Type) where
  f1 : LVector α
  shiftBy : Nat
  newval : α
  pos : 0 < shiftBy
  lt : shiftBy < f1.maxNumInChunk

/-- What the generator keeps between calls, and how often it holds each chunk of `f1`. -/
structure VshiftState where
  chunkIdx : Nat
  held : Nat → Nat

/-- `memcpy` of so many elements, from and to an offset. -/
def memcpy (dst : List α) (dstOff : Nat) (src : List α) (srcOff : Nat) (num : Int) :
    Option (List α) :=
  if 0 ≤ num ∧ srcOff + num.toNat ≤ src.length ∧ dstOff + num.toNat ≤ dst.length then
    some (splice dst dstOff ((src.drop srcOff).take num.toNat))
  else none

/-- `f1:unget_chunk`, of a chunk that the generator holds. -/
def ungetHeld (held : Nat → Nat) (i : Nat) : Option (Nat → Nat) :=
  if held i = 0 then none else some (Function.update held i (held i - 1))

/-- The loop that puts `newval` in so many places. -/
def putNewval (newval : α) : Nat → List α → Nat → Option (List α × Nat)
  | 0, buf, numInF2 => some (buf, numInF2)
  | n + 1, buf, numInF2 =>
    (memcpy buf numInF2 [newval] 0 1).bind fun buf => putNewval newval n buf (numInF2 + 1)

namespace Vshift

variable (a : Vshift α)

/-- What is held after `f1:get_chunk`. Where there is no chunk, nothing is got. -/
def getHeld (held : Nat → Nat) (i : Nat) : Nat → Nat :=
  if (a.f1.getChunk i).length = 0 then held else Function.update held i (held i + 1)

/-- Get `shift_by` from the next chunk, if there is to be one. -/
def fromNext (f1Len chunkIdx : Nat) (buf : List α) (numInF2 : Nat) (held : Nat → Nat) :
    Option (List α × Nat × (Nat → Nat)) :=
  if f1Len < a.f1.maxNumInChunk then some (buf, numInF2, held)
  else
    let f1Buf := a.f1.getChunk (chunkIdx + 1)
    let held := a.getHeld held (chunkIdx + 1)
    let numToCopy := min f1Buf.length a.shiftBy
    let copied := if numToCopy > 0 then
        (memcpy buf (a.f1.maxNumInChunk - a.shiftBy) f1Buf 0 numToCopy).map fun buf =>
          (buf, numInF2 + numToCopy)
      else some (buf, numInF2)
    copied.bind fun r => (ungetHeld held (chunkIdx + 1)).map fun held => (r.1, r.2, held)

/-- Put in `newval` in place of missing values. -/
def fillUp (chunkIdx : Nat) (buf : List α) (numInF2 : Nat) (held : Nat → Nat) :
    Option (List α × Nat × (Nat → Nat)) :=
  let f1Buf := a.f1.getChunk chunkIdx
  let held := a.getHeld held chunkIdx
  let filled := if numInF2 < f1Buf.length then
      putNewval a.newval (f1Buf.length - numInF2) buf numInF2
    else some (buf, numInF2)
  filled.bind fun r => (ungetHeld held chunkIdx).map fun held => (r.1, r.2, held)

/-- `f2_gen`, with the value that `f2_buf:zero()` puts everywhere. -/
def gen (zero : α) : Gen VshiftState α := fun s chunkNum =>
  if chunkNum ≠ s.chunkIdx then none
  else
    let f1Buf := a.f1.getChunk s.chunkIdx
    let held := a.getHeld s.held s.chunkIdx
    let numToCopy : Int := (min a.f1.maxNumInChunk f1Buf.length : Nat) - a.shiftBy
    if numToCopy = 0 then
      if f1Buf.length > 0 then
        (ungetHeld held s.chunkIdx).map fun held => ([], { s with held := held })
      else some ([], { s with held := held })
    else do
      let f2Buf := List.replicate a.f1.maxNumInChunk zero
      let f2Buf ← memcpy f2Buf 0 f1Buf a.shiftBy numToCopy
      let held ← ungetHeld held s.chunkIdx
      let (f2Buf, numInF2, held) ←
        a.fromNext f1Buf.length s.chunkIdx f2Buf numToCopy.toNat held
      let (f2Buf, numInF2, held) ← a.fillUp s.chunkIdx f2Buf numInF2 held
      return (f2Buf.take numInF2, ⟨s.chunkIdx + 1, held⟩)

/-- Before the first call the generator holds no chunk. -/
def start : VshiftState := ⟨0, fun _ => 0⟩

/-- What is to come out. -/
def shifted : List α :=
  (List.range a.f1.elems.length).map fun i => a.f1.elems.getD (i + a.shiftBy) a.newval

end Vshift

/-! ## Copies -/

variable {a : Vshift α} {zero newval : α} {buf src want : List α} {i j n : Nat}
  {held : Nat → Nat}

theorem memcpy_ends (src : List α) (off : Nat) (num : Int) (hw : want <+: buf) (h0 : 0 ≤ num)
    (hsrc : off + num.toNat ≤ src.length) (hdst : want.length + num.toNat ≤ buf.length) :
    ∃ b, memcpy buf want.length src off num = some b ∧ b.length = buf.length ∧
      want ++ (src.drop off).take num.toNat <+: b := by
  have hlen : ((src.drop off).take num.toNat).length = num.toNat := by
    rw [List.length_take, List.length_drop]
    omega
  refine ⟨_, if_pos ⟨h0, hsrc, hdst⟩, ?_, ?_⟩
  · exact length_splice (by omega)
  · exact prefix_splice hw (by omega)

theorem putNewval_ends (newval : α) (hw : want <+: buf) (hn : want.length + n ≤ buf.length) :
    ∃ b, putNewval newval n buf want.length = some (b, want.length + n) ∧
      b.length = buf.length ∧ want ++ List.replicate n newval <+: b := by
  induction n generalizing buf want with
  | zero => exact ⟨buf, rfl, rfl, by simpa using hw⟩
  | succ n ih =>
      obtain ⟨b, hb, hlen, hwb⟩ := memcpy_ends [newval] 0 1 hw
        (by omega) (by simp) (by simp only [Int.toNat_one]; omega)
      simp only [List.drop_zero, Int.toNat_one, List.take_succ_cons, List.take_zero] at hwb
      have hlen1 : (want ++ [newval]).length = want.length + 1 := by simp
      obtain ⟨c, hc, hclen, hwc⟩ := ih hwb (by omega)
      rw [hlen1] at hc
      refine ⟨c, ?_, by omega, ?_⟩
      · rw [putNewval, hb, Option.bind_some, hc, Nat.add_assoc, Nat.add_comm 1 n]
      · rwa [List.append_assoc, List.singleton_append, ← List.replicate_succ] at hwc

/-! ## Chunks got and released -/

theorem ungetHeld_getHeld (held : Nat → Nat) (h : 0 < (a.f1.getChunk i).length) :
    ungetHeld (a.getHeld held i) i = some held := by
  simp [ungetHeld, Vshift.getHeld, Nat.ne_of_gt h]

theorem ungetHeld_missing {held : Nat → Nat} (h : (a.f1.getChunk i).length = 0) (h0 : held i = 0) :
    ungetHeld (a.getHeld held i) i = none := by
  simp [ungetHeld, Vshift.getHeld, h, h0]

theorem fillUp_ends (hne : 0 < (a.f1.getChunk i).length) (hw : want <+: buf)
    (hlen : (a.f1.getChunk i).length ≤ buf.length)
    (hwant : want.length ≤ (a.f1.getChunk i).length) :
    ∃ b, a.fillUp i buf want.length held = some (b, (a.f1.getChunk i).length, held) ∧
      want ++ List.replicate ((a.f1.getChunk i).length - want.length) a.newval <+: b := by
  have hun := ungetHeld_getHeld (a := a) held hne
  simp only [Vshift.fillUp, hun, Option.map_some]
  by_cases hlt : want.length < (a.f1.getChunk i).length
  · obtain ⟨b, hb, -, hwb⟩ := putNewval_ends a.newval
      (n := (a.f1.getChunk i).length - want.length) hw (by omega)
    refine ⟨b, ?_, hwb⟩
    rw [if_pos hlt, hb, Option.bind_some, Nat.add_sub_cancel' hwant]
  · refine ⟨buf, ?_, by simpa [Nat.sub_eq_zero_of_le (Nat.le_of_not_lt hlt)] using hw⟩
    rw [if_neg hlt, Option.bind_some, Nat.le_antisymm hwant (Nat.le_of_not_lt hlt)]

/-! ## One call -/

/-- The end of a chunk, moved to the start of the output. -/
theorem gen_copies (zero : α) (h : a.shiftBy < (a.f1.getChunk j).length) :
    ∃ b, memcpy (List.replicate a.f1.maxNumInChunk zero) 0 (a.f1.getChunk j) a.shiftBy
        ((min a.f1.maxNumInChunk (a.f1.getChunk j).length : Nat) - a.shiftBy : Int) = some b ∧
      b.length = a.f1.maxNumInChunk ∧ (a.f1.getChunk j).drop a.shiftBy <+: b := by
  have hmin : min a.f1.maxNumInChunk (a.f1.getChunk j).length = (a.f1.getChunk j).length :=
    Nat.min_eq_right (by rw [LVector.length_getChunk]; omega)
  have hle : (a.f1.getChunk j).length ≤ a.f1.maxNumInChunk := by
    rw [LVector.length_getChunk]
    omega
  have hnil : [] <+: List.replicate a.f1.maxNumInChunk zero := ⟨_, rfl⟩
  obtain ⟨b, hb, hlen, hwb⟩ := memcpy_ends (a.f1.getChunk j) a.shiftBy
    (((a.f1.getChunk j).length : Int) - a.shiftBy) hnil (by omega) (by omega)
    (by simp only [List.length_nil, List.length_replicate]; omega)
  refine ⟨b, by rw [hmin]; exact hb, by simpa using hlen, ?_⟩
  rw [List.nil_append, List.take_of_length_le] at hwb
  · exact hwb
  · rw [List.length_drop]
    omega

/-- What is copied comes before what follows it. -/
theorem fromNext_ends (held : Nat → Nat) (hlen : (a.f1.getChunk j).length = a.f1.maxNumInChunk)
    (hnext : 0 < (a.f1.getChunk (j + 1)).length) (hb : buf.length = a.f1.maxNumInChunk)
    (hw : want <+: buf) (hwant : want.length = a.f1.maxNumInChunk - a.shiftBy) :
    ∃ b, a.fromNext (a.f1.getChunk j).length j buf want.length held =
        some (b, want.length + min (a.f1.getChunk (j + 1)).length a.shiftBy, held) ∧
      b.length = a.f1.maxNumInChunk ∧ want ++ (a.f1.getChunk (j + 1)).take a.shiftBy <+: b := by
  have hpos := a.pos
  have hlt := a.lt
  have hun := ungetHeld_getHeld held hnext
  generalize hm : min (a.f1.getChunk (j + 1)).length a.shiftBy = m
  obtain ⟨b, hcopy, hblen, hwb⟩ := memcpy_ends (a.f1.getChunk (j + 1)) 0 (m : Int) hw
    (by omega) (by omega) (by omega)
  rw [hwant] at hcopy
  refine ⟨b, ?_, by omega, ?_⟩
  · simp only [Vshift.fromNext]
    rw [if_neg (by omega), hm, if_pos (by omega), hcopy, Option.map_some, Option.bind_some, hun,
      Option.map_some]
  · rw [List.drop_zero, Int.toNat_natCast, ← hm, Nat.min_comm, ← List.take_eq_take_min] at hwb
    exact hwb

theorem gen_eq (h : a.shiftBy < (a.f1.getChunk j).length) {b c : List α} {m : Nat}
    (hcopy : memcpy (List.replicate a.f1.maxNumInChunk zero) 0 (a.f1.getChunk j) a.shiftBy
      ((min a.f1.maxNumInChunk (a.f1.getChunk j).length : Nat) - a.shiftBy : Int) = some b)
    (hnext : a.fromNext (a.f1.getChunk j).length j b
      ((a.f1.getChunk j).drop a.shiftBy).length held = some (c, m, held)) :
    a.gen zero ⟨j, held⟩ j = (a.fillUp j c m held).map fun r =>
      (r.1.take r.2.1, ⟨j + 1, r.2.2⟩) := by
  have hpos := a.pos
  have hmin : min a.f1.maxNumInChunk (a.f1.getChunk j).length = (a.f1.getChunk j).length :=
    Nat.min_eq_right (by rw [LVector.length_getChunk]; omega)
  have hun := ungetHeld_getHeld held (Nat.lt_of_le_of_lt (Nat.zero_le _) h)
  have hnum : (((a.f1.getChunk j).length : Int) - a.shiftBy).toNat =
      ((a.f1.getChunk j).drop a.shiftBy).length := by
    rw [List.length_drop]
    omega
  rw [hmin] at hcopy
  simp only [Vshift.gen, ne_eq, not_true, if_false, hmin, hcopy, hun, Option.bind_eq_bind,
    Option.bind_some, hnum, hnext, Option.pure_def]
  rw [if_neg (by omega)]
  cases a.fillUp j c m held <;> rfl

theorem take_eq_of_prefix_length (hw : want <+: buf) (hn : n = want.length) :
    buf.take n = want := by
  obtain ⟨rest, rfl⟩ := hw
  rw [hn, List.take_left]

/-- A chunk that another follows is filled with its start and, where that is too short, with
`newval`. -/
theorem gen_full (hlen : (a.f1.getChunk j).length = a.f1.maxNumInChunk)
    (hnext : 0 < (a.f1.getChunk (j + 1)).length) :
    a.gen zero ⟨j, held⟩ j = some ((a.f1.getChunk j).drop a.shiftBy ++
      (a.f1.getChunk (j + 1)).take a.shiftBy ++
      List.replicate (a.shiftBy - (a.f1.getChunk (j + 1)).length) a.newval, ⟨j + 1, held⟩) := by
  have hlt := a.lt
  have hk : a.shiftBy < (a.f1.getChunk j).length := by omega
  have hdrop : ((a.f1.getChunk j).drop a.shiftBy).length = (a.f1.getChunk j).length - a.shiftBy :=
    List.length_drop
  obtain ⟨b, hb, hblen, hwb⟩ := gen_copies zero hk
  obtain ⟨c, hc, hclen, hwc⟩ := fromNext_ends held hlen hnext hblen hwb (by omega)
  generalize hwant : (a.f1.getChunk j).drop a.shiftBy ++
    (a.f1.getChunk (j + 1)).take a.shiftBy = want at hwc ⊢
  have hwlen : want.length = ((a.f1.getChunk j).drop a.shiftBy).length +
      min (a.f1.getChunk (j + 1)).length a.shiftBy := by
    rw [← hwant, List.length_append, List.length_take, Nat.min_comm]
  rw [← hwlen] at hc
  obtain ⟨d, hd, hwd⟩ := fillUp_ends (a := a) (i := j) (by omega) hwc (by omega) (by omega)
  have hfill : (a.f1.getChunk j).length - want.length =
      a.shiftBy - (a.f1.getChunk (j + 1)).length := by omega
  rw [hfill] at hwd
  rw [gen_eq hk hb hc, hd, Option.map_some, take_eq_of_prefix_length hwd]
  simp only [List.length_append, List.length_replicate]
  omega

/-- The last chunk, longer than the shift. -/
theorem gen_last (hk : a.shiftBy < (a.f1.getChunk j).length)
    (hlen : (a.f1.getChunk j).length < a.f1.maxNumInChunk) :
    a.gen zero ⟨j, held⟩ j = some ((a.f1.getChunk j).drop a.shiftBy ++
      List.replicate a.shiftBy a.newval, ⟨j + 1, held⟩) := by
  have hdrop : ((a.f1.getChunk j).drop a.shiftBy).length = (a.f1.getChunk j).length - a.shiftBy :=
    List.length_drop
  obtain ⟨b, hb, hblen, hwb⟩ := gen_copies zero hk
  obtain ⟨c, hc, hwc⟩ := fillUp_ends (a := a) (i := j) (by omega) hwb (by omega) (by omega)
  have hnone : a.fromNext (a.f1.getChunk j).length j b
      ((a.f1.getChunk j).drop a.shiftBy).length held =
      some (b, ((a.f1.getChunk j).drop a.shiftBy).length, held) := by
    rw [Vshift.fromNext, if_pos hlen]
  have hfill : (a.f1.getChunk j).length - ((a.f1.getChunk j).drop a.shiftBy).length =
      a.shiftBy := by omega
  rw [hfill] at hwc
  rw [gen_eq hk hb hnone, hc, Option.map_some, take_eq_of_prefix_length hwc]
  simp only [List.length_append, List.length_replicate]
  omega

/-- Of a full chunk that nothing follows, the next is released without having been got. -/
theorem gen_missing (hlen : (a.f1.getChunk j).length = a.f1.maxNumInChunk)
    (hnext : (a.f1.getChunk (j + 1)).length = 0) :
    a.gen zero ⟨j, fun _ => 0⟩ j = none := by
  have hlt := a.lt
  have hk : a.shiftBy < (a.f1.getChunk j).length := by omega
  have hun := ungetHeld_getHeld (fun _ => 0) (Nat.lt_of_le_of_lt (Nat.zero_le _) hk)
  have hmiss : ungetHeld (a.getHeld (fun _ => 0) (j + 1)) (j + 1) = none :=
    ungetHeld_missing hnext rfl
  obtain ⟨b, hb, -, -⟩ := gen_copies zero hk
  have hnone : ∀ m, a.fromNext (a.f1.getChunk j).length j b m (fun _ => 0) = none := by
    intro m
    simp only [Vshift.fromNext, hmiss]
    rw [if_neg (by omega)]
    simp
  simp only [Vshift.gen, ne_eq, not_true, if_false, hb, hun, Option.bind_eq_bind,
    Option.bind_some, hnone, Option.bind_none, ite_eq_right_iff]
  omega

/-- From a chunk shorter than the shift a negative number of elements is to be copied. -/
theorem gen_short (h : (a.f1.getChunk j).length < a.shiftBy) :
    a.gen zero ⟨j, held⟩ j = none := by
  have hlt := a.lt
  simp only [Vshift.gen, ne_eq, not_true, if_false]
  rw [if_neg (by omega), memcpy, if_neg (by omega)]
  rfl

/-- A chunk as long as the shift is taken for the end. -/
theorem gen_exact (h : (a.f1.getChunk j).length = a.shiftBy) :
    a.gen zero ⟨j, held⟩ j = some ([], ⟨j, held⟩) := by
  have hlt := a.lt
  have hpos := a.pos
  simp only [Vshift.gen, ne_eq, not_true, if_false]
  rw [if_pos (by omega), if_pos (by omega), ungetHeld_getHeld held (by omega)]
  rfl

/-! ## All calls -/

/-- The last chunk is not full, and longer than the shift. -/
def Vshift.LongLast (a : Vshift α) : Prop :=
  a.shiftBy < a.f1.elems.length % a.f1.maxNumInChunk

theorem length_shifted : a.shifted.length = a.f1.elems.length := by
  simp [Vshift.shifted]

theorem shifted_eq (h : a.shiftBy ≤ a.f1.elems.length) :
    a.shifted = a.f1.elems.drop a.shiftBy ++ List.replicate a.shiftBy a.newval := by
  refine List.ext_getElem? fun i => ?_
  by_cases hi : i < a.f1.elems.length
  · have hget : a.shifted[i]? = some (a.f1.elems.getD (i + a.shiftBy) a.newval) := by
      simp [Vshift.shifted, hi]
    rw [hget, List.getD_eq_getElem?_getD]
    by_cases hin : i + a.shiftBy < a.f1.elems.length
    · rw [List.getElem?_append_left (by rw [List.length_drop]; omega), List.getElem?_drop,
        Nat.add_comm a.shiftBy i, List.getElem?_eq_getElem hin, Option.getD_some]
    · rw [List.getElem?_append_right (by rw [List.length_drop]; omega),
        List.getElem?_replicate_of_lt (by rw [List.length_drop]; omega),
        List.getElem?_eq_none (by omega), Option.getD_none]
  · rw [List.getElem?_eq_none (by rw [length_shifted]; omega), List.getElem?_eq_none]
    rw [List.length_append, List.length_drop, List.length_replicate]
    omega

/-- What is left to come after `j` chunks. -/
theorem drop_shifted (h : a.shiftBy ≤ a.f1.elems.length)
    (hj : j * a.f1.maxNumInChunk + a.shiftBy ≤ a.f1.elems.length) :
    a.shifted.drop (j * a.f1.maxNumInChunk) =
      (a.f1.elems.drop (j * a.f1.maxNumInChunk)).drop a.shiftBy ++
        List.replicate a.shiftBy a.newval := by
  rw [shifted_eq h, List.drop_append_of_le_length (by rw [List.length_drop]; omega),
    List.drop_drop, List.drop_drop, Nat.add_comm]

theorem length_chunk_full (h : j < a.f1.elems.length / a.f1.maxNumInChunk) :
    (j + 1) * a.f1.maxNumInChunk ≤ a.f1.elems.length ∧
      (a.f1.getChunk j).length = a.f1.maxNumInChunk := by
  have hle : (j + 1) * a.f1.maxNumInChunk ≤ a.f1.elems.length :=
    (Nat.le_div_iff_mul_le a.f1.pos).mp h
  refine ⟨hle, ?_⟩
  rw [Nat.add_mul, Nat.one_mul] at hle
  rw [LVector.length_getChunk]
  omega

theorem length_chunk_last (h : j = a.f1.elems.length / a.f1.maxNumInChunk) :
    j * a.f1.maxNumInChunk + a.f1.elems.length % a.f1.maxNumInChunk = a.f1.elems.length ∧
      (a.f1.getChunk j).length = a.f1.elems.length % a.f1.maxNumInChunk := by
  have hdiv := Nat.div_add_mod' a.f1.elems.length a.f1.maxNumInChunk
  have hmod := Nat.mod_lt a.f1.elems.length a.f1.pos
  rw [LVector.length_getChunk]
  subst h
  omega

/-- A full chunk with the start of the next is what is left to come, up to its length. -/
theorem take_full (hj : (j + 1) * a.f1.maxNumInChunk + a.shiftBy ≤ a.f1.elems.length) :
    (a.f1.getChunk j).drop a.shiftBy ++ (a.f1.getChunk (j + 1)).take a.shiftBy =
      (a.shifted.drop (j * a.f1.maxNumInChunk)).take a.f1.maxNumInChunk := by
  have hlt := a.lt
  have hsucc : (j + 1) * a.f1.maxNumInChunk = j * a.f1.maxNumInChunk + a.f1.maxNumInChunk := by
    rw [Nat.add_mul, Nat.one_mul]
  have hlen : (a.f1.getChunk j).length = a.f1.maxNumInChunk := by
    rw [LVector.length_getChunk]
    omega
  have hpage : a.f1.elems.drop (j * a.f1.maxNumInChunk) =
      a.f1.getChunk j ++ a.f1.elems.drop ((j + 1) * a.f1.maxNumInChunk) := page_append_drop.symm
  have hdrop : ((a.f1.getChunk j).drop a.shiftBy).length = a.f1.maxNumInChunk - a.shiftBy := by
    rw [List.length_drop, hlen]
  have hfirst : ((a.f1.getChunk j).drop a.shiftBy).take a.f1.maxNumInChunk =
      (a.f1.getChunk j).drop a.shiftBy := List.take_of_length_le (by omega)
  have hnext : (a.f1.getChunk (j + 1)).take a.shiftBy =
      (a.f1.elems.drop ((j + 1) * a.f1.maxNumInChunk)).take a.shiftBy := by
    rw [LVector.getChunk, page, List.take_take, Nat.min_eq_left (by omega)]
  rw [drop_shifted (by omega) (by omega), hpage, List.drop_append_of_le_length (by omega),
    List.append_assoc, List.take_append, hfirst, hdrop, Nat.sub_sub_self (by omega),
    List.take_append_of_le_length (by rw [List.length_drop]; omega), hnext]

theorem pulls_shifted (h : a.LongLast) (zero : α) :
    ∃ outs, Pulls (a.gen zero) a.f1.maxNumInChunk Vshift.start 0 outs ∧
      outs.flatten = a.shifted := by
  rw [Vshift.LongLast] at h
  apply Pulls.of_pieces (fun s j rest => s = ⟨j, fun _ => 0⟩ ∧
    j ≤ a.f1.elems.length / a.f1.maxNumInChunk ∧
      rest = a.shifted.drop (j * a.f1.maxNumInChunk)) a.f1.pos
  · intro s j rest hI
    obtain ⟨rfl, hj, rfl⟩ := hI
    have hdrop : (a.shifted.drop (j * a.f1.maxNumInChunk)).length =
        a.f1.elems.length - j * a.f1.maxNumInChunk := by
      rw [List.length_drop, length_shifted]
    refine ⟨⟨j + 1, fun _ => 0⟩, ?_, ?_⟩
    · by_cases hlast : j = a.f1.elems.length / a.f1.maxNumInChunk
      · obtain ⟨hn, hlen⟩ := length_chunk_last hlast
        have hmod := Nat.mod_lt a.f1.elems.length a.f1.pos
        have hpage : a.f1.elems.drop (j * a.f1.maxNumInChunk) = a.f1.getChunk j := by
          rw [LVector.getChunk, page, List.take_of_length_le (by rw [List.length_drop]; omega)]
        rw [gen_last (by omega) (by omega), List.take_of_length_le (by omega),
          drop_shifted (by omega) (by omega), hpage]
      · obtain ⟨hle, hlen⟩ := length_chunk_full (Nat.lt_of_le_of_ne hj hlast)
        have hmore : (j + 1) * a.f1.maxNumInChunk + a.shiftBy ≤ a.f1.elems.length := by
          have hup : (j + 1) * a.f1.maxNumInChunk ≤
              a.f1.elems.length / a.f1.maxNumInChunk * a.f1.maxNumInChunk :=
            Nat.mul_le_mul_right _ (by omega)
          have hdiv := Nat.div_add_mod' a.f1.elems.length a.f1.maxNumInChunk
          omega
        have hnext : a.shiftBy ≤ (a.f1.getChunk (j + 1)).length := by
          have hlt := a.lt
          rw [LVector.length_getChunk]
          omega
        have hpos := a.pos
        rw [gen_full hlen (by omega), Nat.sub_eq_zero_of_le hnext, List.replicate_zero,
          List.append_nil, take_full hmore]
    · intro hmore
      rw [hdrop] at hmore
      refine ⟨rfl, ?_, ?_⟩
      · rw [Nat.le_div_iff_mul_le a.f1.pos, Nat.add_mul, Nat.one_mul]
        have hpos := a.f1.pos
        omega
      · rw [List.drop_drop, Nat.add_mul, Nat.one_mul]
  · exact ⟨rfl, Nat.zero_le _, by simp⟩

/-- Otherwise every chunk before the last is full, or the call fails, and the last is lost. -/
theorem gen_short_last (h : ¬ a.LongLast) (hj : j ≤ a.f1.elems.length / a.f1.maxNumInChunk)
    {out : List α} {t : VshiftState} (hgen : a.gen zero ⟨j, fun _ => 0⟩ j = some (out, t)) :
    (out.length = a.f1.maxNumInChunk ∧ t = ⟨j + 1, fun _ => 0⟩ ∧
      j + 1 ≤ a.f1.elems.length / a.f1.maxNumInChunk) ∨
        (out = [] ∧ j * a.f1.maxNumInChunk < a.f1.elems.length) := by
  rw [Vshift.LongLast] at h
  have hpos := a.pos
  by_cases hlast : j = a.f1.elems.length / a.f1.maxNumInChunk
  · obtain ⟨hn, hlen⟩ := length_chunk_last hlast
    by_cases hshort : (a.f1.getChunk j).length < a.shiftBy
    · rw [gen_short hshort] at hgen
      cases hgen
    · rw [gen_exact (by omega)] at hgen
      cases hgen
      exact Or.inr ⟨rfl, by omega⟩
  · obtain ⟨-, hlen⟩ := length_chunk_full (Nat.lt_of_le_of_ne hj hlast)
    by_cases hnext : (a.f1.getChunk (j + 1)).length = 0
    · rw [gen_missing hlen hnext] at hgen
      cases hgen
    · have hlt := a.lt
      rw [gen_full hlen (by omega)] at hgen
      cases hgen
      refine Or.inl ⟨?_, rfl, by omega⟩
      simp only [List.length_append, List.length_drop, List.length_take, List.length_replicate]
      omega

theorem length_lt_of_pulls (h : ¬ a.LongLast) {outs : List (List α)} {s : VshiftState}
    (hp : Pulls (a.gen zero) a.f1.maxNumInChunk s j outs) (hs : s = ⟨j, fun _ => 0⟩)
    (hj : j ≤ a.f1.elems.length / a.f1.maxNumInChunk) :
    outs.flatten.length + j * a.f1.maxNumInChunk < a.f1.elems.length := by
  have hpos := a.f1.pos
  induction hp with
  | last hgen hn =>
      rw [hs] at hgen
      cases gen_short_last h hj hgen with
      | inl hfull => exact absurd hfull.1 hn
      | inr hend => simpa [hend.1] using hend.2
  | more hgen hn _ ih =>
      rw [hs] at hgen
      cases gen_short_last h hj hgen with
      | inl hfull =>
          have hrest := ih hfull.2.1 hfull.2.2
          rw [Nat.add_mul, Nat.one_mul] at hrest
          rw [List.flatten_cons, List.length_append]
          omega
      | inr hend =>
          rw [hend.1, List.length_nil] at hn
          omega

/-- **vshift.** The calls succeed and yield the shifted vector exactly where the last chunk is
not full and longer than the shift. -/
theorem vshift_iff (a : Vshift α) (zero : α) :
    (∃ outs, Pulls (a.gen zero) a.f1.maxNumInChunk Vshift.start 0 outs ∧
      outs.flatten = a.shifted) ↔ a.LongLast := by
  constructor
  · intro h
    obtain ⟨outs, hp, hflat⟩ := h
    by_contra hshort
    have hlt := length_lt_of_pulls hshort hp rfl (Nat.zero_le _)
    rw [hflat, length_shifted] at hlt
    omega
  · exact fun h => pulls_shifted h zero

/-- One element, shifted by one. -/
def oneElement : Vshift Nat where
  f1 := ⟨[5], 64, sixtyFour_pos⟩
  shiftBy := 1
  newval := 9
  pos := Nat.one_pos
  lt := Nat.le_of_ble_eq_true rfl

/-- Nothing comes out for it. -/
theorem oneElement_fails :
    ¬ ∃ outs, Pulls (oneElement.gen 0) oneElement.f1.maxNumInChunk Vshift.start 0 outs ∧
      outs.flatten = oneElement.shifted := by
  intro h
  obtain ⟨outs, hp, hflat⟩ := h
  have hgen : oneElement.gen 0 Vshift.start 0 = some ([], Vshift.start) := gen_exact rfl
  cases hp with
  | last hg _ =>
      rw [hgen] at hg
      cases hg
      exact absurd hflat (by decide)
  | more hg hn _ =>
      rw [hgen] at hg
      cases hg
      exact absurd hn (by decide)

end QStore.Operators
