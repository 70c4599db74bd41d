import QStore.Operators.LVector
import QStore.Lib.Pull

/-!
# QStore.Operators.Where

`where` (`WHERE/lua/expander_where.lua` and its two kernels): the elements of a
vector that a mask selects.

```
kernel     one input chunk, from aidx on, until the output is full and
           another element is selected
generator  input chunks until the output is full or the input ends
```

The generator ends for want of input in two places, and neither counts the
call. At the first the output is never full; at the second it may be.
-/

namespace QStore.Operators

variable {α : Type}

/-- `get_bit_u64` -/
def getBitU64 (X : List UInt64) (i : Nat) : UInt64 :=
  (X.getD (i >>> 6) 0 >>> (i &&& 0x3F).toUInt64) &&& 0x1

/-- An evaluated `lVector` of type `B1`: its bits, in words. -/
structure BitVector where
  words : List UInt64
  numElements : Nat
  maxNumInChunk : Nat
  pos : 0 < maxNumInChunk
  aligned : 64 ∣ maxNumInChunk

/-- The words of a chunk, as `get_chunk` hands them out. -/
def BitVector.getChunk (v : BitVector) (chunkIdx : Nat) : List UInt64 :=
  (v.words.drop (chunkIdx * v.maxNumInChunk / 64)).take (v.maxNumInChunk / 64)

/-- A mask is a `BL` or a `B1` vector. -/
inductive Mask where
  | bl (v : LVector Bool)
  | b1 (v : BitVector)

namespace Mask

def maxNumInChunk : Mask → Nat
  | bl v => v.maxNumInChunk
  | b1 v => v.maxNumInChunk

/-- What the mask says of each element. -/
def elems : Mask → List Bool
  | bl v => v.elems
  | b1 v => (List.range v.numElements).map fun i => getBitU64 v.words i == 1

/-- The length of a chunk. -/
def chunkLen (b : Mask) (chunkIdx : Nat) : Nat :=
  min b.maxNumInChunk (b.elems.length - chunkIdx * b.maxNumInChunk)

/-- What the kernels test of a chunk of the mask: `B[abidx]` in `where_BL`,
`get_bit_u64(B, aidx) == 1` in `where_B1`. -/
def test (b : Mask) (chunkIdx : Nat) : Nat → Bool :=
  match b with
  | bl v => fun i => (v.getChunk chunkIdx).getD i false
  | b1 v => fun i => getBitU64 (v.getChunk chunkIdx) i == 1

end Mask

/-- The loop of either kernel over what is left of its input. -/
def whereLoop (B : Nat → Bool) (nC : Nat) : List α → Nat → List α → Nat × List α
  | [], abidx, out => (abidx, out)
  | x :: A, abidx, out =>
      if B abidx then
        if out.length = nC then (abidx, out) else whereLoop B nC A (abidx + 1) (out ++ [x])
      else whereLoop B nC A (abidx + 1) out

/-- `where_BL` and `where_B1`, the kernels: the new index and the output.
`none`: a negative status. -/
def whereKernel (A : List α) (B : Nat → Bool) (abidx : Nat) (nC : Nat) (out : List α) :
    Option (Nat × List α) :=
  if A.length = 0 ∨ nC = 0 then none
  else if out.length > nC then none
  else if abidx ≥ A.length then none
  else
    let r := whereLoop B nC (A.drop abidx) abidx out
    if r.2.length > nC ∨ r.1 > A.length then none else some r

/-- What the generator keeps between calls. -/
structure WhereState where
  abChunkNum : Nat
  aidx : Nat
  lChunkNum : Nat

/-- Before the first call. -/
def whereStart : WhereState := ⟨0, 0, 0⟩

/-- `repeat … until` of the generator, for at most `fuel` turns. -/
def whereRepeat (a : LVector α) (b : Mask) (nC : Nat) :
    Nat → WhereState → List α → Option (List α × WhereState)
  | 0, _, _ => none
  | fuel + 1, s, out =>
      let aChunk := a.getChunk s.abChunkNum
      let abLen := aChunk.length
      if abLen ≠ b.chunkLen s.abChunkNum then none
      else if abLen = 0 then some (out, s)
      else
        (whereKernel aChunk (b.test s.abChunkNum) s.aidx nC out).bind fun r =>
          if r.1 ≥ abLen ∧ abLen < a.maxNumInChunk then some (r.2, { s with aidx := r.1 })
          else
            let s := if r.1 ≥ abLen then { s with abChunkNum := s.abChunkNum + 1, aidx := 0 }
              else { s with aidx := r.1 }
            if r.2.length = nC then some (r.2, { s with lChunkNum := s.lChunkNum + 1 })
            else whereRepeat a b nC fuel s r.2

/-- `gen`: one output chunk. Each turn of its loop but the last moves to the next
input chunk. -/
def whereGen (a : LVector α) (b : Mask) (nC : Nat) : Gen WhereState α := fun s chunkNum =>
  if chunkNum ≠ s.lChunkNum then none
  else whereRepeat a b nC (a.elems.length + 1) s []

/-! ## the mask -/

/-- A bit of a chunk is a bit of the vector. -/
theorem BitVector.getBitU64_getChunk (v : BitVector) (c : Nat) {j : Nat}
    (hj : j < v.maxNumInChunk) :
    getBitU64 (v.getChunk c) j = getBitU64 v.words (c * v.maxNumInChunk + j) := by
  obtain ⟨m, hm⟩ := v.aligned
  have hbase : c * v.maxNumInChunk = 64 * (c * m) := by rw [hm, Nat.mul_left_comm]
  have hword : ∀ i : Nat, i >>> 6 = i / 64 := fun i => Nat.shiftRight_eq_div_pow i 6
  have hbit : ∀ i : Nat, i &&& 0x3F = i % 64 := fun i => Nat.and_two_pow_sub_one_eq_mod i 6
  rw [getBitU64, getBitU64, hword, hword, hbit, hbit, getChunk, hbase, hm,
    Nat.mul_div_cancel_left _ (by decide), Nat.mul_div_cancel_left _ (by decide),
    Nat.mul_add_mod, Nat.mul_add_div (by decide), List.getD_eq_getElem?_getD,
    List.getD_eq_getElem?_getD, List.getElem?_take_of_lt (by omega), List.getElem?_drop]

/-- What the kernels test is what the mask says. -/
theorem Mask.test_eq (b : Mask) (c : Nat) {j : Nat} (hj : j < b.chunkLen c) :
    (page b.maxNumInChunk b.elems c)[j]? = some (b.test c j) := by
  rw [chunkLen] at hj
  have hlen : j < (page b.maxNumInChunk b.elems c).length := by
    rw [length_page]
    exact hj
  cases b with
  | bl v =>
      simp only [maxNumInChunk, elems] at hlen ⊢
      simp only [test, LVector.getChunk, List.getD_eq_getElem?_getD]
      rw [List.getElem?_eq_getElem hlen]
      rfl
  | b1 v =>
      simp only [maxNumInChunk] at hj ⊢
      simp only [page, test]
      rw [v.getBitU64_getChunk c (by omega), List.getElem?_take_of_lt (by omega),
        List.getElem?_drop]
      simp only [elems, List.getElem?_map]
      simp only [elems, List.length_map, List.length_range] at hj
      rw [List.getElem?_range (by omega)]
      rfl

/-! ## the kernel -/

/-- The elements that are selected. -/
def pick (ps : List (α × Bool)) : List α := (ps.filter Prod.snd).map Prod.fst

theorem pick_append (ps qs : List (α × Bool)) : pick (ps ++ qs) = pick ps ++ pick qs := by
  simp [pick]

variable {ps : List (α × Bool)} {B : Nat → Bool} {out : List α} {i nC : Nat}

/-- What a kernel does with its input: it takes all there is, or stops where the
output is full and another element is selected. -/
inductive Picked (nC : Nat) (ps : List (α × Bool)) (i : Nat) (out : List α) : Nat × List α → Prop
  | done (h : (out ++ pick ps).length ≤ nC) : Picked nC ps i out (i + ps.length, out ++ pick ps)
  | full {j : Nat} {out' : List α} (hj : j < ps.length) (hlen : out'.length = nC)
      (hrest : out ++ pick ps = out' ++ pick (ps.drop j)) (hne : pick (ps.drop j) ≠ []) :
      Picked nC ps i out (i + j, out')

theorem Picked.cons {p : α × Bool} {r : Nat × List α}
    (h : Picked nC ps (i + 1) (out ++ pick [p]) r) : Picked nC (p :: ps) i out r := by
  have hpick : out ++ pick (p :: ps) = out ++ pick [p] ++ pick ps := by
    rw [List.append_assoc, ← pick_append, List.singleton_append]
  cases h with
  | done h =>
      rw [← hpick] at h ⊢
      have hi : i + 1 + ps.length = i + (p :: ps).length := by rw [List.length_cons]; omega
      rw [hi]
      exact .done h
  | @full j out' hj hlen hrest hne =>
      rw [← hpick] at hrest
      rw [Nat.add_assoc, Nat.add_comm 1 j]
      exact .full (by rw [List.length_cons]; omega) hlen hrest hne

/-- **The kernels** take the selected elements of their input in order. -/
theorem whereLoop_picked (hB : ∀ j, (h : j < ps.length) → B (i + j) = (ps[j]).2)
    (hlen : out.length ≤ nC) :
    Picked nC ps i out (whereLoop B nC (ps.map Prod.fst) i out) := by
  induction ps generalizing i out with
  | nil =>
      have h : Picked nC [] i out (i + ([] : List (α × Bool)).length, out ++ pick []) :=
        .done (by simpa [pick] using hlen)
      simpa [pick, whereLoop] using h
  | cons p ps ih =>
      have hp : B i = p.2 := hB 0 (Nat.succ_pos _)
      have hB' : ∀ j, (h : j < ps.length) → B (i + 1 + j) = (ps[j]).2 := by
        intro j h
        rw [Nat.add_assoc, Nat.add_comm 1 j]
        exact hB (j + 1) (Nat.succ_lt_succ h)
      rw [List.map_cons, whereLoop, hp]
      cases hsel : p.2 with
      | false =>
          have hnone : pick [p] = [] := by simp [pick, hsel]
          rw [if_neg (by simp)]
          refine Picked.cons ?_
          rw [hnone, List.append_nil]
          exact ih hB' hlen
      | true =>
          have hone : pick [p] = [p.1] := by simp [pick, hsel]
          rw [if_pos rfl]
          by_cases hfull : out.length = nC
          · rw [if_pos hfull]
            refine .full (j := 0) (Nat.succ_pos _) hfull rfl ?_
            rw [List.drop_zero, ← List.singleton_append, pick_append, hone]
            simp
          · rw [if_neg hfull]
            refine Picked.cons ?_
            rw [hone]
            refine ih hB' ?_
            rw [List.length_append, List.length_singleton]
            omega

/-! ## one call -/

variable {a : LVector α} {b : Mask} {s : WhereState} {k : Nat}

/-- The two vectors go together. -/
structure Paired (a : LVector α) (b : Mask) : Prop where
  length : a.elems.length = b.elems.length
  chunks : b.maxNumInChunk = a.maxNumInChunk

/-- The elements, each with what the mask says of it. -/
def tagged (a : LVector α) (b : Mask) : List (α × Bool) := a.elems.zip b.elems

/-- Where in the vectors the generator stands. -/
def WhereState.at (a : LVector α) (s : WhereState) : Nat :=
  s.abChunkNum * a.maxNumInChunk + s.aidx

/-- The generator stands at the start of a chunk or inside one. -/
def InChunk (a : LVector α) (s : WhereState) : Prop :=
  s.aidx = 0 ∨ s.aidx < (a.getChunk s.abChunkNum).length

/-- An element of the last input chunk is selected, and that chunk is partial. -/
def LastPartial (a : LVector α) (b : Mask) : Prop :=
  pick ((tagged a b).drop (a.elems.length / a.maxNumInChunk * a.maxNumInChunk)) ≠ []

theorem length_tagged (hp : Paired a b) : (tagged a b).length = a.elems.length := by
  rw [tagged, List.length_zip, ← hp.length, Nat.min_self]

/-- A chunk of the vector is what a page of the pairs says. -/
theorem getChunk_eq (hp : Paired a b) (c : Nat) :
    a.getChunk c = (page a.maxNumInChunk (tagged a b) c).map Prod.fst := by
  rw [LVector.getChunk, page, page, tagged, List.map_take, List.map_drop, List.map_fst_zip]
  exact Nat.le_of_eq hp.length

/-- What the kernels test of a chunk is what its pairs say. -/
theorem test_page (hp : Paired a b) (c : Nat) {j : Nat}
    (hj : j < (page a.maxNumInChunk (tagged a b) c).length) :
    b.test c j = ((page a.maxNumInChunk (tagged a b) c)[j]).2 := by
  have hlt : j < b.chunkLen c := by
    rw [length_page, length_tagged hp, hp.length] at hj
    rwa [Mask.chunkLen, hp.chunks]
  have htest := b.test_eq c hlt
  rw [hp.chunks] at htest
  have hsnd : page a.maxNumInChunk b.elems c =
      (page a.maxNumInChunk (tagged a b) c).map Prod.snd := by
    rw [page, page, tagged, List.map_take, List.map_drop, List.map_snd_zip]
    exact Nat.le_of_eq hp.length.symm
  rw [hsnd, List.getElem?_map, List.getElem?_eq_getElem hj, Option.map_some,
    Option.some.injEq] at htest
  exact htest.symm

/-- A chunk of the vector and of the mask have one length. -/
theorem length_chunk (hp : Paired a b) (c : Nat) : (a.getChunk c).length = b.chunkLen c := by
  rw [LVector.length_getChunk, Mask.chunkLen, hp.chunks, hp.length]

/-- The kernels, called on a chunk. -/
theorem whereKernel_picked (hp : Paired a b) (hpos : 0 < nC) (hlen : out.length ≤ nC)
    (hidx : s.aidx < (a.getChunk s.abChunkNum).length) :
    ∃ r, whereKernel (a.getChunk s.abChunkNum) (b.test s.abChunkNum) s.aidx nC out = some r ∧
      Picked nC ((page a.maxNumInChunk (tagged a b) s.abChunkNum).drop s.aidx) s.aidx out r := by
  obtain ⟨P, hP⟩ : ∃ P, P = page a.maxNumInChunk (tagged a b) s.abChunkNum := ⟨_, rfl⟩
  have hA := getChunk_eq hp s.abChunkNum
  rw [← hP] at hA ⊢
  have hlenA : (a.getChunk s.abChunkNum).length = P.length := by rw [hA, List.length_map]
  have hdrop : (a.getChunk s.abChunkNum).drop s.aidx = (P.drop s.aidx).map Prod.fst := by
    rw [hA, List.map_drop]
  have hpicked : Picked nC (P.drop s.aidx) s.aidx out (whereLoop (b.test s.abChunkNum) nC
      ((P.drop s.aidx).map Prod.fst) s.aidx out) := by
    refine whereLoop_picked (fun j h => ?_) hlen
    rw [List.length_drop] at h
    have hj : s.aidx + j < P.length := by omega
    subst hP
    rw [test_page hp s.abChunkNum hj, List.getElem_drop]
  refine ⟨_, ?_, hpicked⟩
  rw [whereKernel, if_neg (by omega), if_neg (by omega), if_neg (by omega), hdrop]
  simp only
  rw [if_neg]
  generalize whereLoop (b.test s.abChunkNum) nC ((P.drop s.aidx).map Prod.fst) s.aidx out = r
    at hpicked
  have hrest : (P.drop s.aidx).length = P.length - s.aidx := List.length_drop
  cases hpicked with
  | done h => simp only; omega
  | full hj hout _ _ => simp only; omega

/-- What a call leaves, when `room` more elements filled the output and `T` was
left to give. -/
structure Leaves (a : LVector α) (b : Mask) (T : List α) (room : Nat) (s t : WhereState) :
    Prop where
  next : room ≤ T.length → ¬ (T.length = room ∧ LastPartial a b) →
    t.lChunkNum = s.lChunkNum + 1 ∧ InChunk a t ∧ pick ((tagged a b).drop (t.at a)) = T.drop room
  stuck : T.length = room → LastPartial a b → t.lChunkNum = s.lChunkNum

/-- The partial chunk is the last one. -/
theorem lastPartial_of_short (hp : Paired a b) {c i : Nat}
    (hshort : (page a.maxNumInChunk (tagged a b) c).length < a.maxNumInChunk)
    (h : pick ((page a.maxNumInChunk (tagged a b) c).drop i) ≠ []) : LastPartial a b := by
  have hlen := length_page (p := a.maxNumInChunk) (D := tagged a b) (i := c)
  rw [length_tagged hp] at hlen
  have hne : (page a.maxNumInChunk (tagged a b) c) ≠ [] := by
    intro hnil
    rw [hnil, List.drop_nil] at h
    exact h rfl
  have hpos := List.length_pos_iff.mpr hne
  have hdiv : a.elems.length / a.maxNumInChunk = c := by
    rw [Nat.div_eq_iff a.pos]
    have hmul : (c + 1) * a.maxNumInChunk = c * a.maxNumInChunk + a.maxNumInChunk := by
      rw [Nat.add_mul, Nat.one_mul]
    constructor
    · omega
    · omega
  rw [LastPartial, hdiv, ← page_append_drop, pick_append]
  refine List.append_ne_nil_of_left_ne_nil ?_ _
  rw [← List.take_append_drop i (page a.maxNumInChunk (tagged a b) c), pick_append]
  exact List.append_ne_nil_of_right_ne_nil _ h

/-- Once a full chunk ends what is selected, the partial chunk has nothing. -/
theorem not_lastPartial_of_full (hp : Paired a b) {c : Nat}
    (hfull : ¬ (page a.maxNumInChunk (tagged a b) c).length < a.maxNumInChunk)
    (h : pick ((tagged a b).drop ((c + 1) * a.maxNumInChunk)) = []) : ¬ LastPartial a b := by
  rw [length_page, length_tagged hp] at hfull
  have hpos := a.pos
  have hmul : (c + 1) * a.maxNumInChunk = c * a.maxNumInChunk + a.maxNumInChunk := by
    rw [Nat.add_mul, Nat.one_mul]
  have hle : (c + 1) * a.maxNumInChunk ≤ a.elems.length / a.maxNumInChunk * a.maxNumInChunk := by
    refine Nat.mul_le_mul_right _ ?_
    rw [Nat.le_div_iff_mul_le hpos]
    omega
  obtain ⟨d, hd⟩ := Nat.exists_eq_add_of_le hle
  rw [LastPartial, not_not, hd, ← List.drop_drop]
  have hsplit := pick_append (((tagged a b).drop ((c + 1) * a.maxNumInChunk)).take d)
    (((tagged a b).drop ((c + 1) * a.maxNumInChunk)).drop d)
  rw [List.take_append_drop, h] at hsplit
  exact (List.append_eq_nil_iff.mp hsplit.symm).2

/-- Where the generator stands in a chunk, with the pairs of the chunk before
those of the chunks that follow. -/
theorem drop_at (h : s.aidx ≤ (page a.maxNumInChunk (tagged a b) s.abChunkNum).length) :
    (tagged a b).drop (s.at a) =
      (page a.maxNumInChunk (tagged a b) s.abChunkNum).drop s.aidx ++
        (tagged a b).drop ((s.abChunkNum + 1) * a.maxNumInChunk) := by
  rw [WhereState.at, ← List.drop_drop, ← page_append_drop, List.drop_append_of_le_length h]

/-- What fills the output, and what is left for the next one. -/
theorem fill_eq {T R out' : List α} (h : out ++ T = out' ++ R) (hlen : out.length ≤ nC)
    (hfull : out'.length = nC) :
    out' = out ++ T.take (nC - out.length) ∧ R = T.drop (nC - out.length) := by
  have htake := congrArg (List.take nC) h
  have hdrop := congrArg (List.drop nC) h
  rw [List.take_append, List.take_of_length_le hlen, List.take_left' hfull] at htake
  rw [List.drop_append, List.drop_of_length_le hlen, List.drop_left' hfull, List.nil_append] at hdrop
  exact ⟨htake.symm, hdrop.symm⟩

/-- What the rest of a call leaves, the whole call leaves. -/
theorem Leaves.of_rest {S T : List α} {room : Nat} {u t : WhereState}
    (h : Leaves a b T (room - S.length) u t) (hS : S.length ≤ room)
    (hl : u.lChunkNum = s.lChunkNum) : Leaves a b (S ++ T) room s t := by
  constructor
  · intro hle hnot
    rw [List.length_append] at hle hnot
    obtain ⟨h1, h2, h3⟩ := h.next (by omega) fun hc => hnot ⟨by omega, hc.2⟩
    refine ⟨by rw [h1, hl], h2, ?_⟩
    rw [h3, List.drop_append, List.drop_of_length_le hS, List.nil_append]
  · intro heq hlast
    rw [List.length_append] at heq
    rw [h.stuck (by omega) hlast, hl]

/-- **The loop of the generator** gives the selected elements that are left, as
many as there is room for. -/
theorem whereRepeat_leaves (hp : Paired a b) {fuel : Nat}
    (hfuel : a.elems.length - s.abChunkNum * a.maxNumInChunk < fuel) (hin : InChunk a s)
    (hlen : out.length < nC) :
    ∃ t, whereRepeat a b nC fuel s out =
        some (out ++ (pick ((tagged a b).drop (s.at a))).take (nC - out.length), t) ∧
      Leaves a b (pick ((tagged a b).drop (s.at a))) (nC - out.length) s t := by
  induction fuel generalizing s out with
  | zero => omega
  | succ fuel ih =>
      have hA : (a.getChunk s.abChunkNum).length =
          (page a.maxNumInChunk (tagged a b) s.abChunkNum).length := by
        rw [getChunk_eq hp, List.length_map]
      have hsize := length_page (p := a.maxNumInChunk) (D := tagged a b) (i := s.abChunkNum)
      rw [length_tagged hp] at hsize
      have hmul : (s.abChunkNum + 1) * a.maxNumInChunk =
          s.abChunkNum * a.maxNumInChunk + a.maxNumInChunk := by
        rw [Nat.add_mul, Nat.one_mul]
      have hpos := a.pos
      have hidx : s.aidx ≤ (page a.maxNumInChunk (tagged a b) s.abChunkNum).length := by
        rcases hin with h | h <;> omega
      rw [whereRepeat, drop_at hidx, pick_append]
      simp only
      rw [if_neg (by rw [length_chunk hp]; simp)]
      by_cases hend : (a.getChunk s.abChunkNum).length = 0
      · -- no more input: there was nothing left to select
        have hnil : page a.maxNumInChunk (tagged a b) s.abChunkNum = [] :=
          List.length_eq_zero_iff.mp (hA ▸ hend)
        have hrest := drop_eq_nil_of_short_page (p := a.maxNumInChunk) (D := tagged a b)
          (i := s.abChunkNum) (by rw [hnil]; exact hpos)
        have hnone : pick ([] : List (α × Bool)) = [] := rfl
        rw [if_pos hend, hnil, hrest, List.drop_nil, hnone, List.append_nil, List.take_nil,
          List.append_nil]
        refine ⟨s, rfl, fun hle _ => ?_, fun _ _ => rfl⟩
        rw [List.length_nil] at hle
        omega
      · have hlt : s.aidx < (a.getChunk s.abChunkNum).length := by
          rcases hin with h | h <;> omega
        obtain ⟨r, hr, hpicked⟩ := whereKernel_picked hp (by omega) (Nat.le_of_lt hlen) hlt
        rw [if_neg hend, hr, Option.bind_some]
        obtain ⟨T, hT⟩ :
            ∃ T, T = pick ((tagged a b).drop ((s.abChunkNum + 1) * a.maxNumInChunk)) := ⟨_, rfl⟩
        rw [← hT]
        have hdrop : s.aidx + ((page a.maxNumInChunk (tagged a b) s.abChunkNum).drop
            s.aidx).length = (a.getChunk s.abChunkNum).length := by
          rw [List.length_drop]
          omega
        cases hpicked with
        | done hfit =>
            simp only [hdrop]
            obtain ⟨S, hS⟩ : ∃ S, S = pick ((page a.maxNumInChunk (tagged a b)
              s.abChunkNum).drop s.aidx) := ⟨_, rfl⟩
            rw [← hS] at hfit ⊢
            have hroom : S.length ≤ nC - out.length := by
              rw [List.length_append] at hfit
              omega
            by_cases hshort : (a.getChunk s.abChunkNum).length < a.maxNumInChunk
            · -- the partial chunk is consumed
              rw [if_pos ⟨Nat.le_refl _, hshort⟩]
              rw [hA] at hshort
              rw [drop_eq_nil_of_short_page hshort] at hT
              have hnone : T = [] := hT
              rw [hnone, List.append_nil, List.take_of_length_le hroom]
              refine ⟨_, rfl, fun hle hnot => absurd ?_ hnot, fun _ _ => rfl⟩
              refine ⟨by omega, lastPartial_of_short hp hshort (i := s.aidx) ?_⟩
              rw [← hS]
              intro hnil
              rw [hnil, List.length_nil] at hle
              omega
            · -- a full chunk is consumed
              rw [if_neg (fun h => hshort h.2), if_pos (Nat.le_refl _)]
              have hstart : (tagged a b).drop
                  (WhereState.at a { s with abChunkNum := s.abChunkNum + 1, aidx := 0 }) =
                  (tagged a b).drop ((s.abChunkNum + 1) * a.maxNumInChunk) := rfl
              by_cases hfull : (out ++ S).length = nC
              · rw [if_pos hfull]
                have hsplit := fill_eq (List.append_assoc out S T).symm (Nat.le_of_lt hlen) hfull
                refine ⟨_, by rw [← hsplit.1], fun _ _ => ⟨rfl, .inl rfl, ?_⟩, ?_⟩
                · rw [← hsplit.2, hT]
                  exact congrArg pick hstart
                · intro heq hlast
                  have hnone : T = [] := by
                    rw [hsplit.2, ← heq, List.drop_length]
                  rw [hA] at hshort
                  exact absurd hlast (not_lastPartial_of_full hp hshort (by rw [← hT, hnone]))
              · rw [if_neg hfull]
                have hless : (out ++ S).length < nC := by omega
                obtain ⟨t, h1, h2⟩ := ih
                  (s := { s with abChunkNum := s.abChunkNum + 1, aidx := 0 })
                  (by simp only; omega) (.inl rfl) hless
                have hleft : nC - (out ++ S).length = nC - out.length - S.length := by
                  rw [List.length_append]
                  omega
                rw [hstart, ← hT, hleft] at h1 h2
                refine ⟨t, ?_, h2.of_rest hroom rfl⟩
                rw [h1, List.append_assoc, List.take_append, List.take_of_length_le hroom]
        | @full j out' hj hfull hrest hne =>
            have hinside : s.aidx + j < (a.getChunk s.abChunkNum).length := by omega
            simp only
            rw [if_neg (fun h => Nat.not_le.mpr hinside h.1), if_pos hfull,
              if_neg (Nat.not_le.mpr hinside)]
            have hall := congrArg (· ++ T) hrest
            simp only [List.append_assoc] at hall
            have hsplit := fill_eq hall (Nat.le_of_lt hlen) hfull
            refine ⟨_, by rw [← hsplit.1], fun _ _ => ⟨rfl, .inr hinside, ?_⟩, ?_⟩
            · rw [← hsplit.2, drop_at (by simp only; omega), pick_append, ← hT, List.drop_drop]
            · intro heq _
              have hnil := hsplit.2
              rw [← heq, List.drop_length, List.append_eq_nil_iff] at hnil
              exact absurd hnil.1 hne

/-- The generator is good for a call with number `k`, and `rest` is left. -/
structure WhereGood (a : LVector α) (b : Mask) (rest : List α) (s : WhereState) (k : Nat) :
    Prop where
  num : s.lChunkNum = k
  inside : InChunk a s
  rest : rest = pick ((tagged a b).drop (s.at a))

/-- **One call**: the next elements, as many as the output holds. -/
theorem whereGen_eq (hp : Paired a b) (hpos : 0 < nC) {rest : List α}
    (h : WhereGood a b rest s k) :
    ∃ t, whereGen a b nC s k = some (rest.take nC, t) ∧
      (nC ≤ rest.length → ¬ (rest.length = nC ∧ LastPartial a b) →
        WhereGood a b (rest.drop nC) t (k + 1)) ∧
      (rest.length = nC → LastPartial a b → whereGen a b nC t (k + 1) = none) := by
  obtain ⟨t, h1, h2⟩ := whereRepeat_leaves hp
    (Nat.lt_succ_of_le (Nat.sub_le _ _)) h.inside (show ([] : List α).length < nC from hpos)
  rw [← h.rest, List.nil_append, List.length_nil, Nat.sub_zero] at h1
  rw [← h.rest, List.length_nil, Nat.sub_zero] at h2
  have hnum := h.num
  refine ⟨t, ?_, fun hle hnot => ?_, fun heq hlast => ?_⟩
  · rw [whereGen, if_neg (by simp [hnum]), h1]
  · obtain ⟨h3, h4, h5⟩ := h2.next hle hnot
    exact ⟨by rw [h3, hnum], h4, h5.symm⟩
  · rw [whereGen, if_pos]
    rw [h2.stuck heq hlast, hnum]
    omega

/-! ## what was asked for -/

/-- `where` gives the elements that the mask selects, and no call fails. -/
def WhereFilters (a : LVector α) (b : Mask) (nC : Nat) : Prop :=
  ∃ outs, Pulls (whereGen a b nC) nC whereStart 0 outs ∧ outs.flatten = pick (tagged a b)

theorem whereGood_start : WhereGood a b (pick (tagged a b)) whereStart 0 :=
  ⟨rfl, .inl rfl, by simp [WhereState.at, whereStart]⟩

theorem whereFilters_of (hp : Paired a b) (hpos : 0 < nC)
    (h : ¬ (nC ∣ (pick (tagged a b)).length ∧ LastPartial a b)) : WhereFilters a b nC := by
  refine Pulls.of_pieces
    (fun s k rest => WhereGood a b rest s k ∧ ¬ (nC ∣ rest.length ∧ LastPartial a b)) hpos ?_
    ⟨whereGood_start, h⟩
  intro s k rest ⟨hs, hnot⟩
  obtain ⟨t, hg, hnext, -⟩ := whereGen_eq hp hpos hs
  refine ⟨t, hg, fun hle => ⟨hnext hle fun hc => hnot ⟨⟨1, by omega⟩, hc.2⟩, ?_⟩⟩
  intro ⟨hdvd, hlast⟩
  refine hnot ⟨?_, hlast⟩
  rw [List.length_drop] at hdvd
  have hsum := Nat.dvd_add hdvd (Nat.dvd_refl nC)
  rwa [Nat.sub_add_cancel hle] at hsum

/-- The partial chunk is part of the input. -/
theorem LastPartial.pick_ne_nil (h : LastPartial a b) : pick (tagged a b) ≠ [] := by
  intro hnil
  have hsplit := pick_append
    ((tagged a b).take (a.elems.length / a.maxNumInChunk * a.maxNumInChunk))
    ((tagged a b).drop (a.elems.length / a.maxNumInChunk * a.maxNumInChunk))
  rw [List.take_append_drop, hnil] at hsplit
  exact h (List.append_eq_nil_iff.mp hsplit.symm).2

theorem not_whereFilters (hp : Paired a b) (hpos : 0 < nC)
    (h : nC ∣ (pick (tagged a b)).length) (hlast : LastPartial a b) : ¬ WhereFilters a b nC := by
  intro ⟨outs, ho, _⟩
  refine not_pulls
    (fun s k => ∃ rest, WhereGood a b rest s k ∧ nC ∣ rest.length ∧ rest ≠ []) ?_
    ⟨_, whereGood_start, h, hlast.pick_ne_nil⟩ ho
  intro s k ⟨rest, hs, hdvd, hne⟩
  obtain ⟨t, hg, hnext, hstop⟩ := whereGen_eq hp hpos hs
  have hle : nC ≤ rest.length := Nat.le_of_dvd (List.length_pos_iff.mpr hne) hdvd
  refine ⟨_, t, hg, by rw [List.length_take]; omega, ?_⟩
  by_cases heq : rest.length = nC
  · exact .inr (hstop heq hlast)
  · refine .inl ⟨_, hnext hle fun hc => heq hc.1, ?_, ?_⟩
    · rw [List.length_drop]
      exact Nat.dvd_sub hdvd (Nat.dvd_refl nC)
    · rw [Ne, List.drop_eq_nil_iff]
      omega

/-- **When `where` filters**: exactly when the number of selected elements is no
multiple of the size of an output chunk, or the partial input chunk at the end
has none of them. -/
theorem whereFilters_iff (hp : Paired a b) (hpos : 0 < nC) :
    WhereFilters a b nC ↔ ¬ (nC ∣ (pick (tagged a b)).length ∧ LastPartial a b) :=
  ⟨fun h hc => not_whereFilters hp hpos hc.1 hc.2 h, whereFilters_of hp hpos⟩

/-- The numbers below `n`, in chunks of 64. -/
def below (n : Nat) : LVector Nat := ⟨List.range n, 64, sixtyFour_pos⟩

/-- The mask with all of its first 128 bits set but one in three. -/
def twoInThree (n : Nat) : Mask :=
  .b1 ⟨[0x6DB6DB6DB6DB6DB6, 0xB6DB6DB6DB6DB6DB], n, 64, sixtyFour_pos, Nat.dvd_refl 64⟩

/-- 66 elements out of 100, in output chunks of 64. -/
theorem whereFilters_66 : WhereFilters (below 100) (twoInThree 100) 64 :=
  (whereFilters_iff ⟨by decide, rfl⟩ (by decide)).mpr (fun h => absurd h.1 (by decide +kernel))

/-- 64 elements out of 96 fill an output chunk, and the call for the next fails. -/
theorem whereFilters_fails : ¬ WhereFilters (below 96) (twoInThree 96) 64 :=
  not_whereFilters ⟨by decide, rfl⟩ (by decide) (by decide +kernel)
    (by rw [LastPartial]; decide +kernel)

end QStore.Operators
