import QStore.Operators.LVector

/-!
# QStore.Operators.Reducer

The `Reducer` (`RUNTIME/RDCR/lua/Reducer.lua`) that `expander_f_to_s.lua` makes: a C function folds
the chunks of a vector, one at a time, into an accumulator.

```
next     one more chunk, if there is one
value    what the accumulator says so far
eval     all chunks that are left, and then the value
```

What the C function makes of the elements it has seen is a relation `Reduces`, and it is enough that
one chunk more keeps it (`Folds`). The destructor is left out.
-/

namespace QStore.Operators

section Model

variable {α A : Type}

/-- A `Reducer` with the accumulator of `expander_f_to_s` for its value, and the `l_chunk_num` of
its generator. -/
structure Reducer (A : Type) where
  value : A
  hasGen : Bool
  isEor : Bool
  index : Nat
  lChunkNum : Nat

/-- `Reducer.new`, with both a generator and a value. -/
def Reducer.new (value : A) : Reducer A := ⟨value, true, false, 0, 0⟩

/-- `Reducer.new`, with a value only. -/
def Reducer.ofValue (value : A) : Reducer A := ⟨value, false, true, 0, 0⟩

variable (qc : List α → A → Nat → Option A) (x : LVector α)

/-- `lgen` of `expander_f_to_s`: what it returns, or `nil`, and the new `l_chunk_num`. `qc` is the C
function, given a chunk, the accumulator and the offset of the chunk. `none`: the assertion fails,
or what the C function does is undefined. -/
def lgen (r : Reducer A) (chunkNum : Nat) : Option (Option (A × Bool) × Nat) :=
  if chunkNum ≠ r.lChunkNum then none
  else
    let offset := r.lChunkNum * x.maxNumInChunk
    let xChunk := x.getChunk r.lChunkNum
    if xChunk.length = 0 then some (none, r.lChunkNum)
    else (qc xChunk r.value offset).map fun a =>
      (some (a, decide (xChunk.length < x.maxNumInChunk)), r.lChunkNum + 1)

/-- `Reducer:next` -/
def Reducer.next (r : Reducer A) : Option (Bool × Reducer A) :=
  if r.isEor then some (false, r)
  else if !r.hasGen then some (false, r)
  else (lgen qc x r r.index).map fun
    | (some (val, isEor), l) =>
        (true, { r with value := val, isEor := isEor, index := r.index + 1, lChunkNum := l })
    | (none, l) =>
        (false, { r with isEor := true, hasGen := false, index := r.index + 1, lChunkNum := l })

/-- The loop of `Reducer:eval`. -/
def Reducer.evalLoop : Nat → Reducer A → Option (Reducer A)
  | 0, _ => none
  | fuel + 1, r => (r.next qc x).bind fun g => if g.1 then evalLoop fuel g.2 else some g.2

/-- `Reducer:eval`, up to the value it returns. -/
def Reducer.eval (r : Reducer A) : Option (Reducer A) :=
  if r.isEor then some r
  else if r.hasGen then r.evalLoop qc x (x.elems.length + 1)
  else some r

/-- A call of a reducer. -/
inductive RCall
  | next
  | value
  | eval
  deriving DecidableEq

/-- The reducer after a call. -/
def RCall.step (r : Reducer A) : RCall → Option (Reducer A)
  | .next => (r.next qc x).map Prod.snd
  | .value => some r
  | .eval => r.eval qc x

/-- The reducer after some calls. -/
def reduceRun (r : Reducer A) (calls : List RCall) : Option (Reducer A) :=
  calls.foldlM (fun r c => c.step qc x r) r

/-- How many elements a reducer has seen after some calls. -/
def seen (x : LVector α) (calls : List RCall) : Nat :=
  if .eval ∈ calls then x.elems.length
  else min x.elems.length (calls.count .next * x.maxNumInChunk)

/-- One more chunk keeps what the accumulator says of the elements seen. -/
def Folds (qc : List α → A → Nat → Option A) (x : LVector α) (Reduces : List α → A → Prop) : Prop :=
  ∀ xs chunk a, chunk ≠ [] → xs ++ chunk <+: x.elems → Reduces xs a →
    ∃ a', qc chunk a xs.length = some a' ∧ Reduces (xs ++ chunk) a'

end Model

variable {α A : Type} {qc : List α → A → Nat → Option A} {x : LVector α}
  {Reduces : List α → A → Prop} {r : Reducer A} {n : Nat} {calls : List RCall} {a₀ : A}

/-- A reducer that is through stays as it is. -/
theorem Reducer.next_of_isEor (h : r.isEor = true) : r.next qc x = some (false, r) := by
  simp [Reducer.next, h]

theorem Reducer.evalLoop_of_isEor (h : r.isEor = true) (fuel : Nat) :
    r.evalLoop qc x (fuel + 1) = some r := by
  simp [Reducer.evalLoop, Reducer.next_of_isEor h]

/-- A reducer that has seen the first `n` elements. -/
structure Seen (x : LVector α) (Reduces : List α → A → Prop) (r : Reducer A) (n : Nat) : Prop where
  value : Reduces (x.elems.take n) r.value
  le : n ≤ x.elems.length
  going : r.isEor = false → r.hasGen = true ∧ r.index = r.lChunkNum ∧
    n = r.lChunkNum * x.maxNumInChunk
  done : r.isEor = true → n = x.elems.length

theorem Seen.new (h : Reduces [] a₀) : Seen x Reduces (.new a₀) 0 where
  value := by simpa [Reducer.new] using h
  le := Nat.zero_le _
  going := by simp [Reducer.new]
  done := by simp [Reducer.new]

/-- **One more chunk**, unless all have been seen. -/
theorem Seen.next (h : Seen x Reduces r n) (hf : Folds qc x Reduces) :
    ∃ b r', r.next qc x = some (b, r') ∧
      Seen x Reduces r' (min x.elems.length (n + x.maxNumInChunk)) ∧
      (b = true → n < x.elems.length) ∧ (b = false → r'.isEor = true) := by
  have hpos := x.pos
  cases heor : r.isEor with
  | true =>
      have hn := h.done heor
      refine ⟨false, r, by simp [Reducer.next, heor], ?_, by simp, fun _ => heor⟩
      rwa [Nat.min_eq_left (by omega), ← hn]
  | false =>
      obtain ⟨hgen, hidx, hn⟩ := h.going heor
      have hlen : (x.getChunk r.lChunkNum).length = min x.maxNumInChunk (x.elems.length - n) := by
        rw [LVector.length_getChunk, ← hn]
      have htake : x.elems.take n ++ x.getChunk r.lChunkNum =
          x.elems.take (min x.elems.length (n + x.maxNumInChunk)) := by
        rw [hn, LVector.getChunk, take_append_page, Nat.add_mul, Nat.one_mul, List.take_eq_take_iff]
        omega
      by_cases hzero : (x.getChunk r.lChunkNum).length = 0
      · have hall : n = x.elems.length := by
          have := h.le
          omega
        have hnext : r.next qc x =
            some (false, ⟨r.value, false, true, r.index + 1, r.lChunkNum⟩) := by
          simp [Reducer.next, lgen, heor, hgen, hidx, hzero]
        refine ⟨false, _, hnext, ?_, by simp, by simp⟩
        rw [Nat.min_eq_left (by omega), ← hall]
        exact ⟨h.value, h.le, by simp, fun _ => hall⟩
      · have hne : x.getChunk r.lChunkNum ≠ [] := fun h0 => hzero (by rw [h0]; rfl)
        have hpre : x.elems.take n ++ x.getChunk r.lChunkNum <+: x.elems := by
          rw [htake]
          exact List.take_prefix _ _
        obtain ⟨a, hqc, hred⟩ := hf _ _ _ hne hpre h.value
        rw [List.length_take, Nat.min_eq_left h.le, hn] at hqc
        have hnext : r.next qc x = some (true, ⟨a, true,
            decide ((x.getChunk r.lChunkNum).length < x.maxNumInChunk), r.index + 1,
            r.lChunkNum + 1⟩) := by
          simp [Reducer.next, lgen, heor, hgen, hidx, hzero, hqc]
        refine ⟨true, _, hnext, ?_, fun _ => by omega, by simp⟩
        refine ⟨htake ▸ hred, Nat.min_le_left .., fun hgo => ?_, fun heor' => ?_⟩
        · simp only [decide_eq_false_iff_not] at hgo
          refine ⟨rfl, by simp [hidx], ?_⟩
          simp only [Nat.add_mul, Nat.one_mul]
          omega
        · simp only [decide_eq_true_eq] at heor'
          omega

/-- The loop of `eval` sees all elements. -/
theorem Seen.evalLoop (h : Seen x Reduces r n) (hf : Folds qc x Reduces) {fuel : Nat}
    (hfuel : x.elems.length - n < fuel) : ∃ r', r.evalLoop qc x fuel = some r' ∧
      Seen x Reduces r' x.elems.length ∧ r'.isEor = true := by
  induction fuel generalizing r n with
  | zero => omega
  | succ fuel ih =>
      have hpos := x.pos
      obtain ⟨b, r', hnext, hseen, hmore, hlast⟩ := h.next hf
      cases b with
      | false =>
          have heor := hlast rfl
          exact ⟨r', by simp [Reducer.evalLoop, hnext], hseen.done heor ▸ hseen, heor⟩
      | true =>
          have := hmore rfl
          obtain ⟨r'', hloop, hall⟩ := ih hseen (by omega)
          exact ⟨r'', by simpa [Reducer.evalLoop, hnext] using hloop, hall⟩

theorem Seen.eval (h : Seen x Reduces r n) (hf : Folds qc x Reduces) :
    ∃ r', r.eval qc x = some r' ∧ Seen x Reduces r' x.elems.length ∧ r'.isEor = true := by
  cases heor : r.isEor with
  | true => exact ⟨r, by simp [Reducer.eval, heor], h.done heor ▸ h, heor⟩
  | false =>
      obtain ⟨r', hloop, hall⟩ := h.evalLoop hf (Nat.lt_succ_of_le (Nat.sub_le ..))
      exact ⟨r', by simp [Reducer.eval, heor, (h.going heor).1, hloop], hall⟩

theorem seen_nil : seen x [] = 0 := by simp [seen]

theorem seen_concat (c : RCall) : seen x (calls ++ [c]) =
    match c with
    | .next => min x.elems.length (seen x calls + x.maxNumInChunk)
    | .value => seen x calls
    | .eval => x.elems.length := by
  cases c with
  | next =>
      simp only [seen, List.mem_append, List.mem_singleton, reduceCtorEq, or_false,
        List.count_append, List.count_singleton_self, Nat.add_mul, Nat.one_mul]
      split <;> omega
  | value => simp [seen]
  | eval => simp [seen]

/-- **Any calls**, in any order, leave a reducer that has seen as many elements as they say. -/
theorem reduceRun_seen (hf : Folds qc x Reduces) (h₀ : Reduces [] a₀) (calls : List RCall) :
    ∃ r, reduceRun qc x (.new a₀) calls = some r ∧ Seen x Reduces r (seen x calls) := by
  induction calls using List.reverseRecOn with
  | nil => exact ⟨_, rfl, by rw [seen_nil]; exact .new h₀⟩
  | append_singleton calls c ih =>
      obtain ⟨r, hrun, hseen⟩ := ih
      have hlast : ∀ r', reduceRun qc x (.new a₀) (calls ++ [c]) = some r' ↔
          c.step qc x r = some r' := by
        intro r'
        rw [reduceRun, List.foldlM_append]
        rw [reduceRun] at hrun
        simp [hrun]
      simp only [hlast, seen_concat]
      cases c with
      | next =>
          obtain ⟨b, r', hnext, hseen', -⟩ := hseen.next hf
          exact ⟨r', by simp [RCall.step, hnext], hseen'⟩
      | value => exact ⟨r, rfl, hseen⟩
      | eval =>
          obtain ⟨r', heval, hseen', -⟩ := hseen.eval hf
          exact ⟨r', heval, hseen'⟩

end QStore.Operators
