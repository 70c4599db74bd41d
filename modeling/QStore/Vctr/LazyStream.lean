import QStore.Vctr.LazyRun

/-!
# QStore.Vctr.LazyStream

Lazy evaluation delivers the stream of a generator, and calls it once for each
chunk.

`LazyVctr` is a new vector with a generator that yields the chunks of a stream.
-/

namespace QStore.Vctr

open Function
open Member (Progress)

/-- What a run of calls on a group leads to. -/
structure Group.Reached (g : Group) (s : LSt) : Prop where
  even : ∃ k P, k ≤ g.n.last + 1 ∧ g.Holds P s ∧ g.Even k P

/-- A call in order, of a member. -/
def Group.InOrder (g : Group) (c : LazyOp) (s : LSt) : Prop :=
  (∃ m ∈ g.members, c.uqid = m.uqid) ∧ c.Asks s

namespace Group

variable {g : Group} {m : Member} {s t : LSt} {depth rounds : Nat} {c : LazyOp} {calls : List LazyOp}

theorem Reached.step (hd : g.members.length < depth) (hr : g.n.last < rounds) (h : g.Reached s)
    (hc : g.InOrder c s) (hst : c.step g.gen depth rounds s = some t) : g.Reached t := by
  obtain ⟨k, P, hk, hP, heven⟩ := h.even
  obtain ⟨⟨m, hm, hu⟩, hasks⟩ := hc
  have hop := hP.ends_op heven hm hk hd hr hu hasks
  rw [LazyOp.step] at hst
  cases hrun : c.run g.gen depth rounds s with
  | ok r t' =>
      rw [hrun, Option.some.injEq] at hst
      obtain ⟨l, P', -, hl, -, hP', heven', -⟩ := (hop.of_ok hrun).moved
      exact ⟨l, P', hl, hst ▸ hP', heven'⟩
  | error e t' =>
      obtain ⟨rfl, rfl, -, -⟩ := hop.of_error hrun
      rw [hrun, Option.some.injEq] at hst
      exact hst ▸ h

/-- **A run** of calls in order leaves the members even. -/
theorem Reached.run (hd : g.members.length < depth) (hr : g.n.last < rounds) (h : g.Reached s)
    (hc : Allowed (LazyOp.step g.gen depth rounds) g.InOrder calls s)
    (hrun : runAll (LazyOp.step g.gen depth rounds) calls s = some t) : g.Reached t :=
  hc.keeps (I := g.Reached) (fun _ _ _ hs hp hst => hs.step hd hr hp hst) h hrun

end Group

/-! ## one vector -/

/-- A new vector with a generator. -/
structure LazyVctr where
  n : Lengths
  gen : Nat → Nat → Chunk
  m : Member
  start : LSt
  fresh : m.At n [] ⟨0, fun _ => 0⟩ start

namespace LazyVctr

variable (V : LazyVctr)

/-- The generator was called for the first chunks of the stream in order, once for
each. The vector is at its end if it was called for the last one, and has all the
elements then. -/
structure Once (s : LSt) : Prop where
  in_order : ∃ k, k ≤ V.n.last + 1 ∧ (s.lua V.m.uqid).called = List.range k
  found : ∃ v, s.c.vctrs V.m.uqid = some v
  ended : ∀ v, s.c.vctrs V.m.uqid = some v →
    (v.isEov = true ↔ V.n.last ∈ (s.lua V.m.uqid).called)
  total : ∀ v, s.c.vctrs V.m.uqid = some v → v.isEov = true →
    v.numElements = V.n.last * V.n.max + V.n.short

/-- A call returns or is refused, and changes nothing if it is refused: `get_chunk`
returns the chunk it was asked for, and is refused only if it is not the next one
either; `eval` returns at the end. -/
def Answers (depth rounds : Nat) (c : LazyOp) (s : LSt) : Prop :=
  Ends (c.run V.gen depth rounds) s
    (fun r t => match c with
      | .getChunk _ i => ∃ x, r = some x ∧ V.m.Delivers V.n i x
      | .eval _ => ∃ v, t.c.vctrs V.m.uqid = some v ∧ v.isEov = true
      | _ => True)
    (fun e t => e = .raised ∧ t = s ∧ match c with
      | .getChunk _ i => (s.lua V.m.uqid).called.length < i ∧ V.n.last ∉ (s.lua V.m.uqid).called
      | .eval _ => False
      | _ => True)

/-- A call of this vector, in order. -/
def InOrder (c : LazyOp) (s : LSt) : Prop := c.uqid = V.m.uqid ∧ c.Asks s

variable {V}

/-- The vector by itself. -/
def group (V : LazyVctr) (hf : V.m.Fits V.n V.gen) : Group where
  n := V.n
  gen := V.gen
  members := [V.m]
  siblings := fun _ => []
  fits := by simpa using hf
  apart := by
    intro m hm m' hm' hne
    rw [List.mem_singleton.mp hm, List.mem_singleton.mp hm'] at hne
    exact absurd rfl hne
  inside := by simp
  all := by
    intro m hm m' hm' hne
    rw [List.mem_singleton.mp hm, List.mem_singleton.mp hm'] at hne
    exact absurd rfl hne
  short_pos := by simp

theorem reached_start (hf : V.m.Fits V.n V.gen) : (V.group hf).Reached V.start := by
  refine ⟨0, fun _ => ⟨0, fun _ => 0⟩, Nat.zero_le _, fun m hm => ?_, fun _ _ => rfl⟩
  rw [List.mem_singleton.mp hm]
  exact V.fresh

variable {s t : LSt} {depth rounds : Nat} {c : LazyOp} {calls : List LazyOp}

theorem once_of_reached (hf : V.m.Fits V.n V.gen) (h : (V.group hf).Reached s) : V.Once s := by
  obtain ⟨k, P, hk, hP, heven⟩ := h.even
  have hm : V.m ∈ (V.group hf).members := List.mem_singleton_self _
  have hat := hP V.m hm
  have hstage : (P V.m.uqid).stage = k := heven V.m hm
  have hv : s.c.vctrs V.m.uqid = some (V.m.base.entry.after V.n k) := hstage ▸ hat.inStep.base.vctr
  have hcalled : (s.lua V.m.uqid).called = List.range k := by
    rw [hat.lua]
    exact congrArg List.range hstage
  refine ⟨⟨k, hk, hcalled⟩, ⟨_, hv⟩, fun v hv' => ?_, fun v hv' hend => ?_⟩
  · rw [hv, Option.some.injEq] at hv'
    rw [← hv', hcalled]
    simp [VctrVal.after]
  · rw [hv, Option.some.injEq] at hv'
    rw [← hv'] at hend ⊢
    simp only [VctrVal.after, decide_eq_true_eq] at hend
    have hkl : k = V.n.last + 1 := by
      have : k ≤ V.n.last + 1 := hk
      omega
    simp [VctrVal.after, hkl, Lengths.total]

theorem answers_of_reached (hf : V.m.Fits V.n V.gen) (hd : 1 < depth) (hr : V.n.last < rounds)
    (h : (V.group hf).Reached s) (hc : V.InOrder c s) : V.Answers depth rounds c s := by
  obtain ⟨k, P, hk, hP, heven⟩ := h.even
  have hm : V.m ∈ (V.group hf).members := List.mem_singleton_self _
  have hstage : (P V.m.uqid).stage = k := heven V.m hm
  have hcalled : (s.lua V.m.uqid).called = List.range k := by
    rw [(hP V.m hm).lua]
    exact congrArg List.range hstage
  refine (hP.ends_op heven hm hk hd hr hc.1 hc.2).imp (fun r t ht => ?_) fun e t ht => ?_
  · cases c with
    | getChunk u i => exact ht.chunk i (by rw [← hc.1]; rfl)
    | ungetChunk u i => trivial
    | get1 u i => trivial
    | eval u =>
        obtain ⟨l, P', -, -, hend, hP', heven', -⟩ := ht.moved
        have hl := hend (by rw [← hc.1]; rfl)
        have hv := (hP' V.m hm).inStep.base.vctr
        rw [heven' V.m hm, hl] at hv
        exact ⟨_, hv, by simp [VctrVal.after, group]⟩
  · refine ⟨ht.raised, ht.same, ?_⟩
    cases c with
    | getChunk u i =>
        have hfar := ht.far i (by rw [← hc.1]; rfl)
        rw [hcalled, List.length_range, List.mem_range]
        have : k ≤ V.n.last := hfar.1
        exact ⟨hfar.2, by omega⟩
    | ungetChunk u i => trivial
    | get1 u i => trivial
    | eval u => exact ht.ne_eval (by rw [← hc.1]; rfl)

/-- **The stream is delivered once.** In every run of calls in order, on a vector whose
generator yields chunks the runtime can keep, the first of them not empty. -/
theorem stream_once (hf : V.m.Fits V.n V.gen) (hd : 1 < depth) (hr : V.n.last < rounds)
    (hc : Allowed (LazyOp.step V.gen depth rounds) V.InOrder calls V.start)
    (hrun : runAll (LazyOp.step V.gen depth rounds) calls V.start = some t) :
    V.Once t ∧ ∀ c, V.InOrder c t → V.Answers depth rounds c t := by
  have hin : Allowed (LazyOp.step V.gen depth rounds) (V.group hf).InOrder calls V.start :=
    hc.imp fun c s h => ⟨⟨V.m, List.mem_singleton_self _, h.1⟩, h.2⟩
  have hreach := (reached_start hf).run hd hr hin hrun
  exact ⟨once_of_reached hf hreach, fun c hcall => answers_of_reached hf hd hr hreach hcall⟩

/-! ### integers -/

/-- A block of 64 integers. -/
def block (i : Nat) : Cmem := ⟨some ⟨100 + i, List.replicate 256 0⟩, 256, true, false⟩

/-- A stream of zeros: chunks of 64 and a shorter one. -/
def zeros (last short : Nat) (h : short < 64) : Lengths :=
  ⟨64, last, short, h, Nat.le_of_ble_eq_true rfl⟩

/-- A vector of them. -/
def zeroColumn (u : Nat) (n : Lengths) : Column :=
  ⟨u, (plainArgs .I4 64).entry, block, fun j => List.replicate (4 * n.num j) 0⟩

/-- Its generator. -/
def zeroGen (n : Lengths) : Nat → Nat → Chunk := fun _ i => ⟨n.num i, some (block i), none⟩

theorem zeroColumn_fits {u last short : Nat} {h : short < 64} (hu : u ≠ 0)
    (hfirst : 0 < last ∨ 0 < short) (hlast : last < 2 ^ 31) :
    (zeroColumn u (zeros last short h)).Fits (zeros last short h) where
  first := hfirst
  last_lt := hlast
  uqid_pos := hu
  max_eq := rfl
  memo := rfl
  lma := rfl
  error := rfl
  length j _ := List.length_replicate
  holds j _ := by
    have hle : (zeros last short h).num j ≤ 64 := Lengths.num_le
    refine ⟨_, rfl, List.replicate (256 - 4 * (zeros last short h).num j) 0, ?_⟩
    rw [zeroColumn, List.replicate_append_replicate, Nat.add_sub_cancel' (by omega)]
  kept _ _ := {
    size := (by decide : 0 < u32 256)
    fits := fun _ => rfl
    owned := fun _ => rfl
    copied := fun h => absurd h.symm Bool.false_ne_true }

/-- A vector of zeros, without nulls. -/
def zeroMember (u : Nat) (n : Lengths) : Member := ⟨zeroColumn u n, none⟩

theorem zeroMember_fits {u last short : Nat} {h : short < 64} (hu : u ≠ 0)
    (hfirst : 0 < last ∨ 0 < short) (hlast : last < 2 ^ 31) :
    (zeroMember u (zeros last short h)).Fits (zeros last short h)
      (zeroGen (zeros last short h)) where
  base := zeroColumn_fits hu hfirst hlast
  primary := rfl
  hasNn := rfl
  nnKey := by simp [zeroMember]
  nn := by simp [zeroMember]
  marks := by simp [zeroMember]
  apart := by simp [zeroMember]
  clear := by simp [zeroMember]
  num _ _ := rfl
  buf _ _ := rfl
  nnBuf := by simp [zeroMember]

theorem zeroMember_fresh {u last short : Nat} {h : short < 64} {s : LSt}
    (hv : s.c.vctrs u = some (plainArgs .I4 64).entry) (hc : ∀ j, s.c.chnks (u, j) = none)
    (hl : s.lua u = ⟨true, [], []⟩) :
    (zeroMember u (zeros last short h)).At (zeros last short h) [] ⟨0, fun _ => 0⟩ s where
  stage_le := Nat.zero_le _
  inStep := {
    base := {
      vctr := by
        rw [zeroMember, zeroColumn, hv]
        simp [VctrVal.after, Lengths.total, Lengths.chunks, AddArgs.entry]
      inside := by simp [Lengths.chunks]
      outside := fun j _ => hc j }
    nn := by simp [zeroMember] }
  lua := by simpa [zeroMember, zeroColumn] using hl

/-- A new vector of zeros. -/
def newZeros (last short : Nat) (h : short < 64) : LazyVctr where
  n := zeros last short h
  gen := zeroGen (zeros last short h)
  m := zeroMember 1 (zeros last short h)
  start := ⟨St.start.setVctr 1 (plainArgs .I4 64).entry, fun _ => ⟨true, [], []⟩⟩
  fresh := zeroMember_fresh rfl (fun _ => rfl) rfl

theorem newZeros_fits {last short : Nat} {h : short < 64} (hfirst : 0 < last ∨ 0 < short)
    (hlast : last < 2 ^ 31) :
    (newZeros last short h).m.Fits (newZeros last short h).n (newZeros last short h).gen :=
  zeroMember_fits Nat.one_ne_zero hfirst hlast

/-- Two full chunks and three elements. -/
def twoAndThree : LazyVctr := newZeros 2 3 (Nat.le_of_ble_eq_true rfl)

/-- The first chunk, an element of it, and the rest of the stream. -/
def lookBack : List LazyOp := [.getChunk 1 0, .get1 1 5, .ungetChunk 1 0, .eval 1, .getChunk 1 2]

theorem isSome_lookBack :
    (runAll (LazyOp.step twoAndThree.gen 2 3) lookBack twoAndThree.start).isSome = true := by
  decide +kernel

/-- The three chunks are delivered, one of them before `eval`. -/
theorem twoAndThree_once :
    ∃ t, runAll (LazyOp.step twoAndThree.gen 2 3) lookBack twoAndThree.start = some t ∧
      twoAndThree.Once t ∧ ∀ c, twoAndThree.InOrder c t → twoAndThree.Answers 2 3 c t := by
  have hc : Allowed (LazyOp.step twoAndThree.gen 2 3) twoAndThree.InOrder lookBack
      twoAndThree.start :=
    fun _ _ => ⟨⟨rfl, by decide, fun _ _ _ => by decide⟩,
      fun _ _ => ⟨⟨rfl, by simp [LazyOp.Asks]⟩,
        fun _ _ => ⟨⟨rfl, by simp [LazyOp.Asks]⟩,
          fun _ _ => ⟨⟨rfl, trivial⟩,
            fun _ _ => ⟨⟨rfl, by decide, fun _ _ _ => by decide⟩, trivial⟩⟩⟩⟩⟩
  obtain ⟨t, ht⟩ := Option.isSome_iff_exists.mp isSome_lookBack
  exact ⟨t, ht, stream_once (newZeros_fits (by decide) (by decide)) (by decide) (by decide) hc ht⟩

/-- A vector of three elements. -/
def threeInts : LazyVctr := newZeros 0 3 (Nat.le_of_ble_eq_true rfl)

/-- Chunk 1 of a vector that is still empty: the generator is called for it first. -/
theorem asked_ahead_fails : ¬ ∀ t,
    runAll (LazyOp.step threeInts.gen 2 1) [.getChunk 1 1] threeInts.start = some t →
      threeInts.Once t := by
  intro h
  have hcalled : (runAll (LazyOp.step threeInts.gen 2 1) [.getChunk 1 1] threeInts.start).map
      (fun t => (t.lua 1).called) = some [1] := rfl
  obtain ⟨t, ht, hone⟩ := Option.map_eq_some_iff.mp hcalled
  obtain ⟨k, -, hk⟩ := (h t ht).in_order
  have hrange : [1] = List.range k := hone.symm.trans hk
  cases k with
  | zero => simp at hrange
  | succ k => simp [List.range_succ_eq_map] at hrange

end LazyVctr

end QStore.Vctr
