import QStore.Vctr.LazyStream

/-!
# QStore.Vctr.Conjoin

Conjoined vectors advance together.

`lVector.conjoin` makes each vector of a list a sibling of all others. From then on
they are a `Group`.
-/

namespace QStore.Vctr

open Function
open Member (Progress)

/-! ## conjoin -/

/-- `t` is `s`, but for the siblings, of which `sib` tells who has whom. -/
structure Conjoining (s t : LSt) (sib : Nat → Nat → Prop) : Prop where
  c : t.c = s.c
  hasGen : ∀ w, (t.lua w).hasGen = (s.lua w).hasGen
  called : ∀ w, (t.lua w).called = (s.lua w).called
  siblings : ∀ w v, v ∈ (t.lua w).siblings ↔ sib w v

/-- A vector that can be conjoined. -/
structure Conjoinable (c : St) (max u : Nat) : Prop where
  found : ∃ v, c.vctrs u = some v ∧ v.isError = false ∧ v.numElements = 0 ∧ v.maxNumInChnk = max
  max_pos : 0 < max

theorem Conjoining.congr {s t : LSt} {sib sib' : Nat → Nat → Prop} (h : Conjoining s t sib)
    (hs : ∀ x y, sib x y ↔ sib' x y) : Conjoining s t sib' :=
  ⟨h.c, h.hasGen, h.called, fun w v => (h.siblings w v).trans (hs w v)⟩

section Conjoin

variable {s t : LSt} {max u w : Nat} {sib : Nat → Nat → Prop} {E : LErr → LSt → Prop}

theorem Conjoinable.ends_numElements (h : Conjoinable s.c max u) {Q : Nat → LSt → Prop} :
    Ends (numElements u) s Q E ↔ Q 0 s := by
  obtain ⟨v, hv, -, h0, -⟩ := h.found
  rw [Vctr.ends_numElements hv, h0]

theorem Conjoinable.ends_maxNumInChunk (h : Conjoinable s.c max u) {Q : Nat → LSt → Prop} :
    Ends (maxNumInChunk u) s Q E ↔ Q max s := by
  obtain ⟨v, hv, he, -, hmax⟩ := h.found
  rw [Vctr.ends_maxNumInChunk hv he (hmax ▸ h.max_pos), hmax]

/-- One more sibling. -/
theorem ends_addSibling (h : Conjoining s t sib) (hu : Conjoinable s.c max u)
    (hw : Conjoinable s.c max w) (hnew : ¬ sib u w) :
    Ends (addSibling u w) t
      (fun _ r => Conjoining s r fun x y => sib x y ∨ (x = u ∧ y = w)) fun _ _ => False := by
  have hut : Conjoinable t.c max u := h.c ▸ hu
  have hwt : Conjoinable t.c max w := h.c ▸ hw
  have hout : w ∉ (t.lua u).siblings := fun hin => hnew ((h.siblings u w).mp hin)
  rw [addSibling, ends_bind, hut.ends_numElements, ends_bind, ends_luaAssert_of rfl, ends_bind,
    hwt.ends_numElements, ends_bind, ends_luaAssert_of rfl, ends_bind, ends_getLua, ends_bind,
    ends_luaAssert_of hout, ends_modLua]
  refine ⟨h.c, fun x => ?_, fun x => ?_, fun x y => ?_⟩
  · by_cases hx : x = u
    · simp [hx, h.hasGen]
    · rw [LSt.setLua_of_ne hx]
      exact h.hasGen x
  · by_cases hx : x = u
    · simp [hx, h.called]
    · rw [LSt.setLua_of_ne hx]
      exact h.called x
  · by_cases hx : x = u
    · simp [hx, h.siblings]
    · rw [LSt.setLua_of_ne hx, h.siblings]
      simp [hx]

variable {T : List Nat}

/-- Two entries of a list without repetitions are at one place if they are the same. -/
theorem zipIdx_inj (hT : T.Nodup) {p q : Nat × Nat} (hp : p ∈ T.zipIdx) (hq : q ∈ T.zipIdx) :
    p.2 = q.2 ↔ p.1 = q.1 := by
  rw [List.mem_zipIdx_iff_getElem?] at hp hq
  constructor
  · intro h
    rw [h, hq] at hp
    exact (Option.some.inj hp).symm
  · intro h
    obtain ⟨hlt, -⟩ := List.getElem?_eq_some_iff.mp hp
    exact (List.getElem?_inj hlt hT).mp (by rw [hp, hq, h])

/-- An entry that comes later is not among the earlier ones. -/
theorem notMem_of_split (hT : T.Nodup) {ys zs : List (Nat × Nat)} {p : Nat × Nat}
    (h : T.zipIdx = ys ++ p :: zs) : p.1 ∉ ys.map Prod.fst := by
  have hmap : T = ys.map Prod.fst ++ p.1 :: zs.map Prod.fst := by
    rw [← List.zipIdx_map_fst 0 T, h]
    simp
  rw [hmap, List.nodup_append] at hT
  intro hin
  exact hT.2.2 _ hin _ (List.mem_cons_self ..) rfl

/-- **`conjoin`** makes each of them a sibling of all others. -/
theorem ends_conjoin (hT : T.Nodup) (hlen : 1 < T.length) (hall : ∀ u ∈ T, Conjoinable s.c max u)
    (hnone : ∀ u, (s.lua u).siblings = []) :
    Ends (conjoin T) s (fun _ t => Conjoining s t fun x y => x ∈ T ∧ y ∈ T ∧ y ≠ x)
      fun _ _ => False := by
  have hfst : ∀ p ∈ T.zipIdx, p.1 ∈ T := fun p hp => List.fst_mem_of_mem_zipIdx hp
  have hmem : ∀ x, x ∈ T.zipIdx.map Prod.fst ↔ x ∈ T := fun x => by rw [List.zipIdx_map_fst]
  rw [conjoin, ends_bind, ends_luaAssert_of hlen]
  refine (Ends.forEach (fun ys t => Conjoining s t fun x y =>
    x ∈ ys.map Prod.fst ∧ y ∈ T ∧ y ≠ x) _ ?_ ?_).imp (fun _ t ht => ?_) fun _ _ => id
  · exact ⟨rfl, fun _ => rfl, fun _ => rfl, fun x y => by simp [hnone x]⟩
  · intro ys p zs t hsplit ht
    have hp : p ∈ T.zipIdx := by simp [hsplit]
    have hpt : Conjoinable t.c max p.1 := ht.c ▸ hall _ (hfst p hp)
    rw [ends_bind, hpt.ends_numElements, ends_bind, ends_luaAssert_of rfl]
    refine (Ends.forEach (fun ys' t => Conjoining s t fun x y =>
      (x ∈ ys.map Prod.fst ∧ y ∈ T ∧ y ≠ x) ∨
        (x = p.1 ∧ y ∈ ys'.map Prod.fst ∧ y ≠ p.1)) _ ?_ ?_).imp (fun _ r hr => ?_) fun _ _ => id
    · simpa using ht
    · intro ys' q zs' r hsplit' hr
      have hq : q ∈ T.zipIdx := by simp [hsplit']
      have hprt : Conjoinable r.c max p.1 := hr.c ▸ hall _ (hfst p hp)
      have hqrt : Conjoinable r.c max q.1 := hr.c ▸ hall _ (hfst q hq)
      rw [ends_luaIf, Ne, zipIdx_inj hT hp hq]
      constructor
      · intro hne
        have hnew : ¬ ((p.1 ∈ ys.map Prod.fst ∧ q.1 ∈ T ∧ q.1 ≠ p.1) ∨
            (p.1 = p.1 ∧ q.1 ∈ ys'.map Prod.fst ∧ q.1 ≠ p.1)) := by
          have hout := notMem_of_split hT hsplit
          have hout' := notMem_of_split hT hsplit'
          simp [hout, hout']
        rw [ends_bind, hprt.ends_maxNumInChunk, ends_bind, hqrt.ends_maxNumInChunk, ends_bind,
          ends_luaAssert_of rfl]
        refine (ends_addSibling hr (hall _ (hfst p hp)) (hall _ (hfst q hq)) hnew).imp
          (fun _ u hu => hu.congr fun x y => ?_) fun _ _ => id
        simp only [List.map_append, List.map_cons, List.map_nil, List.mem_append, List.mem_singleton]
        by_cases hy : y = q.1
        · have hyp : q.1 ≠ p.1 := fun h => hne h.symm
          simp [hy, hyp]
          tauto
        · simp [hy]
      · intro heq
        refine hr.congr fun x y => ?_
        simp only [List.map_append, List.map_cons, List.map_nil, List.mem_append, List.mem_singleton]
        rw [not_not] at heq
        by_cases hy : y = q.1
        · simp [hy, heq]
        · simp [hy]
    · refine hr.congr fun x y => ?_
      rw [hmem]
      by_cases hx : x = p.1
      · simp only [hx, List.map_append, List.map_cons, List.map_nil, List.mem_append,
          List.mem_singleton]
        tauto
      · simp [hx]
  · exact ht.congr fun x y => by rw [hmem]

end Conjoin

/-! ## conjoined vectors -/

/-- New vectors with generators, to be conjoined. -/
structure Conjoined where
  n : Lengths
  gen : Nat → Nat → Chunk
  members : List Member
  two : 1 < members.length
  distinct : (members.map Member.uqid).Nodup
  apart : ∀ m ∈ members, ∀ m' ∈ members, m ≠ m' → ∀ a ∈ m.columns, ∀ b ∈ m'.columns,
    a.uqid ≠ b.uqid
  start : LSt
  fresh : ∀ m ∈ members, m.At n [] ⟨0, fun _ => 0⟩ start
  alone : ∀ u, (start.lua u).siblings = []

/-- How many elements a vector has, and whether it is at its end. -/
def LSt.counts (s : LSt) (u : Nat) : Option (Nat × Bool) :=
  (s.c.vctrs u).map fun v => (v.numElements, v.isEov)

/-- How many readers a chunk has, if it is there. -/
def LSt.readersOf (s : LSt) (u i : Nat) : Option UInt16 := (s.c.chnks (u, i)).map ChnkVal.numReaders

namespace Conjoined

variable (V : Conjoined)

def uqids : List Nat := V.members.map Member.uqid

/-- The generators yield chunks that the runtime keeps, and the last one is not
empty. -/
structure Fits : Prop where
  fits : ∀ m ∈ V.members, m.Fits V.n V.gen
  short_pos : 0 < V.n.short

/-- All vectors are as long and at their ends or not, and each generator was called
for the same first chunks of its stream, in order, once for each. -/
structure Together (s : LSt) : Prop where
  in_order : ∃ k, k ≤ V.n.last + 1 ∧
    ∀ m ∈ V.members, (s.lua m.uqid).called = List.range k ∧ (s.counts m.uqid).isSome = true
  same : ∀ m ∈ V.members, ∀ m' ∈ V.members, s.counts m.uqid = s.counts m'.uqid

/-- A call returns or is refused, and changes nothing if it is refused. The readers of
the chunks are those there were, and new chunks have none, but for the chunk that
changed hands. -/
def Answers (depth rounds : Nat) (c : LazyOp) (s : LSt) : Prop :=
  Ends (c.run V.gen depth rounds) s
    (fun _ t => ∀ m ∈ V.members, ∀ col ∈ m.columns, ∀ j, ¬ (c.uqid = m.uqid ∧ c.Hands j) →
      t.readersOf col.uqid j = s.readersOf col.uqid j ∨
        (s.readersOf col.uqid j = none ∧ t.readersOf col.uqid j = some 0))
    fun e t => e = .raised ∧ t = s

/-- A call of one of them, in order. -/
def InOrder (c : LazyOp) (s : LSt) : Prop := c.uqid ∈ V.uqids ∧ c.Asks s

variable {V}

theorem conjoinable (hf : V.Fits) {u : Nat} (hu : u ∈ V.uqids) : Conjoinable V.start.c V.n.max u := by
  obtain ⟨m, hm, rfl⟩ := List.mem_map.mp hu
  have hbase := (hf.fits m hm).base
  refine ⟨⟨_, (V.fresh m hm).inStep.base.vctr, hbase.error, ?_, hbase.max_eq⟩, V.n.max_pos⟩
  exact Lengths.total_zero

/-- The group they are, once they are conjoined. -/
def group (V : Conjoined) (hf : V.Fits) (t : LSt)
    (ht : Conjoining V.start t fun x y => x ∈ V.uqids ∧ y ∈ V.uqids ∧ y ≠ x) : Group where
  n := V.n
  gen := V.gen
  members := V.members
  siblings := fun u => (t.lua u).siblings
  fits := hf.fits
  apart := V.apart
  inside := by
    intro m _ v hv
    obtain ⟨m', hm', rfl⟩ := List.mem_map.mp ((ht.siblings _ _).mp hv).2.1
    exact ⟨m', hm', rfl⟩
  all := by
    intro m hm m' hm' hne
    refine (ht.siblings _ _).mpr ⟨List.mem_map_of_mem hm, List.mem_map_of_mem hm', ?_⟩
    exact V.apart m' hm' m hm hne _ Member.base_mem_columns _ Member.base_mem_columns
  short_pos := fun _ => hf.short_pos

variable {s t : LSt} {depth rounds : Nat} {c : LazyOp}

theorem reached_conjoined (hf : V.Fits)
    (ht : Conjoining V.start t fun x y => x ∈ V.uqids ∧ y ∈ V.uqids ∧ y ≠ x) :
    (V.group hf t ht).Reached t := by
  refine ⟨0, fun _ => ⟨0, fun _ => 0⟩, Nat.zero_le _, fun m hm => ?_, fun _ _ => rfl⟩
  have hat := V.fresh m hm
  have hgen : (t.lua m.uqid).hasGen = decide (0 ≤ V.n.last) :=
    (ht.hasGen m.uqid).trans (congrArg LuaVec.hasGen hat.lua)
  have hcalled : (t.lua m.uqid).called = List.range 0 :=
    (ht.called m.uqid).trans (congrArg LuaVec.called hat.lua)
  have hlua : t.lua m.uqid =
      ⟨decide (0 ≤ V.n.last), (t.lua m.uqid).siblings, List.range 0⟩ := by
    rw [← hgen, ← hcalled]
  exact ⟨Nat.zero_le _, ht.c.symm ▸ hat.inStep, hlua⟩

end Conjoined

/-! ### what a stage says -/

namespace Group

variable {g : Group} {m : Member} {P P' : Nat → Progress} {s t : LSt} {k l : Nat}

theorem Holds.readersOf (h : g.Holds P s) (heven : g.Even k P) (hm : m ∈ g.members) {col : Column}
    (hcol : col ∈ m.columns) (j : Nat) :
    s.readersOf col.uqid j =
      if j < g.n.chunks k then some ((P m.uqid).readers j) else none := by
  have hat : col.At g.n k (P m.uqid).readers s.c := by
    have hstep := heven m hm ▸ (h m hm).inStep
    rw [Member.columns, List.mem_cons, Option.mem_toList] at hcol
    cases hcol with
    | inl hbase => exact hbase ▸ hstep.base
    | inr hnn => exact hstep.nn col hnn
  by_cases hj : j < g.n.chunks k
  · obtain ⟨c, hc, -, hr⟩ := hat.inside j hj
    rw [if_pos hj, LSt.readersOf, hc, Option.map_some, hr]
  · rw [if_neg hj, LSt.readersOf, hat.outside j (Nat.le_of_not_lt hj), Option.map_none]

theorem Holds.counts (h : g.Holds P s) (heven : g.Even k P) (hm : m ∈ g.members) :
    s.counts m.uqid = some (g.n.total k, decide (g.n.last < k)) := by
  rw [LSt.counts, (h m hm).inStep.base.vctr, heven m hm]
  rfl

end Group

namespace Conjoined

variable {V : Conjoined} {s t : LSt} {depth rounds : Nat} {c : LazyOp}

theorem together_of_reached {g : Group} (hn : g.n = V.n) (hm : g.members = V.members)
    (h : g.Reached s) : V.Together s := by
  obtain ⟨k, P, hk, hP, heven⟩ := h.even
  rw [hn] at hk
  refine ⟨⟨k, hk, fun m hmem => ?_⟩, fun m hmem m' hmem' => ?_⟩
  · rw [← hm] at hmem
    rw [hP.counts heven hmem, (hP m hmem).lua, heven m hmem]
    exact ⟨rfl, rfl⟩
  · rw [← hm] at hmem hmem'
    rw [hP.counts heven hmem, hP.counts heven hmem']

theorem answers_of_reached {g : Group} (hgen : g.gen = V.gen) (hm : g.members = V.members)
    (hd : g.members.length < depth) (hr : g.n.last < rounds) (h : g.Reached s)
    (hc : V.InOrder c s) : V.Answers depth rounds c s := by
  obtain ⟨k, P, hk, hP, heven⟩ := h.even
  obtain ⟨hmem, hasks⟩ := hc
  obtain ⟨m, hmV, hu⟩ := List.mem_map.mp hmem
  rw [← hm] at hmV
  rw [Answers, ← hgen, ← hm]
  refine (hP.ends_op heven hmV hk hd hr hu.symm hasks).imp (fun r t ht => ?_)
    fun e t ht => ⟨ht.raised, ht.same⟩
  intro m' hm' col hcol j hne
  obtain ⟨l, P', hkl, hl, -, hP', heven', hun⟩ := ht.moved
  have hne' : ¬ (m'.uqid = m.uqid ∧ c.Hands j) := by
    rw [← hu] at hne
    exact fun h => hne ⟨h.1.symm, h.2⟩
  rw [hP.readersOf heven hm' hcol, hP'.readersOf heven' hm' hcol]
  have hmono := Lengths.chunks_mono (n := g.n) hkl hl
  by_cases hj : j < g.n.chunks l
  · rw [if_pos hj, hun m' hm' j hj hne']
    by_cases hjk : j < g.n.chunks k
    · exact .inl (by simp [hjk])
    · exact .inr (by simp [hjk])
  · rw [if_neg hj, if_neg (by omega)]
    exact .inl rfl

/-- **Conjoined vectors advance together.** -/
theorem advance_together (hf : V.Fits) (hd : V.members.length < depth) (hr : V.n.last < rounds) :
    ∃ r, conjoin V.uqids V.start = .ok () r ∧
      ∀ (calls : List LazyOp) (t : LSt),
        Allowed (LazyOp.step V.gen depth rounds) V.InOrder calls r →
        runAll (LazyOp.step V.gen depth rounds) calls r = some t →
        V.Together t ∧ ∀ c, V.InOrder c t → V.Answers depth rounds c t := by
  have hlen : 1 < V.uqids.length := by
    rw [uqids, List.length_map]
    exact V.two
  obtain ⟨_, r, hr', hconj⟩ := (ends_conjoin V.distinct hlen (fun u hu => conjoinable hf hu)
    V.alone).returns
  refine ⟨r, hr', fun calls t hc hrun => ?_⟩
  have hin : Allowed (LazyOp.step V.gen depth rounds) (V.group hf r hconj).InOrder calls r := by
    refine hc.imp fun c s h => ⟨?_, h.2⟩
    obtain ⟨m, hm, hu⟩ := List.mem_map.mp h.1
    exact ⟨m, hm, hu.symm⟩
  have hreach := (reached_conjoined hf hconj).run hd hr hin hrun
  exact ⟨together_of_reached rfl rfl hreach, fun c hcall =>
    answers_of_reached rfl rfl hd hr hreach hcall⟩

/-! ### two of them -/

open LazyVctr in
/-- Two vectors of zeros. -/
def twoInts (last short : Nat) (h : short < 64) : Conjoined where
  n := zeros last short h
  gen := zeroGen (zeros last short h)
  members := [zeroMember 1 (zeros last short h), zeroMember 2 (zeros last short h)]
  two := Nat.lt_add_one 1
  distinct := by simp [zeroMember, zeroColumn, Member.uqid]
  apart := by
    intro m hm m' hm' hne a ha b hb
    simp only [List.mem_cons, List.not_mem_nil, or_false] at hm hm'
    cases hm with
    | inl h =>
        cases hm' with
        | inl h' => exact absurd (h.trans h'.symm) hne
        | inr h' => simp_all [Member.columns, zeroMember, zeroColumn]
    | inr h =>
        cases hm' with
        | inl h' => simp_all [Member.columns, zeroMember, zeroColumn]
        | inr h' => exact absurd (h.trans h'.symm) hne
  start := ⟨(St.start.setVctr 1 (plainArgs .I4 64).entry).setVctr 2 (plainArgs .I4 64).entry,
    fun _ => ⟨true, [], []⟩⟩
  fresh := by
    intro m hm
    simp only [List.mem_cons, List.not_mem_nil, or_false] at hm
    cases hm with
    | inl h => exact h ▸ zeroMember_fresh rfl (fun _ => rfl) rfl
    | inr h => exact h ▸ zeroMember_fresh rfl (fun _ => rfl) rfl
  alone := fun _ => rfl

theorem twoInts_fits {last short : Nat} {h : short < 64} (hs : 0 < short) (hl : last < 2 ^ 31) :
    (twoInts last short h).Fits where
  fits := by
    intro m hm
    simp only [twoInts, List.mem_cons, List.not_mem_nil, or_false] at hm
    cases hm with
    | inl h => exact h ▸ LazyVctr.zeroMember_fits Nat.one_ne_zero (.inr hs) hl
    | inr h => exact h ▸ LazyVctr.zeroMember_fits (Nat.succ_ne_zero 1) (.inr hs) hl
  short_pos := hs

theorem twoInts_counts {last short : Nat} {h : short < 64} {t : LSt}
    (ht : (twoInts last short h).Together t) : t.counts 1 = t.counts 2 :=
  ht.same (LazyVctr.zeroMember 1 (LazyVctr.zeros last short h)) (List.mem_cons_self ..)
    (LazyVctr.zeroMember 2 (LazyVctr.zeros last short h))
    (List.mem_cons_of_mem _ (List.mem_singleton_self _))

/-- Two vectors of three elements. -/
theorem twoInts_together :
    ∃ r, conjoin (twoInts 0 3 (by decide)).uqids (twoInts 0 3 (by decide)).start = .ok () r ∧
      ∀ (calls : List LazyOp) (t : LSt),
        Allowed (LazyOp.step (twoInts 0 3 (by decide)).gen 3 1)
          (twoInts 0 3 (by decide)).InOrder calls r →
        runAll (LazyOp.step (twoInts 0 3 (by decide)).gen 3 1) calls r = some t →
        (twoInts 0 3 (by decide)).Together t ∧ ∀ c, (twoInts 0 3 (by decide)).InOrder c t →
          (twoInts 0 3 (by decide)).Answers 3 1 c t :=
  advance_together (twoInts_fits (by decide) (by decide)) (by decide) (by decide)

/-- Two vectors of 64 elements: the empty chunk after the first one ends the vector that
is asked for it, and not its sibling. -/
theorem exact_multiple_fails :
    ∃ r t, conjoin (twoInts 1 0 (by decide)).uqids (twoInts 1 0 (by decide)).start = .ok () r ∧
      runAll (LazyOp.step (twoInts 1 0 (by decide)).gen 3 2) [.getChunk 1 0, .getChunk 1 1] r =
        some t ∧
      ¬ (twoInts 1 0 (by decide)).Together t := by
  have hconj : conjoin (twoInts 1 0 (by decide)).uqids (twoInts 1 0 (by decide)).start =
      .ok () (final (conjoin (twoInts 1 0 (by decide)).uqids) (twoInts 1 0 (by decide)).start) :=
    run_of_outcome_ok rfl
  have hcounts : (runAll (LazyOp.step (twoInts 1 0 (by decide)).gen 3 2)
      [.getChunk 1 0, .getChunk 1 1]
      (final (conjoin (twoInts 1 0 (by decide)).uqids) (twoInts 1 0 (by decide)).start)).map
        (fun t => (t.counts 1, t.counts 2)) = some (some (64, true), some (64, false)) := by
    decide +kernel
  obtain ⟨t, ht, hboth⟩ := Option.map_eq_some_iff.mp hcounts
  refine ⟨_, t, hconj, ht, fun h => ?_⟩
  have hsame := twoInts_counts h
  rw [Prod.mk.injEq] at hboth
  have hbad : some (64, true) = some (64, false) := hboth.1.symm.trans (hsame.trans hboth.2)
  simp at hbad

end Conjoined

end QStore.Vctr
