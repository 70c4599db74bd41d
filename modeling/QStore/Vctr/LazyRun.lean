import QStore.Lib.Trace
import QStore.Vctr.Lazy

/-!
# QStore.Vctr.LazyRun

Consumers of lazily evaluated vectors: `get_chunk`, `unget_chunk`, `get1` and
`eval`, in any order.

Between two calls all members of a group are at the same stage. A call is in order
(`Asks`) where its numbers fit the integers of C, and it does not ask a vector that
is still empty for chunk 1, which the check of `get_chunk` lets through.
-/

namespace QStore.Vctr

open Function
open Member (Progress)

/-- What a consumer calls, and of which vector. -/
inductive LazyOp
  | getChunk (u i : Nat)
  | ungetChunk (u i : Nat)
  | get1 (u i : Nat)
  | eval (u : Nat)
  deriving DecidableEq, Repr

namespace LazyOp

/-- The vector that is asked. -/
def uqid : LazyOp → Nat
  | getChunk u _ => u
  | ungetChunk u _ => u
  | get1 u _ => u
  | eval u => u

/-- The call, with what `get_chunk` hands out. -/
def run (gen : Nat → Nat → Chunk) (depth rounds : Nat) : LazyOp → L (Option Chunk)
  | getChunk u i => some <$> Vctr.getChunk gen depth u i
  | ungetChunk u i => (fun _ => none) <$> Vctr.ungetChunk u i
  | get1 u i => (fun _ => none) <$> Vctr.get1 u i
  | eval u => (fun _ => none) <$> Vctr.eval gen depth rounds u

/-- Where a call leads. An error that is raised leaves what was done before it. -/
def step (gen : Nat → Nat → Chunk) (depth rounds : Nat) (c : LazyOp) (s : LSt) : Option LSt :=
  match c.run gen depth rounds s with
  | .ok _ t => some t
  | .error .raised t => some t
  | .error _ _ => none

/-- The call is in order. -/
def Asks (s : LSt) : LazyOp → Prop
  | getChunk u i => i < 2 ^ 32 ∧ ∀ v, s.c.vctrs u = some v → v.numElements = 0 → i ≠ 1
  | ungetChunk _ i => i < 2 ^ 31
  | get1 _ i => i < 2 ^ 63
  | eval _ => True

/-- The chunk that changes hands. -/
def Hands : LazyOp → Nat → Prop
  | getChunk _ i, j => j = i
  | ungetChunk _ i, j => j = i
  | _, _ => False

end LazyOp

namespace Group

variable {g : Group} {m m' : Member} {P P' : Nat → Progress} {s t : LSt} {i k l depth rounds : Nat}

/-- All members are at stage `k`. -/
def Even (g : Group) (k : Nat) (P : Nat → Progress) : Prop := ∀ m ∈ g.members, (P m.uqid).stage = k

/-- From stage `k` to stage `l`, the readers are those there were, and nobody reads
what is new; `except` for some chunks of some vectors. -/
def Untouched (g : Group) (k l : Nat) (P P' : Nat → Progress) (except : Nat → Nat → Prop) : Prop :=
  ∀ m ∈ g.members, ∀ j, j < g.n.chunks l → ¬ except m.uqid j →
    (P' m.uqid).readers j = if j < g.n.chunks k then (P m.uqid).readers j else 0

theorem Untouched.refl {except : Nat → Nat → Prop} : g.Untouched k k P P except := by
  intro m _ j hj _
  rw [if_pos hj]

theorem Even.near (h : g.Even k P) : g.Near k P := fun m hm => .inl (h m hm)

theorem Even.catchUp (h : g.Even k P) : g.Even (k + 1) (catchUp k P) := by
  intro m hm
  rw [catchUp_of_stage (h m hm)]

theorem card_behind_le : (g.behind k P).card ≤ g.members.length := by
  refine Nat.le_trans (Finset.card_filter_le _ _) ?_
  simpa using List.toFinset_card_le (g.members.map Member.uqid)

/-- A chunk that is there changes hands. -/
theorem untouched_setReaders {r : UInt16} {u : Nat} :
    g.Untouched k k P (setReaders P u i r) fun w j => w = u ∧ j = i := by
  intro m _ j hj hne
  rw [if_pos hj, setReaders]
  by_cases hm : m.uqid = u
  · have hji : j ≠ i := fun h => hne ⟨hm, h⟩
    subst hm
    simp [hji]
  · rw [update_of_ne hm]

theorem Even.setReaders (h : g.Even k P) {r : UInt16} {u : Nat} :
    g.Even k (setReaders P u i r) := by
  intro m hm
  rw [Group.setReaders]
  by_cases hu : m.uqid = u
  · subst hu
    simpa using h m hm
  · rw [update_of_ne hu]
    exact h m hm

/-- A new chunk is there, for all. -/
theorem untouched_catchUp (h : g.Even k P) (hk : k ≤ g.n.last) {except : Nat → Nat → Prop} :
    g.Untouched k (k + 1) P (Group.catchUp k P) except := by
  intro m hm j hj _
  rw [catchUp_of_stage (h m hm), Lengths.chunks_of_le hk]
  have hle := (Lengths.chunks_le (n := g.n) (k := k + 1) (by omega)).1
  by_cases hjk : j = k
  · simp [hjk]
  · have hlt : j < k := by omega
    simp [hjk, hlt]

theorem Untouched.trans {j : Nat} {P'' : Nat → Progress} {except : Nat → Nat → Prop}
    (h : g.Untouched j k P P' except) (h' : g.Untouched k l P' P'' except)
    (hjk : g.n.chunks j ≤ g.n.chunks k) : g.Untouched j l P P'' except := by
  intro m hm i hi hne
  rw [h' m hm i hi hne]
  by_cases hik : i < g.n.chunks k
  · rw [if_pos hik, h m hm i hik hne]
  · rw [if_neg hik, if_neg (by omega)]

/-! ### eval -/

theorem Holds.ends_maxChnkIdx (h : g.Holds P s) (hm : m ∈ g.members) {Q : Nat → LSt → Prop}
    {E : LErr → LSt → Prop} :
    Ends (maxChnkIdx m.uqid) s Q E ↔ Q (g.n.chunks (P m.uqid).stage - 1) s :=
  QStore.Vctr.ends_maxChnkIdx (h m hm).inStep.base.vctr (g.fits m hm).base.error

theorem Holds.ends_numElements (h : g.Holds P s) (hm : m ∈ g.members) {Q : Nat → LSt → Prop}
    {E : LErr → LSt → Prop} :
    Ends (numElements m.uqid) s Q E ↔ Q (g.n.total (P m.uqid).stage) s :=
  QStore.Vctr.ends_numElements (h m hm).inStep.base.vctr

theorem Holds.ends_isEov (h : g.Holds P s) (hm : m ∈ g.members) {Q : Bool → LSt → Prop}
    {E : LErr → LSt → Prop} :
    Ends (isEov m.uqid) s Q E ↔ Q (decide (g.n.last < (P m.uqid).stage)) s :=
  QStore.Vctr.ends_isEov (h m hm).inStep.base.vctr (g.fits m hm).base.error

/-- The chunk `eval` asks for is the next one. -/
theorem chunkToGet_eq (hm : m ∈ g.members) (hk : k ≤ g.n.last) :
    (if g.n.total k = 0 then 0 else g.n.chunks k - 1 + 1) = k := by
  rw [Lengths.chunks_of_le hk]
  by_cases h0 : k = 0
  · simp [h0, Lengths.total_zero]
  · have hpos := g.n.total_pos (g.fits m hm).base.first (Nat.pos_of_ne_zero h0)
    rw [if_neg (by omega)]
    omega

/-- A round of `eval`: the next chunk is generated, and given back. -/
theorem Holds.ends_round (h : g.Holds P s) (heven : g.Even k P) (hm : m ∈ g.members)
    (hk : k ≤ g.n.last) (hd : g.members.length < depth) :
    Ends (do
      let r ← getChunk g.gen depth m.uqid k
      luaIf (r.num ≠ 0) (ungetChunk m.uqid k)
      pure r.num) s
      (fun num t => num = g.n.num k ∧ ∃ P', g.Holds P' t ∧ g.Even (k + 1) P' ∧
        g.Untouched k (k + 1) P P' fun _ _ => False)
      fun _ _ => False := by
  have hcard := Nat.lt_of_le_of_lt (card_behind_le (g := g) (k := k) (P := P)) hd
  rw [ends_bind]
  refine (Holds.ends_getChunk_next hk depth P s m h heven.near hm (heven m hm) hcard).imp ?_
    fun _ _ => id
  intro r t ht
  obtain ⟨hdel, hserved⟩ := ht
  have hcaught := heven.near.catchUp hm
  have hread : (served k P m.uqid m.uqid).readers k = 1 := by simp [served, Group.setReaders]
  have hnext : (served k P m.uqid m.uqid).stage = k + 1 := by
    simp [served, Group.setReaders, hcaught.1]
  rw [ends_bind, ends_luaIf, hdel.num]
  constructor
  · intro hn
    have hlt : k < g.n.chunks (served k P m.uqid m.uqid).stage := by
      rw [hnext, Lengths.chunks_succ hk (Nat.pos_of_ne_zero hn)]
      omega
    have hback : Group.setReaders (served k P m.uqid) m.uqid k (1 - 1) = Group.catchUp k P := by
      rw [served, setReaders_give hcaught.2]
    refine (hserved.ends_unget hm hlt (by rw [hread]; decide)).imp ?_ fun _ _ => id
    intro _ u hu
    rw [hread, hback] at hu
    exact ⟨rfl, _, hu, heven.catchUp, untouched_catchUp heven hk⟩
  · intro hn
    obtain ⟨rfl, h0⟩ := Lengths.empty hk (not_not.mp hn)
    have hnew : g.Untouched g.n.last (g.n.last + 1) P (Group.catchUp g.n.last P) fun _ _ => False :=
      untouched_catchUp heven hk
    refine ⟨rfl, _, hserved, heven.catchUp.setReaders, fun m' hm' j hj hne => ?_⟩
    rw [← hnew m' hm' j hj hne]
    rw [Lengths.chunks_end h0] at hj
    by_cases hsame : m'.uqid = m.uqid
    · simp [served, Group.setReaders, hsame, Nat.ne_of_lt hj]
    · simp [served, Group.setReaders, hsame]

/-- **The loop of `eval`** goes through the rest of the stream. -/
theorem Holds.ends_evalLoop (hm : m ∈ g.members) (hd : g.members.length < depth) :
    ∀ (rounds k : Nat) (P : Nat → Progress) (s : LSt), g.Holds P s → g.Even k P → k ≤ g.n.last →
      g.n.last < k + rounds →
      Ends (evalLoop g.gen depth m.uqid g.n.max rounds) s
        (fun _ t => ∃ P', g.Holds P' t ∧ g.Even (g.n.last + 1) P' ∧
          g.Untouched k (g.n.last + 1) P P' fun _ _ => False)
        fun _ _ => False := by
  intro rounds
  induction rounds with
  | zero =>
      intro k P s _ _ hk hr
      omega
  | succ rounds ih =>
      intro k P s h heven hk hr
      rw [evalLoop, ends_bind, h.ends_maxChnkIdx hm, ends_bind, h.ends_numElements hm, heven m hm,
        chunkToGet_eq hm hk]
      have hround := h.ends_round heven hm hk hd
      simp only [ends_bind, ends_pure] at hround ⊢
      refine hround.imp (fun r t ht => ?_) fun _ _ => id
      refine ht.imp (fun _ t ht => ?_) fun _ _ => id
      obtain ⟨hnum, P', h', heven', hun⟩ := ht
      rw [ends_luaIf, hnum]
      constructor
      · intro hfull
        have hlt : k + 1 ≤ g.n.last := by
          by_contra hne
          have := (Lengths.num_lt_iff hk).mpr (by omega)
          omega
        refine (ih (k + 1) P' t h' heven' hlt (by omega)).imp (fun _ u hu => ?_) fun _ _ => id
        obtain ⟨P'', h'', heven'', hun'⟩ := hu
        refine ⟨P'', h'', heven'', hun.trans hun' ?_⟩
        rw [Lengths.chunks_of_le hk, Lengths.chunks_of_le hlt]
        omega
      · intro hshort
        have hlt : g.n.num k < g.n.max := Nat.lt_of_le_of_ne Lengths.num_le hshort
        obtain rfl := (Lengths.num_lt_iff hk).mp hlt
        exact ⟨P', h', heven', hun⟩

/-- **`eval`** returns at the end of the stream. -/
theorem Holds.ends_eval (h : g.Holds P s) (heven : g.Even k P) (hm : m ∈ g.members)
    (hk : k ≤ g.n.last + 1) (hd : g.members.length < depth) (hr : g.n.last < rounds) :
    Ends (eval g.gen depth rounds m.uqid) s
      (fun _ t => ∃ P', g.Holds P' t ∧ g.Even (g.n.last + 1) P' ∧
        g.Untouched k (g.n.last + 1) P P' fun _ _ => False)
      fun _ _ => False := by
  rw [eval, ends_bind, h.ends_isEov hm, heven m hm]
  by_cases hend : k = g.n.last + 1
  · subst hend
    rw [if_pos (by simp), ends_pure]
    exact ⟨P, h, heven, Untouched.refl⟩
  · have hle : k ≤ g.n.last := by omega
    rw [if_neg (by simp [hle]), ends_bind, h.ends_maxNumInChunk hm, ends_bind]
    refine (Holds.ends_evalLoop hm hd rounds k P s h heven hle (by omega)).imp (fun _ t ht => ?_)
      fun _ _ => id
    obtain ⟨P', h', heven', hun⟩ := ht
    rw [ends_bind, h'.ends_isEov hm, heven' m hm, ends_luaAssert_of (by simp)]
    exact ⟨P', h', heven', hun⟩

/-! ### one call -/

/-- A call is served: the group has moved on from stage `k`, to the end if it was
`eval`, no reader has changed but for the chunk that changed hands, and
`get_chunk` delivers. -/
structure Served (g : Group) (m : Member) (k : Nat) (P : Nat → Progress) (c : LazyOp)
    (r : Option Chunk) (t : LSt) : Prop where
  moved : ∃ l P', k ≤ l ∧ l ≤ g.n.last + 1 ∧ (c = .eval m.uqid → l = g.n.last + 1) ∧
    g.Holds P' t ∧ g.Even l P' ∧ g.Untouched k l P P' fun w j => w = m.uqid ∧ c.Hands j
  chunk : ∀ i, c = .getChunk m.uqid i → ∃ x, r = some x ∧ m.Delivers g.n i x

/-- A call is refused, and nothing has changed: not `eval`, and not a chunk that is
there or is the next. -/
structure Refused (g : Group) (m : Member) (k : Nat) (c : LazyOp) (s : LSt) (e : LErr) (t : LSt) :
    Prop where
  raised : e = .raised
  same : t = s
  far : ∀ i, c = .getChunk m.uqid i → k ≤ g.n.last ∧ k < i
  ne_eval : c ≠ .eval m.uqid

theorem Holds.ends_getChunk_op (h : g.Holds P s) (heven : g.Even k P) (hm : m ∈ g.members)
    (hk : k ≤ g.n.last + 1) (hd : g.members.length < depth) (hi : i < 2 ^ 32)
    (h1 : k = 0 → i ≠ 1) :
    Ends (LazyOp.run g.gen depth rounds (.getChunk m.uqid i)) s
      (g.Served m k P (.getChunk m.uqid i)) (g.Refused m k (.getChunk m.uqid i) s) := by
  have hstage := heven m hm
  have hcard := Nat.lt_of_le_of_lt (card_behind_le (g := g) (k := k) (P := P)) hd
  obtain ⟨d, rfl⟩ : ∃ d, depth = d + 1 := ⟨depth - 1, by omega⟩
  have hserved : ∀ r t l P', k ≤ l → l ≤ g.n.last + 1 → g.Holds P' t → g.Even l P' →
      g.Untouched k l P P' (fun w j => w = m.uqid ∧ j = i) → m.Delivers g.n i r →
      g.Served m k P (.getChunk m.uqid i) (some r) t := by
    intro r t l P' hl hl' hP' hev hun hdel
    refine ⟨⟨l, P', hl, hl', by simp, hP', hev, hun⟩, fun j hj => ?_⟩
    rw [LazyOp.getChunk.injEq] at hj
    exact ⟨r, rfl, hj.2 ▸ hdel⟩
  rw [LazyOp.run, ends_map]
  by_cases hstored : i < g.n.chunks k
  · refine (h.ends_getChunk_stored hm (hstage ▸ hstored) d).imp (fun r t ht => ?_) fun _ _ => False.elim
    exact hserved r t k _ (Nat.le_refl k) hk ht.2 heven.setReaders untouched_setReaders ht.1
  by_cases hend : k = g.n.last + 1
  · have hat := h m hm
    have hpast : g.n.chunks (P m.uqid).stage ≤ i := by
      rw [hstage]
      omega
    rw [getChunk, ends_bind, Member.ends_toGenerate_stored (g.fits m hm) hat (.inr (by omega))]
    refine Member.archivalChunk_past (g.fits m hm) hat.inStep hpast hi ?_
    have hnone : g.n.num i = 0 := by
      rw [hend] at hstored
      exact Lengths.num_past (Nat.le_of_not_lt hstored)
    exact hserved _ s k P (Nat.le_refl k) hk h heven Untouched.refl
      ⟨hnone.symm, fun hpos => by omega, fun hpos => by omega⟩
  have hle : k ≤ g.n.last := by omega
  rw [Lengths.chunks_of_le hle] at hstored
  by_cases hnext : i = k
  · subst hnext
    refine (Holds.ends_getChunk_next hle (d + 1) P s m h heven.near hm hstage hcard).imp
      (fun r t ht => ?_) fun _ _ => False.elim
    refine hserved r t (i + 1) _ (Nat.le_succ i) (Nat.succ_le_succ hle) ht.2
      heven.catchUp.setReaders ?_ ht.1
    have hnew : g.Untouched i (i + 1) P (Group.catchUp i P) fun w j => w = m.uqid ∧ j = i :=
      untouched_catchUp heven hle
    exact hnew.trans untouched_setReaders (Lengths.chunks_mono (Nat.le_succ i) (Nat.succ_le_succ hle))
  · have hat := h m hm
    rw [getChunk, ends_bind, Member.ends_toGenerate_far (g.fits m hm) hat (by omega) (by omega)
      (by rwa [hstage])]
    refine ⟨rfl, rfl, fun j hj => ?_, by simp⟩
    rw [LazyOp.getChunk.injEq] at hj
    omega

/-- **One call.** In order, it is served or refused. -/
theorem Holds.ends_op (h : g.Holds P s) (heven : g.Even k P) (hm : m ∈ g.members)
    (hk : k ≤ g.n.last + 1) (hd : g.members.length < depth) (hr : g.n.last < rounds) {c : LazyOp}
    (hu : c.uqid = m.uqid) (hc : c.Asks s) :
    Ends (c.run g.gen depth rounds) s (g.Served m k P c) (g.Refused m k c s) := by
  have hat := h m hm
  have hstage := heven m hm
  cases c with
  | getChunk u i =>
      simp only [LazyOp.uqid] at hu
      subst hu
      refine h.ends_getChunk_op heven hm hk hd hc.1 fun h0 => hc.2 _ hat.inStep.base.vctr ?_
      simp [VctrVal.after, hstage, h0, Lengths.total_zero]
  | ungetChunk u i =>
      simp only [LazyOp.uqid] at hu
      subst hu
      rw [LazyOp.run, ends_map]
      by_cases hready : i < g.n.chunks (P m.uqid).stage ∧ (P m.uqid).readers i ≠ 0
      · refine (h.ends_unget hm hready.1 hready.2).imp (fun _ t ht => ?_) fun _ _ => False.elim
        exact ⟨⟨k, _, Nat.le_refl k, hk, by simp, ht, heven.setReaders, untouched_setReaders⟩, by simp⟩
      · rw [Ends, Member.ungetChunk_fails (g.fits m hm) hat.inStep hc hready]
        exact ⟨rfl, rfl, by simp, by simp⟩
  | get1 u i =>
      simp only [LazyOp.uqid] at hu
      subst hu
      rw [LazyOp.run, ends_map]
      refine (Member.ends_get1 (g.fits m hm) hat.inStep hat.stage_le hc).imp (fun _ t ht => ?_)
        fun e t ht => ⟨ht.1, ht.2, by simp, by simp⟩
      subst ht
      exact ⟨⟨k, P, Nat.le_refl k, hk, by simp, h, heven, Untouched.refl⟩, by simp⟩
  | eval u =>
      simp only [LazyOp.uqid] at hu
      subst hu
      rw [LazyOp.run, ends_map]
      refine (h.ends_eval heven hm hk hd hr).imp (fun _ t ht => ?_) fun _ _ => False.elim
      obtain ⟨P', h', heven', hun⟩ := ht
      refine ⟨⟨_, P', hk, Nat.le_refl _, fun _ => rfl, h', heven', fun m' hm' j hj _ => ?_⟩, by simp⟩
      exact hun m' hm' j hj not_false

end Group

end QStore.Vctr
