import Mathlib.Data.Finset.Card
import QStore.Vctr.Member

/-!
# QStore.Vctr.Lazy

Vectors that are evaluated together.

The members of a `Group` have streams of equal lengths, and each is a sibling of
all others (or there is one member only). Asked of one member for the chunk after
the last, the whole group moves on by one stage: whichever member is asked first
puts its own chunk and then asks the others, who find in turn that some have it
already. The depth of that recursion is at most the number of those who have not.
-/

namespace QStore.Vctr

open Function
open Member (Progress)

/-! ## which way `get_chunk` goes -/

namespace Member

variable {m : Member} {n : Lengths} {gen : Nat → Nat → Chunk} {siblings : List Nat} {p : Progress}
  {s : LSt} {i : Nat} {Q : Bool → LSt → Prop} {E : LErr → LSt → Prop}

theorem ends_toGenerate (hf : m.Fits n gen) (h : m.At n siblings p s) :
    Ends (toGenerate m.uqid i) s Q E ↔
      (n.last < p.stage → Q false s) ∧ (p.stage ≤ n.last →
        (i ≤ p.stage - 1 + 1 → Q (decide (p.stage = 0 ∨ i = p.stage - 1 + 1)) s) ∧
        (p.stage - 1 + 1 < i → E .raised s)) := by
  have hv := h.inStep.base.vctr
  have he : (m.base.entry.after n p.stage).isError = false := hf.base.error
  have hprimary : (m.base.entry.after n p.stage).hasParent = false := hf.primary
  rw [toGenerate, ends_bind, ends_maxChnkIdx hv he, ends_bind, ends_numElements hv, ends_bind,
    ends_isEov hv he]
  by_cases hk : p.stage ≤ n.last
  · have h0 : n.total p.stage = 0 ↔ p.stage = 0 := by
      constructor
      · intro h0
        by_contra hne
        have := n.total_pos hf.base.first (Nat.pos_of_ne_zero hne)
        omega
      · intro h0
        rw [h0, Lengths.total_zero]
    have hopen : ¬ (m.base.entry.after n p.stage).isEov = true := by simp [VctrVal.after, hk]
    rw [if_neg hopen, ends_bind, ends_isNnVec hv he, ends_bind,
      ends_luaAssert_of (fun _ => hprimary), ends_bind, ends_luaAssert, ends_pure]
    simp [VctrVal.after, Lengths.chunks_of_le hk, h0, hk]
  · simp [VctrVal.after, hk, Nat.lt_of_not_le hk]

/-- The chunk after the last one is generated. -/
theorem ends_toGenerate_next (hf : m.Fits n gen) (h : m.At n siblings p s) (hk : p.stage ≤ n.last) :
    Ends (toGenerate m.uqid p.stage) s Q E ↔ Q true s := by
  rw [ends_toGenerate hf h]
  by_cases h0 : p.stage = 0
  · simp [h0]
  · have hsucc : p.stage - 1 + 1 = p.stage := by omega
    simp [hk, Nat.not_lt.mpr hk, hsucc]

/-- One that is there is not, nor is any at the end. -/
theorem ends_toGenerate_stored (hf : m.Fits n gen) (h : m.At n siblings p s)
    (hi : i < n.chunks p.stage ∨ n.last < p.stage) :
    Ends (toGenerate m.uqid i) s Q E ↔ Q false s := by
  rw [ends_toGenerate hf h]
  by_cases hk : p.stage ≤ n.last
  · rw [Lengths.chunks_of_le hk] at hi
    have hlt : i < p.stage := by omega
    have hle : i ≤ p.stage - 1 + 1 := by omega
    have hne : ¬ (p.stage = 0 ∨ i = p.stage - 1 + 1) := by omega
    simp [hk, Nat.not_lt.mpr hk, hle, hne, Nat.not_lt.mpr hle]
  · simp [hk, Nat.lt_of_not_le hk]

/-- One further on is refused. -/
theorem ends_toGenerate_far (hf : m.Fits n gen) (h : m.At n siblings p s) (hk : p.stage ≤ n.last)
    (hi : p.stage < i) (h1 : p.stage = 0 → i ≠ 1) :
    Ends (toGenerate m.uqid i) s Q E ↔ E .raised s := by
  rw [ends_toGenerate hf h]
  have hlt : p.stage - 1 + 1 < i := by omega
  simp [hk, Nat.not_lt.mpr hk, hlt, Nat.not_le.mpr hlt]

end Member

/-! ## a group -/

/-- Vectors with streams of equal lengths, each a sibling of all others. -/
structure Group where
  n : Lengths
  gen : Nat → Nat → Chunk
  members : List Member
  siblings : Nat → List Nat
  fits : ∀ m ∈ members, m.Fits n gen
  apart : ∀ m ∈ members, ∀ m' ∈ members, m ≠ m' → ∀ a ∈ m.columns, ∀ b ∈ m'.columns,
    a.uqid ≠ b.uqid
  inside : ∀ m ∈ members, ∀ v ∈ siblings m.uqid, ∃ m' ∈ members, m'.uqid = v
  all : ∀ m ∈ members, ∀ m' ∈ members, m' ≠ m → m'.uqid ∈ siblings m.uqid
  short_pos : (∃ m ∈ members, ∃ m' ∈ members, m ≠ m') → 0 < n.short

namespace Group

variable {g : Group} {m m' : Member} {P : Nat → Progress} {p : Progress} {s t : LSt} {i k : Nat}

/-- So far have the members come. -/
def Holds (g : Group) (P : Nat → Progress) (s : LSt) : Prop :=
  ∀ m ∈ g.members, m.At g.n (g.siblings m.uqid) (P m.uqid) s

theorem uqid_ne (hm : m ∈ g.members) (hm' : m' ∈ g.members) (h : m ≠ m') : m.uqid ≠ m'.uqid :=
  g.apart m hm m' hm' h _ Member.base_mem_columns _ Member.base_mem_columns

/-- One member moves, and the others stay where they are. -/
theorem Holds.move (h : g.Holds P s) (hm : m ∈ g.members)
    (hp : m.At g.n (g.siblings m.uqid) p t) (ht : m.Only s t) : g.Holds (update P m.uqid p) t := by
  intro m' hm'
  by_cases hne : m' = m
  · rw [hne, update_self]
    exact hp
  · have hu := uqid_ne hm' hm hne
    have hout : ∀ a ∈ m'.columns, ∀ col ∈ m.columns, a.uqid ≠ col.uqid :=
      g.apart m' hm' m hm hne
    have hcol : ∀ a ∈ m'.columns, ∀ {k readers}, a.At g.n k readers s.c →
        a.At g.n k readers t.c := by
      intro a ha k readers hat
      refine ⟨?_, ?_, ?_⟩
      · rw [ht.vctrs _ (hout a ha)]
        exact hat.vctr
      · intro j hj
        rw [ht.chnks _ j (hout a ha)]
        exact hat.inside j hj
      · intro j hj
        rw [ht.chnks _ j (hout a ha)]
        exact hat.outside j hj
    have hat := h m' hm'
    rw [update_of_ne hu]
    refine ⟨hat.stage_le, ⟨hcol _ Member.base_mem_columns hat.inStep.base, fun w hw => ?_⟩, ?_⟩
    · exact hcol w (Member.nn_mem_columns hw) (hat.inStep.nn w hw)
    · rw [ht.lua _ hu]
      exact hat.lua

/-- What holds of the members holds. -/
theorem Holds.congr (h : g.Holds P s) {P' : Nat → Progress}
    (hP : ∀ m ∈ g.members, P' m.uqid = P m.uqid) : g.Holds P' s := by
  intro m hm
  rw [hP m hm]
  exact h m hm

/-! ### calls on one member -/

/-- The reader count of a chunk of a member. -/
def setReaders (P : Nat → Progress) (u i : Nat) (r : UInt16) : Nat → Progress :=
  update P u ⟨(P u).stage, update (P u).readers i r⟩

theorem Holds.setC (h : g.Holds P s) (hm : m ∈ g.members) {c : St} {r : UInt16}
    (hc : m.InStep g.n (P m.uqid).stage (update (P m.uqid).readers i r) c)
    (ht : m.Only s (s.setC c)) : g.Holds (setReaders P m.uqid i r) (s.setC c) :=
  h.move hm ⟨(h m hm).stage_le, hc, (h m hm).lua⟩ ht

theorem Holds.ends_unget (h : g.Holds P s) (hm : m ∈ g.members)
    (hi : i < g.n.chunks (P m.uqid).stage) (hr : (P m.uqid).readers i ≠ 0) :
    Ends (ungetChunk m.uqid i) s
      (fun _ t => g.Holds (setReaders P m.uqid i ((P m.uqid).readers i - 1)) t)
      fun _ _ => False := by
  have hat := h m hm
  refine (Member.ends_ungetChunk (g.fits m hm) hat.inStep hi hat.stage_le hr).imp ?_
    fun _ _ => id
  intro _ t ht
  obtain ⟨c, rfl, hc, honly⟩ := ht
  exact h.setC hm hc honly

theorem Holds.ends_incr (h : g.Holds P s) (hm : m ∈ g.members)
    (hi : i < g.n.chunks (P m.uqid).stage) :
    Ends (incrReaders m.uqid i) s
      (fun _ t => g.Holds (setReaders P m.uqid i ((P m.uqid).readers i + 1)) t)
      fun _ _ => False := by
  have hat := h m hm
  refine (Member.ends_incrReaders (g.fits m hm) hat.inStep hi hat.stage_le).imp ?_
    fun _ _ => id
  intro _ t ht
  obtain ⟨c, rfl, hc, honly⟩ := ht
  exact h.setC hm hc honly

/-- A chunk that is there is delivered, and counted as read. -/
theorem Holds.ends_getChunk_stored (h : g.Holds P s) (hm : m ∈ g.members)
    (hi : i < g.n.chunks (P m.uqid).stage) (depth : Nat) :
    Ends (getChunk g.gen (depth + 1) m.uqid i) s
      (fun r t => m.Delivers g.n i r ∧
        g.Holds (setReaders P m.uqid i ((P m.uqid).readers i + 1)) t)
      fun _ _ => False := by
  have hat := h m hm
  rw [getChunk, ends_bind, Member.ends_toGenerate_stored (g.fits m hm) hat (.inl hi)]
  refine (Member.ends_archivalChunk (g.fits m hm) hat.inStep hi hat.stage_le).imp ?_
    fun _ _ => id
  intro r t ht
  obtain ⟨hdel, c, rfl, hc, honly⟩ := ht
  exact ⟨hdel, h.setC hm hc honly⟩

/-- At the end, `eov` has nothing left to do. -/
theorem Holds.ends_eov (h : g.Holds P s) (hm : m ∈ g.members) (hend : (P m.uqid).stage = g.n.last + 1) :
    Ends (eov m.uqid) s (fun _ t => t = s) fun _ _ => False := by
  have hat := h m hm
  have hstep := hat.inStep
  rw [hend] at hstep
  refine (Member.ends_eov_full (g.fits m hm) hstep).imp ?_ fun _ _ => id
  intro _ t ht
  have hgen : (s.lua m.uqid).hasGen = false := by simp [hat.lua, hend]
  have hsame : ({ s.lua m.uqid with hasGen := false } : LuaVec) = s.lua m.uqid := by
    rw [← hgen]
  rw [ht, hsame, LSt.setLua, update_eq_self]

theorem Holds.ends_maxNumInChunk (h : g.Holds P s) (hm : m ∈ g.members) {Q : Nat → LSt → Prop}
    {E : LErr → LSt → Prop} : Ends (maxNumInChunk m.uqid) s Q E ↔ Q g.n.max s := by
  have hf := (g.fits m hm).base
  have hmax : (m.base.entry.after g.n (P m.uqid).stage).maxNumInChnk = g.n.max := hf.max_eq
  have hpos : 0 < (m.base.entry.after g.n (P m.uqid).stage).maxNumInChnk := hmax ▸ g.n.max_pos
  rw [QStore.Vctr.ends_maxNumInChunk (h m hm).inStep.base.vctr hf.error hpos, hmax]

/-! ### the next chunk -/

/-- Those who are at stage `k` get their chunk, and nobody reads it. -/
def catchUp (k : Nat) (P : Nat → Progress) (u : Nat) : Progress :=
  if (P u).stage = k then ⟨k + 1, update (P u).readers k 0⟩ else P u

/-- The members at stage `k`. -/
def behind (g : Group) (k : Nat) (P : Nat → Progress) : Finset Nat :=
  (g.members.map Member.uqid).toFinset.filter fun u => (P u).stage = k

/-- All members are at stage `k`, or have just left it and their new chunk is not
read. -/
def Near (g : Group) (k : Nat) (P : Nat → Progress) : Prop :=
  ∀ m ∈ g.members, (P m.uqid).stage = k ∨ ((P m.uqid).stage = k + 1 ∧ (P m.uqid).readers k = 0)

/-- The one reader of a chunk gives it back. -/
theorem setReaders_give {X : Nat → Progress} {u : Nat} (hr : (X u).readers k = 0) :
    setReaders (setReaders X u k 1) u k (1 - 1) = X := by
  have hself : update (X u).readers k 0 = (X u).readers := by
    rw [← hr, update_eq_self]
  simp [setReaders, hself]

/-- A sibling that is asked for the chunk is left without a reader of it. -/
theorem ends_siblingChunk {getChunk : Nat → Nat → L Chunk} {X : Nat → Progress}
    (hm : m ∈ g.members) (hm' : m' ∈ g.members) (hk : k ≤ g.n.last) (hn : 0 < g.n.num k)
    (hstage : (X m'.uqid).stage = k + 1) (hr : (X m'.uqid).readers k = 0)
    (hget : Ends (getChunk m'.uqid k) s
      (fun r t => m'.Delivers g.n k r ∧ g.Holds (setReaders X m'.uqid k 1) t) fun _ _ => False) :
    Ends (siblingChunk getChunk m.uqid k (g.n.num k) m'.uqid) s (fun _ t => g.Holds X t)
      fun _ _ => False := by
  rw [siblingChunk, ends_bind]
  refine hget.imp ?_ fun _ _ => id
  intro r t ht
  obtain ⟨hdel, h⟩ := ht
  have hread : (setReaders X m'.uqid k 1 m'.uqid).readers k = 1 := by simp [setReaders]
  have hnext : (setReaders X m'.uqid k 1 m'.uqid).stage = k + 1 := by simp [setReaders, hstage]
  have hlt : k < g.n.chunks (setReaders X m'.uqid k 1 m'.uqid).stage := by
    rw [hnext, Lengths.chunks_succ hk hn]
    omega
  have hunget := h.ends_unget hm' hlt (by rw [hread]; decide)
  rw [hread, setReaders_give hr] at hunget
  rw [ends_bind, ends_luaAssert_of hdel.num, ends_bind, h.ends_maxNumInChunk hm, ends_bind,
    ends_luaIf, hdel.num, Lengths.num_lt_iff hk]
  constructor
  · intro hlast
    refine (h.ends_eov hm' (by rw [hnext, hlast])).imp ?_ fun _ _ => id
    intro _ u hu
    exact hu ▸ hunget
  · intro _
    exact hunget

/-- A member that moves on is no longer behind. -/
theorem card_behind_lt (hm : m ∈ g.members) (hk : (P m.uqid).stage = k) (hp : p.stage ≠ k) :
    (g.behind k (update P m.uqid p)).card < (g.behind k P).card := by
  apply Finset.card_lt_card
  rw [Finset.ssubset_iff_of_subset]
  · refine ⟨m.uqid, ?_, ?_⟩
    · simp only [behind, Finset.mem_filter, List.mem_toFinset, List.mem_map]
      exact ⟨⟨m, hm, rfl⟩, hk⟩
    · simp [behind, hp]
  · intro u hu
    simp only [behind, Finset.mem_filter] at hu ⊢
    by_cases hum : u = m.uqid
    · rw [hum, update_self] at hu
      exact absurd hu.2 hp
    · rw [update_of_ne hum] at hu
      exact hu

/-- The progress once member `u` was asked for chunk `k`: it has one reader of it. -/
def served (k : Nat) (P : Nat → Progress) (u : Nat) : Nat → Progress :=
  setReaders (catchUp k P) u k 1

theorem catchUp_of_stage {u : Nat} (h : (P u).stage = k) :
    catchUp k P u = ⟨k + 1, update (P u).readers k 0⟩ := by
  simp [catchUp, h]

theorem catchUp_of_ne {u : Nat} (h : (P u).stage ≠ k) : catchUp k P u = P u := by
  simp [catchUp, h]

/-- It does not matter who moves on first. -/
theorem catchUp_update {u : Nat} (h : (P u).stage = k) :
    catchUp k (update P u ⟨k + 1, update (P u).readers k 0⟩) = catchUp k P := by
  funext w
  by_cases hw : w = u
  · rw [hw, catchUp_of_stage h, catchUp_of_ne (by simp), update_self]
  · simp [catchUp, hw]

theorem Near.catchUp (h : g.Near k P) (hm : m ∈ g.members) :
    (catchUp k P m.uqid).stage = k + 1 ∧ (catchUp k P m.uqid).readers k = 0 := by
  cases h m hm with
  | inl hk => simp [catchUp_of_stage hk]
  | inr hk => rwa [catchUp_of_ne (by omega)]

/-- **The siblings.** The first of them that is behind makes all others catch up; the
rest have the chunk already. -/
theorem Holds.ends_siblings {getChunk : Nat → Nat → L Chunk} (h : g.Holds P s) (hnear : g.Near k P)
    (hm : m ∈ g.members) (hk : k ≤ g.n.last) (hn : 0 < g.n.num k)
    (hself : (P m.uqid).stage = k + 1)
    (hstored : ∀ X t, g.Holds X t → ∀ m' ∈ g.members, (X m'.uqid).stage = k + 1 →
      Ends (getChunk m'.uqid k) t (fun r u => m'.Delivers g.n k r ∧
        g.Holds (setReaders X m'.uqid k ((X m'.uqid).readers k + 1)) u) fun _ _ => False)
    (hnext : ∀ t, g.Holds P t → ∀ m' ∈ g.members, (P m'.uqid).stage = k →
      Ends (getChunk m'.uqid k) t (fun r u => m'.Delivers g.n k r ∧
        g.Holds (served k P m'.uqid) u) fun _ _ => False) :
    Ends (forEach (siblingChunk getChunk m.uqid k (g.n.num k)) (g.siblings m.uqid)) s
      (fun _ t => g.Holds (Group.catchUp k P) t) fun _ _ => False := by
  have hdone : ∀ X t, g.Holds X t → ∀ m' ∈ g.members, (X m'.uqid).stage = k + 1 →
      (X m'.uqid).readers k = 0 →
      Ends (siblingChunk getChunk m.uqid k (g.n.num k) m'.uqid) t (fun _ u => g.Holds X u)
        fun _ _ => False := by
    intro X t hX m' hm' hstage hr
    have hget := hstored X t hX m' hm' hstage
    rw [hr] at hget
    exact ends_siblingChunk hm hm' hk hn hstage hr hget
  -- either all have caught up, or none of those asked so far was behind
  refine (Ends.forEach (fun ys t => g.Holds (Group.catchUp k P) t ∨
    (g.Holds P t ∧ ∀ v ∈ ys, (P v).stage ≠ k)) _ (.inr ⟨h, by simp⟩) ?_).imp ?_ fun _ _ => id
  · intro ys v zs t hsplit hI
    obtain ⟨m', hm', rfl⟩ := g.inside m hm v (by simp [hsplit])
    have hcaught := hnear.catchUp hm'
    cases hI with
    | inl hall =>
        refine (hdone _ t hall m' hm' hcaught.1 hcaught.2).imp ?_ fun _ _ => id
        exact fun _ _ => .inl
    | inr hsome =>
        obtain ⟨hP, hys⟩ := hsome
        by_cases hbehind : (P m'.uqid).stage = k
        · have hget := hnext t hP m' hm' hbehind
          refine (ends_siblingChunk hm hm' hk hn hcaught.1 hcaught.2 hget).imp ?_ fun _ _ => id
          exact fun _ _ => .inl
        · obtain ⟨hstage, hr⟩ := (hnear m' hm').resolve_left hbehind
          refine (hdone P t hP m' hm' hstage hr).imp ?_ fun _ _ => id
          intro _ u hu
          refine .inr ⟨hu, fun v hv => ?_⟩
          rw [List.mem_append, List.mem_singleton] at hv
          cases hv with
          | inl hv => exact hys v hv
          | inr hv => exact hv ▸ hbehind
  · intro _ t hI
    cases hI with
    | inl hall => exact hall
    | inr hsome =>
        refine hsome.1.congr fun m' hm' => catchUp_of_ne ?_
        by_cases hsame : m' = m
        · rw [hsame, hself]
          omega
        · exact hsome.2 _ (g.all m hm m' hm' hsame)

/-- An empty last chunk is not there to be read. Only a vector without siblings has
one. -/
theorem Holds.served_of_empty (hm : m ∈ g.members) (hk : k ≤ g.n.last) (h0 : g.n.num k = 0)
    (hstage : (P m.uqid).stage = k)
    (h : g.Holds (update P m.uqid ⟨k + 1, update (P m.uqid).readers k 0⟩) s) :
    g.Holds (served k P m.uqid) s := by
  obtain ⟨rfl, hshort⟩ := Lengths.empty hk h0
  intro m' hm'
  have hsame : m' = m := by
    by_contra hne
    have := g.short_pos ⟨m', hm', m, hm, hne⟩
    omega
  have hat := h m hm
  rw [update_self] at hat
  rw [hsame, served, setReaders, update_self, catchUp_of_stage hstage]
  refine ⟨hat.stage_le, hat.inStep.congr fun j hj => ?_, hat.lua⟩
  rw [Lengths.chunks_end hshort] at hj
  simp [Nat.ne_of_lt hj]

/-- **The next chunk.** Whoever of the group is asked for it, all get theirs, and only
the one asked has a reader of it. -/
theorem Holds.ends_getChunk_next (hk : k ≤ g.n.last) :
    ∀ (depth : Nat) (P : Nat → Progress) (s : LSt) (m : Member), g.Holds P s → g.Near k P →
      m ∈ g.members → (P m.uqid).stage = k → (g.behind k P).card < depth →
      Ends (getChunk g.gen depth m.uqid k) s
        (fun r t => m.Delivers g.n k r ∧ g.Holds (served k P m.uqid) t) fun _ _ => False := by
  intro depth
  induction depth with
  | zero =>
      intro P s m _ _ _ _ hd
      exact absurd hd (Nat.not_lt_zero _)
  | succ depth ih =>
      intro P s m h hnear hm hstage hd
      have hat := h m hm
      have hgen : ¬ (s.lua m.uqid).hasGen = false := by simp [hat.lua, hstage, hk]
      rw [getChunk, ends_bind, ← hstage,
        Member.ends_toGenerate_next (g.fits m hm) hat (hstage ▸ hk), hstage]
      simp only [if_true, ends_bind, ends_getLua]
      rw [if_neg hgen, ends_bind]
      have hput := Member.ends_generate (g.fits m hm) hat (hstage ▸ hk)
      rw [hstage] at hput
      refine hput.imp ?_ fun _ _ => id
      intro r t ht
      obtain ⟨hdel, hat', honly⟩ := ht
      have h' := h.move hm hat' honly
      by_cases hn : 0 < g.n.num k
      · rw [if_neg (by rw [hdel.num]; omega), ends_bind, ends_getLua, ends_bind, hat'.lua, hdel.num]
        have hcatch : catchUp k (update P m.uqid ⟨k + 1, update (P m.uqid).readers k 0⟩) =
            catchUp k P := catchUp_update hstage
        have hnear' : g.Near k (update P m.uqid ⟨k + 1, update (P m.uqid).readers k 0⟩) := by
          intro m' hm'
          by_cases hsame : m' = m
          · simp [hsame]
          · rw [update_of_ne (uqid_ne hm' hm hsame)]
            exact hnear m' hm'
        have hless := card_behind_lt (k := k) (P := P) (p := ⟨k + 1, update (P m.uqid).readers k 0⟩)
          hm hstage (by simp)
        obtain ⟨d, rfl⟩ : ∃ d, depth = d + 1 := ⟨depth - 1, by omega⟩
        have hloop := h'.ends_siblings hnear' hm hk hn (by simp)
          (fun X u hX m' hm' hX' => hX.ends_getChunk_stored hm'
            (by rw [hX', Lengths.chunks_succ hk hn]; omega) d)
          (fun u hu m' hm' hstage' => ih _ u m' hu hnear' hm' hstage' (by omega))
        rw [hcatch] at hloop
        refine hloop.imp ?_ fun _ _ => id
        intro _ u hu
        have hcaught := hnear.catchUp hm
        rw [ends_bind]
        refine (hu.ends_incr hm (i := k)
          (by rw [hcaught.1, Lengths.chunks_succ hk hn]; omega)).imp ?_ fun _ _ => id
        intro _ w hw
        rw [hcaught.2] at hw
        exact ⟨hdel, hw⟩
      · have h0 : g.n.num k = 0 := Nat.eq_zero_of_not_pos hn
        rw [if_pos (hdel.num.trans h0), ends_pure]
        refine ⟨⟨h0.symm, fun hpos => absurd hpos hn, fun hpos => absurd hpos hn⟩, ?_⟩
        exact Holds.served_of_empty hm hk h0 hstage h'

end Group

end QStore.Vctr
