import QStore.Vctr.Calls
import QStore.Vctr.Contract

/-!
# QStore.Vctr.AllOrNothing

When `vctr_del` deletes all of a vector or nothing of it.

```
break the links to and from the nn vector
remove the linear file
for each chunk of the window
  free its memory, remove its file, remove its entry
remove the entry of the vector
```

No step is taken back when a later one fails. So the call is all or nothing when
it fails before the first change, or does not fail and nothing lies outside the
window. It never comes to the nn vector.
-/

namespace QStore.Vctr

open Function Relation

/-! ## one chunk -/

/-- `chnk_free_resources` has nothing to say against the chunk. -/
structure Freeable (fs : Fs FileName) (u i : Nat) (isPersist : Bool) (c : ChnkVal) : Prop where
  readers : ¬ c.numReaders > 0
  writers : ¬ c.numWriters > 0
  mem : c.l1Mem ≠ none → 0 < c.size ∧ c.size ≤ 1024 * 1048576
  file : isPersist = false → c.l2Exists = true →
    0 < c.size ∧ ∃ f, l2FileName u i = some f ∧ fs.read f ≠ none

/-- `chnk_free_resources` fails before it changes anything. -/
def Stuck (fs : Fs FileName) (u i : Nat) (isPersist : Bool) (c : ChnkVal) : Prop :=
  c.numReaders > 0 ∨ c.numWriters > 0 ∨
    c.l1Mem ≠ none ∧ (c.size = 0 ∨ c.size > 1024 * 1048576) ∨
    c.l1Mem = none ∧ isPersist = false ∧ c.l2Exists = true ∧
      ∀ f, l2FileName u i = some f → fs.read f = none

theorem Stuck.not_freeable {fs : Fs FileName} {u i : Nat} {p : Bool} {c : ChnkVal}
    (h : Stuck fs u i p c) : ¬ Freeable fs u i p c := by
  intro hf
  rcases h with h | h | ⟨hm, hs⟩ | ⟨-, hp, he, h⟩
  · exact hf.readers h
  · exact hf.writers h
  · have := hf.mem hm
    omega
  · obtain ⟨-, f, hname, hread⟩ := hf.file hp he
    exact hread (h f hname)

variable {s t : St} {u i j : Nat} {v : VctrVal} {p : Bool}

/-- `chnk_del` fails before it changes anything. -/
def StuckAt (s : St) (u i : Nat) (p : Bool) : Prop :=
  ∀ c, s.chnks (u, i) = some c → Stuck s.fs u i p c

/-- A chunk is there, and can go. -/
def FreeableAt (s : St) (u i : Nat) (p : Bool) : Prop :=
  ∃ c, s.chnks (u, i) = some c ∧ Freeable s.fs u i p c

theorem StuckAt.not_freeableAt (h : StuckAt s u i p) : ¬ FreeableAt s u i p := by
  rintro ⟨c, hc, hf⟩
  exact (h c hc).not_freeable hf

/-- The entry of a chunk and its file are as they were. -/
structure SameChnk (s t : St) (u i : Nat) : Prop where
  chnk : t.chnks (u, i) = s.chnks (u, i)
  file : ∀ f, l2FileName u i = some f → t.fs.read f = s.fs.read f

/-- A chunk is gone, and no file but its own. -/
structure Freed (s t : St) (u i : Nat) : Prop where
  vctrs : t.vctrs = s.vctrs
  chnks : t.chnks = update s.chnks (u, i) none
  fewer : ∀ f, t.fs.read f ≠ none → s.fs.read f ≠ none
  files : ∀ f, l2FileName u i ≠ some f → t.fs.read f = s.fs.read f

/-- What `chnk_del` says when it fails. -/
structure Failed (s t : St) (u i : Nat) (p : Bool) (e : Err) : Prop where
  bye : ∃ k, e = .bye k
  why : ¬ FreeableAt s u i p
  change : SameChnk s t u i → StuckAt s u i p
  stuck : StuckAt s u i p → t = s
  gone : ∀ j, s.chnks (u, j) = none → t.chnks (u, j) = none

/-- A failure that is due to what `Stuck` is about. -/
theorem Failed.of_stuck {k : Int} (h : StuckAt s u i p) : Failed s s u i p (.bye k) where
  bye := ⟨k, rfl⟩
  why := h.not_freeableAt
  change := fun _ => h
  stuck := fun _ => rfl
  gone := fun _ => id

/-- A failure after a change. -/
theorem Failed.of_change {k : Int} {c : ChnkVal} (hc : s.chnks (u, i) = some c)
    (hwhy : ¬ Freeable s.fs u i p c) (hns : ¬ Stuck s.fs u i p c) (h : ¬ SameChnk s t u i)
    (hgone : ∀ j, j ≠ i → t.chnks (u, j) = s.chnks (u, j)) : Failed s t u i p (.bye k) where
  bye := ⟨k, rfl⟩
  why := by
    rintro ⟨c', hc', hf⟩
    cases hc.symm.trans hc'
    exact hwhy hf
  change := fun hsame => absurd hsame h
  stuck := fun hs => absurd (hs c hc) hns
  gone := by
    intro j hj
    have hne : j ≠ i := by
      rintro rfl
      rw [hc] at hj
      contradiction
    rw [hgone j hne, hj]

/-- The second half of `chnk_free_resources`: the file of the chunk. -/
theorem ends_freeFile {c : ChnkVal} (hfound : s.chnks (u, i) ≠ none) :
    Ends (onlyIf (p = false ∧ c.l2Exists) do
        let f ← l2Name u i
        unlinkFile f
        decrDskUsed c.size
        modChnk u i fun c => { c with l2Exists := false }) s
      (fun _ t => (p = false → c.l2Exists = true →
          0 < c.size ∧ ∃ f, l2FileName u i = some f ∧ s.fs.read f ≠ none) ∧
        t.vctrs = s.vctrs ∧ (∃ d, t.chnks = update s.chnks (u, i) (some d)) ∧
        (∀ f, t.fs.read f ≠ none → s.fs.read f ≠ none) ∧
        ∀ f, l2FileName u i ≠ some f → t.fs.read f = s.fs.read f)
      (fun e t => e = .bye (-1) ∧ p = false ∧ c.l2Exists = true ∧ t.chnks = s.chnks ∧
        (t = s ∧ (∀ f, l2FileName u i = some f → s.fs.read f = none) ∨
          c.size = 0 ∧ ∃ f, l2FileName u i = some f ∧ s.fs.read f ≠ none ∧ t.fs.read f = none)) := by
  obtain ⟨d, hd⟩ := Option.ne_none_iff_exists'.mp hfound
  rw [ends_onlyIf]
  constructor
  · rintro ⟨hp, he⟩
    simp only [ends_bind, ends_l2Name, ends_unlinkFile]
    constructor
    · intro hname
      refine ⟨trivial, hp, he, trivial, .inl ⟨trivial, fun f hf => ?_⟩⟩
      rw [hname] at hf
      contradiction
    · intro f hf
      constructor
      · intro hread
        refine ⟨trivial, hp, he, trivial, .inl ⟨trivial, fun g hg => ?_⟩⟩
        cases hf.symm.trans hg
        exact hread
      · intro bs hbs
        have hread : s.fs.read f ≠ none := by simp [hbs]
        refine ends_decrDskUsed_of_size (fun h0 => ?_) fun hsize n => ?_
        · exact ⟨rfl, hp, he, rfl, .inr ⟨h0, f, hf, hread, Fs.read_unlink_self _⟩⟩
        · have hd' : ((s.setFs (s.fs.unlink f)).setDsk n).chnks (u, i) = some d := hd
          rw [ends_modChnk_of hd']
          refine ⟨fun _ _ => ⟨hsize, f, hf, hread⟩, rfl, ⟨_, rfl⟩, fun g hg => ?_, fun g hg => ?_⟩
          · by_cases hgf : g = f
            · exact absurd (hgf ▸ Fs.read_unlink_self s.fs) hg
            · exact (Fs.same_unlink hgf).read ▸ hg
          · have hgf : g ≠ f := fun h => hg (h ▸ hf)
            exact (Fs.same_unlink hgf).read
  · intro hno
    refine ⟨fun hp he => absurd ⟨hp, he⟩ hno, rfl, ⟨d, ?_⟩, fun _ => id, fun _ _ => rfl⟩
    rw [← hd, update_eq_self]

/-- `chnk_del` removes a chunk that can go, and says so of any other. -/
theorem ends_chnkDel_freeable (hu : s.vctrs u ≠ none) :
    Ends (chnkDel u i p) s (fun _ t => FreeableAt s u i p ∧ Freed s t u i)
      (fun e t => Failed s t u i p e) := by
  simp only [chnkDel, ends_bind, ends_get, if_neg hu]
  cases hc : s.chnks (u, i) with
  | none =>
      rw [if_pos rfl]
      refine Failed.of_stuck fun c hc' => ?_
      rw [hc] at hc'
      contradiction
  | some c =>
      rw [if_neg (by simp)]
      simp only [chnkFreeResources, ends_bind, ends_getChnk_of hc, ends_byeIf]
      have hstuck : Stuck s.fs u i p c → StuckAt s u i p := by
        intro h c' hc'
        cases hc.symm.trans hc'
        exact h
      refine ⟨fun h => .of_stuck (hstuck (.inl h)), fun hr =>
        ⟨fun h => .of_stuck (hstuck (.inr (.inl h))), fun hw => ?_⟩⟩
      cases hm : c.l1Mem with
      | none =>
          rw [onlyIf, if_neg (by simp), ends_pure]
          refine (ends_freeFile (by simp [hc])).imp ?_ ?_
          · rintro - t ⟨hfile, hv, ⟨d, hd⟩, hfewer, hfiles⟩
            refine ⟨⟨c, hc, hr, hw, fun h => absurd hm h, hfile⟩, hv, ?_, hfewer, hfiles⟩
            show update t.chnks (u, i) none = _
            rw [hd, update_idem]
          · rintro e t ⟨rfl, hp, he, hch, ⟨rfl, hf⟩ | ⟨h0, f, hf, hread, hgone⟩⟩
            · exact .of_stuck (hstuck (.inr (.inr (.inr ⟨hm, hp, he, hf⟩))))
            · refine .of_change hc (fun h => ?_) (fun h => ?_) (fun h => ?_) fun j _ => by rw [hch]
              · have := (h.file hp he).1
                omega
              · rcases h with h | h | ⟨h, -⟩ | ⟨-, -, -, h⟩
                · exact hr h
                · exact hw h
                · exact h hm
                · exact hread (h f hf)
              · exact hread ((h.file f hf).symm.trans hgone)
      | some b =>
          have hne : c.l1Mem ≠ none := by simp [hm]
          rw [onlyIf, if_pos (by simp), ends_bind]
          refine ends_decrMemUsed_of_size (fun h => ?_) fun hpos hmax n => ?_
          · exact .of_stuck (hstuck (.inr (.inr (.inl ⟨hne, h⟩))))
          · rw [ends_setChnk]
            have hns : ¬ Stuck s.fs u i p c := by
              rintro (h | h | ⟨-, h⟩ | ⟨h, -⟩)
              · exact hr h
              · exact hw h
              · omega
              · exact hne h
            have hdiff : ({ c with l1Mem := none } : ChnkVal) ≠ c := by
              intro h
              exact hne (congrArg ChnkVal.l1Mem h).symm
            refine (ends_freeFile (by simp)).imp ?_ ?_
            · rintro - t ⟨hfile, hv, ⟨d, hd⟩, hfewer, hfiles⟩
              refine ⟨⟨c, hc, hr, hw, fun _ => ⟨hpos, hmax⟩, hfile⟩, hv, ?_, hfewer, hfiles⟩
              show update t.chnks (u, i) none = _
              rw [hd, St.setChnk, update_idem, update_idem]
              rfl
            · rintro e t ⟨rfl, hp, he, hch, hfs⟩
              refine .of_change hc (fun h => ?_) hns (fun h => hdiff ?_) fun j hj => ?_
              · obtain ⟨h0, f, hf, hread⟩ := h.file hp he
                rcases hfs with ⟨-, hnone⟩ | ⟨h0', -⟩
                · exact hread (hnone f hf)
                · omega
              · have hent := h.chnk
                rw [hch, St.setChnk_self, hc, Option.some.injEq] at hent
                exact hent
              · rw [hch]
                exact St.setChnk_of_ne (by simp [hj])

/-! ## the loop -/

theorem ends_delRound (hu : s.vctrs u ≠ none) :
    Ends (delRound u v i) s (fun _ t => FreeableAt s u i v.isPersist ∧ Freed s t u i)
      (fun e t => Failed s t u i v.isPersist e) := by
  simp only [delRound, ends_bind, ends_get, ends_byeIf]
  refine ⟨fun h => .of_stuck fun c hc => ?_, fun _ => ends_chnkDel_freeable hu⟩
  rw [h.2] at hc
  contradiction

/-- The loop has come from `lo` to `k`. -/
structure Deleted (s t : St) (u lo k : Nat) (p : Bool) : Prop where
  freeable : ∀ i, lo ≤ i → i < k → FreeableAt s u i p
  vctrs : t.vctrs = s.vctrs
  inside : ∀ i, lo ≤ i → i < k → t.chnks (u, i) = none
  outside : ∀ i, i < lo ∨ k ≤ i → t.chnks (u, i) = s.chnks (u, i)
  fewer : ∀ f, t.fs.read f ≠ none → s.fs.read f ≠ none
  files : ∀ f, (∀ i, lo ≤ i → i < k → l2FileName u i ≠ some f) → t.fs.read f = s.fs.read f
  start : k = lo → t = s

variable {lo k : Nat}

theorem Deleted.refl : Deleted s s u lo lo p where
  freeable := fun _ _ _ => by omega
  vctrs := rfl
  inside := fun _ _ _ => by omega
  outside := fun _ _ => rfl
  fewer := fun _ => id
  files := fun _ _ => rfl
  start := fun _ => rfl

/-- What can go now could go before the loop. -/
theorem Deleted.freeableAt (h : Deleted s t u lo k p) (hf : FreeableAt t u k p) :
    FreeableAt s u k p := by
  obtain ⟨c, hc, hf⟩ := hf
  refine ⟨c, (h.outside k (.inr (Nat.le_refl k))).symm.trans hc, hf.readers, hf.writers, hf.mem,
    fun hp he => ?_⟩
  obtain ⟨hsize, f, hname, hread⟩ := hf.file hp he
  exact ⟨hsize, f, hname, h.fewer f hread⟩

/-- What could go before the loop still can: no two chunks have one file. -/
theorem Deleted.freeableAt_of (h : Deleted s t u lo k p) (hk : k < lmaIdx)
    (hf : FreeableAt s u k p) : FreeableAt t u k p := by
  obtain ⟨c, hc, hf⟩ := hf
  refine ⟨c, (h.outside k (.inr (Nat.le_refl k))).trans hc, hf.readers, hf.writers, hf.mem,
    fun hp he => ?_⟩
  obtain ⟨hsize, f, hname, hread⟩ := hf.file hp he
  refine ⟨hsize, f, hname, ?_⟩
  rw [h.files f fun j _ hj hj' => ?_]
  · exact hread
  · obtain ⟨-, -, h1⟩ := l2FileName_eq_some (by omega) hname
    obtain ⟨-, -, h2⟩ := l2FileName_eq_some (by omega) hj'
    rw [h1, FileName.l2.injEq] at h2
    omega

theorem Deleted.step {t' : St} (h : Deleted s t u lo k p) (hk : lo ≤ k)
    (hfree : FreeableAt t u k p) (hf : Freed t t' u k) : Deleted s t' u lo (k + 1) p where
  freeable := by
    intro i hlo hi
    by_cases hik : i = k
    · rw [hik]
      exact h.freeableAt hfree
    · exact h.freeable i hlo (by omega)
  vctrs := hf.vctrs.trans h.vctrs
  inside := by
    intro i hlo hi
    rw [hf.chnks]
    by_cases hik : i = k
    · rw [hik, update_self]
    · rw [update_of_ne (by simp [hik])]
      exact h.inside i hlo (by omega)
  outside := by
    intro i hi
    rw [hf.chnks, update_of_ne (by grind)]
    exact h.outside i (by omega)
  fewer := fun f hread => h.fewer f (hf.fewer f hread)
  files := by
    intro f hname
    rw [hf.files f (hname k hk (by omega))]
    exact h.files f fun i hlo hi => hname i hlo (by omega)
  start := fun hk' => by omega

theorem ends_delRounds (hu : s.vctrs u ≠ none) (lo n : Nat) :
    Ends (forUp (delRound u v) lo n) s (fun _ t => Deleted s t u lo (lo + n) v.isPersist)
      (fun e t' => ∃ k t, lo ≤ k ∧ k < lo + n ∧ Deleted s t u lo k v.isPersist ∧
        Failed t t' u k v.isPersist e) := by
  refine Ends.forUp (fun k t => Deleted s t u lo k v.isPersist) n lo s .refl fun k t hlo hk ht => ?_
  refine (ends_delRound (ht.vctrs ▸ hu)).imp ?_ fun e t' hf => ⟨k, t, hlo, hk, ht, hf⟩
  rintro - t' ⟨hfree, hf⟩
  exact ht.step hlo hfree hf

/-- A loop that comes to a chunk it has deleted fails there. -/
theorem ends_delRounds_of_gone (hu : s.vctrs u ≠ none) (hgone : s.chnks (u, i) = none) :
    Ends (forUp (delRound u v) 0 (i + 1)) s (fun _ _ => False)
      (fun e t => (∃ k, e = .bye k) ∧ t.chnks (u, i) = none) := by
  refine (ends_delRounds hu 0 (i + 1)).imp (fun _ t ht => ?_) ?_
  · obtain ⟨c, hc, -⟩ := ht.freeable i (by omega) (by omega)
    rw [hgone] at hc
    contradiction
  · rintro e t' ⟨k, t, -, hk, ht, hf⟩
    refine ⟨hf.bye, hf.gone i ?_⟩
    rw [ht.outside i (by omega), hgone]

/-- What the whole loop says when it fails. -/
structure LoopFailed (s t : St) (u : Nat) (v : VctrVal) (e : Err) : Prop where
  bye : ∃ k, e = .bye k
  entered : v.minChnkIdx ≤ v.maxChnkIdx
  why : ¬ ∀ i, v.minChnkIdx ≤ i → i ≤ v.maxChnkIdx → i < lmaIdx ∧ FreeableAt s u i v.isPersist
  change : SameChnk s t u v.minChnkIdx → StuckAt s u v.minChnkIdx v.isPersist
  stuck : StuckAt s u v.minChnkIdx v.isPersist → t = s

/-- A failure after the first round. -/
theorem LoopFailed.of_first {e : Err} (hbye : ∃ k, e = .bye k)
    (hle : v.minChnkIdx ≤ v.maxChnkIdx)
    (hwhy : ¬ ∀ i, v.minChnkIdx ≤ i → i ≤ v.maxChnkIdx → i < lmaIdx ∧ FreeableAt s u i v.isPersist)
    (hfree : FreeableAt s u v.minChnkIdx v.isPersist) (hgone : t.chnks (u, v.minChnkIdx) = none) :
    LoopFailed s t u v e where
  bye := hbye
  entered := hle
  why := hwhy
  change := by
    intro hsame
    obtain ⟨c, hc, -⟩ := hfree
    have := hsame.chnk
    rw [hgone, hc] at this
    contradiction
  stuck := fun hs => absurd hfree hs.not_freeableAt

theorem ends_delLoop (hu : s.vctrs u ≠ none) :
    Ends (delLoop u v) s
      (fun _ t => Deleted s t u v.minChnkIdx (v.minChnkIdx + (v.maxChnkIdx + 1 - v.minChnkIdx))
        v.isPersist ∧ (v.minChnkIdx ≤ v.maxChnkIdx → v.maxChnkIdx < lmaIdx))
      (fun e t => LoopFailed s t u v e) := by
  rw [delLoop, ends_bind]
  refine (ends_delRounds hu _ _).imp (fun _ t ht => ?_) ?_
  · rw [ends_onlyIf]
    constructor
    · rintro ⟨hle, hlast⟩
      have hgone := ht.inside v.minChnkIdx (Nat.le_refl _) (by omega)
      refine (ends_delRounds_of_gone (ht.vctrs ▸ hu) hgone).imp (fun _ _ => False.elim) ?_
      rintro e t' ⟨hbye, hgone'⟩
      refine .of_first hbye hle (fun hall => ?_) (ht.freeable _ (Nat.le_refl _) (by omega)) hgone'
      have := (hall v.maxChnkIdx hle (Nat.le_refl _)).1
      omega
    · intro hno
      exact ⟨ht, fun hle => Nat.lt_of_not_le fun h => hno ⟨hle, h⟩⟩
  · rintro e t' ⟨k, t, hlo, hk, ht, hf⟩
    have hwhy : ¬ ∀ i, v.minChnkIdx ≤ i → i ≤ v.maxChnkIdx →
        i < lmaIdx ∧ FreeableAt s u i v.isPersist := by
      intro hall
      obtain ⟨hlt, hfree⟩ := hall k hlo (by omega)
      exact hf.why (ht.freeableAt_of hlt hfree)
    by_cases hfirst : k = v.minChnkIdx
    · have hst := ht.start hfirst
      rw [hst, hfirst] at hf
      exact ⟨hf.bye, by omega, hwhy, hf.change, hf.stuck⟩
    · exact .of_first hf.bye (by omega) hwhy (ht.freeable _ (Nat.le_refl _) (by omega))
        (hf.gone _ (ht.inside _ (Nat.le_refl _) (by omega)))

/-! ## the rest of the call -/

/-- The linear file goes with the vector. -/
def VctrVal.OwnsLma (v : VctrVal) : Prop := v.isLma = true ∧ v.isPersist = false

instance VctrVal.decidableOwnsLma : Decidable v.OwnsLma := inferInstanceAs (Decidable (_ ∧ _))

/-- Nobody reads or writes the linear file, if it is to go. -/
def VctrVal.LmaIdle (v : VctrVal) : Prop := v.OwnsLma → v.numReaders = 0 ∧ v.numWriters = 0

/-- The state without the linear file, if that is to go. -/
def St.lessLma (s : St) (u : Nat) (v : VctrVal) : St :=
  if v.OwnsLma then s.setFs (s.fs.unlink (lmaFile u)) else s

theorem St.lessLma_chnks : (s.lessLma u v).chnks = s.chnks := by
  rw [St.lessLma]
  split <;> rfl

/-- Only the chunks and the files matter. -/
theorem FreeableAt.congr (hch : t.chnks = s.chnks) (hfs : ∀ f, t.fs.read f = s.fs.read f) :
    FreeableAt t u i p ↔ FreeableAt s u i p := by
  constructor
  · rintro ⟨c, hc, hf⟩
    refine ⟨c, hch ▸ hc, hf.readers, hf.writers, hf.mem, fun hp he => ?_⟩
    obtain ⟨hsize, f, hname, hread⟩ := hf.file hp he
    exact ⟨hsize, f, hname, hfs f ▸ hread⟩
  · rintro ⟨c, hc, hf⟩
    refine ⟨c, hch ▸ hc, hf.readers, hf.writers, hf.mem, fun hp he => ?_⟩
    obtain ⟨hsize, f, hname, hread⟩ := hf.file hp he
    exact ⟨hsize, f, hname, (hfs f).symm ▸ hread⟩

theorem ends_delLma {w : VctrVal} (hw : s.vctrs u = some w) :
    Ends (delLma u v) s
      (fun _ t => (v.numReaders = 0 ∧ v.numWriters = 0) ∧ t.chnks = s.chnks ∧
        (∀ f, t.fs.read f = (s.fs.unlink (lmaFile u)).read f) ∧
        (∀ x, x ≠ u → t.vctrs x = s.vctrs x) ∧ ∃ w', t.vctrs u = some w' ∧ w'.isLma = false)
      (fun e t => e = .bye (-1) ∧ t = s ∧ ¬ (v.numReaders = 0 ∧ v.numWriters = 0)) := by
  simp only [delLma, ends_bind, ends_byeIf, ends_get]
  refine ⟨fun h => ⟨trivial, trivial, fun h' => h h'.1⟩, fun hr =>
    ⟨fun h => ⟨trivial, trivial, fun h' => h h'.2⟩, fun hwr => ?_⟩⟩
  have hidle : v.numReaders = 0 ∧ v.numWriters = 0 := ⟨not_not.mp hr, not_not.mp hwr⟩
  cases hread : s.fs.read (lmaFile u) with
  | none =>
      simp only
      rw [ends_modVctr_of hw]
      refine ⟨hidle, rfl, fun f => ?_, fun x hx => St.setVctr_of_ne hx, _, St.setVctr_self, rfl⟩
      by_cases hf : f = lmaFile u
      · rw [hf, Fs.read_unlink_self]
        exact hread
      · rw [(Fs.same_unlink hf).read]
        rfl
  | some bs =>
      simp only [ends_bind, ends_unlinkFile, hread, Option.some.injEq, forall_eq', reduceCtorEq,
        false_implies, true_and]
      have hset : ∀ n, ((s.setFs (s.fs.unlink (lmaFile u))).setDsk n).vctrs u = some w := fun _ => hw
      refine ends_ignore_decrDskUsed fun n => ?_
      rw [ends_modVctr_of (hset n)]
      exact ⟨hidle, rfl, fun _ => rfl, fun x hx => St.setVctr_of_ne hx, _, St.setVctr_self, rfl⟩

/-- Each chunk of the window is there and can go. -/
def Clear (s : St) (u : Nat) (v : VctrVal) : Prop :=
  v.numElements ≠ 0 → ∀ i, v.minChnkIdx ≤ i → i ≤ v.maxChnkIdx →
    i < lmaIdx ∧ FreeableAt (s.lessLma u v) u i v.isPersist

/-- What has happened once the entry of the vector is removed. -/
structure DelDone (s t : St) (u : Nat) (v : VctrVal) : Prop where
  idle : v.LmaIdle
  clear : Clear s u v
  vctr : t.vctrs u = none
  others : ∀ x, x ≠ u → t.vctrs x = s.vctrs x
  inside : v.numElements ≠ 0 → ∀ i, v.minChnkIdx ≤ i → i ≤ v.maxChnkIdx → t.chnks (u, i) = none
  outside : ∀ i, v.numElements = 0 ∨ i < v.minChnkIdx ∨ v.maxChnkIdx < i →
    t.chnks (u, i) = s.chnks (u, i)

/-- What has happened once something has failed. -/
structure DelFailed (s t : St) (u : Nat) (v : VctrVal) (e : Err) : Prop where
  bye : ∃ k, e = .bye k
  why : v.LmaIdle → ¬ Clear s u v
  busy : ¬ v.LmaIdle → t = s
  lma : v.OwnsLma → v.LmaIdle → ∃ w, t.vctrs u = some w ∧ w.isLma = false
  loop : ¬ v.OwnsLma → v.numElements ≠ 0 ∧ LoopFailed s t u v e

/-- What `vctr_del` does to a vector that has no links, or none any more. -/
theorem ends_delRest {w : VctrVal} (hw : s.vctrs u = some w) :
    Ends (do
        onlyIf (v.isLma ∧ v.isPersist = false) (delLma u v)
        onlyIf (v.numElements ≠ 0) (delLoop u v)
        modify (·.delVctr u)
        pure true : M Bool) s (fun r t => r = true ∧ DelDone s t u v)
      (fun e t => DelFailed s t u v e) := by
  have hfirst : Ends (onlyIf (v.isLma ∧ v.isPersist = false) (delLma u v)) s
      (fun _ t => v.LmaIdle ∧ t.chnks = s.chnks ∧ (∀ f, t.fs.read f = (s.lessLma u v).fs.read f) ∧
        (∀ x, x ≠ u → t.vctrs x = s.vctrs x) ∧ (∃ w', t.vctrs u = some w' ∧
          (v.OwnsLma → w'.isLma = false)) ∧ (¬ v.OwnsLma → t = s))
      (fun e t => DelFailed s t u v e) := by
    rw [ends_onlyIf]
    constructor
    · intro hown
      refine (ends_delLma hw).imp ?_ ?_
      · rintro - t ⟨hidle, hch, hfs, hoth, w', hw', hlma⟩
        refine ⟨fun _ => hidle, hch, fun f => ?_, hoth, ⟨w', hw', fun _ => hlma⟩, fun h =>
          absurd hown h⟩
        rw [hfs, St.lessLma, if_pos (show v.OwnsLma from hown), St.setFs_fs]
      · rintro e t ⟨rfl, rfl, hbusy⟩
        exact ⟨⟨-1, rfl⟩, fun h => absurd (h hown) hbusy, fun _ => rfl, fun _ h =>
          absurd (h hown) hbusy, fun h => absurd hown h⟩
    · intro hno
      refine ⟨fun h => absurd h hno, rfl, fun f => ?_, fun _ _ => rfl, ⟨w, hw, fun h => absurd h hno⟩,
        fun _ => rfl⟩
      rw [St.lessLma, if_neg (show ¬ v.OwnsLma from hno)]
  refine hfirst.bind fun _ s' h => ?_
  obtain ⟨hidle, hch, hfs, hoth, ⟨w', hw', hlma⟩, hsame⟩ := h
  have hfree : ∀ i, FreeableAt s' u i v.isPersist ↔ FreeableAt (s.lessLma u v) u i v.isPersist :=
    fun i => FreeableAt.congr (hch.trans St.lessLma_chnks.symm) hfs
  rw [ends_bind, ends_onlyIf]
  constructor
  · intro he
    refine Ends.imp ((ends_delLoop (by simp [hw'])).and (keeps_delLoop s')) ?_ ?_
    · rintro - t ⟨⟨hdel, hlast⟩, -⟩
      refine ⟨rfl, hidle, fun _ i hlo hhi => ⟨?_, ?_⟩, St.delVctr_self, fun x hx => ?_,
        fun _ i hlo hhi => ?_, fun i hi => ?_⟩
      · have := hlast (by omega)
        omega
      · exact (hfree i).mp (hdel.freeable i hlo (by omega))
      · rw [St.delVctr_of_ne hx, hdel.vctrs, hoth x hx]
      · exact hdel.inside i hlo (by omega)
      · have := hdel.outside i (by omega)
        rw [St.delVctr_chnks, this, hch]
    · rintro e t ⟨hfail, hv⟩
      refine ⟨hfail.bye, fun _ hclear => hfail.why fun i hlo hhi => ?_, fun h => absurd hidle h,
        fun hown _ => ⟨w', hv ▸ hw', hlma hown⟩, fun hno => ?_⟩
      · exact ⟨(hclear he i hlo hhi).1, (hfree i).mpr (hclear he i hlo hhi).2⟩
      · rw [hsame hno] at hfail
        exact ⟨he, hfail⟩
  · intro he
    refine ⟨rfl, hidle, fun h => absurd h he, St.delVctr_self, fun x hx => ?_, fun h => absurd h he,
      fun i _ => by rw [St.delVctr_chnks, hch]⟩
    rw [St.delVctr_of_ne hx, hoth x hx]

/-! ## all or nothing -/

/-- What is said to be as before: the vector, its chunks, its files, the links and
the counters. -/
structure Unchanged (s t : St) (u : Nat) : Prop where
  vctr : t.vctrs u = s.vctrs u
  chnk : ∀ i, SameChnk s t u i
  lma : t.fs.read (lmaFile u) = s.fs.read (lmaFile u)
  links : t.links = s.links
  memUsed : t.memUsed = s.memUsed
  dskUsed : t.dskUsed = s.dskUsed

theorem Unchanged.refl : Unchanged s s u := ⟨rfl, fun _ => ⟨rfl, fun _ _ => rfl⟩, rfl, rfl, rfl, rfl⟩

/-- Nothing is left of a vector. -/
structure Gone (t : St) (u : Nat) : Prop where
  vctr : t.vctrs u = none
  chnks : ∀ i, t.chnks (u, i) = none

/-- A chunk of the window is missing. -/
def Holed (s : St) (u : Nat) (v : VctrVal) : Prop :=
  v.numElements ≠ 0 ∧ ∃ i, v.minChnkIdx ≤ i ∧ i ≤ v.maxChnkIdx ∧ s.chnks (u, i) = none

/-- Nothing but a missing chunk can be in the way. -/
structure Passable (s : St) (u : Nat) (v : VctrVal) : Prop where
  idle : v.LmaIdle
  chnks : ∀ i, v.minChnkIdx ≤ i → i ≤ v.maxChnkIdx → s.chnks (u, i) ≠ none →
    FreeableAt (s.lessLma u v) u i v.isPersist

/-- `vctr_del` is all or nothing, and a vector in error can be deleted although
chunks of it are missing. -/
structure AllOrNothing (s : St) (u : Nat) : Prop where
  onError : ∀ r k t, vctrDel u r s = .error (.bye k) t → Unchanged s t u
  onSuccess : ∀ r t v, vctrDel u r s = .ok true t → s.vctrs u = some v → v.hasParent = false →
    Gone t u ∧ (v.hasNn = true → Gone t v.nnKey)
  inError : ∀ r v, s.vctrs u = some v → v.hasParent = false → v.isError = true → Holed s u v →
    Passable s u v → ∃ t, vctrDel u r s = .ok true t ∧ t.vctrs u = none

/-- The call fails before it changes anything, and not for a missing chunk of a
vector in error alone. -/
def Refused (s : St) (u : Nat) (v : VctrVal) : Prop :=
  ¬ v.LmaIdle ∨
    ¬ v.OwnsLma ∧ v.numElements ≠ 0 ∧ v.minChnkIdx ≤ v.maxChnkIdx ∧
      StuckAt s u v.minChnkIdx v.isPersist ∧ (v.isError = true → ¬ Passable s u v)

/-- The call does not fail, and there is no chunk that it does not come to. -/
structure Deletable (s : St) (u : Nat) (v : VctrVal) : Prop where
  idle : v.LmaIdle
  clear : Clear s u v
  outside : ∀ i, v.numElements = 0 ∨ i < v.minChnkIdx ∨ v.maxChnkIdx < i → s.chnks (u, i) = none

/-- A vector without a parent has no nn vector either, and can be deleted or is
refused at once. -/
def Clean (s : St) (u : Nat) : Prop :=
  ∀ v, s.vctrs u = some v → v.hasParent = false →
    u ≠ 0 ∧ v.hasNn = false ∧ (Refused s u v ∨ Deletable s u v)

variable {r : Bool} {e : Err}

theorem ends_vctrDel_alone (hu : u ≠ 0) (hv : s.vctrs u = some v) (hnn : v.hasNn = false)
    (hp : v.hasParent = false) :
    Ends (vctrDel u r) s (fun r' t => r' = true ∧ DelDone s t u v)
      (fun e t => DelFailed s t u v e) := by
  rw [vctrDel, if_neg hu, ends_bind, ends_get]
  simp only [hv]
  rw [ends_bind, breakNn, if_pos hnn, ends_pure, if_neg (by simp), if_neg (by simp [hp])]
  exact ends_delRest hv

/-- With an nn vector, the link is gone and the nn vector is not. -/
theorem ends_vctrDel_nn (h : Linked s) (hv : s.vctrs u = some v) (hnn : v.hasNn = true)
    (hp : v.hasParent = false) :
    Ends (vctrDel u r) s (fun r' t => r' = true ∧ t.vctrs v.nnKey ≠ none)
      (fun e t => (∃ k, e = .bye k) ∧ t.links ≠ s.links) := by
  obtain ⟨w, hw, hne, hbreak⟩ := breakNn_eq h hv hnn
  have hu : u ≠ 0 := (h.nn_found hv hnn).2.1
  have he := erased_unlink hv hnn hw hne
  have hnone : (s.unlink u v w).nnOf u = none := by rw [he.nnOf, update_self]
  have hpar : (s.unlink u v w).parentOf u = none := by
    rw [he.parentOf, update_of_ne hne]
    simp [St.parentOf, hv, VctrVal.parent, hp]
  have hentry : (s.unlink u v w).vctrs u = some { v with hasNn := false, nnKey := 0 } := by
    rw [St.unlink, St.setVctr_of_ne hne, St.setVctr_self]
  rw [vctrDel, if_neg hu, ends_bind, ends_get]
  simp only [hv]
  rw [ends_bind, Ends, hbreak]
  simp only [Bool.false_eq_true, if_false, hp]
  refine ((ends_delRest hentry).and (ends_delete_links hnone hpar)).imp ?_ ?_
  · rintro r' t ⟨⟨hr, hdone⟩, -⟩
    refine ⟨hr, ?_⟩
    rw [hdone.others _ (Ne.symm hne), St.unlink, St.setVctr_self]
    simp
  · rintro e t ⟨hfail, hlinks⟩
    refine ⟨hfail.bye, fun hsame => ?_⟩
    have hnow : t.nnOf u = none := (congrFun (congrArg Prod.fst hlinks) u).trans hnone
    have hthen : t.nnOf u = some v.nnKey := (congrFun (congrArg Prod.fst hsame) u).trans he.link
    rw [hnow] at hthen
    contradiction

/-- Where there is no vector, or one with a parent, the call does not fail. -/
theorem ends_vctrDel_parent (h : Linked s) (hp : ∀ v, s.vctrs u = some v → v.hasParent = true) :
    Ends (vctrDel u r) s (fun _ _ => True) (fun _ _ => False) := by
  rw [vctrDel]
  by_cases hu : u = 0
  · rw [if_pos hu]
    trivial
  · rw [if_neg hu, ends_bind, ends_get]
    cases hv : s.vctrs u with
    | none => trivial
    | some v =>
        simp only
        cases hnn : v.hasNn with
        | false =>
            rw [ends_bind, breakNn, if_pos hnn, ends_pure, if_neg (by simp), if_pos (hp v hv)]
            trivial
        | true =>
            obtain ⟨w, hw, hne, hbreak⟩ := breakNn_eq h hv hnn
            rw [ends_bind, Ends, hbreak]
            simp only [Bool.false_eq_true, if_false, hp v hv, if_true]
            trivial

/-- What fails although the vector is clean has changed nothing. -/
theorem DelFailed.unchanged (h : DelFailed s t u v e) (hc : Refused s u v ∨ Deletable s u v) :
    t = s := by
  rcases hc with (hbusy | ⟨hown, -, -, hstuck, -⟩) | hdel
  · exact h.busy hbusy
  · exact (h.loop hown).2.stuck hstuck
  · exact absurd hdel.clear (h.why hdel.idle)

/-- What succeeds although the vector is clean leaves nothing. -/
theorem DelDone.gone (h : DelDone s t u v) (hc : Refused s u v ∨ Deletable s u v) : Gone t u := by
  rcases hc with (hbusy | ⟨hown, he, hle, hstuck, -⟩) | hdel
  · exact absurd h.idle hbusy
  · obtain ⟨-, hfree⟩ := h.clear he _ (Nat.le_refl _) hle
    rw [St.lessLma, if_neg hown] at hfree
    exact absurd hfree hstuck.not_freeableAt
  · refine ⟨h.vctr, fun i => ?_⟩
    by_cases hi : v.numElements = 0 ∨ i < v.minChnkIdx ∨ v.maxChnkIdx < i
    · rw [h.outside i hi, hdel.outside i hi]
    · exact h.inside (by omega) i (by omega) (by omega)

/-- A clean vector in error has no hole that only the missing chunk makes one. -/
theorem Passable.not_holed (hx : v.isError = true) (hpass : Passable s u v)
    (hc : Refused s u v ∨ Deletable s u v) : ¬ Holed s u v := by
  rintro ⟨he, i, hlo, hhi, hi⟩
  rcases hc with (hbusy | ⟨-, -, -, -, hno⟩) | hdel
  · exact hbusy hpass.idle
  · exact hno hx hpass
  · obtain ⟨c, hc, -⟩ := (hdel.clear he i hlo hhi).2
    rw [St.lessLma_chnks, hi] at hc
    contradiction

theorem Clean.allOrNothing (h : Linked s) (hc : Clean s u) : AllOrNothing s u := by
  by_cases hp : ∀ v, s.vctrs u = some v → v.hasParent = true
  · constructor
    · intro r k t hr
      exact ((ends_vctrDel_parent h hp).of_error hr).elim
    · intro r t v _ hv hpar
      rw [hp v hv] at hpar
      contradiction
    · intro r v hv hpar
      rw [hp v hv] at hpar
      contradiction
  · obtain ⟨v, hv, hpar⟩ : ∃ v, s.vctrs u = some v ∧ v.hasParent = false := by
      by_contra hno
      exact hp fun v hv => by_contra fun hpar => hno ⟨v, hv, by simpa using hpar⟩
    obtain ⟨hu, hnn, hcase⟩ := hc v hv hpar
    constructor
    · intro r k t hr
      have hfail := (ends_vctrDel_alone hu hv hnn hpar).of_error hr
      rw [hfail.unchanged hcase]
      exact .refl
    · intro r t w hr hw _
      cases hv.symm.trans hw
      have hdone := ((ends_vctrDel_alone hu hv hnn hpar).of_ok hr).2
      exact ⟨hdone.gone hcase, fun hnn' => absurd hnn' (by simp [hnn])⟩
    · intro r w hw _ hx hhole hpass
      cases hv.symm.trans hw
      exact absurd hhole (hpass.not_holed hx hcase)

theorem AllOrNothing.clean (h : Linked s) (ha : AllOrNothing s u) : Clean s u := by
  intro v hv hp
  have hu : u ≠ 0 := by
    rintro rfl
    have hgone := (ha.onSuccess true s v rfl hv hp).1.vctr
    rw [hv] at hgone
    contradiction
  have hnn : v.hasNn = false := by
    by_contra hnn
    rw [Bool.not_eq_false] at hnn
    cases hr : vctrDel u true s with
    | ok r t =>
        obtain ⟨rfl, hleft⟩ := (ends_vctrDel_nn h hv hnn hp).of_ok hr
        exact hleft ((ha.onSuccess true t v hr hv hp).2 hnn).vctr
    | error e t =>
        obtain ⟨⟨k, rfl⟩, hlinks⟩ := (ends_vctrDel_nn h hv hnn hp).of_error hr
        exact hlinks (ha.onError true k t hr).links
  refine ⟨hu, hnn, ?_⟩
  cases hr : vctrDel u true s with
  | ok r t =>
      obtain ⟨rfl, hdone⟩ := (ends_vctrDel_alone hu hv hnn hp).of_ok hr
      have hgone := (ha.onSuccess true t v hr hv hp).1
      exact .inr ⟨hdone.idle, hdone.clear, fun i hi => (hdone.outside i hi).symm.trans (hgone.chnks i)⟩
  | error e t =>
      have hfail := (ends_vctrDel_alone hu hv hnn hp).of_error hr
      obtain ⟨k, rfl⟩ := hfail.bye
      have hsame := ha.onError true k t hr
      by_cases hidle : v.LmaIdle
      · have hown : ¬ v.OwnsLma := by
          intro hown
          obtain ⟨w, hw, hlma⟩ := hfail.lma hown hidle
          rw [hsame.vctr, hv] at hw
          cases hw
          rw [hown.1] at hlma
          contradiction
        obtain ⟨he, hloop⟩ := hfail.loop hown
        have hstuck := hloop.change (hsame.chnk _)
        refine .inl (.inr ⟨hown, he, hloop.entered, hstuck, fun hx hpass => ?_⟩)
        -- the first chunk is what is missing
        have hhole : Holed s u v := by
          refine ⟨he, v.minChnkIdx, Nat.le_refl _, hloop.entered, ?_⟩
          by_contra hsome
          have hfree := hpass.chnks _ (Nat.le_refl _) hloop.entered hsome
          rw [St.lessLma, if_neg hown] at hfree
          exact hstuck.not_freeableAt hfree
        obtain ⟨t', hok, -⟩ := ha.inError true v hv hp hx hhole hpass
        rw [hr] at hok
        contradiction
      · exact .inl (.inl hidle)

/-- **`vctr_del`** is all or nothing exactly for the vectors it deletes in full or
refuses at once. -/
theorem vctrDel_allOrNothing_iff {ls : List (Option VctrVal × Option VctrVal)}
    (h : LinkRun (fun _ _ => True) s ls) : AllOrNothing s u ↔ Clean s u :=
  ⟨AllOrNothing.clean h.linked, Clean.allOrNothing h.linked⟩

theorem links_of_statics (h : t.statics = s.statics) : t.links = s.links := by
  have hnn : ∀ s : St, s.nnOf = fun x => (s.statics x).bind VctrVal.nn := fun s => by
    funext x
    cases hv : s.vctrs x <;> simp [St.nnOf, St.statics, hv, VctrVal.nn, VctrVal.static]
  have hparent : ∀ s : St, s.parentOf = fun x => (s.statics x).bind VctrVal.parent := fun s => by
    funext x
    cases hv : s.vctrs x <;> simp [St.parentOf, St.statics, hv, VctrVal.parent, VctrVal.static]
  rw [St.links, St.links, hnn, hnn, hparent, hparent, h]

/-- A chunk that is in memory alone, and that nobody reads or writes. -/
theorem freeableAt_of_inMem (h : (s.chnks (u, i)).any (fun c => c.numReaders = 0 ∧
    c.numWriters = 0 ∧ 0 < c.size ∧ c.size ≤ 1024 * 1048576 ∧ c.l2Exists = false) = true) :
    FreeableAt s u i p := by
  obtain ⟨c, hc, hall⟩ := (Option.any_eq_true _ _).mp h
  obtain ⟨hreaders, hwriters, hpos, hsize, hfile⟩ := of_decide_eq_true hall
  exact ⟨c, hc, by simp [hreaders], by simp [hwriters], fun _ => ⟨hpos, hsize⟩,
    fun _ he => by simp [hfile] at he⟩

/-- A vector that has been filled can be deleted in full, as long as its chunks are in memory alone. -/
theorem Grown.deletable {a : AddArgs} {L : List (List UInt8)} (hg : Grown a s u v L)
    (hp : 0 < v.numElements) (hl : v.isLma = false) (hidx : v.maxChnkIdx < lmaIdx)
    (hmem : ∀ i ≤ v.maxChnkIdx, (s.chnks (u, i)).any (fun c => c.numReaders = 0 ∧
      c.numWriters = 0 ∧ 0 < c.size ∧ c.size ≤ 1024 * 1048576 ∧ c.l2Exists = false) = true) :
    Deletable s u v where
  idle h := by simp [VctrVal.OwnsLma, hl] at h
  clear _ i _ hi := by
    rw [St.lessLma, if_neg (by simp [VctrVal.OwnsLma, hl])]
    exact ⟨by omega, freeableAt_of_inMem (hmem i hi)⟩
  outside i hi := (hg.vec.held hp).1.outside i (by omega)

/-- Bytes in a vector that can be killed, at the second call. -/
def killableBytes : AddArgs := { plainArgs .I1 0 with isKillable := true, numKillIgnore := 1 }

/-- Two chunks of them. -/
def filled : St := final (vctrPutn 1 sixtyFive 65) (added killableBytes)

theorem filled_run : LinkRun (fun _ _ => True) filled [] := by
  have hadd : (LinkOp.add killableBytes).run .start = .ok () (added killableBytes) :=
    run_of_outcome_ok (by decide +kernel)
  exact (LinkRun.start.ok (o := .add killableBytes) trivial hadd).other
    (links_of_statics (Ends.final (keepsStatics_vctrPutnLoop 66 65 sixtyFive _)))

theorem filled_deletable : ∃ v, filled.vctrs 1 = some v ∧ v.numElements = 65 ∧ v.hasNn = false ∧
    v.hasParent = false ∧ v.isEov = false ∧ v.isKillable = true ∧ v.numKillIgnore = 1 ∧
    Deletable filled 1 v := by
  have h0 := run_added (a := killableBytes) (P := fun s v o => o.Fair v ∧ o.Safe s 1 v) (by decide)
  have h1 := h0.ok (o := .putn sixtyFive 65) rfl
    ⟨⟨by decide, show 0 + 65 ≤ lmaIdx * 64 by decide⟩, fun hm => absurd rfl hm⟩
    (run_of_outcome_ok (by decide +kernel))
  obtain ⟨v, hg⟩ := run_grown h1 (by decide) (by decide) fun s v o _ _ ho => ho
  have hnums := congrArg (Option.map fun v => (v.numElements, v.numKillIgnore, v.maxChnkIdx))
    hg.vec.found
  have hflags := congrArg (Option.map fun v => (v.hasNn, v.hasParent, v.isEov, v.isKillable,
    v.isLma)) hg.vec.found
  rw [show Option.map _ _ = some (65, 1, 1) by decide +kernel] at hnums
  rw [show Option.map _ _ = some (false, false, false, true, false) by decide +kernel] at hflags
  simp only [Option.map_some, Option.some.injEq, Prod.mk.injEq] at hnums hflags
  obtain ⟨hnum, hlives, hidx⟩ := hnums
  obtain ⟨hnn, hparent, heov, hk, hl⟩ := hflags
  refine ⟨v, hg.vec.found, hnum.symm, hnn.symm, hparent.symm, heov.symm, hk.symm, hlives.symm,
    hg.deletable (by omega) hl.symm (by rw [← hidx]; decide) ?_⟩
  rw [← hidx]
  decide +kernel

/-- They are deleted in full. -/
theorem vctrDel_allOrNothing_filled : AllOrNothing filled 1 := by
  refine (vctrDel_allOrNothing_iff filled_run).mpr fun v hv _ => ?_
  obtain ⟨w, hw, -, hnn, -, -, -, -, hdel⟩ := filled_deletable
  obtain rfl := Option.some.inj (hw.symm.trans hv)
  exact ⟨by decide, hnn, .inr hdel⟩

/-- Two chunks, the second of which is being read: the first is gone when the call
fails. -/
theorem allOrNothing_fails : ∃ s L, Run (fun _ _ _ => True) (plainArgs .I1 0) 1 s L ∧
    ¬ AllOrNothing s 1 := by
  have h0 := run_added (a := plainArgs .I1 0) (P := fun _ _ _ => True) (by decide)
  have h1 := h0.ok (o := .putn (List.replicate 65 7) 65) rfl trivial
    (run_of_outcome_ok (by decide +kernel))
  have h2 := h1.ok (o := .getChunk 1) rfl trivial (run_of_outcome_ok (by decide +kernel))
  refine ⟨_, _, h2, fun hall => ?_⟩
  have hsame := hall.onError false (-1) _ (run_of_outcome_error (by decide +kernel))
  exact absurd (hsame.chnk 0).chnk (by decide +kernel)

end QStore.Vctr
