import QStore.Vctr.AllOrNothing

/-!
# QStore.Vctr.Kill

Runs of `vctr_kill` on a vector (`vctr_kill.c`).

A kill takes one of the lives the vector has, and deletes a vector that has none
left. What it reports then is that `vctr_del` has found the vector, which it says
also of one that it leaves alone or cannot delete. So the report is right exactly
where `vctr_del` deletes the vector in full.
-/

namespace QStore.Vctr

open Function

/-- What `*ptr_kill_success` is set to, if to anything. Where the call fails on a
vector that is there, `vctr_del` has found it; its status is not looked at. -/
def killSuccess (u : Nat) (s : St) : Option Bool :=
  match s.vctrs u with
  | none => none
  | some _ =>
    match vctrKill u s with
    | .ok r _ => r
    | .error _ _ => some true

/-- The state after `n` calls, whatever their status. -/
def afterKills (u n : Nat) (s : St) : St := (final (vctrKill u))^[n] s

/-- A vector with another number of lives. -/
def VctrVal.withLives (v : VctrVal) (n : Nat) : VctrVal := { v with numKillIgnore := n }

/-- The first calls take one life each and nothing else; the next takes the vector,
its nn vector and their chunks, and says so; no call says so unless the vector is
gone. -/
structure KillsOnce (s : St) (u : Nat) (v : VctrVal) : Prop where
  lives : ∀ j, j < v.numKillIgnore → vctrKill u (afterKills u j s) =
    .ok (some false) (s.setVctr u (v.withLives (v.numKillIgnore - (j + 1))))
  dies : ∃ t, vctrKill u (afterKills u v.numKillIgnore s) = .ok (some true) t ∧ Gone t u ∧
    (v.hasNn = true → Gone t v.nnKey)
  reports : ∀ j, (afterKills u j s).vctrs u ≠ none →
    (killSuccess u (afterKills u j s) = some true ↔ (afterKills u (j + 1) s).vctrs u = none)

variable {s t : St} {u n j : Nat} {v w : VctrVal}

theorem afterKills_succ : afterKills u (n + 1) s = final (vctrKill u) (afterKills u n s) :=
  iterate_succ_apply' _ n s

theorem St.setVctr_eq_self (hv : s.vctrs u = some v) : s.setVctr u v = s := by
  rw [St.setVctr, ← hv, update_eq_self]

/-! ## one call -/

theorem vctrKill_life (hv : s.vctrs u = some v) (hk : v.isKillable = true) (he : v.isEov = false)
    (hpos : 0 < v.numKillIgnore) :
    vctrKill u s = .ok (some false) (s.setVctr u (v.withLives (v.numKillIgnore - 1))) := by
  have h : Ends (vctrKill u) s (fun r t => r = some false ∧
      t = s.setVctr u (v.withLives (v.numKillIgnore - 1))) fun _ _ => False := by
    rw [vctrKill, ends_bind, ends_getVctr_of hv, if_neg (by simp [hk]), if_neg (by simp [he]),
      if_pos hpos, ends_bind, ends_modVctr_of hv]
    exact ⟨rfl, rfl⟩
  obtain ⟨r, t, hr, rfl, rfl⟩ := h.returns
  exact hr

theorem vctrKill_eov (hv : s.vctrs u = some v) (he : v.isEov = true) :
    vctrKill u s = .ok none s := by
  have h : Ends (vctrKill u) s (fun r t => r = none ∧ t = s) fun _ _ => False := by
    rw [vctrKill, ends_bind, ends_getVctr_of hv]
    by_cases hk : v.isKillable = false
    · rw [if_pos hk]
      exact ⟨rfl, rfl⟩
    · rw [if_neg hk, if_pos he]
      exact ⟨rfl, rfl⟩
  obtain ⟨r, t, hr, rfl, rfl⟩ := h.returns
  exact hr

/-- Without a life left, the call is one of `vctr_del`. -/
theorem ends_vctrKill_last {Q : Option Bool → St → Prop} {E : Err → St → Prop}
    (hv : s.vctrs u = some v) (hk : v.isKillable = true) (he : v.isEov = false)
    (h0 : v.numKillIgnore = 0) :
    Ends (vctrKill u) s Q E ↔ Ends (vctrDel u true) s
      (fun r t => (r = false → E (.bye (-1)) t) ∧ (r = true → Q (some true) t)) E := by
  rw [vctrKill, ends_bind, ends_getVctr_of hv, if_neg (by simp [hk]), if_neg (by simp [he]),
    if_neg (by omega), ends_bind]
  simp only [ends_bind, ends_byeIf, ends_pure, Bool.not_eq_false]

theorem vctrDel_of_vctrKill {r : Option Bool} (hv : s.vctrs u = some v)
    (hk : v.isKillable = true) (he : v.isEov = false) (h0 : v.numKillIgnore = 0)
    (hr : vctrKill u s = .ok r t) : ∃ b, vctrDel u true s = .ok b t := by
  have h : Ends (vctrKill u) s (fun _ t => ∃ b, vctrDel u true s = .ok b t) fun _ _ => True := by
    rw [ends_vctrKill_last hv hk he h0]
    exact Ends.intro (fun b t hb => ⟨fun _ => trivial, fun _ => ⟨b, hb⟩⟩) fun _ _ _ => trivial
  exact h.of_ok hr

theorem vctrKill_gone (hv : s.vctrs u = none) : final (vctrKill u) s = s := by
  have h : vctrKill u s = .error (.bye (-1)) s := by
    refine Ends.throws ?_
    rw [vctrKill, ends_bind, ends_getVctr]
    refine ⟨fun _ => ⟨rfl, rfl⟩, fun v hv' => ?_⟩
    rw [hv] at hv'
    contradiction
  rw [final, h]

/-! ## runs -/

/-- As long as there are lives, each call takes one. -/
theorem afterKills_lives (hv : s.vctrs u = some v) (hk : v.isKillable = true)
    (he : v.isEov = false) (hj : j ≤ v.numKillIgnore) :
    afterKills u j s = s.setVctr u (v.withLives (v.numKillIgnore - j)) := by
  induction j with
  | zero => exact (St.setVctr_eq_self hv).symm
  | succ j ih =>
      have hlife := vctrKill_life (s := s.setVctr u (v.withLives (v.numKillIgnore - j)))
        St.setVctr_self hk he (show 0 < v.numKillIgnore - j by omega)
      rw [afterKills_succ, ih (by omega), final, hlife]
      simp only [St.setVctr, VctrVal.withLives, update_idem, Nat.sub_sub]

theorem afterKills_gone (hn : (afterKills u n s).vctrs u = none) (hj : n ≤ j) :
    (afterKills u j s).vctrs u = none := by
  induction j, hj using Nat.le_induction with
  | base => exact hn
  | succ j _ ih => rw [afterKills_succ, vctrKill_gone ih, ih]

/-- The number of lives does not matter to `vctr_del`. -/
theorem deletable_withLives :
    Deletable (s.setVctr u w) u (v.withLives n) ↔ Deletable s u v := by
  have hfs : ∀ f, ((s.setVctr u w).lessLma u v).fs.read f = (s.lessLma u v).fs.read f := by
    intro f
    rw [St.lessLma, St.lessLma]
    split <;> rfl
  have hch : ((s.setVctr u w).lessLma u v).chnks = (s.lessLma u v).chnks := by
    rw [St.lessLma_chnks, St.lessLma_chnks, St.setVctr_chnks]
  have hfree := fun i => FreeableAt.congr (u := u) (i := i) (p := v.isPersist) hch hfs
  constructor
  · intro h
    exact ⟨h.idle, fun he i hlo hhi => ⟨(h.clear he i hlo hhi).1,
      (hfree i).mp (h.clear he i hlo hhi).2⟩, h.outside⟩
  · intro h
    exact ⟨h.idle, fun he i hlo hhi => ⟨(h.clear he i hlo hhi).1,
      (hfree i).mpr (h.clear he i hlo hhi).2⟩, h.outside⟩

/-- `vctr_kill` goes on to `vctr_del`, and that deletes the vector in full. -/
structure Mortal (s : St) (u : Nat) (v : VctrVal) : Prop where
  eov : v.isEov = false
  uqid : u ≠ 0
  parent : v.hasParent = false
  nn : v.hasNn = false
  deletable : Deletable s u v

/-- `vctr_del` does not fail where it has nothing to leave. -/
theorem Deletable.ends_vctrDel (h : Deletable s u v) (hu : u ≠ 0) (hv : s.vctrs u = some v)
    (hnn : v.hasNn = false) (hp : v.hasParent = false) (b : Bool) :
    Ends (vctrDel u b) s (fun r t => r = true ∧ Gone t u) fun _ _ => False := by
  refine (ends_vctrDel_alone hu hv hnn hp).imp ?_ fun e t hfail => hfail.why h.idle h.clear
  rintro r t ⟨hr, hdone⟩
  exact ⟨hr, hdone.gone (.inr h)⟩

/-- What `vctr_del` deletes in full it can delete in full. -/
theorem deletable_of_gone (hu : u ≠ 0) (hv : s.vctrs u = some v) (hnn : v.hasNn = false)
    (hp : v.hasParent = false) {b r : Bool} (hr : vctrDel u b s = .ok r t) (hgone : Gone t u) :
    Deletable s u v := by
  obtain ⟨-, hdone⟩ := (ends_vctrDel_alone hu hv hnn hp).of_ok hr
  exact ⟨hdone.idle, hdone.clear, fun i hi => (hdone.outside i hi).symm.trans (hgone.chnks i)⟩

/-- A vector with a parent is left where it is. -/
theorem ends_vctrDel_left (h : Linked s) (hv : s.vctrs u = some v) (hp : v.hasParent = true)
    (hu : u ≠ 0) (b : Bool) :
    Ends (vctrDel u b) s (fun _ t => t.vctrs u ≠ none) fun _ _ => True := by
  rw [vctrDel, if_neg hu, ends_bind, ends_get]
  simp only [hv]
  cases hnn : v.hasNn with
  | false =>
      rw [ends_bind, breakNn, if_pos hnn, ends_pure, if_neg (by simp), if_pos hp, ends_pure, hv]
      simp
  | true =>
      obtain ⟨w, hw, hne, hbreak⟩ := breakNn_eq h hv hnn
      have hentry : (s.unlink u v w).vctrs u = some { v with hasNn := false, nnKey := 0 } := by
        rw [St.unlink, St.setVctr_of_ne hne, St.setVctr_self]
      rw [ends_bind, Ends, hbreak]
      simp only [Bool.false_eq_true, if_false, hp, if_true, ends_pure, hentry]
      simp

theorem Mortal.killsOnce (h : Mortal s u v) (hv : s.vctrs u = some v)
    (hk : v.isKillable = true) : KillsOnce s u v := by
  have hlast := afterKills_lives hv hk h.eov (Nat.le_refl _)
  rw [Nat.sub_self] at hlast
  have hdel := (deletable_withLives (w := v.withLives 0) (n := 0)).mpr h.deletable
  have hend : Ends (vctrKill u) (afterKills u v.numKillIgnore s)
      (fun r t => r = some true ∧ Gone t u) fun _ _ => False := by
    have hv' : (s.setVctr u (v.withLives 0)).vctrs u = some (v.withLives 0) := St.setVctr_self
    rw [hlast, ends_vctrKill_last hv' hk h.eov rfl]
    refine (hdel.ends_vctrDel h.uqid hv' h.nn h.parent true).imp ?_ fun _ _ => id
    rintro r t ⟨rfl, hgone⟩
    exact ⟨nofun, fun _ => ⟨rfl, hgone⟩⟩
  obtain ⟨r, t, hr, rfl, hgone⟩ := hend.returns
  have hafter : (afterKills u (v.numKillIgnore + 1) s).vctrs u = none := by
    rw [afterKills_succ, final, hr]
    exact hgone.vctr
  have hlives : ∀ j, j < v.numKillIgnore → vctrKill u (afterKills u j s) =
      .ok (some false) (s.setVctr u (v.withLives (v.numKillIgnore - (j + 1)))) := by
    intro j hj
    rw [afterKills_lives hv hk h.eov (by omega)]
    have hlife := vctrKill_life (s := s.setVctr u (v.withLives (v.numKillIgnore - j)))
      St.setVctr_self hk h.eov (show 0 < v.numKillIgnore - j by omega)
    rw [hlife]
    simp only [St.setVctr, VctrVal.withLives, update_idem, Nat.sub_sub]
  refine ⟨hlives, ⟨t, hr, hgone, fun hnn => ?_⟩, fun j hthere => ?_⟩
  · rw [h.nn] at hnn
    contradiction
  · obtain ⟨x, hx⟩ := Option.ne_none_iff_exists'.mp hthere
    rcases Nat.lt_trichotomy j v.numKillIgnore with hj | rfl | hj
    · rw [killSuccess, hx, hlives j hj, afterKills_lives hv hk h.eov (by omega)]
      simp
    · rw [killSuccess, hx, hr]
      simp [hafter]
    · exact absurd (afterKills_gone hafter hj) hthere

theorem KillsOnce.mortal (h : KillsOnce s u v) (hl : Linked s) (hv : s.vctrs u = some v)
    (hk : v.isKillable = true) : Mortal s u v := by
  obtain ⟨t, hdies, hgone, hgonenn⟩ := h.dies
  have heov : v.isEov = false := by
    by_contra he
    rw [Bool.not_eq_false] at he
    have hsame : ∀ n, afterKills u n s = s := by
      intro n
      induction n with
      | zero => rfl
      | succ n ih => rw [afterKills_succ, ih, final, vctrKill_eov hv he]
    rw [hsame, vctrKill_eov hv he] at hdies
    cases hdies
  have hlast := afterKills_lives hv hk heov (Nat.le_refl _)
  rw [Nat.sub_self] at hlast
  rw [hlast] at hdies
  have hv' : (s.setVctr u (v.withLives 0)).vctrs u = some (v.withLives 0) := St.setVctr_self
  obtain ⟨r, hr⟩ := vctrDel_of_vctrKill hv' hk heov rfl hdies
  have hl' : Linked (s.setVctr u (v.withLives 0)) :=
    closed_linked.of_links hl (links_setVctr (by rw [hv]; rfl) (by rw [hv]; rfl))
  have hu : u ≠ 0 := by
    rintro rfl
    have hsame : t = s.setVctr 0 (v.withLives 0) := by
      cases hr
      rfl
    rw [hsame] at hgone
    exact absurd hgone.vctr (by simp)
  have hp : v.hasParent = false := by
    by_contra hp
    rw [Bool.not_eq_false] at hp
    exact (ends_vctrDel_left hl' hv' hp hu true).of_ok hr hgone.vctr
  have hnn : v.hasNn = false := by
    by_contra hnn
    rw [Bool.not_eq_false] at hnn
    exact ((ends_vctrDel_nn hl' hv' hnn hp).of_ok hr).2 (hgonenn hnn).vctr
  exact ⟨heov, hu, hp, hnn, deletable_withLives.mp (deletable_of_gone hu hv' hnn hp hr hgone)⟩

/-- **`vctr_kill`** takes the lives and then the vector exactly where the vector is
not eov, has neither a parent nor an nn vector, and can be deleted in full. -/
theorem killsOnce_iff {ls : List (Option VctrVal × Option VctrVal)}
    (h : LinkRun (fun _ _ => True) s ls) (hv : s.vctrs u = some v)
    (hk : v.isKillable = true) : KillsOnce s u v ↔ Mortal s u v :=
  ⟨fun hkills => hkills.mortal h.linked hv hk, fun hmortal => hmortal.killsOnce hv hk⟩

/-- A vector of marks that can be killed is made. -/
def addKillable (lives : Int) : LinkOp :=
  .add { plainArgs .BL 0 with isKillable := true, numKillIgnore := lives }

/-- Two chunks of bytes and one life. -/
theorem killsOnce_filled : ∃ v, filled.vctrs 1 = some v ∧ v.numElements = 65 ∧
    v.numKillIgnore = 1 ∧ KillsOnce filled 1 v := by
  obtain ⟨v, hv, hnum, hnn, hparent, heov, hk, hlives, hdel⟩ := filled_deletable
  exact ⟨v, hv, hnum, hlives, (killsOnce_iff filled_run hv hk).mpr
    ⟨heov, by decide, hparent, hnn, hdel⟩⟩

/-- Two vectors that can be killed, the second of which is the nn vector of the
first. -/
def killablePair : St :=
  final (LinkOp.setNn 1 2).run (final (addKillable 0).run (final (addKillable 0).run .start))

/-- The nn vector outlives a kill that is said to have succeeded, and outlives its
parent. -/
theorem killsOnce_fails : ∃ ls v w, LinkRun (fun _ _ => True) killablePair ls ∧
    killablePair.vctrs 1 = some v ∧ v.isKillable = true ∧ ¬ KillsOnce killablePair 1 v ∧
    killablePair.vctrs 2 = some w ∧ w.isKillable = true ∧ ¬ KillsOnce killablePair 2 w := by
  have h1 : LinkRun (fun _ _ => True) _ _ := LinkRun.start.ok (o := addKillable 0) trivial
    (run_of_outcome_ok (by decide +kernel))
  have h2 := h1.ok (o := addKillable 0) trivial (run_of_outcome_ok (by decide +kernel))
  have h3 := h2.ok (o := .setNn 1 2) trivial (run_of_outcome_ok (by decide +kernel))
  refine ⟨_, _, _, h3, rfl, rfl, fun hkills => ?_, rfl, rfl, fun hkills => ?_⟩
  · have hnn := (hkills.mortal h3.linked rfl rfl).nn
    contradiction
  · have hp := (hkills.mortal h3.linked rfl rfl).parent
    contradiction

end QStore.Vctr
