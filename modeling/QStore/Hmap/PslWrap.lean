import QStore.Hmap.NewSize
import QStore.Hmap.Spread

/-!
# QStore.Hmap.PslWrap

Runs of puts and deletes that succeed, and whether the probe lengths they store are distances.

A call may rebuild the table, under another size and hash key, before or after it changes the
keys. `putTarget` and `delTarget` are the tables it then works on, as far as the homes of keys go.
-/

namespace QStore.Hmap

open QStore.Ring QStore.RobinHood Function

variable {K V : Type} [Zero K] [Zero V]

/-- A call on a map, with the hash key that a resize in it would draw. -/
inductive Call (K V : Type)
  | put (hashkey : UInt64) (k : K) (v : V)
  | del (hashkey : UInt64) (k : K)

/-- A call leads on where it succeeds. -/
def Call.step (F : FnPtrs K V) : Call K V → RsHmap K V → Option (RsHmap K V)
  | .put hashkey k v, h =>
      (rsHmapPut F hashkey h k v).bind fun r => if 0 ≤ r.1 then some r.2 else none
  | .del hashkey k, h =>
      (rsHmapDel F hashkey h k).bind fun r => if 0 ≤ r.status then some r.hmap else none

/-- Size and hash key of the table that a put inserts into. -/
def putTarget (hashkey : UInt64) (h : RsHmap K V) : RsHmap K V :=
  if h.nitems > highThreshold h.size then
    match calcNewSize h.nitems h.config.maxSize h.size with
    | some c => blank c.newsize hashkey h.config h.pslWrapped
    | none => h
  else h

/-- Size and hash key of the table that a deletion of a key leaves. -/
def delTarget (hashkey : UInt64) (h : RsHmap K V) : RsHmap K V :=
  if h.nitems - 1 > h.config.minSize ∧ h.nitems - 1 < lowThreshold h.size then
    blank (shrinkSize (h.nitems - 1) h.config.minSize) hashkey h.config h.pslWrapped
  else h

/-- After the call no run of `len` buckets is the home of `len + 2^16` keys of the map or more. -/
def Call.Spreads (F : FnPtrs K V) : Call K V → RsHmap K V → Prop
  | .put hashkey k _, h =>
      ¬ Crowded (putTarget hashkey h).size ((putTarget hashkey h).home F)
        (fun x => x = k ∨ h.Has x) (2 ^ 16)
  | .del hashkey k, h => h.Has k →
      ¬ Crowded (delTarget hashkey h).size ((delTarget hashkey h).home F)
        (fun x => x ≠ k ∧ h.Has x) (2 ^ 16)

/-- No probe length has left its 16 bits, and each is the distance of its bucket from the home of
its key. -/
structure PslRight (F : FnPtrs K V) (h : RsHmap K V) : Prop where
  noWrap : h.pslWrapped = false
  bits : ∀ p, p < h.size → h.bktFull p = true → (h.bkts p).psl < 2 ^ 16
  distance : ∀ p, p < h.size → h.bktFull p = true →
    (h.bkts p).psl < h.size ∧ (h.home F (h.bkts p).key + (h.bkts p).psl) % h.size = p

variable {F : FnPtrs K V} {h g t : RsHmap K V} {m : K → Option V} {hashkey : UInt64} {k : K} {v : V}
  {newsize : Nat}

/-! ## probe lengths and crowds -/

theorem WellFormed.psl_lt (hwf : WellFormed F h) (hl : Loaded h) (hs : Spread F h) {p : Nat}
    {e : Bkt K V} (hp : p < h.size) (he : h.view p = some e) : e.psl < 2 ^ 16 := by
  have hpsl := hwf.inv.psl_lt p e hp he
  by_cases hsmall : h.size ≤ 2 ^ 16
  · omega
  · have hlt := hwf.size_lt
    rw [Loaded, highThreshold_eq (by omega)] at hl
    exact hwf.psl_lt_of_spread hs (by omega) hp he

/-- In a well-formed table the probe lengths are right exactly where its keys are spread. -/
theorem WellFormed.pslRight_iff (hwf : WellFormed F h) (hl : Loaded h)
    (hw : h.pslWrapped = false) : PslRight F h ↔ Spread F h := by
  constructor
  · intro hp
    refine hwf.inv.not_crowded (by norm_num) fun p e hps he => ?_
    obtain ⟨hfull, rfl⟩ := RsHmap.view_eq_some.mp he
    exact hp.bits p hps hfull
  · intro hs
    refine ⟨hw, fun p hp hfull => ?_, fun p hp hfull => ?_⟩
    · exact hwf.psl_lt hl hs hp (RsHmap.view_of_full hfull)
    · exact ⟨hwf.inv.psl_lt p _ hp (RsHmap.view_of_full hfull),
        hwf.inv.loc p _ hp (RsHmap.view_of_full hfull)⟩

omit [Zero K] [Zero V] in
/-- A table with the homes of `t` is spread where its keys do not crowd `t`. -/
theorem spread_iff {keys : K → Prop} (hsize : g.size = t.size) (hhome : g.home F = t.home F)
    (hkeys : ∀ x, g.Has x ↔ keys x) :
    Spread F g ↔ ¬ Crowded t.size (t.home F) keys (2 ^ 16) := by
  rw [Spread, hsize, hhome, funext fun x => propext (hkeys x)]

/-! ## a resize -/

/-- A resize that succeeds leaves a table of the new size and hash key. -/
theorem rsHmapResize_frame (h0 : 0 ≤ (rsHmapResize F hashkey h newsize).1) :
    SameFrame (blank newsize hashkey h.config h.pslWrapped)
      (rsHmapResize F hashkey h newsize).2 := by
  simp only [rsHmapResize] at h0 ⊢
  split at h0
  · exact absurd h0 (by simp)
  · next hsize =>
    rw [if_neg hsize]
    split at h0
    · exact absurd h0 (by simp)
    · next hthr =>
      rw [if_neg hthr]
      have hblank : Counted (blank (K := K) (V := V) newsize hashkey h.config h.pslWrapped) :=
        counted_blank (by omega) (by unfold uintMax at hsize; omega) _ _ _
      split
      · exact (reinsert_counted hblank).2
      · split <;> exact (reinsert_counted hblank).2

/-! ## a put -/

/-- What the start of a put does where it does not refuse. -/
inductive Grew (F : FnPtrs K V) (hashkey : UInt64) (h : RsHmap K V) : Int × RsHmap K V → Prop
  | same (hle : ¬ h.nitems > highThreshold h.size) : Grew F hashkey h (0, h)
  | resized (hgt : h.nitems > highThreshold h.size) (c : NewSize)
      (hc : calcNewSize h.nitems h.config.maxSize h.size = some c) (hst : c.status = 0) :
      Grew F hashkey h (rsHmapResize F hashkey h c.newsize)

theorem growIfFull_grew {r : Int × RsHmap K V} (hr : growIfFull F hashkey h = some r)
    (h0 : 0 ≤ r.1) : Grew F hashkey h r := by
  rw [growIfFull] at hr
  split at hr
  · next hgt =>
    rw [Option.map_eq_some_iff] at hr
    obtain ⟨c, hc, hcr⟩ := hr
    rw [if_pos (calcNewSize_resize hgt hc)] at hcr
    by_cases hst : c.status < 0
    · rw [if_pos hst] at hcr
      rw [← hcr] at h0
      exact absurd h0 (not_le.mpr hst)
    · rw [if_neg hst] at hcr
      rw [← hcr]
      exact .resized hgt c hc (calcNewSize_status hc (not_lt.mp hst))
  · next hle =>
    rw [← Option.some.inj hr]
    exact .same hle

/-- The table it leaves has the size and homes of `putTarget`. -/
theorem Grew.target {r : Int × RsHmap K V} (hg : Grew F hashkey h r) (h0 : 0 ≤ r.1) :
    r.2.size = (putTarget hashkey h).size ∧ r.2.home F = (putTarget hashkey h).home F := by
  rw [putTarget]
  cases hg with
  | same hle =>
      rw [if_neg hle]
      exact ⟨rfl, rfl⟩
  | resized hgt c hc hst =>
      rw [if_pos hgt, hc]
      have hframe := rsHmapResize_frame h0
      exact ⟨hframe.size, hframe.home⟩

/-- Growing wraps nothing where the keys do not crowd the new table. -/
theorem Grew.notWrapped {r : Int × RsHmap K V} (hg : Grew F hashkey h r) (hwf : WellFormed F h)
    (hl : Loaded h) (hw : h.pslWrapped = false)
    (hkeys : ¬ Crowded (putTarget hashkey h).size ((putTarget hashkey h).home F) h.Has (2 ^ 16)) :
    r.2.pslWrapped = false := by
  cases hg with
  | same _ => exact hw
  | resized hgt c hc hst =>
      have hlt := hwf.size_lt
      have hcond : 20 * h.nitems ≤ 17 * (h.size + maxGrowthStep) := by
        rw [Loaded, highThreshold_eq (by omega)] at hl
        unfold maxGrowthStep
        omega
      obtain ⟨c', hc', henough⟩ :=
        (calcNewSize_enough_iff h.config.maxSize hwf.nitems_le hlt).mpr hcond
      obtain rfl : c = c' := Option.some.inj (hc.symm.trans hc')
      have hroom := (henough hst (calcNewSize_resize hgt hc)).free
      rw [putTarget, if_pos hgt, hc] at hkeys
      exact rsHmapResize_notWrapped hwf.keyed hw hroom.le hkeys

/-- A put that succeeds goes on with a table that has grown, and inserts into it. -/
theorem rsHmapPut_grew {r : Int × RsHmap K V} (hp : rsHmapPut F hashkey h k v = some r)
    (h0 : 0 ≤ r.1) : ∃ g, growIfFull F hashkey h = some g ∧ 0 ≤ g.1 ∧ Grew F hashkey h g ∧
      r = rsHmapInsert F g.2 k v := by
  rw [rsHmapPut, Option.map_eq_some_iff] at hp
  obtain ⟨g, hg, hgr⟩ := hp
  by_cases hneg : g.1 < 0
  · rw [if_pos hneg] at hgr
    rw [← hgr] at h0
    omega
  · rw [if_neg hneg] at hgr
    exact ⟨g, hg, not_lt.mp hneg, growIfFull_grew hg (not_lt.mp hneg), hgr.symm⟩

/-- **A put wraps nothing** where its key and those of the table do not crowd the table it
inserts into. -/
theorem rsHmapPut_notWrapped {r : Int × RsHmap K V} (hwf : WellFormed F h) (hl : Loaded h)
    (hw : h.pslWrapped = false) (hp : rsHmapPut F hashkey h k v = some r) (h0 : 0 ≤ r.1)
    (hs : (Call.put hashkey k v).Spreads F h) : r.2.pslWrapped = false := by
  obtain ⟨g, hg, hg0, hgrew, rfl⟩ := rsHmapPut_grew hp h0
  have hgw : g.2.pslWrapped = false :=
    hgrew.notWrapped hwf hl hw fun hcr => hs (hcr.mono (fun x hx => .inr hx) le_rfl)
  obtain ⟨hsize, hhome⟩ := hgrew.target hg0
  cases growIfFull_spec hwf hg hgw with
  | refused st hst => exact absurd hg0 (not_le.mpr hst)
  | grown t ht _ hn hload hh =>
      have hlt := ht.size_lt
      have hpos := ht.size_pos
      rw [highThreshold_eq (by omega)] at hload
      refine (rsHmapInsert_notWrapped ht (by omega) ?_).trans hgw
      rw [hsize, hhome]
      intro hcr
      refine hs (hcr.mono (fun x hx => ?_) le_rfl)
      rcases hx with rfl | ⟨w, hw⟩
      · exact .inl rfl
      · exact .inr ⟨w, (hh x w).mp hw⟩

/-- After a put that wraps nothing, probe lengths are right exactly where the keys are spread. -/
theorem rsHmapPut_pslRight_iff [DecidableEq K] {r : Int × RsHmap K V} (hwf : WellFormed F h)
    (hl : Loaded h) (hrep : Rep h m) (hp : rsHmapPut F hashkey h k v = some r) (h0 : 0 ≤ r.1)
    (hw : r.2.pslWrapped = false) :
    PslRight F r.2 ↔ (Call.put hashkey k v).Spreads F h := by
  obtain ⟨hwf', hl', hrep'⟩ := rsHmapPut_spec hwf hl hrep hp hw
  obtain ⟨hno, -⟩ := rsHmapPut_status hwf hrep hp hw h0
  rw [hwf'.pslRight_iff hl' hw]
  obtain ⟨g, hg, hg0, hgrew, rfl⟩ := rsHmapPut_grew hp h0
  obtain ⟨hsize, hhome⟩ := hgrew.target hg0
  -- the insertion keeps the frame of the table that has grown
  have hgw := insertLoop_pslWrapped hw
  cases growIfFull_spec hwf hg hgw with
  | refused st hst => exact absurd hg0 (not_le.mpr hst)
  | grown t ht _ hn hload hh =>
      have hframe := (rsHmapInsert_counted (F := F) (k := k) (v := v)
        ⟨ht.size_pos, ht.size_lt, ht.divinfo_eq, ht.nitems_eq⟩).2
      refine spread_iff (hframe.size.trans hsize) (hframe.home.trans hhome) fun x => ?_
      rw [if_neg (by simp [hno])] at hrep'
      constructor
      · rintro ⟨w, hx⟩
        rw [← hrep' x w, insertOrUpdate] at hx
        by_cases hxk : x = k
        · exact .inl hxk
        · rw [update_of_ne hxk] at hx
          exact .inr ⟨w, (hrep x w).mp hx⟩
      · rintro (rfl | ⟨w, hx⟩)
        · exact ⟨_, (hrep' x _).mp (update_self ..)⟩
        · by_cases hxk : x = k
          · subst hxk
            exact ⟨_, (hrep' x _).mp (update_self ..)⟩
          · refine ⟨w, (hrep' x w).mp ?_⟩
            rw [insertOrUpdate, update_of_ne hxk]
            exact (hrep x w).mpr hx

/-! ## a deletion -/

/-- What a deletion does: it finds nothing, or it closes the hole of the key and then shrinks a
table that has become too empty. -/
inductive Removes (F : FnPtrs K V) (hashkey : UInt64) (h : RsHmap K V) (k : K) :
    DelResult K V → Prop
  | absent (st : Int) (hk : ¬ h.Has k) : Removes F hashkey h k ⟨st, false, 0, h⟩
  | found (v : V) (g : RsHmap K V) (hk : h.Has k) (hg : WellFormed F g) (hf : SameFrame h g)
      (hw : g.pslWrapped = h.pslWrapped) (hn : g.nitems + 1 = h.nitems)
      (hh : ∀ x w, Holds g.size g.view x w ↔ x ≠ k ∧ Holds h.size h.view x w) :
      Removes F hashkey h k
        ⟨(shrinkIfSparse F hashkey g).1, true, v, (shrinkIfSparse F hashkey g).2⟩

theorem rsHmapDel_removes (hwf : WellFormed F h) {r : DelResult K V}
    (hr : rsHmapDel F hashkey h k = some r) : Removes F hashkey h k r := by
  rw [rsHmapDel] at hr
  by_cases hk : h.Has k
  · obtain ⟨v, q, e, hq, he, rfl, rfl⟩ := hk
    have hfind := delFind_held (F := F) (i := 0) hwf.inv hq he (Nat.zero_le _)
    rw [Nat.sub_zero, Nat.add_zero, Nat.mod_eq_of_lt (hwf.home_lt _)] at hfind
    obtain ⟨g, hg, hwf', hframe, hw, hn, hholds⟩ := shiftLoop_del hwf hq he
    rw [hfind] at hr
    simp only [hg, Option.map_some, Option.some.injEq] at hr
    rw [← hr]
    exact .found _ g ⟨_, q, e, hq, he, rfl, rfl⟩ hwf' hframe hw hn hholds
  · have hfresh := fresh_iff_not_holds.mpr (not_exists.mp hk)
    have hfind := delFind_fresh (F := F) h.size 0 (hwf.home_lt k) hfresh
    cases hf : delFind F h k h.size 0 (h.home F k) with
    | mk st o =>
        rw [hf] at hfind hr
        obtain rfl : o = none := hfind
        rw [← Option.some.inj hr]
        exact .absent st hk

/-- The shrinking at the end of a deletion leaves the size and homes of `delTarget`. -/
theorem shrinkIfSparse_target (hf : SameFrame h g) (hn : g.nitems + 1 = h.nitems)
    (h0 : 0 ≤ (shrinkIfSparse F hashkey g).1) :
    (shrinkIfSparse F hashkey g).2.size = (delTarget hashkey h).size ∧
      (shrinkIfSparse F hashkey g).2.home F = (delTarget hashkey h).home F := by
  have hnitems : h.nitems - 1 = g.nitems := by omega
  rw [delTarget, hnitems, ← hf.config, ← hf.size]
  rw [shrinkIfSparse] at h0 ⊢
  split
  · next hsparse =>
    rw [if_pos hsparse] at h0
    have hframe := rsHmapResize_frame h0
    exact ⟨hframe.size, hframe.home⟩
  · exact ⟨hf.size, hf.home⟩

theorem shrinkIfSparse_notWrapped {keys : K → Prop} (hg : WellFormed F g) (hf : SameFrame h g)
    (hw : g.pslWrapped = false) (hn : g.nitems + 1 = h.nitems) (hhas : ∀ x, g.Has x → keys x)
    (hkeys : ¬ Crowded (delTarget hashkey h).size ((delTarget hashkey h).home F) keys (2 ^ 16)) :
    (shrinkIfSparse F hashkey g).2.pslWrapped = false := by
  have hnitems : h.nitems - 1 = g.nitems := by omega
  have hlt := hg.size_lt
  rw [delTarget, hnitems, ← hf.config, ← hf.size] at hkeys
  rw [shrinkIfSparse]
  split
  · next hsparse =>
    rw [if_pos hsparse] at hkeys
    have hroom : g.nitems ≤ shrinkSize g.nitems g.config.minSize := by
      rw [lowThreshold_eq hlt] at hsparse
      rw [shrinkSize, idealSize_eq (by omega), if_neg (by omega)]
      omega
    exact rsHmapResize_notWrapped hg.keyed hw hroom fun hcr => hkeys (hcr.mono hhas le_rfl)
  · exact hw

/-- **A deletion wraps nothing** where the keys it leaves do not crowd the table it leaves. -/
theorem rsHmapDel_notWrapped {r : DelResult K V} (hwf : WellFormed F h)
    (hw : h.pslWrapped = false) (hd : rsHmapDel F hashkey h k = some r)
    (hs : (Call.del hashkey k : Call K V).Spreads F h) : r.hmap.pslWrapped = false := by
  cases rsHmapDel_removes hwf hd with
  | absent st hk => exact hw
  | found v g hk hg hf hgw hn hh =>
      refine shrinkIfSparse_notWrapped hg hf (hgw.trans hw) hn ?_ (hs hk)
      rintro x ⟨w, hx⟩
      exact ⟨((hh x w).mp hx).1, w, ((hh x w).mp hx).2⟩

/-- After a deletion that wraps nothing, probe lengths are right exactly where the keys are
spread. -/
theorem rsHmapDel_pslRight_iff {r : DelResult K V} (hwf : WellFormed F h) (hl : Loaded h)
    (hright : PslRight F h) (hd : rsHmapDel F hashkey h k = some r) (h0 : 0 ≤ r.status)
    (hw : r.hmap.pslWrapped = false) :
    PslRight F r.hmap ↔ (Call.del hashkey k : Call K V).Spreads F h := by
  cases rsHmapDel_removes hwf hd with
  | absent st hk => exact iff_of_true hright fun hhas => absurd hhas hk
  | found v g hk hg hf hgw hn hh =>
      obtain ⟨hsize, hhome⟩ := shrinkIfSparse_target hf hn h0
      have hlg : Loaded g := by
        unfold Loaded at hl ⊢
        rw [hf.size]
        omega
      obtain ⟨t, ht, hwf', hl', hholds⟩ := shrinkIfSparse_spec hg hlg hw
      rw [ht] at hsize hhome hw ⊢
      rw [hwf'.pslRight_iff hl' hw, Call.Spreads, forall_prop_of_true hk]
      refine spread_iff hsize hhome fun x => ?_
      constructor
      · rintro ⟨w, hx⟩
        obtain ⟨hxk, hx⟩ := (hh x w).mp ((hholds x w).mp hx)
        exact ⟨hxk, w, hx⟩
      · rintro ⟨hxk, w, hx⟩
        exact ⟨w, (hholds x w).mpr ((hh x w).mpr ⟨hxk, hx⟩)⟩

/-! ## whole runs -/

section Runs

variable [DecidableEq K] {c : Call K V} {calls : List (Call K V)}

/-- A call that leads on leads from a table that a run reaches to another one. -/
theorem Call.step_reaches (hr : ∃ m, Reaches F h m) (hs : c.step F h = some t) :
    ∃ m, Reaches F t m := by
  obtain ⟨m, hr⟩ := hr
  cases c with
  | put hashkey k v =>
      obtain ⟨r, hp, hr'⟩ := Option.bind_eq_some_iff.mp hs
      rw [← Option.some.inj (Option.ite_none_right_eq_some.mp hr').2]
      exact ⟨_, .put hr hp⟩
  | del hashkey k =>
      obtain ⟨r, hd, hr'⟩ := Option.bind_eq_some_iff.mp hs
      rw [← Option.some.inj (Option.ite_none_right_eq_some.mp hr').2]
      exact ⟨_, .del hr hd⟩

/-- One call keeps the probe lengths right exactly where its keys are spread. -/
theorem Call.step_pslRight_iff (hr : Reaches F h m) (hright : PslRight F h)
    (hs : c.step F h = some t) : PslRight F t ↔ c.Spreads F h := by
  obtain ⟨hwf, hl, hrep⟩ := reaches_wellFormed hr hright.noWrap
  cases c with
  | put hashkey k v =>
      obtain ⟨r, hp, hr'⟩ := Option.bind_eq_some_iff.mp hs
      obtain ⟨h0, ht⟩ := Option.ite_none_right_eq_some.mp hr'
      obtain rfl := Option.some.inj ht
      constructor
      · intro ht
        exact (rsHmapPut_pslRight_iff hwf hl hrep hp h0 ht.noWrap).mp ht
      · intro hspreads
        have hw := rsHmapPut_notWrapped hwf hl hright.noWrap hp h0 hspreads
        exact (rsHmapPut_pslRight_iff hwf hl hrep hp h0 hw).mpr hspreads
  | del hashkey k =>
      obtain ⟨r, hd, hr'⟩ := Option.bind_eq_some_iff.mp hs
      obtain ⟨h0, ht⟩ := Option.ite_none_right_eq_some.mp hr'
      obtain rfl := Option.some.inj ht
      constructor
      · intro ht
        exact (rsHmapDel_pslRight_iff hwf hl hright hd h0 ht.noWrap).mp ht
      · intro hspreads
        have hw := rsHmapDel_notWrapped hwf hright.noWrap hd hspreads
        exact (rsHmapDel_pslRight_iff hwf hl hright hd h0 hw).mpr hspreads

omit [DecidableEq K] in
theorem pslRight_blank (size : Nat) (hashkey : UInt64) (config : HmapConfig) :
    PslRight F (blank size hashkey config false) :=
  ⟨rfl, fun _ _ hfull => absurd hfull Bool.false_ne_true,
    fun _ _ hfull => absurd hfull Bool.false_ne_true⟩

/-- **Probe lengths are right all along a run exactly where each of its calls leaves its keys
spread.** -/
theorem run_pslRight_iff {hc : HmapConfig} {loads : Bool}
    (hi : instantiate hc hashkey loads = some (.ok h)) (calls : List (Call K V)) :
    (∀ t ∈ visits (Call.step F) calls h, PslRight F t) ↔
      Allowed (Call.step F) (Call.Spreads F) calls h := by
  have hstart : PslRight F h := by
    obtain ⟨size, config, hpos, hlt, rfl⟩ := instantiate_eq_blank hi
    exact pslRight_blank size _ _
  have hreach : ∀ t ∈ visits (Call.step F) calls h, ∃ m, Reaches F t m :=
    forall_visits (fun _ _ _ hr hs => Call.step_reaches hr hs) ⟨_, .instantiate hi⟩
  rw [← forall_visits_iff (I := fun t => (∃ m, Reaches F t m) ∧ PslRight F t)
    (fun c s t hs hstep => ?_) ⟨⟨_, .instantiate hi⟩, hstart⟩]
  · exact forall₂_congr fun t ht => (and_iff_right (hreach t ht)).symm
  · obtain ⟨⟨m, hr⟩, hright⟩ := hs
    rw [and_iff_right (Call.step_reaches ⟨m, hr⟩ hstep)]
    exact Call.step_pslRight_iff hr hright hstep

/-! ## few keys -/

/-- The key of a call. -/
def Call.key : Call K V → K
  | .put _ k _ => k
  | .del _ k => k

/-- A table of a run whose probe lengths are right, with keys of `S`. -/
structure KeysIn (F : FnPtrs K V) (S : Finset K) (h : RsHmap K V) : Prop where
  reached : ∃ m, Reaches F h m
  right : PslRight F h
  keys : ∀ x, h.Has x → x ∈ S

variable {S : Finset K}

/-- Fewer than `2^16` keys make no crowd. -/
theorem KeysIn.spreads (hk : KeysIn F S h) (hS : S.card < 2 ^ 16) (hc : c.key ∈ S) :
    c.Spreads F h := by
  cases c with
  | put hashkey k v =>
      refine not_crowded_of_card (fun x hx => ?_) hS
      rcases hx with rfl | hx
      · exact hc
      · exact hk.keys x hx
  | del hashkey k => exact fun _ => not_crowded_of_card (fun x hx => hk.keys x hx.2) hS

theorem KeysIn.step (hk : KeysIn F S h) (hS : S.card < 2 ^ 16) (hc : c.key ∈ S)
    (hs : c.step F h = some t) : KeysIn F S t := by
  obtain ⟨m, hr⟩ := hk.reached
  have hright := (Call.step_pslRight_iff hr hk.right hs).mpr (hk.spreads hS hc)
  refine ⟨Call.step_reaches hk.reached hs, hright, fun x hx => ?_⟩
  obtain ⟨-, -, hrep⟩ := reaches_wellFormed hr hk.right.noWrap
  have hold : m x ≠ none → x ∈ S := fun hm => hk.keys x (hrep.has_iff.mpr hm)
  cases c with
  | put hashkey k v =>
      obtain ⟨r, hp, hr'⟩ := Option.bind_eq_some_iff.mp hs
      obtain rfl := Option.some.inj (Option.ite_none_right_eq_some.mp hr').2
      obtain ⟨-, -, hrep'⟩ := reaches_wellFormed (hr.put hp) hright.noWrap
      have hm := hrep'.has_iff.mp hx
      split at hm
      · exact hold hm
      · by_cases hxk : x = k
        · exact hxk ▸ hc
        · rw [insertOrUpdate, update_of_ne hxk] at hm
          exact hold hm
  | del hashkey k =>
      obtain ⟨r, hd, hr'⟩ := Option.bind_eq_some_iff.mp hs
      obtain rfl := Option.some.inj (Option.ite_none_right_eq_some.mp hr').2
      obtain ⟨-, -, hrep'⟩ := reaches_wellFormed (hr.del hd) hright.noWrap
      have hm := hrep'.has_iff.mp hx
      by_cases hxk : x = k
      · exact hxk ▸ hc
      · rw [update_of_ne hxk] at hm
        exact hold hm

/-- A run about fewer than `2^16` keys leaves its keys spread. -/
theorem KeysIn.allowed (hk : KeysIn F S h) (hS : S.card < 2 ^ 16)
    (hcalls : ∀ c ∈ calls, c.key ∈ S) : Allowed (Call.step F) (Call.Spreads F) calls h := by
  induction calls generalizing h with
  | nil => trivial
  | cons c cs ih =>
      intro t ht
      have hc := hcalls c (List.mem_cons_self ..)
      exact ⟨hk.spreads hS hc,
        ih (hk.step hS hc ht) fun d hd => hcalls d (List.mem_cons_of_mem _ hd)⟩

omit [DecidableEq K] in
/-- A new table has no keys. -/
theorem has_blank {size : Nat} {config : HmapConfig} (x : K) :
    ¬ (blank (V := V) size hashkey config false).Has x := by
  rintro ⟨w, q, e, -, he, -⟩
  exact Bool.false_ne_true (RsHmap.view_eq_some.mp he).1

theorem keysIn_fourMap (S : Finset Nat) : KeysIn replaceFns S fourMap := by
  refine ⟨⟨_, .instantiate instantiate_four⟩, pslRight_blank 4 0 _, fun x hx => ?_⟩
  rw [fourMap] at hx
  exact absurd hx (has_blank x)

theorem step_fourMap : (Call.put 0 1 10).step replaceFns fourMap =
    some (rsHmapInsert replaceFns fourMap 1 10).2 := by
  rw [Call.step, rsHmapPut_fourMap]
  rfl

theorem step_oneOfFour : (Call.put 0 2 20).step replaceFns (rsHmapInsert replaceFns fourMap 1 10).2 =
    some twoItemMap := by
  rw [Call.step, rsHmapPut_oneOfFour]
  rfl

theorem keysIn_twoItem : KeysIn replaceFns {1, 2} twoItemMap :=
  ((keysIn_fourMap {1, 2}).step (by decide) (by simp [Call.key]) step_fourMap).step (by decide)
    (by simp [Call.key]) step_oneOfFour

/-- Two keys with one home are put, and the first is deleted. -/
theorem run_pslRight_iff_two :
    twoItemMap ∈ visits (Call.step replaceFns) [.put 0 1 10, .put 0 2 20, .del 0 1] fourMap ∧
      ∀ t ∈ visits (Call.step replaceFns) [.put 0 1 10, .put 0 2 20, .del 0 1] fourMap,
        PslRight replaceFns t := by
  refine ⟨?_, (run_pslRight_iff instantiate_four _).mpr
    ((keysIn_fourMap {1, 2}).allowed (by decide) (by simp [Call.key]))⟩
  simp only [visits, step_fourMap, step_oneOfFour, List.mem_cons, true_or, or_true]

end Runs

/-! ## a crowd -/

omit [Zero K] [Zero V] in
/-- An insertion finds the empty bucket ahead of it. -/
theorem insertLoop_status {left p : Nat} {entry : Bkt K V} (hp : p < h.size)
    (hu : ∀ w v, 0 ≤ (F.valUpdate w v).1)
    (hfree : ∃ i, i < left ∧ h.bktFull ((p + i) % h.size) = false) :
    0 ≤ (insertLoop F left h entry p).1 := by
  induction left generalizing h entry p with
  | zero =>
      obtain ⟨i, hi, -⟩ := hfree
      omega
  | succ left ih =>
      rw [insertLoop]
      split
      · next hfull =>
        have hahead : ∃ i, i < left ∧ h.bktFull ((next h.size p + i) % h.size) = false := by
          obtain ⟨i, hi, hempty⟩ := hfree
          cases i with
          | zero =>
              rw [Nat.add_zero, Nat.mod_eq_of_lt hp, hfull] at hempty
              contradiction
          | succ i => exact ⟨i, by omega, by rwa [← succ_add_mod hp]⟩
        split
        · exact hu _ _
        · split
          · exact ih (h := (h.setBkt p entry).noteWrap (h.bkts p)) (next_lt hp) hahead
          · exact ih (h := h.noteWrap entry) (next_lt hp) hahead
      · exact le_rfl

omit [Zero K] [Zero V] in
/-- An insertion adds one item at most. -/
theorem insertLoop_nitems_le {left p : Nat} {entry : Bkt K V} :
    (insertLoop F left h entry p).2.nitems ≤ h.nitems + 1 := by
  induction left generalizing h entry p with
  | zero => exact Nat.le_succ _
  | succ left ih =>
      rw [insertLoop]
      split
      · split
        · exact Nat.le_succ _
        · split
          · exact ih (h := (h.setBkt p entry).noteWrap (h.bkts p))
          · exact ih (h := h.noteWrap entry)
      · exact le_rfl

/-- The configuration of a map of `2^17` buckets or more. -/
def wideConfig : HmapConfig := ⟨2 ^ 17, 0, 0, 0, some "libhmap.so"⟩

/-- The table `rs_hmap_instantiate` makes for it. -/
def wideMap : RsHmap Nat Nat :=
  blank (primeGeq (2 ^ 17)) 0 { configOf wideConfig with soFile := wideConfig.soFile } false

theorem wideMap_size : 2 ^ 17 ≤ primeGeq (2 ^ 17) ∧ primeGeq (2 ^ 17) < uintMax :=
  primeGeq_bounds (by norm_num) (by norm_num)

theorem instantiate_wide : instantiate (K := Nat) (V := Nat) wideConfig 0 true =
    some (.ok wideMap) := by
  have hmarks : marksOk (configOf wideConfig) = true := by decide +kernel
  have hmin : (configOf wideConfig).minSize = 2 ^ 17 := rfl
  have hsize := wideMap_size
  rw [instantiate, hmarks, hmin, if_neg (by decide), if_neg (by omega), if_neg (by decide),
    if_neg (by decide)]
  rfl

/-- A put into a wide table of few items: it inserts, and succeeds. -/
theorem put_wide {h : RsHmap Nat Nat} (hc : Counted h) (hsize : 2 ^ 17 ≤ h.size)
    (hn : h.nitems ≤ 2 ^ 16) (k : Nat) :
    growIfFull replaceFns 0 h = some (0, h) ∧
      (Call.put 0 k k).step replaceFns h = some (rsHmapInsert replaceFns h k k).2 := by
  have hlt := hc.size_lt
  have hgrow : growIfFull replaceFns 0 h = some (0, h) := by
    rw [growIfFull, if_neg (by rw [highThreshold_eq (by omega)]; omega)]
  refine ⟨hgrow, ?_⟩
  have hput : rsHmapPut replaceFns 0 h k k = some (rsHmapInsert replaceFns h k k) := by
    rw [rsHmapPut, hgrow]
    rfl
  obtain ⟨z, hz, hempty⟩ := exists_none_of_count_lt (t := h.view) (n := h.size)
    (by rw [← hc.nitems_eq]; omega)
  obtain ⟨i, hi, hiz⟩ := exists_add_mod_eq (h.home replaceFns k) hz
  have hstatus : 0 ≤ (rsHmapInsert replaceFns h k k).1 :=
    insertLoop_status (hc.home_lt k) (fun _ _ => le_rfl)
      ⟨i, hi, by rw [hiz]; exact RsHmap.view_eq_none.mp hempty⟩
  rw [Call.step, hput, Option.bind_some, if_pos hstatus]

/-- Putting keys into a wide table, up to `2^16 + 1` of them. -/
theorem run_wide {h : RsHmap Nat Nat} {m : Nat → Option Nat} (ks : List Nat)
    (hr : Reaches replaceFns h m) (hsize : 2 ^ 17 ≤ h.size)
    (hn : h.nitems + ks.length ≤ 2 ^ 16 + 1) :
    ∃ t m', runAll (Call.step replaceFns) (ks.map fun k => .put 0 k k) h = some t ∧
      Reaches replaceFns t m' ∧ ∀ x, x ∈ ks ∨ m x ≠ none → m' x ≠ none := by
  induction ks generalizing h m with
  | nil => exact ⟨h, m, rfl, hr, fun x hx => hx.resolve_left List.not_mem_nil⟩
  | cons k ks ih =>
      rw [List.length_cons] at hn
      obtain ⟨hgrow, hstep⟩ := put_wide (reaches_counted hr) hsize (by omega) k
      have hput : rsHmapPut replaceFns 0 h k k = some (rsHmapInsert replaceFns h k k) := by
        rw [rsHmapPut, hgrow]
        rfl
      have hr' := hr.put hput
      rw [putRefused, hgrow, if_neg (by simp)] at hr'
      have hframe := (rsHmapInsert_counted (F := replaceFns) (k := k) (v := k)
        (reaches_counted hr)).2
      have hle : (rsHmapInsert replaceFns h k k).2.nitems ≤ h.nitems + 1 := insertLoop_nitems_le
      obtain ⟨t, m', ht, hrt, hkeys⟩ := ih hr' (by rw [hframe.size]; exact hsize) (by omega)
      refine ⟨t, m', by rw [List.map_cons, runAll, hstep]; exact ht, hrt, fun x hx => hkeys x ?_⟩
      rw [insertOrUpdate]
      by_cases hxk : x = k
      · refine .inr ?_
        rw [hxk, update_self]
        split <;> simp
      · rw [update_of_ne hxk]
        rcases hx with hx | hx
        · exact .inl ((List.mem_cons.mp hx).resolve_left hxk)
        · exact .inr hx

/-- **`2^16 + 1` keys with one home**: every put succeeds, and the last one wraps. -/
theorem run_pslRight_fails : ∃ h t, instantiate wideConfig 0 true = some (.ok h) ∧
    runAll (Call.step replaceFns) ((List.range (2 ^ 16 + 1)).map fun k => .put 0 k k) h = some t ∧
      ¬ PslRight replaceFns t := by
  obtain ⟨t, m, ht, hr, hkeys⟩ := run_wide (List.range (2 ^ 16 + 1)) (.instantiate instantiate_wide)
    wideMap_size.1 (by rw [List.length_range]; exact (Nat.zero_add _).le)
  refine ⟨wideMap, t, instantiate_wide, ht, fun hright => ?_⟩
  obtain ⟨hwf, hl, hrep⟩ := reaches_wellFormed hr hright.noWrap
  have hspread := (hwf.pslRight_iff hl hright.noWrap).mp hright
  refine hspread ⟨0, 1, Finset.range (2 ^ 16 + 1), by simp, fun x hx => ?_⟩
  obtain ⟨w, hw⟩ := Option.ne_none_iff_exists'.mp
    (hkeys x (.inl (List.mem_range.mpr (Finset.mem_range.mp hx))))
  refine ⟨⟨w, (hrep x w).mp hw⟩, 0, Nat.one_pos, ?_⟩
  rw [home_eq hwf.size_pos hwf.size_lt hwf.divinfo_eq]
  exact (Nat.zero_mod _).trans (Nat.zero_mod _).symm

end QStore.Hmap
