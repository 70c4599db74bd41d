import QStore.Hmap.Get

/-!
# QStore.Hmap.Run

Runs of a hash map: any sequence of `rs_hmap_put` and `rs_hmap_del` on an
instantiated table, for any hash function and any random keys the resizes draw.

`Reaches` carries the finite map next to the table, by folding
insert-or-update and delete over the calls. `reaches_wellFormed` is the
simulation between the two, and the results about reachable tables are read off
it.
-/

namespace QStore.Hmap

open QStore.Ring QStore.RobinHood Function

variable {K V : Type} [Zero K] [Zero V] [DecidableEq K]

/-- The put is refused before it inserts: there is no larger size. -/
def putRefused (F : FnPtrs K V) (hashkey : UInt64) (h : RsHmap K V) : Bool :=
  (growIfFull F hashkey h).any fun r => decide (r.1 < 0)

/-- The tables a run reaches, with the map the calls so far amount to. A
refused put amounts to nothing; every other put amounts to what it asked for,
whatever `val_update` returned. -/
inductive Reaches (F : FnPtrs K V) : RsHmap K V → (K → Option V) → Prop
  | instantiate {hc : HmapConfig} {hashkey : UInt64} {loads : Bool} {h : RsHmap K V}
      (hi : instantiate hc hashkey loads = some (.ok h)) : Reaches F h (fun _ => none)
  | put {h : RsHmap K V} {m : K → Option V} (hr : Reaches F h m) {hashkey : UInt64} {k : K}
      {v : V} {r : Int × RsHmap K V} (hp : rsHmapPut F hashkey h k v = some r) :
      Reaches F r.2 (if putRefused F hashkey h then m else insertOrUpdate F m k v)
  | del {h : RsHmap K V} {m : K → Option V} (hr : Reaches F h m) {hashkey : UInt64} {k : K}
      {r : DelResult K V} (hd : rsHmapDel F hashkey h k = some r) :
      Reaches F r.hmap (update m k none)

variable {F : FnPtrs K V} {h : RsHmap K V} {m : K → Option V} {hashkey : UInt64} {k : K} {v : V}

/-! ## one call -/

omit [DecidableEq K] in
theorem rsHmapPut_pslWrapped {r : Int × RsHmap K V} (hp : rsHmapPut F hashkey h k v = some r)
    (hw : r.2.pslWrapped = false) : h.pslWrapped = false := by
  rw [rsHmapPut, Option.map_eq_some_iff] at hp
  obtain ⟨g, hg, hgr⟩ := hp
  split at hgr
  · rw [← hgr] at hw; exact growIfFull_pslWrapped hg hw
  · rw [← hgr] at hw; exact growIfFull_pslWrapped hg (insertLoop_pslWrapped hw)

/-- What a put does: it refuses and changes nothing, or it inserts into a table `t`
for the same pairs that has room. -/
inductive PutStep (F : FnPtrs K V) (hashkey : UInt64) (h : RsHmap K V) (m : K → Option V) (k : K)
    (v : V) : Int × RsHmap K V → Prop
  | refused (st : Int) (hst : st < 0) (hr : putRefused F hashkey h = true) :
      PutStep F hashkey h m k v (st, h)
  | inserted (t : RsHmap K V) (hr : putRefused F hashkey h = false) (ht : WellFormed F t)
      (hrep : Rep t m) (hn : t.nitems = h.nitems) (hload : t.nitems ≤ highThreshold t.size)
      (hroom : t.nitems < t.size) : PutStep F hashkey h m k v (rsHmapInsert F t k v)

omit [DecidableEq K] in
theorem rsHmapPut_step (hwf : WellFormed F h) (hrep : Rep h m)
    {r : Int × RsHmap K V} (hp : rsHmapPut F hashkey h k v = some r)
    (hw : r.2.pslWrapped = false) : PutStep F hashkey h m k v r := by
  rw [rsHmapPut, Option.map_eq_some_iff] at hp
  obtain ⟨g, hg, hgr⟩ := hp
  have hgw : g.2.pslWrapped = false := by
    split at hgr
    · rw [hgr]; exact hw
    · rw [← hgr] at hw; exact insertLoop_pslWrapped hw
  cases growIfFull_spec hwf hg hgw with
  | refused st hst =>
      rw [if_pos hst] at hgr
      rw [← hgr]
      exact .refused st hst (by rw [putRefused, hg]; simpa using hst)
  | grown t ht _ hn hload hh =>
      rw [if_neg (Int.lt_irrefl 0)] at hgr
      rw [← hgr]
      refine .inserted t (by rw [putRefused, hg]; rfl) ht
        (fun x w => (hrep x w).trans (hh x w).symm) hn hload ?_
      have h1 := ht.size_pos
      have h2 := ht.size_lt
      rw [highThreshold_eq (by omega)] at hload
      omega

/-- A put simulates `insertOrUpdate`, or is refused. -/
theorem rsHmapPut_spec (hwf : WellFormed F h) (hl : Loaded h) (hrep : Rep h m)
    {r : Int × RsHmap K V} (hp : rsHmapPut F hashkey h k v = some r)
    (hw : r.2.pslWrapped = false) :
    WellFormed F r.2 ∧ Loaded r.2 ∧
      Rep r.2 (if putRefused F hashkey h then m else insertOrUpdate F m k v) := by
  cases rsHmapPut_step hwf hrep hp hw with
  | refused st hst hr =>
      rw [if_pos hr]
      exact ⟨hwf, hl, hrep⟩
  | inserted t hr ht hrep' hn hload hroom =>
      obtain ⟨hiwf, hirep, hframe, hin, -⟩ := rsHmapInsert_spec ht hrep' hroom hw
      rw [if_neg (by simp [hr])]
      refine ⟨hiwf, ?_, hirep⟩
      rw [Loaded, hin, hframe.size]
      split <;> omega

/-- A put that succeeds: it was not refused, and `val_update` did not fail. -/
theorem rsHmapPut_status (hwf : WellFormed F h) (hrep : Rep h m)
    {r : Int × RsHmap K V} (hp : rsHmapPut F hashkey h k v = some r)
    (hw : r.2.pslWrapped = false) (hst : 0 ≤ r.1) :
    putRefused F hashkey h = false ∧ ∀ w, m k = some w → 0 ≤ (F.valUpdate w v).1 := by
  cases rsHmapPut_step hwf hrep hp hw with
  | refused st hneg hr => exact absurd hneg (not_lt.mpr hst)
  | inserted t hr ht hrep' hn hload hroom =>
      obtain ⟨-, -, -, -, hstatus⟩ := rsHmapInsert_spec ht hrep' hroom hw
      refine ⟨hr, fun w hm => ?_⟩
      rw [hstatus, hm] at hst
      exact hst

/-- A delete simulates the removal of the key. -/
theorem rsHmapDel_rep (hwf : WellFormed F h) (hl : Loaded h) (hrep : Rep h m) {r : DelResult K V}
    (hd : rsHmapDel F hashkey h k = some r) (hw : r.hmap.pslWrapped = false) :
    WellFormed F r.hmap ∧ Loaded r.hmap ∧ Rep r.hmap (update m k none) := by
  cases rsHmapDel_spec hwf hl hd hw with
  | absent st hk =>
      rw [show update m k none = m by rw [← hrep.fresh_iff.mp hk, update_eq_self]]
      exact ⟨hwf, hl, hrep⟩
  | found w g hv hg hlg hh =>
      refine ⟨hg, hlg, fun x u => ?_⟩
      rw [hh, ← hrep x u]
      by_cases hx : x = k
      · subst hx
        simp
      · simp [hx]

omit [DecidableEq K] in
/-- What a delete reports about the map before it. -/
theorem rsHmapDel_reports (hwf : WellFormed F h) (hl : Loaded h) (hrep : Rep h m)
    {r : DelResult K V} (hd : rsHmapDel F hashkey h k = some r)
    (hw : r.hmap.pslWrapped = false) :
    (r.isFound = true ↔ ∃ w, m k = some w) ∧ (r.isFound = true → m k = some r.val) := by
  cases rsHmapDel_spec hwf hl hd hw with
  | absent st hk => simp [hrep.fresh_iff.mp hk]
  | found w g hv hg hlg hh => simp [(hrep k w).mpr hv]

/-! ## whole runs -/

/-- **The simulation**: until a probe length wraps, every table a run reaches is
well formed and holds the pairs of its map. -/
theorem reaches_wellFormed (hr : Reaches F h m) (hw : h.pslWrapped = false) :
    WellFormed F h ∧ Loaded h ∧ Rep h m := by
  induction hr with
  | instantiate hi =>
      obtain ⟨size, config, hpos, hlt, rfl⟩ := instantiate_eq_blank hi
      exact ⟨wellFormed_blank hpos hlt _ _ _, Nat.zero_le _, rep_blank _ _ _ _⟩
  | put _ hp ih =>
      obtain ⟨hwf, hl, hrep⟩ := ih (rsHmapPut_pslWrapped hp hw)
      exact rsHmapPut_spec hwf hl hrep hp hw
  | del _ hd ih =>
      obtain ⟨hwf, hl, hrep⟩ := ih (rsHmapDel_pslWrapped hd hw)
      exact rsHmapDel_rep hwf hl hrep hd hw

/-- Every call on a reachable table returns. -/
theorem reaches_returns (hr : Reaches F h m) (hw : h.pslWrapped = false) (hashkey : UInt64)
    (k : K) (v : V) :
    (∃ r, rsHmapPut F hashkey h k v = some r) ∧ ∃ r, rsHmapDel F hashkey h k = some r := by
  obtain ⟨hwf, hl, -⟩ := reaches_wellFormed hr hw
  obtain ⟨g, hg⟩ := growIfFull_isSome hashkey hwf hl
  exact ⟨⟨_, by rw [rsHmapPut, hg, Option.map_some]⟩, rsHmapDel_isSome hwf⟩

/-! ## the table, spelled out -/

/-- What a table owes to the map it stands for, in the terms of its arrays. -/
structure TableCorrect (F : FnPtrs K V) (h : RsHmap K V) (m : K → Option V) : Prop where
  home : ∀ p, p < h.size → h.bktFull p = true →
    p = (h.home F (h.bkts p).key + (h.bkts p).psl) % h.size ∧
      ∀ i, i ≤ (h.bkts p).psl → h.bktFull ((h.home F (h.bkts p).key + i) % h.size) = true
  order : ∀ p, p < h.size → h.bktFull (next h.size p) = true →
    (h.bkts (next h.size p)).psl ≤ if h.bktFull p then (h.bkts p).psl + 1 else 0
  distinct : ∀ p q, p < h.size → q < h.size → h.bktFull p = true → h.bktFull q = true →
    (h.bkts p).key = (h.bkts q).key → p = q
  nitems : h.nitems = ((List.range h.size).filter h.bktFull).length
  zero : ∀ p, p < h.size → h.bktFull p = false → h.bkts p = zeroBkt
  content : ∀ k v, m k = some v ↔
    ∃ p, p < h.size ∧ h.bktFull p = true ∧ (h.bkts p).key = k ∧ (h.bkts p).val = v

omit [DecidableEq K] in
theorem WellFormed.tableCorrect (hwf : WellFormed F h) (hrep : Rep h m) : TableCorrect F h m where
  home := by
    intro p hp hfull
    have hv := RsHmap.view_of_full hfull
    refine ⟨(hwf.inv.loc p _ hp hv).symm, fun i hi => ?_⟩
    obtain ⟨f, hf, -⟩ := hwf.inv.walk hp hv hi
    exact (RsHmap.view_eq_some.mp hf).1
  order := by
    intro p hp hfull
    have := hwf.inv.order p _ hp (RsHmap.view_of_full hfull)
    cases hpf : h.bktFull p with
    | false => rwa [room_of_none (RsHmap.view_eq_none.mpr hpf)] at this
    | true => rwa [room_of_some (RsHmap.view_of_full hpf)] at this
  distinct := fun p q hp hq hpf hqf hk =>
    hwf.inv.inj p q _ _ hp hq (RsHmap.view_of_full hpf) (RsHmap.view_of_full hqf) hk
  nitems := by
    have hset : (Finset.range h.size).filter (fun p => (h.view p).isSome) =
        ((List.range h.size).filter h.bktFull).toFinset := by
      ext p
      cases hpf : h.bktFull p <;> simp [RsHmap.view, hpf]
    rw [hwf.nitems_eq, count, hset,
      List.toFinset_card_of_nodup (List.nodup_range.filter _)]
  zero := hwf.zero
  content := by
    intro k v
    rw [hrep k v]
    constructor
    · rintro ⟨p, e, hp, he, hk, hv⟩
      obtain ⟨hf, rfl⟩ := RsHmap.view_eq_some.mp he
      exact ⟨p, hp, hf, hk, hv⟩
    · rintro ⟨p, hp, hf, hk, hv⟩
      exact ⟨p, _, hp, RsHmap.view_of_full hf, hk, hv⟩

/-- **Every reachable table is correct**, and a delete on it reports the map. -/
theorem reaches_tableCorrect (hr : Reaches F h m) (hw : h.pslWrapped = false) :
    TableCorrect F h m ∧
      ∀ hashkey k r, rsHmapDel F hashkey h k = some r → r.hmap.pslWrapped = false →
        0 ≤ r.status →
        (r.isFound = true ↔ ∃ w, m k = some w) ∧ (r.isFound = true → m k = some r.val) := by
  obtain ⟨hwf, hl, hrep⟩ := reaches_wellFormed hr hw
  exact ⟨hwf.tableCorrect hrep, fun _ _ _ hd hwd _ => rsHmapDel_reports hwf hl hrep hd hwd⟩

/-- Function pointers of a map from numbers to numbers in which every key has
home `0` and a put replaces the value. -/
def replaceFns : FnPtrs Nat Nat where
  setHash := fun _ _ => 0
  keyCmp := fun a b => decide (a = b)
  valUpdate := fun _ v => (0, v)
  keyCmp_iff := by simp

/-- The configuration of a map of at least one bucket. -/
def smallConfig : HmapConfig := ⟨1, 0, 0, 0, some "libhmap.so"⟩

/-- The table `rs_hmap_instantiate` makes for it. -/
def smallMap : RsHmap Nat Nat :=
  blank 1 0 { configOf smallConfig with soFile := smallConfig.soFile } false

theorem instantiate_small : instantiate (K := Nat) (V := Nat) smallConfig 0 true =
    some (.ok smallMap) := by
  have hmarks : marksOk (configOf smallConfig) = true := by decide +kernel
  have hprime : primeGeq (configOf smallConfig).minSize = 1 := rfl
  rw [instantiate, hmarks, hprime, if_neg (by decide), if_neg (by decide),
    if_neg (by decide), if_neg (by decide)]
  rfl

theorem reaches_small : Reaches replaceFns smallMap (fun _ => none) :=
  .instantiate instantiate_small

theorem growIfFull_small : growIfFull replaceFns 0 smallMap = some (0, smallMap) := by
  have hn : ¬ smallMap.nitems > highThreshold smallMap.size := Nat.not_lt_zero _
  rw [growIfFull, if_neg hn]

theorem rsHmapPut_smallMap : rsHmapPut replaceFns 0 smallMap 5 7 =
    some (rsHmapInsert replaceFns smallMap 5 7) := by
  rw [rsHmapPut, growIfFull_small, Option.map_some, if_neg (by decide)]

/-- The configuration of a map of four buckets. -/
def fourConfig : HmapConfig := ⟨3, 0, 0, 0, some "libhmap.so"⟩

/-- The table `rs_hmap_instantiate` makes for it. -/
def fourMap : RsHmap Nat Nat :=
  blank 4 0 { configOf fourConfig with soFile := fourConfig.soFile } false

theorem instantiate_four : instantiate (K := Nat) (V := Nat) fourConfig 0 true =
    some (.ok fourMap) := by
  have hmarks : marksOk (configOf fourConfig) = true := by decide +kernel
  have hprime : primeGeq (configOf fourConfig).minSize = 4 := by
    change primeGeq 3 = 4
    rw [primeGeq, if_neg (by decide), primeLoop, trial_of_lt (by decide), if_pos rfl,
      Nat.mod_eq_of_lt (by decide)]
  rw [instantiate, hmarks, hprime, if_neg (by decide), if_neg (by decide), if_neg (by decide),
    if_neg (by decide)]
  rfl

/-- The map with two items. -/
def twoItemMap : RsHmap Nat Nat :=
  (rsHmapInsert replaceFns (rsHmapInsert replaceFns fourMap 1 10).2 2 20).2

theorem growIfFull_fourMap : growIfFull replaceFns 0 fourMap = some (0, fourMap) := by
  have hn : ¬ fourMap.nitems > highThreshold fourMap.size := Nat.not_lt_zero _
  rw [growIfFull, if_neg hn]

/-- One item leaves room for another. -/
theorem growIfFull_oneOfFour : growIfFull replaceFns 0 (rsHmapInsert replaceFns fourMap 1 10).2 =
    some (0, (rsHmapInsert replaceFns fourMap 1 10).2) := by
  have hn : (rsHmapInsert replaceFns fourMap 1 10).2.nitems = 1 := rfl
  have hsize : (rsHmapInsert replaceFns fourMap 1 10).2.size = 4 := rfl
  rw [growIfFull, hn, hsize, highThreshold_eq (by norm_num), if_neg (by decide)]

theorem rsHmapPut_fourMap : rsHmapPut replaceFns 0 fourMap 1 10 =
    some (rsHmapInsert replaceFns fourMap 1 10) := by
  rw [rsHmapPut, growIfFull_fourMap, Option.map_some, if_neg (by decide)]

theorem rsHmapPut_oneOfFour : rsHmapPut replaceFns 0 (rsHmapInsert replaceFns fourMap 1 10).2 2 20 =
    some (rsHmapInsert replaceFns (rsHmapInsert replaceFns fourMap 1 10).2 2 20) := by
  rw [rsHmapPut, growIfFull_oneOfFour, Option.map_some, if_neg (by decide)]

/-- Two puts lead to it, of keys with one home. -/
theorem reaches_twoItem : ∃ m, Reaches replaceFns twoItemMap m ∧ m 1 = some 10 ∧ m 2 = some 20 := by
  have hr := ((Reaches.instantiate (F := replaceFns) instantiate_four).put rsHmapPut_fourMap).put
    rsHmapPut_oneOfFour
  rw [putRefused, putRefused, growIfFull_fourMap, growIfFull_oneOfFour, if_neg (by simp),
    if_neg (by simp)] at hr
  exact ⟨_, hr, rfl, rfl⟩

theorem twoItem_noWrap : twoItemMap.pslWrapped = false := by
  decide +kernel

/-- The table of two items, the second behind the first. -/
theorem reaches_tableCorrect_two : ∃ m, Reaches replaceFns twoItemMap m ∧ m 1 = some 10 ∧
    m 2 = some 20 ∧ TableCorrect replaceFns twoItemMap m ∧
      ∀ hashkey k r, rsHmapDel replaceFns hashkey twoItemMap k = some r →
        r.hmap.pslWrapped = false → 0 ≤ r.status →
        (r.isFound = true ↔ ∃ w, m k = some w) ∧ (r.isFound = true → m k = some r.val) := by
  obtain ⟨m, hr, h1, h2⟩ := reaches_twoItem
  exact ⟨m, hr, h1, h2, reaches_tableCorrect hr twoItem_noWrap⟩

/-- **When `rs_hmap_get` is right** on a reachable table. -/
theorem reaches_getCorrect_iff (hr : Reaches F h m) (hw : h.pslWrapped = false) (k : K) :
    GetCorrect F h m k ↔ GetSafe F h k := by
  obtain ⟨hwf, -, hrep⟩ := reaches_wellFormed hr hw
  exact getCorrect_iff hwf hrep k

/-- Lookups in the table of two items, of the key behind the other and of one that is not held. -/
theorem reaches_getCorrect_iff_two : ∃ m, Reaches replaceFns twoItemMap m ∧ m 1 = some 10 ∧
    m 2 = some 20 ∧ GetCorrect replaceFns twoItemMap m 2 ∧
      GetCorrect replaceFns twoItemMap m 7 := by
  obtain ⟨m, hr, h1, h2⟩ := reaches_twoItem
  exact ⟨m, hr, h1, h2,
    (reaches_getCorrect_iff hr twoItem_noWrap 2).mpr (.inl ⟨1, by decide +kernel⟩),
    (reaches_getCorrect_iff hr twoItem_noWrap 7).mpr
      (.inr (.inl ⟨by decide, 3, by decide, .inl (by decide +kernel)⟩))⟩

/-- A lookup of the zero key in a table into which nothing was ever put. -/
theorem getCorrect_zero_fails :
    ∃ h, Reaches replaceFns h (fun _ => none) ∧ ¬ GetCorrect replaceFns h (fun _ => none) 0 := by
  refine ⟨_, reaches_small, fun hc => ?_⟩
  obtain ⟨v, hv⟩ := hc.2.1.mp rfl
  contradiction

end QStore.Hmap
