import QStore.Magg.Resize

/-!
# QStore.Magg.Put

`hmap_put` (`hmap_put.tmpl.lua`): make the table larger where it is too full, then insert.

Between two calls a table has one item at most more than it may have before an insertion. Its
`size << 1` leaves 32 bits from `2^31` buckets on; a table that large never grows: the loop of
`calc_new_size` does not end.
-/

namespace QStore.Magg

open QStore.Ring QStore.RobinHood QStore.Binary64 Function

section Model

variable {K V : Type} [DecidableEq K] [Zero K] [Zero V]

/-- The first part of `hmap_put`: make a table that is too full larger. `none`: it never ends. -/
def growIfFull (murmurhash3 : K → UInt64 → UInt32) (codeForUpdate : V → V → V) (rnd : UInt64)
    (h : HMap K V) : Option (Int × HMap K V) :=
  if exceeds h.nitems (7656119366529843 * h.size) (2 ^ 53) then
    (calcNewSize h.nitems h.minsize h.size false).map fun r =>
      if r.2 then hmapResize murmurhash3 codeForUpdate rnd h r.1 else (0, h)
  else some (0, h)

/-- `hmap_put` -/
def hmapPut (murmurhash3 : K → UInt64 → UInt32) (codeForUpdate : V → V → V) (rnd : UInt64)
    (h : HMap K V) (key : K) (val : V) : Option (PutResult K V) :=
  (growIfFull murmurhash3 codeForUpdate rnd h).map fun g =>
    if g.1 < 0 then ⟨g.1, 0, false, g.2⟩ else hmapInsert murmurhash3 codeForUpdate g.2 key val

/-- A put makes the table larger. -/
def Grows (h : HMap K V) : Prop := h.nitems > Hmap.highThreshold h.size

instance (h : HMap K V) : Decidable (Grows h) := inferInstanceAs (Decidable (_ > _))

/-- The table a put writes to; what is in it is left out where it is a new one. -/
def grown (rnd : UInt64) (h : HMap K V) : HMap K V :=
  if Grows h then renewed rnd h (min (2 * h.size) (h.size + Hmap.maxGrowthStep)) else h

end Model

variable {K V : Type} [DecidableEq K] [Zero K] [Zero V] {murmurhash3 : K → UInt64 → UInt32}
  {codeForUpdate : V → V → V} {h g : HMap K V} {m : K → Option (Cell V)} {rnd : UInt64} {key : K}
  {val : V} {nitems size newsize : Nat}

/-- The invariant of a map, from `hmap_create` on. -/
structure Good (murmurhash3 : K → UInt64 → UInt32) (h : HMap K V) : Prop
    extends WellFormed murmurhash3 h where
  spread : Spread murmurhash3 h
  size_ge : hashInitSize ≤ h.size
  minsize_ge : hashInitSize ≤ h.minsize
  load : h.nitems ≤ Hmap.highThreshold h.size + 1

/-- A table below its high water mark has an empty bucket. -/
theorem room_of_load (hge : hashInitSize ≤ size) (hlt : size < 2 ^ 32)
    (hn : nitems ≤ Hmap.highThreshold size + 1) : nitems < size := by
  rw [Hmap.highThreshold_eq (by omega)] at hn
  have : 65536 ≤ size := hge
  omega

omit [Zero V] in
theorem Good.room (hg : Good murmurhash3 h) : h.nitems < h.size :=
  room_of_load hg.size_ge hg.size_lt hg.load

omit [DecidableEq K] [Zero K] [Zero V] in
/-- The test of `hmap_put`, on the rounded product, is the one of `calc_new_size`. -/
theorem grows_iff : exceeds h.nitems (7656119366529843 * h.size) (2 ^ 53) ↔ Grows h := exceeds_iff

/-- Below `2^31` buckets the next size is large enough. -/
theorem growSize_eq (hge : hashInitSize ≤ size) (hlt : size < 2 ^ 31)
    (hn : nitems ≤ Hmap.highThreshold size + 1) :
    growSize nitems size = some (min (2 * size) (size + Hmap.maxGrowthStep)) ∧
      nitems ≤ Hmap.highThreshold (min (2 * size) (size + Hmap.maxGrowthStep)) := by
  have hge' : 65536 ≤ size := hge
  have hstep : Hmap.maxGrowthStep = 1048576 := rfl
  have hmin : min (2 * size) (size + Hmap.maxGrowthStep) ≤ 2 * size := min_le_left ..
  have hmin' : size + 65536 ≤ min (2 * size) (size + Hmap.maxGrowthStep) := by omega
  have hthr : nitems ≤ Hmap.highThreshold (min (2 * size) (size + Hmap.maxGrowthStep)) := by
    rw [Hmap.highThreshold_eq (by omega)] at hn ⊢
    omega
  rw [growSize, Nat.mod_eq_of_lt (by omega), Nat.mod_eq_of_lt (by omega)]
  exact ⟨if_neg (by omega), hthr⟩

/-- The map a put finds: where the table grows it has lost its counts. -/
def found (h : HMap K V) (m : K → Option (Cell V)) (k : K) : Option (Cell V) :=
  if Grows h then (m k).map once else m k

/-- What the first part of a put leaves. -/
structure Grown (murmurhash3 : K → UInt64 → UInt32) (rnd : UInt64) (h : HMap K V)
    (m : K → Option (Cell V)) (g : HMap K V) : Prop where
  wellFormed : WellFormed murmurhash3 g
  frame : SameFrame (grown rnd h) g
  nitems : g.nitems = h.nitems
  rep : Rep g (found h m)
  size_ge : hashInitSize ≤ g.size
  load : g.nitems ≤ Hmap.highThreshold g.size

theorem growIfFull_spec (hg : Good murmurhash3 h) (hrep : Rep h m)
    (hlt : Grows h → h.size < 2 ^ 31)
    (hkeys : ¬ Crowded (grown rnd h).size ((grown rnd h).home murmurhash3)
      (fun x => ∃ c, Holds h.size h.view x c) (2 ^ 16)) :
    ∃ g, growIfFull murmurhash3 codeForUpdate rnd h = some (0, g) ∧
      Grown murmurhash3 rnd h m g := by
  by_cases hfull : Grows h
  · have hsize := hlt hfull
    have hge : 65536 ≤ h.size := hg.size_ge
    obtain ⟨hgrow, hthr⟩ := growSize_eq hg.size_ge hsize hg.load
    obtain ⟨newsize, hnew⟩ : ∃ n, n = min (2 * h.size) (h.size + Hmap.maxGrowthStep) := ⟨_, rfl⟩
    have hstep : Hmap.maxGrowthStep = 1048576 := rfl
    have hgrown : grown rnd h = renewed rnd h newsize := by rw [grown, if_pos hfull, hnew]
    rw [hgrown] at hkeys
    rw [← hnew] at hgrow hthr
    have hroom := hg.room
    have hmax : newsize < Hmap.uintMax := by
      have : Hmap.uintMax = 2 ^ 32 - 1 := rfl
      omega
    obtain ⟨g, hres, hr⟩ : ∃ g, hmapResize murmurhash3 codeForUpdate rnd h newsize = (0, g) ∧
        Rebuilt murmurhash3 h (renewed rnd h newsize) g := by
      refine hmapResize_spec hg.toWellFormed (by omega) hmax ?_ (by omega) hkeys
      rw [Hmap.highThreshold_eq (by omega)]
      omega
    have hgsize : g.size = newsize := hr.frame.size
    refine ⟨g, ?_, hr.wellFormed, by rw [hgrown]; exact hr.frame, hr.nitems, ?_, ?_, ?_⟩
    · rw [growIfFull, if_pos (grows_iff.mpr hfull), calcNewSize, if_neg Bool.false_ne_true,
        if_pos (gt_iff_lt.mpr hfull), hgrow, Option.map_some, Option.map_some, if_pos rfl, hres]
    · have : found h m = fun k => (m k).map once := funext fun k => if_pos hfull
      rw [this]
      exact hr.rep hrep
    · rw [hgsize]
      exact hg.size_ge.trans (by omega)
    · rw [hr.nitems, hgsize]
      exact hthr
  · have hgrown : grown rnd h = h := if_neg hfull
    have : found h m = m := funext fun k => if_neg hfull
    refine ⟨h, by rw [growIfFull, if_neg (mt grows_iff.mp hfull)], hg.toWellFormed,
      by rw [hgrown]; exact .rfl, rfl, by rw [this]; exact hrep, hg.size_ge, not_lt.mp hfull⟩

/-- The keys that will be in the table the put writes to do not crowd it, and it has a next
size. -/
structure Puttable (murmurhash3 : K → UInt64 → UInt32) (rnd : UInt64) (h : HMap K V) (key : K) :
    Prop where
  size_lt : Grows h → h.size < 2 ^ 31
  spread : ¬ Crowded (grown rnd h).size ((grown rnd h).home murmurhash3)
    (fun x => x = key ∨ ∃ c, Holds h.size h.view x c) (2 ^ 16)

omit [DecidableEq K] in
theorem minsize_grown : (grown rnd h).minsize = h.minsize := by
  rw [grown]
  split <;> rfl

omit [DecidableEq K] [Zero K] [Zero V] in
theorem found_eq_none {k : K} : found h m k = none ↔ m k = none := by
  rw [found]
  split
  · exact Option.map_eq_none_iff
  · rfl

/-- What a put that succeeds leaves. -/
structure PutDone (murmurhash3 : K → UInt64 → UInt32) (codeForUpdate : V → V → V) (rnd : UInt64)
    (h : HMap K V) (m : K → Option (Cell V)) (key : K) (val : V) (r : PutResult K V) : Prop where
  status : r.status = 0
  good : Good murmurhash3 r.hmap
  frame : SameFrame (grown rnd h) r.hmap
  nitems : r.hmap.nitems ≤ h.nitems + 1
  rep : Rep r.hmap (update (found h m) key (some (putCell codeForUpdate val (found h m key))))

/-- **A put** inserts into what the growth of the table has left of the map. -/
theorem hmapPut_spec (hg : Good murmurhash3 h) (hrep : Rep h m) (hk : key ≠ 0)
    (hp : Puttable murmurhash3 rnd h key) :
    ∃ r, hmapPut murmurhash3 codeForUpdate rnd h key val = some r ∧
      PutDone murmurhash3 codeForUpdate rnd h m key val r := by
  obtain ⟨g, hgrow, hgn⟩ : ∃ g, growIfFull murmurhash3 codeForUpdate rnd h = some (0, g) ∧
      Grown murmurhash3 rnd h m g :=
    growIfFull_spec hg hrep hp.size_lt fun hc =>
      hp.spread (hc.mono (fun _ hx => .inr hx) le_rfl)
  have hsize := hgn.frame.size
  have hhome : g.home murmurhash3 = (grown rnd h).home murmurhash3 := hgn.frame.home
  have hroom : g.nitems < g.size :=
    room_of_load hgn.size_ge hgn.wellFormed.size_lt (hgn.load.trans (Nat.le_succ _))
  -- the keys of the table that is written are those of the old one
  have hspread : ¬ Crowded g.size (g.home murmurhash3)
      (fun x => x = key ∨ ∃ c, Holds g.size g.view x c) (2 ^ 16) := by
    rw [hsize, hhome]
    refine fun hc => hp.spread (hc.mono (fun x hx => hx.imp_right fun hx => ?_) le_rfl)
    rw [← hsize, hgn.rep.has_iff, ← Option.ne_none_iff_exists', ne_eq, found_eq_none] at hx
    rw [hrep.has_iff, ← Option.ne_none_iff_exists']
    exact hx
  obtain ⟨hst, hputs⟩ : (hmapInsert murmurhash3 codeForUpdate g key val).status = 0 ∧
      Puts murmurhash3 codeForUpdate g (found h m) key val
        (hmapInsert murmurhash3 codeForUpdate g key val).hmap :=
    hmapInsert_spec hgn.wellFormed hgn.rep hk hroom hspread
  obtain ⟨r, hr⟩ : ∃ r, r = hmapInsert murmurhash3 codeForUpdate g key val := ⟨_, rfl⟩
  rw [← hr] at hst hputs
  refine ⟨r, ?_, hst, ⟨hputs.wellFormed, ?_, ?_, ?_, ?_⟩, hgn.frame.trans hputs.frame, ?_,
    hputs.rep⟩
  · rw [hmapPut, hgrow, Option.map_some, if_neg (lt_irrefl _), hr]
  · rw [Spread, hputs.frame.size, hputs.frame.home]
    refine fun hc => hspread (hc.mono (fun x hx => ?_) le_rfl)
    rw [← hputs.frame.size, hputs.rep.has_iff] at hx
    by_cases hxk : x = key
    · exact .inl hxk
    · rw [update_of_ne hxk] at hx
      exact .inr (hgn.rep.has_iff.mpr hx)
  · rw [hputs.frame.size]
    exact hgn.size_ge
  · rw [hputs.frame.minsize, hgn.frame.minsize, minsize_grown]
    exact hg.minsize_ge
  · rw [hputs.nitems, hputs.frame.size]
    have := hgn.load
    split <;> omega
  · rw [hputs.nitems, hgn.nitems]
    split <;> omega

end QStore.Magg
