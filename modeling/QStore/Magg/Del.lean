import QStore.Magg.Put

/-!
# QStore.Magg.Del

`hmap_del` (`hmap_del.tmpl.lua`): find the bucket of the key, swap the rest of its cluster back by
one, and make a table that has become too empty smaller.
-/

namespace QStore.Magg

open QStore.Ring QStore.RobinHood QStore.Binary64 Function

section Model

variable {K V : Type} [DecidableEq K] [Zero K] [Zero V]

/-- The search of `hmap_del` at `probe_loc = p`, with `leftOver` turns to go: the bucket of the key.
It ends when `num_probes` is past every `psl`; `none`: `leftOver` turns were not enough. -/
def delFind (h : HMap K V) (key : K) : Nat → Nat → Nat → Option (Option Nat)
  | 0, _, _ => none
  | left + 1, numProbes, p =>
      if (h.bkts p).key = 0 then some none
      else if numProbes > (h.bkts p).psl then some none
      else if (h.bkts p).key = key then some (some p)
      else delFind h key left (numProbes + 1) (next h.size p)

/-- The backward shift at `probe_loc = p`, with `size - num_moves` moves left. -/
def shiftLoop : Nat → HMap K V → Nat → Int × HMap K V
  | 0, h, _ => (-1, h)
  | left + 1, h, p =>
      let q := next h.size p
      if (h.bkts q).key = 0 ∨ (h.bkts q).psl = 0 then (0, h)
      else
        let tmp := h.bkts p
        shiftLoop left ((h.setBkt p { h.bkts q with psl := (h.bkts q).psl - 1 }).setBkt q tmp) q

/-- `nitems < (double)size * LOW_WATER_MARK`, the product rounded. -/
def sparse (nitems size : Nat) : Prop :=
  nitems * 2 ^ scale (3602879701896397 * size) (2 ^ 53) <
    rne (3602879701896397 * size * 2 ^ scale (3602879701896397 * size) (2 ^ 53)) (2 ^ 53)

instance (nitems size : Nat) : Decidable (sparse nitems size) := inferInstanceAs (Decidable (_ < _))

/-- The end of `hmap_del`: make a table that is too empty smaller. -/
def shrinkIfSparse (murmurhash3 : K → UInt64 → UInt32) (codeForUpdate : V → V → V) (rnd : UInt64)
    (h : HMap K V) : Option (Int × HMap K V) :=
  if sparse h.nitems h.size then
    (calcNewSize h.nitems h.minsize h.size true).map fun r =>
      if r.2 then hmapResize murmurhash3 codeForUpdate rnd h r.1 else (0, h)
  else some (0, h)

/-- What `hmap_del` returns and writes. What it does not write is `false` and 0. -/
structure DelResult (K V : Type) where
  status : Int
  isFound : Bool
  val : V
  hmap : HMap K V

/-- The rest of `hmap_del` after the bucket `p` of the key is found. -/
def delAt (murmurhash3 : K → UInt64 → UInt32) (codeForUpdate : V → V → V) (rnd : UInt64)
    (h : HMap K V) (p : Nat) : Option (DelResult K V) :=
  let val := (h.bkts p).val.val
  let r := shiftLoop h.size { h.setBkt p zeroBkt with nitems := h.nitems - 1 } p
  if r.1 < 0 then some ⟨r.1, true, val, r.2⟩
  else (shrinkIfSparse murmurhash3 codeForUpdate rnd r.2).map fun s => ⟨s.1, true, val, s.2⟩

/-- `hmap_del`. `psl` has 16 bits, so the search takes `2 ^ 16 + 1` turns at most. -/
def hmapDel (murmurhash3 : K → UInt64 → UInt32) (codeForUpdate : V → V → V) (rnd : UInt64)
    (h : HMap K V) (key : K) : Option (DelResult K V) :=
  if h.size ≤ h.home murmurhash3 key then some ⟨-1, false, 0, h⟩
  else
    match delFind h key (2 ^ 16 + 1) 0 (h.home murmurhash3 key) with
    | none => none
    | some none => some ⟨0, false, 0, h⟩
    | some (some p) => delAt murmurhash3 codeForUpdate rnd h p

/-- A deletion makes the table smaller. -/
def Shrinks (h : HMap K V) : Prop := h.nitems > h.minsize ∧ h.nitems < lowThreshold h.size

instance (h : HMap K V) : Decidable (Shrinks h) := inferInstanceAs (Decidable (_ ∧ _))

/-- The smaller table, with nothing in it. -/
def shrunk (rnd : UInt64) (h : HMap K V) : HMap K V := renewed rnd h (max (h.size / 2) h.minsize)

end Model

variable {K V : Type} [DecidableEq K] [Zero K] [Zero V] {murmurhash3 : K → UInt64 → UInt32}
  {codeForUpdate : V → V → V} {h g : HMap K V} {m : K → Option (Cell V)} {rnd : UInt64} {key : K}

/-! ## the search -/

omit [Zero V] in
/-- The search reaches the bucket of a held key. -/
theorem delFind_held (hg : Good murmurhash3 h) {q : Nat} {e : Bkt K V} (hq : q < h.size)
    (he : h.view q = some e) :
    delFind h e.key (2 ^ 16 + 1) 0 (h.home murmurhash3 e.key) = some (some q) := by
  have h16 := hg.spread.psl_lt hg.toWellFormed hg.room hq he
  have hwalk := hg.inv.walk_to hq he (P := fun i => delFind h e.key (2 ^ 16 + 1 - i) i
    ((h.home murmurhash3 e.key + i) % h.size) = some (some q))
  rw [Nat.sub_zero, Nat.add_zero (h.home murmurhash3 e.key),
    Nat.mod_eq_of_lt (hg.home_lt _)] at hwalk
  apply hwalk
  · obtain ⟨left, hleft⟩ : ∃ left, 2 ^ 16 + 1 - e.psl = left + 1 := ⟨2 ^ 16 - e.psl, by omega⟩
    obtain ⟨hb, hne⟩ := HMap.view_eq_some.mp he
    rw [hg.inv.loc q e hq he, hleft, delFind, hb, if_neg hne, if_neg (lt_irrefl _), if_pos rfl]
  · intro i f hi hf hle hne hrest
    obtain ⟨left, hleft⟩ : ∃ left, 2 ^ 16 + 1 - i = left + 1 := ⟨2 ^ 16 - i, by omega⟩
    obtain ⟨hb, hf0⟩ := HMap.view_eq_some.mp hf
    rw [hleft, delFind, hb, if_neg hf0, if_neg (not_lt.mpr hle), if_neg hne,
      ← add_succ_mod (by omega), show left = 2 ^ 16 + 1 - (i + 1) by omega]
    exact hrest

omit [Zero V] in
/-- The search for a key in no bucket ends, and finds none: no `psl` keeps up with it. -/
theorem delFind_fresh (hpsl : ∀ p e, p < h.size → h.view p = some e → e.psl < 2 ^ 16)
    {left i p : Nat} (hp : p < h.size) (hleft : left + i = 2 ^ 16 + 1)
    (hfresh : Fresh h.size h.view key) (hpos : 0 < left) : delFind h key left i p = some none := by
  induction left generalizing i p with
  | zero => omega
  | succ left ih =>
      rw [delFind]
      split
      · rfl
      · next hne =>
        have hv := HMap.view_eq_some.mpr ⟨rfl, hne⟩
        have h16 := hpsl p _ hp hv
        split
        · rfl
        · rw [if_neg (hfresh p _ hp hv)]
          exact ih (next_lt hp) (by omega) (by omega)

/-! ## the backward shift -/

omit [Zero V] in
/-- The loop does to the buckets what `shiftBack` does to the slots. -/
theorem shiftLoop_shiftBack {left x : Nat} {t : Nat → Option (Bkt K V)} (hx : h.view x = none)
    (ht : shiftBack h.size left h.view x = some t) :
    ∃ g, shiftLoop left h x = (0, g) ∧ SameFrame h g ∧ g.nitems = h.nitems ∧ g.view = t := by
  induction left generalizing h x with
  | zero => contradiction
  | succ left ih =>
      simp only [shiftLoop]
      cases hv : h.view (next h.size x) with
      | none =>
          rw [shiftBack, hv] at ht
          rw [if_pos (.inl (HMap.view_eq_none.mp hv))]
          exact ⟨h, rfl, .rfl, rfl, Option.some.inj ht⟩
      | some e =>
          obtain ⟨hb, he0⟩ := HMap.view_eq_some.mp hv
          rw [shiftBack, hv] at ht
          rw [hb]
          by_cases hpsl : e.psl = 0
          · simp only [if_pos hpsl] at ht
            rw [if_pos (.inr hpsl)]
            exact ⟨h, rfl, .rfl, rfl, Option.some.inj ht⟩
          · simp only [if_neg hpsl] at ht
            rw [if_neg (not_or.mpr ⟨he0, hpsl⟩)]
            obtain ⟨d, hd⟩ : ∃ d, d = (h.setBkt x { e with psl := e.psl - 1 }).setBkt
              (next h.size x) (h.bkts x) := ⟨_, rfl⟩
            -- the swap leaves the empty bucket at the next location
            have hview : d.view = update (update h.view x (some { e with psl := e.psl - 1 }))
                (next h.size x) none := by
              rw [hd, HMap.view_setBkt_zero _ _ (HMap.view_eq_none.mp hx), HMap.view_setBkt]
              exact he0
            have hsize : d.size = h.size := by rw [hd]; rfl
            obtain ⟨g, hrun, hframe, hn, hgt⟩ := ih (h := d) (x := next h.size x)
              (by rw [hview, update_self]) (by rw [hsize, hview]; exact ht)
            rw [hd] at hrun hframe hn
            exact ⟨g, hrun, ⟨hframe.size, hframe.divinfo, hframe.hashkey, hframe.minsize⟩, hn, hgt⟩

/-- What taking a key out leaves, before the table is made smaller. -/
structure Removed (murmurhash3 : K → UInt64 → UInt32) (h : HMap K V) (m : K → Option (Cell V))
    (key : K) (g : HMap K V) : Prop where
  good : Good murmurhash3 g
  frame : SameFrame h g
  nitems : g.nitems + 1 = h.nitems
  rep : Rep g (update m key none)

/-- **Taking out a full bucket** succeeds, and only its pair is gone. -/
theorem shiftLoop_del (hg : Good murmurhash3 h) (hrep : Rep h m) {q : Nat} {e : Bkt K V}
    (hq : q < h.size) (he : h.view q = some e) :
    ∃ g, shiftLoop h.size { h.setBkt q zeroBkt with nitems := h.nitems - 1 } q = (0, g) ∧
      Removed murmurhash3 h m e.key g := by
  obtain ⟨t, ht, hinv, hcount, hholds⟩ := shiftBack_remove hg.inv hq he
  have hview : HMap.view { h.setBkt q zeroBkt with nitems := h.nitems - 1 } =
      update h.view q none := h.view_setBkt_zero q rfl
  obtain ⟨g, hrun, hframe', hn, rfl⟩ : ∃ g, shiftLoop h.size
      { h.setBkt q zeroBkt with nitems := h.nitems - 1 } q = (0, g) ∧
      SameFrame { h.setBkt q zeroBkt with nitems := h.nitems - 1 } g ∧
      g.nitems = h.nitems - 1 ∧ g.view = t :=
    shiftLoop_shiftBack (by rw [hview, update_self]) (by rw [hview]; exact ht)
  have hframe : SameFrame h g :=
    ⟨hframe'.size, hframe'.divinfo, hframe'.hashkey, hframe'.minsize⟩
  rw [← hg.nitems_eq] at hcount
  have hrep' : Rep g (update m e.key none) := by
    intro x c
    rw [hframe.size, hholds, ← hrep]
    by_cases hx : x = e.key
    · rw [hx, update_self]
      simp
    · rw [update_of_ne hx]
      simp [hx]
  refine ⟨g, hrun, ⟨hg.toWellFormed.of_frame hframe hinv (by omega), ?_, ?_, ?_, ?_⟩, hframe,
    by omega, hrep'⟩
  · rw [Spread, hframe.size, hframe.home]
    refine fun hc => hg.spread (hc.mono (fun x hx => ?_) le_rfl)
    obtain ⟨c, hx⟩ := hx
    exact ⟨c, ((hholds x c).mp hx).2⟩
  · rw [hframe.size]
    exact hg.size_ge
  · rw [hframe.minsize]
    exact hg.minsize_ge
  · rw [hframe.size]
    have := hg.load
    omega

/-! ## the smaller table -/

/-- The test of `hmap_del` lets through what `calc_new_size` makes smaller. -/
theorem sparse_of_lt {nitems size : Nat} (hlt : nitems < lowThreshold size) :
    sparse nitems size := by
  rw [lowThreshold, truncRound, Nat.lt_div_iff_mul_lt (Nat.two_pow_pos _)] at hlt
  rw [sparse]
  omega

/-- The map a deletion leaves of `m`: where the table is made smaller it loses its counts. -/
def leftOver (h : HMap K V) (m : K → Option (Cell V)) (k : K) : Option (Cell V) :=
  if Shrinks h then (m k).map once else m k

theorem shrinkIfSparse_spec (hg : Good murmurhash3 h) (hrep : Rep h m)
    (hkeys : Shrinks h → ¬ Crowded (shrunk rnd h).size ((shrunk rnd h).home murmurhash3)
      (fun x => ∃ c, Holds h.size h.view x c) (2 ^ 16)) :
    ∃ g, shrinkIfSparse murmurhash3 codeForUpdate rnd h = some (0, g) ∧ Good murmurhash3 g ∧
      Rep g (leftOver h m) := by
  by_cases hs : Shrinks h
  · have hcrowd := hkeys hs
    obtain ⟨hmin, hlow⟩ := id hs
    have hsparse := sparse_of_lt hlow
    have hlt := hg.size_lt
    have hge : 65536 ≤ h.size := hg.size_ge
    have hminge : 65536 ≤ h.minsize := hg.minsize_ge
    obtain ⟨newsize, hnew⟩ : ∃ n, n = max (h.size / 2) h.minsize := ⟨_, rfl⟩
    have hcalc : calcNewSize h.nitems h.minsize h.size true = some (newsize, true) := by
      rw [calcNewSize, if_pos rfl, if_pos ⟨hmin, hlow⟩, hnew]
    rw [lowThreshold_eq hlt] at hlow
    have hmax : newsize < Hmap.uintMax := by
      have : Hmap.uintMax = 2 ^ 32 - 1 := rfl
      omega
    rw [shrunk, ← hnew] at hcrowd
    obtain ⟨g, hres, hr⟩ : ∃ g, hmapResize murmurhash3 codeForUpdate rnd h newsize = (0, g) ∧
        Rebuilt murmurhash3 h (renewed rnd h newsize) g := by
      refine hmapResize_spec hg.toWellFormed (by omega) hmax ?_ (by omega) hcrowd
      rw [Hmap.highThreshold_eq (by omega)]
      omega
    have hgsize : g.size = newsize := hr.frame.size
    have hrep' := hr.rep hrep
    refine ⟨g, ?_, ⟨hr.wellFormed, ?_, ?_, ?_, ?_⟩, ?_⟩
    · rw [shrinkIfSparse, if_pos hsparse, hcalc, Option.map_some, if_pos rfl, hres]
    · rw [Spread, hr.frame.size, hr.frame.home]
      refine fun hc => hcrowd (hc.mono (fun x hx => ?_) le_rfl)
      rw [← hr.frame.size, hrep'.has_iff] at hx
      obtain ⟨c, hc⟩ := hx
      obtain ⟨d, hd, -⟩ := Option.map_eq_some_iff.mp hc
      exact hrep.has_iff.mpr ⟨d, hd⟩
    · rw [hgsize]
      exact hg.minsize_ge.trans (by omega)
    · rw [hr.frame.minsize]
      exact hg.minsize_ge
    · rw [hr.nitems, hgsize, Hmap.highThreshold_eq (by omega)]
      omega
    · have : leftOver h m = fun k => (m k).map once := funext fun k => if_pos hs
      rw [this]
      exact hrep'
  · have hleft : leftOver h m = m := funext fun k => if_neg hs
    refine ⟨h, ?_, hg, by rw [hleft]; exact hrep⟩
    rw [shrinkIfSparse]
    split
    · have hno : ¬ (h.nitems > h.minsize ∧ h.nitems < lowThreshold h.size) := hs
      rw [calcNewSize, if_pos rfl, if_neg hno]
      rfl
    · rfl

/-! ## the call -/

/-- The keys that are left do not crowd the smaller table, if a deletion of `key` makes one. -/
def Deletable (murmurhash3 : K → UInt64 → UInt32) (rnd : UInt64) (h : HMap K V) (key : K) : Prop :=
  (∃ c, Holds h.size h.view key c) → Shrinks { h with nitems := h.nitems - 1 } →
    ¬ Crowded (shrunk rnd h).size ((shrunk rnd h).home murmurhash3)
      (fun x => x ≠ key ∧ ∃ c, Holds h.size h.view x c) (2 ^ 16)

/-- The map after `hmap_del`. -/
def afterDel (h : HMap K V) (m : K → Option (Cell V)) (key : K) : K → Option (Cell V) :=
  if m key = none then m
  else leftOver { h with nitems := h.nitems - 1 } (update m key none)

/-- **A deletion** takes the key out of the map, and what else it leaves is `leftOver`. -/
theorem hmapDel_spec (hg : Good murmurhash3 h) (hrep : Rep h m)
    (hd : Deletable murmurhash3 rnd h key) :
    ∃ r, hmapDel murmurhash3 codeForUpdate rnd h key = some r ∧ r.status = 0 ∧
      Good murmurhash3 r.hmap ∧ Rep r.hmap (afterDel h m key) := by
  have hhome := hg.home_lt key
  rw [hmapDel, if_neg (Nat.not_le.mpr hhome)]
  cases hm : m key with
  | none =>
      have hpsl : ∀ p e, p < h.size → h.view p = some e → e.psl < 2 ^ 16 := fun p e hp he =>
        hg.spread.psl_lt hg.toWellFormed hg.room hp he
      rw [delFind_fresh hpsl hhome (by omega) (hrep.fresh_iff.mpr hm) (by omega)]
      refine ⟨_, rfl, rfl, hg, ?_⟩
      rw [afterDel, if_pos hm]
      exact hrep
  | some c =>
      have hheld := (hrep key c).mp hm
      obtain ⟨q, e, hq, he, rfl, -⟩ := id hheld
      rw [delFind_held hg hq he]
      simp only [delAt]
      obtain ⟨g, hrun, hrem⟩ := shiftLoop_del hg hrep hq he
      have hgn := hrem.nitems
      have hsh : Shrinks g ↔ Shrinks { h with nitems := h.nitems - 1 } := by
        rw [Shrinks, Shrinks, hrem.frame.minsize, hrem.frame.size,
          show g.nitems = h.nitems - 1 by omega]
      have hnew : (shrunk rnd g).size = (shrunk rnd h).size := by
        simp only [shrunk, renewed, blank, hrem.frame.size, hrem.frame.minsize]
      have hnewHome : (shrunk rnd g).home murmurhash3 = (shrunk rnd h).home murmurhash3 := by
        funext k
        simp only [shrunk, renewed, blank, HMap.home, hrem.frame.size, hrem.frame.minsize,
          hrem.frame.hashkey]
      obtain ⟨g', hs, hgood, hrep'⟩ : ∃ g', shrinkIfSparse murmurhash3 codeForUpdate rnd g =
          some (0, g') ∧ Good murmurhash3 g' ∧ Rep g' (leftOver g (update m e.key none)) := by
        refine shrinkIfSparse_spec hrem.good hrem.rep fun hsg hc => ?_
        rw [hnew, hnewHome] at hc
        refine hd ⟨c, hheld⟩ (hsh.mp hsg) (hc.mono (fun x hx => ?_) le_rfl)
        rw [hrem.rep.has_iff] at hx
        obtain ⟨d, hx⟩ := hx
        by_cases hxk : x = e.key
        · rw [hxk, update_self] at hx
          contradiction
        · rw [update_of_ne hxk] at hx
          exact ⟨hxk, hrep.has_iff.mpr ⟨d, hx⟩⟩
      rw [hrun, if_neg (lt_irrefl _)]
      simp only [hs, Option.map_some]
      refine ⟨_, rfl, rfl, hgood, ?_⟩
      rw [afterDel, if_neg (by rw [hm]; exact Option.some_ne_none c)]
      have hleft : leftOver g (update m e.key none) =
          leftOver { h with nitems := h.nitems - 1 } (update m e.key none) := by
        funext k
        simp only [leftOver, hsh]
      rw [← hleft]
      exact hrep'

end QStore.Magg
