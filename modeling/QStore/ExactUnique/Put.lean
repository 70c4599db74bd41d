import Mathlib.Data.Finset.Card
import QStore.ExactUnique.Insert
import QStore.Lib.Trace

/-!
# QStore.ExactUnique.Put

`hmap_instantiate`, `calc_new_size`, `hmap_resize` and `hmap_put` of `approxalgos/ExactUnique`,
and runs of puts.

A resize inserts every key of the old table into a new one and does not look at the statuses; it
loses none, because the new table has room (`reinsert_spec`). So as long as no probe length
leaves its 16 bits, `nitems` counts the distinct keys that have been put, apart from 0.
-/

namespace QStore.ExactUnique

open QStore.Ring QStore.RobinHood Function Hmap

/-- `hmap_instantiate`; `rnd` is what the generator of random numbers gives. The sizes are stored
in `uint32_t`s. `none`: the call crashes, `fast_div32_init` divides by zero. -/
def hmapInstantiate (minsize maxsize : Nat) (rnd : UInt64) : Option HMap :=
  let size := max minsize hashMinSize % 2 ^ 32
  if size = 0 then none
  else some
    { size := size
      nitems := 0
      divinfo := fastDiv32Init size
      bkts := fun _ => zeroBkt
      hashkey := rnd
      minsize := size
      maxsize := max maxsize size % 2 ^ 32
      hasZero := false
      isApprox := false }

/-- The loop of `calc_new_size`. Its body does not depend on the turn, so it ends after the first
or never: `none`. -/
def growSize (nitems size : Nat) : Option Nat :=
  let newsize := min (2 * size % 2 ^ 32) ((size + maxGrowthStep) % 2 ^ 32)
  if nitems > highThreshold newsize then none else some newsize

/-- `calc_new_size`: the status, the new size and whether to resize. `UINT_MAX * 0.85` is
`3650722200.75`. -/
def calcNewSize (nitems maxsize size : Nat) : Option (Int × Nat × Bool) :=
  let resize := decide (nitems > highThreshold size)
  (if resize then growSize nitems size else some 0).map fun newsize =>
    if newsize > 3650722200 then (-1, 0, resize)
    else if newsize > maxsize then (-1, 0, resize)
    else (0, newsize, resize)

/-- The loop of `hmap_resize` over the old buckets, from `i`, with `left` of them to go. -/
def reinsert (murmurhash3 : UInt64 → UInt64 → UInt32) (bkts : Nat → Bkt) :
    Nat → Nat → HMap → HMap
  | 0, _, h => h
  | left + 1, i, h =>
      if (bkts i).key = 0 then reinsert murmurhash3 bkts left (i + 1) h
      else reinsert murmurhash3 bkts left (i + 1) (hmapInsert murmurhash3 h (bkts i).key 0).2

/-- The new table of `hmap_resize`, before anything is in it. -/
def renewed (rnd : UInt64) (h : HMap) (newsize : Nat) : HMap :=
  { h with
    size := newsize
    nitems := 0
    divinfo := fastDiv32Init newsize
    bkts := fun _ => zeroBkt
    hashkey := h.hashkey ^^^ rnd }

/-- `hmap_resize` -/
def hmapResize (murmurhash3 : UInt64 → UInt64 → UInt32) (rnd : UInt64) (h : HMap)
    (newsize : Nat) : Int × HMap :=
  if newsize ≤ 0 ∨ newsize ≥ uintMax then (-1, h)
  else if newsize < highThreshold h.nitems then (-1, h)
  else (0, reinsert murmurhash3 h.bkts h.size 0 (renewed rnd h newsize))

/-- `hmap_put`. `none`: `calc_new_size` never returns. -/
def hmapPut (murmurhash3 : UInt64 → UInt64 → UInt32) (rnd : UInt64) (h : HMap) (key : UInt64)
    (hash : UInt32) : Option (Int × HMap) :=
  if Binary64.exceeds h.nitems (7656119366529843 * h.size) (2 ^ 53) then
    (calcNewSize h.nitems h.maxsize h.size).map fun c =>
      if c.1 < 0 then (-1, { h with isApprox := true })
      else if c.2.2 then
        let r := hmapResize murmurhash3 rnd h c.2.1
        if r.1 < 0 then r else hmapInsert murmurhash3 r.2 key hash
      else hmapInsert murmurhash3 h key hash
  else some (hmapInsert murmurhash3 h key hash)

/-! ## Rebuilding -/

section Rebuild

variable {murmurhash3 : UInt64 → UInt64 → UInt32} {h g : HMap} {rnd : UInt64} {newsize : Nat}

theorem wellFormed_renewed (hpos : 0 < newsize) (hlt : newsize < 2 ^ 32) :
    WellFormed murmurhash3 (renewed rnd h newsize) where
  size_pos := hpos
  size_lt := hlt
  divinfo_eq := rfl
  inv := Inv.empty hpos
  nitems_eq := by simp [renewed, count, HMap.view, zeroBkt]

/-- The loop of a resize, from slot `i`: the new table holds what the old one holds before `i`. -/
theorem reinsert_spec (hwf : WellFormed murmurhash3 h) {left i : Nat} (hleft : i + left = h.size)
    (hg : WellFormed murmurhash3 g) (hsmall : g.size < 2 ^ 16) (hroom : h.nitems ≤ g.size)
    (hn : g.nitems = count i h.view) (hcnt : ∀ k c, Holds h.size h.view k c → c = 0)
    (hholds : ∀ k c, Holds g.size g.view k c ↔ Holds i h.view k c) :
    WellFormed murmurhash3 (reinsert murmurhash3 h.bkts left i g) ∧
      SameFrame g (reinsert murmurhash3 h.bkts left i g) ∧
      (reinsert murmurhash3 h.bkts left i g).nitems = h.nitems ∧
      ∀ k c, Holds (reinsert murmurhash3 h.bkts left i g).size
        (reinsert murmurhash3 h.bkts left i g).view k c ↔ Holds h.size h.view k c := by
  induction left generalizing i g with
  | zero =>
      obtain rfl : i = h.size := by omega
      exact ⟨hg, .rfl, hn.trans hwf.nitems_eq.symm, hholds⟩
  | succ left ih =>
      by_cases hempty : (h.bkts i).key = 0
      · have hnone := HMap.view_eq_none.mpr hempty
        rw [reinsert, if_pos hempty]
        refine ih (by omega) hg hsmall hroom (by rw [hn, count_succ_of_none hnone]) ?_
        intro k c
        rw [hholds, holds_succ, hnone]
        simp
      · have he := HMap.view_eq_some.mpr ⟨rfl, hempty⟩
        have hzero : (h.bkts i).val = 0 := hcnt _ _ ⟨i, _, by omega, he, rfl, rfl⟩
        -- the new table lacks the key: no other old bucket has it
        have hfresh : Fresh g.size g.view (h.bkts i).key := by
          rw [fresh_iff_not_holds]
          intro c hc
          obtain ⟨p, e, hp, hpe, hk, -⟩ := (hholds _ c).mp hc
          have := hwf.inv.inj p i e _ (by omega) (by omega) hpe he hk
          omega
        have hlt : g.nitems < g.size := by
          have hmono := count_mono (t := h.view) (show i + 1 ≤ h.size by omega)
          rw [count_succ_of_some he, ← hwf.nitems_eq] at hmono
          omega
        obtain ⟨g', hg', hins⟩ := hmapInsert_fresh hg hsmall hempty hfresh hlt
        have hrest := ih (i := i + 1) (g := g') (by omega) hins.wellFormed
          (by rw [hins.frame.size]; exact hsmall) (by rw [hins.frame.size]; exact hroom)
          (by rw [hins.nitems, hn, count_succ_of_some he])
          (by
            intro k c
            rw [hins.holds, hholds, holds_succ, he]
            simp [hzero])
        rw [reinsert, if_neg hempty, hg']
        exact ⟨hrest.1, hins.frame.trans hrest.2.1, hrest.2.2⟩

theorem reinsert_size {bkts : Nat → Bkt} {left i : Nat} :
    (reinsert murmurhash3 bkts left i g).size = g.size := by
  induction left generalizing i g with
  | zero => rfl
  | succ left ih =>
      rw [reinsert]
      split
      · exact ih
      · exact ih.trans hmapInsert_size

theorem hmapResize_size (h0 : 0 ≤ (hmapResize murmurhash3 rnd h newsize).1) :
    (hmapResize murmurhash3 rnd h newsize).2.size = newsize := by
  rw [hmapResize] at h0 ⊢
  split at h0
  · exact absurd h0 (by simp)
  · next hlt =>
    rw [if_neg hlt]
    split at h0
    · exact absurd h0 (by simp)
    · next hthr =>
      rw [if_neg hthr]
      exact reinsert_size

end Rebuild

/-! ## One put -/

/-- What the map owes to the set of keys that have been put. -/
structure Keeps (murmurhash3 : UInt64 → UInt64 → UInt32) (h : HMap) (S : Finset UInt64) :
    Prop where
  wellFormed : WellFormed murmurhash3 h
  loaded : h.nitems ≤ highThreshold h.size + 1
  nitems : h.nitems = (S.erase 0).card
  zero : h.hasZero = true ↔ 0 ∈ S
  holds : ∀ k c, Holds h.size h.view k c ↔ (k ∈ S ∧ k ≠ 0) ∧ c = 0

section Put

variable {murmurhash3 : UInt64 → UInt64 → UInt32} {h g : HMap} {rnd key : UInt64}
  {S : Finset UInt64}

theorem keeps_instantiate (murmurhash3 : UInt64 → UInt64 → UInt32) {minsize maxsize : Nat}
    (hi : hmapInstantiate minsize maxsize rnd = some h) : Keeps murmurhash3 h ∅ := by
  simp only [hmapInstantiate] at hi
  split at hi
  · contradiction
  · next hpos =>
    rw [← Option.some.inj hi]
    have hwf : WellFormed murmurhash3 (renewed rnd
        ⟨0, 0, 0, fun _ => zeroBkt, 0, max minsize hashMinSize % 2 ^ 32,
          max maxsize (max minsize hashMinSize % 2 ^ 32) % 2 ^ 32, false, false⟩
        (max minsize hashMinSize % 2 ^ 32)) :=
      wellFormed_renewed (Nat.pos_of_ne_zero hpos) (Nat.mod_lt _ (Nat.two_pow_pos 32))
    refine ⟨⟨hwf.size_pos, hwf.size_lt, hwf.divinfo_eq, Inv.empty hwf.size_pos, hwf.nitems_eq⟩,
      Nat.zero_le _, by simp, by simp, ?_⟩
    intro k c
    simp [Holds, HMap.view, zeroBkt]

/-- An insertion into a table with room adds its key. -/
theorem hmapInsert_keeps (key : UInt64) (hk : Keeps murmurhash3 g S) (hsmall : g.size < 2 ^ 16)
    (hload : g.nitems ≤ highThreshold g.size) :
    (hmapInsert murmurhash3 g key 0).1 = 0 ∧
      Keeps murmurhash3 (hmapInsert murmurhash3 g key 0).2 (insert key S) := by
  have hpos := hk.wellFormed.size_pos
  have hthr : highThreshold g.size = 17 * g.size / 20 := highThreshold_eq (by omega)
  by_cases hzero : key = 0
  · subst hzero
    rw [hmapInsert, if_pos rfl]
    refine ⟨rfl, ⟨hk.wellFormed.size_pos, hk.wellFormed.size_lt, hk.wellFormed.divinfo_eq,
      hk.wellFormed.inv, hk.wellFormed.nitems_eq⟩, hk.loaded, ?_, by simp, ?_⟩
    · rw [Finset.erase_insert_eq_erase]
      exact hk.nitems
    · intro k c
      refine (hk.holds k c).trans (and_congr_left fun _ => ?_)
      constructor
      · intro h
        exact ⟨Finset.mem_insert_of_mem h.1, h.2⟩
      · intro h
        exact ⟨Finset.mem_of_mem_insert_of_ne h.1 h.2, h.2⟩
  · by_cases hmem : key ∈ S
    · rw [hmapInsert_present hk.wellFormed hsmall ((hk.holds key 0).mpr ⟨⟨hmem, hzero⟩, rfl⟩),
        Finset.insert_eq_of_mem hmem]
      exact ⟨rfl, hk⟩
    · have hfresh : Fresh g.size g.view key := by
        rw [fresh_iff_not_holds]
        exact fun c hc => hmem ((hk.holds key c).mp hc).1.1
      obtain ⟨g', hg', hins⟩ := hmapInsert_fresh hk.wellFormed hsmall hzero hfresh (by omega)
      rw [hg']
      refine ⟨rfl, hins.wellFormed, ?_, ?_, ?_, ?_⟩
      · rw [hins.nitems, hins.frame.size]
        omega
      · rw [hins.nitems, hk.nitems, Finset.erase_insert_of_ne hzero,
          Finset.card_insert_of_notMem fun h => hmem (Finset.mem_of_mem_erase h)]
      · rw [hins.frame.hasZero, hk.zero, Finset.mem_insert]
        exact (or_iff_right (Ne.symm hzero)).symm
      · intro k c
        rw [hins.holds, hk.holds, Finset.mem_insert]
        by_cases hkk : k = key
        · subst hkk
          simp [hmem, hzero, eq_comm]
        · simp [hkk, Ne.symm hkk]

/-- A table that is too full is rebuilt with the same keys. -/
theorem hmapResize_keeps (rnd : UInt64) (hk : Keeps murmurhash3 h S) {newsize : Nat}
    (hpos : 0 < newsize) (hsmall : newsize < 2 ^ 16) (hroom : h.nitems ≤ highThreshold newsize) :
    (hmapResize murmurhash3 rnd h newsize).1 = 0 ∧
      Keeps murmurhash3 (hmapResize murmurhash3 rnd h newsize).2 S ∧
      (hmapResize murmurhash3 rnd h newsize).2.size = newsize ∧
      (hmapResize murmurhash3 rnd h newsize).2.nitems = h.nitems := by
  have hthr : highThreshold newsize = 17 * newsize / 20 := highThreshold_eq (by omega)
  have hthr' : highThreshold h.nitems = 17 * h.nitems / 20 := highThreshold_eq (by omega)
  obtain ⟨hwf, hframe, hn, hholds⟩ := reinsert_spec (i := 0) (g := renewed rnd h newsize)
    hk.wellFormed (Nat.zero_add _) (wellFormed_renewed hpos (by omega)) hsmall
    (by simp only [renewed]; omega) (by simp [count, renewed])
    (fun k c hc => ((hk.holds k c).mp hc).2)
    (by intro k c; simp [Holds, renewed, HMap.view, zeroBkt])
  rw [hmapResize, if_neg (by unfold uintMax; omega), if_neg (by omega)]
  refine ⟨rfl, ⟨hwf, ?_, hn.trans hk.nitems, ?_, fun k c => (hholds k c).trans (hk.holds k c)⟩,
    hframe.size, hn⟩
  · rw [hn, hframe.size]
    exact hroom.trans (Nat.le_succ _)
  · rw [hframe.hasZero]
    exact hk.zero

/-- **A put that succeeds adds its key**, as long as the table stays below `2^16` buckets. -/
theorem hmapPut_keeps (hk : Keeps murmurhash3 h S) {r : Int × HMap}
    (hp : hmapPut murmurhash3 rnd h key 0 = some r) (hst : 0 ≤ r.1) (hsmall : h.size < 2 ^ 16)
    (hsmall' : r.2.size < 2 ^ 16) : Keeps murmurhash3 r.2 (insert key S) := by
  have hthr : highThreshold h.size = 17 * h.size / 20 := highThreshold_eq (by omega)
  have hpos := hk.wellFormed.size_pos
  have hload := hk.loaded
  have hfull : Binary64.exceeds h.nitems (7656119366529843 * h.size) (2 ^ 53) ↔
      highThreshold h.size < h.nitems := Binary64.exceeds_iff
  rw [hmapPut] at hp
  by_cases hgt : highThreshold h.size < h.nitems
  · rw [if_pos (hfull.mpr hgt), Option.map_eq_some_iff] at hp
    obtain ⟨c, hc, hcr⟩ := hp
    have hthr2 : highThreshold (2 * h.size) = 17 * (2 * h.size) / 20 := highThreshold_eq (by omega)
    have hone : h.size = 1 ∨ 2 ≤ h.size := by omega
    have hfit : h.nitems ≤ highThreshold (2 * h.size) := by omega
    have hnew : growSize h.nitems h.size = some (2 * h.size) := by
      have hmin : min (2 * h.size % 2 ^ 32) ((h.size + maxGrowthStep) % 2 ^ 32) = 2 * h.size := by
        unfold maxGrowthStep
        rw [Nat.mod_eq_of_lt (by omega), Nat.mod_eq_of_lt (by omega), Nat.min_eq_left (by omega)]
      simp only [growSize, hmin]
      exact if_neg (Nat.not_lt.mpr hfit)
    simp only [calcNewSize, hgt, gt_iff_lt, decide_true, if_true, hnew, Option.map_some,
      Option.some.injEq] at hc
    rw [if_neg (by omega)] at hc
    by_cases hmax : 2 * h.size > h.maxsize
    · rw [if_pos hmax] at hc
      rw [← hc] at hcr
      rw [← hcr] at hst
      exact absurd hst (by simp)
    · rw [if_neg hmax] at hc
      rw [← hc] at hcr
      simp only [Int.lt_irrefl, if_false, if_true] at hcr
      -- the size after the put is the one the table is rebuilt with
      have hnewsmall : 2 * h.size < 2 ^ 16 := by
        by_contra hbig
        split at hcr
        · next hneg =>
          rw [hcr] at hneg
          omega
        · next hneg =>
          rw [← hcr, hmapInsert_size, hmapResize_size (by omega)] at hsmall'
          omega
      obtain ⟨hr0, hkr, hsize, hn⟩ := hmapResize_keeps rnd hk
        (show 0 < 2 * h.size by omega) hnewsmall hfit
      rw [hr0, if_neg (by decide)] at hcr
      rw [← hcr]
      refine (hmapInsert_keeps key hkr ?_ ?_).2
      · rw [hsize]
        exact hnewsmall
      · rw [hsize, hn]
        exact hfit
  · rw [if_neg fun h => hgt (hfull.mp h)] at hp
    rw [← Option.some.inj hp]
    exact (hmapInsert_keeps key hk hsmall (by omega)).2

end Put

/-! ## Runs -/

section Run

variable {murmurhash3 : UInt64 → UInt64 → UInt32}

/-- `hmap_put(key, 0)`, with what the generator of random numbers gives in it. It leads on where
it returns success. -/
def putCall (murmurhash3 : UInt64 → UInt64 → UInt32) (call : UInt64 × UInt64) (h : HMap) :
    Option HMap :=
  (hmapPut murmurhash3 call.2 h call.1 0).bind fun r => if 0 ≤ r.1 then some r.2 else none

/-- The map counts the distinct keys that have been put, and has those other than 0. -/
structure Counted (h : HMap) (keys : List UInt64) : Prop where
  count : h.nitems + (if h.hasZero then 1 else 0) = keys.toFinset.card
  keys : ∀ k, k ≠ 0 → ((∃ p, p < h.size ∧ (h.bkts p).key = k) ↔ k ∈ keys)

theorem Keeps.counted {h : HMap} {keys : List UInt64} (hk : Keeps murmurhash3 h keys.toFinset) :
    Counted h keys where
  count := by
    rw [hk.nitems]
    by_cases h0 : 0 ∈ keys.toFinset
    · rw [if_pos (hk.zero.mpr h0), Finset.card_erase_of_mem h0]
      have := Finset.card_pos.mpr ⟨0, h0⟩
      omega
    · rw [if_neg fun hz => h0 (hk.zero.mp hz), Finset.erase_eq_of_notMem h0]
      rfl
  keys := by
    intro k hk0
    rw [← List.mem_toFinset]
    constructor
    · rintro ⟨p, hp, rfl⟩
      exact ((hk.holds _ _).mp ⟨p, _, hp, HMap.view_eq_some.mpr ⟨rfl, hk0⟩, rfl, rfl⟩).1.1
    · intro hmem
      obtain ⟨p, e, hp, he, hke, -⟩ := (hk.holds k 0).mpr ⟨⟨hmem, hk0⟩, rfl⟩
      exact ⟨p, hp, by rw [(HMap.view_eq_some.mp he).1, hke]⟩

theorem putCall_keeps {call : UInt64 × UInt64} {h g : HMap} {S : Finset UInt64}
    (hk : Keeps murmurhash3 h S) (hc : putCall murmurhash3 call h = some g)
    (hsmall : h.size < 2 ^ 16) (hsmall' : g.size < 2 ^ 16) :
    Keeps murmurhash3 g (insert call.1 S) := by
  rw [putCall, Option.bind_eq_some_iff] at hc
  obtain ⟨r, hp, hst⟩ := hc
  by_cases h0 : 0 ≤ r.1
  · rw [if_pos h0] at hst
    have hrg : r.2 = g := Option.some.inj hst
    rw [← hrg] at hsmall' ⊢
    exact hmapPut_keeps hk hp h0 hsmall hsmall'
  · rw [if_neg h0] at hst
    contradiction

/-- What the puts so far have added, successful puts add to. -/
theorem runAll_keeps {calls : List (UInt64 × UInt64)} {h g : HMap} {S : Finset UInt64}
    (hk : Keeps murmurhash3 h S) (hr : runAll (putCall murmurhash3) calls h = some g)
    (hsmall : ∀ t ∈ visits (putCall murmurhash3) calls h, t.size < 2 ^ 16) :
    Keeps murmurhash3 g (S ∪ (calls.map Prod.fst).toFinset) := by
  induction calls generalizing h S with
  | nil =>
      rw [runAll] at hr
      rw [← Option.some.inj hr, List.map_nil, List.toFinset_nil, Finset.union_empty]
      exact hk
  | cons c calls ih =>
      rw [runAll, Option.bind_eq_some_iff] at hr
      obtain ⟨t, hc, hr⟩ := hr
      rw [visits, hc, List.forall_mem_cons] at hsmall
      have hput := putCall_keeps hk hc hsmall.1 (hsmall.2 t self_mem_visits)
      have hkeeps := ih hput hr hsmall.2
      rw [List.map_cons, List.toFinset_cons, Finset.union_insert, ← Finset.insert_union]
      exact hkeeps

/-- **The count is exact** after every sequence of puts that succeed. -/
theorem puts_counted {minsize maxsize : Nat} {rnd : UInt64} {calls : List (UInt64 × UInt64)}
    {h g : HMap} (hi : hmapInstantiate minsize maxsize rnd = some h)
    (hr : runAll (putCall murmurhash3) calls h = some g)
    (hsmall : ∀ t ∈ visits (putCall murmurhash3) calls h, t.size < 2 ^ 16) :
    Counted g (calls.map Prod.fst) := by
  have hk := runAll_keeps (keeps_instantiate murmurhash3 hi) hr hsmall
  rw [Finset.empty_union] at hk
  exact hk.counted

/-- The keys 7, 0, 9 and again 7. -/
def fourPuts : List (UInt64 × UInt64) := [(7, 1), (0, 2), (9, 3), (7, 4)]

theorem isSome_fourPuts :
    ((hmapInstantiate 0 0 1).bind (runAll (putCall fun _ _ => 0) fourPuts)).isSome = true := by
  decide +kernel

theorem size_fourPuts : ∀ h ∈ hmapInstantiate 0 0 1,
    ∀ t ∈ visits (putCall fun _ _ => 0) fourPuts h, t.size < 2 ^ 16 := by
  decide +kernel

/-- They are put into a new map, where they have one home, and three are counted. -/
theorem puts_counted_four : ∃ h g, hmapInstantiate 0 0 1 = some h ∧
    runAll (putCall fun _ _ => 0) fourPuts h = some g ∧ Counted g [7, 0, 9, 7] := by
  obtain ⟨g, hg⟩ := Option.isSome_iff_exists.mp isSome_fourPuts
  obtain ⟨h, hi, hr⟩ := Option.bind_eq_some_iff.mp hg
  exact ⟨h, g, hi, hr, puts_counted hi hr (size_fourPuts h hi)⟩

end Run

end QStore.ExactUnique
