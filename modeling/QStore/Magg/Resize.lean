import QStore.Hmap.Size
import QStore.Magg.Insert

/-!
# QStore.Magg.Resize

The map of an aggregator made (`hmap_create.c`) and rebuilt (`calc_new_size.c`,
`hmap_resize.tmpl.lua`).

A resize puts the keys and the values of the old table into a new one, through
`hmap_insert`, which counts them as put once. The counts of the old table are lost.
-/

namespace QStore.Magg

open QStore.Ring QStore.RobinHood QStore.Binary64 Function

/-- `HASH_INIT_SIZE` -/
def hashInitSize : Nat := 65536

/-- `(uint64_t)(LOW_WATER_MARK * size)`, for the `LOW_WATER_MARK` 0.4 of an aggregator. -/
def lowThreshold (n : Nat) : Nat := truncRound (3602879701896397 * n) (2 ^ 53)

theorem lowThreshold_eq {n : Nat} (h : n < 2 ^ 32) : lowThreshold n = 2 * n / 5 :=
  truncRound_eq (by norm_num) (by omega) (by omega) (by omega)

/-- The loop of `calc_new_size`. Its body does not depend on the turn, so it ends after the
first or never: `none`. `size << 1` and `size + MAX_GROWTH_STEP` are `uint32_t`s. -/
def growSize (nitems size : Nat) : Option Nat :=
  let newsize := min (2 * size % 2 ^ 32) ((size + Hmap.maxGrowthStep) % 2 ^ 32)
  if nitems > Hmap.highThreshold newsize then none else some newsize

/-- `calc_new_size`: the new size and whether to resize. It never fails. -/
def calcNewSize (nitems minsize size : Nat) (decreasing : Bool) : Option (Nat × Bool) :=
  if decreasing then
    if nitems > minsize ∧ nitems < lowThreshold size then some (max (size / 2) minsize, true)
    else some (0, false)
  else if nitems > Hmap.highThreshold size then (growSize nitems size).map fun n => (n, true)
  else some (0, false)

section Model

variable {K V : Type} [DecidableEq K] [Zero K] [Zero V]

omit [DecidableEq K] in
/-- A table of `size` buckets that `calloc` has made. -/
def blank (size : Nat) (hashkey : UInt64) (minsize : Nat) : HMap K V where
  size := size
  nitems := 0
  divinfo := Hmap.fastDiv32Init size
  bkts := fun _ => zeroBkt
  hashkey := hashkey
  minsize := minsize

omit [DecidableEq K] in
/-- `hmap_create`; `rnd` is what the generator of random numbers gives. The size is stored in a
`uint32_t`. `none`: the call crashes, `fast_div32_init` divides by zero. -/
def hmapCreate (minsize : Nat) (rnd : UInt64) : Option (HMap K V) :=
  let size := max minsize hashInitSize % 2 ^ 32
  if size = 0 then none else some (blank size rnd size)

variable (murmurhash3 : K → UInt64 → UInt32) (codeForUpdate : V → V → V)

/-- The loop of `hmap_resize` over the old buckets, from `i`, with `left` of them to go. -/
def reinsert (bkts : Nat → Bkt K V) : Nat → Nat → HMap K V → Int × HMap K V
  | 0, _, h => (0, h)
  | left + 1, i, h =>
      if (bkts i).key = 0 then reinsert bkts left (i + 1) h
      else
        let r := hmapInsert murmurhash3 codeForUpdate h (bkts i).key (bkts i).val.val
        if r.updated then (-1, r.hmap) else reinsert bkts left (i + 1) r.hmap

omit [DecidableEq K] in
/-- The new table of `hmap_resize`, before anything is in it. -/
def renewed (rnd : UInt64) (h : HMap K V) (newsize : Nat) : HMap K V :=
  blank newsize (h.hashkey ^^^ rnd) h.minsize

/-- `hmap_resize` -/
def hmapResize (rnd : UInt64) (h : HMap K V) (newsize : Nat) : Int × HMap K V :=
  if newsize ≤ 0 ∨ newsize ≥ Hmap.uintMax then (-1, h)
  else if newsize < Hmap.highThreshold h.nitems then (-1, h)
  else reinsert murmurhash3 codeForUpdate h.bkts h.size 0 (renewed rnd h newsize)

end Model

/-! ## the keys go over -/

variable {K V : Type} [DecidableEq K] [Zero K] [Zero V] {murmurhash3 : K → UInt64 → UInt32}
  {codeForUpdate : V → V → V} {h g : HMap K V} {rnd : UInt64} {newsize : Nat}

variable {size minsize : Nat} {hashkey : UInt64}

theorem view_blank : (blank size hashkey minsize : HMap K V).view = fun _ => none := by
  funext p
  exact if_pos rfl

theorem count_blank :
    count size (blank size hashkey minsize : HMap K V).view = 0 := by
  rw [view_blank]
  simp [count]

theorem holds_blank {k : K} {c : Cell V} :
    ¬ Holds size (blank size hashkey minsize : HMap K V).view k c := by
  rw [view_blank]
  rintro ⟨p, e, -, he, -⟩
  contradiction

theorem wellFormed_blank (hpos : 0 < size) (hlt : size < 2 ^ 32) :
    WellFormed murmurhash3 (blank size hashkey minsize : HMap K V) where
  size_pos := hpos
  size_lt := hlt
  divinfo_eq := rfl
  inv := by
    rw [view_blank]
    exact Inv.empty hpos
  nitems_eq := count_blank.symm

/-- What the rebuilt table has of a pair: the value, put once. -/
def once (c : Cell V) : Cell V := ⟨c.val, 1⟩

/-- The cell an old bucket becomes. -/
def Recounted (P : K → Cell V → Prop) (k : K) (c : Cell V) : Prop := ∃ d, P k d ∧ once d = c

omit [DecidableEq K] [Zero K] [Zero V] in
/-- One more bucket that goes over. -/
theorem recounted_succ {t : Nat → Option (Bkt K V)} {i : Nat} {e : Bkt K V} (he : t i = some e)
    (k : K) (c : Cell V) : Recounted (Holds (i + 1) t) k c ↔
      Recounted (Holds i t) k c ∨ (e.key = k ∧ once e.val = c) := by
  simp only [Recounted, holds_succ, he, Option.some.injEq, exists_eq_left', or_and_right,
    exists_or, and_assoc, exists_and_left]

/-- A table that `hmap_resize` has filled. -/
structure Rebuilt (murmurhash3 : K → UInt64 → UInt32) (h g g' : HMap K V) : Prop where
  wellFormed : WellFormed murmurhash3 g'
  frame : SameFrame g g'
  nitems : g'.nitems = h.nitems
  holds : ∀ k c, Holds g'.size g'.view k c ↔ Recounted (Holds h.size h.view) k c

/-- The loop, from slot `i`: the new table has what the old one has before `i`. -/
theorem reinsert_spec (hwf : WellFormed murmurhash3 h) {left i : Nat} (hleft : i + left = h.size)
    (hg : WellFormed murmurhash3 g) (hroom : h.nitems ≤ g.size)
    (hkeys : ¬ Crowded g.size (g.home murmurhash3) (fun x => ∃ c, Holds h.size h.view x c) (2 ^ 16))
    (hn : g.nitems = count i h.view)
    (hholds : ∀ k c, Holds g.size g.view k c ↔ Recounted (Holds i h.view) k c) :
    ∃ g', reinsert murmurhash3 codeForUpdate h.bkts left i g = (0, g') ∧
      Rebuilt murmurhash3 h g g' := by
  induction left generalizing i g with
  | zero =>
      obtain rfl : i = h.size := by omega
      exact ⟨g, rfl, hg, .rfl, hn.trans hwf.nitems_eq.symm, hholds⟩
  | succ left ih =>
      by_cases hempty : (h.bkts i).key = 0
      · have hnone := HMap.view_eq_none.mpr hempty
        rw [reinsert, if_pos hempty]
        refine ih (by omega) hg hroom hkeys (by rw [hn, count_succ_of_none hnone]) fun k c => ?_
        rw [hholds, Recounted, Recounted]
        simp only [holds_succ, hnone, reduceCtorEq, false_and, exists_false, or_false]
      · have he := HMap.view_eq_some.mpr ⟨rfl, hempty⟩
        -- the new table lacks the key: no other old bucket has it
        have hfresh : Fresh g.size g.view (h.bkts i).key := by
          rw [fresh_iff_not_holds]
          intro c hc
          obtain ⟨d, ⟨p, e, hp, hpe, hk, -⟩, -⟩ := (hholds _ c).mp hc
          have := hwf.inv.inj p i e _ (by omega) (by omega) hpe he hk
          omega
        have hlt : g.nitems < g.size := by
          have hmono := count_mono (t := h.view) (show i + 1 ≤ h.size by omega)
          rw [count_succ_of_some he, ← hwf.nitems_eq] at hmono
          omega
        have hcrowd : ¬ Crowded g.size (g.home murmurhash3)
            (fun x => x = (h.bkts i).key ∨ ∃ c, Holds g.size g.view x c) (2 ^ 16) := by
          refine fun hc => hkeys (hc.mono (fun x hx => ?_) le_rfl)
          cases hx with
          | inl hx => exact ⟨_, i, _, by omega, he, hx.symm, rfl⟩
          | inr hx =>
            obtain ⟨c, hc⟩ := hx
            obtain ⟨d, ⟨p, e, hp, hrest⟩, -⟩ := (hholds x c).mp hc
            exact ⟨_, p, e, by omega, hrest⟩
        obtain ⟨g', hg', hins⟩ : ∃ g', hmapInsert murmurhash3 codeForUpdate g (h.bkts i).key
            (h.bkts i).val.val = ⟨0, 0, false, g'⟩ ∧
              Inserted murmurhash3 g g' (h.bkts i).key (h.bkts i).val.val :=
          hmapInsert_fresh hg hempty hfresh hlt hcrowd
        have hsize := hins.frame.size
        have hhome : g'.home murmurhash3 = g.home murmurhash3 := hins.frame.home
        obtain ⟨g'', hrun, hr⟩ := ih (show i + 1 + left = h.size by omega) hins.wellFormed
          (by rw [hsize]; exact hroom) (by rw [hsize, hhome]; exact hkeys)
          (by rw [hins.nitems, hn, count_succ_of_some he])
          (by
            intro k c
            rw [hins.holds, hholds, recounted_succ he]
            rfl)
        rw [reinsert, if_neg hempty, hg']
        simp only [Bool.false_eq_true, if_false]
        exact ⟨g'', hrun, hr.wellFormed, hins.frame.trans hr.frame, hr.nitems, hr.holds⟩

/-- **A resize to a size that is enough** rebuilds the table, each key as put once. -/
theorem hmapResize_spec (hwf : WellFormed murmurhash3 h) (hpos : 0 < newsize)
    (hmax : newsize < Hmap.uintMax) (hthr : Hmap.highThreshold h.nitems ≤ newsize)
    (hroom : h.nitems ≤ newsize)
    (hkeys : ¬ Crowded newsize ((renewed rnd h newsize).home murmurhash3)
      (fun x => ∃ c, Holds h.size h.view x c) (2 ^ 16)) :
    ∃ g, hmapResize murmurhash3 codeForUpdate rnd h newsize = (0, g) ∧
      Rebuilt murmurhash3 h (renewed rnd h newsize) g := by
  have hmax' : newsize < 2 ^ 32 - 1 := hmax
  rw [hmapResize, if_neg (by omega), if_neg (by omega)]
  refine reinsert_spec hwf (Nat.zero_add _) (wellFormed_blank hpos (by omega)) hroom hkeys
    (by simp [renewed, blank, count]) fun k c => iff_of_false holds_blank ?_
  simp [Recounted, Holds]

omit [Zero V] in
/-- As a map: the resize loses the counts. -/
theorem Rebuilt.rep {g' : HMap K V} {m : K → Option (Cell V)} (hr : Rebuilt murmurhash3 h g g')
    (hrep : Rep h m) : Rep g' fun k => (m k).map once := by
  intro k c
  rw [hr.holds, Option.map_eq_some_iff]
  exact exists_congr fun d => and_congr_left fun _ => hrep k d

end QStore.Magg
