import QStore.Hmap.Insert

/-!
# QStore.Hmap.Put

`rs_hmap_resize` and `rs_hmap_put`. A resize rebuilds the table under a new
hash key: every full bucket of the old table is inserted into a zeroed one. A
put grows a table that is too full and then inserts.

`growIfFull` is the part of `rs_hmap_put` before the insertion. It is kept as a
function of its own because a put it refuses changes nothing.
-/

namespace QStore.Hmap

open QStore.Ring QStore.RobinHood Function

variable {K V : Type}

/-- The loop of `rs_hmap_resize` over the old buckets, from `i`, with `left` of
them to go. `status` is what the last insertion returned. -/
def reinsert (F : FnPtrs K V) (bkts : Nat → Bkt K V) (bktFull : Nat → Bool) :
    Nat → Nat → Int → RsHmap K V → Int × RsHmap K V
  | 0, _, status, h => (status, h)
  | left + 1, i, status, h =>
      if bktFull i = false then reinsert F bkts bktFull left (i + 1) status h
      else
        let r := rsHmapInsert F h (bkts i).key (bkts i).val
        if r.1 < 0 then r else reinsert F bkts bktFull left (i + 1) r.1 r.2

/-- `rs_hmap_resize`; `hashkey` is the random key it draws. -/
def rsHmapResize [Zero K] [Zero V] (F : FnPtrs K V) (hashkey : UInt64) (h : RsHmap K V)
    (newsize : Nat) : Int × RsHmap K V :=
  if newsize ≤ 0 ∨ newsize ≥ uintMax then (-1, h)
  else if newsize < highThreshold h.nitems then (-1, h)
  else
    let r := reinsert F h.bkts h.bktFull h.size 0 0
      (blank newsize hashkey h.config h.pslWrapped)
    if r.1 < 0 then r
    else if r.2.nitems ≠ h.nitems then (-1, r.2)
    else r

/-- The start of `rs_hmap_put`: grow the table if it is too full. `none`:
`calc_new_size` never returns. -/
def growIfFull [Zero K] [Zero V] (F : FnPtrs K V) (hashkey : UInt64) (h : RsHmap K V) :
    Option (Int × RsHmap K V) :=
  if h.nitems > highThreshold h.size then
    (calcNewSize h.nitems h.config.maxSize h.size).map fun c =>
      if c.status < 0 then (c.status, h)
      else if c.resize then rsHmapResize F hashkey h c.newsize
      else (c.status, h)
  else some (0, h)

/-- `rs_hmap_put` -/
def rsHmapPut [Zero K] [Zero V] (F : FnPtrs K V) (hashkey : UInt64) (h : RsHmap K V) (key : K)
    (val : V) : Option (Int × RsHmap K V) :=
  (growIfFull F hashkey h).map fun r => if r.1 < 0 then r else rsHmapInsert F r.2 key val

/-! ## rebuilding -/

theorem reinsert_pslWrapped {F : FnPtrs K V} {bkts : Nat → Bkt K V} {bktFull : Nat → Bool}
    {left i : Nat} {st : Int} {h : RsHmap K V}
    (hw : (reinsert F bkts bktFull left i st h).2.pslWrapped = false) : h.pslWrapped = false := by
  induction left generalizing i st h with
  | zero => exact hw
  | succ left ih =>
      simp only [reinsert] at hw
      split at hw
      · exact ih hw
      · split at hw
        · exact insertLoop_pslWrapped hw
        · exact insertLoop_pslWrapped (ih hw)

/-- What a resize needs of the old table: no two full buckets have one key. -/
structure Keyed (h : RsHmap K V) : Prop where
  size_lt : h.size < 2 ^ 32
  nitems_eq : h.nitems = count h.size h.view
  inj : ∀ p q e f, p < h.size → q < h.size → h.view p = some e → h.view q = some f →
    e.key = f.key → p = q

section Rebuild

variable [Zero K] [Zero V] {F : FnPtrs K V} {h g : RsHmap K V} {hashkey : UInt64} {newsize : Nat}

theorem WellFormed.keyed (hwf : WellFormed F h) : Keyed h := ⟨hwf.size_lt, hwf.nitems_eq, hwf.inv.inj⟩

omit [Zero K] [Zero V] in
theorem Keyed.nitems_le (hk : Keyed h) : h.nitems ≤ h.size := by
  rw [hk.nitems_eq]
  exact count_le _ _

omit [Zero K] [Zero V] in
/-- A new table that holds what the old one holds before slot `i` lacks the key of slot `i`. -/
theorem Keyed.fresh_next (hk : Keyed h) {i : Nat} {e : Bkt K V} (hi : i < h.size)
    (he : h.view i = some e)
    (hholds : ∀ k v, Holds g.size g.view k v ↔ Holds i h.view k v) :
    Fresh g.size g.view e.key := by
  rw [fresh_iff_not_holds]
  intro v hv
  obtain ⟨p, f, hp, hpf, hkey, -⟩ := (hholds _ v).mp hv
  have := hk.inj p i f e (by omega) hi hpf he hkey
  omega

omit [Zero K] [Zero V] in
/-- It has room for it. -/
theorem Keyed.room_next (hk : Keyed h) {i : Nat} {e : Bkt K V} (hi : i < h.size)
    (he : h.view i = some e) (hroom : h.nitems ≤ g.size) (hn : g.nitems = count i h.view) :
    g.nitems < g.size := by
  have hmono := count_mono (t := h.view) (show i + 1 ≤ h.size by omega)
  rw [count_succ_of_some he, ← hk.nitems_eq] at hmono
  omega

/-- The loop of a resize, from slot `i`: the new table holds what the old one
holds before `i`. -/
theorem reinsert_spec (hk : Keyed h) {left i : Nat} (hleft : i + left = h.size)
    (hg : WellFormed F g) (hroom : h.nitems ≤ g.size) (hn : g.nitems = count i h.view)
    (hholds : ∀ k v, Holds g.size g.view k v ↔ Holds i h.view k v)
    (hw : (reinsert F h.bkts h.bktFull left i 0 g).2.pslWrapped = false) :
    ∃ g', reinsert F h.bkts h.bktFull left i 0 g = (0, g') ∧ WellFormed F g' ∧ SameFrame g g' ∧
      g'.nitems = h.nitems ∧ ∀ k v, Holds g'.size g'.view k v ↔ Holds h.size h.view k v := by
  induction left generalizing i g with
  | zero =>
      obtain rfl : i = h.size := by omega
      exact ⟨g, rfl, hg, .rfl, hn.trans hk.nitems_eq.symm, hholds⟩
  | succ left ih =>
      by_cases hfull : h.bktFull i = false
      · have hnone := RsHmap.view_eq_none.mpr hfull
        rw [reinsert, if_pos hfull] at hw ⊢
        refine ih (by omega) hg hroom (by rw [hn, count_succ_of_none hnone]) ?_ hw
        intro k v
        rw [hholds, holds_succ, hnone]
        simp
      · have he := RsHmap.view_of_full (by simpa using hfull : h.bktFull i = true)
        have hfresh := hk.fresh_next (by omega) he hholds
        have hlt := hk.room_next (by omega) he hroom hn
        simp only [reinsert, if_neg hfull] at hw ⊢
        have hwi : (rsHmapInsert F g (h.bkts i).key (h.bkts i).val).2.pslWrapped = false := by
          split at hw
          · exact hw
          · exact reinsert_pslWrapped hw
        obtain ⟨hst, hins⟩ := rsHmapInsert_fresh hg hfresh hlt hwi
        rw [hst, if_neg (by decide)] at hw ⊢
        obtain ⟨g', hr, hg', hframe, hn', hh'⟩ := ih (by omega) (hins.wellFormed hg)
          (by rw [hins.frame.size]; exact hroom)
          (by rw [hins.nitems, hn, count_succ_of_some he])
          (by
            intro k v
            rw [hins.frame.size, hins.holds, hholds, holds_succ, he]
            simp)
          hw
        exact ⟨g', hr, hg', hins.frame.trans hframe, hn', hh'⟩

/-- A resize either refuses, before it has touched the table, or returns. -/
theorem rsHmapResize_pslWrapped (hw : (rsHmapResize F hashkey h newsize).2.pslWrapped = false) :
    h.pslWrapped = false := by
  simp only [rsHmapResize] at hw
  split at hw
  · exact hw
  · split at hw
    · exact hw
    · change (blank newsize hashkey h.config h.pslWrapped : RsHmap K V).pslWrapped = false
      split at hw
      · exact reinsert_pslWrapped hw
      · split at hw <;> exact reinsert_pslWrapped hw

/-- **A resize keeps the map**: with room for every item it succeeds, and the
new table holds the pairs of the old one. -/
theorem rsHmapResize_spec (hk : Keyed h) (hpos : 0 < newsize) (hlt : newsize < uintMax)
    (hroom : h.nitems ≤ newsize)
    (hw : (rsHmapResize F hashkey h newsize).2.pslWrapped = false) :
    ∃ g, rsHmapResize F hashkey h newsize = (0, g) ∧ WellFormed F g ∧
      SameFrame (blank newsize hashkey h.config h.pslWrapped) g ∧ g.nitems = h.nitems ∧
      ∀ k v, Holds g.size g.view k v ↔ Holds h.size h.view k v := by
  have h32 : h.nitems < 2 ^ 32 := hk.nitems_le.trans_lt hk.size_lt
  have hthr : ¬ newsize < highThreshold h.nitems := by
    rw [highThreshold_eq (by omega)]; omega
  have hl : newsize < 2 ^ 32 := by unfold uintMax at hlt; omega
  simp only [rsHmapResize, if_neg (show ¬ (newsize ≤ 0 ∨ newsize ≥ uintMax) by omega),
    if_neg hthr] at hw ⊢
  have hwi : (reinsert F h.bkts h.bktFull h.size 0 0
      (blank newsize hashkey h.config h.pslWrapped)).2.pslWrapped = false := by
    split at hw
    · exact hw
    · split at hw <;> exact hw
  obtain ⟨g, hr, hg, hframe, hn, hholds⟩ := reinsert_spec (i := 0) hk (Nat.zero_add _)
    (wellFormed_blank hpos hl hashkey h.config h.pslWrapped) hroom (by simp [count, blank])
    (by intro k v; simp [Holds, blank, RsHmap.view]) hwi
  refine ⟨g, ?_, hg, hframe, hn, hholds⟩
  rw [hr, if_neg (Int.lt_irrefl 0), if_neg (by simp [hn])]

end Rebuild

/-! ## growing -/

section Grow

variable [Zero K] [Zero V] {F : FnPtrs K V} {h : RsHmap K V} {hashkey : UInt64}

/-- The load a put leaves behind: one item above the threshold at most. -/
def Loaded (h : RsHmap K V) : Prop := h.nitems ≤ highThreshold h.size + 1

omit [Zero K] [Zero V] in
/-- `calc_new_size` returns on every table a run reaches. -/
theorem growSize_isSome (hpos : 0 < h.size) (hlt : h.size < 2 ^ 32) (hl : Loaded h) :
    growSize h.nitems h.size =
      some (min (2 * h.size) (h.size + maxGrowthStep)) := by
  unfold Loaded at hl
  rw [highThreshold_eq (by omega)] at hl
  simp only [growSize]
  rw [if_neg]
  unfold maxGrowthStep
  rw [highThreshold_eq (by omega)]
  have h1 : h.size = 1 ∨ 2 ≤ h.size := by omega
  omega

/-- What the start of a put does: it refuses and changes nothing, or it leaves
a table for the same pairs whose load is within the threshold. -/
inductive Grown (F : FnPtrs K V) (h : RsHmap K V) : Int × RsHmap K V → Prop
  | refused (st : Int) (hst : st < 0) : Grown F h (st, h)
  | grown (g : RsHmap K V) (hg : WellFormed F g) (hc : g.config = h.config)
      (hn : g.nitems = h.nitems) (hl : g.nitems ≤ highThreshold g.size)
      (hh : ∀ k v, Holds g.size g.view k v ↔ Holds h.size h.view k v) : Grown F h (0, g)

theorem growIfFull_isSome (hashkey : UInt64) (hwf : WellFormed F h) (hl : Loaded h) :
    ∃ r, growIfFull F hashkey h = some r := by
  unfold growIfFull
  split
  · next hgt =>
    simp only [calcNewSize, hgt, decide_true, if_true]
    rw [growSize_isSome hwf.size_pos hwf.size_lt hl]
    exact ⟨_, rfl⟩
  · exact ⟨_, rfl⟩

theorem growIfFull_pslWrapped {r : Int × RsHmap K V} (hr : growIfFull F hashkey h = some r)
    (hw : r.2.pslWrapped = false) : h.pslWrapped = false := by
  unfold growIfFull at hr
  split at hr
  · rw [Option.map_eq_some_iff] at hr
    obtain ⟨c, -, hc⟩ := hr
    split at hc
    · rw [← hc] at hw; exact hw
    · split at hc
      · rw [← hc] at hw; exact rsHmapResize_pslWrapped hw
      · rw [← hc] at hw; exact hw
  · rw [← Option.some.inj hr] at hw; exact hw

/-- The wrapped results of `prime_geq` are refused by the resize. -/
theorem rsHmapResize_wrapped (hn : 4 ≤ h.nitems) (hlt : h.nitems < 2 ^ 32) {newsize : Nat}
    (hs : newsize ≤ 1) : rsHmapResize F hashkey h newsize = (-1, h) := by
  unfold rsHmapResize
  by_cases h0 : newsize ≤ 0
  · rw [if_pos (.inl h0)]
  · rw [if_neg (by unfold uintMax; omega), if_pos]
    rw [highThreshold_eq (by omega)]
    omega

theorem growIfFull_spec (hwf : WellFormed F h) {r : Int × RsHmap K V}
    (hr : growIfFull F hashkey h = some r) (hw : r.2.pslWrapped = false) : Grown F h r := by
  have hlt := hwf.size_lt
  have hpos := hwf.size_pos
  have hle := hwf.nitems_le
  unfold growIfFull at hr
  split at hr
  · next hgt =>
    rw [Option.map_eq_some_iff] at hr
    obtain ⟨c, hc, hcr⟩ := hr
    simp only [calcNewSize, hgt, decide_true, if_true, growSize] at hc
    obtain ⟨s, hs⟩ : ∃ s, s = min (2 * h.size) (h.size + maxGrowthStep) := ⟨_, rfl⟩
    rw [← hs] at hc
    split at hc
    · simp at hc
    · next hsn =>
      simp only [Option.map_some, Option.some.injEq] at hc
      split at hc
      · rw [← hc] at hcr
        simp only [Int.reduceNeg, Int.neg_lt_zero_iff] at hcr
        rw [← hcr]
        exact .refused _ (by decide)
      · next hmax =>
        split at hc
        · rw [← hc] at hcr
          simp only [Int.reduceNeg, Int.neg_lt_zero_iff] at hcr
          rw [← hcr]
          exact .refused _ (by decide)
        · rw [← hc] at hcr
          simp only [Int.lt_irrefl, if_false, if_true] at hcr
          unfold maxGrowthStep at hs
          rw [highThreshold_eq (by omega)] at hgt hsn
          have hgeq := primeGeq_lt s
          rcases primeGeq_cases (n := s) (by omega) (by omega) with hwrap | hbig
          · -- the search for a size wrapped
            have h8 : ¬ s < 8 := fun h8 => by
              rw [primeGeq_of_lt (by omega) h8] at hwrap; omega
            rw [rsHmapResize_wrapped (by omega) (by omega) hwrap] at hcr
            rw [← hcr]
            exact .refused _ (by decide)
          · by_cases hu : primeGeq s < uintMax
            · rw [← hcr] at hw
              obtain ⟨g, hg, hgwf, hframe, hgn, hholds⟩ :=
                rsHmapResize_spec hwf.keyed (by omega) hu (by omega) hw
              have hsize : g.size = primeGeq s := hframe.size
              rw [← hcr, hg]
              refine .grown g hgwf hframe.config hgn ?_ hholds
              rw [hgn, hsize, highThreshold_eq (by omega)]
              omega
            · have : rsHmapResize F hashkey h (primeGeq s) = (-1, h) := by
                rw [rsHmapResize, if_pos (.inr (by omega))]
              rw [← hcr, this]
              exact .refused _ (by decide)
  · next hgt =>
    rw [← Option.some.inj hr]
    exact .grown h hwf rfl rfl (by omega) fun _ _ => Iff.rfl

end Grow

end QStore.Hmap
