import QStore.Hmap.PslWrap

/-!
# QStore.Hmap.Resize

When `rs_hmap_resize` is all or nothing. Its check of the size lets through sizes that are too
small: `newsize` has to be less than `0.85 * nitems` to be refused. The arrays are replaced before
the pairs are put back, and an error after that leaves the new ones.
-/

namespace QStore.Hmap

open QStore.Ring QStore.RobinHood Function

variable {K V : Type} [Zero K] [Zero V]

/-- The checks at the start of `rs_hmap_resize` that refuse a size. -/
def Refused (h : RsHmap K V) (newsize : Nat) : Prop :=
  (newsize ≤ 0 ∨ newsize ≥ uintMax) ∨ newsize < highThreshold h.nitems

/-- The map is exactly as before. -/
structure Untouched (h g : RsHmap K V) : Prop where
  size : g.size = h.size
  bkts : g.bkts = h.bkts
  bktFull : g.bktFull = h.bktFull
  nitems : g.nitems = h.nitems
  hashkey : g.hashkey = h.hashkey

/-- A resize that succeeds leaves a table of the new size for the same pairs, one that returns an
error leaves the old table, and it succeeds where the size is enough. -/
structure AllOrNothing (F : FnPtrs K V) (hashkey : UInt64) (h : RsHmap K V) (newsize : Nat) :
    Prop where
  size : 0 ≤ (rsHmapResize F hashkey h newsize).1 →
    (rsHmapResize F hashkey h newsize).2.size = newsize
  pairs : 0 ≤ (rsHmapResize F hashkey h newsize).1 → ∀ k v,
    Holds (rsHmapResize F hashkey h newsize).2.size (rsHmapResize F hashkey h newsize).2.view k v ↔
      Holds h.size h.view k v
  invariants : 0 ≤ (rsHmapResize F hashkey h newsize).1 →
    WellFormed F (rsHmapResize F hashkey h newsize).2
  untouched : (rsHmapResize F hashkey h newsize).1 < 0 →
    Untouched h (rsHmapResize F hashkey h newsize).2
  succeeds : h.nitems ≤ newsize → 0 ≤ (rsHmapResize F hashkey h newsize).1

/-- The full buckets have distinct keys, the new table has room for them, and under the new size
and hash key they do not crowd. -/
structure Fits (F : FnPtrs K V) (hashkey : UInt64) (h : RsHmap K V) (newsize : Nat) : Prop where
  inj : ∀ p q e f, p < h.size → q < h.size → h.view p = some e → h.view q = some f →
    e.key = f.key → p = q
  room : h.nitems ≤ newsize
  spread : ¬ Crowded newsize ((blank newsize hashkey h.config h.pslWrapped : RsHmap K V).home F)
    h.Has (2 ^ 16)

variable {F : FnPtrs K V} {h g : RsHmap K V} {hashkey : UInt64} {entry : Bkt K V}
  {left p newsize : Nat}

/-! ## what `pslWrapped` records changes nothing else -/

omit [Zero K] [Zero V] in
theorem insertLoop_forget (b : Bool) : ∃ c, insertLoop F left { h with pslWrapped := b } entry p =
    ((insertLoop F left h entry p).1, { (insertLoop F left h entry p).2 with pslWrapped := c }) := by
  induction left generalizing h entry p b with
  | zero => exact ⟨b, rfl⟩
  | succ left ih =>
      simp only [insertLoop]
      split
      · split
        · exact ⟨b, rfl⟩
        · split
          · exact ih (h := (h.setBkt p entry).noteWrap (h.bkts p)) _
          · exact ih (h := h.noteWrap entry) _
      · exact ⟨b, rfl⟩

omit [Zero K] [Zero V] in
theorem reinsert_forget (bkts : Nat → Bkt K V) (bktFull : Nat → Bool) (left i : Nat) (st : Int)
    (g : RsHmap K V) (b : Bool) : ∃ c, reinsert F bkts bktFull left i st { g with pslWrapped := b } =
      ((reinsert F bkts bktFull left i st g).1,
        { (reinsert F bkts bktFull left i st g).2 with pslWrapped := c }) := by
  induction left generalizing i st g b with
  | zero => exact ⟨b, rfl⟩
  | succ left ih =>
      simp only [reinsert]
      split
      · exact ih _ _ _ b
      · obtain ⟨c, hins⟩ : ∃ c, rsHmapInsert F { g with pslWrapped := b } (bkts i).key (bkts i).val =
            ((rsHmapInsert F g (bkts i).key (bkts i).val).1,
              { (rsHmapInsert F g (bkts i).key (bkts i).val).2 with pslWrapped := c }) :=
          insertLoop_forget b
        rw [hins]
        split
        · exact ⟨c, rfl⟩
        · exact ih _ _ _ c

theorem rsHmapResize_forget (F : FnPtrs K V) (hashkey : UInt64) (h : RsHmap K V) (newsize : Nat)
    (b : Bool) : ∃ c,
    rsHmapResize F hashkey { h with pslWrapped := b } newsize =
      ((rsHmapResize F hashkey h newsize).1,
        { (rsHmapResize F hashkey h newsize).2 with pslWrapped := c }) := by
  simp only [rsHmapResize]
  split
  · exact ⟨b, rfl⟩
  · split
    · exact ⟨b, rfl⟩
    · obtain ⟨c, hc⟩ := reinsert_forget (F := F) h.bkts h.bktFull h.size 0 0
        (blank newsize hashkey h.config h.pslWrapped) b
      have hblank : (blank newsize hashkey h.config b : RsHmap K V) =
        { (blank newsize hashkey h.config h.pslWrapped : RsHmap K V) with pslWrapped := b } := rfl
      rw [hblank, hc]
      split
      · exact ⟨c, rfl⟩
      · split <;> exact ⟨c, rfl⟩

/-! ## sizes that fit -/

theorem WellFormed.forget (hwf : WellFormed F h) (c : Bool) :
    WellFormed F { h with pslWrapped := c } :=
  ⟨hwf.size_pos, hwf.size_lt, hwf.divinfo_eq, hwf.inv, hwf.nitems_eq, hwf.zero⟩

/-- **A size that fits and is not refused** gets all the pairs. -/
theorem Fits.resize (hf : Fits F hashkey h newsize) (hc : Counted h)
    (hno : ¬ Refused h newsize) : ∃ g, rsHmapResize F hashkey h newsize = (0, g) ∧
      WellFormed F g ∧ g.size = newsize ∧
        ∀ k v, Holds g.size g.view k v ↔ Holds h.size h.view k v := by
  rw [Refused, not_or, not_or] at hno
  obtain ⟨h₀, hh₀⟩ : ∃ h₀ : RsHmap K V, h₀ = { h with pslWrapped := false } := ⟨_, rfl⟩
  have hk : Keyed h₀ := by
    rw [hh₀]
    exact ⟨hc.size_lt, hc.nitems_eq, hf.inj⟩
  have hroom : h₀.nitems ≤ newsize := by
    rw [hh₀]
    exact hf.room
  have hw : (rsHmapResize F hashkey h₀ newsize).2.pslWrapped = false := by
    refine rsHmapResize_notWrapped hk (by rw [hh₀]) hroom ?_
    rw [hh₀]
    exact hf.spread
  obtain ⟨g, hg, hwf, hframe, -, hholds⟩ :=
    rsHmapResize_spec hk (by omega) (by omega) hroom hw
  have hsize : g.size = newsize := hframe.size
  rw [hh₀] at hg hholds
  obtain ⟨c, hc'⟩ := rsHmapResize_forget F hashkey { h with pslWrapped := false } newsize
    h.pslWrapped
  rw [hg] at hc'
  exact ⟨{ g with pslWrapped := c }, hc', hwf.forget c, hsize, hholds⟩

/-! ## what a resize leaves -/

/-- Every stored probe length has 16 bits. -/
def Bits (h : RsHmap K V) : Prop := ∀ p, (h.bkts p).psl < 2 ^ 16

omit [Zero K] [Zero V] in
theorem Bits.setBkt (hb : Bits h) (he : entry.psl < 2 ^ 16) : Bits (h.setBkt p entry) := by
  intro q
  by_cases hq : q = p
  · simpa [RsHmap.setBkt, hq] using he
  · simpa [RsHmap.setBkt, hq] using hb q

omit [Zero K] [Zero V] in
theorem insertLoop_bits (hb : Bits h) (he : entry.psl < 2 ^ 16) :
    Bits (insertLoop F left h entry p).2 := by
  induction left generalizing h entry p with
  | zero => exact hb
  | succ left ih =>
      have hbump : ∀ e : Bkt K V, (bumpPsl e).psl < 2 ^ 16 := fun e =>
        Nat.mod_lt _ (Nat.two_pow_pos 16)
      simp only [insertLoop]
      split
      · split
        · exact hb.setBkt (hb p)
        · split
          · exact ih (h := (h.setBkt p entry).noteWrap (h.bkts p)) (hb.setBkt he) (hbump _)
          · exact ih (h := h.noteWrap entry) hb (hbump _)
      · exact hb.setBkt he

omit [Zero K] [Zero V] in
theorem reinsert_bits {bkts : Nat → Bkt K V} {bktFull : Nat → Bool} {i : Nat} {st : Int}
    (hb : Bits g) : Bits (reinsert F bkts bktFull left i st g).2 := by
  induction left generalizing i st g with
  | zero => exact hb
  | succ left ih =>
      have hins : Bits (rsHmapInsert F g (bkts i).key (bkts i).val).2 :=
        insertLoop_bits hb (Nat.two_pow_pos 16)
      simp only [reinsert]
      split
      · exact ih hb
      · split
        · exact hins
        · exact ih hins

omit [Zero K] [Zero V] in
/-- An insertion that fails adds no item. -/
theorem insertLoop_failed (hneg : (insertLoop F left h entry p).1 < 0) :
    (insertLoop F left h entry p).2.nitems = h.nitems := by
  induction left generalizing h entry p with
  | zero => rfl
  | succ left ih =>
      simp only [insertLoop] at hneg ⊢
      split
      · next hfull =>
        rw [if_pos hfull] at hneg
        split
        · rfl
        · next hcmp =>
          rw [if_neg hcmp] at hneg
          split
          · next hgt =>
            rw [if_pos hgt] at hneg
            exact ih hneg
          · next hgt =>
            rw [if_neg hgt] at hneg
            exact ih hneg
      · next hfull =>
        rw [if_neg hfull] at hneg
        exact absurd hneg (by simp)

omit [Zero K] [Zero V] in
/-- A loop over the old buckets that fails has not put back all of them. -/
theorem reinsert_failed {i : Nat} {st : Int} (hleft : i + left = h.size) (hst : 0 ≤ st)
    (hn : g.nitems ≤ count i h.view)
    (hneg : (reinsert F h.bkts h.bktFull left i st g).1 < 0) :
    (reinsert F h.bkts h.bktFull left i st g).2.nitems < count h.size h.view := by
  induction left generalizing i st g with
  | zero => exact absurd hneg (not_lt.mpr hst)
  | succ left ih =>
      by_cases hfull : h.bktFull i = false
      · rw [reinsert, if_pos hfull] at hneg ⊢
        exact ih (by omega) hst
          (by rw [count_succ_of_none (RsHmap.view_eq_none.mpr hfull)]; exact hn) hneg
      · have he := RsHmap.view_of_full (by simpa using hfull : h.bktFull i = true)
        have hcount := count_succ_of_some he
        have hmono := count_mono (t := h.view) (show i + 1 ≤ h.size by omega)
        simp only [reinsert, if_neg hfull] at hneg ⊢
        split
        · next hfailed =>
          have hsame : (rsHmapInsert F g (h.bkts i).key (h.bkts i).val).2.nitems = g.nitems :=
            insertLoop_failed hfailed
          omega
        · next hok =>
          rw [if_neg hok] at hneg
          have hone : (rsHmapInsert F g (h.bkts i).key (h.bkts i).val).2.nitems ≤ g.nitems + 1 :=
            insertLoop_nitems_le
          exact ih (by omega) (not_lt.mp hok) (by omega) hneg

/-- A resize that is not refused has replaced the arrays; where it fails some pairs are lost. -/
theorem rsHmapResize_failed (hc : Counted h) (hno : ¬ Refused h newsize)
    (hneg : (rsHmapResize F hashkey h newsize).1 < 0) :
    (rsHmapResize F hashkey h newsize).2.nitems ≠ h.nitems := by
  rw [Refused, not_or] at hno
  simp only [rsHmapResize, if_neg hno.1, if_neg hno.2] at hneg ⊢
  split
  · next hfailed =>
    have := reinsert_failed (i := 0) (Nat.zero_add _) le_rfl (by simp [count, blank]) hfailed
    rw [hc.nitems_eq]
    exact this.ne
  · next hok =>
    rw [if_neg hok] at hneg
    split
    · next hne => exact hne
    · next heq =>
      rw [if_neg heq] at hneg
      exact absurd hneg hok

theorem rsHmapResize_nitems (hno : ¬ Refused h newsize)
    (h0 : 0 ≤ (rsHmapResize F hashkey h newsize).1) :
    (rsHmapResize F hashkey h newsize).2.nitems = h.nitems ∧
      Bits (rsHmapResize F hashkey h newsize).2 := by
  rw [Refused, not_or] at hno
  simp only [rsHmapResize, if_neg hno.1, if_neg hno.2] at h0 ⊢
  split
  · next hfailed =>
    rw [if_pos hfailed] at h0
    exact absurd h0 (not_le.mpr hfailed)
  · next hok =>
    rw [if_neg hok] at h0
    split
    · next hne =>
      rw [if_pos hne] at h0
      exact absurd h0 (by simp)
    · next heq => exact ⟨not_not.mp heq, reinsert_bits fun _ => Nat.two_pow_pos 16⟩

/-- What is all or nothing fits. -/
theorem AllOrNothing.fits (ha : AllOrNothing F hashkey h newsize) (hc : Counted h)
    (hno : ¬ Refused h newsize) : Fits F hashkey h newsize := by
  have h0 : 0 ≤ (rsHmapResize F hashkey h newsize).1 := by
    by_contra hneg
    exact rsHmapResize_failed hc hno (not_le.mp hneg) (ha.untouched (not_le.mp hneg)).nitems
  obtain ⟨hn, hbits⟩ := rsHmapResize_nitems hno h0
  have hwf := ha.invariants h0
  have hpairs := ha.pairs h0
  have hframe := rsHmapResize_frame h0
  have hsize := ha.size h0
  refine ⟨inj_of_count_le hwf.inv.inj ?_ fun k v => (hpairs k v).mp, ?_, ?_⟩
  · rw [← hc.nitems_eq, ← hwf.nitems_eq, hn]
  · have hle := hwf.nitems_le
    rwa [hn, hsize] at hle
  · have hhas : h.Has = (rsHmapResize F hashkey h newsize).2.Has :=
      funext fun x => propext (exists_congr fun v => (hpairs x v).symm)
    have hspread : Spread F (rsHmapResize F hashkey h newsize).2 := by
      refine hwf.inv.not_crowded (Nat.two_pow_pos 16) fun q e _ he => ?_
      rw [← (RsHmap.view_eq_some.mp he).2]
      exact hbits q
    rw [Spread, hsize, hframe.home, ← hhas] at hspread
    exact hspread

/-! ## the exact condition -/

/-- **When a resize is all or nothing**: it is refused with a size that is too small, or it is
not refused and everything fits. -/
theorem reaches_allOrNothing_iff [DecidableEq K] {m : K → Option V} (hr : Reaches F h m)
    (hashkey : UInt64) (newsize : Nat) :
    AllOrNothing F hashkey h newsize ↔
      Refused h newsize ∧ newsize < h.nitems ∨
        ¬ Refused h newsize ∧ Fits F hashkey h newsize := by
  have hc := reaches_counted hr
  by_cases href : Refused h newsize
  · have hsame : rsHmapResize F hashkey h newsize = (-1, h) := by
      rw [rsHmapResize]
      rcases href with hsize | hthr
      · rw [if_pos hsize]
      · rw [if_pos hthr, ite_self]
    constructor
    · intro ha
      refine .inl ⟨href, ?_⟩
      by_contra hge
      have h0 := ha.succeeds (not_lt.mp hge)
      rw [hsame] at h0
      exact absurd h0 (by simp)
    · rintro (⟨-, hlt⟩ | ⟨hno, -⟩)
      · constructor <;> rw [hsame]
        · intro h0
          exact absurd h0 (by simp)
        · intro h0
          exact absurd h0 (by simp)
        · intro h0
          exact absurd h0 (by simp)
        · exact fun _ => ⟨rfl, rfl, rfl, rfl, rfl⟩
        · exact fun hle => absurd hlt (not_lt.mpr hle)
      · exact absurd href hno
  · constructor
    · exact fun ha => .inr ⟨href, ha.fits hc href⟩
    · rintro (⟨href', -⟩ | ⟨-, hf⟩)
      · exact absurd href' href
      · obtain ⟨g, hg, hwf, hsize, hholds⟩ := hf.resize hc href
        constructor <;> rw [hg]
        · exact fun _ => hsize
        · exact fun _ => hholds
        · exact fun _ => hwf
        · exact fun hneg => absurd hneg (by simp)
        · exact fun _ => le_rfl

/-- Two items for one bucket: the size is not refused, and one item is lost. -/
theorem rsHmapResize_allOrNothing_fails : ∃ m, Reaches replaceFns twoItemMap m ∧
    ¬ AllOrNothing replaceFns 0 twoItemMap 1 := by
  obtain ⟨m, hr, -⟩ := reaches_twoItem
  have htwo : twoItemMap.nitems = 2 := rfl
  refine ⟨m, hr, fun ha => ?_⟩
  have hno : ¬ Refused twoItemMap 1 := by
    rw [Refused, htwo, highThreshold_eq (by norm_num)]
    decide
  have hroom := (ha.fits (reaches_counted hr) hno).room
  rw [htwo] at hroom
  omega

/-- Five buckets have room for them. -/
theorem reaches_allOrNothing_iff_two : ∃ m, Reaches replaceFns twoItemMap m ∧ m 1 = some 10 ∧
    m 2 = some 20 ∧ AllOrNothing replaceFns 0 twoItemMap 5 := by
  obtain ⟨m, hr, h1, h2⟩ := reaches_twoItem
  obtain ⟨hwf, -, -⟩ := reaches_wellFormed hr twoItem_noWrap
  have htwo : twoItemMap.nitems = 2 := rfl
  have hno : ¬ Refused twoItemMap 5 := by
    rw [Refused, htwo, highThreshold_eq (by norm_num)]
    decide
  have hfits : Fits replaceFns 0 twoItemMap 5 :=
    ⟨hwf.inv.inj, by rw [htwo]; decide, not_crowded_of_card keysIn_twoItem.keys (by decide)⟩
  exact ⟨m, hr, h1, h2, (reaches_allOrNothing_iff hr 0 5).mpr (.inr ⟨hno, hfits⟩)⟩

end QStore.Hmap
