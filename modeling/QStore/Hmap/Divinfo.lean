import QStore.Hmap.Freeze
import QStore.Hmap.Merge

/-!
# QStore.Hmap.Divinfo

The reciprocal a table keeps for `set_probe_loc`. `rs_hmap_instantiate` and `rs_hmap_resize`
compute it, `rs_hmap_unfreeze` reads the one that `rs_hmap_freeze` wrote. No other call writes it
or the size, so it is the one for the size of the table after all of them, failed ones included.
-/

namespace QStore.Hmap

open QStore.Text

variable {K V : Type} [Zero K] [Zero V]

/-- The tables that calls lead to: from `rs_hmap_instantiate` on through puts, deletions, merges
and resizes to any size, whatever they return, and through the files of a frozen table. -/
inductive Lives (F : FnPtrs K V) : RsHmap K V → Prop
  | instantiate {hc : HmapConfig} {hashkey : UInt64} {loads : Bool} {h : RsHmap K V}
      (hi : instantiate hc hashkey loads = some (.ok h)) : Lives F h
  | put {h : RsHmap K V} (hl : Lives F h) {hashkey : UInt64} {k : K} {v : V}
      {r : Int × RsHmap K V} (hp : rsHmapPut F hashkey h k v = some r) : Lives F r.2
  | del {h : RsHmap K V} (hl : Lives F h) {hashkey : UInt64} {k : K} {r : DelResult K V}
      (hd : rsHmapDel F hashkey h k = some r) : Lives F r.hmap
  | merge {dst src : RsHmap K V} (hl : Lives F dst) {hashkeys : Nat → UInt64} {same : Bool}
      {r : Int × RsHmap K V × RsHmap K V} (hm : rsHmapMerge F hashkeys same dst src = some r) :
      Lives F r.2.1
  | resize {h : RsHmap K V} (hl : Lives F h) (hashkey : UInt64) (newsize : Nat) :
      Lives F (rsHmapResize F hashkey h newsize).2
  | unfreeze {h g : RsHmap K V} (hl : Lives F h) {loads : String → Bool}
      (hu : unfreeze loads (freeze h) = .ok g) : Lives F g

variable {F : FnPtrs K V} {h g dst src : RsHmap K V}

/-- The merge keeps a table sound: it puts. -/
theorem sound_mergeLoop {hashkeys : Nat → UInt64} {same : Bool} {left i : Nat} {st : Int}
    {r : Int × RsHmap K V × RsHmap K V} (hs : Sound dst)
    (hm : mergeLoop F hashkeys same left i st dst src = some r) : Sound r.2.1 := by
  induction left generalizing i st dst src with
  | zero =>
      rw [← Option.some.inj hm]
      exact hs
  | succ left ih =>
      rw [mergeLoop] at hm
      split at hm
      · exact ih hs hm
      · obtain ⟨p, hp, hm⟩ := Option.bind_eq_some_iff.mp hm
        have hput := (sound_rsHmapPut hs hp).1
        simp only at hm
        generalize (if same then p.2 else src) = src' at hm
        split at hm
        · rw [← Option.some.inj hm]
          exact hput
        · split at hm
          · split at hm
            · contradiction
            · rw [← Option.some.inj hm]
              exact hput
          · exact ih hput hm

/-- The first three lines of the text file say what the table was. -/
theorem scanMeta_start (hs : Sound h) {m : MetaData} (hm : scanMeta (metaOf h) = some m) :
    m.size = h.size ∧ m.nitems = h.nitems ∧ m.divinfo = h.divinfo := by
  have hdiv : h.divinfo < 2 ^ 64 := by
    rw [hs.divinfo_eq]
    exact fastDiv32Init_lt hs.size_lt
  simp only [scanMeta, metaOf] at hm
  rw [scanField_nat hs.size_lt (by decide) (skipSpace_fieldLine _ _ _ rfl)] at hm
  simp only [Option.bind_eq_bind, Option.bind_some] at hm
  rw [scanField_nat hs.nitems_lt (by decide) (skipSpace_fieldLine _ _ _ rfl), Option.bind_some,
    scanField_nat hdiv (by decide) (skipSpace_fieldLine _ _ _ rfl), Option.bind_some] at hm
  simp only [Option.bind_eq_some_iff] at hm
  obtain ⟨hashkey, -, minSize, -, maxSize, -, low, -, high, -, so, -, hm⟩ := hm
  rw [← Option.some.inj hm]
  exact ⟨rfl, rfl, rfl⟩

/-- A table that comes back from its files is sound, whatever its configuration has become. -/
theorem sound_unfreeze (hs : Sound h) {loads : String → Bool}
    (hu : unfreeze loads (freeze h) = .ok g) : Sound g := by
  rw [unfreeze] at hu
  split at hu
  · contradiction
  · next m hm =>
    obtain ⟨hsize, hnitems, hdivinfo⟩ := scanMeta_start hs hm
    split at hu
    · contradiction
    · rw [Except.ok.injEq] at hu
      rw [← hu]
      refine ⟨?_, ?_, ?_, ?_, fun p hp => ?_⟩
      · simp only [hsize]
        exact hs.size_pos
      · simp only [hsize]
        exact hs.size_lt
      · simp only [hsize, hdivinfo]
        exact hs.divinfo_eq
      · simp only [hnitems]
        exact hs.nitems_lt
      · simp only [hsize] at hp
        have hpast : ∀ {β : Type} (f : Nat → β), ((List.range h.size).map f)[p]? = none :=
          fun f => List.getElem?_eq_none (by simpa using hp)
        simp only [freeze, List.getD_eq_getElem?_getD, hpast]
        exact ⟨rfl, rfl⟩

/-- **Every table that calls lead to is sound.** -/
theorem lives_sound (hl : Lives F h) : Sound h := by
  induction hl with
  | instantiate hi =>
      obtain ⟨size, config, hpos, hlt, rfl⟩ := instantiate_eq_blank hi
      exact sound_blank _ _ _ hpos hlt
  | put _ hp ih => exact (sound_rsHmapPut ih hp).1
  | del _ hd ih => exact (sound_rsHmapDel ih hd).1
  | merge _ hm ih => exact sound_mergeLoop ih hm
  | resize _ hashkey newsize ih => exact (sound_rsHmapResize _ hashkey newsize ih).1
  | unfreeze _ hu ih => exact sound_unfreeze ih hu

/-- **The location** of a hash is its remainder by the size. The reciprocal of a table is the one
for its size, so that a key is probed for from there. -/
theorem setProbeLoc_right (F : FnPtrs K V) :
    (∀ hash size : UInt32, 0 < size →
      setProbeLoc hash.toNat size.toNat (fastDiv32Init size.toNat) = hash.toNat % size.toNat ∧
      setProbeLoc hash.toNat size.toNat (fastDiv32Init size.toNat) < size.toNat) ∧
    ∀ h, Lives F h → 0 < h.size ∧ h.divinfo = fastDiv32Init h.size ∧
      ∀ k, h.home F k = (F.setHash k h.hashkey).toNat % h.size := by
  constructor
  · intro hash size hpos
    have hpos' : 0 < size.toNat := UInt32.lt_iff_toNat_lt.mp hpos
    rw [setProbeLoc_eq hpos' size.toNat_lt hash.toNat_lt]
    exact ⟨rfl, Nat.mod_lt _ hpos'⟩
  · intro h hl
    have hs := lives_sound hl
    exact ⟨hs.size_pos, hs.divinfo_eq, home_eq hs.size_pos hs.size_lt hs.divinfo_eq⟩

/-- Four buckets and the hash 9, and the map of one bucket. -/
theorem setProbeLoc_right_small : setProbeLoc 9 4 (fastDiv32Init 4) = 9 % 4 ∧
    smallMap.divinfo = fastDiv32Init smallMap.size :=
  ⟨((setProbeLoc_right replaceFns).1 9 4 (by decide)).1,
    ((setProbeLoc_right replaceFns).2 smallMap (.instantiate instantiate_small)).2.1⟩

end QStore.Hmap
