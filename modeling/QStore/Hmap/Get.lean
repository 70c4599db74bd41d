import QStore.Hmap.Del

/-!
# QStore.Hmap.Get

`rs_hmap_get` (`src/rs_hmap_get.c`). The lookup compares the key of a bucket
before it asks whether the bucket is full, and takes a walk through the whole
table for an error.

```
mismatch, full, psl ≥ my_psl    next slot
mismatch otherwise              not found
match                           found, even in an empty bucket
```

So it is right about every key the table holds. About a key it does not hold
it is right when the walk ends at a bucket that is not mistaken for the key.
-/

namespace QStore.Hmap

open QStore.Ring QStore.RobinHood Function

variable {K V : Type}

/-- What `rs_hmap_get` returns and writes through its pointers. -/
structure GetResult (V : Type) where
  status : Int
  isFound : Bool
  val : Option V
  whereFound : Nat

/-- The loop of `rs_hmap_get` at `probe_loc = p`, with `size - num_probes`
turns left. -/
def getLoop (F : FnPtrs K V) (h : RsHmap K V) (key : K) : Nat → Nat → Nat → GetResult V
  | 0, _, _ => ⟨-1, false, none, uintMax⟩
  | left + 1, myPsl, p =>
      if F.keyCmp (h.bkts p).key key then ⟨0, true, some (h.bkts p).val, p⟩
      else if h.bktFull p = false ∨ myPsl > (h.bkts p).psl then ⟨0, false, none, uintMax⟩
      else getLoop F h key left (myPsl + 1) (next h.size p)

/-- `rs_hmap_get` -/
def rsHmapGet (F : FnPtrs K V) (h : RsHmap K V) (key : K) : GetResult V :=
  getLoop F h key h.size 0 (h.home F key)

/-! ## walking -/

section Walk

variable {F : FnPtrs K V} {h : RsHmap K V} {k : K} {s i : Nat}

/-- The slot the lookup of `k` compares after `i` mismatches. -/
def probe (F : FnPtrs K V) (h : RsHmap K V) (k : K) (i : Nat) : Nat := (h.home F k + i) % h.size

/-- The lookup of `k` goes past slot `i` of its walk. -/
def PassesBy (F : FnPtrs K V) (h : RsHmap K V) (k : K) (i : Nat) : Prop :=
  h.bktFull (probe F h k i) = true ∧ (h.bkts (probe F h k i)).key ≠ k ∧
    i ≤ (h.bkts (probe F h k i)).psl

/-- The walk goes on to the first slot it does not pass by. -/
theorem getLoop_passes (hn : 0 < h.size) (his : i ≤ s) (hs : s ≤ h.size)
    (hpass : ∀ j, i ≤ j → j < s → PassesBy F h k j) :
    getLoop F h k (h.size - i) i (probe F h k i) =
      getLoop F h k (h.size - s) s (probe F h k s) := by
  obtain ⟨d, hd⟩ : ∃ d, i + d = s := ⟨s - i, by omega⟩
  induction d generalizing i with
  | zero =>
      obtain rfl : i = s := by omega
      rfl
  | succ d ih =>
      obtain ⟨hfull, hne, hpsl⟩ := hpass i le_rfl (by omega)
      rw [← ih (i := i + 1) (by omega) (fun j hj hjs => hpass j (by omega) hjs) (by omega)]
      obtain ⟨left, hleft⟩ : ∃ left, h.size - i = left + 1 := ⟨h.size - i - 1, by omega⟩
      rw [hleft, getLoop, if_neg (by rw [F.keyCmp_iff]; exact hne),
        if_neg (by rw [not_or, hfull]; exact ⟨by decide, by omega⟩), probe, probe,
        add_succ_mod hn, show left = h.size - (i + 1) by omega]

end Walk

section Lookup

variable [Zero K] [Zero V] {F : FnPtrs K V} {h : RsHmap K V} {m : K → Option V} {k : K} {s : Nat}

/-- The call, from the first slot it does not pass by. -/
theorem rsHmapGet_eq (hwf : WellFormed F h) (hs : s ≤ h.size)
    (hpass : ∀ j, j < s → PassesBy F h k j) :
    rsHmapGet F h k = getLoop F h k (h.size - s) s (probe F h k s) := by
  rw [← getLoop_passes hwf.size_pos (Nat.zero_le s) hs fun j _ hj => hpass j hj]
  rw [rsHmapGet, probe, Nat.sub_zero, Nat.add_zero, Nat.mod_eq_of_lt (hwf.home_lt k)]

/-- A bucket with the key, full or not, is reported as found. -/
theorem rsHmapGet_match (hwf : WellFormed F h) (hs : s < h.size)
    (hpass : ∀ j, j < s → PassesBy F h k j) (hk : (h.bkts (probe F h k s)).key = k) :
    rsHmapGet F h k = ⟨0, true, some (h.bkts (probe F h k s)).val, probe F h k s⟩ := by
  obtain ⟨left, hleft⟩ : ∃ left, h.size - s = left + 1 := ⟨h.size - s - 1, by omega⟩
  rw [rsHmapGet_eq hwf hs.le hpass, hleft, getLoop, if_pos ((F.keyCmp_iff _ _).mpr hk)]

/-- An empty bucket, or a richer entry, ends the walk. -/
theorem rsHmapGet_stop (hwf : WellFormed F h) (hs : s < h.size)
    (hpass : ∀ j, j < s → PassesBy F h k j) (hne : (h.bkts (probe F h k s)).key ≠ k)
    (hstop : h.bktFull (probe F h k s) = false ∨ s > (h.bkts (probe F h k s)).psl) :
    rsHmapGet F h k = ⟨0, false, none, uintMax⟩ := by
  obtain ⟨left, hleft⟩ : ∃ left, h.size - s = left + 1 := ⟨h.size - s - 1, by omega⟩
  rw [rsHmapGet_eq hwf hs.le hpass, hleft, getLoop,
    if_neg (by rw [F.keyCmp_iff]; exact hne), if_pos hstop]

/-- A walk through the whole table is an error. -/
theorem rsHmapGet_exhausted (hwf : WellFormed F h)
    (hpass : ∀ j, j < h.size → PassesBy F h k j) :
    rsHmapGet F h k = ⟨-1, false, none, uintMax⟩ := by
  rw [rsHmapGet_eq hwf le_rfl hpass, Nat.sub_self, getLoop]

/-! ## when the lookup is right -/

/-- What a lookup owes its caller: success, the value if and only if the map
has the key, and the full bucket that holds it. -/
def GetCorrect (F : FnPtrs K V) (h : RsHmap K V) (m : K → Option V) (k : K) : Prop :=
  (rsHmapGet F h k).status = 0 ∧
    ((rsHmapGet F h k).isFound = true ↔ ∃ v, m k = some v) ∧
    ((rsHmapGet F h k).isFound = true →
      (rsHmapGet F h k).val = m k ∧
        (rsHmapGet F h k).whereFound < h.size ∧
        h.bktFull (rsHmapGet F h k).whereFound = true ∧
        (h.bkts (rsHmapGet F h k).whereFound).key = k)

/-- The tables on which the lookup of `k` is right: a bucket holds `k`; or `k`
is not the zero key and some bucket is empty or holds a key with another home;
or `k` is the zero key and its walk meets an entry nearer to home than the walk
is long before it meets an empty bucket. -/
def GetSafe (F : FnPtrs K V) (h : RsHmap K V) (k : K) : Prop :=
  (∃ p, p < h.size ∧ h.bktFull p = true ∧ (h.bkts p).key = k) ∨
    (k ≠ 0 ∧ ∃ p, p < h.size ∧
      (h.bktFull p = false ∨ h.home F (h.bkts p).key ≠ h.home F k)) ∨
    (k = 0 ∧ ∃ i, i < h.size ∧ (∀ j, j ≤ i → h.bktFull (probe F h k j) = true) ∧
      (h.bkts (probe F h k i)).psl < i)

/-- **A held key** is found in its bucket, the zero key included. -/
theorem getCorrect_held (hwf : WellFormed F h) (hrep : Rep h m) {v : V} (hm : m k = some v) :
    GetCorrect F h m k := by
  obtain ⟨q, e, hq, he, rfl, rfl⟩ := (hrep k v).mp hm
  obtain ⟨hfull, hb⟩ := RsHmap.view_eq_some.mp he
  have hloc : probe F h e.key e.psl = q := hwf.inv.loc q e hq he
  have hpass : ∀ j, j < e.psl → PassesBy F h e.key j := by
    intro j hj
    obtain ⟨f, hf, hjf⟩ := hwf.inv.walk hq he hj.le
    obtain ⟨hff, hbf⟩ := RsHmap.view_eq_some.mp hf
    exact ⟨hff, by rw [probe, hbf]; exact hwf.inv.walk_ne hq he hj hf, by rw [probe, hbf]; exact hjf⟩
  have hget := rsHmapGet_match hwf (hwf.inv.psl_lt q e hq he) hpass (by rw [hloc, hb])
  rw [hloc, hb] at hget
  rw [GetCorrect, hget, hm]
  exact ⟨rfl, by simp, fun _ => ⟨rfl, hq, hfull, by rw [hb]⟩⟩

omit [Zero K] [Zero V] in
/-- The lookup of a key the map lacks is right if and only if it reports
success without a find. -/
theorem getCorrect_absent_iff (hm : m k = none) :
    GetCorrect F h m k ↔ (rsHmapGet F h k).status = 0 ∧ (rsHmapGet F h k).isFound = false := by
  simp only [GetCorrect, hm, reduceCtorEq, exists_false, iff_false, Bool.not_eq_true]
  constructor
  · rintro ⟨hst, hf, -⟩
    exact ⟨hst, hf⟩
  · rintro ⟨hst, hf⟩
    exact ⟨hst, hf, fun ht => by rw [hf] at ht; contradiction⟩

omit [Zero K] [Zero V] in
/-- The walk for a key in no bucket passes all the table, or there is a first
slot it does not pass by. -/
theorem walk_cases (F : FnPtrs K V) (h : RsHmap K V) (k : K) :
    (∀ j, j < h.size → PassesBy F h k j) ∨
      ∃ s, s < h.size ∧ (∀ j, j < s → PassesBy F h k j) ∧ ¬ PassesBy F h k s := by
  classical
  by_cases hall : ∀ j, j < h.size → PassesBy F h k j
  · exact .inl hall
  · push Not at hall
    obtain ⟨hlt, hnot⟩ := Nat.find_spec hall
    refine .inr ⟨Nat.find hall, hlt, fun j hj => ?_, hnot⟩
    by_contra hj'
    exact Nat.find_min hall hj ⟨by omega, hj'⟩

variable (hwf : WellFormed F h) (hfresh : Fresh h.size h.view k)
include hwf hfresh

omit [Zero K] [Zero V] hwf in
/-- No full bucket has the key. -/
theorem key_ne_of_full {p : Nat} (hp : p < h.size) (hfull : h.bktFull p = true) :
    (h.bkts p).key ≠ k :=
  hfresh p _ hp (RsHmap.view_of_full hfull)

omit hfresh in
/-- A walk that passes the whole table has met every key at its distance from
the home of `k`: all homes are that one. -/
theorem home_eq_of_passes (hpass : ∀ j, j < h.size → PassesBy F h k j) {p : Nat}
    (hp : p < h.size) : h.bktFull p = true ∧ h.home F (h.bkts p).key = h.home F k := by
  have hn := hwf.size_pos
  obtain ⟨j, hj, hjp⟩ := exists_add_mod_eq (h.home F k) hp
  obtain ⟨hfull, -, hge⟩ := hpass j hj
  rw [probe, hjp] at hfull hge
  have hview := RsHmap.view_of_full hfull
  -- the cut of the table can only be the first slot of the walk
  obtain ⟨c, hc, hcut⟩ := hwf.inv.cut
  obtain ⟨i, hi, hic⟩ := exists_add_mod_eq (h.home F k) hc
  obtain ⟨hcfull, -, hcge⟩ := hpass i hi
  rw [probe, hic] at hcfull hcge
  rw [hcut _ (RsHmap.view_of_full hcfull)] at hcge
  obtain rfl : i = 0 := by omega
  have hback := hwf.inv.room_back (s := h.home F k) (i := 0) (j := j) hn
  rw [Nat.zero_add, hjp, hic, room_of_some hview, room_of_some (RsHmap.view_of_full hcfull),
    hcut _ (RsHmap.view_of_full hcfull)] at hback
  have hpsl : (h.bkts p).psl = j := by omega
  have hloc := (hwf.inv.loc p _ hp hview).trans hjp.symm
  rw [hpsl, Nat.add_comm _ j, Nat.add_comm (h.home F k) j] at hloc
  exact ⟨hfull, add_mod_inj (hwf.home_lt _) (hwf.home_lt _) hloc⟩

/-- For a key in no bucket: **the lookup is right exactly on the safe tables**. -/
theorem getCorrect_absent (hm : m k = none) : GetCorrect F h m k ↔ GetSafe F h k := by
  have hn := hwf.size_pos
  have hprobe : ∀ i, probe F h k i < h.size := fun i => Nat.mod_lt _ hn
  rw [getCorrect_absent_iff hm]
  rcases walk_cases F h k with hall | ⟨s, hs, hpass, hnot⟩
  · -- no slot stops the walk: the lookup fails, and no clause of `GetSafe` holds
    rw [rsHmapGet_exhausted hwf hall]
    simp only [Int.reduceNeg, Int.neg_eq_zero, one_ne_zero, false_and, false_iff]
    rintro (⟨p, hp, hfull, hk⟩ | ⟨-, p, hp, hor⟩ | ⟨-, i, hi, -, hlt⟩)
    · exact key_ne_of_full hfresh hp hfull hk
    · obtain ⟨hfull, hhome⟩ := home_eq_of_passes hwf hall hp
      rcases hor with hor | hor
      · rw [hfull] at hor; contradiction
      · exact hor hhome
    · exact absurd (hall i hi).2.2 (by omega)
  · by_cases hfull : h.bktFull (probe F h k s) = true
    · -- a full bucket stops the walk, so it is richer than the walk is long
      have hne := key_ne_of_full hfresh (hprobe s) hfull
      have hlt : (h.bkts (probe F h k s)).psl < s := by
        by_contra hge
        exact hnot ⟨hfull, hne, by omega⟩
      rw [rsHmapGet_stop hwf hs hpass hne (.inr hlt)]
      refine iff_of_true ⟨rfl, rfl⟩ (.inr ?_)
      by_cases hk : k = 0
      · refine .inr ⟨hk, s, hs, fun j hj => ?_, hlt⟩
        rcases Nat.lt_or_eq_of_le hj with hj | rfl
        · exact (hpass j hj).1
        · exact hfull
      · refine .inl ⟨hk, probe F h k s, hprobe s, .inr fun hhome => ?_⟩
        have hloc := hwf.inv.loc _ _ (hprobe s) (RsHmap.view_of_full hfull)
        rw [hhome] at hloc
        have := add_mod_inj (by omega) hs hloc
        omega
    · have hempty : h.bktFull (probe F h k s) = false := by simpa using hfull
      have hzero := hwf.zero _ (hprobe s) hempty
      by_cases hk : k = 0
      · -- the zero bytes of an empty bucket are taken for the key
        rw [rsHmapGet_match hwf hs hpass (by rw [hzero, hk]; rfl)]
        simp only [Bool.true_eq_false, and_false, false_iff]
        rintro (⟨p, hp, hpf, hpk⟩ | ⟨hk', -⟩ | ⟨-, i, hi, hfulls, hlt⟩)
        · exact key_ne_of_full hfresh hp hpf hpk
        · exact hk' hk
        · by_cases his : i < s
          · exact absurd (hpass i his).2.2 (by omega)
          · exact hfull (hfulls s (by omega))
      · rw [rsHmapGet_stop hwf hs hpass (by rw [hzero]; exact Ne.symm hk) (.inl hempty)]
        exact iff_of_true ⟨rfl, rfl⟩ (.inr (.inl ⟨hk, _, hprobe s, .inl hempty⟩))

end Lookup

/-- **When `rs_hmap_get` is right**, on every well-formed table. -/
theorem getCorrect_iff [Zero K] [Zero V] {F : FnPtrs K V} {h : RsHmap K V} {m : K → Option V}
    (hwf : WellFormed F h) (hrep : Rep h m) (k : K) : GetCorrect F h m k ↔ GetSafe F h k := by
  cases hm : m k with
  | none => exact getCorrect_absent hwf (hrep.fresh_iff.mpr hm) hm
  | some v =>
      obtain ⟨q, e, hq, he, hk, -⟩ := (hrep k v).mp hm
      obtain ⟨hfull, hb⟩ := RsHmap.view_eq_some.mp he
      exact iff_of_true (getCorrect_held hwf hrep hm) (.inl ⟨q, hq, hfull, by rw [hb, hk]⟩)

end QStore.Hmap
