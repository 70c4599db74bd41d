import QStore.Magg.Del

/-!
# QStore.Magg.Get

`hmap_get` (`hmap_get.tmpl.lua`). It compares the key of a bucket before it asks whether the
bucket is empty, which is right for keys other than 0.
-/

namespace QStore.Magg

open QStore.Ring QStore.RobinHood

section Model

variable {K V : Type} [DecidableEq K] [Zero K] [Zero V]

/-- What `hmap_get` returns and writes. -/
structure GetResult (V : Type) where
  status : Int
  val : V
  cnt : Nat
  isFound : Bool

/-- The loop of `hmap_get` at `probe_loc = p`, with `size - num_probes` turns left. -/
def getLoop (h : HMap K V) (key : K) : Nat → Nat → Nat → GetResult V
  | 0, _, _ => ⟨-1, 0, 0, false⟩
  | left + 1, numProbes, p =>
      if (h.bkts p).key = key then ⟨0, (h.bkts p).val.val, (h.bkts p).val.cnt, true⟩
      else if (h.bkts p).key = 0 ∨ numProbes > (h.bkts p).psl then ⟨0, 0, 0, false⟩
      else getLoop h key left (numProbes + 1) (next h.size p)

/-- `hmap_get`. A value that is not written is 0. -/
def hmapGet (murmurhash3 : K → UInt64 → UInt32) (h : HMap K V) (key : K) : GetResult V :=
  if h.size ≤ h.home murmurhash3 key then ⟨-1, 0, 0, false⟩
  else getLoop h key h.size 0 (h.home murmurhash3 key)

/-- What a lookup owes its caller. -/
def answer : Option (Cell V) → GetResult V
  | none => ⟨0, 0, 0, false⟩
  | some c => ⟨0, c.val, c.cnt, true⟩

end Model

variable {K V : Type} [DecidableEq K] [Zero K] [Zero V] {murmurhash3 : K → UInt64 → UInt32}
  {h : HMap K V} {m : K → Option (Cell V)} {key : K}

/-- The lookup reaches the bucket of a held key. -/
theorem getLoop_held (hg : WellFormed murmurhash3 h) {q : Nat} {e : Bkt K V} (hq : q < h.size)
    (he : h.view q = some e) :
    getLoop h e.key h.size 0 (h.home murmurhash3 e.key) = ⟨0, e.val.val, e.val.cnt, true⟩ := by
  have hpsl := hg.inv.psl_lt q e hq he
  have hwalk := hg.inv.walk_to hq he (P := fun i => getLoop h e.key (h.size - i) i
    ((h.home murmurhash3 e.key + i) % h.size) = ⟨0, e.val.val, e.val.cnt, true⟩)
  rw [Nat.sub_zero, Nat.add_zero (h.home murmurhash3 e.key),
    Nat.mod_eq_of_lt (hg.home_lt _)] at hwalk
  apply hwalk
  · obtain ⟨left, hleft⟩ : ∃ left, h.size - e.psl = left + 1 := ⟨h.size - e.psl - 1, by omega⟩
    obtain ⟨hb, -⟩ := HMap.view_eq_some.mp he
    rw [hg.inv.loc q e hq he, hleft, getLoop, hb, if_pos rfl]
  · intro i f hi hf hle hne hrest
    obtain ⟨left, hleft⟩ : ∃ left, h.size - i = left + 1 := ⟨h.size - i - 1, by omega⟩
    obtain ⟨hb, hf0⟩ := HMap.view_eq_some.mp hf
    rw [hleft, getLoop, hb, if_neg hne, if_neg (not_or.mpr ⟨hf0, not_lt.mpr hle⟩),
      ← add_succ_mod (by omega), show left = h.size - (i + 1) by omega]
    exact hrest

/-- The lookup of a key in no bucket ends within the turns that take it to an empty bucket. -/
theorem getLoop_fresh (hk : key ≠ 0) (hfresh : Fresh h.size h.view key) {left i p j : Nat}
    (hp : p < h.size) (hj : j < left) (hnone : h.view ((p + j) % h.size) = none) :
    getLoop h key left i p = ⟨0, 0, 0, false⟩ := by
  induction left generalizing i p j with
  | zero => omega
  | succ left ih =>
      have hne : (h.bkts p).key ≠ key := by
        by_cases h0 : (h.bkts p).key = 0
        · rw [h0]
          exact Ne.symm hk
        · exact hfresh p _ hp (HMap.view_eq_some.mpr ⟨rfl, h0⟩)
      rw [getLoop, if_neg hne]
      split
      · rfl
      · next hgo =>
        cases j with
        | zero =>
            rw [Nat.add_zero, Nat.mod_eq_of_lt hp, HMap.view_eq_none] at hnone
            exact absurd (.inl hnone) hgo
        | succ j =>
            rw [succ_add_mod hp] at hnone
            exact ih (next_lt hp) (by omega) hnone

/-- **The lookup** is right about every key but 0. -/
theorem hmapGet_spec (hg : WellFormed murmurhash3 h) (hrep : Rep h m) (hroom : h.nitems < h.size)
    (hk : key ≠ 0) : hmapGet murmurhash3 h key = answer (m key) := by
  have hhome := hg.home_lt key
  rw [hmapGet, if_neg (Nat.not_le.mpr hhome)]
  cases hm : m key with
  | none =>
      obtain ⟨z, hz, hnone⟩ := hg.exists_empty hroom
      obtain ⟨j, hj, hjz⟩ := exists_add_mod_eq (h.home murmurhash3 key) hz
      exact getLoop_fresh hk (hrep.fresh_iff.mpr hm) hhome hj (by rw [hjz]; exact hnone)
  | some c =>
      obtain ⟨q, e, hq, he, rfl, rfl⟩ := (hrep key c).mp hm
      exact getLoop_held hg hq he

omit [Zero V] in
open Classical in
/-- The number of items is the number of keys. -/
theorem exists_keys (hg : WellFormed murmurhash3 h) (hrep : Rep h m) :
    ∃ ks : Finset K, (∀ k, k ∈ ks ↔ m k ≠ none) ∧ ks.card = h.nitems := by
  refine ⟨((Finset.range h.size).filter fun p => (h.view p).isSome).image fun p => (h.bkts p).key,
    fun k => ?_, ?_⟩
  · rw [Option.ne_none_iff_exists', ← hrep.has_iff]
    simp only [Finset.mem_image, Finset.mem_filter, Finset.mem_range, Option.isSome_iff_exists]
    constructor
    · rintro ⟨p, ⟨hp, e, he⟩, rfl⟩
      obtain ⟨hb, -⟩ := HMap.view_eq_some.mp he
      exact ⟨e.val, p, e, hp, he, by rw [hb], rfl⟩
    · rintro ⟨c, p, e, hp, he, rfl, -⟩
      obtain ⟨hb, -⟩ := HMap.view_eq_some.mp he
      exact ⟨p, ⟨hp, e, he⟩, by rw [hb]⟩
  · rw [Finset.card_image_of_injOn, hg.nitems_eq]
    · rfl
    · intro p hp q hq hpq
      simp only [Finset.coe_filter, Finset.mem_range, Set.mem_ofPred_eq,
        Option.isSome_iff_exists] at hp hq
      obtain ⟨hp, e, he⟩ := hp
      obtain ⟨hq, f, hf⟩ := hq
      refine hg.inv.inj p q e f hp hq he hf ?_
      rw [← (HMap.view_eq_some.mp he).1, ← (HMap.view_eq_some.mp hf).1]
      exact hpq

end QStore.Magg
