import Mathlib.Combinatorics.Enumerative.DoubleCounting
import Mathlib.Data.Fintype.Card
import QStore.Lib.Probing

/-!
# QStore.Lib.Crowding

How long a Robin Hood table makes its probe lengths.

The slots from the last empty one up to an entry `d` slots from home are full, and by keys at
home between that empty slot and the home of the entry. So a run of `len` slots is then the home
of `len + d` keys (`Inv.crowded`, `Carried.crowded`), and where no run is, probe lengths stay
below `d`, those of the entries an insertion carries included.
-/

namespace QStore.RobinHood

open QStore.Ring Function

variable {κ ν : Type*} {n : Nat} {home : κ → Nat} {t : Nat → Option (Entry κ ν)}
  {K L : κ → Prop} {a c d d' p s : Nat} {e : Entry κ ν} {k : κ}

/-- Some run of `len` slots is the home of `len + d` of the keys. -/
def Crowded (n : Nat) (home : κ → Nat) (K : κ → Prop) (d : Nat) : Prop :=
  ∃ s len, ∃ ks : Finset κ, len + d ≤ ks.card ∧
    ∀ k ∈ ks, K k ∧ ∃ i, i < len ∧ (s + i) % n = home k

theorem Crowded.mono (h : Crowded n home K d) (hK : ∀ k, K k → L k) (hd : d' ≤ d) :
    Crowded n home L d' := by
  obtain ⟨s, len, ks, hcard, hks⟩ := h
  exact ⟨s, len, ks, by omega, fun k hk => ⟨hK k (hks k hk).1, (hks k hk).2⟩⟩

/-- Few keys crowd nothing. -/
theorem not_crowded_of_card {S : Finset κ} (hK : ∀ k, K k → k ∈ S) (hd : S.card < d) :
    ¬ Crowded n home K d := by
  rintro ⟨s, len, ks, hcard, hks⟩
  have := Finset.card_le_card fun k hk => hK k (hks k hk).1
  omega

/-! ## the cluster before an entry -/

/-- The last empty slot at or before offset `a`, counted from an empty one. -/
theorem exists_last_none (hs : t (s % n) = none) :
    ∃ c, c ≤ a ∧ t ((s + c) % n) = none ∧ ∀ i, c < i → i ≤ a → t ((s + i) % n) ≠ none := by
  induction a with
  | zero => exact ⟨0, le_rfl, hs, fun i h0 hi => by omega⟩
  | succ a ih =>
      by_cases hnone : t ((s + (a + 1)) % n) = none
      · exact ⟨a + 1, le_rfl, hnone, fun i h0 hi => by omega⟩
      · obtain ⟨c, hca, hc, hfull⟩ := ih
        refine ⟨c, by omega, hc, fun i h0 hi => ?_⟩
        rcases Nat.lt_or_eq_of_le hi with hi | rfl
        · exact hfull i h0 (by omega)
        · exact hnone

/-- A stretch of full slots after an empty one, up to `d` slots past slot `a` of it, where slot
`a + j` holds an entry `j` slots from home or more. -/
structure Stretch (n : Nat) (home : κ → Nat) (t : Nat → Option (Entry κ ν)) (s a d : Nat) :
    Prop where
  empty : t (s % n) = none
  full : ∀ i, i < a → ∃ f, t ((s + (i + 1)) % n) = some f
  far : ∀ j, j < d → ∃ f, t ((s + (a + j + 1)) % n) = some f ∧ j ≤ f.psl

/-- The slots of a stretch fit the ring. -/
theorem Stretch.lt (h : Stretch n home t s a d) (hn : 0 < n) : a + d < n := by
  by_contra hge
  have hback : (s + (n - 1 + 1)) % n = s % n := by
    rw [Nat.sub_add_cancel hn, Nat.add_mod_right]
  have hempty := h.empty
  rw [← hback] at hempty
  by_cases ha : n - 1 < a
  · obtain ⟨f, hf⟩ := h.full (n - 1) ha
    rw [hf] at hempty
    contradiction
  · obtain ⟨f, hf, -⟩ := h.far (n - 1 - a) (by omega)
    rw [show a + (n - 1 - a) + 1 = n - 1 + 1 by omega, hempty] at hf
    contradiction

/-- Each slot of a stretch holds a key at home in its first `a + 1` slots. -/
theorem Stretch.home_mem (h : Stretch n home t s a d) (hinv : Inv n home t) (hn : 0 < n) {i : Nat}
    (hhome : ∀ k, home k < n) (hi : i < a + d) :
    ∃ f, t ((s + (i + 1)) % n) = some f ∧ ∃ j, j < a + 1 ∧ (s + 1 + j) % n = home f.key := by
  obtain ⟨f, hf, hfar⟩ : ∃ f, t ((s + (i + 1)) % n) = some f ∧ i ≤ f.psl + a := by
    by_cases ha : i < a
    · obtain ⟨f, hf⟩ := h.full i ha
      exact ⟨f, hf, by omega⟩
    · obtain ⟨f, hf, hle⟩ := h.far (i - a) (by omega)
      rw [show a + (i - a) + 1 = i + 1 by omega] at hf
      exact ⟨f, hf, by omega⟩
  have hempty : t ((s + 0) % n) = none := h.empty
  have hback := hinv.room_back (s := s) (i := 0) (j := i + 1) hn
  rw [Nat.zero_add, room_of_some hf, room_of_none hempty] at hback
  refine ⟨f, hf, i - f.psl, by omega, ?_⟩
  -- `f` is `f.psl` slots past its home, and within the stretch
  have hloc := hinv.loc _ f (Nat.mod_lt _ hn) hf
  have heq : (f.psl + (s + 1 + (i - f.psl)) % n) % n = (f.psl + home f.key) % n := by
    rw [Nat.add_mod_mod, Nat.add_comm f.psl (home f.key), hloc]
    congr 1
    omega
  exact add_mod_inj (Nat.mod_lt _ hn) (hhome f.key) heq

/-- **A stretch crowds its home run**: `a + d` keys are at home in `a + 1` slots. -/
theorem Stretch.keys (h : Stretch n home t s a d) (hinv : Inv n home t) (hn : 0 < n)
    (hhome : ∀ k, home k < n) :
    ∃ ks : Finset κ, ks.card = a + d ∧
      ∀ k ∈ ks, (∃ v, Holds n t k v) ∧ ∃ j, j < a + 1 ∧ (s + 1 + j) % n = home k := by
  classical
  have hlt := h.lt hn
  choose f hf hhomes using fun i : Fin (a + d) => h.home_mem hinv hn hhome i.isLt
  refine ⟨Finset.univ.image fun i => (f i).key, ?_, ?_⟩
  · rw [Finset.card_image_of_injective, Finset.card_univ, Fintype.card_fin]
    intro i j hij
    have hslot := hinv.inj _ _ _ _ (Nat.mod_lt _ hn) (Nat.mod_lt _ hn) (hf i) (hf j) hij
    have := add_mod_inj (by omega) (by omega) hslot
    exact Fin.ext (by omega)
  · intro k hk
    obtain ⟨i, -, rfl⟩ := Finset.mem_image.mp hk
    exact ⟨⟨_, _, f i, Nat.mod_lt _ hn, hf i, rfl, rfl⟩, hhomes i⟩

/-- Entries far from their homes, from slot `a` on, are the end of a stretch. -/
theorem exists_stretch (hempty : ∃ z, z < n ∧ t z = none) (ha : a < n) (hd : 0 < d)
    (hfar : ∀ j, j < d → ∃ f, t ((a + j) % n) = some f ∧ j ≤ f.psl) :
    ∃ s b, (s + 1 + b) % n = a ∧ Stretch n home t s b d := by
  obtain ⟨z, hz, hnone⟩ := hempty
  obtain ⟨i, hi, hia⟩ := exists_add_mod_eq z ha
  obtain ⟨c, hci, hc, hfull⟩ := exists_last_none (t := t) (n := n) (s := z) (a := i)
    (by rw [Nat.mod_eq_of_lt hz]; exact hnone)
  have hne : c ≠ i := by
    rintro rfl
    obtain ⟨f, hf, -⟩ := hfar 0 hd
    rw [Nat.add_zero, Nat.mod_eq_of_lt ha, ← hia, hc] at hf
    contradiction
  refine ⟨z + c, i - (c + 1), ?_, hc, ?_, ?_⟩
  · rw [← hia]
    congr 1
    omega
  · intro j hj
    rw [show z + c + (j + 1) = z + (c + j + 1) by omega]
    exact Option.ne_none_iff_exists'.mp (hfull (c + j + 1) (by omega) (by omega))
  · intro j hj
    rw [show z + c + (i - (c + 1) + j + 1) = z + i + j by omega, ← Nat.mod_add_mod, hia]
    exact hfar j hj

/-! ## how far from home -/

/-- An entry `d` slots from home is in a crowd of the keys of its table. -/
theorem Inv.crowded (hinv : Inv n home t) (hhome : ∀ k, home k < n)
    (hempty : ∃ z, z < n ∧ t z = none) (hp : p < n) (he : t p = some e) :
    Crowded n home (fun k => ∃ v, Holds n t k v) e.psl := by
  obtain ⟨s, b, -, hs⟩ := exists_stretch (d := e.psl + 1) hempty (hhome e.key) (Nat.succ_pos _)
    fun j hj => hinv.walk hp he (by omega)
  obtain ⟨ks, hcard, hks⟩ := hs.keys hinv (Nat.zero_lt_of_lt hp) hhome
  exact ⟨s + 1, b + 1, ks, by omega, hks⟩

/-- An entry carried `d` slots from home is in a crowd of its key and the keys of the table. -/
theorem Carried.crowded (hc : Carried n home t k d p) (hinv : Inv n home t)
    (hhome : ∀ k, home k < n) (hempty : ∃ z, z < n ∧ t z = none) (hfresh : Fresh n t k) :
    Crowded n home (fun x => x = k ∨ ∃ v, Holds n t x v) d := by
  classical
  have hn : 0 < n := hempty.elim fun z hz => Nat.zero_lt_of_lt hz.1
  by_cases hd : d = 0
  · subst hd
    exact ⟨0, 0, ∅, le_rfl, fun x hx => absurd hx (Finset.notMem_empty x)⟩
  · obtain ⟨m, rfl⟩ : ∃ m, d = m + 1 := ⟨d - 1, by omega⟩
    -- the slot before `p` leaves room for the entry, and those before it for shorter ones
    have hbound := hc.bound _ (Nat.mod_lt (home k + m) hn) (by rw [← add_succ_mod hn]; exact hc.loc)
    have hfar : ∀ j, j < m + 1 → ∃ f, t ((home k + j) % n) = some f ∧ j ≤ f.psl := by
      intro j hj
      have hback := hinv.room_back (s := home k) (i := j) (j := m - j) hn
      rw [show j + (m - j) = m by omega] at hback
      obtain ⟨f, hf, hroom⟩ := exists_of_room_pos (t := t) (p := (home k + j) % n) (by omega)
      exact ⟨f, hf, by omega⟩
    obtain ⟨s, b, hb, hs⟩ := exists_stretch hempty (hhome k) (Nat.succ_pos m) hfar
    obtain ⟨ks, hcard, hks⟩ := hs.keys hinv hn hhome
    have hnot : k ∉ ks := fun hk =>
      (hks k hk).1.elim fun v hv => fresh_iff_not_holds.mp hfresh v hv
    refine ⟨s + 1, b + 1, insert k ks, ?_, ?_⟩
    · rw [Finset.card_insert_of_notMem hnot]
      omega
    · intro x hx
      rcases Finset.mem_insert.mp hx with rfl | hx
      · exact ⟨.inl rfl, b, Nat.lt_succ_self b, hb⟩
      · exact ⟨.inr (hks x hx).1, (hks x hx).2⟩

/-- Conversely, where all probe lengths are below `d` no keys of the table make a crowd of `d`:
those at home in a run of `len` slots are in `len + d - 1` slots. -/
theorem Inv.not_crowded (hinv : Inv n home t) (hd : 0 < d)
    (hpsl : ∀ p e, p < n → t p = some e → e.psl < d) :
    ¬ Crowded n home (fun k => ∃ v, Holds n t k v) d := by
  rintro ⟨s, len, ks, hcard, hks⟩
  have hle : ks.card ≤ (Finset.range (len + d - 1)).card := by
    refine Finset.card_le_card_of_forall_subsingleton
      (fun k o => ∃ e, t ((s + o) % n) = some e ∧ e.key = k) ?_ ?_
    · intro k hk
      obtain ⟨⟨-, p, e, hp, he, rfl, -⟩, i, hi, hhome⟩ := hks k hk
      have hlt := hpsl p e hp he
      refine ⟨i + e.psl, Finset.mem_range.mpr (by omega), e, ?_, rfl⟩
      have hloc := hinv.loc p e hp he
      rw [← hhome, Nat.mod_add_mod, Nat.add_assoc] at hloc
      rw [hloc]
      exact he
    · rintro o - k ⟨-, e, he, rfl⟩ k' ⟨-, e', he', rfl⟩
      rw [he, Option.some.injEq] at he'
      rw [he']
  rw [Finset.card_range] at hle
  omega

/-- What an insertion carries stays below `d` slots from home, if the keys there are then make no
crowd of `d`. -/
theorem Carrying.psl_lt_of_not_crowded {entry : Entry κ ν} {left : Nat}
    (h : Carrying n home t entry p left) (hhome : ∀ k, home k < n)
    (hK : ¬ Crowded n home K d) (hall : ∀ x, (x = entry.key ∨ ∃ v, Holds n t x v) → K x) :
    entry.psl < d := by
  by_contra hge
  obtain ⟨j, -, hnone⟩ := h.empty
  have hempty : ∃ z, z < n ∧ t z = none := ⟨_, Nat.mod_lt _ (Nat.zero_lt_of_lt h.lt), hnone⟩
  exact hK ((h.carried.crowded h.inv hhome hempty h.fresh).mono hall (not_lt.mp hge))

/-- The keys of a table and of the entry it displaces are those of the table before, with the
entry that took the slot. -/
theorem has_displaced {entry : Entry κ ν} {x : κ} (hp : p < n) (he : t p = some e)
    (hx : x = e.key ∨ ∃ v, Holds n (update t p (some entry)) x v) :
    x = entry.key ∨ ∃ v, Holds n t x v := by
  have hdis : ∃ v, Holds n (update t p (some entry)) x v ∨ (e.key = x ∧ e.val = v) := by
    rcases hx with rfl | ⟨v, hv⟩
    · exact ⟨e.val, .inr ⟨rfl, rfl⟩⟩
    · exact ⟨v, .inl hv⟩
  obtain ⟨v, hdis⟩ := hdis
  rcases (holds_displace hp he).mp hdis with hv | ⟨hk, -⟩
  · exact .inr ⟨v, hv⟩
  · exact .inl hk.symm

end QStore.RobinHood
