import QStore.Lib.Ring
import Mathlib.Data.Finset.Card
import Mathlib.Data.Finset.Range
import Mathlib.Logic.Function.Basic

/-!
# QStore.Lib.RobinHood

Robin Hood open addressing over an abstract table: a ring of `n` slots, each
empty or holding an entry `(key, psl, val)`, where `psl` counts the slots
between the entry and the home slot of its key.

```
order:   psl (next p)  ≤  room p,     room p = 0 if p is empty, psl p + 1 otherwise
```

Everything an implementation relies on follows from `order` and `loc`: walking
from the home of a held key meets no empty slot and no entry that is richer
than the walk is long (`Inv.walk`). The rest of the file is what one step of an
insertion or of a backward-shift deletion does to the invariant, to the held
pairs and to the number of full slots.
-/

namespace QStore.RobinHood

open QStore.Ring Function

/-- What a full slot holds. -/
structure Entry (κ ν : Type*) where
  key : κ
  psl : Nat
  val : ν

variable {κ ν : Type*} {n : Nat} {home : κ → Nat} {t : Nat → Option (Entry κ ν)}
  {p q s d i j : Nat} {e f : Entry κ ν} {k : κ} {v : ν}

/-- The largest probe length the slot after `p` may hold. -/
def room (t : Nat → Option (Entry κ ν)) (p : Nat) : Nat :=
  match t p with
  | none => 0
  | some e => e.psl + 1

theorem room_of_none (h : t p = none) : room t p = 0 := by
  simp [room, h]

theorem room_of_some (h : t p = some e) : room t p = e.psl + 1 := by
  simp [room, h]

theorem exists_of_room_pos (h : 0 < room t p) : ∃ e, t p = some e ∧ room t p = e.psl + 1 := by
  cases hp : t p with
  | none => rw [room_of_none hp] at h; omega
  | some e => exact ⟨e, rfl, room_of_some hp⟩

@[simp] theorem room_update_self (o : Option (Entry κ ν)) :
    room (update t p o) p = match o with | none => 0 | some e => e.psl + 1 := by
  simp [room]

theorem room_update_of_ne (h : q ≠ p) (o : Option (Entry κ ν)) :
    room (update t p o) q = room t q := by
  simp [room, update_of_ne h]

/-- The Robin Hood invariant of a table of `n` slots. `cut` is a slot that no
cluster crosses: without it a deletion could shift around the ring forever. -/
structure Inv (n : Nat) (home : κ → Nat) (t : Nat → Option (Entry κ ν)) : Prop where
  loc : ∀ p e, p < n → t p = some e → (home e.key + e.psl) % n = p
  order : ∀ p e, p < n → t (next n p) = some e → e.psl ≤ room t p
  inj : ∀ p q e f, p < n → q < n → t p = some e → t q = some f → e.key = f.key → p = q
  psl_lt : ∀ p e, p < n → t p = some e → e.psl < n
  cut : ∃ c, c < n ∧ ∀ e, t c = some e → e.psl = 0

/-- The table holds the pair `(k, v)`. -/
def Holds (n : Nat) (t : Nat → Option (Entry κ ν)) (k : κ) (v : ν) : Prop :=
  ∃ p e, p < n ∧ t p = some e ∧ e.key = k ∧ e.val = v

/-- No slot holds the key. -/
def Fresh (n : Nat) (t : Nat → Option (Entry κ ν)) (k : κ) : Prop :=
  ∀ p e, p < n → t p = some e → e.key ≠ k

theorem fresh_iff_not_holds : Fresh n t k ↔ ∀ v, ¬ Holds n t k v := by
  constructor
  · rintro h v ⟨p, e, hp, he, hk, -⟩
    exact h p e hp he hk
  · intro h p e hp he hk
    exact h e.val ⟨p, e, hp, he, hk, rfl⟩

/-- The empty table. -/
theorem Inv.empty (hn : 0 < n) : Inv n home (fun _ => (none : Option (Entry κ ν))) where
  loc := by simp
  order := by simp
  inj := by simp
  psl_lt := by simp
  cut := ⟨0, hn, by simp⟩

/-! ## walking a cluster backwards -/

/-- The order condition, as a bound on the growth of `room`. -/
theorem Inv.room_next_le (h : Inv n home t) (hp : p < n) : room t (next n p) ≤ room t p + 1 := by
  cases hq : t (next n p) with
  | none => rw [room_of_none hq]; omega
  | some e => rw [room_of_some hq]; exact Nat.succ_le_succ (h.order p e hp hq)

/-- Going back `j` slots loses at most `j` units of room. -/
theorem Inv.room_back (h : Inv n home t) (hn : 0 < n) :
    room t ((s + (i + j)) % n) ≤ room t ((s + i) % n) + j := by
  induction j with
  | zero => simp
  | succ j ih =>
      have hstep := h.room_next_le (p := (s + (i + j)) % n) (Nat.mod_lt _ hn)
      rw [← add_succ_mod hn] at hstep
      rw [show i + (j + 1) = i + j + 1 by omega]
      omega

/-- **Walking to a held key**: every slot from the home of a held key up to
its own is full, and by an entry at least as far from its home as the walk. -/
theorem Inv.walk (h : Inv n home t) (hq : q < n) (he : t q = some e) (hi : i ≤ e.psl) :
    ∃ f, t ((home e.key + i) % n) = some f ∧ i ≤ f.psl := by
  have hn : 0 < n := by omega
  have hback := h.room_back (s := home e.key) (i := i) (j := e.psl - i) hn
  rw [show i + (e.psl - i) = e.psl by omega, h.loc q e hq he, room_of_some he] at hback
  obtain ⟨f, hf, hroom⟩ := exists_of_room_pos (t := t) (p := (home e.key + i) % n) (by omega)
  exact ⟨f, hf, by omega⟩

/-- Before its own slot, the walk to a held key meets other keys only. -/
theorem Inv.walk_ne (h : Inv n home t) (hq : q < n) (he : t q = some e) (hi : i < e.psl)
    (hf : t ((home e.key + i) % n) = some f) : f.key ≠ e.key := by
  intro hk
  have hn : 0 < n := by omega
  have hpos := h.inj _ q f e (Nat.mod_lt _ hn) hq hf he hk
  rw [← h.loc q e hq he] at hpos
  have hlt := h.psl_lt q e hq he
  have := add_mod_inj (by omega) hlt hpos
  omega

/-! ## the entry an insertion carries -/

/-- An entry of probe length `d` for key `k` may be stored at `p`: `p` is
where it belongs, and the slot before leaves room for it. -/
structure Carried (n : Nat) (home : κ → Nat) (t : Nat → Option (Entry κ ν))
    (k : κ) (d p : Nat) : Prop where
  loc : (home k + d) % n = p
  bound : ∀ q, q < n → next n q = p → d ≤ room t q

/-- A fresh key is carried at its home with probe length `0`. -/
theorem Carried.start (hk : home k < n) : Carried n home t k 0 (home k) where
  loc := by rw [Nat.add_zero, Nat.mod_eq_of_lt hk]
  bound := fun _ _ _ => Nat.zero_le _

theorem Carried.lt (hc : Carried n home t k d p) (hn : 0 < n) : p < n := by
  rw [← hc.loc]
  exact Nat.mod_lt _ hn

/-- A richer carried entry moves on, one slot further from home. -/
theorem Carried.skip (hc : Carried n home t k d p) (hn : 0 < n) (he : t p = some e)
    (hd : d ≤ e.psl) : Carried n home t k (d + 1) (next n p) where
  loc := by rw [add_succ_mod hn, hc.loc]
  bound := by
    intro q hq hnext
    rw [next_inj hq (hc.lt hn) hnext, room_of_some he]
    omega

/-- While some slot is empty no carried entry is `n` slots from home. -/
theorem Carried.psl_lt (hc : Carried n home t k d p) (h : Inv n home t)
    (hempty : ∃ z, z < n ∧ t z = none) : d < n := by
  obtain ⟨z, hz, hnone⟩ := hempty
  have hn : 0 < n := by omega
  by_contra hge
  obtain ⟨j, hj, hjz⟩ := exists_add_mod_eq (home k) hz
  -- the slot before `p` is `d - 1` steps from home, at or beyond the empty one
  obtain ⟨i, rfl⟩ : ∃ i, d = j + i + 1 := ⟨d - j - 1, by omega⟩
  have hprev : (home k + (j + i)) % n < n := Nat.mod_lt _ hn
  have hbound := hc.bound _ hprev (by rw [← add_succ_mod hn]; exact hc.loc)
  have hback := h.room_back (s := home k) (i := j) (j := i) hn
  rw [hjz, room_of_none hnone] at hback
  omega

/-! ## displacing and filling -/

section Store

variable (hinv : Inv n home t) (hc : Carried n home t k d p)
  (hempty : ∃ z, z < n ∧ t z = none) (hfresh : Fresh n t k)
include hinv hc hempty hfresh

/-- Storing the carried entry at its slot keeps everything but the cut, as long
as the slot holds nothing poorer. -/
theorem store_core (hp : ∀ e, t p = some e → e.psl < d) (v : ν) :
    let t' := update t p (some ⟨k, d, v⟩)
    (∀ q e, q < n → t' q = some e → (home e.key + e.psl) % n = q) ∧
    (∀ q e, q < n → t' (next n q) = some e → e.psl ≤ room t' q) ∧
    (∀ q r e f, q < n → r < n → t' q = some e → t' r = some f → e.key = f.key → q = r) ∧
    (∀ q e, q < n → t' q = some e → e.psl < n) := by
  obtain ⟨z, hz, hnone⟩ := hempty
  have hn : 0 < n := by omega
  have hd : d < n := hc.psl_lt hinv ⟨z, hz, hnone⟩
  refine ⟨?_, ?_, ?_, ?_⟩
  · intro q e hq he
    by_cases hqp : q = p
    · subst hqp
      rw [update_self, Option.some.injEq] at he
      subst he
      exact hc.loc
    · rw [update_of_ne hqp] at he
      exact hinv.loc q e hq he
  · intro q e hq he
    -- the room of a slot only grows, and the new entry fits the slot before it
    have hroom : room t q ≤ room (update t p (some ⟨k, d, v⟩)) q := by
      by_cases hqp : q = p
      · subst hqp
        rw [room_update_self]
        cases hq' : t q with
        | none => rw [room_of_none hq']; exact Nat.zero_le _
        | some f => rw [room_of_some hq']; have := hp f hq'; simp only; omega
      · rw [room_update_of_ne hqp]
    by_cases hnext : next n q = p
    · rw [hnext, update_self, Option.some.injEq] at he
      subst he
      exact (hc.bound q hq hnext).trans hroom
    · rw [update_of_ne hnext] at he
      exact (hinv.order q e hq he).trans hroom
  · intro q r e f hq hr he hf hkey
    by_cases hqp : q = p <;> by_cases hrp : r = p
    · rw [hqp, hrp]
    · rw [hqp, update_self, Option.some.injEq] at he
      rw [update_of_ne hrp] at hf
      subst he
      exact absurd hkey.symm (hfresh r f hr hf)
    · rw [update_of_ne hqp] at he
      rw [hrp, update_self, Option.some.injEq] at hf
      subst hf
      exact absurd hkey (hfresh q e hq he)
    · rw [update_of_ne hqp] at he
      rw [update_of_ne hrp] at hf
      exact hinv.inj q r e f hq hr he hf hkey
  · intro q e hq he
    by_cases hqp : q = p
    · rw [hqp, update_self, Option.some.injEq] at he
      subst he
      exact hd
    · rw [update_of_ne hqp] at he
      exact hinv.psl_lt q e hq he

/-- **Displacing** a richer entry keeps the invariant. -/
theorem Inv.displace (he : t p = some e) (hlt : e.psl < d) (v : ν) :
    Inv n home (update t p (some ⟨k, d, v⟩)) := by
  have hp : ∀ f, t p = some f → f.psl < d := by
    intro f hf
    rw [he, Option.some.injEq] at hf
    exact hf ▸ hlt
  obtain ⟨hloc, horder, hkeys, hpsl⟩ := store_core hinv hc hempty hfresh hp v
  obtain ⟨z, hz, hnone⟩ := hempty
  refine ⟨hloc, horder, hkeys, hpsl, z, hz, ?_⟩
  have hzp : z ≠ p := by rintro rfl; rw [hnone] at he; contradiction
  rw [update_of_ne hzp, hnone]
  simp

/-- **Filling** an empty slot keeps the invariant. The slot after it can only
hold an entry at its home, and becomes the cut. -/
theorem Inv.fill (hp : t p = none) (v : ν) : Inv n home (update t p (some ⟨k, d, v⟩)) := by
  obtain ⟨hloc, horder, hkeys, hpsl⟩ :=
    store_core hinv hc hempty hfresh (fun e he => by rw [hp] at he; contradiction) v
  have hn : 0 < n := hempty.elim fun z hz => by omega
  have hpn : p < n := hc.lt hn
  refine ⟨hloc, horder, hkeys, hpsl, next n p, next_lt hpn, ?_⟩
  intro e he
  by_cases hnext : next n p = p
  · have h1 : n = 1 := eq_one_of_next_eq_self hpn hnext
    have := hpsl _ e (next_lt hpn) he
    omega
  · rw [update_of_ne hnext] at he
    have := hinv.order p e hpn he
    rw [room_of_none hp] at this
    omega

omit hempty hfresh in
/-- The displaced entry is carried on from the next slot. -/
theorem Carried.displaced (hn : 0 < n) (he : t p = some e) (hlt : e.psl < d) (v : ν) :
    Carried n home (update t p (some ⟨k, d, v⟩)) e.key (e.psl + 1) (next n p) where
  loc := by rw [add_succ_mod hn, hinv.loc p e (hc.lt hn) he]
  bound := by
    intro q hq hnext
    rw [next_inj hq (hc.lt hn) hnext, room_update_self]
    simp only
    omega

omit hempty in
/-- The displaced key is no longer in the table. -/
theorem fresh_displaced (hn : 0 < n) (he : t p = some e) (v : ν) :
    Fresh n (update t p (some ⟨k, d, v⟩)) e.key := by
  intro q f hq hf hkey
  by_cases hqp : q = p
  · rw [hqp, update_self, Option.some.injEq] at hf
    subst hf
    exact hfresh p e (hc.lt hn) he hkey.symm
  · rw [update_of_ne hqp] at hf
    exact hqp (hinv.inj q p f e hq (hc.lt hn) hf he hkey)

end Store

/-! ## what a store does to the held pairs -/

/-- Filling adds one pair. -/
theorem holds_fill (hp : p < n) (hnone : t p = none) {x : κ} {w : ν} :
    Holds n (update t p (some e)) x w ↔ Holds n t x w ∨ (e.key = x ∧ e.val = w) := by
  constructor
  · rintro ⟨q, f, hq, hf, hk, hv⟩
    by_cases hqp : q = p
    · rw [hqp, update_self, Option.some.injEq] at hf
      subst hf
      exact .inr ⟨hk, hv⟩
    · rw [update_of_ne hqp] at hf
      exact .inl ⟨q, f, hq, hf, hk, hv⟩
  · rintro (⟨q, f, hq, hf, hk, hv⟩ | ⟨hk, hv⟩)
    · have hqp : q ≠ p := by rintro rfl; rw [hnone] at hf; contradiction
      exact ⟨q, f, hq, by rw [update_of_ne hqp, hf], hk, hv⟩
    · exact ⟨p, e, hp, update_self .., hk, hv⟩

/-- Displacing exchanges the pair of the slot for the carried one. -/
theorem holds_displace (hp : p < n) (hf : t p = some f) {x : κ} {w : ν} :
    (Holds n (update t p (some e)) x w ∨ (f.key = x ∧ f.val = w)) ↔
      (Holds n t x w ∨ (e.key = x ∧ e.val = w)) := by
  constructor
  · rintro (⟨q, g, hq, hg, hk, hv⟩ | ⟨hk, hv⟩)
    · by_cases hqp : q = p
      · rw [hqp, update_self, Option.some.injEq] at hg
        subst hg
        exact .inr ⟨hk, hv⟩
      · rw [update_of_ne hqp] at hg
        exact .inl ⟨q, g, hq, hg, hk, hv⟩
    · exact .inl ⟨p, f, hp, hf, hk, hv⟩
  · rintro (⟨q, g, hq, hg, hk, hv⟩ | ⟨hk, hv⟩)
    · by_cases hqp : q = p
      · rw [hqp, hf, Option.some.injEq] at hg
        subst hg
        exact .inr ⟨hk, hv⟩
      · exact .inl ⟨q, g, hq, by rw [update_of_ne hqp, hg], hk, hv⟩
    · exact .inl ⟨p, e, hp, update_self .., hk, hv⟩

/-! ## replacing a value in place -/

/-- Only the value of a full slot changes. -/
theorem Inv.setVal (h : Inv n home t) (he : t p = some e) (v : ν) :
    Inv n home (update t p (some { e with val := v })) := by
  have hsame : ∀ q f, update t p (some { e with val := v }) q = some f →
      ∃ g, t q = some g ∧ g.key = f.key ∧ g.psl = f.psl := by
    intro q f hf
    by_cases hqp : q = p
    · rw [hqp, update_self, Option.some.injEq] at hf
      subst hf
      exact ⟨e, by rw [hqp, he], rfl, rfl⟩
    · rw [update_of_ne hqp] at hf
      exact ⟨f, hf, rfl, rfl⟩
  have hroom : ∀ q, room (update t p (some { e with val := v })) q = room t q := by
    intro q
    by_cases hqp : q = p
    · rw [hqp, room_update_self, room_of_some he]
    · exact room_update_of_ne hqp _
  refine ⟨?_, ?_, ?_, ?_, ?_⟩
  · intro q f hq hf
    obtain ⟨g, hg, hk, hpsl⟩ := hsame q f hf
    rw [← hk, ← hpsl]
    exact h.loc q g hq hg
  · intro q f hq hf
    obtain ⟨g, hg, -, hpsl⟩ := hsame _ f hf
    rw [hroom, ← hpsl]
    exact h.order q g hq hg
  · intro q r f g hq hr hf hg hk
    obtain ⟨f', hf', hkf, -⟩ := hsame q f hf
    obtain ⟨g', hg', hkg, -⟩ := hsame r g hg
    exact h.inj q r f' g' hq hr hf' hg' (by rw [hkf, hkg, hk])
  · intro q f hq hf
    obtain ⟨g, hg, -, hpsl⟩ := hsame q f hf
    rw [← hpsl]
    exact h.psl_lt q g hq hg
  · obtain ⟨c, hc, hcut⟩ := h.cut
    refine ⟨c, hc, fun f hf => ?_⟩
    obtain ⟨g, hg, -, hpsl⟩ := hsame c f hf
    rw [← hpsl]
    exact hcut g hg

/-- Replacing a value changes the pair of its key and no other. -/
theorem Inv.holds_setVal (h : Inv n home t) (hp : p < n) (he : t p = some e) {x : κ} {v w : ν} :
    Holds n (update t p (some { e with val := v })) x w ↔
      (x = e.key ∧ w = v) ∨ (x ≠ e.key ∧ Holds n t x w) := by
  constructor
  · rintro ⟨q, f, hq, hf, rfl, rfl⟩
    by_cases hqp : q = p
    · rw [hqp, update_self, Option.some.injEq] at hf
      subst hf
      exact .inl ⟨rfl, rfl⟩
    · rw [update_of_ne hqp] at hf
      exact .inr ⟨fun hk => hqp (h.inj q p f e hq hp hf he hk), q, f, hq, hf, rfl, rfl⟩
  · rintro (⟨rfl, rfl⟩ | ⟨hne, q, f, hq, hf, rfl, rfl⟩)
    · exact ⟨p, _, hp, update_self .., rfl, rfl⟩
    · have hqp : q ≠ p := by
        rintro rfl
        rw [he, Option.some.injEq] at hf
        exact hne (hf ▸ rfl)
      exact ⟨q, f, hq, by rw [update_of_ne hqp, hf], rfl, rfl⟩

/-! ## backward-shift deletion -/

/-- A table with a hole at `x` that the slots after it may still have to
close: the invariant, except that the slot after the hole is bounded by the
slot before it. -/
structure Hole (n : Nat) (home : κ → Nat) (t : Nat → Option (Entry κ ν)) (x : Nat) : Prop where
  lt : x < n
  vacant : t x = none
  loc : ∀ p e, p < n → t p = some e → (home e.key + e.psl) % n = p
  order : ∀ p e, p < n → p ≠ x → t (next n p) = some e → e.psl ≤ room t p
  bound : ∀ q e, q < n → next n q = x → t (next n x) = some e → e.psl ≤ room t q + 1
  inj : ∀ p q e f, p < n → q < n → t p = some e → t q = some f → e.key = f.key → p = q
  psl_lt : ∀ p e, p < n → t p = some e → e.psl < n

/-- Emptying a full slot leaves a hole. -/
theorem Inv.remove (h : Inv n home t) (hp : p < n) (he : t p = some e) :
    Hole n home (update t p none) p where
  lt := hp
  vacant := update_self ..
  loc := by
    intro q f hq hf
    have hqp : q ≠ p := by rintro rfl; simp at hf
    rw [update_of_ne hqp] at hf
    exact h.loc q f hq hf
  order := by
    intro q f hq hqp hf
    have hnext : next n q ≠ p := by intro hx; rw [hx] at hf; simp at hf
    rw [update_of_ne hnext] at hf
    rw [room_update_of_ne hqp]
    exact h.order q f hq hf
  bound := by
    intro q f hq hnext hf
    have hpp : next n p ≠ p := by intro hx; rw [hx] at hf; simp at hf
    have hqp : q ≠ p := by rintro rfl; exact hpp hnext
    rw [update_of_ne hpp] at hf
    rw [room_update_of_ne hqp]
    have h1 := h.order p f hp hf
    have h2 := h.order q e hq (by rw [hnext]; exact he)
    rw [room_of_some he] at h1
    omega
  inj := by
    intro q r f g hq hr hf hg hk
    have hqp : q ≠ p := by rintro rfl; simp at hf
    have hrp : r ≠ p := by rintro rfl; simp at hg
    rw [update_of_ne hqp] at hf
    rw [update_of_ne hrp] at hg
    exact h.inj q r f g hq hr hf hg hk
  psl_lt := by
    intro q f hq hf
    have hqp : q ≠ p := by rintro rfl; simp at hf
    rw [update_of_ne hqp] at hf
    exact h.psl_lt q f hq hf

/-- A hole followed by an empty slot or by an entry at its home is closed. -/
theorem Hole.close {x : Nat} (h : Hole n home t x)
    (hstop : ∀ e, t (next n x) = some e → e.psl = 0) : Inv n home t where
  loc := h.loc
  order := by
    intro p e hp he
    by_cases hpx : p = x
    · subst hpx
      rw [hstop e he]
      exact Nat.zero_le _
    · exact h.order p e hp hpx he
  inj := h.inj
  psl_lt := h.psl_lt
  cut := ⟨x, h.lt, by rw [h.vacant]; simp⟩

/-- **Shifting**: the entry after the hole moves back into it, one slot closer
to home, and leaves the hole behind. -/
theorem Hole.shift {x : Nat} (h : Hole n home t x) (he : t (next n x) = some e)
    (hpos : 0 < e.psl) :
    Hole n home (update (update t x (some { e with psl := e.psl - 1 })) (next n x) none)
      (next n x) := by
  have hn : 0 < n := by have := h.lt; omega
  have hy : next n x < n := next_lt h.lt
  have hxy : x ≠ next n x := by intro hx; rw [← hx, h.vacant] at he; contradiction
  -- a full slot of the new table is `x` with the moved entry, or untouched
  have hcase : ∀ q f,
      update (update t x (some { e with psl := e.psl - 1 })) (next n x) none q = some f →
      q ≠ next n x ∧
        ((q = x ∧ f = { e with psl := e.psl - 1 }) ∨ (q ≠ x ∧ t q = some f)) := by
    intro q f hf
    have hqy : q ≠ next n x := by rintro rfl; simp at hf
    rw [update_of_ne hqy] at hf
    refine ⟨hqy, ?_⟩
    by_cases hqx : q = x
    · rw [hqx, update_self, Option.some.injEq] at hf
      exact .inl ⟨hqx, hf.symm⟩
    · rw [update_of_ne hqx] at hf
      exact .inr ⟨hqx, hf⟩
  have hroom_x : room (update (update t x (some { e with psl := e.psl - 1 })) (next n x)
      none) x = e.psl := by
    rw [room_update_of_ne hxy, room_update_self]
    simp only
    omega
  have hroom : ∀ q, q ≠ x → q ≠ next n x → room (update (update t x
      (some { e with psl := e.psl - 1 })) (next n x) none) q = room t q := by
    intro q hqx hqy
    rw [room_update_of_ne hqy, room_update_of_ne hqx]
  refine ⟨hy, update_self .., ?_, ?_, ?_, ?_, ?_⟩
  · intro q f hq hf
    obtain ⟨-, ⟨rfl, rfl⟩ | ⟨-, hf⟩⟩ := hcase q f hf
    · refine next_inj (Nat.mod_lt _ hn) hq ?_
      rw [← add_succ_mod hn]
      simp only
      rw [Nat.sub_add_cancel hpos]
      exact h.loc _ e hy he
    · exact h.loc q f hq hf
  · intro q f hq hqy hf
    obtain ⟨hny, ⟨hqx, rfl⟩ | ⟨-, hf⟩⟩ := hcase _ f hf
    · -- the slot before the old hole: this is what `bound` is for
      have hqx' : q ≠ x := by rintro rfl; exact hxy hqx.symm
      rw [hroom q hqx' hqy]
      have := h.bound q e hq hqx he
      simp only
      omega
    · by_cases hqx : q = x
      · exact absurd (congrArg (next n) hqx) hny
      · rw [hroom q hqx hqy]
        exact h.order q f hq hqx hf
  · intro q f hq hnext hf
    have hqx : q = x := next_inj hq h.lt hnext
    subst hqx
    rw [hroom_x]
    obtain ⟨-, ⟨-, rfl⟩ | ⟨hnx, hf⟩⟩ := hcase _ f hf
    · simp only; omega
    · by_cases hyx : next n q = q
      · exact absurd hyx.symm hxy
      · have := h.order (next n q) f hy hyx hf
        rw [room_of_some he] at this
        omega
  · intro q r f g hq hr hf hg hk
    obtain ⟨hqy, ⟨hqx, rfl⟩ | ⟨hqx, hf⟩⟩ := hcase q f hf <;>
      obtain ⟨hry, ⟨hrx, rfl⟩ | ⟨hrx, hg⟩⟩ := hcase r g hg
    · rw [hqx, hrx]
    · exact absurd (h.inj _ r e g hy hr he hg hk).symm hry
    · exact absurd (h.inj q _ f e hq hy hf he hk) hqy
    · exact h.inj q r f g hq hr hf hg hk
  · intro q f hq hf
    obtain ⟨-, ⟨-, rfl⟩ | ⟨-, hf⟩⟩ := hcase q f hf
    · have := h.psl_lt _ e hy he
      simp only
      omega
    · exact h.psl_lt q f hq hf

/-- Emptying a slot removes its pair. -/
theorem Inv.holds_remove (h : Inv n home t) (hp : p < n) (he : t p = some e) {x : κ} {w : ν} :
    Holds n (update t p none) x w ↔ x ≠ e.key ∧ Holds n t x w := by
  constructor
  · rintro ⟨q, f, hq, hf, rfl, rfl⟩
    have hqp : q ≠ p := by rintro rfl; simp at hf
    rw [update_of_ne hqp] at hf
    exact ⟨fun hk => hqp (h.inj q p f e hq hp hf he hk), q, f, hq, hf, rfl, rfl⟩
  · rintro ⟨hne, q, f, hq, hf, rfl, rfl⟩
    have hqp : q ≠ p := by
      rintro rfl
      rw [he, Option.some.injEq] at hf
      exact hne (hf ▸ rfl)
    exact ⟨q, f, hq, by rw [update_of_ne hqp, hf], rfl, rfl⟩

/-- Shifting moves a pair and changes none. -/
theorem Hole.holds_shift {x : Nat} (h : Hole n home t x) (he : t (next n x) = some e)
    {d : Nat} {y : κ} {w : ν} :
    Holds n (update (update t x (some { e with psl := d })) (next n x) none) y w ↔
      Holds n t y w := by
  have hxy : x ≠ next n x := by intro hx; rw [← hx, h.vacant] at he; contradiction
  constructor
  · rintro ⟨q, f, hq, hf, hk, hv⟩
    have hqy : q ≠ next n x := by rintro rfl; simp at hf
    rw [update_of_ne hqy] at hf
    by_cases hqx : q = x
    · rw [hqx, update_self, Option.some.injEq] at hf
      subst hf
      exact ⟨_, e, next_lt h.lt, he, hk, hv⟩
    · rw [update_of_ne hqx] at hf
      exact ⟨q, f, hq, hf, hk, hv⟩
  · rintro ⟨q, f, hq, hf, hk, hv⟩
    by_cases hqy : q = next n x
    · rw [hqy, he, Option.some.injEq] at hf
      subst hf
      exact ⟨x, { e with psl := d }, h.lt, by rw [update_of_ne hxy, update_self], hk, hv⟩
    · have hqx : q ≠ x := by rintro rfl; rw [h.vacant] at hf; contradiction
      exact ⟨q, f, hq, by rw [update_of_ne hqy, update_of_ne hqx, hf], hk, hv⟩

/-! ## counting full slots -/

/-- The number of full slots. -/
def count (n : Nat) (t : Nat → Option (Entry κ ν)) : Nat :=
  ((Finset.range n).filter fun p => (t p).isSome).card

theorem count_le (n : Nat) (t : Nat → Option (Entry κ ν)) : count n t ≤ n := by
  simpa [count] using Finset.card_filter_le (Finset.range n) fun p => (t p).isSome

/-- Fewer full slots than slots leave one empty. -/
theorem exists_none_of_count_lt (h : count n t < n) : ∃ z, z < n ∧ t z = none := by
  by_contra hall
  push Not at hall
  have hfull : (Finset.range n).filter (fun p => (t p).isSome) = Finset.range n := by
    apply Finset.filter_true_of_mem
    intro p hp
    exact Option.isSome_iff_ne_none.mpr (hall p (Finset.mem_range.mp hp))
  rw [count, hfull, Finset.card_range] at h
  omega

/-- Overwriting a full slot keeps the count. -/
theorem count_update_some (he : t p = some e) (f : Entry κ ν) :
    count n (update t p (some f)) = count n t := by
  unfold count
  congr 1
  apply Finset.filter_congr
  intro q _
  by_cases hqp : q = p
  · simp [hqp, he]
  · rw [update_of_ne hqp]

/-- Filling an empty slot adds one. -/
theorem count_fill (hp : p < n) (h : t p = none) (e : Entry κ ν) :
    count n (update t p (some e)) = count n t + 1 := by
  have hins : (Finset.range n).filter (fun q => (update t p (some e) q).isSome) =
      insert p ((Finset.range n).filter fun q => (t q).isSome) := by
    ext q
    by_cases hqp : q = p
    · simp [hqp, hp]
    · simp [hqp]
  rw [count, hins, Finset.card_insert_of_notMem (by simp [h]), count]

/-- Emptying a full slot takes one away. -/
theorem count_remove (hp : p < n) (h : t p = some e) :
    count n (update t p none) + 1 = count n t := by
  have hback : update (update t p none) p (some e) = t := by
    rw [update_idem, ← h, update_eq_self]
  rw [← count_fill hp (update_self p none t) e, hback]

/-- Shifting keeps the count. -/
theorem Hole.count_shift {x : Nat} (h : Hole n home t x) (he : t (next n x) = some e)
    (f : Entry κ ν) :
    count n (update (update t x (some f)) (next n x) none) = count n t := by
  have hxy : next n x ≠ x := by intro hx; rw [hx, h.vacant] at he; contradiction
  have h1 := count_fill h.lt h.vacant f
  have h2 := count_remove (t := update t x (some f)) (next_lt h.lt)
    (by rw [update_of_ne hxy]; exact he)
  omega

open Classical in
/-- Full slots that are no more than those of a table with distinct keys, and have all its keys,
have distinct keys. -/
theorem inj_of_count_le {m : Nat} {u : Nat → Option (Entry κ ν)}
    (hinj : ∀ p q e f, p < m → q < m → u p = some e → u q = some f → e.key = f.key → p = q)
    (hcount : count n t ≤ count m u) (hholds : ∀ k v, Holds m u k v → Holds n t k v) :
    ∀ p q e f, p < n → q < n → t p = some e → t q = some f → e.key = f.key → p = q := by
  obtain ⟨key, hkey⟩ : ∃ key : Option (Entry κ ν) → Option κ, key = Option.map Entry.key :=
    ⟨_, rfl⟩
  obtain ⟨full, hfull⟩ : ∃ full : Nat → (Nat → Option (Entry κ ν)) → Finset Nat,
      full = fun n t => (Finset.range n).filter fun p => (t p).isSome := ⟨_, rfl⟩
  have hmem : ∀ {n t p}, p ∈ full n t ↔ p < n ∧ ∃ e, t p = some e := fun {n t p} => by
    rw [hfull, Finset.mem_filter, Finset.mem_range, Option.isSome_iff_exists]
  have huniq : Set.InjOn (fun p => key (u p)) (full m u) := by
    intro p hp q hq hpq
    obtain ⟨hpm, e, he⟩ := hmem.mp hp
    obtain ⟨hqm, f, hf⟩ := hmem.mp hq
    simp only [hkey, he, hf, Option.map_some, Option.some.injEq] at hpq
    exact hinj p q e f hpm hqm he hf hpq
  have hsub : (full m u).image (fun p => key (u p)) ⊆ (full n t).image fun p => key (t p) := by
    intro o ho
    obtain ⟨p, hp, rfl⟩ := Finset.mem_image.mp ho
    obtain ⟨hpm, e, he⟩ := hmem.mp hp
    obtain ⟨q, f, hq, hf, hk, -⟩ := hholds e.key e.val ⟨p, e, hpm, he, rfl, rfl⟩
    refine Finset.mem_image.mpr ⟨q, hmem.mpr ⟨hq, f, hf⟩, ?_⟩
    simp only [hkey, he, hf, Option.map_some, hk]
  -- the keys of `t` are as many as its full slots
  have hcard : ((full n t).image fun p => key (t p)).card = (full n t).card := by
    refine le_antisymm Finset.card_image_le ?_
    have hle := Finset.card_le_card hsub
    rw [Finset.card_image_of_injOn huniq] at hle
    have hcount' : (full n t).card ≤ (full m u).card := by
      rw [hfull]
      exact hcount
    omega
  intro p q e f hp hq he hf hk
  refine Finset.card_image_iff.mp hcard (hmem.mpr ⟨hp, e, he⟩) (hmem.mpr ⟨hq, f, hf⟩) ?_
  simp only [hkey, he, hf, Option.map_some, hk]

/-! ## tables cut off at a slot -/

/-- One more slot, full. -/
theorem count_succ_of_some (he : t i = some e) : count (i + 1) t = count i t + 1 := by
  unfold count
  rw [Finset.range_add_one, Finset.filter_insert, if_pos (by simp [he]),
    Finset.card_insert_of_notMem (by simp)]

/-- One more slot, empty. -/
theorem count_succ_of_none (he : t i = none) : count (i + 1) t = count i t := by
  unfold count
  rw [Finset.range_add_one, Finset.filter_insert, if_neg (by simp [he])]

theorem count_mono (hij : i ≤ j) : count i t ≤ count j t :=
  Finset.card_le_card (Finset.filter_subset_filter _ (Finset.range_mono hij))

theorem holds_succ :
    Holds (i + 1) t k v ↔ Holds i t k v ∨ ∃ e, t i = some e ∧ e.key = k ∧ e.val = v := by
  constructor
  · rintro ⟨p, e, hp, he, hk, hv⟩
    rcases Nat.lt_succ_iff_lt_or_eq.mp hp with hlt | rfl
    · exact .inl ⟨p, e, hlt, he, hk, hv⟩
    · exact .inr ⟨e, he, hk, hv⟩
  · rintro (⟨p, e, hp, he, hk, hv⟩ | ⟨e, he, hk, hv⟩)
    · exact ⟨p, e, by omega, he, hk, hv⟩
    · exact ⟨i, e, by omega, he, hk, hv⟩

end QStore.RobinHood
