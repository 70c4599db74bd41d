import QStore.Lib.RobinHood

/-!
# QStore.Lib.Probing

The loops over the slots of a Robin Hood table: the walk to a held key
(`Inv.walk_to`), and the two loops that change the table. An insertion displaces
richer entries until an empty slot takes the one it carries (`settle`); the
backward shift closes the hole of a deletion (`shiftBack`).

Neither of the two has a bound of its own. `settle` needs an empty slot within its
turns. `shiftBack` stops because some slot of the ring starts a cluster; when
the only such slot is the one deleted, the entry shifted into it takes over
that part.
-/

namespace QStore.RobinHood

open QStore.Ring Function

variable {κ ν : Type*} {n : Nat} {home : κ → Nat} {t : Nat → Option (Entry κ ν)}
  {p q : Nat} {e entry : Entry κ ν}

/-! ## walking to a held key -/

/-- What holds at the slot of a held key, and passes from each slot of its walk
to the one before, holds at its home. -/
theorem Inv.walk_to {P : Nat → Prop} (h : Inv n home t) (hq : q < n) (he : t q = some e)
    (hend : P e.psl)
    (hstep : ∀ i f, i < e.psl → t ((home e.key + i) % n) = some f → i ≤ f.psl →
      f.key ≠ e.key → P (i + 1) → P i) : P 0 := by
  have hback : ∀ j, j ≤ e.psl → P (e.psl - j) := by
    intro j
    induction j with
    | zero => exact fun _ => hend
    | succ j ih =>
        intro hj
        obtain ⟨f, hf, hle⟩ := h.walk hq he (i := e.psl - (j + 1)) (by omega)
        have hne := h.walk_ne hq he (by omega) hf
        have hnext := ih (by omega)
        rw [show e.psl - j = e.psl - (j + 1) + 1 by omega] at hnext
        exact hstep _ f (by omega) hf hle hne hnext
  have := hback e.psl le_rfl
  rwa [Nat.sub_self] at this

/-! ## storing a fresh entry -/

/-- Carries `entry` from slot `p` on to the first empty slot, within `left`
turns. A richer entry on the way gives up its slot and is carried on. -/
def settle (n : Nat) : Nat → (Nat → Option (Entry κ ν)) → Entry κ ν → Nat →
    Option (Nat → Option (Entry κ ν))
  | 0, _, _, _ => none
  | left + 1, t, entry, p =>
      match t p with
      | none => some (update t p (some entry))
      | some e =>
          if entry.psl > e.psl then
            settle n left (update t p (some entry)) { e with psl := e.psl + 1 } (next n p)
          else settle n left t { entry with psl := entry.psl + 1 } (next n p)

/-- `settle` is under way at slot `p` with `entry`, and has turns enough to
reach an empty slot. -/
structure Carrying (n : Nat) (home : κ → Nat) (t : Nat → Option (Entry κ ν))
    (entry : Entry κ ν) (p left : Nat) : Prop where
  inv : Inv n home t
  carried : Carried n home t entry.key entry.psl p
  fresh : Fresh n t entry.key
  empty : ∃ j, j < left ∧ t ((p + j) % n) = none
  lt : p < n

/-- What is carried is fewer than `n` slots from home. -/
theorem Carrying.psl_lt {left : Nat} (h : Carrying n home t entry p left) : entry.psl < n := by
  obtain ⟨j, -, hnone⟩ := h.empty
  exact h.carried.psl_lt h.inv ⟨_, Nat.mod_lt _ (Nat.zero_lt_of_lt h.lt), hnone⟩

/-- A full slot moves the empty one ahead a turn closer. -/
theorem Carrying.empty_ahead {left : Nat} (h : Carrying n home t entry p (left + 1))
    (he : t p = some e) : ∃ j, j < left ∧ t ((next n p + j) % n) = none := by
  obtain ⟨j, hj, hnone⟩ := h.empty
  cases j with
  | zero =>
      rw [Nat.add_zero, Nat.mod_eq_of_lt h.lt, he] at hnone
      contradiction
  | succ j =>
      rw [succ_add_mod h.lt] at hnone
      exact ⟨j, by omega, hnone⟩

/-- The richer entry of a slot is carried on in place of the one that took it. -/
theorem Carrying.displace {left : Nat} (h : Carrying n home t entry p (left + 1))
    (he : t p = some e) (hlt : e.psl < entry.psl) :
    Carrying n home (update t p (some entry)) { e with psl := e.psl + 1 } (next n p) left where
  inv := by
    obtain ⟨j, -, hnone⟩ := h.empty_ahead he
    exact Inv.displace h.inv h.carried
      ⟨_, Nat.mod_lt _ (Nat.zero_lt_of_lt h.lt), hnone⟩ h.fresh he hlt entry.val
  carried := h.carried.displaced h.inv (Nat.zero_lt_of_lt h.lt) he hlt entry.val
  fresh := fresh_displaced h.inv h.carried h.fresh (Nat.zero_lt_of_lt h.lt) he entry.val
  empty := by
    obtain ⟨j, hj, hnone⟩ := h.empty_ahead he
    have hne : (next n p + j) % n ≠ p := by intro hx; rw [hx, he] at hnone; contradiction
    exact ⟨j, hj, (update_of_ne hne _ _).trans hnone⟩
  lt := next_lt h.lt

/-- A poorer entry, or one as far from home, keeps its slot. -/
theorem Carrying.skip {left : Nat} (h : Carrying n home t entry p (left + 1))
    (he : t p = some e) (hle : entry.psl ≤ e.psl) :
    Carrying n home t { entry with psl := entry.psl + 1 } (next n p) left where
  inv := h.inv
  carried := h.carried.skip (Nat.zero_lt_of_lt h.lt) he hle
  fresh := h.fresh
  empty := h.empty_ahead he
  lt := next_lt h.lt

/-- What storing the pair of a fresh entry does to a table. -/
structure Settled (n : Nat) (home : κ → Nat) (t t' : Nat → Option (Entry κ ν))
    (entry : Entry κ ν) : Prop where
  inv : Inv n home t'
  count : count n t' = RobinHood.count n t + 1
  holds : ∀ x w, Holds n t' x w ↔ Holds n t x w ∨ (entry.key = x ∧ entry.val = w)

/-- **A fresh entry is stored**, by induction on the turns left. -/
theorem settle_spec {left : Nat} (h : Carrying n home t entry p left) :
    ∃ t', settle n left t entry p = some t' ∧ Settled n home t t' entry := by
  induction left generalizing t entry p with
  | zero =>
      obtain ⟨j, hj, -⟩ := h.empty
      omega
  | succ left ih =>
      cases hv : t p with
      | none =>
          refine ⟨_, by rw [settle, hv], ?_, count_fill h.lt hv entry,
            fun x w => holds_fill h.lt hv⟩
          exact Inv.fill h.inv h.carried ⟨p, h.lt, hv⟩ h.fresh hv entry.val
      | some e =>
          by_cases hlt : entry.psl > e.psl
          · obtain ⟨t', ht', hs⟩ := ih (h.displace hv hlt)
            refine ⟨t', by rw [settle, hv]; simp only [if_pos hlt, ht'], hs.inv, ?_, ?_⟩
            · rw [hs.count, count_update_some hv entry]
            · exact fun x w => (hs.holds x w).trans (holds_displace h.lt hv)
          · obtain ⟨t', ht', hs⟩ := ih (h.skip hv (Nat.le_of_not_lt hlt))
            exact ⟨t', by rw [settle, hv]; simp only [if_neg hlt, ht'], hs.inv, hs.count, hs.holds⟩

/-- A fresh key sets out from its home, with a whole turn of the ring to find an
empty slot. -/
theorem Carrying.start {k : κ} (hinv : Inv n home t) (hk : home k < n) (hfresh : Fresh n t k)
    (hroom : count n t < n) (v : ν) : Carrying n home t ⟨k, 0, v⟩ (home k) n where
  inv := hinv
  carried := Carried.start hk
  fresh := hfresh
  empty := by
    obtain ⟨z, hz, hnone⟩ := exists_none_of_count_lt hroom
    obtain ⟨j, hj, hjz⟩ := exists_add_mod_eq (home k) hz
    exact ⟨j, hj, by rw [hjz]; exact hnone⟩
  lt := hk

/-! ## closing a hole -/

/-- Moves the entries after the hole at `x` one slot back, within `left` turns,
until an empty slot or an entry at its home follows the hole. -/
def shiftBack (n : Nat) : Nat → (Nat → Option (Entry κ ν)) → Nat →
    Option (Nat → Option (Entry κ ν))
  | 0, _, _ => none
  | left + 1, t, x =>
      match t (next n x) with
      | none => some t
      | some e =>
          if e.psl = 0 then some t
          else shiftBack n left
            (update (update t x (some { e with psl := e.psl - 1 })) (next n x) none) (next n x)

/-- A slot where the shift stops. -/
def Stops (t : Nat → Option (Entry κ ν)) (p : Nat) : Prop := ∀ e, t p = some e → e.psl = 0

/-- What closing a hole leaves of a table. -/
structure Closed (n : Nat) (home : κ → Nat) (t t' : Nat → Option (Entry κ ν)) : Prop where
  inv : Inv n home t'
  count : count n t' = RobinHood.count n t
  holds : ∀ k v, Holds n t' k v ↔ Holds n t k v

/-- **The shift closes its hole.** Within `left` turns it meets a slot other
than the hole where it stops, or the entry after the hole is one slot from home
and, once shifted, is such a slot at the end of a whole turn. -/
theorem shiftBack_spec {left x : Nat} (hhole : Hole n home t x)
    (hstop : (∃ j, j < left ∧ (next n x + j) % n ≠ x ∧ Stops t ((next n x + j) % n)) ∨
      (n ≤ left ∧ ∀ e, t (next n x) = some e → e.psl ≤ 1)) :
    ∃ t', shiftBack n left t x = some t' ∧ Closed n home t t' := by
  have hx := hhole.lt
  have hn : 0 < n := by omega
  induction left generalizing t x with
  | zero => rcases hstop with ⟨j, hj, -⟩ | ⟨hle, -⟩ <;> omega
  | succ left ih =>
      have hy : next n x < n := next_lt hx
      cases hv : t (next n x) with
      | none =>
          refine ⟨t, by rw [shiftBack, hv], hhole.close fun e he => ?_, rfl, fun _ _ => Iff.rfl⟩
          rw [hv] at he
          contradiction
      | some e =>
          by_cases hpsl : e.psl = 0
          · refine ⟨t, by rw [shiftBack, hv]; simp only [if_pos hpsl], hhole.close fun f hf => ?_,
              rfl, fun _ _ => Iff.rfl⟩
            rw [hv, Option.some.injEq] at hf
            rw [← hf]
            exact hpsl
          have hxy : next n x ≠ x := by intro hxx; rw [hxx, hhole.vacant] at hv; contradiction
          obtain ⟨b, hb⟩ : ∃ b : Entry κ ν, b = { e with psl := e.psl - 1 } := ⟨_, rfl⟩
          obtain ⟨d, hd⟩ : ∃ d, d = update (update t x (some b)) (next n x) none := ⟨_, rfl⟩
          have hshift : Hole n home d (next n x) := by
            rw [hd, hb]
            exact hhole.shift hv (by omega)
          -- slots other than the two keep what they hold
          have hkeep : ∀ p, p ≠ x → Stops t p → Stops d p := by
            intro p hpx hp f hf
            by_cases hpy : p = next n x
            · rw [hd, hpy, update_self] at hf; contradiction
            · rw [hd, update_of_ne hpy, update_of_ne hpx] at hf
              exact hp f hf
          have hstop' : ∃ j, j < left ∧ (next n (next n x) + j) % n ≠ next n x ∧
              Stops d ((next n (next n x) + j) % n) := by
            rcases hstop with ⟨j, hj, hjx, hjs⟩ | ⟨hle, h1⟩
            · cases j with
              | zero =>
                  rw [Nat.add_zero, Nat.mod_eq_of_lt hy] at hjs
                  exact absurd (hjs e hv) hpsl
              | succ j =>
                  rw [succ_add_mod hy] at hjx hjs
                  by_cases hjy : (next n (next n x) + j) % n = next n x
                  · -- the slot the walk was heading for is the new hole itself
                    exact absurd (hjs e (by rw [hjy]; exact hv)) hpsl
                  · exact ⟨j, by omega, hjy, hkeep _ hjx hjs⟩
            · -- a whole turn away: the entry is now at its home in `x`
              have hb0 : b.psl = 0 := by rw [hb]; have := h1 e hv; simp only; omega
              obtain ⟨j, hj, hjx⟩ := exists_add_mod_eq (next n (next n x)) hx
              have hjn : j ≠ n - 1 := by
                rintro rfl
                have hback : (next n x + (n - 1 + 1)) % n = x := by rw [succ_add_mod hy, hjx]
                rw [Nat.sub_add_cancel hn, Nat.add_mod_right, Nat.mod_eq_of_lt hy] at hback
                exact hxy hback
              refine ⟨j, by omega, by rw [hjx]; exact Ne.symm hxy, ?_⟩
              rw [hjx]
              intro f hf
              rw [hd, update_of_ne (Ne.symm hxy), update_self, Option.some.injEq] at hf
              rw [← hf]
              exact hb0
          obtain ⟨t', ht', hs⟩ := ih hshift (.inl hstop') hy
          rw [hd, hb] at ht' hs
          refine ⟨t', by rw [shiftBack, hv]; simp only [if_neg hpsl, ht'], hs.inv, ?_, ?_⟩
          · rw [hs.count]
            exact hhole.count_shift hv _
          · exact fun k v => (hs.holds k v).trans (hhole.holds_shift hv)

/-- **Deleting a full slot**: within one turn of the ring the shift closes the
hole, and only the pair of the slot is gone. -/
theorem shiftBack_remove (hinv : Inv n home t) (hq : q < n) (he : t q = some e) :
    ∃ t', shiftBack n n (update t q none) q = some t' ∧ Inv n home t' ∧
      count n t' + 1 = count n t ∧
      ∀ k v, Holds n t' k v ↔ k ≠ e.key ∧ Holds n t k v := by
  have hstop : (∃ j, j < n ∧ (next n q + j) % n ≠ q ∧
        Stops (update t q none) ((next n q + j) % n)) ∨
      (n ≤ n ∧ ∀ f, update t q none (next n q) = some f → f.psl ≤ 1) := by
    obtain ⟨c, hc, hcut⟩ := hinv.cut
    by_cases hcq : c = q
    · refine .inr ⟨le_rfl, fun f hf => ?_⟩
      have hne : next n q ≠ q := by intro hx; rw [hx, update_self] at hf; contradiction
      rw [update_of_ne hne] at hf
      have := hinv.order q f hq hf
      rw [room_of_some he, hcut e (hcq ▸ he)] at this
      omega
    · obtain ⟨j, hj, hjc⟩ := exists_add_mod_eq (next n q) hc
      refine .inl ⟨j, hj, by rw [hjc]; exact hcq, ?_⟩
      rw [hjc]
      intro f hf
      rw [update_of_ne hcq] at hf
      exact hcut f hf
  obtain ⟨t', ht', hs⟩ := shiftBack_spec (hinv.remove hq he) hstop
  refine ⟨t', ht', hs.inv, ?_, fun k v => (hs.holds k v).trans (hinv.holds_remove hq he)⟩
  rw [hs.count]
  exact count_remove hq he

end QStore.RobinHood
