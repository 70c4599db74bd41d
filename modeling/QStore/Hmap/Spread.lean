import QStore.Hmap.Counted
import QStore.Lib.Crowding
import QStore.Lib.Trace

/-!
# QStore.Hmap.Spread

The 16 bits of a probe length. What an insertion carries is as far from home as a crowd of keys
pushes it, so probe lengths wrap exactly where, in the table a call leaves, some run of `len`
buckets is the home of `len + 2^16` keys or more.

`rs_hmap_get` and `rs_hmap_del` count their own steps in 32 bits; only `entry.psl++` of an
insertion can leave 16.
-/

namespace QStore.Hmap

open QStore.Ring QStore.RobinHood Function

variable {K V : Type}

/-- The table has the key. -/
def RsHmap.Has (h : RsHmap K V) (k : K) : Prop := ∃ v, Holds h.size h.view k v

theorem Rep.has_iff {h : RsHmap K V} {m : K → Option V} (hrep : Rep h m) {k : K} :
    h.Has k ↔ m k ≠ none := by
  rw [Option.ne_none_iff_exists']
  exact exists_congr fun v => (hrep k v).symm

/-- The keys of the table make no crowd that fills the 16 bits of a probe length. -/
def Spread (F : FnPtrs K V) (h : RsHmap K V) : Prop :=
  ¬ Crowded h.size (h.home F) h.Has (2 ^ 16)

variable {F : FnPtrs K V} {h g : RsHmap K V} {hashkey : UInt64} {k : K} {v : V} {entry : Bkt K V}
  {left p newsize : Nat}

/-! ## an insertion -/

theorem noteWrap_of_lt (hlt : entry.psl + 1 < 2 ^ 16) :
    h.noteWrap entry = h ∧ bumpPsl entry = { entry with psl := entry.psl + 1 } := by
  constructor
  · rw [RsHmap.noteWrap, decide_eq_false (not_le.mpr hlt), Bool.or_false]
  · rw [bumpPsl, Nat.mod_eq_of_lt hlt]

/-- An insertion that carries a fresh entry through keys that are no crowd does not wrap. -/
theorem insertLoop_notWrapped {home : K → Nat} {keys : K → Prop} (hhome : ∀ k, home k < h.size)
    (hkeys : ¬ Crowded h.size home keys (2 ^ 16))
    (hall : ∀ x, (x = entry.key ∨ ∃ v, Holds h.size h.view x v) → keys x)
    (hc : Carrying h.size home h.view entry p left) :
    (insertLoop F left h entry p).2.pslWrapped = h.pslWrapped := by
  induction left generalizing h entry p with
  | zero => rfl
  | succ left ih =>
      rw [insertLoop]
      split
      · next hfull =>
        have hv := RsHmap.view_of_full hfull
        split
        · rfl
        · by_cases hlt : entry.psl > (h.bkts p).psl
          · have hc' := hc.displace hv hlt
            have hview := RsHmap.view_setBkt hfull entry
            have hall' : ∀ x, (x = (h.bkts p).key ∨
                ∃ v, Holds h.size (update h.view p (some entry)) x v) → keys x := fun x hx =>
              hall x (has_displaced hc.lt hv hx)
            have hpsl : (h.bkts p).psl + 1 < 2 ^ 16 :=
              hc'.psl_lt_of_not_crowded hhome hkeys hall'
            obtain ⟨hnote, hbump⟩ := noteWrap_of_lt (h := h.setBkt p entry) hpsl
            rw [if_pos hlt, hnote, hbump]
            exact ih hhome hkeys (by rw [hview]; exact hall') (by rw [hview]; exact hc')
          · have hc' := hc.skip hv (Nat.le_of_not_lt hlt)
            have hpsl : entry.psl + 1 < 2 ^ 16 := hc'.psl_lt_of_not_crowded hhome hkeys hall
            obtain ⟨hnote, hbump⟩ := noteWrap_of_lt (h := h) hpsl
            rw [if_neg hlt, hnote, hbump]
            exact ih hhome hkeys hall hc'
      · rfl

section Tables

variable [Zero K] [Zero V]

theorem WellFormed.psl_lt_of_spread (hwf : WellFormed F h) (hs : Spread F h)
    (hroom : h.nitems < h.size) {e : Bkt K V} (hp : p < h.size) (he : h.view p = some e) :
    e.psl < 2 ^ 16 := by
  by_contra hge
  have hempty := exists_none_of_count_lt (hwf.nitems_eq ▸ hroom)
  exact hs ((hwf.inv.crowded hwf.home_lt hempty hp he).mono (fun _ hk => hk) (not_lt.mp hge))

/-- Nor does one that walks to a key the table has. -/
theorem rsHmapInsert_present_notWrapped (hwf : WellFormed F h) (hs : Spread F h)
    (hroom : h.nitems < h.size) (hk : h.Has k) :
    (rsHmapInsert F h k v).2.pslWrapped = h.pslWrapped := by
  obtain ⟨w, q, e, hq, he, rfl, -⟩ := hk
  have hpsl := hwf.inv.psl_lt q e hq he
  have h16 := hwf.psl_lt_of_spread hs hroom hq he
  have hwalk := hwf.inv.walk_to hq he
    (P := fun i => (insertLoop F (h.size - i) h ⟨e.key, i, v⟩
      ((h.home F e.key + i) % h.size)).2.pslWrapped = h.pslWrapped)
  rw [Nat.sub_zero, Nat.add_zero, Nat.mod_eq_of_lt (hwf.home_lt _)] at hwalk
  apply hwalk
  · obtain ⟨left, hleft⟩ : ∃ left, h.size - e.psl = left + 1 := ⟨h.size - e.psl - 1, by omega⟩
    obtain ⟨hfull, hb⟩ := RsHmap.view_eq_some.mp he
    rw [hwf.inv.loc q e hq he, hleft, insertLoop, if_pos hfull, hb,
      if_pos ((F.keyCmp_iff _ _).mpr rfl)]
    rfl
  · intro i f hi hf hle hne hrest
    obtain ⟨left, hleft⟩ : ∃ left, h.size - i = left + 1 := ⟨h.size - i - 1, by omega⟩
    obtain ⟨hfull, hb⟩ := RsHmap.view_eq_some.mp hf
    have hlt : (⟨e.key, i, v⟩ : Bkt K V).psl + 1 < 2 ^ 16 := show i + 1 < 2 ^ 16 by omega
    obtain ⟨hnote, hbump⟩ := noteWrap_of_lt (h := h) hlt
    rw [hleft, insertLoop, if_pos hfull, hb, if_neg (by rw [F.keyCmp_iff]; exact hne),
      if_neg (by simp only; omega), hnote, hbump, ← add_succ_mod (by omega),
      show left = h.size - (i + 1) by omega]
    exact hrest

/-- An insertion into a table with room, if its key makes no crowd with those of the table. -/
theorem rsHmapInsert_notWrapped (hwf : WellFormed F h) (hroom : h.nitems < h.size)
    (hkeys : ¬ Crowded h.size (h.home F) (fun x => x = k ∨ h.Has x) (2 ^ 16)) :
    (rsHmapInsert F h k v).2.pslWrapped = h.pslWrapped := by
  by_cases hk : h.Has k
  · refine rsHmapInsert_present_notWrapped hwf (fun hcr => hkeys ?_) hroom hk
    exact hcr.mono (fun x hx => .inr hx) le_rfl
  · have hfresh := fresh_iff_not_holds.mpr (not_exists.mp hk)
    exact insertLoop_notWrapped hwf.home_lt hkeys (fun _ hx => hx)
      (Carrying.start hwf.inv (hwf.home_lt k) hfresh (hwf.nitems_eq ▸ hroom) v)

/-! ## a resize -/

theorem reinsert_notWrapped (hk : Keyed h) {i : Nat} (hleft : i + left = h.size)
    (hg : WellFormed F g) (hw : g.pslWrapped = false) (hroom : h.nitems ≤ g.size)
    (hn : g.nitems = count i h.view)
    (hholds : ∀ k v, Holds g.size g.view k v ↔ Holds i h.view k v)
    (hkeys : ¬ Crowded g.size (g.home F) h.Has (2 ^ 16)) :
    (reinsert F h.bkts h.bktFull left i 0 g).2.pslWrapped = false := by
  induction left generalizing i g with
  | zero => exact hw
  | succ left ih =>
      by_cases hfull : h.bktFull i = false
      · have hnone := RsHmap.view_eq_none.mpr hfull
        rw [reinsert, if_pos hfull]
        refine ih (by omega) hg hw hroom (by rw [hn, count_succ_of_none hnone]) ?_ hkeys
        intro k v
        rw [hholds, holds_succ, hnone]
        simp
      · have he := RsHmap.view_of_full (by simpa using hfull : h.bktFull i = true)
        have hfresh := hk.fresh_next (by omega) he hholds
        have hlt := hk.room_next (by omega) he hroom hn
        -- the keys so far and the next one are keys of the old table
        have hnext : ¬ Crowded g.size (g.home F) (fun x => x = (h.bkts i).key ∨ g.Has x)
            (2 ^ 16) := by
          intro hcr
          refine hkeys (hcr.mono ?_ le_rfl)
          rintro x (rfl | ⟨v, hv⟩)
          · exact ⟨_, i, _, by omega, he, rfl, rfl⟩
          · obtain ⟨q, e, hq, hrest⟩ := (hholds x v).mp hv
            exact ⟨v, q, e, by omega, hrest⟩
        have hwi := (rsHmapInsert_notWrapped (v := (h.bkts i).val) hg hlt hnext).trans hw
        obtain ⟨hst, hins⟩ := rsHmapInsert_fresh hg hfresh hlt hwi
        simp only [reinsert, if_neg hfull]
        rw [hst, if_neg (by decide)]
        refine ih (by omega) (hins.wellFormed hg) hwi (by rw [hins.frame.size]; exact hroom)
          (by rw [hins.nitems, hn, count_succ_of_some he]) ?_
          (by rw [hins.frame.size, hins.frame.home]; exact hkeys)
        intro k v
        rw [hins.frame.size, hins.holds, hholds, holds_succ, he]
        simp

/-- A resize with room for every item, if they make no crowd under the new hash key. -/
theorem rsHmapResize_notWrapped (hk : Keyed h) (hw : h.pslWrapped = false)
    (hroom : h.nitems ≤ newsize)
    (hkeys : ¬ Crowded newsize ((blank newsize hashkey h.config h.pslWrapped : RsHmap K V).home F)
      h.Has (2 ^ 16)) :
    (rsHmapResize F hashkey h newsize).2.pslWrapped = false := by
  simp only [rsHmapResize]
  split
  · exact hw
  · next hsize =>
    split
    · exact hw
    · have hblank : WellFormed F
          (blank (K := K) (V := V) newsize hashkey h.config h.pslWrapped) :=
        wellFormed_blank (by omega) (by unfold uintMax at hsize; omega) _ _ _
      have hre := reinsert_notWrapped (i := 0) hk (Nat.zero_add _) hblank hw hroom
        (by simp [count, blank]) (by intro k v; simp [Holds, blank, RsHmap.view]) hkeys
      split
      · exact hre
      · split <;> exact hre

end Tables

end QStore.Hmap
