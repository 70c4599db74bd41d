import QStore.Hmap.Table
import QStore.Lib.Probing

/-!
# QStore.Hmap.Insert

`rs_hmap_insert` (`src/rs_hmap_insert.c`): probe from the home of the key,
update the value if the key is met, displace richer entries on the way, and
take the first empty slot.

The two outcomes are two lemmas. `insertLoop_present` walks to a key the table
holds and displaces nothing; `insertLoop_fresh` carries an entry, its own or a
displaced one, to an empty slot.
-/

namespace QStore.Hmap

open QStore.Ring QStore.RobinHood Function

variable {K V : Type}

/-- Records in `pslWrapped` that `entry.psl++` leaves 16 bits. -/
def RsHmap.noteWrap (h : RsHmap K V) (entry : Bkt K V) : RsHmap K V :=
  { h with pslWrapped := h.pslWrapped || decide (2 ^ 16 ≤ entry.psl + 1) }

/-- `entry.psl++` on 16 bits. -/
def bumpPsl (entry : Bkt K V) : Bkt K V := { entry with psl := (entry.psl + 1) % 2 ^ 16 }

/-- The loop of `rs_hmap_insert` at `probe_loc = p`, with `size - num_probes`
turns left. `key` and `val` of the source are those of `entry` throughout;
`key_copied` is never set. Returns the status and the table. -/
def insertLoop (F : FnPtrs K V) : Nat → RsHmap K V → Bkt K V → Nat → Int × RsHmap K V
  | 0, h, _, _ => (-1, h)
  | left + 1, h, entry, p =>
      if h.bktFull p then
        if F.keyCmp (h.bkts p).key entry.key then
          let r := F.valUpdate (h.bkts p).val entry.val
          (r.1, h.setBkt p { h.bkts p with val := r.2 })
        else if entry.psl > (h.bkts p).psl then
          -- swap, and carry on with the entry that was in the bucket
          insertLoop F left ((h.setBkt p entry).noteWrap (h.bkts p)) (bumpPsl (h.bkts p))
            (next h.size p)
        else
          insertLoop F left (h.noteWrap entry) (bumpPsl entry) (next h.size p)
      else
        (0, { (h.setBkt p entry).setFull p true with nitems := h.nitems + 1 })

/-- `rs_hmap_insert` -/
def rsHmapInsert (F : FnPtrs K V) (h : RsHmap K V) (key : K) (val : V) : Int × RsHmap K V :=
  insertLoop F h.size h ⟨key, 0, val⟩ (h.home F key)

/-! ## what no step touches -/

/-- The fields an insertion or a deletion without resize leaves alone. -/
structure SameFrame (h h' : RsHmap K V) : Prop where
  size : h'.size = h.size
  divinfo : h'.divinfo = h.divinfo
  hashkey : h'.hashkey = h.hashkey
  config : h'.config = h.config

theorem SameFrame.rfl {h : RsHmap K V} : SameFrame h h := ⟨.refl _, .refl _, .refl _, .refl _⟩

theorem SameFrame.trans {h₁ h₂ h₃ : RsHmap K V} (h : SameFrame h₁ h₂) (h' : SameFrame h₂ h₃) :
    SameFrame h₁ h₃ :=
  ⟨h'.size.trans h.size, h'.divinfo.trans h.divinfo, h'.hashkey.trans h.hashkey,
    h'.config.trans h.config⟩

theorem SameFrame.home {F : FnPtrs K V} {h h' : RsHmap K V} (hf : SameFrame h h') :
    h'.home F = h.home F := by
  funext k
  simp only [RsHmap.home, hf.size, hf.divinfo, hf.hashkey]

/-- Once set, `pslWrapped` stays set. -/
theorem insertLoop_pslWrapped {F : FnPtrs K V} {left p : Nat} {h : RsHmap K V} {entry : Bkt K V}
    (hw : (insertLoop F left h entry p).2.pslWrapped = false) : h.pslWrapped = false := by
  induction left generalizing h entry p with
  | zero => exact hw
  | succ left ih =>
      simp only [insertLoop] at hw
      split at hw
      · split at hw
        · exact hw
        · split at hw <;>
          · have := ih hw
            simp only [RsHmap.noteWrap, Bool.or_eq_false_iff] at this
            exact this.1
      · exact hw

/-- In a run that does not wrap, an increment is exact and notes nothing. -/
theorem bump_of_not_wrapped {h : RsHmap K V} {entry : Bkt K V}
    (hw : (h.noteWrap entry).pslWrapped = false) :
    h.noteWrap entry = h ∧ bumpPsl entry = { entry with psl := entry.psl + 1 } := by
  simp only [RsHmap.noteWrap, Bool.or_eq_false_iff, decide_eq_false_iff_not] at hw
  constructor
  · rw [RsHmap.noteWrap, decide_eq_false hw.2, Bool.or_false]
  · rw [bumpPsl, Nat.mod_eq_of_lt (by omega)]

/-! ## a key the table holds -/

/-- Probing for a held key from `i` slots past its home reaches its bucket,
displaces nothing, and rewrites the value. -/
theorem insertLoop_present {F : FnPtrs K V} {h : RsHmap K V} {home : K → Nat} {e : Bkt K V}
    {q : Nat} {v : V} (hinv : Inv h.size home h.view) (hq : q < h.size) (he : h.view q = some e)
    {i : Nat} (hi : i ≤ e.psl)
    (hw : (insertLoop F (h.size - i) h ⟨e.key, i, v⟩ ((home e.key + i) % h.size)).2.pslWrapped
      = false) :
    insertLoop F (h.size - i) h ⟨e.key, i, v⟩ ((home e.key + i) % h.size) =
      ((F.valUpdate e.val v).1, h.setBkt q { e with val := (F.valUpdate e.val v).2 }) := by
  have hlt := hinv.psl_lt q e hq he
  obtain ⟨j, hj⟩ : ∃ j, i + j = e.psl := ⟨e.psl - i, by omega⟩
  induction j generalizing i with
  | zero =>
      obtain rfl : i = e.psl := by omega
      obtain ⟨left, hleft⟩ : ∃ left, h.size - e.psl = left + 1 := ⟨h.size - e.psl - 1, by omega⟩
      obtain ⟨hfull, hb⟩ := RsHmap.view_eq_some.mp he
      rw [hinv.loc q e hq he, hleft, insertLoop, if_pos hfull, hb,
        if_pos ((F.keyCmp_iff _ _).mpr rfl)]
  | succ j ih =>
      obtain ⟨left, hleft⟩ : ∃ left, h.size - i = left + 1 := ⟨h.size - i - 1, by omega⟩
      have hleft' : left = h.size - (i + 1) := by omega
      obtain ⟨f, hf, hif⟩ := hinv.walk hq he hi
      have hne := hinv.walk_ne hq he (by omega) hf
      obtain ⟨hfull, hb⟩ := RsHmap.view_eq_some.mp hf
      have hstep : insertLoop F (left + 1) h ⟨e.key, i, v⟩ ((home e.key + i) % h.size) =
          insertLoop F left (h.noteWrap ⟨e.key, i, v⟩) (bumpPsl ⟨e.key, i, v⟩)
            (next h.size ((home e.key + i) % h.size)) := by
        rw [insertLoop, if_pos hfull, hb, if_neg (by rw [F.keyCmp_iff]; exact hne),
          if_neg (by simp only; omega)]
      rw [hleft, hstep] at hw ⊢
      obtain ⟨hnote, hbump⟩ := bump_of_not_wrapped (insertLoop_pslWrapped hw)
      rw [hnote, hbump, ← add_succ_mod (by omega), hleft'] at hw ⊢
      exact ih (by omega) hw (by omega)

/-! ## a key the table lacks -/

/-- What storing the pair of a fresh entry does to a table of `n` slots. -/
structure Inserted [Zero K] [Zero V] (home : K → Nat) (h h' : RsHmap K V) (entry : Bkt K V) :
    Prop where
  frame : SameFrame h h'
  inv : Inv h.size home h'.view
  nitems : h'.nitems = h.nitems + 1
  count : count h.size h'.view = RobinHood.count h.size h.view + 1
  zero : ZeroEmpty h → ZeroEmpty h'
  holds : ∀ x w, Holds h.size h'.view x w ↔
    Holds h.size h.view x w ∨ (entry.key = x ∧ entry.val = w)

section Fresh

variable [Zero K] [Zero V] {F : FnPtrs K V} {h : RsHmap K V} {home : K → Nat} {entry : Bkt K V}
  {p : Nat}

/-- On a fresh entry the loop does to the buckets what `settle` does to the
slots, and the buckets that stay empty keep their bytes. -/
theorem insertLoop_settle {left : Nat} {t : Nat → Option (Bkt K V)}
    (hc : Carrying h.size home h.view entry p left)
    (ht : settle h.size left h.view entry p = some t)
    (hw : (insertLoop F left h entry p).2.pslWrapped = false) :
    ∃ h', insertLoop F left h entry p = (0, h') ∧ SameFrame h h' ∧ h'.view = t ∧
      h'.nitems = h.nitems + 1 ∧ (ZeroEmpty h → ZeroEmpty h') := by
  induction left generalizing h entry p with
  | zero => contradiction
  | succ left ih =>
      cases hv : h.view p with
      | none =>
          have hnfull := RsHmap.view_eq_none.mp hv
          rw [settle, hv] at ht
          rw [insertLoop, if_neg (by simp [hnfull])]
          refine ⟨_, rfl, ⟨rfl, rfl, rfl, rfl⟩, ?_, rfl, ?_⟩
          · exact (h.view_setBkt_setFull p entry).trans (Option.some.inj ht)
          · intro hzero q hq hfull
            have hqp : q ≠ p := by rintro rfl; simp [RsHmap.setFull] at hfull
            simp only [RsHmap.setFull, RsHmap.setBkt, update_of_ne hqp] at hfull ⊢
            exact hzero q hq hfull
      | some e =>
          obtain ⟨hfull, hb⟩ := RsHmap.view_eq_some.mp hv
          have hne : ¬ F.keyCmp e.key entry.key = true := by
            rw [F.keyCmp_iff]; exact hc.fresh p e hc.lt hv
          rw [settle, hv] at ht
          simp only [insertLoop, if_pos hfull, hb, if_neg hne] at hw ⊢
          by_cases hlt : entry.psl > e.psl
          · simp only [if_pos hlt] at ht hw ⊢
            obtain ⟨hnote, hbump⟩ := bump_of_not_wrapped (insertLoop_pslWrapped hw)
            rw [hnote, hbump] at hw ⊢
            have hview := RsHmap.view_setBkt hfull entry
            obtain ⟨h', hr, hframe, hview', hn, hz⟩ :=
              @ih (h.setBkt p entry) { e with psl := e.psl + 1 } (next h.size p)
                (by rw [hview]; exact hc.displace hv hlt) (by rw [hview]; exact ht) hw
            refine ⟨h', hr, ⟨hframe.size, hframe.divinfo, hframe.hashkey, hframe.config⟩, hview',
              hn, fun hzero => hz fun q hq hempty => ?_⟩
            have hqp : q ≠ p := by
              rintro rfl
              rw [show h.bktFull q = false from hempty] at hfull
              contradiction
            simp only [RsHmap.setBkt, update_of_ne hqp]
            exact hzero q hq hempty
          · simp only [if_neg hlt] at ht hw ⊢
            obtain ⟨hnote, hbump⟩ := bump_of_not_wrapped (insertLoop_pslWrapped hw)
            rw [hnote, hbump] at hw ⊢
            exact ih (hc.skip hv (Nat.le_of_not_lt hlt)) ht hw

/-- **A fresh entry is stored**, if the table does not wrap a probe length. -/
theorem insertLoop_fresh {left : Nat} (hc : Carrying h.size home h.view entry p left)
    (hw : (insertLoop F left h entry p).2.pslWrapped = false) :
    (insertLoop F left h entry p).1 = 0 ∧
      Inserted home h (insertLoop F left h entry p).2 entry := by
  obtain ⟨t, ht, hs⟩ := settle_spec hc
  obtain ⟨h', hr, hframe, rfl, hn, hz⟩ := insertLoop_settle hc ht hw
  rw [hr]
  exact ⟨rfl, hframe, hs.inv, hn, hs.count, hz, hs.holds⟩

theorem Inserted.wellFormed {h' : RsHmap K V} (hwf : WellFormed F h)
    (hins : Inserted (h.home F) h h' entry) : WellFormed F h' where
  size_pos := by rw [hins.frame.size]; exact hwf.size_pos
  size_lt := by rw [hins.frame.size]; exact hwf.size_lt
  divinfo_eq := by rw [hins.frame.divinfo, hins.frame.size]; exact hwf.divinfo_eq
  inv := by rw [hins.frame.size, hins.frame.home]; exact hins.inv
  nitems_eq := by rw [hins.frame.size, hins.count, hins.nitems, hwf.nitems_eq]
  zero := hins.zero hwf.zero

end Fresh

/-! ## the call -/

section Call

variable [Zero K] [Zero V] {F : FnPtrs K V} {h : RsHmap K V} {m : K → Option V} {k : K} {v : V}

/-- Inserting a key the table holds updates its value and nothing else, and
returns what `val_update` returned. -/
theorem rsHmapInsert_present (hwf : WellFormed F h) {w : V} (hk : Holds h.size h.view k w)
    (hw : (rsHmapInsert F h k v).2.pslWrapped = false) :
    ∃ q e, q < h.size ∧ h.view q = some e ∧ e.key = k ∧ e.val = w ∧
      rsHmapInsert F h k v =
        ((F.valUpdate w v).1, h.setBkt q { e with val := (F.valUpdate w v).2 }) := by
  obtain ⟨q, e, hq, he, rfl, rfl⟩ := hk
  refine ⟨q, e, hq, he, rfl, rfl, ?_⟩
  have hstart : rsHmapInsert F h e.key v =
      insertLoop F (h.size - 0) h ⟨e.key, 0, v⟩ ((h.home F e.key + 0) % h.size) := by
    rw [rsHmapInsert, Nat.sub_zero, Nat.add_zero, Nat.mod_eq_of_lt (hwf.home_lt _)]
  rw [hstart] at hw ⊢
  exact insertLoop_present hwf.inv hq he (Nat.zero_le _) hw

/-- Inserting a key the table lacks stores it, if some slot is empty. -/
theorem rsHmapInsert_fresh (hwf : WellFormed F h) (hk : Fresh h.size h.view k)
    (hroom : h.nitems < h.size) (hw : (rsHmapInsert F h k v).2.pslWrapped = false) :
    (rsHmapInsert F h k v).1 = 0 ∧
      Inserted (h.home F) h (rsHmapInsert F h k v).2 ⟨k, 0, v⟩ := by
  exact insertLoop_fresh
    (Carrying.start hwf.inv (hwf.home_lt k) hk (hwf.nitems_eq ▸ hroom) v) hw

/-- The map after `insert-or-val_update` of `(k, v)`. -/
def insertOrUpdate [DecidableEq K] (F : FnPtrs K V) (m : K → Option V) (k : K) (v : V) :
    K → Option V :=
  update m k (some (match m k with | none => v | some w => (F.valUpdate w v).2))

variable [DecidableEq K]

/-- **Insertion refines `insertOrUpdate`**, keeps the table well formed and
grows it by one item at most. -/
theorem rsHmapInsert_spec (hwf : WellFormed F h) (hrep : Rep h m) (hroom : h.nitems < h.size)
    (hw : (rsHmapInsert F h k v).2.pslWrapped = false) :
    WellFormed F (rsHmapInsert F h k v).2 ∧
      Rep (rsHmapInsert F h k v).2 (insertOrUpdate F m k v) ∧
      SameFrame h (rsHmapInsert F h k v).2 ∧
      (rsHmapInsert F h k v).2.nitems = h.nitems + (if m k = none then 1 else 0) ∧
      (rsHmapInsert F h k v).1 = (match m k with | none => 0 | some w => (F.valUpdate w v).1) := by
  cases hm : m k with
  | none =>
      obtain ⟨hst, hins⟩ := rsHmapInsert_fresh hwf (hrep.fresh_iff.mpr hm) hroom hw
      refine ⟨hins.wellFormed hwf, ?_, hins.frame, ?_, hst⟩
      · intro x w
        rw [hins.frame.size, hins.holds, ← hrep x w]
        by_cases hx : x = k
        · subst hx
          simp [insertOrUpdate, hm]
        · simp [insertOrUpdate, update_of_ne hx, Ne.symm hx]
      · simpa using hins.nitems
  | some w =>
      obtain ⟨q, e, hq, he, rfl, rfl, heq⟩ := rsHmapInsert_present hwf ((hrep k w).mp hm) hw
      obtain ⟨hfull, hb⟩ := RsHmap.view_eq_some.mp he
      have hview := RsHmap.view_setBkt hfull { e with val := (F.valUpdate e.val v).2 }
      rw [heq]
      refine ⟨⟨hwf.size_pos, hwf.size_lt, hwf.divinfo_eq, ?_, ?_, ?_⟩, ?_, ⟨rfl, rfl, rfl, rfl⟩,
        by simp [RsHmap.setBkt], rfl⟩
      · rw [hview]; exact hwf.inv.setVal he _
      · rw [hview]
        exact hwf.nitems_eq.trans (count_update_some he _).symm
      · intro r hr hempty
        have hrq : r ≠ q := by
          rintro rfl
          rw [show h.bktFull r = false from hempty] at hfull
          contradiction
        simp only [RsHmap.setBkt, update_of_ne hrq]
        exact hwf.zero r hr hempty
      · intro x u
        rw [hview]
        refine Iff.trans ?_ (hwf.inv.holds_setVal hq he).symm
        by_cases hx : x = e.key
        · subst hx
          simp [insertOrUpdate, hm, eq_comm]
        · simp [insertOrUpdate, hx, hrep x u]

end Call

end QStore.Hmap
