import QStore.Hmap.FastDiv
import QStore.Hmap.Size
import QStore.Lib.Probing

/-!
# QStore.ExactUnique.Insert

The hash map of `approxalgos/ExactUnique`, which keeps keys and no values (`inc/hmap_struct.h`),
and `hmap_insert`.  A bucket is empty where its key is 0; that the key 0 has been put is noted in
`has_zero`.

There is no lookup: `hmap_insert` stops at a bucket that has the key it was called with, also
when what it carries by then is another one.  It meets a key that the map has before it has
displaced any (`hmapInsert_present`), and otherwise never (`insertLoop_settle`).
-/

namespace QStore.ExactUnique

open QStore.Ring QStore.RobinHood Function

/-- `bkt_t`: `key`, the `uint16_t` probe sequence length `psl`, and `cnt`. -/
abbrev Bkt := Entry UInt64 Nat

/-- `hmap_t` -/
structure HMap where
  size : Nat
  nitems : Nat
  divinfo : Nat
  bkts : Nat → Bkt
  hashkey : UInt64
  minsize : Nat
  maxsize : Nat
  hasZero : Bool
  isApprox : Bool

/-- The bucket `calloc` makes. -/
def zeroBkt : Bkt := ⟨0, 0, 0⟩

namespace HMap

/-- `bkts[p] = b` -/
def setBkt (h : HMap) (p : Nat) (b : Bkt) : HMap := { h with bkts := update h.bkts p b }

/-- The slots of the table. -/
def view (h : HMap) (p : Nat) : Option Bkt := if (h.bkts p).key = 0 then none else some (h.bkts p)

/-- The first location at which a key is probed for. `murmurhash3` takes the key and the seed. -/
def home (murmurhash3 : UInt64 → UInt64 → UInt32) (h : HMap) (key : UInt64) : Nat :=
  Hmap.fastRem32 (murmurhash3 key h.hashkey).toNat h.size h.divinfo

theorem view_eq_none {h : HMap} {p : Nat} : h.view p = none ↔ (h.bkts p).key = 0 := by
  simp [view]

theorem view_eq_some {h : HMap} {p : Nat} {b : Bkt} :
    h.view p = some b ↔ h.bkts p = b ∧ b.key ≠ 0 := by
  rw [view]
  split
  · next h0 =>
    constructor
    · intro hno
      contradiction
    · rintro ⟨rfl, hne⟩
      exact absurd h0 hne
  · next h0 =>
    rw [Option.some.injEq]
    constructor
    · rintro rfl
      exact ⟨rfl, h0⟩
    · exact fun hb => hb.1

theorem view_setBkt (h : HMap) (p : Nat) {b : Bkt} (hb : b.key ≠ 0) :
    (h.setBkt p b).view = update h.view p (some b) := by
  funext q
  by_cases hq : q = p
  · simp [view, setBkt, hq, hb]
  · simp [view, setBkt, hq]

/-- No slot has the key 0. -/
theorem view_key_ne_zero {h : HMap} {p : Nat} {b : Bkt} (hb : h.view p = some b) : b.key ≠ 0 :=
  (view_eq_some.mp hb).2

end HMap

/-! ## hmap_insert -/

/-- The loop of `hmap_insert` at `probe_loc = p`, with `size - num_probes` turns left: the status
and the table. -/
def insertLoop (key : UInt64) : Nat → HMap → Bkt → Nat → Int × HMap
  | 0, h, _, _ => (-1, h)
  | left + 1, h, entry, p =>
      if (h.bkts p).key ≠ 0 then
        if (h.bkts p).key = key then (0, h)
        else if entry.psl > (h.bkts p).psl then
          insertLoop key left (h.setBkt p entry)
            { h.bkts p with psl := ((h.bkts p).psl + 1) % 2 ^ 16 } (next h.size p)
        else insertLoop key left h { entry with psl := (entry.psl + 1) % 2 ^ 16 } (next h.size p)
      else (0, { h.setBkt p entry with nitems := h.nitems + 1 })

/-- `hmap_insert`. A `hash` of 0 is computed. -/
def hmapInsert (murmurhash3 : UInt64 → UInt64 → UInt32) (h : HMap) (key : UInt64)
    (hash : UInt32) : Int × HMap :=
  if key = 0 then (0, { h with hasZero := true })
  else
    let hash := if hash = 0 then murmurhash3 key h.hashkey else hash
    let probeLoc := Hmap.fastRem32 hash.toNat h.size h.divinfo
    if h.size ≤ probeLoc then (-1, h)
    else insertLoop key h.size h ⟨key, 0, 0⟩ probeLoc

/-- The invariant of a table between two calls. -/
structure WellFormed (murmurhash3 : UInt64 → UInt64 → UInt32) (h : HMap) : Prop where
  size_pos : 0 < h.size
  size_lt : h.size < 2 ^ 32
  divinfo_eq : h.divinfo = Hmap.fastDiv32Init h.size
  inv : Inv h.size (h.home murmurhash3) h.view
  nitems_eq : h.nitems = count h.size h.view

/-- The fields an insertion leaves alone. -/
structure SameFrame (h h' : HMap) : Prop where
  size : h'.size = h.size
  divinfo : h'.divinfo = h.divinfo
  hashkey : h'.hashkey = h.hashkey
  minsize : h'.minsize = h.minsize
  maxsize : h'.maxsize = h.maxsize
  hasZero : h'.hasZero = h.hasZero

theorem SameFrame.rfl {h : HMap} : SameFrame h h :=
  ⟨.refl _, .refl _, .refl _, .refl _, .refl _, .refl _⟩

theorem SameFrame.trans {h₁ h₂ h₃ : HMap} (h : SameFrame h₁ h₂) (h' : SameFrame h₂ h₃) :
    SameFrame h₁ h₃ :=
  ⟨h'.size.trans h.size, h'.divinfo.trans h.divinfo, h'.hashkey.trans h.hashkey,
    h'.minsize.trans h.minsize, h'.maxsize.trans h.maxsize, h'.hasZero.trans h.hasZero⟩

variable {murmurhash3 : UInt64 → UInt64 → UInt32} {h : HMap} {key : UInt64}

theorem SameFrame.home {h' : HMap} (hf : SameFrame h h') :
    h'.home murmurhash3 = h.home murmurhash3 := by
  funext k
  simp only [HMap.home, hf.size, hf.divinfo, hf.hashkey]

theorem WellFormed.home_lt (hwf : WellFormed murmurhash3 h) (k : UInt64) :
    h.home murmurhash3 k < h.size := by
  have heq : h.home murmurhash3 k = (murmurhash3 k h.hashkey).toNat % h.size := by
    rw [HMap.home, hwf.divinfo_eq]
    exact Hmap.setProbeLoc_eq hwf.size_pos hwf.size_lt (UInt32.toNat_lt _)
  rw [heq]
  exact Nat.mod_lt _ hwf.size_pos

/-- An insertion starts at the home of its key. -/
theorem hmapInsert_eq (hwf : WellFormed murmurhash3 h) (hk : key ≠ 0) :
    hmapInsert murmurhash3 h key 0 =
      insertLoop key h.size h ⟨key, 0, 0⟩ (h.home murmurhash3 key) := by
  have hlt := hwf.home_lt key
  simp only [hmapInsert, if_neg hk, if_true]
  exact if_neg (Nat.not_le.mpr hlt)

theorem insertLoop_size {left p : Nat} {entry : Bkt} :
    (insertLoop key left h entry p).2.size = h.size := by
  induction left generalizing h entry p with
  | zero => rfl
  | succ left ih =>
      rw [insertLoop]
      split
      · split
        · rfl
        · split
          · exact ih
          · exact ih
      · rfl

/-- No insertion changes the size, whether it succeeds or not. -/
theorem hmapInsert_size {hash : UInt32} : (hmapInsert murmurhash3 h key hash).2.size = h.size := by
  rw [hmapInsert]
  by_cases hk : key = 0
  · rw [if_pos hk]
  · rw [if_neg hk]
    by_cases hloc : h.size ≤ Hmap.fastRem32
        (if hash = 0 then murmurhash3 key h.hashkey else hash).toNat h.size h.divinfo
    · simp only [if_pos hloc]
    · simp only [if_neg hloc]
      exact insertLoop_size

/-! ## A key the map has -/

/-- An insertion of a key that the map has walks to it and changes nothing. -/
theorem hmapInsert_present (hwf : WellFormed murmurhash3 h) (hsmall : h.size < 2 ^ 16)
    {c : Nat} (hk : Holds h.size h.view key c) : hmapInsert murmurhash3 h key 0 = (0, h) := by
  obtain ⟨q, e, hq, he, rfl, -⟩ := hk
  have hpsl := hwf.inv.psl_lt q e hq he
  rw [hmapInsert_eq hwf (HMap.view_key_ne_zero he)]
  have hwalk := hwf.inv.walk_to hq he
    (P := fun i => insertLoop e.key (h.size - i) h ⟨e.key, i, 0⟩
      ((h.home murmurhash3 e.key + i) % h.size) = (0, h))
  rw [Nat.sub_zero, Nat.add_zero, Nat.mod_eq_of_lt (hwf.home_lt _)] at hwalk
  apply hwalk
  · obtain ⟨left, hleft⟩ : ∃ left, h.size - e.psl = left + 1 := ⟨h.size - e.psl - 1, by omega⟩
    obtain ⟨hb, hne⟩ := HMap.view_eq_some.mp he
    rw [hwf.inv.loc q e hq he, hleft, insertLoop, hb, if_pos hne, if_pos rfl]
  · intro i f hi hf hle hne hrest
    obtain ⟨left, hleft⟩ : ∃ left, h.size - i = left + 1 := ⟨h.size - i - 1, by omega⟩
    obtain ⟨hb, hf0⟩ := HMap.view_eq_some.mp hf
    rw [hleft, insertLoop, hb, if_pos hf0, if_neg hne, if_neg (by simp only; omega),
      Nat.mod_eq_of_lt (by simp only; omega), ← add_succ_mod (by omega),
      show left = h.size - (i + 1) by omega]
    exact hrest

/-! ## A key the map lacks -/

/-- On a fresh key the loop does to the buckets what `settle` does to the slots: none of the
slots it has ahead has the key. -/
theorem insertLoop_settle {home : UInt64 → Nat} {left p : Nat} {entry : Bkt}
    {t : Nat → Option Bkt} (hsmall : h.size < 2 ^ 16)
    (hc : Carrying h.size home h.view entry p left) (hleft : left ≤ h.size) (hne0 : entry.key ≠ 0)
    (hahead : ∀ j f, j < left → h.view ((p + j) % h.size) = some f → f.key ≠ key)
    (ht : settle h.size left h.view entry p = some t) :
    ∃ h', insertLoop key left h entry p = (0, h') ∧ SameFrame h h' ∧ h'.view = t ∧
      h'.nitems = h.nitems + 1 := by
  induction left generalizing h entry p with
  | zero => contradiction
  | succ left ih =>
      have hnext : ∀ j, (next h.size p + j) % h.size = (p + (j + 1)) % h.size := fun j =>
        (succ_add_mod hc.lt).symm
      cases hv : h.view p with
      | none =>
          rw [settle, hv] at ht
          rw [insertLoop, if_neg (not_not.mpr (HMap.view_eq_none.mp hv))]
          refine ⟨_, rfl, ⟨rfl, rfl, rfl, rfl, rfl, rfl⟩, ?_, rfl⟩
          exact (h.view_setBkt p hne0).trans (Option.some.inj ht)
      | some e =>
          obtain ⟨hb, he0⟩ := HMap.view_eq_some.mp hv
          have hne : e.key ≠ key := by
            refine hahead 0 e (Nat.zero_lt_succ left) ?_
            rw [Nat.add_zero, Nat.mod_eq_of_lt hc.lt]
            exact hv
          rw [settle, hv] at ht
          simp only [insertLoop, hb, if_pos he0, if_neg hne]
          by_cases hlt : entry.psl > e.psl
          · have hc' := hc.displace hv hlt
            have hpsl := hc'.psl_lt
            have hview := h.view_setBkt p hne0
            simp only [if_pos hlt] at ht ⊢
            rw [Nat.mod_eq_of_lt (by simp only at hpsl; omega)]
            obtain ⟨h', hr, hframe, hview', hn⟩ := @ih (h.setBkt p entry) (next h.size p)
              { e with psl := e.psl + 1 } hsmall (by rw [hview]; exact hc') (Nat.le_of_lt hleft)
              he0 (by
                intro j f hj hf
                rw [hview] at hf
                change update h.view p (some entry) ((next h.size p + j) % h.size) = some f at hf
                rw [hnext] at hf
                -- within one turn of the ring the walk does not come back to `p`
                have hnp : (p + (j + 1)) % h.size ≠ p := by
                  intro hx
                  have h0 : (p + 0) % h.size = p := Nat.mod_eq_of_lt hc.lt
                  have := add_mod_inj (by omega) (by omega) (hx.trans h0.symm)
                  omega
                rw [update_of_ne hnp] at hf
                exact hahead (j + 1) f (by omega) hf)
              (by rw [hview]; exact ht)
            exact ⟨h', hr, ⟨hframe.size, hframe.divinfo, hframe.hashkey, hframe.minsize,
              hframe.maxsize, hframe.hasZero⟩, hview', hn⟩
          · have hc' := hc.skip hv (Nat.le_of_not_lt hlt)
            have hpsl := hc'.psl_lt
            simp only [if_neg hlt] at ht ⊢
            rw [Nat.mod_eq_of_lt (by simp only at hpsl; omega)]
            refine ih hsmall hc' (Nat.le_of_lt hleft) hne0 ?_ ht
            intro j f hj hf
            rw [hnext] at hf
            exact hahead (j + 1) f (by omega) hf

/-- What storing a fresh key does. -/
structure Inserted (murmurhash3 : UInt64 → UInt64 → UInt32) (h h' : HMap) (key : UInt64) :
    Prop where
  wellFormed : WellFormed murmurhash3 h'
  frame : SameFrame h h'
  nitems : h'.nitems = h.nitems + 1
  holds : ∀ x c, Holds h'.size h'.view x c ↔ Holds h.size h.view x c ∨ (key = x ∧ 0 = c)

/-- An insertion of a key that the map lacks stores it, if some bucket is empty. -/
theorem hmapInsert_fresh (hwf : WellFormed murmurhash3 h) (hsmall : h.size < 2 ^ 16)
    (hk : key ≠ 0) (hfresh : Fresh h.size h.view key) (hroom : h.nitems < h.size) :
    ∃ h', hmapInsert murmurhash3 h key 0 = (0, h') ∧ Inserted murmurhash3 h h' key := by
  have hc : Carrying h.size (h.home murmurhash3) h.view ⟨key, 0, 0⟩ _ h.size :=
    Carrying.start hwf.inv (hwf.home_lt key) hfresh (hwf.nitems_eq ▸ hroom) 0
  obtain ⟨t, ht, hs⟩ := settle_spec hc
  obtain ⟨h', hr, hframe, rfl, hn⟩ := insertLoop_settle hsmall hc le_rfl hk
    (fun j f _ hf => hfresh _ f (Nat.mod_lt _ hwf.size_pos) hf) ht
  rw [hmapInsert_eq hwf hk, hr]
  refine ⟨h', rfl, ⟨?_, ?_, ?_, ?_, ?_⟩, hframe, hn, ?_⟩
  · rw [hframe.size]; exact hwf.size_pos
  · rw [hframe.size]; exact hwf.size_lt
  · rw [hframe.divinfo, hframe.size]; exact hwf.divinfo_eq
  · rw [hframe.size, hframe.home]; exact hs.inv
  · rw [hframe.size, hs.count, hn, hwf.nitems_eq]
  · rw [hframe.size]; exact hs.holds

end QStore.ExactUnique
