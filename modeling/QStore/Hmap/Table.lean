import QStore.Lib.RobinHood
import QStore.Hmap.FastDiv
import QStore.Hmap.Size

/-!
# QStore.Hmap.Table

`rs_hmap_t`, its buckets and its function pointers (`inc/rs_hmap_struct.h`,
`inc/rs_hmap_config.h`), and `rs_hmap_instantiate`.

A table is read through `RsHmap.view`, the slots of `QStore.RobinHood`: a
bucket that is not full is an empty slot whatever its bytes are. `WellFormed`
is the invariant of a table between two calls; `Rep` relates it to the finite
map it stands for.
-/

namespace QStore.Hmap

open QStore.Ring QStore.RobinHood Function

/-- `rs_hmap_bkt_t`: `key`, the `uint16_t` probe sequence length `psl`, `val`. -/
abbrev Bkt (K V : Type) := Entry K V

/-- `rs_hmap_config_t`. The water marks are C floats. -/
structure HmapConfig where
  minSize : Nat
  maxSize : Nat
  lowWaterMark : Rat
  highWaterMark : Rat
  soFile : Option String

/-- The function pointers of a table that the modelled calls use. `keyCmp` is
equality of keys; `valUpdate` returns a status and what it leaves in the
bucket. -/
structure FnPtrs (K V : Type) where
  setHash : K → UInt64 → UInt32
  keyCmp : K → K → Bool
  valUpdate : V → V → Int × V
  keyCmp_iff : ∀ a b, keyCmp a b = true ↔ a = b

/-- `rs_hmap_t`. `pslWrapped` is no field of the source: it records that some
`psl` was incremented past the 16 bits it is stored in. -/
structure RsHmap (K V : Type) where
  size : Nat
  nitems : Nat
  divinfo : Nat
  bkts : Nat → Bkt K V
  bktFull : Nat → Bool
  hashkey : UInt64
  config : HmapConfig
  pslWrapped : Bool

variable {K V : Type}

/-- The bucket `memset` leaves. -/
def zeroBkt [Zero K] [Zero V] : Bkt K V := ⟨0, 0, 0⟩

namespace RsHmap

/-- `bkts[p] = b` -/
def setBkt (h : RsHmap K V) (p : Nat) (b : Bkt K V) : RsHmap K V :=
  { h with bkts := update h.bkts p b }

/-- `bkt_full[p] = b` -/
def setFull (h : RsHmap K V) (p : Nat) (b : Bool) : RsHmap K V :=
  { h with bktFull := update h.bktFull p b }

/-- The slots of the table. -/
def view (h : RsHmap K V) (p : Nat) : Option (Bkt K V) :=
  if h.bktFull p then some (h.bkts p) else none

/-- The first probe location of a key. -/
def home (F : FnPtrs K V) (h : RsHmap K V) (k : K) : Nat :=
  setProbeLoc (F.setHash k h.hashkey).toNat h.size h.divinfo

theorem view_of_full {h : RsHmap K V} {p : Nat} (hp : h.bktFull p = true) :
    h.view p = some (h.bkts p) := by
  simp [view, hp]

theorem view_eq_none {h : RsHmap K V} {p : Nat} : h.view p = none ↔ h.bktFull p = false := by
  simp [view]

theorem view_eq_some {h : RsHmap K V} {p : Nat} {b : Bkt K V} :
    h.view p = some b ↔ h.bktFull p = true ∧ h.bkts p = b := by
  simp [view]

/-- Overwriting a full bucket. -/
theorem view_setBkt {h : RsHmap K V} {p : Nat} (hp : h.bktFull p = true) (b : Bkt K V) :
    (h.setBkt p b).view = update h.view p (some b) := by
  funext q
  by_cases hq : q = p
  · simp [view, setBkt, hq, hp]
  · simp [view, setBkt, hq]

/-- Writing a bucket and marking it full. -/
theorem view_setBkt_setFull (h : RsHmap K V) (p : Nat) (b : Bkt K V) :
    ((h.setBkt p b).setFull p true).view = update h.view p (some b) := by
  funext q
  by_cases hq : q = p
  · simp [view, setBkt, setFull, hq]
  · simp [view, setBkt, setFull, hq]

/-- Marking a bucket empty, whatever is written to it. -/
theorem view_setBkt_setEmpty (h : RsHmap K V) (p : Nat) (b : Bkt K V) :
    ((h.setBkt p b).setFull p false).view = update h.view p none := by
  funext q
  by_cases hq : q = p
  · simp [view, setBkt, setFull, hq]
  · simp [view, setBkt, setFull, hq]

end RsHmap

/-! ## the invariant -/

section Invariant

variable [Zero K] [Zero V]

/-- Every bucket that is not full is all zero. -/
def ZeroEmpty (h : RsHmap K V) : Prop :=
  ∀ p, p < h.size → h.bktFull p = false → h.bkts p = zeroBkt

/-- The invariant of a table between two calls. -/
structure WellFormed (F : FnPtrs K V) (h : RsHmap K V) : Prop where
  size_pos : 0 < h.size
  size_lt : h.size < 2 ^ 32
  divinfo_eq : h.divinfo = fastDiv32Init h.size
  inv : Inv h.size (h.home F) h.view
  nitems_eq : h.nitems = count h.size h.view
  zero : ZeroEmpty h

/-- The table holds exactly the pairs of the map `m`. -/
def Rep (h : RsHmap K V) (m : K → Option V) : Prop :=
  ∀ k v, m k = some v ↔ Holds h.size h.view k v

variable {F : FnPtrs K V} {h : RsHmap K V} {m : K → Option V}

omit [Zero K] [Zero V] in
/-- The home slot is the remainder of the hash by the size. -/
theorem home_eq (hpos : 0 < h.size) (hlt : h.size < 2 ^ 32)
    (hdiv : h.divinfo = fastDiv32Init h.size) (k : K) :
    h.home F k = (F.setHash k h.hashkey).toNat % h.size := by
  rw [RsHmap.home, hdiv]
  exact setProbeLoc_eq hpos hlt (UInt32.toNat_lt _)

theorem WellFormed.home_lt (hwf : WellFormed F h) (k : K) : h.home F k < h.size := by
  rw [home_eq hwf.size_pos hwf.size_lt hwf.divinfo_eq]
  exact Nat.mod_lt _ hwf.size_pos

theorem WellFormed.nitems_le (hwf : WellFormed F h) : h.nitems ≤ h.size := by
  rw [hwf.nitems_eq]
  exact count_le _ _

omit [Zero K] [Zero V] in
/-- Keys the map lacks are in no bucket. -/
theorem Rep.fresh_iff (hrep : Rep h m) {k : K} : Fresh h.size h.view k ↔ m k = none := by
  rw [fresh_iff_not_holds, Option.eq_none_iff_forall_not_mem]
  exact forall_congr' fun v => not_congr (hrep k v).symm

end Invariant

/-! ## instantiate -/

/-- `LOW_WATER_MARK`, as a float. -/
def lowWaterMark : Rat := 13421773 / 67108864

/-- `HIGH_WATER_MARK`, as a float. -/
def highWaterMark : Rat := 14260634 / 16777216

/-- The configuration `rs_hmap_instantiate` writes into a zeroed `H`. A water
mark that is given is not copied: the field stays zero. -/
def configOf (hc : HmapConfig) : HmapConfig where
  minSize := if hc.minSize = 0 then hashMinSize else hc.minSize
  maxSize := hc.maxSize
  lowWaterMark := if hc.lowWaterMark = 0 then lowWaterMark else 0
  highWaterMark := if hc.highWaterMark = 0 then highWaterMark else 0
  soFile := none

/-- The checks on the water marks. -/
def marksOk (c : HmapConfig) : Bool :=
  !(c.lowWaterMark ≤ 0 || c.lowWaterMark ≥ 1) && !(c.highWaterMark ≤ 0 || c.highWaterMark ≥ 1) &&
    !(c.lowWaterMark > c.highWaterMark)

section Instantiate

variable [Zero K] [Zero V]

/-- A table of `size` zeroed buckets. -/
def blank (size : Nat) (hashkey : UInt64) (config : HmapConfig) (wrapped : Bool) :
    RsHmap K V where
  size := size
  nitems := 0
  divinfo := fastDiv32Init size
  bkts := fun _ => zeroBkt
  bktFull := fun _ => false
  hashkey := hashkey
  config := config
  pslWrapped := wrapped

/-- `rs_hmap_instantiate` on a zeroed `H`, whose bytes after an error are not
modelled. `hashkey` is the random key it draws and `loads` whether
`rs_hmap_set_fn_ptrs` finds the shared object. `none`: the call crashes, a size
of `0` makes `fast_div32_init` divide by zero. -/
def instantiate (hc : HmapConfig) (hashkey : UInt64) (loads : Bool) :
    Option (Except Int (RsHmap K V)) :=
  if !marksOk (configOf hc) then some (.error (-1))
  else if primeGeq (configOf hc).minSize = 0 then none
  else if hc.soFile = none ∨ hc.soFile = some "" then some (.error (-1))
  else if !loads then some (.error (-1))
  else some (.ok (blank (primeGeq (configOf hc).minSize) hashkey
    { configOf hc with soFile := hc.soFile } false))

theorem wellFormed_blank {F : FnPtrs K V} {size : Nat} (hpos : 0 < size) (hlt : size < 2 ^ 32)
    (hashkey : UInt64) (config : HmapConfig) (wrapped : Bool) :
    WellFormed F (blank (K := K) (V := V) size hashkey config wrapped) where
  size_pos := hpos
  size_lt := hlt
  divinfo_eq := rfl
  inv := Inv.empty hpos
  nitems_eq := by simp [blank, count, RsHmap.view]
  zero := fun _ _ _ => rfl

theorem rep_blank (size : Nat) (hashkey : UInt64) (config : HmapConfig) (wrapped : Bool) :
    Rep (blank (K := K) (V := V) size hashkey config wrapped) (fun _ => none) := by
  intro k v
  simp [blank, Holds, RsHmap.view]

/-- What a successful `rs_hmap_instantiate` returns. -/
theorem instantiate_eq_blank {hc : HmapConfig} {hashkey : UInt64} {loads : Bool}
    {h : RsHmap K V} (hi : instantiate hc hashkey loads = some (.ok h)) :
    ∃ size config, 0 < size ∧ size < 2 ^ 32 ∧ h = blank size hashkey config false := by
  unfold instantiate at hi
  split at hi
  · simp at hi
  · split at hi
    · simp at hi
    · next hsize =>
      split at hi
      · simp at hi
      · split at hi
        · simp at hi
        · simp only [Option.some.injEq, Except.ok.injEq] at hi
          exact ⟨_, _, Nat.pos_of_ne_zero hsize, primeGeq_lt _, hi.symm⟩

end Instantiate

end QStore.Hmap
