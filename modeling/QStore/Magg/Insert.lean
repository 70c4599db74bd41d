import QStore.Hmap.FastDiv
import QStore.Lib.Crowding

/-!
# QStore.Magg.Insert

The hash map of an aggregator (`RUNTIME/MAGG`), which keeps with each key its aggregate and how
often it has been put, and `hmap_insert`. A bucket is empty where its key is 0.

The key type, the values and what a put does to the value of a key it finds are filled into the
templates: here they are the variables `K`, `V` and `codeForUpdate`. The counts of probes, which
nothing reads but the statistics, are left out.

`psl` has 16 bits. An insertion increments what it carries, and as long as no crowd of keys is
`2^16` larger than the run of slots it is at home in, that stays within them.
-/

namespace QStore.Magg

open QStore.Ring QStore.RobinHood Function

/-- What a bucket has beside its key and `psl`: the `val_t` and the `uint32_t` `cnt`. -/
structure Cell (V : Type) where
  val : V
  cnt : Nat

/-- `bkt_t` -/
abbrev Bkt (K V : Type) := Entry K (Cell V)

/-- `hmap_t` -/
structure HMap (K V : Type) where
  size : Nat
  nitems : Nat
  divinfo : Nat
  bkts : Nat → Bkt K V
  hashkey : UInt64
  minsize : Nat

variable {K V : Type} [DecidableEq K] [Zero K] [Zero V]

/-- The bucket `memset` and `calloc` make. -/
def zeroBkt : Bkt K V := ⟨0, 0, ⟨0, 0⟩⟩

namespace HMap

/-- `bkts[p] = b` -/
def setBkt (h : HMap K V) (p : Nat) (b : Bkt K V) : HMap K V := { h with bkts := update h.bkts p b }

/-- The slots of the table. -/
def view (h : HMap K V) (p : Nat) : Option (Bkt K V) :=
  if (h.bkts p).key = 0 then none else some (h.bkts p)

/-- The first location at which a key is probed for. `murmurhash3` takes the key and the seed. -/
def home (murmurhash3 : K → UInt64 → UInt32) (h : HMap K V) (key : K) : Nat :=
  Hmap.fastRem32 (murmurhash3 key h.hashkey).toNat h.size h.divinfo

omit [Zero V]

theorem view_eq_none {h : HMap K V} {p : Nat} : h.view p = none ↔ (h.bkts p).key = 0 := by
  simp [view]

theorem view_eq_some {h : HMap K V} {p : Nat} {b : Bkt K V} :
    h.view p = some b ↔ h.bkts p = b ∧ b.key ≠ 0 := by
  rw [view]
  split
  · next h0 =>
    constructor
    · intro hno
      contradiction
    · rintro ⟨rfl, hne⟩
      exact absurd h0 hne
  · next h0 =>
    rw [Option.some.injEq]
    constructor
    · rintro rfl
      exact ⟨rfl, h0⟩
    · exact fun hb => hb.1

theorem view_setBkt (h : HMap K V) (p : Nat) {b : Bkt K V} (hb : b.key ≠ 0) :
    (h.setBkt p b).view = update h.view p (some b) := by
  funext q
  by_cases hq : q = p
  · simp [view, setBkt, hq, hb]
  · simp [view, setBkt, hq]

theorem view_setBkt_zero (h : HMap K V) (p : Nat) {b : Bkt K V} (hb : b.key = 0) :
    (h.setBkt p b).view = update h.view p none := by
  funext q
  by_cases hq : q = p
  · simp [view, setBkt, hq, hb]
  · simp [view, setBkt, hq]

/-- No slot has the key 0. -/
theorem view_key_ne_zero {h : HMap K V} {p : Nat} {b : Bkt K V} (hb : h.view p = some b) :
    b.key ≠ 0 :=
  (view_eq_some.mp hb).2

end HMap

/-! ## hmap_insert -/

/-- What `hmap_insert` and `hmap_put` return and write through their pointers. -/
structure PutResult (K V : Type) where
  status : Int
  oldVal : V
  updated : Bool
  hmap : HMap K V

/-- The loop of `hmap_insert` at `probe_loc = p`, with `size - num_probes` turns left. `key` and
`val` are those of the call, also when `entry` is by then another one. -/
def insertLoop (codeForUpdate : V → V → V) (key : K) (val : V) :
    Nat → HMap K V → Bkt K V → Nat → PutResult K V
  | 0, h, _, _ => ⟨-1, 0, false, h⟩
  | left + 1, h, entry, p =>
      if (h.bkts p).key ≠ 0 then
        if (h.bkts p).key = key then
          ⟨0, (h.bkts p).val.val, true,
            h.setBkt p { h.bkts p with
              val := ⟨codeForUpdate (h.bkts p).val.val val, ((h.bkts p).val.cnt + 1) % 2 ^ 32⟩ }⟩
        else if entry.psl > (h.bkts p).psl then
          insertLoop codeForUpdate key val left (h.setBkt p entry)
            { h.bkts p with psl := ((h.bkts p).psl + 1) % 2 ^ 16 } (next h.size p)
        else
          insertLoop codeForUpdate key val left h { entry with psl := (entry.psl + 1) % 2 ^ 16 }
            (next h.size p)
      else ⟨0, 0, false, { h.setBkt p entry with nitems := h.nitems + 1 }⟩

/-- `hmap_insert` -/
def hmapInsert (murmurhash3 : K → UInt64 → UInt32) (codeForUpdate : V → V → V) (h : HMap K V)
    (key : K) (val : V) : PutResult K V :=
  if key = 0 then ⟨0, 0, false, h⟩
  else if h.size ≤ h.home murmurhash3 key then ⟨-1, 0, false, h⟩
  else insertLoop codeForUpdate key val h.size h ⟨key, 0, ⟨val, 1⟩⟩ (h.home murmurhash3 key)

/-- The invariant of a table between two calls. -/
structure WellFormed (murmurhash3 : K → UInt64 → UInt32) (h : HMap K V) : Prop where
  size_pos : 0 < h.size
  size_lt : h.size < 2 ^ 32
  divinfo_eq : h.divinfo = Hmap.fastDiv32Init h.size
  inv : Inv h.size (h.home murmurhash3) h.view
  nitems_eq : h.nitems = count h.size h.view

/-- The fields an insertion or a deletion without resize leaves alone. -/
structure SameFrame (h h' : HMap K V) : Prop where
  size : h'.size = h.size
  divinfo : h'.divinfo = h.divinfo
  hashkey : h'.hashkey = h.hashkey
  minsize : h'.minsize = h.minsize

omit [DecidableEq K] [Zero K] [Zero V] in
theorem SameFrame.rfl {h : HMap K V} : SameFrame h h := ⟨.refl _, .refl _, .refl _, .refl _⟩

omit [DecidableEq K] [Zero K] [Zero V] in
theorem SameFrame.trans {h₁ h₂ h₃ : HMap K V} (h : SameFrame h₁ h₂) (h' : SameFrame h₂ h₃) :
    SameFrame h₁ h₃ :=
  ⟨h'.size.trans h.size, h'.divinfo.trans h.divinfo, h'.hashkey.trans h.hashkey,
    h'.minsize.trans h.minsize⟩

variable {murmurhash3 : K → UInt64 → UInt32} {codeForUpdate : V → V → V} {h : HMap K V}
  {key : K} {val : V}

omit [DecidableEq K] [Zero K] [Zero V] in
theorem SameFrame.home {h' : HMap K V} (hf : SameFrame h h') :
    h'.home murmurhash3 = h.home murmurhash3 := by
  funext k
  simp only [HMap.home, hf.size, hf.divinfo, hf.hashkey]

omit [Zero V] in
theorem WellFormed.home_lt (hwf : WellFormed murmurhash3 h) (k : K) :
    h.home murmurhash3 k < h.size := by
  have heq : h.home murmurhash3 k = (murmurhash3 k h.hashkey).toNat % h.size := by
    rw [HMap.home, hwf.divinfo_eq]
    exact Hmap.setProbeLoc_eq hwf.size_pos hwf.size_lt (UInt32.toNat_lt _)
  rw [heq]
  exact Nat.mod_lt _ hwf.size_pos

omit [Zero V] in
theorem WellFormed.exists_empty (hwf : WellFormed murmurhash3 h) (hroom : h.nitems < h.size) :
    ∃ z, z < h.size ∧ h.view z = none :=
  exists_none_of_count_lt (hwf.nitems_eq ▸ hroom)

omit [Zero V] in
theorem WellFormed.of_frame {h' : HMap K V} (hwf : WellFormed murmurhash3 h)
    (hf : SameFrame h h') (hinv : Inv h.size (h.home murmurhash3) h'.view)
    (hn : h'.nitems = count h.size h'.view) : WellFormed murmurhash3 h' where
  size_pos := by rw [hf.size]; exact hwf.size_pos
  size_lt := by rw [hf.size]; exact hwf.size_lt
  divinfo_eq := by rw [hf.divinfo, hf.size]; exact hwf.divinfo_eq
  inv := by rw [hf.size, hf.home]; exact hinv
  nitems_eq := by rw [hf.size]; exact hn

/-- An insertion starts at the home of its key. -/
theorem hmapInsert_eq (hwf : WellFormed murmurhash3 h) (hk : key ≠ 0) :
    hmapInsert murmurhash3 codeForUpdate h key val =
      insertLoop codeForUpdate key val h.size h ⟨key, 0, ⟨val, 1⟩⟩ (h.home murmurhash3 key) := by
  rw [hmapInsert, if_neg hk, if_neg (Nat.not_le.mpr (hwf.home_lt key))]

/-! ## A key the map has -/

/-- The keys of the table do not crowd its slots so much that a probe length leaves 16 bits. -/
def Spread (murmurhash3 : K → UInt64 → UInt32) (h : HMap K V) : Prop :=
  ¬ Crowded h.size (h.home murmurhash3) (fun k => ∃ c, Holds h.size h.view k c) (2 ^ 16)

omit [Zero V] in
theorem Spread.psl_lt (hs : Spread murmurhash3 h) (hwf : WellFormed murmurhash3 h)
    (hroom : h.nitems < h.size) {q : Nat} {e : Bkt K V} (hq : q < h.size)
    (he : h.view q = some e) : e.psl < 2 ^ 16 := by
  by_contra hge
  exact hs ((hwf.inv.crowded hwf.home_lt (hwf.exists_empty hroom) hq he).mono (fun _ hk => hk)
    (not_lt.mp hge))

/-- An insertion of a key that the map has walks to its bucket and updates it. -/
theorem hmapInsert_present (hwf : WellFormed murmurhash3 h) (hs : Spread murmurhash3 h)
    (hroom : h.nitems < h.size) {q : Nat} {e : Bkt K V} (hq : q < h.size)
    (he : h.view q = some e) :
    hmapInsert murmurhash3 codeForUpdate h e.key val =
      ⟨0, e.val.val, true,
        h.setBkt q { e with val := ⟨codeForUpdate e.val.val val, (e.val.cnt + 1) % 2 ^ 32⟩ }⟩ := by
  have hpsl := hwf.inv.psl_lt q e hq he
  have h16 := hs.psl_lt hwf hroom hq he
  rw [hmapInsert_eq hwf (HMap.view_key_ne_zero he)]
  have hwalk := hwf.inv.walk_to hq he
    (P := fun i => insertLoop codeForUpdate e.key val (h.size - i) h ⟨e.key, i, ⟨val, 1⟩⟩
      ((h.home murmurhash3 e.key + i) % h.size) = ⟨0, e.val.val, true, h.setBkt q { e with
        val := ⟨codeForUpdate e.val.val val, (e.val.cnt + 1) % 2 ^ 32⟩ }⟩)
  rw [Nat.sub_zero, Nat.add_zero (h.home murmurhash3 e.key),
    Nat.mod_eq_of_lt (hwf.home_lt _)] at hwalk
  apply hwalk
  · obtain ⟨left, hleft⟩ : ∃ left, h.size - e.psl = left + 1 := ⟨h.size - e.psl - 1, by omega⟩
    obtain ⟨hb, hne⟩ := HMap.view_eq_some.mp he
    rw [hwf.inv.loc q e hq he, hleft, insertLoop, hb, if_pos hne, if_pos rfl]
  · intro i f hi hf hle hne hrest
    obtain ⟨left, hleft⟩ : ∃ left, h.size - i = left + 1 := ⟨h.size - i - 1, by omega⟩
    obtain ⟨hb, hf0⟩ := HMap.view_eq_some.mp hf
    rw [hleft, insertLoop, hb, if_pos hf0, if_neg hne, if_neg (by simp only; omega),
      Nat.mod_eq_of_lt (by simp only; omega), ← add_succ_mod (by omega),
      show left = h.size - (i + 1) by omega]
    exact hrest

/-! ## A key the map lacks -/

/-- On a fresh key the loop does to the buckets what `settle` does to the slots: none of the
slots it has ahead has the key. -/
theorem insertLoop_settle {home : K → Nat} {keys : K → Prop} {left p : Nat} {entry : Bkt K V}
    {t : Nat → Option (Bkt K V)} (hhome : ∀ k, home k < h.size)
    (hkeys : ¬ Crowded h.size home keys (2 ^ 16))
    (hall : ∀ x, (x = entry.key ∨ ∃ c, Holds h.size h.view x c) → keys x)
    (hc : Carrying h.size home h.view entry p left) (hleft : left ≤ h.size) (hne0 : entry.key ≠ 0)
    (hahead : ∀ j f, j < left → h.view ((p + j) % h.size) = some f → f.key ≠ key)
    (ht : settle h.size left h.view entry p = some t) :
    ∃ h', insertLoop codeForUpdate key val left h entry p = ⟨0, 0, false, h'⟩ ∧ SameFrame h h' ∧
      h'.view = t ∧ h'.nitems = h.nitems + 1 := by
  induction left generalizing h entry p with
  | zero => contradiction
  | succ left ih =>
      have hnext : ∀ j, (next h.size p + j) % h.size = (p + (j + 1)) % h.size := fun j =>
        (succ_add_mod hc.lt).symm
      cases hv : h.view p with
      | none =>
          rw [settle, hv] at ht
          rw [insertLoop, if_neg (not_not.mpr (HMap.view_eq_none.mp hv))]
          refine ⟨_, rfl, ⟨rfl, rfl, rfl, rfl⟩, ?_, rfl⟩
          exact (h.view_setBkt p hne0).trans (Option.some.inj ht)
      | some e =>
          obtain ⟨hb, he0⟩ := HMap.view_eq_some.mp hv
          have hne : e.key ≠ key := by
            refine hahead 0 e (Nat.zero_lt_succ left) ?_
            rw [Nat.add_zero, Nat.mod_eq_of_lt hc.lt]
            exact hv
          rw [settle, hv] at ht
          simp only [insertLoop, hb, if_pos he0, if_neg hne]
          by_cases hlt : entry.psl > e.psl
          · have hc' := hc.displace hv hlt
            have hview := h.view_setBkt p hne0
            have hall' : ∀ x, (x = e.key ∨ ∃ c, Holds h.size (update h.view p (some entry)) x c) →
                keys x := fun x hx => hall x (has_displaced hc.lt hv hx)
            have h16 := hc'.psl_lt_of_not_crowded hhome hkeys hall'
            simp only [if_pos hlt] at ht ⊢
            rw [Nat.mod_eq_of_lt h16]
            obtain ⟨h', hr, hframe, hview', hn⟩ := @ih (h.setBkt p entry) (next h.size p)
              { e with psl := e.psl + 1 } hhome hkeys (by rw [hview]; exact hall')
              (by rw [hview]; exact hc') (Nat.le_of_lt hleft) he0 (by
                intro j f hj hf
                rw [hview] at hf
                change update h.view p (some entry) ((next h.size p + j) % h.size) = some f at hf
                rw [hnext] at hf
                -- within one turn of the ring the walk does not come back to `p`
                have hnp : (p + (j + 1)) % h.size ≠ p := by
                  intro hx
                  have h0 : (p + 0) % h.size = p := Nat.mod_eq_of_lt hc.lt
                  have := add_mod_inj (by omega) (by omega) (hx.trans h0.symm)
                  omega
                rw [update_of_ne hnp] at hf
                exact hahead (j + 1) f (by omega) hf)
              (by rw [hview]; exact ht)
            exact ⟨h', hr, ⟨hframe.size, hframe.divinfo, hframe.hashkey, hframe.minsize⟩, hview',
              hn⟩
          · have hc' := hc.skip hv (Nat.le_of_not_lt hlt)
            have h16 := hc'.psl_lt_of_not_crowded hhome hkeys hall
            simp only [if_neg hlt] at ht ⊢
            rw [Nat.mod_eq_of_lt h16]
            refine ih hhome hkeys hall hc' (Nat.le_of_lt hleft) hne0 ?_ ht
            intro j f hj hf
            rw [hnext] at hf
            exact hahead (j + 1) f (by omega) hf

/-- What storing a fresh key does. -/
structure Inserted (murmurhash3 : K → UInt64 → UInt32) (h h' : HMap K V) (key : K) (val : V) :
    Prop where
  wellFormed : WellFormed murmurhash3 h'
  frame : SameFrame h h'
  nitems : h'.nitems = h.nitems + 1
  holds : ∀ x c, Holds h'.size h'.view x c ↔ Holds h.size h.view x c ∨ (key = x ∧ ⟨val, 1⟩ = c)

/-- An insertion of a key that the map lacks stores it, if some bucket is empty. -/
theorem hmapInsert_fresh (hwf : WellFormed murmurhash3 h) (hk : key ≠ 0)
    (hfresh : Fresh h.size h.view key) (hroom : h.nitems < h.size)
    (hkeys : ¬ Crowded h.size (h.home murmurhash3)
      (fun x => x = key ∨ ∃ c, Holds h.size h.view x c) (2 ^ 16)) :
    ∃ h', hmapInsert murmurhash3 codeForUpdate h key val = ⟨0, 0, false, h'⟩ ∧
      Inserted murmurhash3 h h' key val := by
  have hc : Carrying h.size (h.home murmurhash3) h.view ⟨key, 0, ⟨val, 1⟩⟩ _ h.size :=
    Carrying.start hwf.inv (hwf.home_lt key) hfresh (hwf.nitems_eq ▸ hroom) ⟨val, 1⟩
  obtain ⟨t, ht, hs⟩ := settle_spec hc
  obtain ⟨h', hr, hframe, rfl, hn⟩ := insertLoop_settle hwf.home_lt hkeys (fun _ hx => hx) hc le_rfl
    hk (fun j f _ hf => hfresh _ f (Nat.mod_lt _ hwf.size_pos) hf) ht
  rw [hmapInsert_eq hwf hk, hr]
  refine ⟨h', rfl, hwf.of_frame hframe hs.inv ?_, hframe, hn, ?_⟩
  · rw [hs.count, hn, hwf.nitems_eq]
  · rw [hframe.size]
    exact hs.holds

/-! ## as a map -/

/-- The table has exactly the pairs of `m`. -/
def Rep (h : HMap K V) (m : K → Option (Cell V)) : Prop :=
  ∀ k c, m k = some c ↔ Holds h.size h.view k c

/-- What a put leaves in the bucket of its key. -/
def putCell (codeForUpdate : V → V → V) (val : V) : Option (Cell V) → Cell V
  | none => ⟨val, 1⟩
  | some c => ⟨codeForUpdate c.val val, (c.cnt + 1) % 2 ^ 32⟩

variable {m : K → Option (Cell V)}

omit [Zero V] in
theorem Rep.fresh_iff (hrep : Rep h m) {k : K} : Fresh h.size h.view k ↔ m k = none := by
  rw [fresh_iff_not_holds, Option.eq_none_iff_forall_not_mem]
  exact forall_congr' fun c => not_congr (hrep k c).symm

omit [Zero V] in
theorem Rep.has_iff (hrep : Rep h m) {k : K} :
    (∃ c, Holds h.size h.view k c) ↔ ∃ c, m k = some c :=
  exists_congr fun c => (hrep k c).symm

/-- What an insertion does to the map. -/
structure Puts (murmurhash3 : K → UInt64 → UInt32) (codeForUpdate : V → V → V) (h : HMap K V)
    (m : K → Option (Cell V)) (key : K) (val : V) (h' : HMap K V) : Prop where
  wellFormed : WellFormed murmurhash3 h'
  frame : SameFrame h h'
  nitems : h'.nitems = if m key = none then h.nitems + 1 else h.nitems
  rep : Rep h' (update m key (some (putCell codeForUpdate val (m key))))

/-- **An insertion** updates the bucket of its key, or stores the key in a new one. -/
theorem hmapInsert_spec (hwf : WellFormed murmurhash3 h) (hrep : Rep h m) (hk : key ≠ 0)
    (hroom : h.nitems < h.size)
    (hkeys : ¬ Crowded h.size (h.home murmurhash3)
      (fun x => x = key ∨ ∃ c, Holds h.size h.view x c) (2 ^ 16)) :
    (hmapInsert murmurhash3 codeForUpdate h key val).status = 0 ∧
      Puts murmurhash3 codeForUpdate h m key val
        (hmapInsert murmurhash3 codeForUpdate h key val).hmap := by
  cases hm : m key with
  | none =>
      obtain ⟨h', hr, hins⟩ : ∃ h', hmapInsert murmurhash3 codeForUpdate h key val =
          ⟨0, 0, false, h'⟩ ∧ Inserted murmurhash3 h h' key val :=
        hmapInsert_fresh hwf hk (hrep.fresh_iff.mpr hm) hroom hkeys
      rw [hr]
      refine ⟨rfl, hins.wellFormed, hins.frame, by rw [if_pos hm]; exact hins.nitems, ?_⟩
      intro x c
      rw [hins.holds, ← hrep, hm]
      by_cases hx : x = key
      · rw [hx, update_self, hm]
        simp [putCell]
      · rw [update_of_ne hx]
        simp [Ne.symm hx]
  | some c =>
      obtain ⟨q, e, hq, he, rfl, rfl⟩ := (hrep key c).mp hm
      have hs : Spread murmurhash3 h := fun hc => hkeys (hc.mono (fun _ hx => .inr hx) le_rfl)
      obtain ⟨hb, hne⟩ := HMap.view_eq_some.mp he
      have hview := h.view_setBkt q (b := { e with val :=
        ⟨codeForUpdate e.val.val val, (e.val.cnt + 1) % 2 ^ 32⟩ }) hne
      rw [hmapInsert_present hwf hs hroom hq he]
      refine ⟨rfl, hwf.of_frame ⟨rfl, rfl, rfl, rfl⟩ ?_ ?_, ⟨rfl, rfl, rfl, rfl⟩, ?_, ?_⟩
      · rw [hview]
        exact hwf.inv.setVal he _
      · rw [hview]
        exact hwf.nitems_eq.trans (count_update_some he _).symm
      · rw [if_neg (by rw [hm]; exact Option.some_ne_none _)]
        rfl
      · intro x c
        rw [hview, hm]
        refine Iff.trans ?_ (hwf.inv.holds_setVal hq he).symm
        by_cases hx : x = e.key
        · rw [hx, update_self]
          simp [putCell, eq_comm]
        · rw [update_of_ne hx]
          simp [hx, hrep x c]

end QStore.Magg
