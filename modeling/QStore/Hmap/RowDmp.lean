import QStore.Hmap.Counted

/-!
# QStore.Hmap.RowDmp

`rs_hmap_row_dmp`, which dumps a table to memory or to a file. To memory it copies keys and
values; to the file it writes their bytes, and of a value as many bytes as a key has.
-/

namespace QStore.Hmap

open QStore.RobinHood Function

variable {K V : Type}

/-- The sizes of the key and value types, and their bytes. -/
structure Layout (K V : Type) where
  keySize : Nat
  valSize : Nat
  keyBytes : K → List UInt8
  valBytes : V → List UInt8
  length_keyBytes : ∀ k, (keyBytes k).length = keySize
  length_valBytes : ∀ v, (valBytes v).length = valSize

/-- The bytes of a record: all of the key, and all of the value. -/
def Layout.record (L : Layout K V) (r : K × V) : List UInt8 := L.keyBytes r.1 ++ L.valBytes r.2

/-- What `rs_hmap_row_dmp` returns and leaves: `*ptr_K`, whose length is `*ptr_nK`, or the
file. -/
structure Dump (K V : Type) where
  status : Int
  rows : Option (List (K × V))
  file : Option (List UInt8)

/-- The loop to memory over the buckets from `i`, with `left` of them to go. -/
def dumpRows (h : RsHmap K V) : Nat → Nat → List (K × V)
  | 0, _ => []
  | left + 1, i =>
      if h.bktFull i = false then dumpRows h left (i + 1)
      else ((h.bkts i).key, (h.bkts i).val) :: dumpRows h left (i + 1)

/-- The bytes from the address of the value of bucket `i` on. `behind` is what lies in memory
behind the value. -/
def bytesFrom (L : Layout K V) (behind : Nat → Nat → UInt8) (h : RsHmap K V) (i len : Nat) :
    List UInt8 :=
  (L.valBytes (h.bkts i).val ++ (List.range len).map (behind i)).take len

/-- The loop to the file over the buckets from `i`, with `left` of them to go. -/
def dumpBytes (L : Layout K V) (behind : Nat → Nat → UInt8) (h : RsHmap K V) :
    Nat → Nat → List UInt8
  | 0, _ => []
  | left + 1, i =>
      if h.bktFull i = false then dumpBytes L behind h left (i + 1)
      else L.keyBytes (h.bkts i).key ++ bytesFrom L behind h i L.keySize ++
        dumpBytes L behind h left (i + 1)

/-- `rs_hmap_row_dmp`, where the file opens and takes what is written to it. -/
def rsHmapRowDmp (L : Layout K V) (behind : Nat → Nat → UInt8) (h : RsHmap K V) (toFile : Bool) :
    Dump K V :=
  if h.nitems = 0 then ⟨0, none, none⟩
  else if toFile then ⟨0, none, some (dumpBytes L behind h h.size 0)⟩
  else if (dumpRows h h.size 0).length ≠ h.nitems then ⟨-1, none, none⟩
  else ⟨0, some (dumpRows h h.size 0), none⟩

/-- The key and the value of each full bucket, in the order of the buckets. -/
def RsHmap.rows (h : RsHmap K V) : List (K × V) :=
  ((List.range h.size).filter h.bktFull).map fun i => ((h.bkts i).key, (h.bkts i).val)

/-- Both dumps succeed and have the same records, one for each full bucket; an empty table is
dumped to nowhere. -/
structure DumpsSame (L : Layout K V) (behind : Nat → Nat → UInt8) (h : RsHmap K V) : Prop where
  toMemory : (rsHmapRowDmp L behind h false).status = 0
  toFile : (rsHmapRowDmp L behind h true).status = 0
  rows : (rsHmapRowDmp L behind h false).rows.getD [] = h.rows
  bytes : (rsHmapRowDmp L behind h true).file.getD [] = h.rows.flatMap L.record

variable {L : Layout K V} {behind : Nat → Nat → UInt8} {h : RsHmap K V} {left i : Nat}

theorem dumpRows_eq : dumpRows h left i =
    ((List.range' i left).filter h.bktFull).map fun i => ((h.bkts i).key, (h.bkts i).val) := by
  induction left generalizing i with
  | zero => rfl
  | succ left ih =>
      rw [dumpRows, List.range'_succ]
      cases hfull : h.bktFull i with
      | false => rw [if_pos rfl, List.filter_cons_of_neg (by simp [hfull]), ih]
      | true =>
          rw [if_neg (by decide), List.filter_cons_of_pos hfull, List.map_cons, ih]

theorem dumpRows_all (h : RsHmap K V) : dumpRows h h.size 0 = h.rows := by
  rw [dumpRows_eq, RsHmap.rows, List.range_eq_range']

theorem Counted.length_rows [Zero K] [Zero V] (hc : Counted h) : h.rows.length = h.nitems := by
  have hset : (Finset.range h.size).filter (fun p => (h.view p).isSome) =
      ((List.range h.size).filter h.bktFull).toFinset := by
    ext p
    cases hpf : h.bktFull p <;> simp [RsHmap.view, hpf]
  rw [RsHmap.rows, List.length_map, hc.nitems_eq, count, hset,
    List.toFinset_card_of_nodup (List.nodup_range.filter _)]

theorem length_bytesFrom (len : Nat) : (bytesFrom L behind h i len).length = len := by
  rw [bytesFrom, List.length_take, List.length_append, List.length_map, List.length_range]
  omega

/-- Where keys and values have one size, exactly the value is written. -/
theorem bytesFrom_valSize : bytesFrom L behind h i L.valSize = L.valBytes (h.bkts i).val := by
  rw [bytesFrom, List.take_append_of_le_length (L.length_valBytes _).ge,
    ← L.length_valBytes (h.bkts i).val, List.take_length]

theorem dumpBytes_eq (hsize : L.keySize = L.valSize) :
    dumpBytes L behind h left i = (dumpRows h left i).flatMap L.record := by
  induction left generalizing i with
  | zero => rfl
  | succ left ih =>
      rw [dumpBytes, dumpRows]
      split
      · exact ih
      · rw [List.flatMap_cons, ← ih, hsize, bytesFrom_valSize]
        rfl

/-- The file has twice the size of a key for each record. -/
theorem length_dumpBytes :
    (dumpBytes L behind h left i).length = (dumpRows h left i).length * (L.keySize + L.keySize) := by
  induction left generalizing i with
  | zero => rw [dumpBytes, dumpRows, List.length_nil, List.length_nil, Nat.zero_mul]
  | succ left ih =>
      rw [dumpBytes, dumpRows]
      split
      · exact ih
      · rw [List.length_append, List.length_append, L.length_keyBytes, length_bytesFrom, ih,
          List.length_cons, Nat.succ_mul, Nat.add_comm]

theorem Layout.length_record (L : Layout K V) (rows : List (K × V)) :
    (rows.flatMap L.record).length = rows.length * (L.keySize + L.valSize) := by
  induction rows with
  | nil => rw [List.flatMap_nil, List.length_nil, List.length_nil, Nat.zero_mul]
  | cons r rows ih =>
      rw [List.flatMap_cons, List.length_append, ih, Layout.record, List.length_append,
        L.length_keyBytes, L.length_valBytes, List.length_cons, Nat.succ_mul, Nat.add_comm]

/-- **When the dumps are the same**: where there is nothing to dump, or a value has the size of a
key. -/
theorem reaches_dumpsSame_iff [Zero K] [Zero V] [DecidableEq K] {F : FnPtrs K V}
    {m : K → Option V} (L : Layout K V) (behind : Nat → Nat → UInt8) (hr : Reaches F h m) :
    DumpsSame L behind h ↔ h.nitems = 0 ∨ L.keySize = L.valSize := by
  have hlen := (reaches_counted hr).length_rows
  by_cases h0 : h.nitems = 0
  · refine iff_of_true ?_ (.inl h0)
    have hnil : h.rows = [] := List.eq_nil_of_length_eq_zero (hlen.trans h0)
    have hdump : ∀ toFile, rsHmapRowDmp L behind h toFile = ⟨0, none, none⟩ := fun toFile => by
      rw [rsHmapRowDmp, if_pos h0]
    exact ⟨by rw [hdump], by rw [hdump], by rw [hdump, hnil]; rfl, by rw [hdump, hnil]; rfl⟩
  · have hmem : rsHmapRowDmp L behind h false = ⟨0, some h.rows, none⟩ := by
      rw [rsHmapRowDmp, if_neg h0, if_neg Bool.false_ne_true, dumpRows_all, if_neg (not_not.mpr hlen)]
    have hfile : rsHmapRowDmp L behind h true = ⟨0, none, some (dumpBytes L behind h h.size 0)⟩ := by
      rw [rsHmapRowDmp, if_neg h0, if_pos rfl]
    constructor
    · intro hsame
      -- the files would differ in length
      have hbytes := congrArg List.length hsame.bytes
      rw [hfile, Option.getD_some, length_dumpBytes, dumpRows_all, L.length_record, hlen] at hbytes
      have := Nat.eq_of_mul_eq_mul_left (Nat.pos_of_ne_zero h0) hbytes
      exact .inr (by omega)
    · rintro (hn | hsize)
      · exact absurd hn h0
      · refine ⟨by rw [hmem], by rw [hfile], by rw [hmem]; rfl, ?_⟩
        rw [hfile, Option.getD_some, dumpBytes_eq hsize, dumpRows_all]

/-- A map from numbers below `2^16` to bytes. -/
def narrowLayout : Layout Nat Nat where
  keySize := 2
  valSize := 1
  keyBytes k := [UInt8.ofNat k, UInt8.ofNat (k / 2 ^ 8)]
  valBytes v := [UInt8.ofNat v]
  length_keyBytes _ := rfl
  length_valBytes _ := rfl

/-- The map of `smallMap` with one item. -/
def oneItemMap : RsHmap Nat Nat := (rsHmapInsert replaceFns smallMap 5 7).2

theorem reaches_oneItem : ∃ m, Reaches replaceFns oneItemMap m :=
  ⟨_, .put reaches_small rsHmapPut_smallMap⟩

/-- A map from numbers below `2^16` to such numbers. -/
def evenLayout : Layout Nat Nat where
  keySize := 2
  valSize := 2
  keyBytes k := [UInt8.ofNat k, UInt8.ofNat (k / 2 ^ 8)]
  valBytes v := [UInt8.ofNat v, UInt8.ofNat (v / 2 ^ 8)]
  length_keyBytes _ := rfl
  length_valBytes _ := rfl

/-- The dumps of two items, with values as wide as the keys and with narrower ones. -/
theorem reaches_dumpsSame_iff_two : ∃ m, Reaches replaceFns twoItemMap m ∧ m 1 = some 10 ∧
    m 2 = some 20 ∧ DumpsSame evenLayout (fun _ _ => 0) twoItemMap ∧
      ¬ DumpsSame narrowLayout (fun _ _ => 0) twoItemMap := by
  obtain ⟨m, hr, h1, h2⟩ := reaches_twoItem
  exact ⟨m, hr, h1, h2, (reaches_dumpsSame_iff evenLayout (fun _ _ => 0) hr).mpr (.inr rfl),
    fun hsame => absurd ((reaches_dumpsSame_iff narrowLayout (fun _ _ => 0) hr).mp hsame)
      (by decide +kernel)⟩

/-- The key 5 with the value 7: the file gets a byte that is no value's. -/
theorem dumpsSame_fails : ∃ h m, Reaches replaceFns h m ∧
    ¬ DumpsSame narrowLayout (fun _ _ => 0) h := by
  obtain ⟨m, hr⟩ := reaches_oneItem
  refine ⟨oneItemMap, m, hr, fun hsame => ?_⟩
  have hbytes : [5, 0, 7, 0] = ([5, 0, 7] : List UInt8) := hsame.bytes
  exact absurd hbytes (by decide)

end QStore.Hmap
