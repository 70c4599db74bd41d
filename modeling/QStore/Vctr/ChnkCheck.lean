import QStore.Hmap.Merge
import QStore.Lib.StrictTotal
import QStore.Vctr.State

/-!
# QStore.Vctr.ChnkCheck

`chnk_rs_hmap_custom_chk`, the self-check of the chunk table: it copies what it
needs of each chunk to `kv`, sorts that and looks at the chunks of a vector one
after the other.

```
sorted   (1,0) (1,1) (1,2) | (2,0) (2,1) | (7,0)
counts     n     n    = n  |   n    = n  |
```

The comparator asks the same question of the vectors twice, so a chunk of an
earlier vector with a greater index comes before and behind. And it is only the
last chunk of the whole table that may have fewer elements.
-/

namespace QStore.Vctr

open QStore.Hmap

/-- `chnk_rs_hmap_key_t` -/
structure ChnkKey where
  vctrUqid : UInt32
  chnkIdx : UInt32
  deriving DecidableEq

/-- `chnk_rs_hmap_val_t`, all of it. -/
structure ChnkBktVal where
  val : ChnkVal
  touchTime : UInt64
  deriving DecidableEq

instance : Zero ChnkKey := ⟨⟨0, 0⟩⟩

instance : Zero ChnkBktVal := ⟨⟨⟨0, 0, 0, .Q0, false, 0, 0, none⟩, 0⟩⟩

/-- `kv_t` -/
structure Kv where
  vctrUqid : UInt32
  chnkIdx : UInt32
  numElements : Nat
  qtype : Qtype
  size : Nat
  deriving DecidableEq

/-! ## the check -/

/-- `sortcompare_kv` -/
def sortcompareKv (u1 u2 : Kv) : Int :=
  if u1.vctrUqid < u2.vctrUqid then -1
  else if u1.vctrUqid < u2.vctrUqid then 1
  else if u1.chnkIdx < u2.chnkIdx then -1
  else 1

/-- What is asked of a full bucket. Every `qtype_t` but `Q0` is legit. -/
def BktOk (key : ChnkKey) (val : ChnkVal) : Prop :=
  ¬ val.numElements > val.size ∧ val.numElements ≠ 0 ∧ val.size ≠ 0 ∧
    (val.l2Exists = false → val.l1Mem ≠ none) ∧ key.vctrUqid ≠ 0 ∧
    (val.numReaders > 0 → ¬ val.numWriters > 0) ∧ (val.numWriters > 0 → ¬ val.numReaders > 0) ∧
    val.qtype ≠ .Q0

instance (key : ChnkKey) (val : ChnkVal) : Decidable (BktOk key val) :=
  inferInstanceAs (Decidable (_ ∧ _))

/-- An entry of `kv`. -/
def kvOf (row : ChnkKey × ChnkBktVal) : Kv where
  vctrUqid := row.1.vctrUqid
  chnkIdx := row.1.chnkIdx
  numElements := row.2.val.numElements
  qtype := row.2.val.qtype
  size := row.2.val.size

/-- The loop over the buckets from `i` on, with `left` of them to go. -/
def gatherKv (h : RsHmap ChnkKey ChnkBktVal) : Nat → Nat → List Kv → Option (List Kv)
  | 0, _, kv => some kv
  | left + 1, i, kv =>
      let key := (h.bkts i).key
      let val := (h.bkts i).val
      if h.bktFull i then
        if ¬ BktOk key val.val then none
        else if kv.length ≥ h.nitems then none
        else gatherKv h left (i + 1) (kv ++ [kvOf (key, val)])
      else if val ≠ 0 then none
      else if key ≠ 0 then none
      else gatherKv h left (i + 1) kv

/-- The chunks behind the first of a vector. What is left when the vector is over,
or `none`. -/
def chkRest (first : Kv) : UInt32 → List Kv → Option (List Kv)
  | _, [] => some []
  | expChnkIdx, c :: rest =>
      if c.vctrUqid ≠ first.vctrUqid then some (c :: rest)
      else if c.chnkIdx ≠ expChnkIdx then none
      else if c.qtype ≠ first.qtype then none
      else if c.size ≠ first.size then none
      else
        -- `kv[lb].vctr_uqid != l_vctr_uqid` looks at this chunk, not at the next one
        let isLastChnk := rest = [] ∨ c.vctrUqid ≠ first.vctrUqid
        if isLastChnk then
          if c.numElements > first.numElements then none
          else chkRest first (expChnkIdx + 1) rest
        else if c.numElements ≠ first.numElements then none
        else chkRest first (expChnkIdx + 1) rest

/-- The loop over the vectors. -/
def chkVctrs : Nat → List Kv → Bool
  | _, [] => true
  | 0, _ => false
  | fuel + 1, first :: rest =>
      match chkRest first (first.chnkIdx + 1) rest with
      | none => false
      | some rest => chkVctrs fuel rest

/-- `chnk_rs_hmap_custom_chk`: is its status 0? -/
def chnkRsHmapCustomChk (qsort : (Kv → Kv → Int) → List Kv → List Kv)
    (h : RsHmap ChnkKey ChnkBktVal) : Bool :=
  if h.size = 0 then false
  else if h.nitems = 0 then true
  else
    match gatherKv h h.size 0 [] with
    | none => false
    | some kv => if kv.length ≠ h.nitems then false else chkVctrs h.nitems (qsort sortcompareKv kv)

/-! ## what it should say -/

/-- A chunk table between two calls. -/
structure ChnkTable where
  H : RsHmap ChnkKey ChnkBktVal
  size_pos : 0 < H.size
  nitems_eq : H.nitems = H.rows.length
  nodup : (H.rows.map Prod.fst).Nodup
  zero : ZeroEmpty H

/-- A well-formed hash table is one. -/
def ChnkTable.ofWellFormed {F : FnPtrs ChnkKey ChnkBktVal} {h : RsHmap ChnkKey ChnkBktVal}
    (hwf : WellFormed F h) : ChnkTable where
  H := h
  size_pos := hwf.size_pos
  nitems_eq := (Counted.length_rows ⟨hwf.size_pos, hwf.size_lt, hwf.divinfo_eq, hwf.nitems_eq⟩).symm
  nodup := hwf.nodup_rows
  zero := hwf.zero

/-- The chunks of a table. -/
def ChnkTable.kvs (T : ChnkTable) : List Kv := T.H.rows.map kvOf

/-- Each bucket passes its own checks. -/
def ChnkTable.BktsOk (T : ChnkTable) : Prop := ∀ r ∈ T.H.rows, BktOk r.1 r.2.val

/-- Two chunks of a vector, one earlier than the other. -/
def Earlier (a b : Kv) : Prop := a.vctrUqid = b.vctrUqid ∧ a.chnkIdx < b.chnkIdx

/-- The order the chunks should be in. -/
def Kv.Before (a b : Kv) : Prop := a.vctrUqid < b.vctrUqid ∨ Earlier a b

/-- The chunks of each vector follow each other, and have one type and one size. -/
structure InStep (L : List Kv) : Prop where
  consecutive : ∀ a ∈ L, ∀ b ∈ L, Earlier a b → ∀ i, a.chnkIdx < i → i < b.chnkIdx →
    ∃ c ∈ L, c.vctrUqid = a.vctrUqid ∧ c.chnkIdx = i
  alike : ∀ a ∈ L, ∀ b ∈ L, Earlier a b → b.qtype = a.qtype ∧ b.size = a.size

/-- All but the last of each vector are full. `room` is how many elements a chunk of
a vector can hold, given its type and its size. -/
def FullButLast (room : UInt32 → Qtype → Nat → Nat) (L : List Kv) : Prop :=
  ∀ a ∈ L, ∀ b ∈ L, Earlier a b → a.numElements = room a.vctrUqid a.qtype a.size

/-- The check accepts the tables that it should, and its comparator orders the
chunks. -/
structure ChnkChkRight (room : UInt32 → Qtype → Nat → Nat)
    (qsort : (Kv → Kv → Int) → List Kv → List Kv) (T : ChnkTable) : Prop where
  order : StrictTotalOn sortcompareKv T.kvs
  accepts : chnkRsHmapCustomChk qsort T.H = true ↔
    T.BktsOk ∧ InStep T.kvs ∧ FullButLast room T.kvs

/-! ## the comparator -/

section Order

variable {L L' : List Kv} {a b c : Kv}

theorem sortcompareKv_neg : sortcompareKv a b < 0 ↔
    a.vctrUqid < b.vctrUqid ∨ a.chnkIdx < b.chnkIdx := by
  rw [sortcompareKv]
  by_cases hu : a.vctrUqid < b.vctrUqid
  · simp [hu]
  · by_cases hi : a.chnkIdx < b.chnkIdx
    · simp [hu, hi]
    · simp [hu, hi]

theorem Kv.Before.trans (h : a.Before b) (h' : b.Before c) : a.Before c := by
  rcases h with h | ⟨h, hi⟩
  · rcases h' with h' | ⟨h', -⟩
    · exact .inl (UInt32.lt_trans h h')
    · exact .inl (h' ▸ h)
  · rcases h' with h' | ⟨h', hi'⟩
    · exact .inl (h ▸ h')
    · exact .inr ⟨h.trans h', UInt32.lt_trans hi hi'⟩

theorem Kv.Before.irrefl : ¬ a.Before a := by
  rintro (h | ⟨-, h⟩)
  · exact UInt32.lt_irrefl _ h
  · exact UInt32.lt_irrefl _ h

theorem uint32_trichotomy (x y : UInt32) : x < y ∨ x = y ∨ y < x := by
  rw [UInt32.lt_iff_toNat_lt, UInt32.lt_iff_toNat_lt, ← UInt32.toNat_inj]
  exact Nat.lt_trichotomy ..

/-- No chunk of an earlier vector has a greater index. -/
def Ascending (L : List Kv) : Prop :=
  ∀ a ∈ L, ∀ b ∈ L, a.vctrUqid < b.vctrUqid → a.chnkIdx ≤ b.chnkIdx

/-- Then the comparator is right. -/
theorem Ascending.sortcompareKv_iff (h : Ascending L) (ha : a ∈ L) (hb : b ∈ L) :
    sortcompareKv a b < 0 ↔ a.Before b := by
  rw [sortcompareKv_neg, Kv.Before, Earlier]
  constructor
  · rintro (hu | hi)
    · exact .inl hu
    · by_cases hu : a.vctrUqid < b.vctrUqid
      · exact .inl hu
      · have hno : ¬ b.vctrUqid < a.vctrUqid := fun hba =>
          UInt32.not_le.mpr hi (h b hb a ha hba)
        exact .inr ⟨UInt32.le_antisymm (UInt32.not_lt.mp hno) (UInt32.not_lt.mp hu), hi⟩
  · rintro (hu | ⟨-, hi⟩)
    · exact .inl hu
    · exact .inr hi

/-- Chunks of a table differ in their keys. -/
def DistinctKeys (L : List Kv) : Prop :=
  ∀ a ∈ L, ∀ b ∈ L, a.vctrUqid = b.vctrUqid → a.chnkIdx = b.chnkIdx → a = b

/-- **The comparator** orders the chunks exactly where it compares their keys in
full. -/
theorem strictTotalOn_iff (hkeys : DistinctKeys L) :
    StrictTotalOn sortcompareKv L ↔ Ascending L := by
  constructor
  · intro h a ha b hb hu
    by_contra hi
    rw [UInt32.not_le] at hi
    exact h.asymm ha hb (sortcompareKv_neg.mpr (.inl hu)) (sortcompareKv_neg.mpr (.inr hi))
  · intro h
    constructor
    · intro a ha hno
      exact Kv.Before.irrefl ((h.sortcompareKv_iff ha ha).mp hno)
    · intro a ha b hb c hc hab hbc
      rw [h.sortcompareKv_iff ha hb] at hab
      rw [h.sortcompareKv_iff hb hc] at hbc
      exact (h.sortcompareKv_iff ha hc).mpr (hab.trans hbc)
    · intro a ha b hb hne
      rw [h.sortcompareKv_iff ha hb, h.sortcompareKv_iff hb ha]
      rcases uint32_trichotomy a.vctrUqid b.vctrUqid with hu | hu | hu
      · exact .inl (.inl hu)
      · rcases uint32_trichotomy a.chnkIdx b.chnkIdx with hi | hi | hi
        · exact .inl (.inr ⟨hu, hi⟩)
        · exact absurd (hkeys a ha b hb hu hi) hne
        · exact .inr (.inr ⟨hu.symm, hi⟩)
      · exact .inr (.inl hu)

end Order

/-! ## the buckets -/

section Buckets

variable {h : RsHmap ChnkKey ChnkBktVal} {T : ChnkTable}

/-- Where no empty bucket holds anything, the loop copies all full ones, if each
passes its checks. -/
theorem gatherKv_eq (hz : ZeroEmpty h) : ∀ (left i : Nat) (kv : List Kv), i + left = h.size →
    kv.length + (dumpRows h left i).length ≤ h.nitems →
    gatherKv h left i kv = if ∀ r ∈ dumpRows h left i, BktOk r.1 r.2.val then
      some (kv ++ (dumpRows h left i).map kvOf) else none := by
  intro left
  induction left with
  | zero =>
      intro i kv _ _
      simp [gatherKv, dumpRows]
  | succ left ih =>
      intro i kv hi hlen
      rw [gatherKv]
      rw [dumpRows] at hlen ⊢
      cases hfull : h.bktFull i with
      | false =>
          rw [hfull, if_pos rfl] at hlen
          have hzero := hz i (by omega) hfull
          simp only [hzero, zeroBkt, ne_eq, not_true_eq_false, if_false, if_true,
            Bool.false_eq_true]
          exact ih (i + 1) kv (by omega) hlen
      | true =>
          rw [hfull, if_neg (by decide), List.length_cons] at hlen
          simp only [if_true, Bool.true_eq_false, if_false, List.forall_mem_cons]
          by_cases hok : BktOk (h.bkts i).key (h.bkts i).val.val
          · rw [if_neg (not_not.mpr hok), if_neg (by omega), ih (i + 1) _ (by omega)
              (by rw [List.length_append, List.length_singleton]; omega)]
            simp only [hok, true_and, List.map_cons, List.append_assoc, List.singleton_append]
          · rw [if_pos hok, if_neg (fun hno => hok hno.1)]

/-- The check, less the arrays. -/
theorem chnkRsHmapCustomChk_iff {qsort : (Kv → Kv → Int) → List Kv → List Kv}
    (hperm : (qsort sortcompareKv T.kvs).Perm T.kvs) : chnkRsHmapCustomChk qsort T.H = true ↔
      T.BktsOk ∧ chkVctrs T.kvs.length (qsort sortcompareKv T.kvs) = true := by
  have hlen : T.kvs.length = T.H.nitems := by
    rw [ChnkTable.kvs, List.length_map, T.nitems_eq]
  have hgather := gatherKv_eq T.zero T.H.size 0 [] (Nat.zero_add _)
    (by rw [dumpRows_all, T.nitems_eq, List.length_nil, Nat.zero_add])
  rw [dumpRows_all] at hgather
  rw [chnkRsHmapCustomChk, if_neg (Nat.ne_of_gt T.size_pos)]
  by_cases hn : T.H.nitems = 0
  · have hnil : T.H.rows = [] := List.length_eq_zero_iff.mp (T.nitems_eq.symm.trans hn)
    have hkvs : T.kvs = [] := by rw [ChnkTable.kvs, hnil, List.map_nil]
    rw [hkvs] at hperm ⊢
    rw [if_pos hn, hperm.eq_nil]
    refine iff_of_true rfl ⟨?_, rfl⟩
    rw [ChnkTable.BktsOk, hnil]
    simp
  · rw [if_neg hn, hgather]
    by_cases hok : T.BktsOk
    · have hok' : ∀ r ∈ T.H.rows, BktOk r.1 r.2.val := hok
      rw [if_pos hok']
      simp only [List.nil_append, hok, true_and]
      rw [if_neg (by rw [← hlen]; exact not_not.mpr rfl), ← hlen]
      rfl
    · have hok' : ¬ ∀ r ∈ T.H.rows, BktOk r.1 r.2.val := hok
      rw [if_neg hok']
      exact iff_of_false Bool.false_ne_true fun hno => hok hno.1

theorem ChnkTable.distinctKeys (T : ChnkTable) : DistinctKeys T.kvs := by
  intro a ha b hb hu hi
  obtain ⟨r, hr, rfl⟩ := List.mem_map.mp ha
  obtain ⟨r', hr', rfl⟩ := List.mem_map.mp hb
  have hkey : r.1 = r'.1 := by
    cases hrk : r.1
    cases hrk' : r'.1
    simp only [kvOf, hrk, hrk'] at hu hi
    rw [hu, hi]
  rw [List.inj_on_of_nodup_map T.nodup hr hr' hkey]

theorem ChnkTable.nodup_kvs (T : ChnkTable) : T.kvs.Nodup := by
  refine List.Nodup.map_on (fun r hr r' hr' he => ?_) (List.Nodup.of_map _ T.nodup)
  refine List.inj_on_of_nodup_map T.nodup hr hr' ?_
  have hu : r.1.vctrUqid = r'.1.vctrUqid := congrArg Kv.vctrUqid he
  have hi : r.1.chnkIdx = r'.1.chnkIdx := congrArg Kv.chnkIdx he
  cases hrk : r.1
  cases hrk' : r'.1
  simp only [hrk, hrk'] at hu hi
  rw [hu, hi]

end Buckets

/-! ## the scan -/

section Scan

variable {first prev a b c : Kv} {L rest : List Kv}

/-- What the check asks of a chunk and the next one of the vector, the last of the
table or not. -/
structure StepsTo (a b : Kv) (last : Prop) : Prop where
  chnkIdx : b.chnkIdx = a.chnkIdx + 1
  alike : b.qtype = a.qtype ∧ b.size = a.size
  atLast : last → b.numElements ≤ a.numElements
  before : ¬ last → b.numElements = a.numElements

/-- Of any two neighbours. -/
def Chained : Kv → List Kv → Prop
  | _, [] => True
  | a, b :: rest => (a.vctrUqid = b.vctrUqid → StepsTo a b (rest = [])) ∧ Chained b rest

/-- The first chunk of a vector tells as much as the one before. -/
structure TellsSame (first prev : Kv) : Prop where
  vctrUqid : prev.vctrUqid = first.vctrUqid
  qtype : prev.qtype = first.qtype
  size : prev.size = first.size
  numElements : prev.numElements = first.numElements

/-- The next chunk passes where the check finds what it asks for, -/
theorem chkRest_of_stepsTo (hag : TellsSame first prev) (hu : c.vctrUqid = first.vctrUqid)
    (h : StepsTo prev c (rest = [])) :
    chkRest first (prev.chnkIdx + 1) (c :: rest) = chkRest first (c.chnkIdx + 1) rest := by
  have hq : c.qtype = first.qtype := h.alike.1.trans hag.qtype
  have hz : c.size = first.size := h.alike.2.trans hag.size
  rw [chkRest, if_neg (not_not.mpr hu), if_neg (not_not.mpr h.chnkIdx), if_neg (not_not.mpr hq),
    if_neg (not_not.mpr hz)]
  simp only [hu, ne_eq, not_true_eq_false, or_false]
  by_cases hlast : rest = []
  · have hle : c.numElements ≤ first.numElements := hag.numElements ▸ h.atLast hlast
    rw [if_pos hlast, if_neg (Nat.not_lt.mpr hle), h.chnkIdx]
  · have hn : c.numElements = first.numElements := (h.before hlast).trans hag.numElements
    rw [if_neg hlast, if_neg (not_not.mpr hn), h.chnkIdx]

/-- and nowhere else. -/
theorem stepsTo_of_chkRest (hag : TellsSame first prev) (hu : c.vctrUqid = first.vctrUqid)
    (h : chkRest first (prev.chnkIdx + 1) (c :: rest) ≠ none) : StepsTo prev c (rest = []) := by
  rw [chkRest, if_neg (not_not.mpr hu)] at h
  simp only [hu, ne_eq, not_true_eq_false, or_false] at h
  split_ifs at h with hi hq hz hlast hn hn
  all_goals try exact absurd rfl h
  · refine ⟨hi, ⟨hq.trans hag.qtype.symm, hz.trans hag.size.symm⟩, fun _ => ?_,
      fun hno => absurd hlast hno⟩
    rw [hag.numElements]
    exact Nat.not_lt.mp hn
  · exact ⟨hi, ⟨hq.trans hag.qtype.symm, hz.trans hag.size.symm⟩, fun hl => absurd hl hlast,
      fun _ => hn.trans hag.numElements.symm⟩

theorem chkRest_spec (rest : List Kv) : ∀ prev, TellsSame first prev →
    (chkRest first (prev.chnkIdx + 1) rest = none → ¬ Chained prev rest) ∧
      ∀ rest', chkRest first (prev.chnkIdx + 1) rest = some rest' → rest'.length ≤ rest.length ∧
        (Chained prev rest ↔ ∀ b r, rest' = b :: r → Chained b r) := by
  induction rest with
  | nil =>
      intro prev _
      refine ⟨fun h => (nomatch h), fun rest' h => ?_⟩
      cases h
      exact ⟨Nat.le_refl 0, iff_of_true trivial fun _ _ h => (nomatch h)⟩
  | cons c rest ih =>
      intro prev hag
      by_cases hu : c.vctrUqid = first.vctrUqid
      · have hsame : prev.vctrUqid = c.vctrUqid := hag.vctrUqid.trans hu.symm
        by_cases hstep : StepsTo prev c (rest = [])
        · have hchain : Chained prev (c :: rest) ↔ Chained c rest :=
            ⟨fun h => h.2, fun h => ⟨fun _ => hstep, h⟩⟩
          rw [chkRest_of_stepsTo hag hu hstep, hchain, List.length_cons]
          by_cases hlast : rest = []
          · -- the last chunk of the table
            subst hlast
            refine ⟨fun h => (nomatch h), fun rest' h => ?_⟩
            cases h
            exact ⟨Nat.zero_le _, iff_of_true trivial fun _ _ h => (nomatch h)⟩
          · obtain ⟨hnone, hsome⟩ := ih c ⟨hu, hstep.alike.1.trans hag.qtype,
              hstep.alike.2.trans hag.size, (hstep.before hlast).trans hag.numElements⟩
            refine ⟨hnone, fun rest' h => ?_⟩
            obtain ⟨hlen, hiff⟩ := hsome rest' h
            exact ⟨Nat.le_succ_of_le hlen, hiff⟩
        · refine ⟨fun _ hno => hstep (hno.1 hsame), fun rest' h => ?_⟩
          refine absurd (stepsTo_of_chkRest hag hu fun hnone => ?_) hstep
          rw [hnone] at h
          cases h
      · -- the next vector
        have hne : prev.vctrUqid ≠ c.vctrUqid := fun he => hu (he.symm.trans hag.vctrUqid)
        rw [chkRest, if_pos hu]
        refine ⟨fun h => (nomatch h), fun rest' h => ?_⟩
        cases h
        refine ⟨Nat.le_refl _, ?_⟩
        constructor
        · rintro ⟨-, h⟩ b r hbr
          cases hbr
          exact h
        · exact fun h => ⟨fun he => absurd he hne, h c rest rfl⟩

/-- The scan accepts where each chunk steps to the next one of its vector. -/
theorem chkVctrs_iff : ∀ (fuel : Nat) (a : Kv) (rest : List Kv), rest.length < fuel →
    (chkVctrs fuel (a :: rest) = true ↔ Chained a rest) := by
  intro fuel
  induction fuel with
  | zero => exact fun _ _ h => absurd h (Nat.not_lt_zero _)
  | succ fuel ih =>
      intro a rest hlen
      obtain ⟨hnone, hsome⟩ := chkRest_spec rest a (⟨rfl, rfl, rfl, rfl⟩ : TellsSame a a)
      rw [chkVctrs]
      cases hrun : chkRest a (a.chnkIdx + 1) rest with
      | none => exact iff_of_false Bool.false_ne_true (hnone hrun)
      | some rest' =>
          obtain ⟨hle, hiff⟩ := hsome rest' hrun
          rw [hiff]
          cases rest' with
          | nil =>
              refine iff_of_true ?_ fun _ _ h => (nomatch h)
              cases fuel <;> rfl
          | cons b r =>
              rw [List.length_cons] at hle
              simp only
              rw [ih b r (by omega)]
              constructor
              · intro h b' r' hbr
                cases hbr
                exact h
              · exact fun h => h b r rfl

/-! ## the chunks of a vector -/

/-- No chunk of the table is behind this one. -/
def LastOf (L : List Kv) (b : Kv) : Prop := ∀ c ∈ L, ¬ b.Before c

/-- The counts as they are compared: with those before, and only the last chunk of
the table may have fewer. -/
def Even (L : List Kv) : Prop :=
  ∀ a ∈ L, ∀ b ∈ L, Earlier a b → (LastOf L b → b.numElements ≤ a.numElements) ∧
    (¬ LastOf L b → b.numElements = a.numElements)

theorem Kv.Before.le (h : a.Before b) : a.vctrUqid ≤ b.vctrUqid := by
  rcases h with h | ⟨h, -⟩
  · exact UInt32.le_of_lt h
  · exact UInt32.le_of_eq h

theorem Kv.Before.earlier (h : a.Before b) (hu : a.vctrUqid = b.vctrUqid) : Earlier a b :=
  h.resolve_left fun hlt => UInt32.lt_irrefl _ (hu ▸ hlt)

theorem toNat_succ_of_lt {x y : UInt32} (h : x < y) : (x + 1).toNat = x.toNat + 1 := by
  have hy := y.toNat_lt
  rw [UInt32.lt_iff_toNat_lt] at h
  rw [UInt32.toNat_add, show (1 : UInt32).toNat = 1 from rfl, Nat.mod_eq_of_lt (by omega)]

section Cons

variable {r : List Kv} (hs : (a :: b :: r).Pairwise Kv.Before)

include hs

theorem lastOf_cons {y : Kv} (hy : y ∈ b :: r) : LastOf (a :: b :: r) y ↔ LastOf (b :: r) y := by
  have hay := (List.pairwise_cons.mp hs).1 y hy
  rw [LastOf, List.forall_mem_cons]
  exact and_iff_right fun hya => Kv.Before.irrefl (hay.trans hya)

theorem lastOf_second : LastOf (a :: b :: r) b ↔ r = [] := by
  rw [lastOf_cons hs List.mem_cons_self]
  have hb := (List.pairwise_cons.mp (List.pairwise_cons.mp hs).2).1
  constructor
  · intro h
    cases r with
    | nil => rfl
    | cons c r => exact absurd (hb c List.mem_cons_self) (h c (List.mem_cons_of_mem b List.mem_cons_self))
  · rintro rfl c hc
    rw [List.mem_singleton.mp hc]
    exact Kv.Before.irrefl

/-- A later chunk of the first one's vector has the second between them, or is it. -/
theorem between_cons {y : Kv} (hy : y ∈ b :: r) (h : Earlier a y) :
    a.vctrUqid = b.vctrUqid ∧ (y = b ∨ y ∈ r ∧ Earlier b y) := by
  obtain ⟨ha, hrest⟩ := List.pairwise_cons.mp hs
  have hab := ha b List.mem_cons_self
  rcases List.mem_cons.mp hy with rfl | hyr
  · exact ⟨h.1, .inl rfl⟩
  · have hby := (List.pairwise_cons.mp hrest).1 y hyr
    have hub : a.vctrUqid = b.vctrUqid := UInt32.le_antisymm hab.le (h.1 ▸ hby.le)
    exact ⟨hub, .inr ⟨hyr, hby.earlier (hub.symm.trans h.1)⟩⟩

/-- No chunk is before the first. -/
theorem not_earlier_first {x : Kv} (hx : x ∈ a :: b :: r) : ¬ Earlier x a := by
  intro h
  rcases List.mem_cons.mp hx with rfl | hx
  · exact UInt32.lt_irrefl _ h.2
  · exact Kv.Before.irrefl (((List.pairwise_cons.mp hs).1 x hx).trans (.inr h))

theorem InStep.tail (h : InStep (a :: b :: r)) : InStep (b :: r) where
  consecutive := by
    intro x hx y hy hxy i hxi hiy
    obtain ⟨c, hc, hcu, hci⟩ := h.consecutive x (List.mem_cons_of_mem a hx) y
      (List.mem_cons_of_mem a hy) hxy i hxi hiy
    rcases List.mem_cons.mp hc with rfl | hc
    · refine absurd ⟨hcu.symm, ?_⟩ (not_earlier_first hs (List.mem_cons_of_mem c hx))
      rwa [hci]
    · exact ⟨c, hc, hcu, hci⟩
  alike := fun x hx y hy => h.alike x (List.mem_cons_of_mem a hx) y (List.mem_cons_of_mem a hy)

theorem Even.tail (h : Even (a :: b :: r)) : Even (b :: r) := by
  intro x hx y hy hxy
  rw [← lastOf_cons hs hy]
  exact h x (List.mem_cons_of_mem a hx) y (List.mem_cons_of_mem a hy) hxy

/-- The first chunk steps to the second. -/
theorem InStep.stepsTo (h : InStep (a :: b :: r)) (heven : Even (a :: b :: r))
    (hu : a.vctrUqid = b.vctrUqid) : StepsTo a b (r = []) := by
  obtain ⟨ha, hrest⟩ := List.pairwise_cons.mp hs
  have hbmem : b ∈ a :: b :: r := List.mem_cons_of_mem a List.mem_cons_self
  have hab : Earlier a b := (ha b List.mem_cons_self).earlier hu
  have hcount := heven a List.mem_cons_self b hbmem hab
  rw [lastOf_second hs] at hcount
  refine ⟨?_, h.alike a List.mem_cons_self b hbmem hab, hcount.1, hcount.2⟩
  by_contra hne
  have hnat := toNat_succ_of_lt hab.2
  have hlt : a.chnkIdx < a.chnkIdx + 1 := by
    rw [UInt32.lt_iff_toNat_lt, hnat]
    exact Nat.lt_succ_self _
  have hlt' : a.chnkIdx + 1 < b.chnkIdx := by
    have hab' := UInt32.lt_iff_toNat_lt.mp hab.2
    rw [← UInt32.toNat_inj, hnat] at hne
    rw [UInt32.lt_iff_toNat_lt, hnat]
    omega
  obtain ⟨c, hc, hcu, hci⟩ := h.consecutive a List.mem_cons_self b hbmem hab _ hlt hlt'
  rcases List.mem_cons.mp hc with rfl | hc
  · rw [← hci] at hlt
    exact UInt32.lt_irrefl _ hlt
  · obtain ⟨-, rfl | ⟨-, hbc⟩⟩ := between_cons hs hc ⟨hcu.symm, hci ▸ hlt⟩
    · rw [← hci] at hlt'
      exact UInt32.lt_irrefl _ hlt'
    · exact UInt32.lt_irrefl _ (UInt32.lt_trans hbc.2 (hci ▸ hlt'))

/-- One more chunk in front. -/
theorem InStep.cons (h : InStep (b :: r)) (hstep : a.vctrUqid = b.vctrUqid → StepsTo a b (r = [])) :
    InStep (a :: b :: r) where
  consecutive := by
    intro x hx y hy hxy i hxi hiy
    have hyt : y ∈ b :: r := (List.mem_cons.mp hy).resolve_left fun he =>
      not_earlier_first hs hx (he ▸ hxy)
    rcases List.mem_cons.mp hx with rfl | hx
    · obtain ⟨hu, hor⟩ := between_cons hs hyt hxy
      have hidx := (hstep hu).chnkIdx
      have hnat := toNat_succ_of_lt hxi
      rw [← hidx] at hnat
      by_cases hib : i = b.chnkIdx
      · exact ⟨b, List.mem_cons_of_mem x List.mem_cons_self, hu.symm, hib.symm⟩
      · have hbi : b.chnkIdx < i := by
          rw [← UInt32.toNat_inj] at hib
          rw [UInt32.lt_iff_toNat_lt] at hxi ⊢
          omega
        rcases hor with rfl | ⟨-, hby⟩
        · exact absurd (UInt32.lt_trans hbi hiy) (UInt32.lt_irrefl _)
        · obtain ⟨c, hc, hcu, hci⟩ := h.consecutive b List.mem_cons_self y hyt hby i hbi hiy
          exact ⟨c, List.mem_cons_of_mem x hc, hcu.trans hu.symm, hci⟩
    · obtain ⟨c, hc, hcu, hci⟩ := h.consecutive x hx y hyt hxy i hxi hiy
      exact ⟨c, List.mem_cons_of_mem a hc, hcu, hci⟩
  alike := by
    intro x hx y hy hxy
    have hyt : y ∈ b :: r := (List.mem_cons.mp hy).resolve_left fun he =>
      not_earlier_first hs hx (he ▸ hxy)
    rcases List.mem_cons.mp hx with rfl | hx
    · obtain ⟨hu, hor⟩ := between_cons hs hyt hxy
      have halike := (hstep hu).alike
      rcases hor with rfl | ⟨-, hby⟩
      · exact halike
      · have hrest := h.alike b List.mem_cons_self y hyt hby
        exact ⟨hrest.1.trans halike.1, hrest.2.trans halike.2⟩
    · exact h.alike x hx y hyt hxy

theorem Even.cons (h : Even (b :: r)) (hstep : a.vctrUqid = b.vctrUqid → StepsTo a b (r = [])) :
    Even (a :: b :: r) := by
  intro x hx y hy hxy
  have hyt : y ∈ b :: r := (List.mem_cons.mp hy).resolve_left fun he =>
    not_earlier_first hs hx (he ▸ hxy)
  rcases List.mem_cons.mp hx with rfl | hx
  · obtain ⟨hu, hor⟩ := between_cons hs hyt hxy
    have hst := hstep hu
    rcases hor with rfl | ⟨hyr, hby⟩
    · rw [lastOf_second hs]
      exact ⟨hst.atLast, hst.before⟩
    · rw [← hst.before (List.ne_nil_of_mem hyr), lastOf_cons hs hyt]
      exact h b List.mem_cons_self y hyt hby
  · rw [lastOf_cons hs hyt]
    exact h x hx y hyt hxy

end Cons

/-- **The scan** of a sorted array accepts what is in step and even. -/
theorem chained_iff : ∀ (rest : List Kv) (a : Kv), (a :: rest).Pairwise Kv.Before →
    (Chained a rest ↔ InStep (a :: rest) ∧ Even (a :: rest)) := by
  intro rest
  induction rest with
  | nil =>
      intro a _
      have hno : ∀ x ∈ [a], ∀ y ∈ [a], ¬ Earlier x y := by
        intro x hx y hy h
        rw [List.mem_singleton.mp hx, List.mem_singleton.mp hy] at h
        exact UInt32.lt_irrefl _ h.2
      refine iff_of_true trivial ⟨⟨?_, ?_⟩, ?_⟩
      · exact fun x hx y hy h => absurd h (hno x hx y hy)
      · exact fun x hx y hy h => absurd h (hno x hx y hy)
      · exact fun x hx y hy h => absurd h (hno x hx y hy)
  | cons b r ih =>
      intro a hs
      rw [Chained, ih b (List.pairwise_cons.mp hs).2]
      constructor
      · rintro ⟨hstep, hin, heven⟩
        exact ⟨hin.cons hs hstep, heven.cons hs hstep⟩
      · rintro ⟨hin, heven⟩
        exact ⟨hin.stepsTo hs heven, hin.tail hs, heven.tail hs⟩

end Scan

/-! ## when the check is right -/

section Right

variable {room : UInt32 → Qtype → Nat → Nat} {qsort : (Kv → Kv → Int) → List Kv → List Kv}
  {T : ChnkTable} {L L' : List Kv}

theorem InStep.of_perm (hp : L.Perm L') (h : InStep L) : InStep L' where
  consecutive := by
    intro a ha b hb hab i hai hib
    obtain ⟨c, hc, hcu, hci⟩ := h.consecutive a (hp.mem_iff.mpr ha) b (hp.mem_iff.mpr hb) hab i hai hib
    exact ⟨c, hp.mem_iff.mp hc, hcu, hci⟩
  alike := fun a ha b hb => h.alike a (hp.mem_iff.mpr ha) b (hp.mem_iff.mpr hb)

theorem Even.of_perm (hp : L.Perm L') (h : Even L) : Even L' := by
  intro a ha b hb hab
  have hlast : LastOf L' b ↔ LastOf L b :=
    ⟨fun hl c hc => hl c (hp.mem_iff.mp hc), fun hl c hc => hl c (hp.mem_iff.mpr hc)⟩
  rw [hlast]
  exact h a (hp.mem_iff.mpr ha) b (hp.mem_iff.mpr hb) hab

/-- What the check accepts, where its comparator is right. -/
theorem chnkRsHmapCustomChk_iff_even (hsort : SortsBy qsort) (hasc : Ascending T.kvs) :
    chnkRsHmapCustomChk qsort T.H = true ↔ T.BktsOk ∧ InStep T.kvs ∧ Even T.kvs := by
  obtain ⟨hperm, hs⟩ := hsort sortcompareKv T.kvs T.nodup_kvs
    ((strictTotalOn_iff T.distinctKeys).mpr hasc)
  have hs' : (qsort sortcompareKv T.kvs).Pairwise Kv.Before := by
    refine hs.imp_of_mem fun {a b} ha hb hab => ?_
    exact (hasc.sortcompareKv_iff (hperm.mem_iff.mp ha) (hperm.mem_iff.mp hb)).mp hab
  rw [chnkRsHmapCustomChk_iff hperm, ← hperm.length_eq]
  refine and_congr_right fun _ => ?_
  have hiff : chkVctrs (qsort sortcompareKv T.kvs).length (qsort sortcompareKv T.kvs) = true ↔
      InStep (qsort sortcompareKv T.kvs) ∧ Even (qsort sortcompareKv T.kvs) := by
    cases hL : qsort sortcompareKv T.kvs with
    | nil =>
        refine iff_of_true rfl ⟨⟨?_, ?_⟩, ?_⟩
        · exact fun a ha => (nomatch ha)
        · exact fun a ha => (nomatch ha)
        · exact fun a ha => (nomatch ha)
    | cons a rest =>
        rw [hL] at hs'
        rw [chkVctrs_iff _ a rest (by rw [List.length_cons]; omega), chained_iff rest a hs']
  rw [hiff]
  exact ⟨fun h => ⟨h.1.of_perm hperm, h.2.of_perm hperm⟩,
    fun h => ⟨h.1.of_perm hperm.symm, h.2.of_perm hperm.symm⟩⟩

/-- The tables of which the check is right: no chunk of an earlier vector has a
greater index; where all is as it should be, the last chunk of each vector that has
others is full as well, but that of the last vector; and no vector is even but short,
if nothing else is wrong. -/
structure Checkable (room : UInt32 → Qtype → Nat → Nat) (T : ChnkTable) : Prop where
  ascending : Ascending T.kvs
  tails : T.BktsOk → InStep T.kvs → FullButLast room T.kvs →
    ∀ a ∈ T.kvs, ∀ b ∈ T.kvs, Earlier a b →
      (LastOf T.kvs b → b.numElements ≤ room b.vctrUqid b.qtype b.size) ∧
        (¬ LastOf T.kvs b → b.numElements = room b.vctrUqid b.qtype b.size)
  notShort : ¬ (T.BktsOk ∧ InStep T.kvs ∧ Even T.kvs ∧ ∃ a ∈ T.kvs, ∃ b ∈ T.kvs, Earlier a b ∧
    a.numElements ≠ room a.vctrUqid a.qtype a.size)

/-- Chunks of a vector in step have the same room. -/
theorem InStep.room_eq (room : UInt32 → Qtype → Nat → Nat) (h : InStep L) {a b : Kv} (ha : a ∈ L) (hb : b ∈ L) (hab : Earlier a b) :
    room b.vctrUqid b.qtype b.size = room a.vctrUqid a.qtype a.size := by
  obtain ⟨hq, hz⟩ := h.alike a ha b hb hab
  rw [← hab.1, hq, hz]

/-- **The check** is right of exactly these tables. -/
theorem chnkChkRight_iff (hsort : SortsBy qsort) :
    ChnkChkRight room qsort T ↔ Checkable room T := by
  constructor
  · rintro ⟨horder, haccepts⟩
    have hasc := (strictTotalOn_iff T.distinctKeys).mp horder
    rw [chnkRsHmapCustomChk_iff_even hsort hasc] at haccepts
    refine ⟨hasc, fun hbkts hin hfull a ha b hb hab => ?_, ?_⟩
    · have heven := (haccepts.mpr ⟨hbkts, hin, hfull⟩).2.2 a ha b hb hab
      rw [hin.room_eq room ha hb hab, ← hfull a ha b hb hab]
      exact heven
    · rintro ⟨hbkts, hin, heven, a, ha, b, hb, hab, hshort⟩
      exact hshort ((haccepts.mp ⟨hbkts, hin, heven⟩).2.2 a ha b hb hab)
  · rintro ⟨hasc, htails, hshort⟩
    refine ⟨(strictTotalOn_iff T.distinctKeys).mpr hasc, ?_⟩
    rw [chnkRsHmapCustomChk_iff_even hsort hasc]
    constructor
    · rintro ⟨hbkts, hin, heven⟩
      refine ⟨hbkts, hin, fun a ha b hb hab => ?_⟩
      by_contra hne
      exact hshort ⟨hbkts, hin, heven, a, ha, b, hb, hab, hne⟩
    · rintro ⟨hbkts, hin, hfull⟩
      refine ⟨hbkts, hin, fun a ha b hb hab => ?_⟩
      have htail := htails hbkts hin hfull a ha b hb hab
      rw [hin.room_eq room ha hb hab, ← hfull a ha b hb hab] at htail
      exact htail

end Right

/-- A table with a bucket for each of the rows, and one more. -/
def tableOf (rows : List (ChnkKey × ChnkBktVal)) : RsHmap ChnkKey ChnkBktVal where
  size := rows.length + 1
  nitems := rows.length
  divinfo := fastDiv32Init (rows.length + 1)
  bkts := fun i => rows[i]?.elim zeroBkt fun row => ⟨row.1, 0, row.2⟩
  bktFull := fun i => decide (i < rows.length)
  hashkey := 0
  config := ⟨0, 0, 0, 0, none⟩
  pslWrapped := false

theorem rows_tableOf (rows : List (ChnkKey × ChnkBktVal)) : (tableOf rows).rows = rows := by
  have hfilter : (List.range (rows.length + 1)).filter (fun i => decide (i < rows.length)) =
      List.range rows.length := by
    rw [List.range_succ, List.filter_append, List.filter_cons_of_neg (by simp), List.filter_nil,
      List.append_nil, List.filter_eq_self]
    simp
  rw [RsHmap.rows]
  simp only [tableOf, hfilter]
  apply List.ext_getElem
  · simp
  · intro i hi hi'
    simp [List.getElem?_eq_getElem hi']

/-- The chunk table of some rows. -/
def ChnkTable.ofRows (rows : List (ChnkKey × ChnkBktVal)) (h : (rows.map Prod.fst).Nodup) :
    ChnkTable where
  H := tableOf rows
  size_pos := Nat.succ_pos _
  nitems_eq := by rw [rows_tableOf]; rfl
  nodup := by rwa [rows_tableOf]
  zero := by
    intro p _ hp
    have hle : rows.length ≤ p := by simpa [tableOf] using hp
    simp [tableOf, List.getElem?_eq_none hle]

/-- A chunk of `I1` elements in memory, 64 bytes of it. -/
def chunkRow (vctrUqid chnkIdx : UInt32) (numElements : Nat) : ChnkKey × ChnkBktVal :=
  (⟨vctrUqid, chnkIdx⟩, ⟨⟨0, 0, numElements, .I1, false, 0, 64, some ⟨0, []⟩⟩, 0⟩)

/-- One vector, with a full chunk and another. -/
def oneVector : ChnkTable := .ofRows [chunkRow 1 0 64, chunkRow 1 1 10] (by decide)

theorem chnkChkRight_iff_oneVector : ChnkChkRight (fun _ _ size => size) attachSort oneVector := by
  have hkvs : oneVector.kvs = [kvOf (chunkRow 1 0 64), kvOf (chunkRow 1 1 10)] := rfl
  refine (chnkChkRight_iff sortsBy_attachSort).mpr ⟨?_, fun _ _ _ => ?_, ?_⟩
  · rw [hkvs, Ascending]
    decide
  · rw [hkvs]
    simp only [LastOf, Kv.Before, Earlier]
    decide
  · rintro ⟨-, -, -, hshort⟩
    rw [hkvs] at hshort
    simp only [Earlier] at hshort
    revert hshort
    decide

/-- Two vectors, the first of two chunks. -/
def twoVectors : ChnkTable := .ofRows [chunkRow 1 0 64, chunkRow 1 1 64, chunkRow 2 0 64] (by decide)

theorem chnkChkRight_fails : ¬ ChnkChkRight (fun _ _ size => size) attachSort twoVectors := by
  intro h
  have hkvs : twoVectors.kvs =
      [kvOf (chunkRow 1 0 64), kvOf (chunkRow 1 1 64), kvOf (chunkRow 2 0 64)] := rfl
  have hb : kvOf (chunkRow 1 1 64) ∈ twoVectors.kvs := by rw [hkvs]; decide
  have hc : kvOf (chunkRow 2 0 64) ∈ twoVectors.kvs := by rw [hkvs]; decide
  exact h.order.asymm hb hc (by decide) (by decide)

end QStore.Vctr
