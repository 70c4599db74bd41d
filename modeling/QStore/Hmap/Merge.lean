import QStore.Hmap.PslWrap
import QStore.Hmap.RowDmp

/-!
# QStore.Hmap.Merge

`rs_hmap_merge`, which puts the pairs of one map into another, or into itself.

The loop reads the arrays that the source had at the start. Where it merges a map into itself
and a put resizes the map, those arrays are freed.
-/

namespace QStore.Hmap

open QStore.Ring QStore.RobinHood Function

variable {K V : Type} [Zero K] [Zero V]

/-- A put into the table calls the resize. -/
def putResizes (h : RsHmap K V) : Bool :=
  decide (h.nitems > highThreshold h.size) &&
    (calcNewSize h.nitems h.config.maxSize h.size).any fun c => decide (0 ≤ c.status) && c.resize

/-- The loop of `rs_hmap_merge` over the buckets of the source from `i`, with `left` of them to
go; `same` if both maps are one. `hashkeys` are the random keys that resizes would draw. `none`:
it reads arrays that a resize has freed. -/
def mergeLoop (F : FnPtrs K V) (hashkeys : Nat → UInt64) (same : Bool) :
    Nat → Nat → Int → RsHmap K V → RsHmap K V → Option (Int × RsHmap K V × RsHmap K V)
  | 0, _, status, dst, src => some (status, dst, src)
  | left + 1, i, status, dst, src =>
      if src.bktFull i = false then mergeLoop F hashkeys same left (i + 1) status dst src
      else
        (rsHmapPut F (hashkeys i) dst (src.bkts i).key (src.bkts i).val).bind fun r =>
          let src' := if same then r.2 else src
          if r.1 < 0 then some (r.1, r.2, src')
          else if same && putResizes dst then
            if i + 1 < src'.size then none else some (r.1, r.2, src')
          else mergeLoop F hashkeys same left (i + 1) r.1 r.2 src'

/-- `rs_hmap_merge`: the status, and the two maps after it. -/
def rsHmapMerge (F : FnPtrs K V) (hashkeys : Nat → UInt64) (same : Bool) (dst src : RsHmap K V) :
    Option (Int × RsHmap K V × RsHmap K V) :=
  mergeLoop F hashkeys same src.size 0 0 dst src

/-- Putting pairs into a map. -/
def putAll [DecidableEq K] (F : FnPtrs K V) (m : K → Option V) (pairs : List (K × V)) :
    K → Option V :=
  pairs.foldl (fun m p => insertOrUpdate F m p.1 p.2) m

/-- The merge is defined. Where it succeeds, another source is as before, and the destination is a
table for what putting the pairs the source had, in any order, makes of its map. -/
def MergeRight [DecidableEq K] (F : FnPtrs K V) (hashkeys : Nat → UInt64) (same : Bool)
    (dst src : RsHmap K V) (m : K → Option V) : Prop :=
  ∃ r, rsHmapMerge F hashkeys same dst src = some r ∧
    (0 ≤ r.1 → (same = false → r.2.2 = src) ∧ WellFormed F r.2.1 ∧
      ∀ pairs, pairs.Perm src.rows → Rep r.2.1 (putAll F m pairs))

/-- The puts of a merge. -/
def mergeCalls (hashkeys : Nat → UInt64) (src : RsHmap K V) : Nat → Nat → List (Call K V)
  | 0, _ => []
  | left + 1, i =>
      if src.bktFull i = false then mergeCalls hashkeys src left (i + 1)
      else .put (hashkeys i) (src.bkts i).key (src.bkts i).val ::
        mergeCalls hashkeys src left (i + 1)

/-- No call of a sequence, made where the ones before it lead, leaves a crowd of keys. -/
def SpreadsAll (F : FnPtrs K V) : List (Call K V) → RsHmap K V → Prop
  | [], _ => True
  | c :: cs, h => c.Spreads F h ∧ ∀ t, c.step F h = some t → SpreadsAll F cs t

variable {F : FnPtrs K V} {h dst src src₀ : RsHmap K V} {m mS : K → Option V} {hashkey : UInt64}
  {hashkeys : Nat → UInt64} {same : Bool} {left i : Nat} {st : Int} {k : K} {v : V}

/-! ## the order of the pairs -/

section Order

variable [DecidableEq K]

omit [Zero K] [Zero V] in
/-- Puts of different keys commute. -/
theorem insertOrUpdate_comm {k k' : K} {v v' : V} (hne : k ≠ k') :
    insertOrUpdate F (insertOrUpdate F m k v) k' v' =
      insertOrUpdate F (insertOrUpdate F m k' v') k v := by
  simp only [insertOrUpdate]
  rw [update_of_ne hne, update_of_ne hne.symm, update_comm hne]

omit [Zero K] [Zero V] in
/-- Pairs of distinct keys may be put in any order. -/
theorem putAll_perm {pairs pairs' : List (K × V)} (hp : pairs.Perm pairs')
    (hnodup : (pairs.map Prod.fst).Nodup) : putAll F m pairs = putAll F m pairs' := by
  refine hp.foldl_eq' (fun x hx y hy z => ?_) m
  by_cases hxy : x = y
  · rw [hxy]
  · exact insertOrUpdate_comm fun hk => hxy (List.inj_on_of_nodup_map hnodup hx hy hk)

end Order

/-- The rows of a well-formed table have distinct keys. -/
theorem WellFormed.nodup_rows (hwf : WellFormed F h) : (h.rows.map Prod.fst).Nodup := by
  rw [RsHmap.rows, List.map_map]
  refine List.Nodup.map_on ?_ (List.nodup_range.filter _)
  intro p hp q hq hk
  rw [List.mem_filter, List.mem_range] at hp hq
  exact hwf.inv.inj p q _ _ hp.1 hq.1 (RsHmap.view_of_full hp.2) (RsHmap.view_of_full hq.2) hk

/-! ## one put of the loop -/

/-- A put that succeeds where it does not resize inserts into the table as it is. -/
theorem rsHmapPut_eq_insert {r : Int × RsHmap K V} (hp : rsHmapPut F hashkey h k v = some r)
    (h0 : 0 ≤ r.1) (hno : putResizes h = false) : r = rsHmapInsert F h k v := by
  obtain ⟨g, -, -, hgrew, hr⟩ := rsHmapPut_grew hp h0
  cases hgrew with
  | same hle => exact hr
  | resized hgt c hc hst =>
      rw [putResizes, decide_eq_true hgt, hc, Option.any_some, hst, calcNewSize_resize hgt hc] at hno
      contradiction

/-- The buckets from `i` on are as they were at the start. -/
structure AgreesFrom (i : Nat) (src₀ src : RsHmap K V) : Prop where
  bktFull : ∀ j, i ≤ j → src.bktFull j = src₀.bktFull j
  bkts : ∀ j, i ≤ j → src.bkts j = src₀.bkts j

omit [Zero K] [Zero V] in
theorem AgreesFrom.next (ha : AgreesFrom i src₀ src) : AgreesFrom (i + 1) src₀ src :=
  ⟨fun j hj => ha.bktFull j (by omega), fun j hj => ha.bkts j (by omega)⟩

/-- Putting the pair of bucket `i` into its own table changes the value in this bucket only. -/
theorem put_own_bucket (hwf : WellFormed F h) (hi : i < h.size) (hfull : h.bktFull i = true)
    (hw : (rsHmapInsert F h (h.bkts i).key (h.bkts i).val).2.pslWrapped = false) :
    ∃ b, (rsHmapInsert F h (h.bkts i).key (h.bkts i).val).2 = h.setBkt i b := by
  have hv := RsHmap.view_of_full hfull
  obtain ⟨q, e, hq, he, hk, -, hr⟩ := rsHmapInsert_present hwf ⟨i, _, hi, hv, rfl, rfl⟩ hw
  obtain rfl : q = i := hwf.inv.inj q i e _ hq hi he hv hk
  exact ⟨_, by rw [hr]⟩

/-! ## the loop -/

section Loop

variable [DecidableEq K]

/-- **The loop puts the pairs** that the source had, where none of its puts crowds the table and,
for one map, it does not resize. -/
theorem mergeLoop_spec (st : Int) (hr : Reaches F dst m) (hw : dst.pslWrapped = false)
    (hagree : AgreesFrom i src₀ src)
    (hsame : same = true → dst = src ∧ putResizes dst = false ∧ i + left = dst.size)
    (hspreads : SpreadsAll F (mergeCalls hashkeys src₀ left i) dst) :
    ∃ r, mergeLoop F hashkeys same left i st dst src = some r ∧
      (0 ≤ r.1 → (same = false → r.2.2 = src) ∧ r.2.1.pslWrapped = false ∧
        Reaches F r.2.1 (putAll F m (dumpRows src₀ left i))) := by
  induction left generalizing i st dst src m with
  | zero => exact ⟨_, rfl, fun _ => ⟨fun _ => rfl, hw, hr⟩⟩
  | succ left ih =>
      have hfull₀ := hagree.bktFull i le_rfl
      rw [mergeLoop, dumpRows, hfull₀, hagree.bkts i le_rfl]
      rw [mergeCalls] at hspreads
      split
      · next hempty =>
        rw [if_pos hempty] at hspreads
        refine ih _ hr hw hagree.next (fun hs => ?_) hspreads
        obtain ⟨h1, h2, h3⟩ := hsame hs
        exact ⟨h1, h2, by omega⟩
      · next hfull =>
        rw [if_neg hfull] at hspreads
        obtain ⟨⟨r, hput⟩, -⟩ := reaches_returns hr hw (hashkeys i)
          (src₀.bkts i).key (src₀.bkts i).val
        rw [hput, Option.bind_some]
        by_cases hneg : r.1 < 0
        · simp only [if_pos hneg]
          exact ⟨_, rfl, fun h0 => absurd h0 (not_le.mpr hneg)⟩
        · -- the put succeeds, and is one of the calls
          have h0 := not_lt.mp hneg
          have hstep : (Call.put (hashkeys i) (src₀.bkts i).key (src₀.bkts i).val).step F dst =
              some r.2 := by
            rw [Call.step, hput, Option.bind_some, if_pos h0]
          have hrest := hspreads.2 r.2 hstep
          obtain ⟨hwf, hl, hrep⟩ := reaches_wellFormed hr hw
          have hw' := rsHmapPut_notWrapped hwf hl hw hput h0 hspreads.1
          obtain ⟨hno, -⟩ := rsHmapPut_status hwf hrep hput hw' h0
          have hr' := hr.put hput
          rw [if_neg (by simp [hno])] at hr'
          simp only [if_neg hneg]
          cases same with
          | false =>
              obtain ⟨r', hloop, hr''⟩ := ih r.1 hr' hw' hagree.next
                (fun hs => absurd hs Bool.false_ne_true) hrest
              exact ⟨r', hloop, fun h0' => ⟨(hr'' h0').1, (hr'' h0').2.1, (hr'' h0').2.2⟩⟩
          | true =>
              obtain ⟨rfl, hnoresize, hsize⟩ := hsame rfl
              have hins := rsHmapPut_eq_insert hput h0 hnoresize
              rw [← hagree.bkts i le_rfl] at hins
              rw [← hfull₀] at hfull
              have hi : i < dst.size := by omega
              obtain ⟨b, hb⟩ := put_own_bucket hwf hi (by simpa using hfull)
                (by rw [← hins]; exact hw')
              rw [← hins] at hb
              have hagree' : AgreesFrom (i + 1) src₀ r.2 := by
                rw [hb]
                refine ⟨hagree.next.bktFull, fun j hj => ?_⟩
                rw [RsHmap.setBkt]
                simp only
                rw [update_of_ne (by omega)]
                exact hagree.bkts j (by omega)
              have hnoresize' : putResizes r.2 = false := by
                rw [hb]
                exact hnoresize
              have hsize' : r.2.size = dst.size := by rw [hb]; rfl
              simp only [hnoresize, Bool.and_false, if_true, Bool.false_eq_true, if_false]
              obtain ⟨r', hloop, hr''⟩ := ih r.1 hr' hw' hagree'
                (fun _ => ⟨rfl, hnoresize', by omega⟩) hrest
              exact ⟨r', hloop, fun h0' => ⟨fun hs => absurd hs (by decide), (hr'' h0').2.1,
                (hr'' h0').2.2⟩⟩

end Loop

/-! ## a map that is merged into itself and resized -/

/-- A put that resizes makes the table larger, keeps it in order and inserts into it. -/
theorem growIfFull_resized (hwf : WellFormed F h) (hl : Loaded h) (hw : h.pslWrapped = false)
    (hre : putResizes h = true)
    (hkeys : ¬ Crowded (putTarget hashkey h).size ((putTarget hashkey h).home F) h.Has (2 ^ 16)) :
    ∃ g, growIfFull F hashkey h = some (0, g) ∧ WellFormed F g ∧ g.pslWrapped = false ∧
      h.size < g.size ∧ g.nitems < g.size ∧ g.size = (putTarget hashkey h).size ∧
      g.home F = (putTarget hashkey h).home F ∧
        ∀ k v, Holds g.size g.view k v ↔ Holds h.size h.view k v := by
  have hlt := hwf.size_lt
  have hpos := hwf.size_pos
  rw [putResizes, Bool.and_eq_true, decide_eq_true_eq, Option.any_eq_true] at hre
  obtain ⟨hgt, c, hc, hst⟩ := hre
  rw [Bool.and_eq_true, decide_eq_true_eq] at hst
  have hst0 := calcNewSize_status hc hst.1
  have hcond : 20 * h.nitems ≤ 17 * (h.size + maxGrowthStep) := by
    rw [Loaded, highThreshold_eq (by omega)] at hl
    unfold maxGrowthStep
    omega
  obtain ⟨c', hc', henough⟩ :=
    (calcNewSize_enough_iff h.config.maxSize hwf.nitems_le hlt).mpr hcond
  obtain rfl : c = c' := Option.some.inj (hc.symm.trans hc')
  have hroom := henough hst0 hst.2
  have hgrow : growIfFull F hashkey h = some (rsHmapResize F hashkey h c.newsize) := by
    rw [growIfFull, if_pos hgt, hc, Option.map_some, if_neg (by omega), if_pos hst.2]
  have htarget : putTarget hashkey h = blank c.newsize hashkey h.config h.pslWrapped := by
    rw [putTarget, if_pos hgt, hc]
  have hgw : (rsHmapResize F hashkey h c.newsize).2.pslWrapped = false := by
    rw [htarget] at hkeys
    exact rsHmapResize_notWrapped hwf.keyed hw hroom.free.le hkeys
  obtain ⟨g, hg, hgwf, hframe, hn, hholds⟩ :=
    rsHmapResize_spec hwf.keyed hroom.pos hroom.lt hroom.free.le hgw
  rw [hg] at hgrow hgw
  have hsize : g.size = c.newsize := hframe.size
  refine ⟨g, hgrow, hgwf, hgw, ?_, ?_, ?_, ?_, hholds⟩
  · rw [hsize]
    exact calcNewSize_gt hpos hgt hc hst0
  · rw [hn, hsize]
    exact hroom.free
  · rw [htarget, hsize]
    rfl
  · rw [htarget]
    exact hframe.home

/-- A put that resizes returns what `val_update` returned, for a key the table has. -/
theorem rsHmapPut_resized [DecidableEq K] (hwf : WellFormed F h) (hl : Loaded h)
    (hw : h.pslWrapped = false) (hrep : Rep h m) (hre : putResizes h = true)
    (hs : (Call.put hashkey k v).Spreads F h) {w : V} (hk : m k = some w) :
    ∃ r, rsHmapPut F hashkey h k v = some r ∧ r.1 = (F.valUpdate w v).1 ∧ h.size < r.2.size := by
  obtain ⟨g, hgrow, hg, hgw, hsize, hroom, htsize, hthome, hholds⟩ :=
    growIfFull_resized hwf hl hw hre fun hcr => hs (hcr.mono (fun x hx => .inr hx) le_rfl)
  have hrep' : Rep g m := fun x u => (hrep x u).trans (hholds x u).symm
  have hiw : (rsHmapInsert F g k v).2.pslWrapped = false := by
    refine (rsHmapInsert_notWrapped hg hroom ?_).trans hgw
    rw [htsize, hthome]
    intro hcr
    refine hs (hcr.mono (fun x hx => ?_) le_rfl)
    rcases hx with rfl | ⟨u, hu⟩
    · exact .inl rfl
    · exact .inr ⟨u, (hholds x u).mp hu⟩
  obtain ⟨-, -, hframe, -, hstatus⟩ := rsHmapInsert_spec (k := k) (v := v) hg hrep' hroom hiw
  rw [hk] at hstatus
  exact ⟨_, by rw [rsHmapPut, hgrow]; rfl, hstatus, by rw [hframe.size]; exact hsize⟩

/-- The first put of a map into itself, where it resizes: it fails, or the loop then reads arrays
that are freed. -/
theorem mergeLoop_resized [DecidableEq K] (st : Int) (hwf : WellFormed F h) (hl : Loaded h)
    (hw : h.pslWrapped = false) (hrep : Rep h m) (hre : putResizes h = true)
    (hleft : i + left = h.size)
    (hspreads : SpreadsAll F (mergeCalls hashkeys h left i) h)
    {k : K} {v : V} {rows : List (K × V)} (hrows : dumpRows h left i = (k, v) :: rows) :
    (0 ≤ (F.valUpdate v v).1 → mergeLoop F hashkeys true left i st h h = none) ∧
      ((F.valUpdate v v).1 < 0 →
        ∃ r, mergeLoop F hashkeys true left i st h h = some r ∧ r.1 < 0) := by
  induction left generalizing i with
  | zero => exact absurd hrows (by simp [dumpRows])
  | succ left ih =>
      rw [dumpRows] at hrows
      rw [mergeCalls] at hspreads
      rw [mergeLoop]
      by_cases hempty : h.bktFull i = false
      · rw [if_pos hempty] at hrows hspreads ⊢
        exact ih (by omega) hspreads hrows
      · rw [if_neg hempty] at hrows hspreads ⊢
        have hfull : h.bktFull i = true := by simpa using hempty
        obtain ⟨hkv, -⟩ := List.cons.inj hrows
        obtain ⟨rfl, rfl⟩ := Prod.mk.inj hkv
        have hheld : m (h.bkts i).key = some (h.bkts i).val :=
          (hrep _ _).mpr ⟨i, _, by omega, RsHmap.view_of_full hfull, rfl, rfl⟩
        obtain ⟨r, hput, hstatus, hlt⟩ := rsHmapPut_resized hwf hl hw hrep hre hspreads.1 hheld
        rw [hput, Option.bind_some]
        constructor
        · intro h0
          have hlarger : i + 1 < r.2.size := by omega
          simp only [if_neg (not_lt.mpr (hstatus.symm ▸ h0)), hre, Bool.and_self, if_true,
            if_pos hlarger]
        · intro hneg
          have hneg' : r.1 < 0 := hstatus.symm ▸ hneg
          simp only [if_pos hneg']
          exact ⟨_, rfl, hneg'⟩

/-! ## the exact condition -/

/-- **When a merge is right**, if it leaves no crowd of keys on the way: into another map always,
and into itself where the first put of it does not resize the map, or fails. -/
theorem mergeRight_iff [DecidableEq K] (hrd : Reaches F dst m) (hrs : Reaches F src mS)
    (hwd : dst.pslWrapped = false) (hws : src.pslWrapped = false)
    (hsame : same = true → dst = src)
    (hspreads : SpreadsAll F (mergeCalls hashkeys src src.size 0) dst) :
    MergeRight F hashkeys same dst src m ↔ (same = true → putResizes dst = true →
      ∀ p, src.rows.head? = some p → (F.valUpdate p.2 p.2).1 < 0) := by
  obtain ⟨hwf, hl, hrep⟩ := reaches_wellFormed hrd hwd
  obtain ⟨hwfs, hls, -⟩ := reaches_wellFormed hrs hws
  by_cases halias : same = true ∧ putResizes dst = true
  · obtain ⟨rfl, hre⟩ := halias
    obtain rfl := hsame rfl
    cases hrows : dst.rows with
    | nil =>
        -- a table that is too full is not empty
        have hcount := (reaches_counted hrd).length_rows
        rw [hrows, List.length_nil] at hcount
        rw [putResizes, ← hcount, Bool.and_eq_true, decide_eq_true_eq] at hre
        exact absurd hre.1 (Nat.not_lt_zero _)
    | cons p rows =>
        have hdump := (dumpRows_all dst).trans hrows
        obtain ⟨hfreed, hfailed⟩ := mergeLoop_resized 0 hwf hl hwd hrep hre
          (Nat.zero_add _) hspreads hdump
        simp only [List.head?_cons, Option.some.injEq, forall_eq', hre, forall_const]
        constructor
        · rintro ⟨r, hr, -⟩
          by_contra h0
          rw [rsHmapMerge, hfreed (not_lt.mp h0)] at hr
          contradiction
        · intro hneg
          obtain ⟨r, hr, hrneg⟩ := hfailed hneg
          exact ⟨r, hr, fun h0 => absurd h0 (not_le.mpr hrneg)⟩
  · refine iff_of_true ?_ fun hs hre => absurd ⟨hs, hre⟩ halias
    have hno : same = true → dst = src ∧ putResizes dst = false ∧ 0 + src.size = dst.size :=
      fun hs => ⟨hsame hs, by simpa [hs] using halias, by rw [hsame hs, Nat.zero_add]⟩
    obtain ⟨r, hr, hres⟩ := mergeLoop_spec 0 hrd hwd
      ⟨fun _ _ => rfl, fun _ _ => rfl⟩ hno hspreads
    refine ⟨r, hr, fun h0 => ?_⟩
    obtain ⟨hsrc, hrw, hreach⟩ := hres h0
    obtain ⟨hwf', -, hrep'⟩ := reaches_wellFormed hreach hrw
    refine ⟨hsrc, hwf', fun pairs hperm => ?_⟩
    rw [putAll_perm hperm (hperm.map Prod.fst |>.nodup_iff.mpr hwfs.nodup_rows), ← dumpRows_all]
    exact hrep'

omit [Zero K] [Zero V] in
/-- The puts of a merge are about the keys of the source. -/
theorem mergeCalls_keys {S : Finset K} {src : RsHmap K V} (hkeys : ∀ x, src.Has x → x ∈ S)
    {left i : Nat} (hle : i + left ≤ src.size) :
    ∀ c ∈ mergeCalls hashkeys src left i, c.key ∈ S := by
  induction left generalizing i with
  | zero => simp [mergeCalls]
  | succ left ih =>
      rw [mergeCalls]
      split
      · exact ih (by omega)
      · next hfull =>
        rw [Bool.not_eq_false] at hfull
        intro c hc
        cases List.mem_cons.mp hc with
        | inl hc =>
            rw [hc]
            exact hkeys _ ⟨_, i, _, by omega, RsHmap.view_of_full hfull, rfl, rfl⟩
        | inr hc => exact ih (by omega) c hc

/-- A run about fewer than `2^16` keys leaves no crowd. -/
theorem KeysIn.spreadsAll [DecidableEq K] {S : Finset K} (hk : KeysIn F S h) (hS : S.card < 2 ^ 16)
    {calls : List (Call K V)} (hcalls : ∀ c ∈ calls, c.key ∈ S) : SpreadsAll F calls h := by
  induction calls generalizing h with
  | nil => trivial
  | cons c cs ih =>
      have hc := hcalls c (List.mem_cons_self ..)
      exact ⟨hk.spreads hS hc, fun t ht =>
        ih (hk.step hS hc ht) fun d hd => hcalls d (List.mem_cons_of_mem _ hd)⟩

/-- Two items are merged into a map that has one of the keys. -/
theorem mergeRight_iff_two : ∃ m mS, Reaches replaceFns (rsHmapInsert replaceFns fourMap 1 10).2 m ∧
    Reaches replaceFns twoItemMap mS ∧ mS 2 = some 20 ∧
    MergeRight replaceFns (fun _ => 0) false (rsHmapInsert replaceFns fourMap 1 10).2 twoItemMap
      m := by
  obtain ⟨mS, hrs, -, h2⟩ := reaches_twoItem
  have hrd := (Reaches.instantiate (F := replaceFns) instantiate_four).put rsHmapPut_fourMap
  have hone := (keysIn_fourMap {1, 2}).step (by decide) (by simp [Call.key]) step_fourMap
  have hcalls : ∀ c ∈ mergeCalls (fun _ => 0) twoItemMap twoItemMap.size 0, c.key ∈ {1, 2} :=
    mergeCalls_keys keysIn_twoItem.keys (Nat.zero_add _).le
  exact ⟨_, mS, hrd, hrs, h2, (mergeRight_iff hrd hrs hone.right.noWrap twoItem_noWrap
    (fun hs => absurd hs Bool.false_ne_true) (hone.spreadsAll (by decide) hcalls)).mpr
      fun hs => absurd hs Bool.false_ne_true⟩

theorem keysIn_oneItem : KeysIn replaceFns {5} oneItemMap := by
  have hsmall : KeysIn replaceFns {5} smallMap := by
    refine ⟨⟨_, reaches_small⟩, pslRight_blank 1 0 _, fun x hx => ?_⟩
    rw [smallMap] at hx
    exact absurd hx (has_blank x)
  refine hsmall.step (c := .put 0 5 7) (by decide) (by simp [Call.key]) ?_
  rw [Call.step, rsHmapPut_smallMap]
  rfl

theorem putResizes_oneItem : putResizes oneItemMap = true := by
  have hsize : oneItemMap.size = 1 := rfl
  have hn : oneItemMap.nitems = 1 := rfl
  have hmax : oneItemMap.config.maxSize = 0 := rfl
  have h1 : highThreshold 1 = 0 := highThreshold_eq (by norm_num)
  have h2 : highThreshold 2 = 1 := highThreshold_eq (by norm_num)
  rw [putResizes, hsize, hn, hmax]
  simp [calcNewSize, growSize, maxGrowthStep, h1, h2]

/-- One item in one bucket, merged into itself: the loop reads arrays that are freed. -/
theorem mergeRight_fails : ∃ m, Reaches replaceFns oneItemMap m ∧
    ¬ MergeRight replaceFns (fun _ => 0) true oneItemMap oneItemMap m := by
  obtain ⟨m, hr⟩ := reaches_oneItem
  obtain ⟨hwf, hl, hrep⟩ := reaches_wellFormed hr rfl
  refine ⟨m, hr, ?_⟩
  have hrows : dumpRows oneItemMap 1 0 = [(5, 7)] := rfl
  have hcalls : ∀ c ∈ mergeCalls (fun _ => 0) oneItemMap oneItemMap.size 0, c.key ∈ {5} :=
    mergeCalls_keys keysIn_oneItem.keys (Nat.zero_add _).le
  obtain ⟨hfreed, -⟩ := mergeLoop_resized 0 hwf hl rfl hrep putResizes_oneItem rfl
    (keysIn_oneItem.spreadsAll (by decide) hcalls) hrows
  rintro ⟨r, hr, -⟩
  rw [rsHmapMerge, hfreed le_rfl] at hr
  contradiction

end QStore.Hmap
