import QStore.Dt.Data
import Mathlib.Algebra.BigOperators.Group.List.Basic

/-!
# QStore.Dt.Preproc

What `preproc` establishes. The word of a row in feature `j` is `wordOf j row`:
its `yval` is one more than the number of smaller values, so it orders the rows
as the values do. `Y[j]` lists these words in the order of the values, and `to[j]`
is its inverse. `SingleSorted` says so of the positions `lb`, .., `ub - 1`; it is
the invariant of the whole recursion, and the list part of it (`Column`) passes
to sublists.
-/

namespace QStore.Dt

variable {V : Type} [LinearOrder V] {D : DataSet V} {qs : Qsort V} {cfg : Config}
variable {j n i : Nat} {L : List Nat}

/-! ## the invariant -/

/-- What the words of feature `j` satisfy, in whatever order they stand. -/
structure Words (D : DataSet V) (j : Nat) (L : List Nat) : Prop where
  row_lt : ∀ w ∈ L, getFrom w < D.n
  goal : ∀ w ∈ L, getGoal w = D.g (getFrom w)
  /-- `yval` is coded in the order of the values. -/
  coding : ∀ w ∈ L, ∀ u ∈ L,
    getYval w ≤ getYval u ↔ D.X j (getFrom w) ≤ D.X j (getFrom u)

/-- The words of feature `j` in order. -/
structure Column (D : DataSet V) (j : Nat) (L : List Nat) : Prop extends Words D j L where
  sorted : L.Pairwise fun w u => getYval w ≤ getYval u
  distinct : (L.map getFrom).Nodup

/-- The data that `split(lb, ub)` finds. -/
structure SingleSorted (D : DataSet V) (Y tos : Nat → Nat → Nat) (lb ub : Nat) : Prop where
  column : ∀ j < D.m, Column D j (seg (Y j) lb ub)
  /-- Every feature has the same rows here. -/
  froms : ∀ j < D.m, ∀ k < D.m, ∀ r,
    r ∈ (seg (Y j) lb ub).map getFrom ↔ r ∈ (seg (Y k) lb ub).map getFrom
  place : ∀ j < D.m, ∀ i, lb ≤ i → i < ub → tos j (getFrom (Y j i)) = i

theorem Words.subset {L L' : List Nat} (h : Words D j L) (hs : L' ⊆ L) : Words D j L' where
  row_lt w hw := h.row_lt w (hs hw)
  goal w hw := h.goal w (hs hw)
  coding w hw u hu := h.coding w (hs hw) u (hs hu)

theorem Column.sublist {L L' : List Nat} (h : Column D j L) (hs : L'.Sublist L) :
    Column D j L' where
  toWords := h.toWords.subset hs.subset
  sorted := h.sorted.sublist hs
  distinct := h.distinct.sublist (hs.map getFrom)

/-! ## the code of a value -/

/-- How many values are smaller. -/
def rank (S : Finset V) (v : V) : Nat := (S.filter (· < v)).card

theorem rank_lt_rank {S : Finset V} {u v : V} (hu : u ∈ S) (h : u < v) : rank S u < rank S v := by
  refine Finset.card_lt_card ⟨fun x hx => ?_, fun hsub => ?_⟩
  · rw [Finset.mem_filter] at hx ⊢
    exact ⟨hx.1, hx.2.trans h⟩
  · have := hsub (Finset.mem_filter.mpr ⟨hu, h⟩)
    exact absurd (Finset.mem_filter.mp this).2 (lt_irrefl u)

theorem rank_le_rank_iff {S : Finset V} {u v : V} (hu : u ∈ S) (hv : v ∈ S) :
    rank S u ≤ rank S v ↔ u ≤ v := by
  constructor
  · intro h
    by_contra hlt
    exact absurd (rank_lt_rank hv (not_le.mp hlt)) (by omega)
  · intro h
    rcases h.lt_or_eq with hlt | rfl
    · exact (rank_lt_rank hu hlt).le
    · exact le_rfl

theorem rank_lt_card {S : Finset V} {v : V} (hv : v ∈ S) : rank S v < S.card := by
  refine Finset.card_lt_card ⟨Finset.filter_subset _ _, fun hsub => ?_⟩
  exact absurd (Finset.mem_filter.mp (hsub hv)).2 (lt_irrefl v)

/-- The next larger value has the next rank. -/
theorem rank_next {S : Finset V} {u v : V} (hu : u ∈ S) (huv : u < v)
    (hnext : ∀ x ∈ S, u < x → v ≤ x) : rank S v = rank S u + 1 := by
  have heq : S.filter (· < v) = insert u (S.filter (· < u)) := by
    ext x
    rw [Finset.mem_filter, Finset.mem_insert, Finset.mem_filter]
    constructor
    · rintro ⟨hx, hlt⟩
      rcases lt_trichotomy x u with h | h | h
      · exact .inr ⟨hx, h⟩
      · exact .inl h
      · exact absurd (hnext x hx h) (not_le.mpr hlt)
    · rintro (rfl | ⟨hx, hlt⟩)
      · exact ⟨hu, huv⟩
      · exact ⟨hx, hlt.trans huv⟩
  rw [rank, heq, Finset.card_insert_of_notMem (by simp), rank]

/-- Sorted values, from a value on, are coded by their ranks. -/
theorem encode_eq_map {S : Finset V} {C : List (CompKey V)} (xval : V)
    (hC : ∀ c ∈ C, c.xval ∈ S ∧ xval ≤ c.xval) (hs : C.Pairwise fun a b => a.xval ≤ b.xval)
    (hx : xval ∈ S) (hall : ∀ x ∈ S, xval < x → ∃ c ∈ C, c.xval = x) :
    encode C xval (1 + rank S xval) =
      C.map fun c => mkCompVal c.idx c.g (1 + rank S c.xval) := by
  induction C generalizing xval with
  | nil => rfl
  | cons c C ih =>
    rw [List.pairwise_cons] at hs
    have hc := hC c (List.mem_cons_self ..)
    have hrest : ∀ d ∈ C, d.xval ∈ S ∧ c.xval ≤ d.xval := fun d hd =>
      ⟨(hC d (List.mem_cons_of_mem _ hd)).1, hs.1 d hd⟩
    by_cases hne : c.xval = xval
    · rw [encode, if_neg (not_not.mpr hne), List.map_cons, hne]
      congr 1
      refine ih _ (fun d hd => hne ▸ hrest d hd) hs.2 hx fun x hxS hlt => ?_
      obtain ⟨d, hd, rfl⟩ := hall x hxS hlt
      rcases List.mem_cons.mp hd with rfl | hd
      · exact absurd hne hlt.ne'
      · exact ⟨d, hd, rfl⟩
    · have hlt : xval < c.xval := lt_of_le_of_ne hc.2 (Ne.symm hne)
      have hnext : rank S c.xval = rank S xval + 1 := by
        refine rank_next hx hlt fun x hxS hgt => ?_
        obtain ⟨d, hd, rfl⟩ := hall x hxS hgt
        rcases List.mem_cons.mp hd with rfl | hd
        · exact le_rfl
        · exact hs.1 d hd
      rw [encode, if_pos hne, List.map_cons, hnext, ← Nat.add_assoc]
      congr 1
      rw [Nat.add_assoc, ← hnext]
      refine ih _ hrest hs.2 hc.1 fun x hxS hgt => ?_
      obtain ⟨d, hd, rfl⟩ := hall x hxS (hlt.trans hgt)
      rcases List.mem_cons.mp hd with rfl | hd
      · exact absurd rfl hgt.ne
      · exact ⟨d, hd, rfl⟩

theorem encodeAll_eq_map {S : Finset V} {C : List (CompKey V)}
    (hs : C.Pairwise fun a b => a.xval ≤ b.xval) (hS : ∀ x, x ∈ S ↔ ∃ c ∈ C, c.xval = x) :
    encodeAll C = C.map fun c => mkCompVal c.idx c.g (1 + rank S c.xval) := by
  cases C with
  | nil => rfl
  | cons c C =>
    rw [List.pairwise_cons] at hs
    have hmin : ∀ x ∈ S, c.xval ≤ x := by
      intro x hx
      obtain ⟨d, hd, rfl⟩ := (hS x).mp hx
      rcases List.mem_cons.mp hd with rfl | hd
      · exact le_rfl
      · exact hs.1 d hd
    have hzero : rank S c.xval = 0 := by
      rw [rank, Finset.card_eq_zero, Finset.filter_eq_empty_iff]
      exact fun x hx => not_lt.mpr (hmin x hx)
    have hfirst := encode_eq_map c.xval
      (fun d hd => ⟨(hS _).mpr ⟨d, List.mem_cons_of_mem _ hd, rfl⟩, hs.1 d hd⟩) hs.2
      ((hS _).mpr ⟨c, List.mem_cons_self .., rfl⟩) fun x hx hgt => by
        obtain ⟨d, hd, rfl⟩ := (hS x).mp hx
        rcases List.mem_cons.mp hd with rfl | hd
        · exact absurd rfl hgt.ne
        · exact ⟨d, hd, rfl⟩
    rw [hzero] at hfirst
    rw [encodeAll, List.map_cons, hzero, ← hfirst]

/-! ## one feature -/

/-- The values of feature `j`. -/
def values (D : DataSet V) (j : Nat) : Finset V := (Finset.range D.n).image (D.X j)

/-- The word of a row. -/
def wordOf (D : DataSet V) (j r : Nat) : Nat :=
  mkCompVal r (D.g r) (1 + rank (values D j) (D.X j r))

/-- The rows in the order of feature `j`. -/
def order (D : DataSet V) (qs : Qsort V) (j : Nat) : List Nat :=
  (qs.sort (compKeys D j)).map CompKey.idx

theorem order_perm : (order D qs j).Perm (List.range D.n) := by
  refine ((qs.perm (compKeys D j)).map CompKey.idx).trans ?_
  rw [compKeys, List.map_map]
  exact List.Perm.of_eq (List.map_id _)

theorem mem_values {r : Nat} (hr : r < D.n) : D.X j r ∈ values D j :=
  Finset.mem_image.mpr ⟨r, Finset.mem_range.mpr hr, rfl⟩

theorem yval_lt (hj : j < D.m) {r : Nat} (hr : r < D.n) :
    1 + rank (values D j) (D.X j r) < 2 ^ 31 := by
  have h1 := rank_lt_card (mem_values (j := j) hr)
  have h2 : (values D j).card < 2 ^ 31 := D.values_lt j hj
  omega

theorem getFrom_wordOf (hj : j < D.m) {r : Nat} (hr : r < D.n) : getFrom (wordOf D j r) = r :=
  getFrom_mkCompVal (D.g_le r hr) (yval_lt hj hr)

/-- A key that is sorted comes from its row. -/
theorem mem_compKeys {c : CompKey V} (hc : c ∈ qs.sort (compKeys D j)) :
    c.idx < D.n ∧ c.xval = D.X j c.idx ∧ c.g = D.g c.idx := by
  have hmem := (qs.perm _).mem_iff.mp hc
  simp only [compKeys, List.mem_map, List.mem_range] at hmem
  obtain ⟨i, hi, rfl⟩ := hmem
  exact ⟨hi, rfl, rfl⟩

theorem encodeAll_eq : encodeAll (qs.sort (compKeys D j)) = (order D qs j).map (wordOf D j) := by
  rw [encodeAll_eq_map (S := values D j) (qs.sorted _), order, List.map_map]
  · refine List.map_congr_left fun c hc => ?_
    obtain ⟨-, hx, hg⟩ := mem_compKeys hc
    simp only [Function.comp, wordOf, hx, hg]
  · intro x
    simp only [values, Finset.mem_image, Finset.mem_range]
    constructor
    · rintro ⟨r, hr, rfl⟩
      refine ⟨⟨D.X j r, r, D.g r⟩, (qs.perm _).mem_iff.mpr ?_, rfl⟩
      exact List.mem_map.mpr ⟨r, List.mem_range.mpr hr, rfl⟩
    · rintro ⟨c, hc, rfl⟩
      obtain ⟨hlt, hx, -⟩ := mem_compKeys hc
      exact ⟨c.idx, hlt, hx.symm⟩

theorem words_map_wordOf (hj : j < D.m) (hL : ∀ r ∈ L, r < D.n) :
    Words D j (L.map (wordOf D j)) where
  row_lt w hw := by
    obtain ⟨r, hr, rfl⟩ := List.mem_map.mp hw
    rw [getFrom_wordOf hj (hL r hr)]
    exact hL r hr
  goal w hw := by
    obtain ⟨r, hr, rfl⟩ := List.mem_map.mp hw
    rw [getFrom_wordOf hj (hL r hr)]
    exact getGoal_mkCompVal (D.g_le r (hL r hr)) (yval_lt hj (hL r hr))
  coding w hw u hu := by
    obtain ⟨r, hr, rfl⟩ := List.mem_map.mp hw
    obtain ⟨t, ht, rfl⟩ := List.mem_map.mp hu
    rw [getFrom_wordOf hj (hL r hr), getFrom_wordOf hj (hL t ht), wordOf, wordOf,
      getYval_mkCompVal (D.g_le r (hL r hr)) (yval_lt hj (hL r hr)),
      getYval_mkCompVal (D.g_le t (hL t ht)) (yval_lt hj (hL t ht)), Nat.add_le_add_iff_left]
    exact rank_le_rank_iff (mem_values (hL r hr)) (mem_values (hL t ht))

theorem map_getFrom_wordOf (hj : j < D.m) (hL : ∀ r ∈ L, r < D.n) :
    (L.map (wordOf D j)).map getFrom = L := by
  rw [List.map_map]
  conv_rhs => rw [← List.map_id L]
  exact List.map_congr_left fun r hr => getFrom_wordOf hj (hL r hr)

theorem mem_order {r : Nat} : r ∈ order D qs j ↔ r < D.n :=
  order_perm.mem_iff.trans List.mem_range

/-- The words in the order of the sort. -/
theorem column_order (hj : j < D.m) : Column D j ((order D qs j).map (wordOf D j)) where
  toWords := words_map_wordOf hj fun _ hr => mem_order.mp hr
  sorted := by
    rw [List.pairwise_map]
    have hs : (order D qs j).Pairwise fun r t => D.X j r ≤ D.X j t := by
      rw [order, List.pairwise_map]
      refine (qs.sorted (compKeys D j)).imp_of_mem fun ha hb h => ?_
      rwa [(mem_compKeys ha).2.1, (mem_compKeys hb).2.1] at h
    refine hs.imp_of_mem fun {r t} ha hb h => ?_
    have hr := mem_order.mp ha
    have ht := mem_order.mp hb
    rw [wordOf, wordOf, getYval_mkCompVal (D.g_le r hr) (yval_lt hj hr),
      getYval_mkCompVal (D.g_le t ht) (yval_lt hj ht), Nat.add_le_add_iff_left]
    exact (rank_le_rank_iff (mem_values hr) (mem_values ht)).mpr h
  distinct := by
    rw [map_getFrom_wordOf hj fun _ hr => mem_order.mp hr]
    exact order_perm.nodup_iff.mpr List.nodup_range

/-- What is stored at the place of each row. -/
theorem fillTo_spec {Yj : Nat → Nat} (tos : Nat → Nat) {is : List Nat} (hlt : ∀ i ∈ is, getFrom (Yj i) < n) :
    ∃ tos', fillTo n Yj is tos = some tos' ∧
      (∀ r, r ∉ is.map (fun i => getFrom (Yj i)) → tos' r = tos r) ∧
      ((is.map fun i => getFrom (Yj i)).Nodup → ∀ i ∈ is, tos' (getFrom (Yj i)) = i) := by
  induction is generalizing tos with
  | nil => exact ⟨tos, rfl, fun _ _ => rfl, fun _ i hi => absurd hi List.not_mem_nil⟩
  | cons k is ih =>
    obtain ⟨tos', hrun, hkeep, hput⟩ :=
      ih (Function.update tos (getFrom (Yj k)) k)
        fun i hi => hlt i (List.mem_cons_of_mem _ hi)
    have hk := hlt k (List.mem_cons_self ..)
    refine ⟨tos', by rw [fillTo, if_neg (by omega), hrun], fun r hr => ?_, fun hnd i hi => ?_⟩
    · rw [List.map_cons, List.mem_cons, not_or] at hr
      rw [hkeep r hr.2, Function.update_of_ne hr.1]
    · rw [List.map_cons, List.nodup_cons] at hnd
      rcases List.mem_cons.mp hi with rfl | hi
      · rw [hkeep _ hnd.1, Function.update_self]
      · exact hput hnd.2 i hi

/-- A list that is read back from its entries. -/
theorem seg_getD : seg (fun i => L.getD i 0) 0 L.length = L := by
  refine List.ext_getElem (by simp) fun i h1 h2 => ?_
  rw [getElem_seg h1, Nat.zero_add, List.getD_eq_getElem _ _ h2]

/-- What `preproc_j` leaves of feature `j`. -/
structure Prepares (D : DataSet V) (j : Nat) (Yj tos : Nat → Nat) : Prop where
  column : Column D j (seg Yj 0 D.n)
  rows : ∀ r, r ∈ (seg Yj 0 D.n).map getFrom ↔ r < D.n
  place : ∀ i < D.n, tos (getFrom (Yj i)) = i

theorem preprocJ_debug (h : cfg.isDebug = true) {junk : Nat → Nat} :
    preprocJ D qs cfg junk j = none := by
  simp [preprocJ, h]

theorem preprocJ_spec (h : cfg.isDebug = false) (hj : j < D.m) (junk : Nat → Nat) :
    ∃ Yj tos, preprocJ D qs cfg junk j = some (Yj, tos) ∧ Prepares D j Yj tos := by
  set words := encodeAll (qs.sort (compKeys D j)) with hwords
  have hmap : words = (order D qs j).map (wordOf D j) := encodeAll_eq
  have hlen : words.length = D.n := by
    rw [hmap, List.length_map, order_perm.length_eq, List.length_range]
  set Yj : Nat → Nat := fun i => words.getD i 0 with hYj
  have hseg : seg Yj 0 D.n = words := by rw [← hlen, hYj, seg_getD]
  have hcol : Column D j (seg Yj 0 D.n) := by
    rw [hseg, hmap]
    exact column_order hj
  have hrows : (seg Yj 0 D.n).map getFrom = order D qs j := by
    rw [hseg, hmap, map_getFrom_wordOf hj fun _ hr => mem_order.mp hr]
  obtain ⟨tos, hrun, -, hput⟩ := fillTo_spec junk fun i (hi : i ∈ List.range D.n) =>
    hcol.row_lt _ (mem_seg_of (Nat.zero_le i) (List.mem_range.mp hi))
  have hfroms : (List.range D.n).map (fun i => getFrom (Yj i)) = (seg Yj 0 D.n).map getFrom := by
    rw [seg, List.map_map, Nat.sub_zero, List.range_eq_range']
    rfl
  refine ⟨Yj, tos, ?_, hcol, fun r => ?_, fun i hi => ?_⟩
  · simp only [preprocJ, ← hwords, ← hYj, hrun, h, Option.bind_some, Bool.false_eq_true, if_false]
  · rw [hrows, mem_order]
  · exact hput (hfroms ▸ hcol.distinct) i (List.mem_range.mpr hi)

/-! ## every feature -/

theorem preprocAll_spec (D : DataSet V) (qs : Qsort V) (h : cfg.isDebug = false) (junk : Nat → Nat → Nat) {js : List Nat}
    (hjs : ∀ j ∈ js, j < D.m) {p : (Nat → Nat → Nat) × (Nat → Nat → Nat)} :
    ∃ q, preprocAll D qs cfg junk js p = some q ∧
      ∀ j, Prepares D j (p.1 j) (p.2 j) ∨ j ∈ js → Prepares D j (q.1 j) (q.2 j) := by
  induction js generalizing p with
  | nil => exact ⟨p, rfl, fun j hj => hj.resolve_right List.not_mem_nil⟩
  | cons k js ih =>
    obtain ⟨Yk, tk, hrun, hprep⟩ := preprocJ_spec h (hjs k (List.mem_cons_self ..))
      (junk k)
    obtain ⟨q, hq, hall⟩ :=
      ih (p := (Function.update p.1 k Yk, Function.update p.2 k tk))
        fun j hj => hjs j (List.mem_cons_of_mem _ hj)
    refine ⟨q, by rw [preprocAll, hrun, Option.bind_some, hq], fun j hj => hall j ?_⟩
    by_cases hjk : j = k
    · left
      simpa only [hjk, Function.update_self] using hprep
    · simp only [Function.update_of_ne hjk]
      exact hj.imp_right fun hm => (List.mem_cons.mp hm).resolve_left hjk

/-- How many of some words have goal 0 and how many have goal 1. -/
def tails (L : List Nat) : Nat := L.countP (getGoal · = 0)
def heads (L : List Nat) : Nat := L.countP (getGoal · ≠ 0)

theorem tails_add_heads : tails L + heads L = L.length := by
  rw [tails, heads, List.length_eq_countP_add_countP (fun w => decide (getGoal w = 0))]
  simp

theorem preproc_debug (h : cfg.isDebug = true) {junk : Nat → Nat → Nat} :
    preproc D qs cfg junk = none := by
  have hm : List.range D.m = 0 :: (List.range (D.m - 1)).map Nat.succ := by
    rw [← List.range_succ_eq_map, Nat.sub_add_cancel D.m_pos]
  rw [preproc, hm, preprocAll, preprocJ_debug h, Option.bind_none, Option.bind_none]

theorem isDebug_of_preproc {junk : Nat → Nat → Nat} {p : Prepared}
    (hp : preproc D qs cfg junk = some p) : cfg.isDebug = false := by
  cases hd : cfg.isDebug with
  | false => rfl
  | true =>
      rw [preproc_debug hd] at hp
      cases hp

/-- `preproc` succeeds, and what it hands to the first call. -/
theorem preproc_spec (D : DataSet V) (qs : Qsort V) (h : cfg.isDebug = false)
    (junk : Nat → Nat → Nat) :
    ∃ p, preproc D qs cfg junk = some p ∧ SingleSorted D p.Y p.tos 0 D.n ∧
      (∀ j < D.m, ∀ r, r ∈ (seg (p.Y j) 0 D.n).map getFrom ↔ r < D.n) ∧
      p.nT + p.nH = D.n ∧ ∀ j < D.m, p.nH = heads (seg (p.Y j) 0 D.n) := by
  obtain ⟨q, hq, hall⟩ := preprocAll_spec D qs h junk
    (fun j hj => List.mem_range.mp hj) (p := (junk, junk))
  have hprep : ∀ j < D.m, Prepares D j (q.1 j) (q.2 j) := fun j hj =>
    hall j (.inr (List.mem_range.mpr hj))
  have hheads : ∀ j < D.m, ((List.range D.n).map D.g).sum = heads (seg (q.1 j) 0 D.n) := by
    intro j hj
    have hperm : ((seg (q.1 j) 0 D.n).map getFrom).Perm (List.range D.n) := by
      refine (List.perm_ext_iff_of_nodup (hprep j hj).column.distinct List.nodup_range).mpr ?_
      exact fun r => ((hprep j hj).rows r).trans List.mem_range.symm
    have hsum : ∀ L : List Nat, (∀ w ∈ L, getGoal w = D.g (getFrom w)) →
        (∀ w ∈ L, getFrom w < D.n) → ((L.map getFrom).map D.g).sum = heads L := by
      intro L hgoal hlt
      induction L with
      | nil => rfl
      | cons w L ih =>
        have hw := D.g_le _ (hlt w (List.mem_cons_self ..))
        rw [← hgoal w (List.mem_cons_self ..)] at hw
        rw [List.map_cons, List.map_cons, List.sum_cons, heads, List.countP_cons,
          ih (fun u hu => hgoal u (List.mem_cons_of_mem _ hu))
            fun u hu => hlt u (List.mem_cons_of_mem _ hu), ← hgoal w (List.mem_cons_self ..), heads]
        by_cases h0 : getGoal w = 0
        · simp [h0]
        · have h1 : getGoal w = 1 := by omega
          simp [h1, Nat.add_comm]
    rw [← hsum _ (hprep j hj).column.goal (hprep j hj).column.row_lt]
    exact ((hperm.map D.g).sum_eq).symm
  refine ⟨⟨q.1, q.2, D.n - ((List.range D.n).map D.g).sum, ((List.range D.n).map D.g).sum⟩,
    ?_, ⟨fun j hj => (hprep j hj).column, fun j hj k hk r => ?_,
    fun j hj i _ hi => (hprep j hj).place i hi⟩, fun j hj => (hprep j hj).rows, ?_, hheads⟩
  · simp only [preproc, hq, h, Option.bind_some, Bool.false_and, Bool.false_eq_true, if_false]
  · exact ((hprep j hj).rows r).trans ((hprep k hk).rows r).symm
  · refine Nat.sub_add_cancel ?_
    rw [hheads 0 D.m_pos]
    exact (List.countP_le_length).trans (by simp)

end QStore.Dt
