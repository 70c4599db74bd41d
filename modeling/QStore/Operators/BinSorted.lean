import QStore.Operators.BinPlace

/-!
# QStore.Operators.BinSorted

The three operators of the parallel sort one after the other: when they return the values
sorted, bin by bin.
-/

namespace QStore.Operators.BinSort

open Bins ByKey Scatter

variable {α : Type} [LinearOrder α] {a : BinSort α}

/-! ## par_sort -/

/-- Sorting the bins one after the other. -/
theorem foldlM_sortBin (cnt : List Nat) (pre rest : List α) (h : cnt.sum = rest.length) :
    ((offsets pre.length cnt).zip cnt).foldlM a.sortBin (pre ++ rest) =
      some (pre ++ (List.range cnt.length).flatMap fun b =>
        a.qsort ((rest.drop (base cnt b)).take (cnt.getD b 0))) := by
  induction cnt generalizing pre rest with
  | nil =>
      have hnil : rest = [] := by simpa using h.symm
      simp [offsets, hnil]
  | cons c cnt ih =>
      rw [List.sum_cons] at h
      have hc : c ≤ rest.length := by omega
      have hsort : a.sortBin (pre ++ rest) (pre.length, c) =
          some ((pre ++ a.qsort (rest.take c)) ++ rest.drop c) := by
        have hle : pre.length + c ≤ (pre ++ rest).length := by
          rw [List.length_append]
          omega
        rw [sortBin, if_pos hle]
        simp [List.drop_append]
      have hlen : (pre ++ a.qsort (rest.take c)).length = pre.length + c := by
        rw [List.length_append, (a.perm_qsort _).length_eq, List.length_take]
        omega
      have hrest := ih (pre ++ a.qsort (rest.take c)) (rest.drop c) (by
        rw [List.length_drop]
        omega)
      rw [hlen] at hrest
      rw [offsets, List.zip_cons_cons, List.foldlM_cons, hsort, Option.bind_eq_bind,
        Option.bind_some, hrest, List.length_cons, List.range_succ_eq_map]
      simp [base, List.flatMap_map, List.drop_drop]

theorem zip_offsets (cnt : List Nat) :
    (offsets 0 cnt).zip cnt = (List.range cnt.length).map fun b => (base cnt b, cnt.getD b 0) := by
  apply List.ext_getElem?
  intro b
  by_cases hb : b < cnt.length
  · have hzip : ((offsets 0 cnt).zip cnt)[b]? = some (base cnt b, cnt[b]) := by
      rw [List.getElem?_zip_eq_some, getElem?_offsets, if_pos hb]
      simp [hb]
    rw [hzip]
    simp [hb]
  · have hlen : ((offsets 0 cnt).zip cnt).length ≤ b := by
      rw [List.length_zip]
      omega
    rw [List.getElem?_eq_none hlen]
    simp [hb]

/-- The specializer's check, for more than one bin: the global `n` is there and no less than the
number of values. -/
theorem all_tail_iff {cnt : List Nat} (h : 2 ≤ cnt.length) :
    ((offsets 0 cnt).zip cnt).tail.all (fun p => a.globalN.any fun n => p.1 + p.2 ≤ n) = true ↔
      ∃ n, a.globalN = some n ∧ cnt.sum ≤ n := by
  obtain ⟨m, hm⟩ : ∃ m, cnt.length = m + 2 := ⟨cnt.length - 2, by omega⟩
  have hends : ∀ b, base cnt b + cnt.getD b 0 ≤ cnt.sum := fun b => (blocks_base cnt).inside b
  have hlast : base cnt (m + 1) + cnt.getD (m + 1) 0 = cnt.sum := by
    rw [← base_succ, base, List.take_of_length_le (by omega)]
  rw [zip_offsets, hm, List.range_succ_eq_map, List.map_cons, List.tail_cons, List.map_map,
    List.all_map, List.all_eq_true]
  simp only [List.mem_range, Function.comp_apply, Option.any_eq_true, decide_eq_true_eq,
    Nat.succ_eq_add_one]
  constructor
  · intro hall
    obtain ⟨n, hn, hle⟩ := hall m (by omega)
    exact ⟨n, hn, by omega⟩
  · intro hglobal b _
    obtain ⟨n, hn, hle⟩ := hglobal
    have := hends (b + 1)
    exact ⟨n, hn, by omega⟩

/-- **par_sort**, once its check passes, sorts every bin. -/
theorem parSort_eq {cnt : List Nat} {X : List α} (h : 2 ≤ cnt.length) (hlen : cnt.sum = X.length)
    {n : Nat} (hglobal : a.globalN = some n) (hn : cnt.sum ≤ n) :
    a.parSort X cnt = some ((List.range cnt.length).flatMap fun b =>
      a.qsort ((X.drop (base cnt b)).take (cnt.getD b 0))) := by
  have hcheck := (all_tail_iff (a := a) h).mpr ⟨n, hglobal, hn⟩
  have hhead : (offsets 0 cnt).head? = some 0 := by
    cases cnt with
    | nil => simp at h
    | cons c cnt => simp [offsets]
  have hmono : (((offsets 0 cnt).zip (offsets 0 cnt).tail).any fun p => p.2 < p.1) = false := by
    rw [List.any_eq_false]
    intro p hp
    obtain ⟨b, hb⟩ := List.getElem?_of_mem hp
    rw [List.getElem?_zip_eq_some, List.getElem?_tail, getElem?_offsets, getElem?_offsets] at hb
    obtain ⟨h1, h2⟩ := hb
    rw [Option.ite_none_right_eq_some, Option.some.injEq, Nat.zero_add] at h1 h2
    have := base_mono cnt (by omega : b ≤ b + 1)
    simp only [decide_eq_true_eq, Nat.not_lt]
    omega
  have hsort := foldlM_sortBin (a := a) cnt [] X hlen
  rw [List.nil_append, List.length_nil, List.nil_append] at hsort
  simp only [parSort, hcheck, not_true_eq_false, if_false, hhead, ne_eq, hmono,
    Bool.false_eq_true]
  exact hsort

/-- Without the global there is no sort of more than one bin. -/
theorem of_parSort {cnt : List Nat} {X Y : List α} (h : 2 ≤ cnt.length)
    (hsort : a.parSort X cnt = some Y) : ∃ n, a.globalN = some n ∧ cnt.sum ≤ n := by
  rw [← all_tail_iff h]
  by_contra hcheck
  simp only [parSort, if_pos hcheck, reduceCtorEq] at hsort

/-! ## The three together -/

/-- What the three operators are to return: the number of values in each bin; the rows, with
those of each bin in its place and in the order of the input; the sorted values. -/
structure Returns (a : BinSort α) (cnt : List Nat) (placed : List (α × List UInt8))
    (sorted : List α) : Prop where
  counts : a.binCount = some (a.lb, a.ub, cnt)
  counts_length : cnt.length = a.nb
  counts_sum : cnt.sum = a.rows.elems.length
  counts_bin : ∀ b, b < a.nb →
    cnt.getD b 0 = (a.rows.elems.filter fun r => inBin a.edges b r.1).length
  places : a.binPlace cnt = some placed
  placed_perm : placed.Perm a.rows.elems
  placed_bin : ∀ b, b < a.nb → (placed.drop (base cnt b)).take (cnt.getD b 0) =
    a.rows.elems.filter fun r => inBin a.edges b r.1
  sorts : a.parSort (placed.map Prod.fst) cnt = some sorted
  sorted_perm : sorted.Perm (a.rows.elems.map Prod.fst)
  sorted_le : sorted.Pairwise (· ≤ ·)

def Right (a : BinSort α) : Prop := ∃ cnt placed sorted, a.Returns cnt placed sorted

/-- When they do: there are two bins or more, the vectors can be cloned, each bin of a row
belongs to a thread that the region has, and Lua has a global `n` that is no less than the number
of values. -/
structure Sound (a : BinSort α) : Prop where
  bins : a.y ≠ []
  cloned : a.Cloned
  team : ∀ k, ∀ r ∈ a.rows.getChunk k, ∀ b, inBin a.edges b r.1 → b % a.nProcs < a.team k
  globalN : ∃ n, a.globalN = some n ∧ a.rows.elems.length ≤ n

theorem rowsOf_key (a : BinSort α) (b : Nat) :
    rowsOf a.key b a.rows.elems = a.rows.elems.filter fun r => inBin a.edges b r.1 := by
  apply List.filter_congr
  intro r hr
  rw [Bool.eq_iff_iff, inBin_iff_binOf hr, decide_eq_true_eq, key]

theorem teamTakes_iff (a : BinSort α) (k : Nat) : a.TeamTakes k ↔
    ∀ r ∈ a.rows.getChunk k, ∀ b, inBin a.edges b r.1 → b % a.nProcs < a.team k := by
  constructor
  · intro h r hr b hb
    have hkey := (inBin_iff_binOf (mem_of_mem_getChunk hr)).mp hb
    rw [← hkey]
    exact h r hr
  · intro h r hr
    exact h r hr _ ((inBin_iff_binOf (mem_of_mem_getChunk hr)).mpr rfl)

theorem two_le_length_cnts (hy : a.y ≠ []) : 2 ≤ a.cnts.length := by
  have := List.length_pos_iff.mpr hy
  simp only [counts, List.length_map, List.length_range, nb]
  omega

/-- Sorting the bins of what has been placed sorts the values. -/
theorem sorted_bins {cnt : List Nat} {placed : List (α × List UInt8)} (hcnt : cnt.length = a.nb)
    (hperm : placed.Perm a.rows.elems) (hsum : cnt.sum = a.rows.elems.length)
    (hbins : ∀ b, b < a.nb → (placed.drop (base cnt b)).take (cnt.getD b 0) =
      a.rows.elems.filter fun r => inBin a.edges b r.1) :
    let sorted := (List.range cnt.length).flatMap fun b =>
      a.qsort (((placed.map Prod.fst).drop (base cnt b)).take (cnt.getD b 0))
    sorted.Perm (a.rows.elems.map Prod.fst) ∧ sorted.Pairwise (· ≤ ·) := by
  have hvalues : ∀ b, b < a.nb →
      ((placed.map Prod.fst).drop (base cnt b)).take (cnt.getD b 0) =
        (a.rows.elems.filter fun r => inBin a.edges b r.1).map Prod.fst := by
    intro b hb
    rw [← hbins b hb, List.map_take, List.map_drop]
  have hmem : ∀ b, b < a.nb → ∀ v ∈
      a.qsort (((placed.map Prod.fst).drop (base cnt b)).take (cnt.getD b 0)),
      inBin a.edges b v = true := by
    intro b hb v hv
    rw [(a.perm_qsort _).mem_iff, hvalues b hb] at hv
    obtain ⟨r, hr, rfl⟩ := List.mem_map.mp hv
    exact (List.mem_filter.mp hr).2
  intro sorted
  constructor
  · have hwhole := flatMap_blocks (base cnt) (fun b => cnt.getD b 0) (placed.map Prod.fst)
      cnt.length (by simp [base]) fun b _ => base_succ cnt b
    have hall : (placed.map Prod.fst).take (base cnt cnt.length) = placed.map Prod.fst := by
      apply List.take_of_length_le
      rw [base, List.take_length, List.length_map, hperm.length_eq, hsum]
    rw [hall] at hwhole
    calc
      sorted.Perm ((List.range cnt.length).flatMap fun b =>
          ((placed.map Prod.fst).drop (base cnt b)).take (cnt.getD b 0)) :=
        List.Perm.flatMap_left _ fun b _ => a.perm_qsort _
      _ = placed.map Prod.fst := hwhole
      List.Perm _ (a.rows.elems.map Prod.fst) := hperm.map _
  · apply pairwise_flatMap
    · intro b _
      exact a.sorted_qsort _
    · intro b c hbc hc v hv w hw
      exact (lt_of_inBin a.edges_lt (hmem b (by omega) v hv) (hmem c (by omega) w hw) hbc).le

/-- A pipeline that is sound returns what it is to. -/
theorem Sound.right (hfit : a.width * a.rows.maxNumInChunk < 2 ^ 32)
    (hauxfit : a.auxWidth * a.rows.maxNumInChunk < 2 ^ 32) (h : a.Sound) : a.Right := by
  have hteam : ∀ k, a.TeamTakes k := fun k => (teamTakes_iff a k).mpr (h.team k)
  have haux : a.AuxRight := auxRight_of_le a (by rw [Nat.mul_comm]; exact hauxfit.le)
  obtain ⟨K, placed, hplace, hlen, hK, hblocks⟩ := binPlace_eq hfit h.cloned hteam
  obtain ⟨n, hglobal, hn⟩ := h.globalN
  have hcnt : a.cnts.length = a.nb := by simp [counts]
  have hrows : ∀ b, (placed.drop (base a.cnts b)).take (a.cnts.getD b 0) =
      rowsOf a.key b a.rows.elems := by
    intro b
    have hcell : (rowsOf Item.bin b (a.allItems K)).map Item.cell =
        (rowsOf Item.bin b (a.allItems K)).map Item.row := by
      apply List.map_congr_left
      intro x hx
      exact (auxRight_iff hK).mp haux x (List.mem_filter.mp hx).1
    rw [hblocks, hcell, map_row_rowsOf, List.take_of_length_le hK]
  have hbins : ∀ b, b < a.nb → (placed.drop (base a.cnts b)).take (a.cnts.getD b 0) =
      a.rows.elems.filter fun r => inBin a.edges b r.1 := by
    intro b _
    rw [hrows, rowsOf_key]
  have hperm : placed.Perm a.rows.elems := by
    have hwhole := flatMap_blocks (base a.cnts) (fun b => a.cnts.getD b 0) placed a.nb
      (by simp [base]) fun b _ => base_succ a.cnts b
    have hall : placed.take (base a.cnts a.nb) = placed := by
      apply List.take_of_length_le
      rw [base, ← hcnt, List.take_length, sum_cnts, hlen]
    rw [hall] at hwhole
    rw [← hwhole]
    simp only [hrows]
    exact perm_byBin fun r hr => binOf_lt hr
  have hsort := parSort_eq (a := a) (X := placed.map Prod.fst) (two_le_length_cnts h.bins)
    (by rw [sum_cnts, List.length_map, hlen]) hglobal (by rw [sum_cnts]; exact hn)
  obtain ⟨hsperm, hsorted⟩ := sorted_bins hcnt hperm (sum_cnts a) hbins
  exact ⟨a.cnts, placed, _,
    { counts := binCount_eq h.bins
      counts_length := hcnt
      counts_sum := sum_cnts a
      counts_bin := fun b _ => by rw [getD_counts, rowsOf_key]
      places := hplace
      placed_perm := hperm
      placed_bin := hbins
      sorts := hsort
      sorted_perm := hsperm
      sorted_le := hsorted }⟩

/-- A pipeline that returns what it is to is sound. -/
theorem Right.sound (hfit : a.width * a.rows.maxNumInChunk < 2 ^ 32) (h : a.Right) : a.Sound := by
  obtain ⟨cnt, placed, sorted, h⟩ := h
  have hy : a.y ≠ [] := by
    intro hy
    have := h.counts
    simp [binCount_nil hy] at this
  have hcnt : cnt = a.cnts := by
    have := h.counts
    rw [binCount_eq hy] at this
    simpa using this.symm
  subst hcnt
  obtain ⟨hcloned, hteam⟩ := of_binPlace hfit h.places
  have hglobal := of_parSort (two_le_length_cnts hy) h.sorts
  rw [sum_cnts] at hglobal
  exact ⟨hy, hcloned, fun k => (teamTakes_iff a k).mp (hteam k), hglobal⟩

/-- Counting, placing and sorting works exactly where it is sound. The two bounds are those under
which a linear file can be read in chunks. -/
theorem binSort_iff (a : BinSort α) (hfit : a.width * a.rows.maxNumInChunk < 2 ^ 32)
    (hauxfit : a.auxWidth * a.rows.maxNumInChunk < 2 ^ 32) : a.Right ↔ a.Sound :=
  ⟨Right.sound hfit, Sound.right hfit hauxfit⟩

/-- Two full chunks of 64 values, with a byte beside each. -/
def twoChunks : LVector (Nat × List UInt8) where
  elems := (List.range 128).map fun i => (7 * i % 10, [UInt8.ofNat i])
  maxNumInChunk := 64
  pos := sixtyFour_pos

theorem binNum_two {v : Nat} (h : v < 10) :
    binNum (0 :: [5]) ([5] ++ [10]) v = some (if v < 5 then 0 else 1) := by
  have hin : ¬ 10 < v := by omega
  by_cases hv : v < 5
  · simp [binNum, search, maxNumProbes, hv, hin]
  · simp [binNum, search, maxNumProbes, hv, hin, h, Nat.le_of_not_lt hv]

theorem fst_lt_of_mem_twoChunks {r : Nat × List UInt8} (h : r ∈ twoChunks.elems) : r.1 < 10 := by
  obtain ⟨i, _, rfl⟩ := List.mem_map.mp h
  exact Nat.mod_lt _ (by decide)

/-- One thread places the values as they come. -/
theorem interleaves_twoChunks (k : Nat) :
    Interleaves (threadNum (0 :: [5]) ([5] ++ [10]) 1 (twoChunks.getChunk k))
      (twoChunks.getChunk k).length 1 (List.range (twoChunks.getChunk k).length) where
  only i hi := by
    have hi' := List.mem_range.mp hi
    have hmem := List.mem_of_mem_drop (List.mem_of_mem_take (List.getElem_mem hi'))
    have hlt := fst_lt_of_mem_twoChunks hmem
    refine ⟨0, Nat.one_pos, ?_⟩
    rw [threadNum, List.getElem?_eq_getElem hi', Option.bind_some, binNum_two hlt]
    simp [Nat.mod_one]
  own _ _ := rfl

theorem fourBytes_pos : 0 < 4 := by decide

/-- They are to lie in two bins. There is one processor, and Lua has a global `n`. -/
def twoBins (stored : Stored) : BinSort Nat where
  rows := twoChunks
  width := 4
  x := stored
  lmaBefore := false
  others := 0
  auxWidth := 1
  aux := stored
  dskLeft := 640
  floor := 0
  ceil := 10
  y := [5]
  nProcs := 1
  team _ := 1
  order k := List.range (twoChunks.getChunk k).length
  globalN := some 128
  qsort xs := xs.mergeSort (· ≤ ·)
  rows_ne := by simp [twoChunks]
  width_pos := fourBytes_pos
  numbered := by simp [twoChunks]
  aux_length := by simp [twoChunks]
  bounds := by simp
  covers r hr := ⟨Nat.zero_le _, fst_lt_of_mem_twoChunks hr⟩
  nProcs_pos := Nat.one_pos
  interleaves := interleaves_twoChunks
  perm_qsort xs := List.mergeSort_perm xs _
  sorted_qsort xs := by
    have h : (xs.mergeSort fun x y => decide (x ≤ y)).Pairwise fun x y => decide (x ≤ y) = true :=
      List.pairwise_mergeSort (by simpa using fun x y z => Nat.le_trans)
        (by simpa using Nat.le_total) xs
    simpa using h

/-- With linear files that have been made since they were counted, they are sorted. -/
theorem binSort_iff_twoBins : (twoBins ⟨true, false, 1⟩).Right := by
  have hcloned : (twoBins ⟨true, false, 1⟩).Cloned :=
    { x := ⟨rfl, rfl, by decide, by simp [twoBins, twoChunks], by simp [twoBins, twoChunks]⟩
      aux _ := ⟨rfl, rfl, by decide, by simp [twoBins, twoChunks], by simp [twoBins, twoChunks]⟩
      before := rfl
      others := rfl }
  exact (binSort_iff (twoBins ⟨true, false, 1⟩) (by decide) (by decide)).mpr
    { bins := by simp [twoBins]
      cloned := hcloned
      team := fun _ _ _ _ _ => Nat.mod_lt _ Nat.one_pos
      globalN := ⟨128, rfl, by simp [twoBins, twoChunks]⟩ }

/-- As chunks they are counted, and there is no placing them. -/
theorem binSort_fails : (∀ cnt, (twoBins ⟨false, false, 1⟩).binPlace cnt = none) ∧
    ¬ (twoBins ⟨false, false, 1⟩).Right := by
  constructor
  · intro cnt
    simp [binPlace, Stored.clones, twoBins]
  · intro h
    have hlma := (h.sound (by decide)).cloned.x.isLma
    simp [twoBins] at hlma

end QStore.Operators.BinSort
