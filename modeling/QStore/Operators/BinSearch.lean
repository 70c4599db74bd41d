import QStore.Operators.BinSort

/-!
# QStore.Operators.BinSearch

The search of `bin_count` and `bin_place` finds the bin of every value within
`max_num_probes`, so the counts are right.
-/

namespace QStore.Operators.BinSort

open Bins ByKey

variable {α : Type} [LinearOrder α] {a : BinSort α} {v : α} {b k : Nat}
  {chunk : List (α × List UInt8)}

/-! ## The search -/

theorem lt_two_pow_maxNumProbes (n : Nat) : n < 2 ^ maxNumProbes n := by
  induction n using Nat.strongRecOn with
  | ind n ih =>
      rw [maxNumProbes]
      split
      · next h =>
          have := ih (n / 2) (by omega)
          rw [Nat.pow_succ]
          omega
      · omega

/-- All bounds: those of a bin are next to each other. -/
def edges (a : BinSort α) : List α := a.floor :: (a.y ++ [a.ceil])

theorem edges_lt (a : BinSort α) : a.edges.Pairwise (· < ·) := a.bounds

theorem length_edges (a : BinSort α) : a.edges.length = a.nb + 1 := by
  simp [edges, nb]

theorem lb_eq (hb : b < a.nb) : a.lb[b]? = a.edges[b]? := by
  have hlen : b < (a.floor :: a.y).length := by simpa [nb] using hb
  rw [lb, edges, ← List.cons_append, List.getElem?_append_left hlen]

theorem ub_eq (b : Nat) : a.ub[b]? = a.edges[b + 1]? := by
  rw [ub, edges, List.getElem?_cons_succ]

theorem length_lb (a : BinSort α) : a.lb.length = a.nb := by
  simp [lb, nb]

/-- Between indices around its bin the search finds a value before it has probed too often:
each probe halves the distance. -/
theorem search_eq (hv : inBin a.edges k v = true) {fuel np l u : Nat} (hl : l ≤ k) (hu : k < u)
    (hnb : u ≤ a.nb) (hfuel : u - l ≤ fuel) (hnp : np ≤ maxNumProbes a.nb)
    (hhalf : (u - l - 1) * 2 ^ np < a.nb) : search a.lb a.ub v fuel np l u false = some k := by
  induction fuel generalizing np l u with
  | zero => omega
  | succ fuel ih =>
      have hlen := length_edges a
      have hmid : (l + u) / 2 < a.nb := by omega
      have hlo : a.lb[(l + u) / 2]? = some a.edges[(l + u) / 2] := by
        rw [lb_eq hmid, List.getElem?_eq_getElem]
      have hhi : a.ub[(l + u) / 2]? = some a.edges[(l + u) / 2 + 1] := by
        rw [ub_eq, List.getElem?_eq_getElem]
      have hbelow := lt_bound_iff a.edges_lt hv (b := (l + u) / 2) (by omega)
      have habove := lt_bound_iff a.edges_lt hv (b := (l + u) / 2 + 1) (by omega)
      have hprobes : decide (maxNumProbes a.lb.length < np) = false := by
        rw [length_lb]
        simpa using hnp
      -- after the last probe but one there is only one bin left
      have hlast : np = maxNumProbes a.nb → u - l - 1 = 0 := by
        intro h
        have hpow := lt_two_pow_maxNumProbes a.nb
        rw [← h] at hpow
        by_contra hne
        have : 1 * 2 ^ np ≤ (u - l - 1) * 2 ^ np := Nat.mul_le_mul_right _ (by omega)
        omega
      have hdouble : ∀ d, 2 * d ≤ u - l - 1 → d * 2 ^ (np + 1) < a.nb := by
        intro d hd
        have : 2 * d * 2 ^ np ≤ (u - l - 1) * 2 ^ np := Nat.mul_le_mul_right _ hd
        have heq : d * 2 ^ (np + 1) = 2 * d * 2 ^ np := by
          rw [Nat.pow_succ, Nat.mul_comm (2 ^ np) 2, ← Nat.mul_assoc, Nat.mul_comm d 2]
        omega
      simp only [search, hlo, hhi, hprobes, Bool.or_self, Bool.false_eq_true, if_false]
      by_cases hk : k = (l + u) / 2
      · have h1 : a.edges[(l + u) / 2] ≤ v := not_lt.mp fun h => by
          have := hbelow.mp h
          omega
        have h2 : v < a.edges[(l + u) / 2 + 1] := habove.mpr (by omega)
        simp [h1, h2, hk]
      · have hout : ¬ (a.edges[(l + u) / 2] ≤ v ∧ v < a.edges[(l + u) / 2 + 1]) := by
          intro h
          have h1 : ¬ k < (l + u) / 2 := fun hlt => absurd (hbelow.mpr hlt) (not_lt.mpr h.1)
          have h2 := habove.mp h.2
          omega
        rw [if_neg hout]
        by_cases hlt : k < (l + u) / 2
        · rw [if_pos (hbelow.mpr hlt)]
          have := hdouble ((l + u) / 2 - l - 1) (by omega)
          apply ih <;> omega
        · rw [if_neg fun h => hlt (hbelow.mp h)]
          have := hdouble (u - (l + u) / 2 - 1) (by omega)
          apply ih <;> omega

/-- Every value between the bounds is found in its bin. -/
theorem exists_binNum (hl : a.floor ≤ v) (hu : v < a.ceil) :
    ∃ k, k < a.nb ∧ inBin a.edges k v = true ∧ binNum a.lb a.ub v = some k := by
  have hlen := length_edges a
  have hfirst : a.edges[0] = a.floor := rfl
  have hlast : a.edges[a.nb] = a.ceil := by
    simp [edges, nb]
  obtain ⟨k, _, hk, hin⟩ := exists_inBin (B := a.edges) (b := 0) (c := a.nb) (v := v) (by omega)
    (by rw [nb]; omega) (by simpa only [List.get_eq_getElem, hfirst] using hl)
    (by simpa only [List.get_eq_getElem, hlast] using hu)
  have hoff : ((a.lb.head?.any fun l => v < l) || (a.ub.getLast?.any fun u => u < v)) = false := by
    simp [lb, ub, hl, hu.le]
  have hfound : search a.lb a.ub v a.nb 0 0 a.nb false = some k := by
    apply search_eq hin
    · omega
    · exact hk
    · omega
    · omega
    · omega
    · rw [nb]
      omega
  refine ⟨k, hk, hin, ?_⟩
  simp only [binNum, hoff, length_lb]
  exact hfound

/-- The bin of a value. -/
def binOf (a : BinSort α) (v : α) : Nat := (binNum a.lb a.ub v).getD 0

theorem binNum_eq {r : α × List UInt8} (hr : r ∈ a.rows.elems) :
    binNum a.lb a.ub r.1 = some (a.binOf r.1) := by
  obtain ⟨hl, hu⟩ := a.covers r hr
  obtain ⟨k, _, _, hk⟩ := exists_binNum hl hu
  rw [binOf, hk, Option.getD_some]

theorem binOf_lt {r : α × List UInt8} (hr : r ∈ a.rows.elems) : a.binOf r.1 < a.nb := by
  obtain ⟨hl, hu⟩ := a.covers r hr
  obtain ⟨k, hlt, _, hk⟩ := exists_binNum hl hu
  rw [binOf, hk, Option.getD_some]
  exact hlt

/-- A value lies in its bin and in no other. -/
theorem inBin_iff_binOf {r : α × List UInt8} (hr : r ∈ a.rows.elems) :
    inBin a.edges b r.1 = true ↔ a.binOf r.1 = b := by
  obtain ⟨hl, hu⟩ := a.covers r hr
  obtain ⟨k, _, hin, hk⟩ := exists_binNum hl hu
  rw [binOf, hk, Option.getD_some]
  constructor
  · intro h
    exact inBin_unique a.edges_lt hin h
  · intro h
    exact h ▸ hin

/-- The kernels' check of the bounds. -/
theorem badBounds_eq (a : BinSort α) : badBounds a.lb a.ub = false := by
  rw [badBounds, List.any_eq_false]
  intro p hp
  obtain ⟨i, hi⟩ := List.getElem?_of_mem hp
  rw [List.getElem?_zip_eq_some] at hi
  have hlen := length_edges a
  have hi' : i < a.nb := by
    rw [← length_lb]
    exact (List.getElem?_eq_some_iff.mp hi.1).1
  rw [lb_eq hi', ub_eq, List.getElem?_eq_getElem (by omega), List.getElem?_eq_getElem (by omega),
    Option.some.injEq, Option.some.injEq] at hi
  have hlt := List.pairwise_iff_getElem.mp a.edges_lt i (i + 1) (by omega) (by omega) (by omega)
  rw [hi.1, hi.2] at hlt
  simp [hlt]

/-! ## bin_count -/

/-- The bin of a row. -/
def key (a : BinSort α) (r : α × List UInt8) : Nat := a.binOf r.1

/-- How many rows each bin has. -/
def counts (a : BinSort α) (rows : List (α × List UInt8)) : List Nat :=
  (List.range a.nb).map fun b => (rowsOf a.key b rows).length

theorem modify_map_range (f : Nat → Nat) (n b : Nat) :
    ((List.range n).map f).modify b (· + 1) =
      (List.range n).map fun c => if c = b then f c + 1 else f c := by
  apply List.ext_getElem?
  intro c
  rw [List.getElem?_modify]
  by_cases hc : c < n
  · by_cases hbc : b = c
    · simp [hc, hbc]
    · simp [hc, hbc, Ne.symm hbc]
  · simp [hc]

/-- The counts add up to the number of rows. -/
theorem sum_counts {rows : List (α × List UInt8)} (h : ∀ r ∈ rows, r ∈ a.rows.elems) :
    (a.counts rows).sum = rows.length := by
  have hperm : (byBin a.key a.nb rows).Perm rows := perm_byBin fun r hr => binOf_lt (h r hr)
  rw [← hperm.length_eq, byBin, List.length_flatMap, counts]

/-- One chunk adds its rows to the counts. -/
theorem countKernel_eq {pre : List (α × List UInt8)} (hpre : ∀ r ∈ pre, r ∈ a.rows.elems)
    (hchunk : ∀ r ∈ chunk, r ∈ a.rows.elems) :
    a.countKernel chunk (a.counts pre) = some (a.counts (pre ++ chunk)) := by
  have hloop : chunk.foldlM (fun cnt r => (binNum a.lb a.ub r.1).map fun b =>
      cnt.modify b (· + 1)) (a.counts pre) = some (a.counts (pre ++ chunk)) := by
    clear hpre
    induction chunk generalizing pre with
    | nil => simp
    | cons r chunk ih =>
        have hone : (a.counts pre).modify (a.binOf r.1) (· + 1) = a.counts (pre ++ [r]) := by
          rw [counts, modify_map_range, counts]
          apply List.map_congr_left
          intro b _
          by_cases hb : a.binOf r.1 = b
          · simp [rowsOf, key, hb]
          · simp [rowsOf, key, hb, Ne.symm hb]
        have ih := @ih (pre ++ [r]) fun q hq => hchunk q (by simp [hq])
        rw [List.append_assoc, List.singleton_append] at ih
        rw [List.foldlM_cons, binNum_eq (hchunk r (by simp)), Option.map_some, hone]
        exact ih
  have hsum1 := sum_counts hpre
  have hsum2 : (a.counts (pre ++ chunk)).sum = pre.length + chunk.length := by
    rw [sum_counts, List.length_append]
    intro r hr
    cases List.mem_append.mp hr with
    | inl hr => exact hpre r hr
    | inr hr => exact hchunk r hr
  simp [countKernel, badBounds_eq, hloop, hsum1, hsum2]

theorem mem_of_mem_getChunk {r : α × List UInt8} (h : r ∈ a.rows.getChunk k) :
    r ∈ a.rows.elems :=
  List.mem_of_mem_drop (List.mem_of_mem_take h)

/-- The rest of the chunks adds the rest of the rows. -/
theorem countFrom_eq {fuel : Nat} (hfuel : a.rows.elems.length - k * a.rows.maxNumInChunk < fuel) :
    a.countFrom fuel k (a.counts (a.rows.elems.take (k * a.rows.maxNumInChunk))) =
      some (a.counts a.rows.elems) := by
  have hpos := a.rows.pos
  induction fuel generalizing k with
  | zero => omega
  | succ fuel ih =>
      have hlen := LVector.length_getChunk (v := a.rows) (i := k)
      rw [countFrom]
      by_cases hempty : (a.rows.getChunk k).length = 0
      · have hall : a.rows.elems.take (k * a.rows.maxNumInChunk) = a.rows.elems :=
          List.take_of_length_le (by omega)
        rw [hall]
        simp [hempty]
      · have hnext : (k + 1) * a.rows.maxNumInChunk =
            k * a.rows.maxNumInChunk + a.rows.maxNumInChunk := by
          rw [Nat.add_mul, Nat.one_mul]
        have hkernel : a.countKernel (a.rows.getChunk k)
            (a.counts (a.rows.elems.take (k * a.rows.maxNumInChunk))) = _ :=
          countKernel_eq (fun r hr => List.mem_of_mem_take hr) fun r hr => mem_of_mem_getChunk hr
        rw [LVector.getChunk, take_append_page, ← LVector.getChunk] at hkernel
        simp only [if_neg hempty, hkernel, Option.bind_some]
        apply ih
        omega

/-- **bin_count counts**, whatever the chunks; it only needs bounds between the first and the
last. -/
theorem binCount_eq (hy : a.y ≠ []) :
    a.binCount = some (a.lb, a.ub, a.counts a.rows.elems) := by
  have hlen : a.y.length ≠ 0 := by simpa using hy
  have hdiff : ((a.y.zip a.y.tail).any fun p => p.1 = p.2) = false := by
    rw [List.any_eq_false]
    intro p hp
    obtain ⟨i, hi⟩ := List.getElem?_of_mem hp
    rw [List.getElem?_zip_eq_some, List.getElem?_tail, List.getElem?_eq_some_iff,
      List.getElem?_eq_some_iff] at hi
    obtain ⟨⟨h1, hi1⟩, h2, hi2⟩ := hi
    have hsorted : a.y.Pairwise (· < ·) :=
      (List.pairwise_append.mp (List.pairwise_cons.mp a.bounds).2).1
    have hlt := List.pairwise_iff_getElem.mp hsorted i (i + 1) h1 h2 (by omega)
    rw [hi1, hi2] at hlt
    simpa using hlt.ne
  have hzero : a.counts [] = List.replicate a.nb 0 := by
    simp [counts, rowsOf, List.map_const']
  have hall : a.countFrom (a.rows.elems.length + 1) 0 _ = _ := countFrom_eq (by omega)
  rw [Nat.zero_mul, List.take_zero, hzero] at hall
  simp [binCount, hlen, hdiff, hall]

theorem binCount_nil (hy : a.y = []) : a.binCount = none := by
  simp [binCount, hy]

end QStore.Operators.BinSort
