import QStore.Lib.MapM
import QStore.Operators.BinSearch

/-!
# QStore.Operators.BinPlace

`bin_place` after `bin_count`.  Where its inputs can be cloned, and the threads of the region
that places the rows include those that the bins belong to, every bin takes its rows in the
order of the input, whichever turns the threads take.
-/

namespace QStore.Operators.BinSort

open Bins ByKey Scatter

variable {α : Type} [LinearOrder α] {a : BinSort α} {b k : Nat} {cnt : List Nat}

/-! ## Offsets -/

/-- Where a bin begins. -/
def base (cnt : List Nat) (b : Nat) : Nat := (cnt.take b).sum

theorem getElem?_offsets (o : Nat) (cnt : List Nat) (b : Nat) :
    (offsets o cnt)[b]? = if b < cnt.length then some (o + base cnt b) else none := by
  induction cnt generalizing o b with
  | nil => simp [offsets]
  | cons c cnt ih =>
      cases b with
      | zero => simp [offsets, base]
      | succ b =>
          rw [offsets, List.getElem?_cons_succ, ih]
          simp [base, Nat.add_assoc]

theorem getD_offsets (cnt : List Nat) (b : Nat) : (offsets 0 cnt).getD b cnt.sum = base cnt b := by
  rw [List.getD_eq_getElem?_getD, getElem?_offsets]
  split
  · simp
  · next h => simp [base, List.take_of_length_le (by omega : cnt.length ≤ b)]

theorem base_succ (cnt : List Nat) (b : Nat) : base cnt (b + 1) = base cnt b + cnt.getD b 0 := by
  rw [base, base, List.getD_eq_getElem?_getD, List.take_add_one]
  cases cnt[b]? with
  | none => simp
  | some c => simp

theorem base_mono (cnt : List Nat) {b c : Nat} (h : b ≤ c) : base cnt b ≤ base cnt c := by
  induction h with
  | refl => exact Nat.le_refl _
  | step _ ih =>
      rw [base_succ]
      omega

theorem base_le_sum (cnt : List Nat) (b : Nat) : base cnt b ≤ cnt.sum := by
  have h := base_mono cnt (Nat.le_max_left b cnt.length)
  have hall : base cnt (max b cnt.length) = cnt.sum := by
    rw [base, List.take_of_length_le (Nat.le_max_right _ _)]
  omega

/-- The bins lie one behind the other. -/
theorem blocks_base (cnt : List Nat) : Blocks (base cnt) (fun b => cnt.getD b 0) cnt.sum where
  apart b c hbc := by
    rw [← base_succ]
    exact base_mono cnt hbc
  inside b := by
    rw [← base_succ]
    exact base_le_sum cnt (b + 1)

/-! ## The threads that place the rows -/

/-- The team takes the rows of its threads, each once. -/
theorem perm_of_interleaves {thread : Nat → Option Nat} {n team : Nat} {order : List Nat}
    (h : Interleaves thread n team order) :
    order.Perm ((List.range n).filter fun i => (thread i).any fun t => decide (t < team)) := by
  rw [List.perm_iff_count]
  intro i
  by_cases hi : ∃ t, t < team ∧ thread i = some t
  · obtain ⟨t, ht, hthread⟩ := hi
    rw [← List.count_filter (p := fun i => decide (thread i = some t)) (by simpa using hthread),
      h.own t ht, List.count_filter (by simpa using hthread), List.count_filter]
    simp [hthread, ht]
  · have hout : i ∉ order := fun hmem => hi (h.only i hmem)
    rw [List.count_eq_zero_of_not_mem hout, List.count_eq_zero_of_not_mem]
    simp only [List.mem_filter, not_and]
    intro _ hany
    cases hthread : thread i with
    | none => simp [hthread] at hany
    | some t => exact hi ⟨t, by simpa [hthread] using hany, hthread⟩

/-- The team takes all rows exactly where every row is one of a thread of the team. -/
theorem length_eq_iff_of_interleaves {thread : Nat → Option Nat} {n team : Nat}
    {order : List Nat} (h : Interleaves thread n team order) :
    order.length = n ↔ ∀ i, i < n → ∃ t, t < team ∧ thread i = some t := by
  have hlen := (perm_of_interleaves h).length_eq
  have hiff := List.length_filter_eq_length_iff
    (p := fun i => (thread i).any fun t => decide (t < team)) (l := List.range n)
  rw [List.length_range] at hiff
  rw [hlen, hiff]
  simp only [List.mem_range, Option.any_eq_true, decide_eq_true_eq]
  constructor
  · intro hall i hi
    obtain ⟨t, hthread, ht⟩ := hall i hi
    exact ⟨t, ht, hthread⟩
  · intro hall i hi
    obtain ⟨t, ht, hthread⟩ := hall i hi
    exact ⟨t, hthread, ht⟩

theorem threadNum_eq {i : Nat} (hi : i < (a.rows.getChunk k).length) :
    threadNum a.lb a.ub a.nProcs (a.rows.getChunk k) i =
      some (a.key (a.rows.getChunk k)[i] % a.nProcs) := by
  rw [threadNum, List.getElem?_eq_getElem hi, Option.bind_some,
    binNum_eq (mem_of_mem_getChunk (List.getElem_mem hi)), Option.map_some, key]

/-- Every row of chunk `k` is in a bin of a thread of the team. -/
def TeamTakes (a : BinSort α) (k : Nat) : Prop :=
  ∀ r ∈ a.rows.getChunk k, a.key r % a.nProcs < a.team k

theorem length_order_eq_iff (a : BinSort α) (k : Nat) :
    (a.order k).length = (a.rows.getChunk k).length ↔ a.TeamTakes k := by
  rw [length_eq_iff_of_interleaves (a.interleaves k)]
  constructor
  · intro h r hr
    obtain ⟨i, hi, rfl⟩ := List.getElem_of_mem hr
    obtain ⟨t, ht, hthread⟩ := h i hi
    rw [← lb, ← ub, threadNum_eq hi, Option.some.injEq] at hthread
    rw [hthread]
    exact ht
  · intro h i hi
    exact ⟨_, h _ (List.getElem_mem hi), threadNum_eq hi⟩

/-! ## The kernel that places the rows -/

/-- The items of chunk `k`. -/
def chunkItems (a : BinSort α) (k : Nat) : List (Item α) :=
  (a.rows.getChunk k).mapIdx fun i r =>
    { bin := a.key r, row := r, aux := auxAt a.auxWidth (a.rows.getChunk k) i }

theorem length_chunkItems (a : BinSort α) (k : Nat) :
    (a.chunkItems k).length = (a.rows.getChunk k).length := by
  simp [chunkItems]

theorem items_eq (a : BinSort α) (k : Nat) : a.items (a.rows.getChunk k) = some (a.chunkItems k) := by
  have hbins : (a.rows.getChunk k).mapM (fun r => binNum a.lb a.ub r.1) =
      some ((a.rows.getChunk k).map a.key) :=
    mapM_eq_map fun r hr => binNum_eq (mem_of_mem_getChunk hr)
  rw [items, hbins, Option.map_some, Option.some.injEq]
  apply List.ext_getElem
  · simp [length_chunkItems]
  · intro i h1 h2
    simp [chunkItems]

theorem bin_getElem {i : Nat} (hi : i < (a.chunkItems k).length)
    (hi' : i < (a.rows.getChunk k).length) :
    (a.chunkItems k)[i].bin = a.key (a.rows.getChunk k)[i] := by
  simp [chunkItems]

/-- A bin's rows come in the order of the chunk, whichever turns the threads take. -/
theorem filter_order (h : a.TeamTakes k) (b : Nat) :
    ((a.order k).filter fun i => ((a.chunkItems k)[i]?).any fun x => x.bin = b) =
      (List.range (a.rows.getChunk k).length).filter fun i =>
        ((a.chunkItems k)[i]?).any fun x => x.bin = b := by
  have hlen := length_chunkItems a k
  -- a row of the bin is one of the thread that the bin belongs to
  have hown : ∀ i, ((a.chunkItems k)[i]?).any (fun x => x.bin = b) = true →
      threadNum a.lb a.ub a.nProcs (a.rows.getChunk k) i = some (b % a.nProcs) ∧
        b % a.nProcs < a.team k := by
    intro i hany
    rw [Option.any_eq_true] at hany
    obtain ⟨x, hx, hbin⟩ := hany
    obtain ⟨hi, rfl⟩ := List.getElem?_eq_some_iff.mp hx
    have hi' : i < (a.rows.getChunk k).length := by omega
    have hkey : a.key (a.rows.getChunk k)[i] = b := by
      rw [← bin_getElem hi hi']
      simpa using hbin
    rw [threadNum_eq hi', hkey]
    exact ⟨rfl, hkey ▸ h _ (List.getElem_mem hi')⟩
  have hsplit : ∀ is : List Nat, (is.filter fun i =>
      ((a.chunkItems k)[i]?).any fun x => x.bin = b) =
      (is.filter fun i => threadNum a.lb a.ub a.nProcs (a.rows.getChunk k) i =
        some (b % a.nProcs)).filter fun i => ((a.chunkItems k)[i]?).any fun x => x.bin = b := by
    intro is
    rw [List.filter_filter]
    apply List.filter_congr
    intro i _
    cases hany : ((a.chunkItems k)[i]?).any fun x => x.bin = b with
    | false => simp
    | true => simp [(hown i hany).1]
  by_cases ht : b % a.nProcs < a.team k
  · rw [hsplit, hsplit (List.range _)]
    have hsame := (a.interleaves k).own _ ht
    rw [← lb, ← ub] at hsame
    rw [hsame]
  · have hnone : ∀ is : List Nat, (is.filter fun i =>
        ((a.chunkItems k)[i]?).any fun x => x.bin = b) = [] := by
      intro is
      rw [List.filter_eq_nil_iff]
      intro i _ hany
      exact ht (hown i hany).2
    rw [hnone, hnone]

omit [LinearOrder α] in
theorem filterMap_range (xs : List (Item α)) :
    ((List.range xs.length).filterMap fun i => xs[i]?) = xs := by
  induction xs with
  | nil => simp
  | cons x xs ih =>
      rw [List.length_cons, List.range_succ_eq_map, List.filterMap_cons, List.filterMap_map]
      simpa using ih

/-- The items in the order of the turns. -/
def turnItems (a : BinSort α) (k : Nat) : List (Item α) :=
  (a.order k).filterMap fun i => (a.chunkItems k)[i]?

theorem rowsOf_turnItems (h : a.TeamTakes k) (b : Nat) :
    rowsOf Item.bin b (a.turnItems k) = rowsOf Item.bin b (a.chunkItems k) := by
  have hpull : ∀ is : List Nat,
      rowsOf Item.bin b (is.filterMap fun i => (a.chunkItems k)[i]?) =
        (is.filter fun i => ((a.chunkItems k)[i]?).any fun x => x.bin = b).filterMap
          fun i => (a.chunkItems k)[i]? := by
    intro is
    induction is with
    | nil => simp [rowsOf]
    | cons i is ih =>
        cases hx : (a.chunkItems k)[i]? with
        | none =>
            rw [List.filterMap_cons_none hx, ih, List.filter_cons_of_neg (by simp [hx])]
        | some x =>
            rw [List.filterMap_cons_some hx]
            by_cases hb : x.bin = b
            · rw [List.filter_cons_of_pos (by simp [hx, hb]), List.filterMap_cons_some hx, ← ih]
              simp [rowsOf, hb]
            · rw [List.filter_cons_of_neg (by simp [hx, hb]), ← ih]
              simp [rowsOf, hb]
  rw [turnItems, hpull, filter_order h, ← hpull, ← length_chunkItems, filterMap_range]

theorem foldlM_turns (st : State (α × List UInt8)) (is : List Nat)
    (h : ∀ i ∈ is, i < (a.chunkItems k).length) :
    is.foldlM (fun st i => ((a.chunkItems k)[i]?).bind (place Item.bin Item.cell st)) st =
      (is.filterMap fun i => (a.chunkItems k)[i]?).foldlM (place Item.bin Item.cell) st := by
  induction is generalizing st with
  | nil => simp
  | cons i is ih =>
      have hi : i < (a.chunkItems k).length := h i (by simp)
      have hx : (a.chunkItems k)[i]? = some (a.chunkItems k)[i] := List.getElem?_eq_getElem hi
      rw [List.filterMap_cons_some hx, List.foldlM_cons, List.foldlM_cons, hx, Option.bind_some]
      congr 1
      funext st'
      exact ih st' fun j hj => h j (by simp [hj])

/-- Where the team takes all rows of a chunk, the kernel writes each to its bin, behind the rows
of the bin before it. -/
theorem placeKernel_eq {xs : List (Item α)} {st : State (α × List UInt8)} {n : Nat}
    (h : Placed Item.bin Item.cell (base cnt) n xs st)
    (hb : Blocks (base cnt) (fun b => cnt.getD b 0) n)
    (hfull : ∀ b, (rowsOf Item.bin b (xs ++ a.chunkItems k)).length ≤ cnt.getD b 0)
    (hteam : a.TeamTakes k) :
    ∃ st', a.placeKernel k (a.rows.getChunk k) st = some st' ∧
      Placed Item.bin Item.cell (base cnt) n (xs ++ a.chunkItems k) st' := by
  have hrows : ∀ b, rowsOf Item.bin b (xs ++ a.turnItems k) =
      rowsOf Item.bin b (xs ++ a.chunkItems k) := by
    intro b
    rw [rowsOf_append, rowsOf_append, rowsOf_turnItems hteam]
  have hfit : ∀ b, (rowsOf Item.bin b (xs ++ a.turnItems k)).length ≤ cnt.getD b 0 := by
    intro b
    rw [hrows]
    exact hfull b
  obtain ⟨st', hrun, hplaced⟩ := h.run hb hfit
  have hlt : ∀ i ∈ a.order k, i < (a.chunkItems k).length := by
    intro i hi
    have hmem := (perm_of_interleaves (a.interleaves k)).subset hi
    rw [length_chunkItems]
    exact List.mem_range.mp (List.mem_filter.mp hmem).1
  have hloop := foldlM_turns st (a.order k) hlt
  rw [← turnItems, hrun] at hloop
  have hlen := (length_order_eq_iff a k).mpr hteam
  exact ⟨st', by simp [placeKernel, badBounds_eq, items_eq, hloop, hlen], hplaced.congr hrows⟩

/-- The kernel counts what is placed. -/
theorem teamTakes_of_placeKernel {st st' : State (α × List UInt8)}
    (h : a.placeKernel k (a.rows.getChunk k) st = some st') : a.TeamTakes k := by
  rw [← length_order_eq_iff]
  by_contra hne
  simp only [placeKernel, badBounds_eq, items_eq] at h
  simp [hne] at h

/-! ## bin_place -/

/-- The items of the first `k` chunks. -/
def allItems (a : BinSort α) (k : Nat) : List (Item α) := (List.range k).flatMap a.chunkItems

theorem allItems_succ (a : BinSort α) (k : Nat) :
    a.allItems (k + 1) = a.allItems k ++ a.chunkItems k := by
  simp [allItems, List.range_succ]

theorem map_row_allItems (a : BinSort α) (k : Nat) :
    (a.allItems k).map Item.row = a.rows.elems.take (k * a.rows.maxNumInChunk) := by
  induction k with
  | zero => simp [allItems]
  | succ k ih =>
      have hchunk : (a.chunkItems k).map Item.row = a.rows.getChunk k := by
        apply List.ext_getElem
        · simp [length_chunkItems]
        · intro i h1 h2
          simp [chunkItems]
      rw [allItems_succ, List.map_append, ih, hchunk, LVector.getChunk, take_append_page]

theorem bin_of_mem_allItems {x : Item α} (h : x ∈ a.allItems k) : x.bin = a.key x.row := by
  obtain ⟨j, _, hx⟩ := List.mem_flatMap.mp h
  obtain ⟨i, hi, rfl⟩ := List.getElem_of_mem hx
  simp [chunkItems]

/-- The items of a bin are the rows of that bin. -/
theorem map_row_rowsOf (a : BinSort α) (k b : Nat) :
    (rowsOf Item.bin b (a.allItems k)).map Item.row =
      rowsOf a.key b (a.rows.elems.take (k * a.rows.maxNumInChunk)) := by
  rw [← map_row_allItems, rowsOf, rowsOf, List.filter_map]
  congr 1
  apply List.filter_congr
  intro x hx
  simp [bin_of_mem_allItems hx]

theorem getD_counts (a : BinSort α) (b : Nat) :
    (a.counts a.rows.elems).getD b 0 = (rowsOf a.key b a.rows.elems).length := by
  by_cases hb : b < a.nb
  · simp [counts, hb]
  · have hnone : rowsOf a.key b a.rows.elems = [] := by
      rw [rowsOf, List.filter_eq_nil_iff]
      intro r hr
      have hlt : a.key r < a.nb := binOf_lt hr
      simp only [decide_eq_true_eq]
      omega
    simp [counts, hb, hnone]

/-- No bin takes more rows than were counted. -/
theorem length_rowsOf_le (a : BinSort α) (k b : Nat) :
    (rowsOf Item.bin b (a.allItems k)).length ≤ (a.counts a.rows.elems).getD b 0 := by
  rw [getD_counts, ← List.length_map (f := Item.row), map_row_rowsOf]
  exact ((List.take_sublist _ _).filter _).length_le

/-- The counts that `bin_count` returns. -/
abbrev cnts (a : BinSort α) : List Nat := a.counts a.rows.elems

theorem sum_cnts (a : BinSort α) : a.cnts.sum = a.rows.elems.length :=
  sum_counts fun _ hr => hr

/-- Where every team takes all its rows, all rows are placed. -/
theorem placeFrom_eq {fuel : Nat} {st : State (α × List UInt8)}
    (hfuel : a.rows.elems.length - k * a.rows.maxNumInChunk < fuel)
    (hk : k * a.rows.maxNumInChunk ≤ a.rows.elems.length) (hteam : ∀ j, a.TeamTakes j)
    (h : Placed Item.bin Item.cell (base a.cnts) a.rows.elems.length (a.allItems k) st) :
    ∃ K st', a.placeFrom fuel k st = some st' ∧
      a.rows.elems.length ≤ K * a.rows.maxNumInChunk ∧
      Placed Item.bin Item.cell (base a.cnts) a.rows.elems.length (a.allItems K) st' := by
  have hpos := a.rows.pos
  induction fuel generalizing k st with
  | zero => omega
  | succ fuel ih =>
      have hlen := LVector.length_getChunk (v := a.rows) (i := k)
      have hnext : (k + 1) * a.rows.maxNumInChunk =
          k * a.rows.maxNumInChunk + a.rows.maxNumInChunk := by
        rw [Nat.add_mul, Nat.one_mul]
      have hb := blocks_base a.cnts
      rw [sum_cnts] at hb
      obtain ⟨st₁, hkernel, h₁⟩ := placeKernel_eq h hb (fun b => by
        rw [← allItems_succ]
        exact length_rowsOf_le a (k + 1) b) (hteam k)
      rw [← allItems_succ] at h₁
      simp only [placeFrom, hkernel, Option.bind_some]
      split
      · next hshort => exact ⟨k + 1, st₁, rfl, by omega, h₁⟩
      · next hfull => exact ih (by omega) (by omega) h₁

/-- The loop ends well only where in every chunk the team has taken all rows. -/
theorem teamTakes_of_placeFrom {fuel : Nat} {st st' : State (α × List UInt8)}
    (h : a.placeFrom fuel k st = some st') {j : Nat} (hj : k ≤ j) : a.TeamTakes j := by
  induction fuel generalizing k st with
  | zero => simp [placeFrom] at h
  | succ fuel ih =>
      have hlen := LVector.length_getChunk (v := a.rows) (i := k)
      simp only [placeFrom, Option.bind_eq_some_iff] at h
      obtain ⟨st₁, hkernel, h⟩ := h
      by_cases hjk : j = k
      · exact hjk ▸ teamTakes_of_placeKernel hkernel
      split at h
      · next hshort =>
          have hbehind := Nat.mul_le_mul_right a.rows.maxNumInChunk (by omega : k + 1 ≤ j)
          rw [Nat.add_mul, Nat.one_mul] at hbehind
          have hnone : a.rows.getChunk j = [] := page_eq_nil (by omega)
          intro r hr
          simp [hnone] at hr
      · next hfull => exact ih h (by omega)

/-- What `memcpy` reads for each row is what the auxiliary vector has there. -/
def AuxRight (a : BinSort α) : Prop :=
  ∀ k i, (h : i < (a.rows.getChunk k).length) →
    auxAt a.auxWidth (a.rows.getChunk k) i = ((a.rows.getChunk k)[i]).2

/-- It is so where the bytes of a chunk are numbered by a `uint32_t`. -/
theorem auxRight_of_le (a : BinSort α) (h : a.rows.maxNumInChunk * a.auxWidth ≤ 2 ^ 32) :
    a.AuxRight := by
  intro k i hi
  have hlen := LVector.length_getChunk (v := a.rows) (i := k)
  have hwidth : ∀ bs ∈ (a.rows.getChunk k).map Prod.snd, bs.length = a.auxWidth := by
    intro bs hbs
    obtain ⟨r, hr, rfl⟩ := List.mem_map.mp hbs
    exact a.aux_length r (mem_of_mem_getChunk hr)
  have hi' : i < ((a.rows.getChunk k).map Prod.snd).length := by simpa using hi
  have hread := take_drop_flatten hwidth hi'
  cases Nat.eq_zero_or_pos a.auxWidth with
  | inl hzero =>
      rw [hzero, List.take_zero] at hread
      rw [auxAt, hzero, List.take_zero, hread]
      simp
  | inr hpos =>
      have hlt : i * a.auxWidth < a.rows.maxNumInChunk * a.auxWidth :=
        Nat.mul_lt_mul_of_pos_right (by omega) hpos
      rw [auxAt, Nat.mod_eq_of_lt (by omega), Nat.mul_comm, hread]
      simp

omit [LinearOrder α] in
theorem cell_eq_row_iff (x : Item α) : x.cell = x.row ↔ x.aux = x.row.2 := by
  rw [Item.cell, Prod.ext_iff]
  simp

/-- So is what is written for every item its row. -/
theorem auxRight_iff {K : Nat} (hK : a.rows.elems.length ≤ K * a.rows.maxNumInChunk) :
    a.AuxRight ↔ ∀ x ∈ a.allItems K, x.cell = x.row := by
  constructor
  · intro h x hx
    obtain ⟨j, _, hx⟩ := List.mem_flatMap.mp hx
    obtain ⟨i, hi, rfl⟩ := List.getElem_of_mem hx
    rw [length_chunkItems] at hi
    rw [cell_eq_row_iff]
    simpa [chunkItems] using h j i hi
  · intro h k i hi
    have hlen := LVector.length_getChunk (v := a.rows) (i := k)
    have hk : k < K := by
      by_contra hge
      have := Nat.mul_le_mul_right a.rows.maxNumInChunk (by omega : K ≤ k)
      omega
    have hi' : i < (a.chunkItems k).length := by
      rw [length_chunkItems]
      exact hi
    have hx := h _ (List.mem_flatMap.mpr ⟨k, List.mem_range.mpr hk, List.getElem_mem hi'⟩)
    rw [cell_eq_row_iff] at hx
    simpa [chunkItems] using hx

/-- `bin_place` gets its clones, and nobody else reads `x`. -/
structure Cloned (a : BinSort α) : Prop where
  x : a.x.Cloneable a.rows.elems.length a.width a.dskLeft
  aux : a.auxWidth ≠ 0 → a.aux.Cloneable a.rows.elems.length a.auxWidth
    (a.dskLeft - a.rows.elems.length * a.width)
  before : a.lmaBefore = false
  others : a.others = 0

theorem readers_eq_zero_iff (a : BinSort α) : a.readers = 0 ↔ a.lmaBefore = false ∧ a.others = 0 := by
  cases h : a.lmaBefore <;> simp [readers, h]

theorem clones_iff (hfit : a.width * a.rows.maxNumInChunk < 2 ^ 32) (v : Stored)
    (width dskLeft : Nat) :
    v.clones a.rows.maxNumInChunk a.rows.elems.length width dskLeft = true ↔
      v.Cloneable a.rows.elems.length width dskLeft := by
  have hle := Nat.le_mul_of_pos_left a.rows.maxNumInChunk a.width_pos
  exact Stored.clones_iff a.rows.pos (by omega) (List.length_pos_iff.mpr a.rows_ne) a.numbered

/-- **bin_place** writes to each bin what it reads for the rows of the bin, in their order. -/
theorem binPlace_eq (hfit : a.width * a.rows.maxNumInChunk < 2 ^ 32) (hclone : a.Cloned)
    (hteam : ∀ k, a.TeamTakes k) :
    ∃ K placed, a.binPlace a.cnts = some placed ∧ placed.length = a.rows.elems.length ∧
      a.rows.elems.length ≤ K * a.rows.maxNumInChunk ∧
      ∀ b, (placed.drop (base a.cnts b)).take (a.cnts.getD b 0) =
        (rowsOf Item.bin b (a.allItems K)).map Item.cell := by
  have hstart : Placed Item.bin Item.cell (base a.cnts) a.rows.elems.length (a.allItems 0)
      { off := fun b => (offsets 0 a.cnts).getD b a.cnts.sum, out := a.rows.elems } := by
    constructor
    · intro b
      simp only [getD_offsets]
      simp [allItems, rowsOf]
    · rfl
    · intro b j hj
      simp [allItems, rowsOf] at hj
  obtain ⟨K, st, hrun, hK, hplaced⟩ :=
    placeFrom_eq (by omega : a.rows.elems.length - 0 * a.rows.maxNumInChunk <
      a.rows.elems.length + 1) (by omega) hteam hstart
  have hx := (clones_iff hfit _ _ _).mpr hclone.x
  have haux : ¬ (a.auxWidth ≠ 0 ∧ ¬ a.aux.clones a.rows.maxNumInChunk a.rows.elems.length
      a.auxWidth (a.dskLeft - a.rows.elems.length * a.width)) := by
    rw [not_and, not_not]
    intro h0
    exact (clones_iff hfit _ _ _).mpr (hclone.aux h0)
  have hreaders := (readers_eq_zero_iff a).mpr ⟨hclone.before, hclone.others⟩
  have hplace : a.binPlace a.cnts = some st.out := by
    simp only [binPlace, hx, not_true_eq_false, if_false, if_neg haux, hrun, Option.map_some,
      hreaders, decide_true, Option.filter_some, if_true]
  refine ⟨K, st.out, hplace, hplaced.len, hK, fun b => ?_⟩
  have hlen : (rowsOf Item.bin b (a.allItems K)).length = a.cnts.getD b 0 := by
    rw [getD_counts, ← List.length_map (f := Item.row), map_row_rowsOf,
      List.take_of_length_le hK]
  exact hplaced.block hlen

theorem of_binPlace (hfit : a.width * a.rows.maxNumInChunk < 2 ^ 32) {cnt : List Nat}
    {placed : List (α × List UInt8)} (h : a.binPlace cnt = some placed) :
    a.Cloned ∧ ∀ k, a.TeamTakes k := by
  simp only [binPlace] at h
  split at h
  · contradiction
  · next hx =>
      split at h
      · contradiction
      · next haux =>
          rw [Option.filter_eq_some_iff, Option.map_eq_some_iff, decide_eq_true_eq,
            readers_eq_zero_iff] at h
          obtain ⟨⟨st, hrun, _⟩, hbefore, hothers⟩ := h
          rw [not_not, clones_iff hfit] at hx
          rw [not_and, not_not, clones_iff hfit] at haux
          exact ⟨⟨hx, haux, hbefore, hothers⟩, fun k => teamTakes_of_placeFrom hrun (Nat.zero_le k)⟩

end QStore.Operators.BinSort
