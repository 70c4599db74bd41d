import Mathlib.Algebra.Order.BigOperators.Group.List
import QStore.Lib.Frequent
import QStore.Lib.Pages
import QStore.Lib.RunLength
import QStore.Operators.Qsort

/-!
# QStore.Approx.Frequent

The frequent elements of a stream (`APPROX/FREQUENT/lua/approx_frequent.tmpl`), those that occur
`min_freq` times or more, with counts that are at most `err` too low.

```
chunk            4 1 4 2 4 1     sorted     1 1 2 4 4 4
(id, freq)       1 2   2 1   4 3
counters         1 5   3 1             merged    1 7   2 1   3 1   4 3
too many         one off every counter, those at 0 go
```

An `id` and its `freq` are kept side by side here, and in the code in two arrays of which
`active_cntr_siz` entries are in use. The ids ascend; NaN is left out, and so is memory that
cannot be had.
-/

namespace QStore.Approx.Frequent

/-- A `uint64_t`. -/
def u64 (n : Nat) : Nat := n % 2 ^ 64

theorem u64_eq {n : Nat} (h : n < 2 ^ 64) : u64 n = n := Nat.mod_eq_of_lt h

/-- `struct frequent_persistent_data`. `max_chunk_siz` is how much `packet_space`, `bf_id` and
`bf_freq` hold. -/
structure Data (α : Type) where
  cntrs : List (α × Nat)
  cntrSiz : Nat
  maxChunkSiz : Nat
  siz : Nat
  minFreq : Nat
  err : Nat

section Model

variable {α : Type} [LinearOrder α]

/-- The loop of `sorted_array_to_id_freq` at `x`, with `temp_freq`. -/
def idFreqLoop (x : α) (tempFreq : Nat) : List α → List (α × Nat)
  | [] => [(x, tempFreq)]
  | y :: buf =>
      if x = y then idFreqLoop y (u64 (tempFreq + 1)) buf
      else (x, tempFreq) :: idFreqLoop y 1 buf

/-- `sorted_array_to_id_freq`. `none`: of an empty array, it reads on past the end. -/
def sortedArrayToIdFreq : List α → Option (List (α × Nat))
  | [] => none
  | x :: buf => some (idFreqLoop x 1 buf)

/-- The merge of `update_counter`: the counters and those of the chunk, by id. -/
def mergeLoop : List (α × Nat) → List (α × Nat) → List (α × Nat)
  | c :: cs, b :: bs =>
      if c.1 < b.1 then c :: mergeLoop cs (b :: bs)
      else if b.1 < c.1 then b :: mergeLoop (c :: cs) bs
      else (b.1, u64 (b.2 + c.2)) :: mergeLoop cs bs
  | cs, [] => cs
  | [], bs => bs
termination_by cs bs => cs.length + bs.length

/-- Take one off every counter, and keep those that are not at 0. -/
def takeOne (cs : List (α × Nat)) : List (α × Nat) :=
  (cs.map fun c => (c.1, u64 (c.2 + (2 ^ 64 - 1)))).filter fun c => 0 < c.2

/-- `while ( *ptr_active_cntr_siz > cntr_siz )`, for at most `fuel` turns. -/
def dropLow (cntrSiz : Nat) : Nat → List (α × Nat) → Option (List (α × Nat))
  | 0, cs => if cs.length ≤ cntrSiz then some cs else none
  | fuel + 1, cs => if cs.length ≤ cntrSiz then some cs else dropLow cntrSiz fuel (takeOne cs)

/-- `update_counter`. A turn of its loop takes one off some counter. -/
def updateCounter (cs : List (α × Nat)) (cntrSiz : Nat) (bf : List (α × Nat)) :
    Option (List (α × Nat)) :=
  let temp := mergeLoop cs bf
  dropLow cntrSiz (temp.map Prod.snd).sum temp

omit [LinearOrder α] in
/-- `allocate_frequent_persistent_data`, with its status: 1 warns of much memory. `none`: a
division by zero. -/
def allocate (siz minFreq err maxChunkSiz : Nat) : Option (Nat × Data α) :=
  if err = 0 then none
  else
    let cntrSiz := max (u64 (siz / err + 1)) 10000
    let status := if u64 (cntrSiz * 4 + maxChunkSiz * 5) > 200 * 1048576 then 1 else 0
    some (status, ⟨[], cntrSiz, if maxChunkSiz < 1 then cntrSiz else maxChunkSiz, siz, minFreq, err⟩)

/-- `frequent_process_chunk`, with its one packet. `none`: a chunk that does not fit. -/
def processChunk (data : Data α) (chunk : List α) : Option (Data α) :=
  if chunk.length > data.maxChunkSiz then none
  else if chunk.length = 0 then some data
  else do
    let packet ← Operators.qsortAsc chunk
    let bf ← sortedArrayToIdFreq packet
    let cntrs ← updateCounter data.cntrs data.cntrSiz bf
    pure { data with cntrs := cntrs }

omit [LinearOrder α] in
/-- `frequent_process_output`. `none`: as many entries as the `uint32_t` that counts them has
values, from which on it writes over the first. -/
def processOutput (data : Data α) : Option (List (α × Nat)) :=
  let out := data.cntrs.filter fun c => c.2 ≥ u64 (data.minFreq + (2 ^ 64 - data.err))
  if out.length < 2 ^ 32 then some out else none

/-- The lazy use of the kernel, as its usage note has it: allocate, process the chunks one by
one, process the output. -/
def ofChunks (siz minFreq err maxChunkSiz : Nat) (chunks : List (List α)) :
    Option (List (α × Nat)) := do
  let (_, data) ← allocate siz minFreq err maxChunkSiz
  let data ← chunks.foldlM processChunk data
  processOutput data

/-- `approx_frequent`: all at once, `cntr_siz` elements a chunk. -/
def approxFrequent (x : List α) (minFreq err : Nat) : Option (List (α × Nat)) := do
  let (_, data) ← allocate x.length minFreq err 0
  let chunks := (List.range ((x.length + data.cntrSiz - 1) / data.cntrSiz)).map (page data.cntrSiz x)
  let data ← chunks.foldlM processChunk data
  processOutput data

/-! ## counters -/

variable {cs bf : List (α × Nat)} {xs : List α} {x : α} {f n cntrSiz fuel : Nat}

/-- Counters in use: their ids ascend and none is at 0. -/
structure Counters (cs : List (α × Nat)) : Prop where
  ascending : cs.Pairwise fun p q => p.1 < q.1
  pos : ∀ p ∈ cs, 0 < p.2

omit [LinearOrder α] in
theorem length_expand_cons {p : α × Nat} :
    (expand (p :: cs)).length = p.2 + (expand cs).length := by
  simp [expand]

omit [LinearOrder α] in
theorem expand_cons {p : α × Nat} : expand (p :: cs) = List.replicate p.2 p.1 ++ expand cs := rfl

theorem mem_expand_iff (h : Counters cs) : x ∈ expand cs ↔ x ∈ cs.map Prod.fst := by
  have hpos := h.pos
  simp only [expand, List.mem_flatMap, List.mem_replicate, List.mem_map]
  constructor
  · rintro ⟨p, hp, -, rfl⟩
    exact ⟨p, hp, rfl⟩
  · rintro ⟨p, hp, rfl⟩
    exact ⟨p, hp, (hpos p hp).ne', rfl⟩

/-- The ids are the elements counted, each once. -/
theorem dedup_expand (h : Counters cs) :
    (expand cs : Multiset α).dedup = (cs.map Prod.fst : List α) := by
  have hnodup : (cs.map Prod.fst).Nodup := by
    rw [List.Nodup, List.pairwise_map]
    exact h.ascending.imp ne_of_lt
  rw [Multiset.Nodup.ext (Multiset.nodup_dedup _) (Multiset.coe_nodup.mpr hnodup)]
  intro x
  rw [Multiset.mem_dedup, Multiset.mem_coe, Multiset.mem_coe, mem_expand_iff h]

/-- A counter is how often its id was counted. -/
theorem count_expand (h : Counters cs) {p : α × Nat} (hp : p ∈ cs) :
    (expand cs).count p.1 = p.2 := by
  obtain ⟨hasc, hpos⟩ := h
  induction cs with
  | nil => simp at hp
  | cons q cs ih =>
      obtain ⟨hq, hasc⟩ := List.pairwise_cons.mp hasc
      have hcs : Counters cs := ⟨hasc, fun r hr => hpos r (List.mem_cons_of_mem q hr)⟩
      rw [expand_cons, List.count_append, List.count_replicate]
      cases List.mem_cons.mp hp with
      | inl hpq =>
          subst hpq
          have hno : p.1 ∉ expand cs := fun hmem => by
            obtain ⟨r, hr, hr1⟩ := List.mem_map.mp ((mem_expand_iff hcs).mp hmem)
            exact absurd hr1 (hq r hr).ne'
          simp [List.count_eq_zero_of_not_mem hno]
      | inr hpcs =>
          rw [ih hpcs hasc hcs.pos, if_neg (by simpa using (hq p hpcs).ne)]
          simp

/-! ## the counters of a chunk -/

theorem idFreqLoop_spec (hs : (x :: xs).Pairwise (· ≤ ·)) (hf : 0 < f)
    (hlen : f + xs.length < 2 ^ 64) :
    Counters (idFreqLoop x f xs) ∧ (∀ p ∈ idFreqLoop x f xs, x ≤ p.1) ∧
      expand (idFreqLoop x f xs) = List.replicate f x ++ xs := by
  induction xs generalizing x f with
  | nil => simp [idFreqLoop, expand, hf, Counters.mk]
  | cons y xs ih =>
      obtain ⟨hx, hs⟩ := List.pairwise_cons.mp hs
      rw [List.length_cons] at hlen
      rw [idFreqLoop]
      split
      · next heq =>
        subst heq
        obtain ⟨hc, hle, hexp⟩ := ih hs (f := f + 1) (by omega) (by omega)
        rw [u64_eq (by omega)]
        refine ⟨hc, hle, ?_⟩
        rw [hexp, List.replicate_succ', List.append_assoc, List.singleton_append]
      · next hne =>
        obtain ⟨hc, hle, hexp⟩ := ih hs (f := 1) (by omega) (by omega)
        have hxy : x < y := lt_of_le_of_ne (hx y List.mem_cons_self) hne
        refine ⟨⟨List.pairwise_cons.mpr ⟨fun p hp => hxy.trans_le (hle p hp), hc.ascending⟩, ?_⟩,
          ?_, ?_⟩
        · simpa [hf] using hc.pos
        · simpa using fun a b hp => (hxy.trans_le (hle (a, b) hp)).le
        · rw [expand_cons, hexp]
          simp

/-- **`sorted_array_to_id_freq`** of a sorted array. -/
theorem sortedArrayToIdFreq_spec (hs : xs.Pairwise (· ≤ ·)) (hne : xs ≠ [])
    (hlen : xs.length < 2 ^ 64) :
    ∃ bf, sortedArrayToIdFreq xs = some bf ∧ Counters bf ∧ expand bf = xs := by
  cases xs with
  | nil => contradiction
  | cons x xs =>
      obtain ⟨hc, -, hexp⟩ := idFreqLoop_spec hs Nat.one_pos (by simpa [Nat.add_comm] using hlen)
      exact ⟨_, rfl, hc, by simpa using hexp⟩

/-! ## the merge -/

theorem mergeLoop_fst (p : α × Nat) (hp : p ∈ mergeLoop cs bf) :
    (∃ c ∈ cs, c.1 = p.1) ∨ ∃ b ∈ bf, b.1 = p.1 := by
  induction cs, bf using mergeLoop.induct with
  | case1 c cs b bs hlt ih => grind [mergeLoop]
  | case2 c cs b bs _ hlt ih => grind [mergeLoop]
  | case3 c cs b bs _ _ ih => grind [mergeLoop]
  | case4 cs => grind [mergeLoop]
  | case5 bs hbs => grind [mergeLoop]

/-- **The merge** adds the counters up. -/
theorem mergeLoop_spec (hc : Counters cs) (hb : Counters bf)
    (hlen : (expand cs).length + (expand bf).length < 2 ^ 64) :
    Counters (mergeLoop cs bf) ∧ (expand (mergeLoop cs bf)).Perm (expand cs ++ expand bf) := by
  induction cs, bf using mergeLoop.induct with
  | case1 c cs b bs hlt ih =>
      obtain ⟨hc1, hc2⟩ := List.pairwise_cons.mp hc.ascending
      have hcs : Counters cs := ⟨hc2, fun p hp => hc.pos p (List.mem_cons_of_mem c hp)⟩
      rw [length_expand_cons] at hlen
      obtain ⟨hm, hperm⟩ := ih hcs hb (by omega)
      have hfst : ∀ p ∈ mergeLoop cs (b :: bs), c.1 < p.1 := fun p hp => by
        have hb1 := (List.pairwise_cons.mp hb.ascending).1
        have := mergeLoop_fst p hp
        grind
      rw [mergeLoop, if_pos hlt]
      refine ⟨⟨List.pairwise_cons.mpr ⟨hfst, hm.ascending⟩, ?_⟩, ?_⟩
      · simpa using ⟨hc.pos c List.mem_cons_self, by simpa using hm.pos⟩
      · rw [expand_cons, expand_cons, List.append_assoc]
        exact hperm.append_left _
  | case2 c cs b bs hle hlt ih =>
      obtain ⟨hb1, hb2⟩ := List.pairwise_cons.mp hb.ascending
      have hbs : Counters bs := ⟨hb2, fun p hp => hb.pos p (List.mem_cons_of_mem b hp)⟩
      rw [length_expand_cons (p := b)] at hlen
      obtain ⟨hm, hperm⟩ := ih hc hbs (by omega)
      have hfst : ∀ p ∈ mergeLoop (c :: cs) bs, b.1 < p.1 := fun p hp => by
        have hc1 := (List.pairwise_cons.mp hc.ascending).1
        have := mergeLoop_fst p hp
        grind
      rw [mergeLoop, if_neg hle, if_pos hlt]
      refine ⟨⟨List.pairwise_cons.mpr ⟨hfst, hm.ascending⟩, ?_⟩, ?_⟩
      · simpa using ⟨hb.pos b List.mem_cons_self, by simpa using hm.pos⟩
      · rw [expand_cons (p := b), expand_cons (p := b)]
        exact (hperm.append_left _).trans (List.perm_append_comm_assoc _ _ _)
  | case3 c cs b bs hle hle' ih =>
      obtain ⟨hc1, hc2⟩ := List.pairwise_cons.mp hc.ascending
      obtain ⟨hb1, hb2⟩ := List.pairwise_cons.mp hb.ascending
      have hcs : Counters cs := ⟨hc2, fun p hp => hc.pos p (List.mem_cons_of_mem c hp)⟩
      have hbs : Counters bs := ⟨hb2, fun p hp => hb.pos p (List.mem_cons_of_mem b hp)⟩
      rw [length_expand_cons, length_expand_cons] at hlen
      obtain ⟨hm, hperm⟩ := ih hcs hbs (by omega)
      have heq : c.1 = b.1 := le_antisymm (le_of_not_gt hle') (le_of_not_gt hle)
      have hfst : ∀ p ∈ mergeLoop cs bs, b.1 < p.1 := fun p hp => by
        have := mergeLoop_fst p hp
        grind
      have hbpos := hb.pos b List.mem_cons_self
      rw [mergeLoop, if_neg hle, if_neg hle', u64_eq (by omega)]
      refine ⟨⟨List.pairwise_cons.mpr ⟨hfst, hm.ascending⟩, ?_⟩, ?_⟩
      · simpa using ⟨Or.inl hbpos, by simpa using hm.pos⟩
      · rw [expand_cons, expand_cons, expand_cons, heq, Nat.add_comm, List.replicate_add,
          List.append_assoc, List.append_assoc]
        exact ((hperm.append_left _).trans (List.perm_append_comm_assoc _ _ _)).append_left _
  | case4 cs => simpa [mergeLoop, expand] using hc
  | case5 bs hbs => simpa [mergeLoop, expand] using hb

/-! ## the loop that drops -/

/-- Every counter loses one. -/
theorem expand_takeOne (h : Counters cs) (hlen : (expand cs).length < 2 ^ 64) :
    (expand cs).Perm (cs.map Prod.fst ++ expand (takeOne cs)) := by
  obtain ⟨-, hpos⟩ := h
  induction cs with
  | nil => simp [takeOne, expand]
  | cons p cs ih =>
      rw [length_expand_cons] at hlen
      have hp := hpos p List.mem_cons_self
      have ih := ih (by omega) fun q hq => hpos q (List.mem_cons_of_mem p hq)
      have hless : u64 (p.2 + (2 ^ 64 - 1)) = p.2 - 1 := by
        rw [u64, show p.2 + (2 ^ 64 - 1) = p.2 - 1 + 2 ^ 64 by omega, Nat.add_mod_right]
        exact Nat.mod_eq_of_lt (by omega)
      have hhead : expand (takeOne (p :: cs)) =
          List.replicate (p.2 - 1) p.1 ++ expand (takeOne cs) := by
        rw [takeOne, List.map_cons, hless, List.filter_cons]
        split
        · rfl
        · next h0 =>
          have hp1 : p.2 ≤ 1 := by simpa using h0
          rw [Nat.sub_eq_zero_of_le hp1]
          rfl
      have hrep : List.replicate p.2 p.1 = p.1 :: List.replicate (p.2 - 1) p.1 := by
        rw [← List.replicate_succ, Nat.sub_add_cancel hp]
      rw [hhead, expand_cons, hrep, List.map_cons, List.cons_append, List.cons_append]
      exact ((ih.append_left _).trans (List.perm_append_comm_assoc _ _ _)).cons _

theorem Counters.takeOne (h : Counters cs) : Counters (takeOne cs) where
  ascending := by
    refine List.Pairwise.filter _ ?_
    rw [List.pairwise_map]
    exact h.ascending
  pos p hp := by simpa using (List.mem_filter.mp hp).2

/-- **The loop** ends, and cuts the summary down to the counters there are. -/
theorem dropLow_spec {X : Multiset α} {d : Nat} (h : Counters cs)
    (hs : Summarises cntrSiz X (expand cs : Multiset α) d) (hX : X.card < 2 ^ 64)
    (hfuel : (expand cs).length ≤ fuel) :
    ∃ cs' d', dropLow cntrSiz fuel cs = some cs' ∧ Counters cs' ∧ cs'.length ≤ cntrSiz ∧
      Summarises cntrSiz X (expand cs' : Multiset α) d' := by
  induction fuel generalizing cs d with
  | zero =>
      have hnil : cs = [] := List.eq_nil_iff_forall_not_mem.mpr fun p hp => by
        have hmem := (mem_expand_iff h).mpr (List.mem_map_of_mem hp)
        rw [List.length_eq_zero_iff.mp (Nat.le_zero.mp hfuel)] at hmem
        simp at hmem
      subst hnil
      exact ⟨[], d, by simp [dropLow], h, by simp, hs⟩
  | succ fuel ih =>
      rw [dropLow]
      split
      · next hle => exact ⟨cs, d, rfl, h, hle, hs⟩
      · next hgt =>
        have hcard : (expand cs).length ≤ X.card := by
          simpa using Multiset.card_le_card hs.le
        have hone := expand_takeOne h (by omega)
        have hlen := hone.length_eq
        rw [List.length_append, List.length_map] at hlen
        have hdedup := dedup_expand h
        have hcut := hs.cut (by rw [hdedup, Multiset.coe_card, List.length_map]; omega)
        have hsub : (expand cs : Multiset α) - (expand cs : Multiset α).dedup =
            (expand (Frequent.takeOne cs) : Multiset α) := by
          rw [hdedup, Multiset.coe_eq_coe.mpr hone, ← Multiset.coe_add]
          exact add_tsub_cancel_left _ _
        rw [hsub] at hcut
        exact ih h.takeOne hcut (by omega)

/-! ## a chunk -/

/-- What the counters know of the elements processed so far. -/
structure Good (xs : List α) (data : Data α) : Prop where
  counters : Counters data.cntrs
  length_le : data.cntrs.length ≤ data.cntrSiz
  summary : ∃ d, Summarises data.cntrSiz (xs : Multiset α) (expand data.cntrs : Multiset α) d

/-- **One chunk**: it is counted, whatever its order. -/
theorem Good.processChunk {data : Data α} {chunk : List α} (h : Good xs data)
    (hfit : chunk.length ≤ data.maxChunkSiz) (hlen : (xs ++ chunk).length < 2 ^ 64) :
    ∃ cntrs, processChunk data chunk = some { data with cntrs := cntrs } ∧
      Good (xs ++ chunk) { data with cntrs := cntrs } := by
  rw [Frequent.processChunk, if_neg (by omega)]
  by_cases hnil : chunk = []
  · subst hnil
    exact ⟨data.cntrs, rfl, by simpa using h⟩
  have hpos := List.length_pos_iff.mpr hnil
  rw [if_neg (by omega)]
  obtain ⟨d, hs⟩ := h.summary
  rw [List.length_append] at hlen
  obtain ⟨packet, hsort, hperm, hsorted⟩ : ∃ ys, Operators.qsortAsc chunk = some ys ∧
      ys.Perm chunk ∧ ys.Pairwise (· ≤ ·) := Operators.qsortAsc_some (by omega)
  obtain ⟨bf, hbf, hb, hexp⟩ := sortedArrayToIdFreq_spec hsorted
    (fun h0 => hnil (by simpa [h0] using hperm.symm)) (by rw [hperm.length_eq]; omega)
  have hcard : (expand data.cntrs).length ≤ xs.length := by
    simpa using Multiset.card_le_card hs.le
  obtain ⟨hm, hmperm⟩ := mergeLoop_spec h.counters hb (by rw [hexp, hperm.length_eq]; omega)
  have hadd := hs.add (chunk : Multiset α)
  have hcount : (expand data.cntrs : Multiset α) + (chunk : Multiset α) =
      (expand (mergeLoop data.cntrs bf) : Multiset α) := by
    rw [Multiset.coe_add, Multiset.coe_eq_coe]
    exact ((hperm.symm.append_left _).trans (by rw [← hexp])).trans hmperm.symm
  rw [hcount, Multiset.coe_add] at hadd
  obtain ⟨cs', d', hdrop, hc', hle', hs'⟩ := dropLow_spec hm hadd
    (by rw [Multiset.coe_card, List.length_append]; omega) length_expand.le
  exact ⟨cs', by simp [hsort, hbf, updateCounter, hdrop], hc', hle', d', hs'⟩

/-- **All chunks**, by induction on their list. -/
theorem Good.processChunks {data : Data α} {chunks : List (List α)} (h : Good xs data)
    (hfit : ∀ c ∈ chunks, c.length ≤ data.maxChunkSiz)
    (hlen : (xs ++ chunks.flatten).length < 2 ^ 64) :
    ∃ cntrs, chunks.foldlM Frequent.processChunk data = some { data with cntrs := cntrs } ∧
      Good (xs ++ chunks.flatten) { data with cntrs := cntrs } := by
  induction chunks generalizing xs data with
  | nil => exact ⟨data.cntrs, rfl, by simpa using h⟩
  | cons c chunks ih =>
      rw [List.flatten_cons, ← List.append_assoc] at hlen ⊢
      obtain ⟨cntrs, hstep, hgood⟩ := h.processChunk (hfit c List.mem_cons_self)
        (by rw [List.length_append] at hlen; omega)
      obtain ⟨cntrs', hrest, hgood'⟩ := ih hgood
        (fun c' hc' => hfit c' (List.mem_cons_of_mem c hc')) hlen
      exact ⟨cntrs', by simp [List.foldlM_cons, hstep, hrest], hgood'⟩

/-! ## the output -/

/-- `out` are the frequent elements of `xs`, ascending. -/
structure IsFrequent (xs : List α) (minFreq err : Nat) (out : List (α × Nat)) : Prop where
  listed : ∀ x, minFreq ≤ xs.count x → ∃ f, (x, f) ∈ out
  near : ∀ p ∈ out, p.2 ≤ xs.count p.1 ∧ xs.count p.1 < p.2 + err
  frequent : ∀ p ∈ out, minFreq - err ≤ xs.count p.1
  ascending : out.Pairwise fun p q => p.1 < q.1

/-- Few elements occur often. -/
theorem length_mul_le (h : Counters cs) {t : Nat} (ht : ∀ p ∈ cs, t ≤ p.2) :
    cs.length * t ≤ (expand cs).length := by
  induction cs with
  | nil => simp
  | cons p cs ih =>
      have hp := ht p List.mem_cons_self
      have hcs : Counters cs := ⟨(List.pairwise_cons.mp h.ascending).2,
        fun q hq => h.pos q (List.mem_cons_of_mem p hq)⟩
      have := ih hcs fun q hq => ht q (List.mem_cons_of_mem p hq)
      rw [length_expand_cons, List.length_cons, Nat.add_mul, Nat.one_mul]
      omega

theorem Counters.filter (h : Counters cs) (p : α × Nat → Bool) : Counters (cs.filter p) where
  ascending := h.ascending.filter p
  pos q hq := h.pos q (List.mem_of_mem_filter hq)

theorem Good.processOutput {data : Data α} (h : Good xs data) (hsiz : xs.length ≤ data.siz)
    (hc : data.siz / data.err + 1 ≤ data.cntrSiz) (herr : 0 < data.err)
    (hmin : data.err < data.minFreq) (hmax : data.minFreq < 2 ^ 64)
    (hout : data.siz < 2 ^ 32 * (data.minFreq - data.err)) :
    ∃ out, processOutput data = some out ∧ IsFrequent xs data.minFreq data.err out := by
  obtain ⟨d, hs⟩ := h.summary
  have hd := hs.cuts_lt (by simpa using hsiz) herr hc
  have hthr : u64 (data.minFreq + (2 ^ 64 - data.err)) = data.minFreq - data.err := by
    rw [u64, show data.minFreq + (2 ^ 64 - data.err) = data.minFreq - data.err + 2 ^ 64 by omega,
      Nat.add_mod_right]
    exact Nat.mod_eq_of_lt (by omega)
  simp only [Frequent.processOutput, hthr]
  have hcount : ∀ p ∈ data.cntrs, p.2 ≤ xs.count p.1 ∧ xs.count p.1 ≤ p.2 + d := fun p hp => by
    have hle := hs.count_le p.1
    have hnear := hs.near p.1
    simp only [Multiset.coe_count, count_expand h.counters hp] at hle hnear
    exact ⟨hle, hnear⟩
  have hfew : (data.cntrs.filter fun c => decide (c.2 ≥ data.minFreq - data.err)).length < 2 ^ 32 := by
    have hmul := length_mul_le (h.counters.filter fun c => decide (c.2 ≥ data.minFreq - data.err))
      (t := data.minFreq - data.err) fun p hp => by simpa using (List.mem_filter.mp hp).2
    have hsub : (expand (data.cntrs.filter fun c => decide (c.2 ≥ data.minFreq - data.err))).length ≤
        (expand data.cntrs).length := by
      rw [length_expand, length_expand]
      exact (List.filter_sublist.map Prod.snd).sum_le_sum (by simp)
    have hcard : (expand data.cntrs).length ≤ xs.length := by
      simpa using Multiset.card_le_card hs.le
    exact Nat.lt_of_mul_lt_mul_right (a := data.minFreq - data.err) (by omega)
  rw [if_pos hfew]
  refine ⟨_, rfl, fun x hx => ?_, fun p hp => ?_, fun p hp => ?_, h.counters.ascending.filter _⟩
  · -- an element that is frequent has a counter, since it was cut too seldom to lose it
    have hnear := hs.near x
    simp only [Multiset.coe_count] at hnear
    have hmem : x ∈ expand data.cntrs := List.count_pos_iff.mp (by omega)
    obtain ⟨p, hp, rfl⟩ := List.mem_map.mp ((mem_expand_iff h.counters).mp hmem)
    rw [count_expand h.counters hp] at hnear
    exact ⟨p.2, List.mem_filter.mpr ⟨hp, by simpa using by omega⟩⟩
  · have := hcount p (List.mem_of_mem_filter hp)
    omega
  · have hp2 : data.minFreq - data.err ≤ p.2 := by simpa using (List.mem_filter.mp hp).2
    have := hcount p (List.mem_of_mem_filter hp)
    omega

/-- A new table of counters knows nothing, and has enough of them. -/
theorem allocate_good (α : Type) [LinearOrder α] {siz err : Nat} (minFreq maxChunkSiz : Nat)
    (herr : 0 < err) (hsiz : siz + 1 < 2 ^ 64) :
    ∃ (status : Nat) (data : Data α), allocate siz minFreq err maxChunkSiz = some (status, data) ∧
      Good [] data ∧ data.siz = siz ∧ data.minFreq = minFreq ∧ data.err = err ∧
      siz / err + 1 ≤ data.cntrSiz ∧ 0 < data.cntrSiz ∧
      data.maxChunkSiz = if maxChunkSiz < 1 then data.cntrSiz else maxChunkSiz := by
  have hle := Nat.div_le_self siz err
  simp only [allocate, if_neg herr.ne', u64_eq (show siz / err + 1 < 2 ^ 64 by omega)]
  refine ⟨_, _, rfl, ⟨⟨by simp, by simp⟩, by simp, 0, ?_⟩, rfl, rfl, rfl, le_max_left _ _,
    by simp, rfl⟩
  simpa [expand] using Summarises.zero

/-- **The frequent elements of a stream**, however it is cut into chunks: all that occur
`min_freq` times are found, none that occurs fewer than `min_freq - err` times, and the counts
are too low by less than `err`. -/
theorem ofChunks_isFrequent {siz minFreq err maxChunkSiz : Nat} {chunks : List (List α)}
    (herr : 0 < err) (hmin : err < minFreq) (hmax : minFreq < 2 ^ 64) (hsiz : siz + 1 < 2 ^ 64)
    (hlen : chunks.flatten.length ≤ siz) (hpos : 0 < maxChunkSiz)
    (hfit : ∀ c ∈ chunks, c.length ≤ maxChunkSiz) (hout : siz < 2 ^ 32 * (minFreq - err)) :
    ∃ out, ofChunks siz minFreq err maxChunkSiz chunks = some out ∧
      IsFrequent chunks.flatten minFreq err out := by
  obtain ⟨status, data, halloc, hgood, hs, hm, he, hc, -, hx⟩ :=
    allocate_good α minFreq maxChunkSiz herr hsiz
  rw [if_neg (by omega)] at hx
  obtain ⟨cntrs, hrun, hgood'⟩ := hgood.processChunks (by simpa [hx] using hfit)
    (by rw [List.nil_append]; omega)
  obtain ⟨out, ho, hfreq⟩ := hgood'.processOutput (by simpa [hs] using hlen)
    (by simpa [hs, he] using hc) (by simpa [he] using herr) (by simpa [he, hm] using hmin)
    (by simpa [hm] using hmax) (by simpa [hs, hm, he] using hout)
  exact ⟨out, by simp [ofChunks, halloc, hrun, ho], by simpa [hm, he] using hfreq⟩

/-- Five elements in two chunks, of which 7 is frequent. -/
theorem ofChunks_isFrequent_five :
    ∃ out, ofChunks 5 3 1 4 [[(7 : Nat), 2, 7], [7, 1]] = some out ∧
    IsFrequent [7, 2, 7, 7, 1] 3 1 out :=
  ofChunks_isFrequent (by decide) (by decide) (by decide) (by decide) (by decide) (by decide)
    (by decide) (by decide)

/-- **All at once** it is the same promise. -/
theorem approxFrequent_isFrequent {minFreq err : Nat} (herr : 0 < err) (hmin : err < minFreq)
    (hmax : minFreq < 2 ^ 64) (hlen : xs.length + 1 < 2 ^ 64)
    (hout : xs.length < 2 ^ 32 * (minFreq - err)) :
    ∃ out, approxFrequent xs minFreq err = some out ∧ IsFrequent xs minFreq err out := by
  obtain ⟨status, data, halloc, hgood, hs, hm, he, hc, hpos, hx⟩ :=
    allocate_good α minFreq 0 herr hlen
  have hall : ((List.range ((xs.length + data.cntrSiz - 1) / data.cntrSiz)).map
      (page data.cntrSiz xs)).flatten = xs := by
    rw [flatten_pages, List.take_of_length_le]
    have := Nat.div_add_mod' (xs.length + data.cntrSiz - 1) data.cntrSiz
    have := Nat.mod_lt (xs.length + data.cntrSiz - 1) hpos
    omega
  have hfit : ∀ c ∈ (List.range ((xs.length + data.cntrSiz - 1) / data.cntrSiz)).map
      (page data.cntrSiz xs), c.length ≤ data.maxChunkSiz := by
    simpa [hx] using fun i _ => length_page_le
  obtain ⟨cntrs, hrun, hgood'⟩ := hgood.processChunks hfit (by rw [hall, List.nil_append]; omega)
  rw [hall] at hgood'
  obtain ⟨out, ho, hfreq⟩ := hgood'.processOutput (by simp [hs])
    (by simpa [hs, he] using hc) (by simpa [he] using herr) (by simpa [he, hm] using hmin)
    (by simpa [hm] using hmax) (by simpa [hs, hm, he] using hout)
  exact ⟨out, by simp [approxFrequent, halloc, hrun, ho], by simpa [hm, he] using hfreq⟩

end Model

end QStore.Approx.Frequent
