import Mathlib.Data.Finset.Card
import Mathlib.Data.List.Nodup
import Mathlib.Data.List.Count
import Mathlib.Data.Set.Function
import Mathlib.Order.Interval.Set.Basic
import Mathlib.Algebra.Order.Group.Nat

/-!
# QStore.Lib.Grouping

Rows with keys, and the two numberings that group them.

The *rank* of a key is the number of distinct keys up to its first row.
*Placing* the rows sends each to the base of its key plus the number of rows
that had the key before:

```
keys     a b a c b a
base     a ↦ 0, b ↦ 3, c ↦ 5
placed   0 3 1 5 4 2
```

Where the blocks `[base k, base k + count k)` do not overlap and lie below the
number of rows, this is a permutation, and it is a stable sort by block.
-/

namespace QStore.Grouping

variable {κ : Type} [DecidableEq κ] {rows ks : List κ} {k x : κ} {base run : κ → Nat}

/-! ## ranks -/

/-- The number of distinct keys up to the first row of `k`. -/
def rank (rows : List κ) (k : κ) : Nat := (rows.take (rows.idxOf k + 1)).toFinset.card

/-- A row at the end changes no rank. -/
theorem rank_append_of_mem (h : k ∈ rows) : rank (rows ++ [x]) k = rank rows k := by
  have hlt := List.idxOf_lt_length_of_mem h
  rw [rank, rank, List.idxOf_append_of_mem h, List.take_append_of_le_length hlt]

/-- A new key at the end comes last. -/
theorem rank_append_self (h : x ∉ rows) : rank (rows ++ [x]) x = rows.toFinset.card + 1 := by
  have hidx : (rows ++ [x]).idxOf x = rows.length := by
    rw [List.idxOf_append_of_notMem h, List.idxOf_cons_self, Nat.add_zero]
  have htake : (rows ++ [x]).take (rows.length + 1) = rows ++ [x] :=
    List.take_of_length_le (by simp)
  rw [rank, hidx, htake, List.toFinset_append, List.toFinset_cons, List.toFinset_nil,
    insert_empty_eq, Finset.union_comm, ← Finset.insert_eq,
    Finset.card_insert_of_notMem (by simpa using h)]

/-- **Ranks number the keys**: `1, 2, …`, one for each. -/
theorem bijOn_rank (rows : List κ) :
    Set.BijOn (rank rows) {k | k ∈ rows} (Set.Icc 1 rows.toFinset.card) := by
  induction rows using List.reverseRecOn with
  | nil => simp [Set.BijOn, Set.MapsTo, Set.InjOn, Set.SurjOn, Set.Icc_eq_empty]
  | append_singleton rows x ih =>
      have hold : Set.EqOn (rank rows) (rank (rows ++ [x])) {k | k ∈ rows} := fun k hk =>
        (rank_append_of_mem hk).symm
      by_cases hx : x ∈ rows
      · have hset : {k | k ∈ rows ++ [x]} = {k | k ∈ rows} := by
          ext k
          simp only [List.mem_append, List.mem_singleton, Set.mem_ofPred_eq, or_iff_left_iff_imp]
          exact fun h => h ▸ hx
        have hcard : (rows ++ [x]).toFinset = rows.toFinset := by
          ext k
          simpa using fun h => h ▸ hx
        rw [hset, hcard]
        exact ih.congr hold
      · have hset : {k | k ∈ rows ++ [x]} = insert x {k | k ∈ rows} := by
          ext k
          simp [or_comm]
        have hcard : (rows ++ [x]).toFinset.card = rows.toFinset.card + 1 := by
          rw [List.toFinset_append, List.toFinset_cons, List.toFinset_nil, insert_empty_eq,
            Finset.union_comm, ← Finset.insert_eq, Finset.card_insert_of_notMem (by simpa using hx)]
        have hicc : Set.Icc 1 (rows.toFinset.card + 1) =
            insert (rank (rows ++ [x]) x) (Set.Icc 1 rows.toFinset.card) := by
          ext n
          rw [rank_append_self hx]
          simp only [Set.mem_Icc, Set.mem_insert_iff]
          omega
        rw [hset, hcard, hicc]
        refine (ih.congr hold).insert ?_
        rw [rank_append_self hx]
        simp

/-! ## placing -/

/-- Each row at the base of its key, moved on by the rows of that key before it.
`run` counts those. -/
def placed (base run : κ → Nat) : List κ → List Nat
  | [] => []
  | k :: ks => (base k + run k) :: placed base (Function.update run k (run k + 1)) ks

@[simp] theorem length_placed : (placed base run ks).length = ks.length := by
  induction ks generalizing run with
  | nil => rfl
  | cons k ks ih => simp [placed, ih]

/-- The counts after some rows. -/
def runAfter (run : κ → Nat) (ks : List κ) (k : κ) : Nat := run k + ks.count k

@[simp] theorem runAfter_nil : runAfter run [] = run := by
  funext k
  simp [runAfter]

theorem runAfter_cons :
    runAfter run (k :: ks) = runAfter (Function.update run k (run k + 1)) ks := by
  funext x
  by_cases hx : x = k
  · subst hx
    simp only [runAfter, List.count_cons_self, Function.update_self]
    omega
  · simp [runAfter, Function.update_of_ne hx, List.count_cons_of_ne (Ne.symm hx)]

theorem take_placed (n : Nat) : (placed base run ks).take n = placed base run (ks.take n) := by
  induction ks generalizing n run with
  | nil => simp [placed]
  | cons k ks ih =>
      cases n with
      | zero => simp [placed]
      | succ n => simp [placed, ih]

theorem drop_placed (n : Nat) :
    (placed base run ks).drop n = placed base (runAfter run (ks.take n)) (ks.drop n) := by
  induction ks generalizing n run with
  | nil => simp [placed]
  | cons k ks ih =>
      cases n with
      | zero => simp
      | succ n => simp [placed, ih, runAfter_cons]

/-- **The rows of a key**, in their order, go to consecutive places. -/
theorem placed_filter (k : κ) :
    (((ks.zip (placed base run ks)).filter fun e => e.1 = k).map Prod.snd) =
      List.range' (base k + run k) (ks.count k) := by
  induction ks generalizing run with
  | nil => simp [placed]
  | cons x ks ih =>
      rw [placed, List.zip_cons_cons]
      by_cases hx : x = k
      · subst hx
        rw [List.filter_cons_of_pos (by simp), List.map_cons, ih, List.count_cons_self,
          Function.update_self, List.range'_succ, Nat.add_assoc]
      · rw [List.filter_cons_of_neg (by simpa using hx), ih, Function.update_of_ne (Ne.symm hx),
          List.count_cons_of_ne hx]

/-- A place is taken by a row of some key, within the block of that key. -/
theorem exists_of_mem_placed {q : Nat} (h : q ∈ placed base run ks) :
    ∃ k ∈ ks, base k + run k ≤ q ∧ q < base k + run k + ks.count k := by
  obtain ⟨i, hi, rfl⟩ := List.getElem_of_mem h
  have hi' : i < ks.length := by rwa [length_placed] at hi
  have hz : i < (ks.zip (placed base run ks)).length := by
    rw [List.length_zip, length_placed, Nat.min_self]
    exact hi'
  have hmem : (ks[i], (placed base run ks)[i]) ∈ ks.zip (placed base run ks) := by
    rw [← List.getElem_zip (h := hz)]
    exact List.getElem_mem _
  have hq : (placed base run ks)[i] ∈
      List.range' (base ks[i] + run ks[i]) (ks.count ks[i]) := by
    rw [← placed_filter]
    exact List.mem_map.mpr ⟨_, List.mem_filter.mpr ⟨hmem, by simp⟩, rfl⟩
  exact ⟨ks[i], List.getElem_mem hi', List.mem_range'_1.mp hq⟩

/-- The blocks of the keys do not overlap. -/
def Apart (base run : κ → Nat) (ks : List κ) : Prop :=
  ∀ k ∈ ks, ∀ x ∈ ks, k ≠ x → base k + run k + ks.count k ≤ base x + run x ∨
    base x + run x + ks.count x ≤ base k + run k

theorem nodup_placed (h : Apart base run ks) : (placed base run ks).Nodup := by
  induction ks generalizing run with
  | nil => simp [placed]
  | cons k ks ih =>
      have hcount : ∀ x ∈ ks, x ≠ k → (k :: ks).count x = ks.count x := fun x _ hx =>
        List.count_cons_of_ne (Ne.symm hx)
      have hk := List.count_cons_self (a := k) (l := ks)
      rw [placed, List.nodup_cons]
      constructor
      · intro hmem
        obtain ⟨x, hx, hle, hlt⟩ := exists_of_mem_placed hmem
        by_cases hxk : x = k
        · subst hxk
          rw [Function.update_self] at hle
          omega
        · rw [Function.update_of_ne hxk] at hle hlt
          have := h k List.mem_cons_self x (List.mem_cons_of_mem _ hx) (Ne.symm hxk)
          rw [hcount x hx hxk] at this
          omega
      · refine ih fun x hx y hy hne => ?_
        have := h x (List.mem_cons_of_mem _ hx) y (List.mem_cons_of_mem _ hy) hne
        by_cases hxk : x = k
        · subst hxk
          rw [hcount y hy (Ne.symm hne)] at this
          simp only [Function.update_self, Function.update_of_ne (Ne.symm hne)]
          omega
        · by_cases hyk : y = k
          · subst hyk
            rw [hcount x hx hxk] at this
            simp only [Function.update_self, Function.update_of_ne hxk]
            omega
          · rw [hcount x hx hxk, hcount y hy hyk] at this
            simpa only [Function.update_of_ne hxk, Function.update_of_ne hyk] using this

/-- **Placing is a permutation** when the blocks lie apart and inside. -/
theorem placed_perm (h : Apart base run ks)
    (hin : ∀ k ∈ ks, base k + run k + ks.count k ≤ ks.length) :
    (placed base run ks).Perm (List.range ks.length) := by
  have hsub : (placed base run ks).toFinset ⊆ Finset.range ks.length := by
    intro q hq
    obtain ⟨k, hk, -, hlt⟩ := exists_of_mem_placed (List.mem_toFinset.mp hq)
    exact Finset.mem_range.mpr (hlt.trans_le (hin k hk))
  have hcard : (Finset.range ks.length).card ≤ (placed base run ks).toFinset.card := by
    rw [List.toFinset_card_of_nodup (nodup_placed h), length_placed, Finset.card_range]
  refine (List.perm_ext_iff_of_nodup (nodup_placed h) List.nodup_range).mpr fun q => ?_
  rw [← List.mem_toFinset, Finset.eq_of_subset_of_card_le hsub hcard, Finset.mem_range,
    List.mem_range]

end QStore.Grouping
