import Mathlib.Algebra.BigOperators.Group.List.Basic
import Mathlib.Algebra.Order.Group.Int
import Mathlib.Algebra.Order.Group.Unbundled.Abs
import Mathlib.Data.Prod.Lex
import Mathlib.Order.Bounds.Basic
import QStore.Lib.Blocks
import QStore.Operators.Reducer

/-!
# QStore.Operators.FToS

The C functions behind `min`, `max` and `sum` (`F_TO_S/lua/minmax.tmpl`, `sum.tmpl`), and the
reducers over them.

`minmax` cuts a chunk into a block for each thread, and each thread merges what it has found in a
critical section, in any order. The accumulator is the least place in the order of values and then
of indices,

```
values    5 3 8 3        places   (3, 1) < (3, 3) < (5, 0) < (8, 2)
```

and the least of several sets of places is the least of their least ones. `max` is `min` of the
values in the opposite order.
-/

namespace QStore.Operators

open Blocks

section Model

variable {α : Type}

/-- `MINMAX_…_ARGS` -/
structure MinmaxArgs (α : Type) where
  val : α
  idx : Nat
  num : Nat
  deriving DecidableEq

/-- What a thread finds in its block: `lval` and `lidx`. `none`: it reads past the end. -/
def minmaxBlock (comparator : α → α → Bool) (inp : List α) (nT offset t : Nat) :
    Option (α × Nat) := do
  let lb := lo inp.length nT t
  let ub := hi inp.length nT t
  let lval ← inp[lb]?
  (List.range' (lb + 1) (ub - (lb + 1))).foldlM (fun l i => do
    let inval ← inp[i]?
    if comparator inval l.1 then pure (inval, offset + i) else pure l) (lval, offset + lb)

/-- The critical section. -/
def minmaxMerge (comparator altComparator : α → α → Bool) (s l : α × Nat) : α × Nat :=
  let s := if comparator l.1 s.1 then l else s
  if altComparator l.1 s.1 then if l.2 < s.2 then (s.1, l.2) else s else s

/-- `val` and `idx` before the threads start: the first chunk does not look at `ptr_args`. -/
def minmaxStart (inp : List α) (args : MinmaxArgs α) (offset : Nat) : Option (α × Nat) :=
  if offset = 0 then inp[0]?.map (·, 0) else some (args.val, args.idx)

/-- A thread, from its block to its merge. -/
def minmaxThread (comparator altComparator : α → α → Bool) (inp : List α) (nT offset : Nat)
    (s : α × Nat) (t : Nat) : Option (α × Nat) :=
  (minmaxBlock comparator inp nT offset t).map (minmaxMerge comparator altComparator s)

/-- `minmax.tmpl`, with `threads` in the order in which they merge. -/
def minmax (comparator altComparator : α → α → Bool) (threads : List Nat) (inp : List α)
    (args : MinmaxArgs α) (offset : Nat) : Option (MinmaxArgs α) := do
  let s ← minmaxStart inp args offset
  let s ← threads.foldlM (minmaxThread comparator altComparator inp threads.length offset) s
  pure ⟨s.1, s.2, args.num + inp.length⟩

/-- `SUM_I_ARGS` -/
structure SumArgs where
  val : Int
  num : Nat
  deriving DecidableEq

/-- An addition of `int64_t`. `none`: it overflows. -/
def addI8 (a b : Int) : Option Int :=
  if -2 ^ 63 ≤ a + b ∧ a + b < 2 ^ 63 then some (a + b) else none

/-- `lsum` of block `t`. `none`: it overflows, or reads past the end. -/
def sumBlock (inp : List Int) (nT t : Nat) : Option Int :=
  (block inp.length nT t).foldlM (fun lsum i => inp[i]?.bind (addI8 lsum)) 0

/-- `sum.tmpl`, on integers, with `nT` blocks. It does not look at the offset. -/
def sumI (nT : Nat) (inp : List Int) (args : SumArgs) (_ : Nat) : Option SumArgs := do
  let sum ← (List.range nT).foldlM (fun sum t => (sumBlock inp nT t).bind (addI8 sum)) 0
  let val ← addI8 args.val sum
  pure ⟨val, args.num + inp.length⟩

end Model

/-! ## the least place -/

section Places

variable {α : Type} {inp xs : List α} {off lb n t : Nat} {I J : Set Nat}
  {s l : α × Nat}

/-- The places of `inp` with an index in `I`, of which the first has the index `off`. -/
def places (inp : List α) (off : Nat) (I : Set Nat) : Set (α ×ₗ Nat) :=
  {p | ∃ i ∈ I, ∃ v, inp[i]? = some v ∧ p = toLex (v, off + i)}

theorem places_union : places inp off (I ∪ J) = places inp off I ∪ places inp off J := by
  ext p
  simp only [places, Set.mem_union, Set.mem_ofPred_eq, or_and_right, exists_or]

theorem places_singleton {v : α} (hv : inp[n]? = some v) :
    places inp off {n} = {toLex (v, off + n)} := by
  ext p
  simp [places, hv]

theorem places_eq_univ (h : ∀ i < inp.length, i ∈ I) :
    places inp off I = places inp off Set.univ := by
  ext p
  constructor
  · rintro ⟨i, -, v, hv, rfl⟩
    exact ⟨i, trivial, v, hv, rfl⟩
  · rintro ⟨i, -, v, hv, rfl⟩
    obtain ⟨hi, -⟩ := List.getElem?_eq_some_iff.mp hv
    exact ⟨i, h i hi, v, hv, rfl⟩

/-- The places of a whole are those of its parts. -/
theorem places_append (chunk : List α) : places (xs ++ chunk) 0 Set.univ =
    places xs 0 Set.univ ∪ places chunk xs.length Set.univ := by
  ext p
  simp only [places, Set.mem_univ, true_and, Nat.zero_add, Set.mem_union, Set.mem_ofPred_eq]
  constructor
  · rintro ⟨i, v, hv, rfl⟩
    by_cases hi : i < xs.length
    · exact .inl ⟨i, v, by rwa [List.getElem?_append_left hi] at hv, rfl⟩
    · rw [List.getElem?_append_right (by omega)] at hv
      exact .inr ⟨i - xs.length, v, hv, by rw [Nat.add_sub_cancel' (by omega)]⟩
  · rintro (⟨i, v, hv, rfl⟩ | ⟨i, v, hv, rfl⟩)
    · obtain ⟨hi, -⟩ := List.getElem?_eq_some_iff.mp hv
      exact ⟨i, v, by rwa [List.getElem?_append_left hi], rfl⟩
    · refine ⟨xs.length + i, v, ?_, rfl⟩
      rw [List.getElem?_append_right (by omega), Nat.add_sub_cancel_left]
      exact hv

variable [LinearOrder α]

/-- The test in the loop of a thread takes the lesser place, where indices ascend. -/
theorem ite_lt_eq_min (hlt : s.2 < l.2) :
    toLex (if l.1 < s.1 then l else s) = min (toLex l) (toLex s) := by
  split
  · next h => exact (min_eq_left (Prod.Lex.toLex_le_toLex.mpr (.inl h))).symm
  · next h =>
    refine (min_eq_right (Prod.Lex.toLex_le_toLex.mpr ?_)).symm
    cases lt_or_eq_of_le (not_lt.mp h) with
    | inl h => exact .inl h
    | inr h => exact .inr ⟨h, hlt.le⟩

/-- The critical section takes the lesser place. -/
theorem minmaxMerge_eq_min : toLex (minmaxMerge (fun a b => decide (a < b))
    (fun a b => decide (a ≤ b)) s l) = min (toLex l) (toLex s) := by
  simp only [minmaxMerge, decide_eq_true_eq]
  cases lt_trichotomy l.1 s.1 with
  | inl h =>
      have hle : toLex l ≤ toLex s := Prod.Lex.toLex_le_toLex.mpr (.inl h)
      simp [h, min_eq_left hle]
  | inr h =>
      cases h with
      | inl h =>
          obtain ⟨a, i⟩ := s
          obtain ⟨b, j⟩ := l
          simp only at h
          subst h
          simp only [lt_irrefl, if_false, le_refl, if_true]
          split
          · next hlt =>
            have hle : toLex (b, j) ≤ toLex (b, i) :=
              Prod.Lex.toLex_le_toLex.mpr (.inr ⟨rfl, hlt.le⟩)
            rw [min_eq_left hle]
          · next hlt =>
            have hle : toLex (b, i) ≤ toLex (b, j) :=
              Prod.Lex.toLex_le_toLex.mpr (.inr ⟨rfl, not_lt.mp hlt⟩)
            rw [min_eq_right hle]
      | inr h =>
          have hle : toLex s ≤ toLex l := Prod.Lex.toLex_le_toLex.mpr (.inl h)
          simp [h.not_gt, h.not_ge, min_eq_right hle]

/-- What a thread finds is the least place of its block, or of the place the block starts at. -/
theorem minmaxBlock_isLeast (off : Nat) (hpos : 0 < inp.length) (ht : t < n) :
    ∃ l, minmaxBlock (fun a b => decide (a < b)) inp n off t = some l ∧
      IsLeast (places inp off ({lo inp.length n t} ∪ {i | i ∈ block inp.length n t}))
        (toLex l) := by
  have hlo := lo_lt hpos ht
  have hhi : hi inp.length n t ≤ inp.length := hi_le ht
  obtain ⟨lb, hlb⟩ : ∃ lb, lb = lo inp.length n t := ⟨_, rfl⟩
  -- after `k` turns: the least place of the first `k + 1` of the block
  have hloop : ∀ k, lb + k < inp.length →
      ∃ l, (List.range' (lb + 1) k).foldlM (fun l i => do
          let inval ← inp[i]?
          if decide (inval < l.1) then pure (inval, off + i) else pure l)
            (inp.getD lb inp[0], off + lb) = some l ∧ IsLeast (places inp off {i | lb ≤ i ∧ i < lb + 1 + k}) (toLex l) ∧
        l.2 < off + lb + 1 + k := by
    intro k
    induction k with
    | zero =>
        intro hk
        have hget : inp[lb]? = some inp[lb] := List.getElem?_eq_getElem (by omega)
        have hone : {i | lb ≤ i ∧ i < lb + 1 + 0} = {lb} := by
          ext i
          simp only [Set.mem_ofPred_eq, Set.mem_singleton_iff]
          omega
        refine ⟨_, rfl, ?_, by simp⟩
        rw [hone, places_singleton hget]
        simp [hget]
    | succ k ih =>
        intro hk
        obtain ⟨l, hrun, hleast, hlt⟩ := ih (by omega)
        have hget : inp[lb + 1 + k]? = some inp[lb + 1 + k] := List.getElem?_eq_getElem (by omega)
        have hset : {i | lb ≤ i ∧ i < lb + 1 + (k + 1)} =
            {lb + 1 + k} ∪ {i | lb ≤ i ∧ i < lb + 1 + k} := by
          ext i
          simp only [Set.mem_ofPred_eq, Set.mem_union, Set.mem_singleton_iff]
          omega
        refine ⟨if inp[lb + 1 + k] < l.1 then (inp[lb + 1 + k], off + (lb + 1 + k)) else l,
          ?_, ?_, ?_⟩
        · rw [List.range'_concat, List.foldlM_append, hrun]
          simp only [Nat.one_mul, Option.bind_eq_bind, Option.bind_some, List.foldlM_cons, hget,
            Option.pure_def, List.foldlM_nil, decide_eq_true_eq]
          split <;> rfl
        · have hmin := ite_lt_eq_min (s := l) (l := (inp[lb + 1 + k], off + (lb + 1 + k)))
            (by simp only; omega)
          rw [hset, places_union, places_singleton hget, hmin]
          exact isLeast_singleton.union hleast
        · split
          · simp only
            omega
          · omega
  obtain ⟨k, hk⟩ : ∃ k, k = hi inp.length n t - (lb + 1) := ⟨_, rfl⟩
  obtain ⟨l, hrun, hleast, -⟩ := hloop k (by omega)
  have hget : inp[lb]? = some (inp.getD lb inp[0]) := by
    simp [List.getElem?_eq_getElem (show lb < inp.length by omega)]
  have hset : ({lo inp.length n t} ∪ {i | i ∈ block inp.length n t} : Set Nat) =
      {i | lb ≤ i ∧ i < lb + 1 + k} := by
    ext i
    simp only [Set.mem_union, Set.mem_singleton_iff, Set.mem_ofPred_eq, mem_block]
    omega
  refine ⟨l, ?_, hset ▸ hleast⟩
  rw [minmaxBlock, ← hlb, hget, ← hk]
  exact hrun

/-- The threads, in any order, merge what they find. -/
theorem minmaxThreads_isLeast {S : Set (α ×ₗ Nat)} {threads : List Nat} (off : Nat)
    (hpos : 0 < inp.length)
    (ht : ∀ t ∈ threads, t < n) (hs : IsLeast S (toLex s)) :
    ∃ s', threads.foldlM (minmaxThread (fun a b => decide (a < b)) (fun a b => decide (a ≤ b))
        inp n off) s = some s' ∧
      IsLeast (S ∪ places inp off {i | ∃ t ∈ threads, i = lo inp.length n t ∨
        i ∈ block inp.length n t}) (toLex s') := by
  induction threads generalizing s S with
  | nil => exact ⟨s, rfl, by simpa [places] using hs⟩
  | cons t threads ih =>
      obtain ⟨l, hl, hleast⟩ := minmaxBlock_isLeast off hpos (ht t List.mem_cons_self)
      have hmerge := (hleast.union hs)
      rw [← minmaxMerge_eq_min] at hmerge
      obtain ⟨s', hrun, hs'⟩ := ih (fun t' ht' => ht t' (.tail _ ht')) hmerge
      refine ⟨s', by rw [List.foldlM_cons, minmaxThread, hl]; exact hrun, ?_⟩
      convert hs' using 1
      rw [Set.union_comm (places inp off _) S, Set.union_assoc, ← places_union]
      congr 2
      ext i
      simp

end Places

/-! ## min and max -/

section Minmax

/-- The operators that `minmax_specialize.lua` fills in. -/
inductive MinmaxOp
  | min
  | max

variable {α : Type} [LinearOrder α]

/-- `subs.comparator` -/
def MinmaxOp.comparator : MinmaxOp → α → α → Bool
  | .min => fun a b => decide (a < b)
  | .max => fun a b => decide (a > b)

/-- `subs.alt_comparator` -/
def MinmaxOp.altComparator : MinmaxOp → α → α → Bool
  | .min => fun a b => decide (a ≤ b)
  | .max => fun a b => decide (a ≥ b)

/-- The order whose first value is asked for. -/
def MinmaxOp.Le : MinmaxOp → α → α → Prop
  | .min => (· ≤ ·)
  | .max => (· ≥ ·)

/-- The first value of `xs` in an order, where it first occurs, and how many elements there are. -/
structure IsFirst (le : α → α → Prop) (xs : List α) (a : MinmaxArgs α) : Prop where
  num : a.num = xs.length
  mem : xs[a.idx]? = some a.val
  le : ∀ v ∈ xs, le a.val v
  first : ∀ i < a.idx, xs[i]? ≠ some a.val

/-- What the accumulator says of the elements seen. Before the first it is as it was made. -/
def IsMinmax (le : α → α → Prop) (a₀ : MinmaxArgs α) (xs : List α) (a : MinmaxArgs α) : Prop :=
  (xs = [] → a = a₀) ∧ (xs ≠ [] → IsFirst le xs a)

variable {xs : List α} {a a₀ : MinmaxArgs α}

/-- The least place is the first of the least value. -/
theorem isFirst_iff : IsFirst (· ≤ ·) xs a ↔
    a.num = xs.length ∧ IsLeast (places xs 0 Set.univ) (toLex (a.val, a.idx)) := by
  constructor
  · intro h
    refine ⟨h.num, ⟨a.idx, trivial, a.val, h.mem, by simp⟩, ?_⟩
    rintro p ⟨i, -, v, hv, rfl⟩
    rw [Nat.zero_add, Prod.Lex.toLex_le_toLex]
    have hle := h.le v (List.mem_of_getElem? hv)
    cases lt_or_eq_of_le hle with
    | inl hlt => exact .inl hlt
    | inr heq =>
        refine .inr ⟨heq, not_lt.mp fun hi => h.first i hi ?_⟩
        rw [hv, heq]
  · rintro ⟨hnum, ⟨i, -, v, hv, hp⟩, hlow⟩
    have hval := Prod.ext_iff.mp (toLex.injective hp)
    simp only [Nat.zero_add] at hval
    obtain ⟨rfl, rfl⟩ := hval
    refine ⟨hnum, hv, fun w hw => ?_, fun j hj hw => ?_⟩
    · obtain ⟨j, hj⟩ := List.getElem?_of_mem hw
      have hle := hlow ⟨j, trivial, w, hj, rfl⟩
      rw [Prod.Lex.toLex_le_toLex] at hle
      exact hle.elim le_of_lt fun h => h.1.le
    · have hle := hlow ⟨j, trivial, _, hw, rfl⟩
      rw [Nat.zero_add, Prod.Lex.toLex_le_toLex] at hle
      grind

/-- One more chunk. -/
theorem min_folds {x : LVector α} {nT : Nat} (h₀ : a₀.num = 0) (hnT : 0 < nT) {team : Nat → List Nat}
    (hteam : ∀ off, (team off).Perm (List.range nT)) :
    Folds (fun inp a off => minmax (MinmaxOp.min).comparator (MinmaxOp.min).altComparator
      (team off) inp a off) x (IsMinmax (MinmaxOp.min).Le a₀) := by
  intro xs chunk a hne _ hred
  obtain ⟨v, rest, rfl⟩ := List.exists_cons_of_ne_nil hne
  have hlen : (team xs.length).length = nT := by
    rw [(hteam _).length_eq, List.length_range]
  obtain ⟨s, S, hstart, hleast, hS⟩ : ∃ (s : α × Nat) (S : Set (α ×ₗ Nat)),
      minmaxStart (v :: rest) a xs.length = some s ∧
        IsLeast S (toLex s) ∧ S ∪ places (v :: rest) xs.length Set.univ =
          places (xs ++ v :: rest) 0 Set.univ := by
    by_cases hnil : xs = []
    · subst hnil
      refine ⟨(v, 0), {toLex (v, 0)}, rfl, isLeast_singleton, ?_⟩
      refine Set.union_eq_right.mpr (Set.singleton_subset_iff.mpr ?_)
      exact ⟨0, trivial, v, rfl, rfl⟩
    · have hzero : xs.length ≠ 0 := by simpa using hnil
      exact ⟨(a.val, a.idx), _, if_neg hzero, (isFirst_iff.mp (hred.2 hnil)).2,
        (places_append _).symm⟩
  have hpos : 0 < (v :: rest).length := Nat.succ_pos _
  obtain ⟨s', hrun, hs'⟩ := minmaxThreads_isLeast xs.length hpos
    (fun t ht => List.mem_range.mp ((hteam xs.length).mem_iff.mp ht)) hleast
  have hall : places (v :: rest) xs.length {i | ∃ t ∈ team xs.length,
      i = lo (v :: rest).length nT t ∨ i ∈ block (v :: rest).length nT t} =
        places (v :: rest) xs.length Set.univ := by
    refine places_eq_univ fun i hi => ?_
    obtain ⟨t, ht, hmem⟩ := exists_mem_block hnT hi
    exact ⟨t, (hteam _).mem_iff.mpr (List.mem_range.mpr ht), .inr hmem⟩
  rw [hall, hS] at hs'
  refine ⟨⟨s'.1, s'.2, a.num + (v :: rest).length⟩, ?_, by simp, fun _ => isFirst_iff.mpr ?_⟩
  · simp only [minmax, MinmaxOp.comparator, MinmaxOp.altComparator, hlen, hstart,
      Option.bind_eq_bind, Option.bind_some, hrun, Option.pure_def]
  · have hnum : a.num = xs.length := by
      by_cases hnil : xs = []
      · rw [hred.1 hnil, h₀, hnil, List.length_nil]
      · exact (hred.2 hnil).num
    exact ⟨by rw [List.length_append, hnum], hs'⟩

theorem minmax_folds (op : MinmaxOp) {x : LVector α} {nT : Nat} (h₀ : a₀.num = 0) (hnT : 0 < nT)
    {team : Nat → List Nat} (hteam : ∀ off, (team off).Perm (List.range nT)) :
    Folds (fun inp a off => minmax op.comparator op.altComparator (team off) inp a off) x
      (IsMinmax op.Le a₀) := by
  cases op with
  | min => exact min_folds h₀ hnT hteam
  | max =>
      -- `max` is `min` of the opposite order
      exact min_folds (α := αᵒᵈ) (x := ⟨x.elems, x.maxNumInChunk, x.pos⟩) h₀ hnT hteam

/-- **`min` and `max`**: after any calls of the reducer, for any number of threads that merge in
any order, the value is the least (greatest) element it has seen, with its first index and the
number of elements. -/
theorem minmax_run (op : MinmaxOp) (x : LVector α) (zero : α) {nT : Nat} (hnT : 0 < nT)
    {team : Nat → List Nat} (hteam : ∀ off, (team off).Perm (List.range nT)) (calls : List RCall) :
    ∃ r, reduceRun (fun inp a off => minmax op.comparator op.altComparator (team off) inp a off) x
        (.new ⟨zero, 0, 0⟩) calls = some r ∧
      (seen x calls = 0 → r.value = ⟨zero, 0, 0⟩) ∧
      (0 < seen x calls → IsFirst op.Le (x.elems.take (seen x calls)) r.value) := by
  have hnil : IsMinmax op.Le ⟨zero, 0, 0⟩ [] ⟨zero, 0, 0⟩ := ⟨fun _ => rfl, fun h => absurd rfl h⟩
  obtain ⟨r, hrun, hseen⟩ := reduceRun_seen (minmax_folds op rfl hnT hteam) hnil calls
  refine ⟨r, hrun, fun h0 => ?_, fun hpos => ?_⟩
  · exact hseen.value.1 (by simp [h0])
  · refine hseen.value.2 fun hnil => ?_
    have hlen := congrArg List.length hnil
    rw [List.length_take, List.length_nil] at hlen
    have := hseen.le
    omega

/-- Five elements in chunks of two, with three threads. -/
theorem minmax_run_five : ∃ r, reduceRun (fun inp a off => minmax (MinmaxOp.max).comparator
      (MinmaxOp.max).altComparator [2, 0, 1] inp a off) ⟨[5, 3, 8, 3, 8], 2, by decide⟩
      (.new ⟨0, 0, 0⟩) [.next, .value, .eval] = some r ∧
    (5 = 0 → r.value = ⟨0, 0, 0⟩) ∧ (0 < 5 → IsFirst (· ≥ ·) [5, 3, 8, 3, 8] r.value) :=
  have hteam : [2, 0, 1].Perm (List.range 3) := by decide
  minmax_run .max ⟨[5, 3, 8, 3, 8], 2, by decide⟩ 0 (by decide) (fun _ => hteam)
    [.next, .value, .eval]

end Minmax

/-! ## sum -/

section Sum

variable {inp xs : List Int} {nT n : Nat} {a : SumArgs} {js ts : List Nat} {s t : Int}

/-- What the elements of some places come to, and an upper bound of every sum of them. -/
def sumAt (inp : List Int) (js : List Nat) : Int := (js.map (inp.getD · 0)).sum

def sizeAt (inp : List Int) (js : List Nat) : Nat := (js.map fun j => (inp.getD j 0).natAbs).sum

theorem natAbs_sum_le (xs : List Int) : xs.sum.natAbs ≤ (xs.map Int.natAbs).sum := by
  induction xs with
  | nil => simp
  | cons v xs ih =>
      simp only [List.sum_cons, List.map_cons]
      omega

theorem natAbs_sumAt_le : (sumAt inp js).natAbs ≤ sizeAt inp js := by
  simpa [sumAt, sizeAt, Function.comp_def] using natAbs_sum_le (js.map (inp.getD · 0))

theorem addI8_eq (h : s.natAbs + t.natAbs < 2 ^ 63) : addI8 s t = some (s + t) :=
  if_pos ⟨by omega, by omega⟩

/-- Additions one by one, where all of them together do not overflow. -/
theorem foldlM_addI8 (hjs : ∀ j ∈ js, j < inp.length) (h : s.natAbs + sizeAt inp js < 2 ^ 63) :
    js.foldlM (fun s j => inp[j]?.bind (addI8 s)) s = some (s + sumAt inp js) := by
  induction js generalizing s with
  | nil => simp [sumAt]
  | cons j js ih =>
      have hget : inp[j]? = some (inp.getD j 0) := by
        simp [List.getElem?_eq_getElem (hjs j List.mem_cons_self)]
      simp only [sumAt, sizeAt, List.map_cons, List.sum_cons] at *
      rw [List.foldlM_cons, hget, Option.bind_some, addI8_eq (by omega)]
      simp only [Option.bind_eq_bind, Option.bind_some]
      rw [ih (fun i hi => hjs i (.tail _ hi)) (by omega), Int.add_assoc]

/-- A block. -/
theorem sumBlock_eq {b : Nat} (hb : b < nT) (h : sizeAt inp (block inp.length nT b) < 2 ^ 63) :
    sumBlock inp nT b = some (sumAt inp (block inp.length nT b)) := by
  have hlt : ∀ j ∈ block inp.length nT b, j < inp.length := fun j hj =>
    (mem_block.mp hj).2.trans_le (hi_le hb)
  rw [sumBlock, foldlM_addI8 hlt (by simpa using h), Int.zero_add]

theorem sumAt_append (js ks : List Nat) : sumAt inp (js ++ ks) = sumAt inp js + sumAt inp ks := by
  simp [sumAt]

theorem sizeAt_append (js ks : List Nat) :
    sizeAt inp (js ++ ks) = sizeAt inp js + sizeAt inp ks := by
  simp [sizeAt]

/-- The blocks, one after the other. -/
theorem foldlM_sumBlock (hts : ∀ b ∈ ts, b < nT)
    (h : s.natAbs + sizeAt inp (ts.flatMap (block inp.length nT)) < 2 ^ 63) :
    ts.foldlM (fun sum b => (sumBlock inp nT b).bind (addI8 sum)) s =
      some (s + sumAt inp (ts.flatMap (block inp.length nT))) := by
  induction ts generalizing s with
  | nil => simp [sumAt]
  | cons b ts ih =>
      rw [List.flatMap_cons, sizeAt_append] at h
      have hle : (sumAt inp (block inp.length nT b)).natAbs ≤ _ := natAbs_sumAt_le
      rw [List.foldlM_cons, sumBlock_eq (hts b List.mem_cons_self) (by omega), Option.bind_some,
        addI8_eq (by omega)]
      simp only [Option.bind_eq_bind, Option.bind_some]
      rw [ih (fun c hc => hts c (.tail _ hc)) (by omega), List.flatMap_cons, sumAt_append,
        Int.add_assoc]

/-- The blocks of a chunk are the chunk. -/
theorem sumI_eq (hnT : 0 < nT) (h : a.val.natAbs + (inp.map Int.natAbs).sum < 2 ^ 63) (off : Nat) :
    sumI nT inp a off = some ⟨a.val + inp.sum, a.num + inp.length⟩ := by
  have hinp : (List.range inp.length).map (inp.getD · 0) = inp := by
    refine List.ext_getElem (by simp) fun i _ hi => ?_
    simp [List.getElem?_eq_getElem hi]
  have hsum : sumAt inp (List.range inp.length) = inp.sum := by rw [sumAt, hinp]
  have hsize : sizeAt inp (List.range inp.length) = (inp.map Int.natAbs).sum := by
    rw [sizeAt]
    conv_rhs => rw [← hinp, List.map_map]
    rfl
  have hle : (sumAt inp (List.range inp.length)).natAbs ≤ _ := natAbs_sumAt_le
  rw [hsize, hsum] at hle
  have hblocks : (List.range nT).foldlM (fun sum b => (sumBlock inp nT b).bind (addI8 sum)) 0 =
      some inp.sum := by
    rw [foldlM_sumBlock fun b hb => List.mem_range.mp hb, flatMap_block hnT, hsum, Int.zero_add]
    rw [flatMap_block hnT, hsize, Int.natAbs_zero]
    omega
  rw [sumI, hblocks]
  simp only [Option.bind_eq_bind, Option.bind_some]
  rw [addI8_eq (by omega)]
  rfl

/-- One more chunk, of a vector of which no sum of elements can leave 64 bits. -/
theorem sum_folds {x : LVector Int} (hnT : 0 < nT) (hx : (x.elems.map Int.natAbs).sum < 2 ^ 63) :
    Folds (sumI nT) x fun xs a => a = ⟨xs.sum, xs.length⟩ := by
  rintro xs chunk a - ⟨rest, hrest⟩ rfl
  have hle : xs.sum.natAbs ≤ (xs.map Int.natAbs).sum := natAbs_sum_le xs
  have hparts : (xs.map Int.natAbs).sum + (chunk.map Int.natAbs).sum +
      (rest.map Int.natAbs).sum = (x.elems.map Int.natAbs).sum := by
    rw [← hrest]
    simp [Nat.add_assoc]
  exact ⟨_, sumI_eq hnT (by simp only; omega) _, by simp⟩

/-- **`sum`**: where no sum of the elements can leave 64 bits, the value after any calls is the sum
of the elements seen and how many they are, for any number of blocks. -/
theorem sum_run (x : LVector Int) (hnT : 0 < nT) (hx : (x.elems.map Int.natAbs).sum < 2 ^ 63)
    (calls : List RCall) : ∃ r, reduceRun (sumI nT) x (.new ⟨0, 0⟩) calls = some r ∧
      r.value = ⟨(x.elems.take (seen x calls)).sum, seen x calls⟩ := by
  obtain ⟨r, hrun, hseen⟩ := reduceRun_seen (sum_folds hnT hx) rfl calls
  refine ⟨r, hrun, ?_⟩
  rw [hseen.value, List.length_take, Nat.min_eq_left hseen.le]

/-- Three elements in chunks of two, with two blocks. -/
theorem sum_run_three : ∃ r, reduceRun (sumI 2) ⟨[5, -3, 8], 2, by decide⟩ (.new ⟨0, 0⟩)
    [.next, .value] = some r ∧ r.value = ⟨2, 2⟩ :=
  sum_run ⟨[5, -3, 8], 2, by decide⟩ (by decide) (by decide) [.next, .value]

end Sum

end QStore.Operators
