import QStore.Operators.LVector
import QStore.Lib.Pull

/-!
# QStore.Operators.SelectRanges

`select_ranges` (`WHERE/lua/expander_select_ranges.lua`): the elements of a vector
at given ranges of positions, one range after the other.

```
f1      =  chunk 0, chunk 1, …      nC elements each, the last maybe fewer
ranges  =  [lb, ub), [lb, ub), …
```

The generator fills one output chunk a call. It keeps how far it got in each
range, and the range to start from next time.
-/

namespace QStore.Operators

variable {α : Type}

/-- A pair of entries of `lb_tbl` and `ub_tbl`. -/
structure Range where
  lb : Nat
  ub : Nat
  deriving DecidableEq, Repr

/-- What the generator keeps between calls. `startIdx` counts from 0. -/
structure SelectState where
  ranges : List Range
  startIdx : Nat
  lChunkNum : Nat
  stuffLeft : Bool

/-- Before the first call. -/
def selectStart (ranges : List Range) : SelectState := ⟨ranges, 0, 0, true⟩

/-- The variables of the loop over input chunks: `xlb`, `num_in_range`,
`space_left` and the output so far. -/
structure Copy (α : Type) where
  xlb : Nat
  numInRange : Nat
  spaceLeft : Nat
  out : List α

/-- One turn of that loop. `none`: an assertion fails. -/
def copyTurn (f1 : LVector α) (c : Copy α) : Option (Copy α) :=
  let nC := f1.maxNumInChunk
  let chunk := f1.getChunk (c.xlb / nC)
  let chunkPos := c.xlb % nC
  if chunk.length ≤ chunkPos then none
  else
    let num := min c.spaceLeft (min c.numInRange (chunk.length - chunkPos))
    some ⟨c.xlb + num, c.numInRange - num, c.spaceLeft - num,
      c.out ++ (chunk.drop chunkPos).take num⟩

/-- The loop, for at most `fuel` turns; each turn takes at least one element. -/
def copyLoop (f1 : LVector α) : Nat → Copy α → Option (Copy α)
  | 0, c => some c
  | fuel + 1, c =>
      if 0 < c.spaceLeft ∧ 0 < c.numInRange then (copyTurn f1 c).bind (copyLoop f1 fuel)
      else some c

/-- The variables of the loop over ranges. -/
structure Fill (α : Type) where
  spaceLeft : Nat
  out : List α

/-- `for i = start_idx, stop_idx`: each range in turn, with the `lb` it is left
at. There is no way out of the loop when the chunk is full. -/
def rangeLoop (f1 : LVector α) : List Range → Fill α → Option (List Range × Fill α)
  | [], f => some ([], f)
  | r :: rs, f =>
      (copyLoop f1 (r.ub - r.lb) ⟨r.lb, r.ub - r.lb, f.spaceLeft, f.out⟩).bind fun c =>
        (rangeLoop f1 rs ⟨c.spaceLeft, c.out⟩).map fun p => (⟨c.xlb, r.ub⟩ :: p.1, p.2)

/-- `while ( stuff_left and space_left > 0 )`, for at most `fuel` turns. The last
value of `new_start` is the last index of the loop over ranges. -/
def fillLoop (f1 : LVector α) : Nat → SelectState → Fill α → Option (SelectState × Fill α)
  | 0, _, _ => none
  | fuel + 1, s, f =>
      if s.stuffLeft = true ∧ 0 < f.spaceLeft then
        (rangeLoop f1 (s.ranges.drop s.startIdx) f).bind fun p =>
          fillLoop f1 fuel
            { s with ranges := s.ranges.take s.startIdx ++ p.1,
                     stuffLeft := s.stuffLeft && decide (p.2.spaceLeft = 0) } p.2
      else some (s, f)

/-- `gen`: one output chunk. -/
def selectGen (f1 : LVector α) : Gen SelectState α := fun s chunkNum =>
  if chunkNum ≠ s.lChunkNum then none
  else if s.stuffLeft = false then some ([], s)
  else
    (fillLoop f1 2 s ⟨f1.maxNumInChunk, []⟩).map fun p =>
      (p.2.out, { p.1 with lChunkNum := s.lChunkNum + 1, startIdx := s.ranges.length - 1 })

/-- The elements of a vector at a range. -/
def atRange (f1 : LVector α) (r : Range) : List α := (f1.elems.drop r.lb).take (r.ub - r.lb)

variable {f1 : LVector α} {c : Copy α} {r : Range} {rs : List Range} {n : Nat}

/-! ## one range -/

/-- A turn takes at least one element of the range, as long as there is room. -/
theorem copyTurn_eq (hspace : 0 < c.spaceLeft) (hnum : 0 < c.numInRange)
    (hle : c.xlb + c.numInRange ≤ f1.elems.length) :
    ∃ t, 0 < t ∧ t ≤ c.spaceLeft ∧ t ≤ c.numInRange ∧
      copyTurn f1 c = some ⟨c.xlb + t, c.numInRange - t, c.spaceLeft - t,
        c.out ++ (f1.elems.drop c.xlb).take t⟩ := by
  have hdrop := f1.drop_getChunk (i := c.xlb)
  have hlen := congrArg List.length hdrop
  rw [List.length_drop, List.length_take, List.length_drop] at hlen
  have hmod := Nat.mod_lt c.xlb f1.pos
  refine ⟨min c.spaceLeft (min c.numInRange
    ((f1.getChunk (c.xlb / f1.maxNumInChunk)).length - c.xlb % f1.maxNumInChunk)),
    by omega, by omega, by omega, ?_⟩
  rw [copyTurn]
  simp only
  rw [if_neg (by omega), hdrop, List.take_take]
  congr 4
  omega

/-- What the loop has done when nothing is left to do. -/
theorem copy_stop (h : ¬ (0 < c.spaceLeft ∧ 0 < c.numInRange)) :
    c = ⟨c.xlb + min c.spaceLeft c.numInRange, c.numInRange - c.spaceLeft,
      c.spaceLeft - c.numInRange,
      c.out ++ (f1.elems.drop c.xlb).take (min c.spaceLeft c.numInRange)⟩ := by
  have h0 : min c.spaceLeft c.numInRange = 0 := by omega
  have h1 : c.numInRange - c.spaceLeft = c.numInRange := by omega
  have h2 : c.spaceLeft - c.numInRange = c.spaceLeft := by omega
  rw [h0, h1, h2, List.take_zero, List.append_nil, Nat.add_zero]

/-- **The loop over input chunks** takes what is left of the range, up to the
room there is. -/
theorem copyLoop_eq {fuel : Nat} (hfuel : c.numInRange ≤ fuel)
    (hle : c.xlb + c.numInRange ≤ f1.elems.length) :
    copyLoop f1 fuel c = some ⟨c.xlb + min c.spaceLeft c.numInRange,
      c.numInRange - c.spaceLeft, c.spaceLeft - c.numInRange,
      c.out ++ (f1.elems.drop c.xlb).take (min c.spaceLeft c.numInRange)⟩ := by
  induction fuel generalizing c with
  | zero =>
      exact congrArg some (copy_stop (by omega))
  | succ fuel ih =>
      rw [copyLoop]
      by_cases hgo : 0 < c.spaceLeft ∧ 0 < c.numInRange
      · obtain ⟨t, ht, hts, htn, hturn⟩ := copyTurn_eq hgo.1 hgo.2 hle
        rw [if_pos hgo, hturn, Option.bind_some, ih (by simp only; omega) (by simp only; omega)]
        simp only [Option.some.injEq, Copy.mk.injEq]
        refine ⟨by omega, by omega, by omega, ?_⟩
        have hsplit : min c.spaceLeft c.numInRange =
            t + min (c.spaceLeft - t) (c.numInRange - t) := by omega
        rw [hsplit, List.take_add, List.drop_drop, List.append_assoc]
      · rw [if_neg hgo]
        exact congrArg some (copy_stop hgo)

/-! ## the ranges -/

/-- The range lies in the vector. -/
def Range.In (f1 : LVector α) (r : Range) : Prop := r.lb ≤ r.ub ∧ r.ub ≤ f1.elems.length

theorem length_atRange (h : r.In f1) : (atRange f1 r).length = r.ub - r.lb := by
  obtain ⟨h1, h2⟩ := h
  rw [atRange, List.length_take, List.length_drop]
  omega

/-- The range, less its first `k` elements. -/
def Range.skip (r : Range) (k : Nat) : Range := ⟨r.lb + min k (r.ub - r.lb), r.ub⟩

theorem Range.In.skip (h : r.In f1) (k : Nat) : (r.skip k).In f1 := by
  obtain ⟨h1, h2⟩ := h
  exact ⟨by simp only [Range.skip]; omega, h2⟩

theorem atRange_skip (h : r.In f1) (k : Nat) : atRange f1 (r.skip k) = (atRange f1 r).drop k := by
  obtain ⟨h1, h2⟩ := h
  rw [atRange, atRange, Range.skip, List.drop_take, List.drop_drop]
  simp only
  rcases Nat.le_total k (r.ub - r.lb) with hk | hk
  · rw [Nat.min_eq_left hk]
    congr 1
    omega
  · rw [Nat.min_eq_right hk, show r.ub - (r.lb + (r.ub - r.lb)) = 0 by omega,
      show r.ub - r.lb - k = 0 by omega, List.take_zero, List.take_zero]

/-- What a pass with room for `k` elements leaves of the ranges. -/
def leave : Nat → List Range → List Range
  | _, [] => []
  | k, r :: rs => r.skip k :: leave (k - (r.ub - r.lb)) rs

theorem length_leave : (leave n rs).length = rs.length := by
  induction rs generalizing n with
  | nil => rfl
  | cons r rs ih => rw [leave, List.length_cons, ih, List.length_cons]

theorem leave_concat :
    leave n (rs ++ [r]) = leave n rs ++ [r.skip (n - (rs.map fun r => r.ub - r.lb).sum)] := by
  induction rs generalizing n with
  | nil => rfl
  | cons q rs ih =>
      rw [List.cons_append, leave, ih, leave, List.map_cons, List.sum_cons, Nat.sub_add_eq]
      rfl

theorem length_ranges (h : ∀ r ∈ rs, r.In f1) :
    (rs.flatMap (atRange f1)).length = (rs.map fun r => r.ub - r.lb).sum := by
  induction rs with
  | nil => rfl
  | cons r rs ih =>
      rw [List.flatMap_cons, List.length_append, length_atRange (h r (by simp)),
        ih fun q hq => h q (List.mem_cons_of_mem r hq), List.map_cons, List.sum_cons]

/-- **One pass over the ranges** takes their elements in order, up to the room
there is, and leaves the rest where it is. -/
theorem rangeLoop_eq (h : ∀ r ∈ rs, r.In f1) (f : Fill α) :
    rangeLoop f1 rs f = some (leave f.spaceLeft rs,
      ⟨f.spaceLeft - (rs.flatMap (atRange f1)).length,
        f.out ++ (rs.flatMap (atRange f1)).take f.spaceLeft⟩) := by
  induction rs generalizing f with
  | nil => simp [rangeLoop, leave]
  | cons r rs ih =>
      have hr := h r (by simp)
      have hlen := length_atRange hr
      obtain ⟨h1, h2⟩ := hr
      have hcopy := copyLoop_eq (c := ⟨r.lb, r.ub - r.lb, f.spaceLeft, f.out⟩) (Nat.le_refl _)
        (show r.lb + (r.ub - r.lb) ≤ f1.elems.length by omega)
      simp only at hcopy
      rw [rangeLoop, hcopy, Option.bind_some, ih (fun q hq => h q (List.mem_cons_of_mem r hq)),
        Option.map_some]
      simp only [Option.some.injEq, Prod.mk.injEq, Fill.mk.injEq]
      refine ⟨rfl, ?_, ?_⟩
      · rw [List.flatMap_cons, List.length_append, hlen, Nat.sub_add_eq]
      · rw [List.flatMap_cons, List.take_append, hlen, List.append_assoc]
        congr 2
        rw [atRange, List.take_take]

/-! ## the calls -/

/-- A call with something left: it gives the start of what the ranges from
`startIdx` on still hold, and leaves the rest. -/
theorem selectGen_eq {P : List Range} {k : Nat} (h : ∀ r ∈ rs, r.In f1) :
    selectGen f1 ⟨P ++ rs, P.length, k, true⟩ k =
      some ((rs.flatMap (atRange f1)).take f1.maxNumInChunk,
        ⟨P ++ leave f1.maxNumInChunk rs, (P ++ rs).length - 1, k + 1,
          decide (f1.maxNumInChunk ≤ (rs.flatMap (atRange f1)).length)⟩) := by
  have hpos := f1.pos
  have hpass := rangeLoop_eq h (⟨f1.maxNumInChunk, []⟩ : Fill α)
  simp only [List.nil_append] at hpass
  rw [selectGen, if_neg (by simp), if_neg (by simp), fillLoop, if_pos ⟨rfl, hpos⟩,
    List.drop_left, hpass, Option.bind_some, List.take_left, fillLoop]
  have hfull : decide (f1.maxNumInChunk - (rs.flatMap (atRange f1)).length = 0) =
      decide (f1.maxNumInChunk ≤ (rs.flatMap (atRange f1)).length) := by
    rw [decide_eq_decide]
    omega
  simp only [Bool.true_and, hfull]
  rw [if_neg (by simp only [decide_eq_true_eq]; omega)]
  rfl

/-- The generator is at the last range, with the elements `rest` left of it. -/
def AtLast (f1 : LVector α) (P : List Range) (s : SelectState) (k : Nat) (rest : List α) : Prop :=
  ∃ r : Range, r.In f1 ∧ s = ⟨P ++ [r], P.length, k, true⟩ ∧ rest = atRange f1 r

/-- From the last range on, every element is given. -/
theorem pulls_last {P : List Range} {k : Nat} (hr : r.In f1) :
    ∃ outs, Pulls (selectGen f1) f1.maxNumInChunk ⟨P ++ [r], P.length, k, true⟩ k outs ∧
      outs.flatten = atRange f1 r := by
  refine Pulls.of_pieces (AtLast f1 P) f1.pos ?_ ⟨r, hr, rfl, rfl⟩
  rintro s k rest ⟨q, hq, rfl, rfl⟩
  have hall : ∀ r ∈ [q], r.In f1 := List.forall_mem_singleton.mpr hq
  have hstep := selectGen_eq (P := P) (k := k) hall
  rw [List.flatMap_singleton, List.length_append, List.length_singleton, Nat.add_sub_cancel] at hstep
  refine ⟨_, hstep, fun hfull => ⟨q.skip f1.maxNumInChunk, hq.skip _, ?_, (atRange_skip hq _).symm⟩⟩
  rw [decide_eq_true hfull]
  rfl

/-- **What the generator gives**: one chunk of all the ranges, and from then on
the last range alone. -/
theorem pulls_select {A : List Range} (hA : ∀ q ∈ A, q.In f1) (hr : r.In f1) :
    ∃ outs, Pulls (selectGen f1) f1.maxNumInChunk (selectStart (A ++ [r])) 0 outs ∧
      outs.flatten = ((A ++ [r]).flatMap (atRange f1)).take f1.maxNumInChunk ++
        (atRange f1 r).drop (f1.maxNumInChunk - (A.flatMap (atRange f1)).length) := by
  have hall : ∀ q ∈ A ++ [r], q.In f1 := by
    intro q hq
    rcases List.mem_append.mp hq with h | h
    · exact hA q h
    · rw [List.mem_singleton.mp h]
      exact hr
  have hfirst := selectGen_eq (P := []) (k := 0) hall
  rw [List.nil_append, List.nil_append, leave_concat, ← length_ranges hA, List.length_append,
    List.length_singleton, Nat.add_sub_cancel] at hfirst
  obtain ⟨X, hX⟩ : ∃ X, X = (A ++ [r]).flatMap (atRange f1) := ⟨_, rfl⟩
  have hlen : X.length = (A.flatMap (atRange f1)).length + (atRange f1 r).length := by
    rw [hX, List.flatMap_append, List.length_append, List.flatMap_singleton]
  rw [← hX] at hfirst ⊢
  by_cases hfull : f1.maxNumInChunk ≤ X.length
  · rw [decide_eq_true hfull] at hfirst
    obtain ⟨outs, ho, hflat⟩ := pulls_last (P := leave f1.maxNumInChunk A) (k := 1)
      (hr.skip (f1.maxNumInChunk - (A.flatMap (atRange f1)).length))
    rw [length_leave] at ho
    refine ⟨X.take f1.maxNumInChunk :: outs, .more hfirst ?_ ho, ?_⟩
    · rw [List.length_take]
      omega
    · rw [List.flatten_cons, hflat, atRange_skip hr]
  · refine ⟨[X.take f1.maxNumInChunk], .last hfirst ?_, ?_⟩
    · rw [List.length_take]
      omega
    · rw [List.flatten_singleton, List.drop_eq_nil_of_le (by omega), List.append_nil]

/-! ## what was asked for -/

/-- `select_ranges` gives the ranges, one after the other, in chunks that are full
up to the last. -/
def SelectsRanges (f1 : LVector α) (ranges : List Range) : Prop :=
  ∃ outs, Pulls (selectGen f1) f1.maxNumInChunk (selectStart ranges) 0 outs ∧
    outs.flatten = ranges.flatMap (atRange f1) ∧
    ∀ out ∈ outs.dropLast, out.length = f1.maxNumInChunk

theorem selectsRanges_concat {A : List Range} (hA : ∀ q ∈ A, q.In f1) (hr : r.In f1) :
    SelectsRanges f1 (A ++ [r]) ↔ (A.map fun q => q.ub - q.lb).sum ≤ f1.maxNumInChunk := by
  rw [← length_ranges hA]
  obtain ⟨outs, ho, hflat⟩ := pulls_select hA hr
  have hsplit : (A ++ [r]).flatMap (atRange f1) = A.flatMap (atRange f1) ++ atRange f1 r := by
    rw [List.flatMap_append, List.flatMap_singleton]
  rw [hsplit, List.take_append] at hflat
  constructor
  · rintro ⟨outs', ho', hflat', -⟩
    rw [ho'.unique ho, hflat, hsplit] at hflat'
    have hlen := congrArg List.length hflat'
    simp only [List.length_append, List.length_take, List.length_drop] at hlen
    omega
  · intro hle
    refine ⟨outs, ho, ?_, ho.length⟩
    rw [hflat, hsplit, List.take_of_length_le hle, List.append_assoc, List.take_append_drop]

/-- **When the ranges are given**: exactly when all of them but the last fit one
chunk. -/
theorem selectsRanges_iff {ranges : List Range} (hne : ranges ≠ [])
    (h : ∀ q ∈ ranges, q.lb < q.ub ∧ q.ub ≤ f1.elems.length) :
    SelectsRanges f1 ranges ↔
      (ranges.dropLast.map fun q => q.ub - q.lb).sum ≤ f1.maxNumInChunk := by
  have hsplit := List.dropLast_append_getLast hne
  have hin : ∀ q ∈ ranges, q.In f1 := fun q hq => ⟨Nat.le_of_lt (h q hq).1, (h q hq).2⟩
  rw [← selectsRanges_concat (fun q hq => hin q (List.mem_of_mem_dropLast hq))
    (hin _ (List.getLast_mem hne)), hsplit]

/-- The numbers up to 70, in chunks of 64. -/
def upTo70 : LVector Nat := ⟨List.range 71, 64, by decide⟩

/-- Ranges in both chunks. -/
theorem selectsRanges_both : SelectsRanges upTo70 [⟨0, 16⟩, ⟨60, 67⟩, ⟨0, 64⟩] :=
  (selectsRanges_iff (by decide) (by decide)).mpr (by decide)

/-- A range of 65 elements and one of one: the last of the 65 is never given. -/
theorem selectsRanges_fails : ¬ SelectsRanges upTo70 [⟨0, 65⟩, ⟨70, 71⟩] := by
  have hin : ∀ q ∈ [(⟨0, 65⟩ : Range)], q.In upTo70 := by
    intro q hq
    rw [List.mem_singleton.mp hq]
    exact ⟨by decide, by decide⟩
  have h := selectsRanges_concat hin (r := ⟨70, 71⟩) ⟨by decide, by decide⟩
  intro hs
  exact absurd (h.mp hs) (by decide)

end QStore.Operators
