import QStore.Operators.Unique

/-!
# QStore.Operators.Repeater

`repeater` (`F1F2OPF3/lua/repeater.lua`): each value of one vector as often as another says.

```
f1   a  b  c          max_num_in_chunk 3      a a c | c c
f2   2  0  3
```

A value whose copies do not fit into a chunk is carried on with `num_to_repeat`. What `repeater`
makes of the values and counts that `unique` has found is the vector it has found them in.
-/

namespace QStore.Operators

section Model

variable {α : Type}

/-- `lVector:get1`. There is nothing before the start, nor past the end. -/
def LVector.get1 (v : LVector α) (elemIdx : Int) : Option α :=
  if elemIdx < 0 then none else v.elems[elemIdx.toNat]?

end Model

variable {α : Type} {f1 : LVector α} {f2 : LVector Int} {runs done todo : List (α × Nat)}
  {s : RepeaterState} {rest out : List α} {fuel space l m c : Nat} {v : α}

/-- The two vectors have the values and the counts of `runs`. -/
structure Columns (f1 : LVector α) (f2 : LVector Int) (runs : List (α × Nat)) : Prop where
  values : f1.elems = runs.map Prod.fst
  counts : f2.elems = runs.map fun p => (p.2 : Int)

theorem Columns.get1 (h : Columns f1 f2 runs) (i : Nat) :
    f1.get1 i = runs[i]?.map Prod.fst ∧ f2.get1 i = runs[i]?.map fun p => (p.2 : Int) := by
  simp [LVector.get1, h.values, h.counts]

variable [BEq α] [LawfulBEq α] {xs : List α}

end QStore.Operators
