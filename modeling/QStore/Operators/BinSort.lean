import QStore.Lib.Bins
import QStore.Lib.Scatter
import QStore.Operators.LVector
import QStore.Vctr.SetLma
import QStore.Vctr.Setters

/-!
# QStore.Operators.BinSort

A parallel sort in three operators (`OPERATORS/BIN_COUNT`, `BIN_PLACE`, `PAR_SORT`), built with
`DEBUG` as `setup.sh` has it.  `bin_count` counts the values in each of a number of bins.
`bin_place` makes an offset for each bin from the counts and writes every value, and with it
what an auxiliary vector has in its row, to where its bin is to lie.  `par_sort` sorts each
bin in place.

A bin belongs to a thread, the remainder of its number by `omp_get_num_procs`; the parallel
region that places the values may have fewer threads than that.

`bin_place` clones the vectors it is given. A clone is made of a copy of the linear file, and
a vector that has none is not cloned.
-/

namespace QStore.Operators

variable {α : Type} [LinearOrder α]

/-! ## The search for a bin -/

/-- `max_num_probes` -/
def maxNumProbes (n : Nat) : Nat := if 1 < n then maxNumProbes (n / 2) + 1 else 1
termination_by n

/-- The loop over `num_probes`, for the bin that a value lies in. Both kernels have it. `bad`
is a status below zero, which does not end the loop; there is nothing behind the bounds. -/
def search (lb ub : List α) (inval : α) : Nat → Nat → Nat → Nat → Bool → Option Nat
  | 0, _, _, _, _ => none
  | fuel + 1, numProbes, lbIdx, ubIdx, bad =>
      let bad := bad || decide (maxNumProbes lb.length < numProbes)
      let binIdx := (lbIdx + ubIdx) / 2
      match lb[binIdx]?, ub[binIdx]? with
      | some thisLb, some thisUb =>
          if thisLb ≤ inval ∧ inval < thisUb then if bad then none else some binIdx
          else if inval < thisLb then search lb ub inval fuel (numProbes + 1) lbIdx binIdx bad
          else search lb ub inval fuel (numProbes + 1) binIdx ubIdx bad
      | _, _ => none

/-- The bin of a value: none where the status is negative. -/
def binNum (lb ub : List α) (inval : α) : Option Nat :=
  let outside := (lb.head?.any fun l => inval < l) || (ub.getLast?.any fun u => u < inval)
  search lb ub inval lb.length 0 0 lb.length outside

/-- `lb[i] >= ub[i]` for some bin. -/
def badBounds (lb ub : List α) : Bool := (lb.zip ub).any fun p => p.2 ≤ p.1

/-! ## The threads of a parallel region -/

/-- `thread_num[i]` of a chunk -/
def threadNum (lb ub : List α) (nProcs : Nat) (chunk : List (α × List UInt8)) (i : Nat) :
    Option Nat :=
  (chunk[i]?).bind fun r => (binNum lb ub r.1).map (· % nProcs)

/-- An order in which a team works on `n` rows: every row is one of a thread of the team, and
each thread takes all of its rows, one after the other. -/
structure Interleaves (thread : Nat → Option Nat) (n team : Nat) (order : List Nat) : Prop where
  only : ∀ i ∈ order, ∃ t, t < team ∧ thread i = some t
  own : ∀ t, t < team → (order.filter fun i => thread i = some t) =
    (List.range n).filter fun i => thread i = some t

/-! ## clone -/

/-- How a vector is stored: whether it has a linear file, whether its type is `SC`, and how
long its name is (where it has none, its uqid stands for it). -/
structure Stored where
  isLma : Bool
  isSC : Bool
  nameLen : Nat

/-- The loop of `vctr_set_lma` over the chunks of the clone: none of them is empty. -/
def entersChnks (max : Nat) : Nat → Nat → Bool
  | 0, _ => true
  | k + 1, toPut => decide (min max toPut ≠ 0) && entersChnks max k (toPut - min max toPut)

/-- `lVector:clone` of a vector of `n` elements, with so many bytes left of the disk.
`chnk_clone` raises for every vector that has no linear file. `cVector.add` is not given the
width, which it asks for where the type is `SC`, and it sets a name with `clone_` in front; then
the copy of the file becomes the linear file of the clone. -/
def Stored.clones (v : Stored) (max n width dskLeft : Nat) : Bool :=
  v.isLma && !v.isSC && decide ("clone_".length + v.nameLen ≤ Vctr.maxLenVctrName) &&
    decide (n * width ≤ dskLeft) && entersChnks max (Vctr.lmaChnks max n) (Vctr.u32 n)

/-- The loop over the chunks of a clone runs out of elements where the chunks before the last one
have room for all of them. -/
theorem entersChnks_iff {max : Nat} (hmax : 0 < max) (k toPut : Nat) :
    entersChnks max (k + 1) toPut = true ↔ k * max < toPut := by
  induction k generalizing toPut with
  | zero =>
      simp only [entersChnks, Bool.and_true, decide_eq_true_eq]
      omega
  | succ k ih =>
      have hmul : (k + 1) * max = k * max + max := Nat.succ_mul k max
      rw [entersChnks, Bool.and_eq_true, ih, decide_eq_true_eq]
      omega

/-- It does not for less than 2^32 elements, and for no other number of them. -/
theorem entersChnks_lmaChnks {max n : Nat} (hmax : 0 < max) (hmax' : max < 2 ^ 32) (hn : 0 < n)
    (hnum : n / max + 1 < 2 ^ 32) :
    entersChnks max (Vctr.lmaChnks max n) (Vctr.u32 n) = true ↔ n < 2 ^ 32 := by
  by_cases hlt : n < 2 ^ 32
  · obtain ⟨_, hpos, hlast⟩ := Vctr.lmaChnks_spec hmax hlt hn
    obtain ⟨k, hk⟩ : ∃ k, Vctr.lmaChnks max n = k + 1 := ⟨Vctr.lmaChnks max n - 1, by omega⟩
    rw [hk, entersChnks_iff hmax, Vctr.u32_eq hlt]
    rw [hk, Nat.add_sub_cancel] at hlast
    exact iff_of_true hlast hlt
  · -- the number of chunks is right, but that of the elements to put is not
    have hmod : Vctr.u32 (Vctr.u32 (n / max) * max) ≠ n := by
      have := Nat.mod_lt (Vctr.u32 (n / max) * max) (Nat.two_pow_pos 32)
      simp only [Vctr.u32]
      omega
    have hrest := Nat.div_add_mod' n max
    have hlow := Nat.mod_lt n hmax
    have hput : Vctr.u32 n + 2 ^ 32 ≤ n := by
      simp only [Vctr.u32]
      omega
    rw [Vctr.lmaChnks, if_neg hmod, Vctr.u32_eq (by omega : n / max < 2 ^ 32),
      Vctr.u32_eq hnum, entersChnks_iff hmax]
    omega

/-- What a vector of `n` elements needs for `clone`. -/
structure Stored.Cloneable (v : Stored) (n width dskLeft : Nat) : Prop where
  isLma : v.isLma = true
  isSC : v.isSC = false
  name : v.nameLen ≤ 25
  count : n < 2 ^ 32
  room : n * width ≤ dskLeft

theorem Stored.clones_iff {v : Stored} {max n width dskLeft : Nat} (hmax : 0 < max)
    (hmax' : max < 2 ^ 32) (hn : 0 < n) (hnum : n / max + 1 < 2 ^ 32) :
    v.clones max n width dskLeft = true ↔ v.Cloneable n width dskLeft := by
  have hname : "clone_".length = 6 := by decide
  simp only [clones, Bool.and_eq_true, Bool.not_eq_true', decide_eq_true_eq,
    entersChnks_lmaChnks hmax hmax' hn hnum, hname, Vctr.maxLenVctrName]
  constructor
  · rintro ⟨⟨⟨⟨hlma, hsc⟩, hlen⟩, hroom⟩, hlt⟩
    exact ⟨hlma, hsc, by omega, hlt, hroom⟩
  · intro h
    exact ⟨⟨⟨⟨h.isLma, h.isSC⟩, by have := h.name; omega⟩, h.room⟩, h.count⟩

/-! ## The arguments -/

/-- What the three operators are called with. The rows are `x` and, where `auxWidth` is not 0,
the auxiliary vector. Bounds increase, and all values lie between the first and the last.
The threads that place the values of chunk `k` are `team k` many and take turns in the order
`order k`. `globalN` is a global variable of Lua. The sort of the third operator is
`qsort.tmpl`.

`x` and `aux` are as `bin_place` finds them; `lmaBefore` says whether `x` has its linear file
when `bin_count` is called, and `others` how many readers of that file other operators have left.
`dskLeft` is what is left of the disk once the bounds and the counts have their linear files.
Chunks are numbered by a `uint32_t`, the last of which stands for the linear file. -/
structure BinSort (α : Type) [LinearOrder α] where
  rows : LVector (α × List UInt8)
  width : Nat
  x : Stored
  lmaBefore : Bool
  others : Nat
  auxWidth : Nat
  aux : Stored
  dskLeft : Nat
  floor : α
  ceil : α
  y : List α
  nProcs : Nat
  team : Nat → Nat
  order : Nat → List Nat
  globalN : Option Nat
  qsort : List α → List α
  rows_ne : rows.elems ≠ []
  width_pos : 0 < width
  numbered : rows.elems.length / rows.maxNumInChunk + 1 < 2 ^ 32
  aux_length : ∀ r ∈ rows.elems, r.2.length = auxWidth
  bounds : (floor :: (y ++ [ceil])).Pairwise (· < ·)
  covers : ∀ r ∈ rows.elems, floor ≤ r.1 ∧ r.1 < ceil
  nProcs_pos : 0 < nProcs
  interleaves : ∀ k, Interleaves (threadNum (floor :: y) (y ++ [ceil]) nProcs (rows.getChunk k))
    (rows.getChunk k).length (team k) (order k)
  perm_qsort : ∀ xs, (qsort xs).Perm xs
  sorted_qsort : ∀ xs, (qsort xs).Pairwise (· ≤ ·)

/-- A row, the bin it has been found in, and what is read of the auxiliary vector for it. -/
structure Item (α : Type) where
  bin : Nat
  row : α × List UInt8
  aux : List UInt8

/-- What is written for a row. -/
def Item.cell (x : Item α) : α × List UInt8 := (x.row.1, x.aux)

namespace BinSort

variable (a : BinSort α)

def lb : List α := a.floor :: a.y

def ub : List α := a.y ++ [a.ceil]

def nb : Nat := a.y.length + 1

/-! ## bin_count -/

/-- The kernel of `bin_count`; the increments are atomic. -/
def countKernel (chunk : List (α × List UInt8)) (cnt : List Nat) : Option (List Nat) := do
  if badBounds a.lb a.ub then none
  let cnt' ← chunk.foldlM (fun cnt r => (binNum a.lb a.ub r.1).map fun b => cnt.modify b (· + 1)) cnt
  if cnt'.sum ≠ cnt.sum + chunk.length then none
  some cnt'

/-- The reducer calls its generator for chunk `k`, `k + 1`, … until there are no more. -/
def countFrom : Nat → Nat → List Nat → Option (List Nat)
  | 0, _, _ => none
  | fuel + 1, k, cnt =>
      let chunk := a.rows.getChunk k
      if chunk.length = 0 then some cnt
      else (a.countKernel chunk cnt).bind (countFrom fuel (k + 1))

/-- The readers of the linear file of `x` after `bin_count`. The last chunk that its generator
asks for is the one behind the end; where there is a linear file this counts as a reader, and is
not given back. -/
def readers : Nat := a.others + if a.lmaBefore then 1 else 0

/-- `bin_count`. The specializer asks for all elements of `y` in one piece, which a vector
without elements does not give, and for neighbours that differ. -/
def binCount : Option (List α × List α × List Nat) :=
  if a.y.length = 0 then none
  else if (a.y.zip a.y.tail).any fun p => p.1 = p.2 then none
  else (a.countFrom (a.rows.elems.length + 1) 0 (List.replicate a.nb 0)).map fun cnt =>
    (a.lb, a.ub, cnt)

/-! ## bin_place -/

/-- `off` -/
def offsets : Nat → List Nat → List Nat
  | _, [] => []
  | o, c :: cs => o :: offsets (o + c) cs

/-- What `memcpy` copies for row `i` of a chunk; `i*aux_width` is a `uint32_t`. -/
def auxAt (w : Nat) (chunk : List (α × List UInt8)) (i : Nat) : List UInt8 :=
  ((chunk.map Prod.snd).flatten.drop (i * w % 2 ^ 32)).take w

/-- The rows of a chunk, with their bins and what is read of the auxiliary vector for them. -/
def items (chunk : List (α × List UInt8)) : Option (List (Item α)) :=
  (chunk.mapM fun r => binNum a.lb a.ub r.1).map fun bins =>
    (bins.zip chunk).mapIdx fun i p =>
      { bin := p.1, row := p.2, aux := auxAt a.auxWidth chunk i }

/-- The kernel of `bin_place` on chunk `k`: every row that a thread of the team finds to be one
of its own is placed, and all must be. -/
def placeKernel (k : Nat) (chunk : List (α × List UInt8)) (st : Scatter.State (α × List UInt8)) :
    Option (Scatter.State (α × List UInt8)) := do
  if badBounds a.lb a.ub then none
  let items ← a.items chunk
  let st ← (a.order k).foldlM
    (fun st i => (items[i]?).bind (Scatter.place Item.bin Item.cell st)) st
  if (a.order k).length ≠ chunk.length then none
  some st

/-- The loop over the chunks ends at one that is not full. Behind the end of a linear file there
is a chunk without elements. -/
def placeFrom : Nat → Nat → Scatter.State (α × List UInt8) →
    Option (Scatter.State (α × List UInt8))
  | 0, _, _ => none
  | fuel + 1, k, st =>
      let chunk := a.rows.getChunk k
      (a.placeKernel k chunk st).bind fun st =>
        if chunk.length < a.rows.maxNumInChunk then some st else placeFrom fuel (k + 1) st

/-- `bin_place`: its outputs begin as clones of its inputs, and in the end nobody may read `x`. -/
def binPlace (cnt : List Nat) : Option (List (α × List UInt8)) :=
  let n := a.rows.elems.length
  if ¬ a.x.clones a.rows.maxNumInChunk n a.width a.dskLeft then none
  else if a.auxWidth ≠ 0 ∧
      ¬ a.aux.clones a.rows.maxNumInChunk n a.auxWidth (a.dskLeft - n * a.width) then none
  else
    ((a.placeFrom (n + 1) 0
      { off := fun b => (offsets 0 cnt).getD b cnt.sum, out := a.rows.elems }).map (·.out)).filter
        fun _ => a.readers = 0

/-! ## par_sort -/

/-- `qsort_asc(X+off[i], cnt[i])` -/
def sortBin (X : List α) (p : Nat × Nat) : Option (List α) :=
  if p.1 + p.2 ≤ X.length then
    some (X.take p.1 ++ a.qsort ((X.drop p.1).take p.2) ++ X.drop (p.1 + p.2))
  else none

/-- `par_sort`. The specializer compares where each bin but the first ends with `n`, of which
it has no local one. -/
def parSort (X : List α) (cnt : List Nat) : Option (List α) :=
  let off := offsets 0 cnt
  if ¬ (off.zip cnt).tail.all fun p => a.globalN.any fun n => p.1 + p.2 ≤ n then none
  else if off.head? ≠ some 0 then none
  else if (off.zip off.tail).any fun p => p.2 < p.1 then none
  else (off.zip cnt).foldlM a.sortBin X

end BinSort

end QStore.Operators
