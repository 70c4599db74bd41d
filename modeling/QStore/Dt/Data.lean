import QStore.Lib.Segment
import Mathlib.Data.Nat.Bitwise
import Mathlib.Data.Finset.Card
import Mathlib.Order.Lattice

/-!
# QStore.Dt.Data

The training data of the decision tree (`DT/src`). Feature `j` is kept as an
array `Y[j]` of words in the order of the values, each word

```
bits 32 .. 63   from   the row
bit  31         goal
bits  0 .. 30   yval   the value, coded by its rank
```

and as an array `to[j]`, here `tos`, that gives the place of a row in `Y[j]`. `preproc` makes
both, one feature at a time; it is the only time that the data are sorted.
-/

namespace QStore.Dt

/-! ## the composite word -/

/-- `x_mk_comp_val`. -/
def mkCompVal (row goal yval : Nat) : Nat :=
  row <<< 32 ||| goal <<< 31 ||| yval

def getFrom (x : Nat) : Nat := x >>> 32
def getGoal (x : Nat) : Nat := (x >>> 31) &&& 0x1
def getYval (x : Nat) : Nat := x &&& 0x7FFFFFFF

variable {row goal yval : Nat}

theorem mkCompVal_eq (hg : goal ≤ 1) (hy : yval < 2 ^ 31) :
    mkCompVal row goal yval = row * 2 ^ 32 + (goal * 2 ^ 31 + yval) := by
  have h1 : goal <<< 31 ||| yval = goal * 2 ^ 31 + yval := by
    rw [← Nat.shiftLeft_add_eq_or_of_lt hy, Nat.shiftLeft_eq]
  have h2 : goal * 2 ^ 31 + yval < 2 ^ 32 := by omega
  rw [mkCompVal, Nat.lor_assoc, h1, ← Nat.shiftLeft_add_eq_or_of_lt h2, Nat.shiftLeft_eq]

theorem getFrom_mkCompVal (hg : goal ≤ 1) (hy : yval < 2 ^ 31) :
    getFrom (mkCompVal row goal yval) = row := by
  rw [mkCompVal_eq hg hy, getFrom, Nat.shiftRight_eq_div_pow]
  omega

theorem getGoal_mkCompVal (hg : goal ≤ 1) (hy : yval < 2 ^ 31) :
    getGoal (mkCompVal row goal yval) = goal := by
  rw [mkCompVal_eq hg hy, getGoal, Nat.shiftRight_eq_div_pow, Nat.and_one_is_mod]
  omega

theorem getYval_mkCompVal (hg : goal ≤ 1) (hy : yval < 2 ^ 31) :
    getYval (mkCompVal row goal yval) = yval := by
  rw [mkCompVal_eq hg hy, getYval, show (0x7FFFFFFF : Nat) = 2 ^ 31 - 1 from rfl,
    Nat.and_two_pow_sub_one_eq_mod]
  omega

/-! ## configuration and data -/

/-- `config_t`, less what only input, output and the number of threads use. -/
structure Config where
  isDebug : Bool
  maxDepth : Nat
  minLeafSize : Nat
  metricsBufferSize : Nat
  minPartitionSize : Nat
  maxNodesInTree : Nat

/-- The data set: `X` and `g` of `preproc`, with what the program takes for
granted of them. -/
structure DataSet (V : Type) [LinearOrder V] where
  n : Nat
  m : Nat
  X : Nat → Nat → V
  g : Nat → Nat
  n_pos : 0 < n
  n_lt : n < 2 ^ 32
  m_pos : 0 < m
  /-- Heads or tails. -/
  g_le : ∀ i < n, g i ≤ 1
  /-- "We assume that there are no more than 2^31 unique values." -/
  values_lt : ∀ j < m, ((Finset.range n).image (X j)).card < 2 ^ 31

/-- `comp_key_t`. -/
structure CompKey (V : Type) where
  xval : V
  idx : Nat
  g : Nat

/-- `qsort` with the order `sortfn`: it permutes, and the values come out in
order. Equal values come out in any order. -/
structure Qsort (V : Type) [LinearOrder V] where
  sort : List (CompKey V) → List (CompKey V)
  perm : ∀ C, (sort C).Perm C
  sorted : ∀ C, (sort C).Pairwise fun a b => a.xval ≤ b.xval

section Preproc

variable {V : Type} [LinearOrder V] (D : DataSet V) (qs : Qsort V) (cfg : Config)

/-- The array `C` before it is sorted. -/
def compKeys (j : Nat) : List (CompKey V) :=
  (List.range D.n).map fun i => { xval := D.X j i, idx := i, g := D.g i }

/-- "every time we encounter a new xval, we make a new yval" -/
def encode : List (CompKey V) → (xval : V) → (yval : Nat) → List Nat
  | [], _, _ => []
  | c :: C, xval, yval =>
    if c.xval ≠ xval then
      mkCompVal c.idx c.g (yval + 1) :: encode C c.xval (yval + 1)
    else
      mkCompVal c.idx c.g yval :: encode C xval yval

/-- The words of feature `j` in the order of the values. -/
def encodeAll : List (CompKey V) → List Nat
  | [] => []
  | c :: C => mkCompVal c.idx c.g 1 :: encode C c.xval 1

/-- `to[pos] = i` for each position `i` of `Yj`. -/
def fillTo (n : Nat) (Yj : Nat → Nat) : List Nat → (Nat → Nat) → Option (Nat → Nat)
  | [], tos => some tos
  | i :: is, tos =>
    if n ≤ getFrom (Yj i) then none
    else fillTo n Yj is (Function.update tos (getFrom (Yj i)) i)

/-- `preproc_j`; `junk` is what `malloc` leaves in `to`. With `is_debug` it stores
to `alt_to[i]` where `i` is still `n` from the loop before: one past the end. -/
def preprocJ (junk : Nat → Nat) (j : Nat) : Option ((Nat → Nat) × (Nat → Nat)) :=
  let words := encodeAll (qs.sort (compKeys D j))
  let Yj := fun i => words.getD i 0
  (fillTo D.n Yj (List.range D.n) junk).bind fun tos =>
    if cfg.isDebug then none else some (Yj, tos)

end Preproc

/-! ## check -/

section Check

/-- `chk_is_unique`: the copy is sorted, but it is `X` that is looked at. -/
def chkIsUnique : List Nat → Bool
  | x :: y :: X => x != y && chkIsUnique (y :: X)
  | _ => true

/-- `chk_set_equality`: the sorted copies agree. -/
def chkSetEquality (X Y : List Nat) : Bool := X.isPerm Y

/-- The counter `goals[j][k]`, a byte. -/
def goalCount (Yj : Nat → Nat) (lb ub k : Nat) : Nat :=
  (seg Yj lb ub).countP (getGoal · = k) % 256

/-- `check`: whether it returns without an error. The counts are added as `uint32_t`. -/
def check (cfg : Config) (tos : Nat → Nat → Nat) (g : Nat → Nat) (lb ub nT nH n m : Nat)
    (Y : Nat → Nat → Nat) : Bool :=
  if ub - lb ≤ cfg.minLeafSize then true
  else
    let froms j := (seg (Y j) lb ub).map getFrom
    let js := List.range m
    let rows := List.range' lb (ub - lb)
    ub ≤ n && (nT + nH) % 2 ^ 32 == ub - lb
      -- the inner loop leaves the last feature in `chk_from_j`
      && js.all (fun j => chkSetEquality (froms j) (froms (m - 1)))
      && js.all (fun j => (List.range' (lb + 1) (ub - (lb + 1))).all fun i =>
        getYval (Y j (i - 1)) ≤ getYval (Y j i))
      && js.all (fun j => chkIsUnique (froms j))
      && js.all (fun j => js.all fun k => k ≤ j ||
        goalCount (Y j) lb ub 0 == goalCount (Y k) lb ub 0
          && goalCount (Y j) lb ub 1 == goalCount (Y k) lb ub 1)
      && js.all (fun j => rows.all fun i => tos j (getFrom (Y j i)) == i)
      && js.all (fun j => rows.all fun i => g (getFrom (Y j i)) == getGoal (Y j i))

end Check

/-! ## preproc -/

section Preproc

variable {V : Type} [LinearOrder V] (D : DataSet V) (qs : Qsort V) (cfg : Config)

/-- What `preproc` hands back. -/
structure Prepared where
  Y : Nat → Nat → Nat
  tos : Nat → Nat → Nat
  nT : Nat
  nH : Nat

/-- `preproc_j` for each feature. -/
def preprocAll (junk : Nat → Nat → Nat) :
    List Nat → (Nat → Nat → Nat) × (Nat → Nat → Nat) →
      Option ((Nat → Nat → Nat) × (Nat → Nat → Nat))
  | [], p => some p
  | j :: js, p =>
    (preprocJ D qs cfg (junk j) j).bind fun q =>
      preprocAll junk js (Function.update p.1 j q.1, Function.update p.2 j q.2)

/-- `preproc`. With `is_debug` it counts into `nT` and `nH` once more and compares
them with `chk_nT` and `chk_nH`, which are still 0. -/
def preproc (junk : Nat → Nat → Nat) : Option Prepared :=
  (preprocAll D qs cfg junk (List.range D.m) (junk, junk)).bind fun p =>
    let nH := ((List.range D.n).map D.g).sum
    let nT := D.n - nH
    let chkT := nT + (List.range D.n).countP (D.g · = 0)
    let chkH := nH + (List.range D.n).countP (D.g · ≠ 0)
    if cfg.isDebug && (chkT != 0 || chkH != 0
        || !check cfg p.2 D.g 0 D.n chkT chkH D.n D.m p.1) then none
    else some { Y := p.1, tos := p.2, nT := nT, nH := nH }

end Preproc

end QStore.Dt
