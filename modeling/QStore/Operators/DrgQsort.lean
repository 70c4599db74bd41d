import QStore.Lib.Rearrange
import Mathlib.Order.Defs.LinearOrder

/-!
# QStore.Operators.DrgQsort

The drag-along sort (`DRG_SORT/lua/drg_qsort.tmpl`), a quicksort without recursion
and an insertion sort after it. Each time it moves a value it moves the entry of
`srt_ordr` at the same index.

```
stack   NULL  [lo hi]  [lo hi] …   parts that wait, the larger one each time
a part  lo  < mid <  hi            three sorted, then the walls from both sides
        lo ≤ right_ptr < left_ptr ≤ hi
```

Pointers are indices here, and a value is the array of its bytes: the insertion
sort moves these one after the other, and `srt_ordr` with the first of them. The result
`none` is an index outside of `[0, n)` or a pointer before the array, a stack that
overflows or a `NULL` that is read.
-/

namespace QStore.Operators

/-- `MAX_THRESH` -/
def maxThresh : Nat := 4

/-- `STACK_SIZE`, `CHAR_BIT * sizeof(size_t)`. -/
def stackSize : Nat := 64

/-- `${comparator}` on two values, by their places in the order asked for. A NaN has none, and
is not before or behind anything. -/
def comesFirst {K : Type} [LinearOrder K] (a b : Option K) : Bool :=
  a.any fun x => b.any fun y => x < y

/-- The two arrays, from their bases on. A value has the bytes `0 … last`. -/
structure SortArrays (B D : Type) (last : Nat) where
  val : Nat → Fin (last + 1) → B
  drg : Nat → D

section Model

variable {B D K : Type} {last : Nat} [LinearOrder K]

/-- `p -= size` -/
def stepBack (p : Nat) : Option Nat := if p = 0 then none else some (p - 1)

/-- `SWAP`, with its checks of both indices. -/
def swapBoth (n a b : Nat) (s : SortArrays B D last) : Option (SortArrays B D last) :=
  if a < n ∧ b < n then
    some ⟨Function.update (Function.update s.val a (s.val b)) b (s.val a),
      Function.update (Function.update s.drg a (s.drg b)) b (s.drg a)⟩
  else none

variable (key : (Fin (last + 1) → B) → Option K) (n : Nat)

/-- `*a ${comparator} *b` -/
def isLess (s : SortArrays B D last) (a b : Nat) : Option Bool :=
  if a < n ∧ b < n then some (comesFirst (key (s.val a)) (key (s.val b))) else none

/-- `if ( *a ${comparator} *b ) { SWAP (a, b, size); }` -/
def swapIfLess (a b : Nat) (s : SortArrays B D last) : Option (SortArrays B D last) := do
  if ← isLess key n s a b then swapBoth n a b s else some s

/-- "Select median value from among LO, MID, and HI." -/
def medianOfThree (lo mid hi : Nat) (s : SortArrays B D last) : Option (SortArrays B D last) := do
  let s ← swapIfLess key n mid lo s
  if ← isLess key n s hi mid then swapIfLess key n mid lo (← swapBoth n mid hi s) else some s

/-- `while ( *left_ptr ${comparator} *mid )` -/
def scanLeft (s : SortArrays B D last) (mid : Nat) : Nat → Nat → Option Nat
  | 0, _ => none
  | fuel + 1, left => do
      if ← isLess key n s left mid then scanLeft s mid fuel (left + 1) else some left

/-- `while ( *mid ${comparator} *right_ptr )` -/
def scanRight (s : SortArrays B D last) (mid : Nat) : Nat → Nat → Option Nat
  | 0, _ => none
  | fuel + 1, right => do
      if ← isLess key n s mid right then scanRight s mid fuel (← stepBack right) else some right

/-- Where the walls have met. -/
structure Walls (B D : Type) (last : Nat) where
  arrays : SortArrays B D last
  left : Nat
  right : Nat

/-- "collapse the walls", for at most `fuel` rounds. -/
def collapseWalls : Nat → SortArrays B D last → Nat → Nat → Nat → Option (Walls B D last)
  | 0, _, _, _, _ => none
  | fuel + 1, s, left, right, mid => do
      let left ← scanLeft key n s mid (n + 1) left
      let right ← scanRight key n s mid (n + 1) right
      if left < right then
        let s ← swapBoth n left right s
        let mid := if mid = left then right else if mid = right then left else mid
        let right ← stepBack right
        if left + 1 ≤ right then collapseWalls fuel s (left + 1) right mid
        else some ⟨s, left + 1, right⟩
      else if left = right then some ⟨s, left + 1, ← stepBack right⟩
      else some ⟨s, left, right⟩

/-- `(size_t) (p - q) <= max_thresh`; a negative difference is a huge one. -/
def isSmall (p q : Nat) : Bool := decide (q ≤ p ∧ p - q ≤ maxThresh)

/-- `PUSH`. A node that is `(NULL, NULL)` is `none`. -/
def pushNode (node : Option (Nat × Nat)) (stack : List (Option (Nat × Nat))) :
    Option (List (Option (Nat × Nat))) :=
  if stack.length < stackSize then some (node :: stack) else none

/-- `while (STACK_NOT_EMPTY)`, for at most `fuel` rounds, with `(lo, hi)` and the
stack from its top down. -/
def sortParts : Nat → SortArrays B D last → Option (Nat × Nat) → List (Option (Nat × Nat)) →
    Option (SortArrays B D last)
  | 0, _, _, _ => none
  | _ + 1, s, _, [] => some s
  | _ + 1, _, none, _ :: _ => none
  | fuel + 1, s, some (lo, hi), top :: stack => do
      let mid := lo + (hi - lo) / 2
      let s ← medianOfThree key n lo mid hi s
      let w ← collapseWalls key n (n + 1) s (lo + 1) (← stepBack hi) mid
      if isSmall w.right lo then
        if isSmall hi w.left then sortParts fuel w.arrays top stack
        else sortParts fuel w.arrays (some (w.left, hi)) (top :: stack)
      else if isSmall hi w.left then sortParts fuel w.arrays (some (lo, w.right)) (top :: stack)
      else if (w.right : Int) - lo > (hi : Int) - w.left then
        sortParts fuel w.arrays (some (w.left, hi)) (← pushNode (some (lo, w.right)) (top :: stack))
      else
        sortParts fuel w.arrays (some (lo, w.right)) (← pushNode (some (w.left, hi)) (top :: stack))

/-- "Find smallest element in first threshold", `left` of them to go. -/
def findMin (s : SortArrays B D last) : Nat → Nat → Nat → Option Nat
  | 0, _, tmp => some tmp
  | left + 1, run, tmp => do
      findMin s left (run + 1) (if ← isLess key n s run tmp then run else tmp)

/-- Where the value at `run` belongs: one behind the last that is not above it. -/
def findPlace (s : SortArrays B D last) (run : Nat) : Nat → Nat → Option Nat
  | 0, _ => none
  | fuel + 1, tmp => do
      if ← isLess key n s run tmp then findPlace s run fuel (← stepBack tmp) else some (tmp + 1)

/-- The loop over `hi` and `lo` from `hi = tmp + c` down, for byte `t` of each value:
"Everybody moves one to the right". In the first pass the drags go along. -/
def moveByte (t : Fin (last + 1)) (pass : Nat) (c : B) (sveDrg : D) (tmp : Nat) :
    Nat → SortArrays B D last → Option (SortArrays B D last)
  | 0, s =>
      if tmp < n then
        some ⟨Function.update s.val tmp (Function.update (s.val tmp) t c),
          if pass = 1 then Function.update s.drg tmp sveDrg else s.drg⟩
      else none
  | k + 1, s =>
      if tmp + k + 1 < n then
        moveByte t pass c sveDrg tmp k
          ⟨Function.update s.val (tmp + k + 1)
              (Function.update (s.val (tmp + k + 1)) t (s.val (tmp + k) t)),
            if pass = 1 then Function.update s.drg (tmp + k + 1) (s.drg (tmp + k)) else s.drg⟩
      else none

/-- `while (--trav >= run_ptr)`, over the bytes of the value at `run`. -/
def moveBytes (sveDrg : D) (tmp run : Nat) : List (Fin (last + 1)) → Nat → SortArrays B D last →
    Option (SortArrays B D last)
  | [], _, s => some s
  | t :: ts, pass, s => do
      let s ← if run < n then moveByte n t pass (s.val run t) sveDrg tmp (run - tmp) s else none
      moveBytes sveDrg tmp run ts (pass + 1) s

/-- One round of `while ((run_ptr += size) <= end_ptr)`. -/
def insertOne (run : Nat) (s : SortArrays B D last) : Option (SortArrays B D last) := do
  let tmp ← findPlace key n s run (n + 1) (← stepBack run)
  if tmp ≠ run then moveBytes n (s.drg run) tmp run (List.finRange (last + 1)).reverse 1 s else some s

/-- "Insertion sort, running from left-hand-side up to right-hand-side", with `left`
values to go. -/
def insertAll : Nat → Nat → SortArrays B D last → Option (SortArrays B D last)
  | 0, _, s => some s
  | left + 1, run, s => do insertAll left (run + 1) (← insertOne key n run s)

/-- `if ( total_elems > MAX_THRESH )`. A round of `while (STACK_NOT_EMPTY)` ends a part or
makes it smaller, so `2 * n + 1` are enough. -/
def sortLong (s : SortArrays B D last) : Option (SortArrays B D last) :=
  if n > maxThresh then do sortParts key n (2 * n + 1) s (some (0, n - 1)) (← pushNode none [])
  else some s

/-- "Find smallest element in first threshold and place it at the array's beginning." -/
def minFirst (s : SortArrays B D last) : Option (SortArrays B D last) := do
  let tmp ← findMin key n s (min (n - 1) maxThresh) 1 0
  if tmp ≠ 0 then swapBoth n tmp 0 s else some s

/-- `qsort_${srt_ordr}_val_${val_qtype}_drg_${drg_qtype}` on `n` elements. -/
def drgQsort (s : SortArrays B D last) : Option (SortArrays B D last) :=
  if n = 0 then some s
  else do insertAll key n (n - 2) 2 (← minFirst key n (← sortLong key n s))

end Model

end QStore.Operators
