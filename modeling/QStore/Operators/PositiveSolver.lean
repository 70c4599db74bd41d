import QStore.Lib.Schur
import QStore.Lib.Gang
import Mathlib.Data.Rat.Floor
import Mathlib.Data.List.ProdSigma

/-!
# QStore.Operators.PositiveSolver

`posdef_positive_solver` and `full_posdef_positive_solver` (`AX_EQUALS_B/src/positive_solver.c`):
a positive semidefinite system, solved by eliminating one unknown after the other in a copy of
the lower triangle, row `i` of which starts at its diagonal:

```
A[0]  p a a a       rows below:  A[i+1][j] -= a[i] * a[i+j] / p
A[1]    . . .                    b[i+1]    -= a[i] * b[0] / p
A[2]      . .       the solver for A+1, b+1, x+1
A[3]        .       x[0] = (b[0] - a * (x+1)) / p
```

Where `p` is zero nothing is eliminated, and `b[0]` must be zero as well. Only the last
pivot of zero is given a tolerance, by an `abs` that is the one of integers.
-/

namespace QStore.Solver

open Matrix Elim

/-! ## `_positive_solver_rec` -/

/-- `DEFAULT_EPS` -/
def defaultEps : ℚ := 1 / 1000

/-- `abs` of `<stdlib.h>`: its argument is converted to an `int`, which drops its fraction. -/
def intAbs (v : ℚ) : Option ℤ :=
  let z := if 0 ≤ v then ⌊v⌋ else ⌈v⌉
  if |z| < 2 ^ 31 then some |z| else none

/-- The threads of a parallel loop over `nT` workers, and the order in which their iterations
over `m` rows come. -/
structure Team where
  nT : Nat
  order : Nat → List (Nat × Nat)
  nT_pos : 0 < nT
  perm : ∀ m, (order m).Perm (List.range nT ×ˢ List.range m)

/-- The two arrays that are updated. -/
structure System where
  A : Nat → Nat → ℚ
  b : Nat → ℚ

/-- `bvec[i] -= ..`, and the loop over `j`, where `Avec` is `A[0]` behind its first entry, and
`Asub` and `bvec` are `A` and `b` behind theirs. -/
def subtractRow (m : Nat) (s : System) (i : Nat) : System where
  A := Function.update s.A (i + 1) <| (List.range (m - i)).foldl
    (fun row j =>
      Function.update row j (row j - s.A 0 (i + 1) * s.A 0 (i + j + 1) / s.A 0 0))
    (s.A (i + 1))
  b := Function.update s.b (i + 1) (s.b (i + 1) - s.A 0 (i + 1) * s.b 0 / s.A 0 0)

/-- One iteration of worker `t` over row `i`. -/
def turn (w : Team) (m : Nat) (s : System) (ti : Nat × Nat) : System :=
  if (ti.2 - ti.2 / w.nT) % w.nT ≠ ti.1 then s else subtractRow m s ti.2

def eliminate (w : Team) (m : Nat) (s : System) : System := (w.order m).foldl (turn w m) s

/-- What a call leaves. -/
structure Out where
  status : Int
  A : Nat → Nat → ℚ
  x : Nat → ℚ
  b : Nat → ℚ

/-- `x[0]`, when the solver has returned for the others. -/
def firstUnknown (m : Nat) (out : Out) : Out :=
  if out.status < 0 then out
  else if out.A 0 0 = 0 then
    if out.b 0 ≠ 0 then { out with status := -1 }
    else { out with x := Function.update out.x 0 0 }
  else
    let p := (List.range m).foldl (fun p k => p + out.A 0 (k + 1) * out.x (k + 1)) 0
    { out with x := Function.update out.x 0 ((out.b 0 - p) / out.A 0 0) }

/-- An array of which all but the first entry was given away as `f`. -/
def behind {α : Type} (a : α) (f : Nat → α) : Nat → α
  | 0 => a
  | i + 1 => f i

/-- `_positive_solver_rec` -/
def positiveSolverRec (w : Team) :
    Nat → (Nat → Nat → ℚ) → (Nat → ℚ) → (Nat → ℚ) → Option Out
  | 0, A, x, b => some ⟨-1, A, x, b⟩
  | 1, A, x, b =>
      if A 0 0 = 0 then
        (intAbs (b 0)).map fun z : ℤ =>
          if (z : ℚ) > defaultEps then ⟨-1, A, x, b⟩ else ⟨0, A, Function.update x 0 0, b⟩
      else some ⟨0, A, Function.update x 0 (b 0 / A 0 0), b⟩
  | m + 2, A, x, b =>
      let s := if A 0 0 ≠ 0 then eliminate w (m + 1) ⟨A, b⟩ else ⟨A, b⟩
      (positiveSolverRec w (m + 1) (fun i => s.A (i + 1)) (fun i => x (i + 1))
        fun i => s.b (i + 1)).map fun out =>
          firstUnknown (m + 1) ⟨out.status, behind (s.A 0) out.A, behind (x 0) out.x,
            behind (s.b 0) out.b⟩

/-! ## the solvers that preserve their input -/

/-- The arrays of the caller, and the copies. -/
structure Memory where
  A : Nat → Nat → ℚ
  x : Nat → ℚ
  b : Nat → ℚ
  ACopy : Nat → Nat → ℚ
  bCopy : Nat → ℚ

/-- The loop over `j`, which reads row `i` of the triangle, and `b_copy[i] = b[i]`. -/
def copyRow (read : (Nat → Nat → ℚ) → Nat → Nat → ℚ) (n : Nat) (mem : Memory) (i : Nat) : Memory :=
  { mem with
    ACopy := Function.update mem.ACopy i <| (List.range (n - i)).foldl
      (fun row j => Function.update row j (read mem.A i j)) (mem.ACopy i)
    bCopy := Function.update mem.bCopy i (mem.b i) }

/-- The status, and the memory. -/
def solveCopy (read : (Nat → Nat → ℚ) → Nat → Nat → ℚ) (w : Team) (n : Nat) (mem : Memory) :
    Option (Int × Memory) :=
  let mem := (List.range n).foldl (copyRow read n) mem
  (positiveSolverRec w n mem.ACopy mem.x mem.bCopy).map fun out =>
    (out.status, { mem with ACopy := out.A, x := out.x, bCopy := out.b })

/-- `posdef_positive_solver` -/
def posdefPositiveSolver : Team → Nat → Memory → Option (Int × Memory) :=
  solveCopy fun A i j => A i j

/-- `full_posdef_positive_solver` -/
def fullPosdefPositiveSolver : Team → Nat → Memory → Option (Int × Memory) :=
  solveCopy fun A i j => A i (j + i)

/-! ## matrices -/

/-- `index_symm_matrix` -/
def indexSymmMatrix (A : Nat → Nat → ℚ) (i j : Nat) : ℚ :=
  if i < j then A i (j - i) else A j (i - j)

/-- The matrix whose triangle is stored. -/
def compactMatrix (n : Nat) (A : Nat → Nat → ℚ) : Matrix (Fin n) (Fin n) ℚ :=
  Matrix.of fun i j => indexSymmMatrix A i j

/-- The matrix whose columns are stored. -/
def fullMatrix (n : Nat) (A : Nat → Nat → ℚ) : Matrix (Fin n) (Fin n) ℚ :=
  Matrix.of fun i j => A j i

def vector (n : Nat) (b : Nat → ℚ) : Fin n → ℚ := fun i => b i

/-! ## the rows shared out -/

section Rows

variable {w : Team} {m n : Nat} {s : System} {A : Nat → Nat → ℚ} {b : Nat → ℚ}

/-- Whether worker `t` takes row `i`. -/
def Takes (nT t i : Nat) : Prop := (i - i / nT) % nT = t

instance (nT t i : Nat) : Decidable (Takes nT t i) := inferInstanceAs (Decidable (_ = _))

/-- **The workers share out the rows**: each row is taken by one of them and no other. -/
theorem existsUnique_takes {nT : Nat} (h : 0 < nT) (i : Nat) : ∃! t, t < nT ∧ Takes nT t i :=
  ⟨(i - i / nT) % nT, ⟨Nat.mod_lt _ h, rfl⟩, fun _ ht => ht.2.symm⟩

/-- The rows in the order in which they are updated. -/
def Team.rows (w : Team) (m : Nat) : List Nat :=
  ((w.order m).filter fun ti => Takes w.nT ti.1 ti.2).map Prod.snd

theorem Team.rows_perm (w : Team) (m : Nat) : (w.rows m).Perm (List.range m) := by
  have hnd : (w.order m).Nodup :=
    (w.perm m).nodup_iff.mpr (List.nodup_range.product List.nodup_range)
  have hrows : (w.rows m).Nodup := by
    refine List.Nodup.map_on ?_ (hnd.filter _)
    intro p hp q hq heq
    have hpt := of_decide_eq_true (List.mem_filter.mp hp).2
    have hqt := of_decide_eq_true (List.mem_filter.mp hq).2
    rw [Takes] at hpt hqt
    rw [heq, hqt] at hpt
    exact Prod.ext hpt.symm heq
  rw [List.perm_ext_iff_of_nodup hrows List.nodup_range]
  intro i
  simp only [Team.rows, List.mem_map, List.mem_filter, (w.perm m).mem_iff, List.mem_product,
    List.mem_range, decide_eq_true_eq, Prod.exists, exists_eq_right]
  constructor
  · intro h
    obtain ⟨t, h, -⟩ := h
    exact h.2
  · intro hi
    exact ⟨_, ⟨Nat.mod_lt _ w.nT_pos, hi⟩, rfl⟩

theorem eliminate_eq : eliminate w m s = (w.rows m).foldl (subtractRow m) s := by
  rw [eliminate, Team.rows, List.foldl_map, List.foldl_filter]
  congr 1
  funext s ti
  by_cases h : (ti.2 - ti.2 / w.nT) % w.nT = ti.1
  · have htakes : Takes w.nT ti.1 ti.2 := h
    rw [turn, if_neg (not_not.mpr h), if_pos (decide_eq_true htakes)]
  · have htakes : ¬ Takes w.nT ti.1 ti.2 := h
    rw [turn, if_pos h, if_neg (mt of_decide_eq_true htakes)]

/-- Row `i` of `Asub` when it has been updated, and its right-hand side. -/
def System.row (m : Nat) (s : System) (i : Nat) : Nat → ℚ := fun j =>
  if j ∈ List.range (m - i) then s.A (i + 1) j - s.A 0 (i + 1) * s.A 0 (i + j + 1) / s.A 0 0
  else s.A (i + 1) j

def System.rhs (s : System) (i : Nat) : ℚ := s.b (i + 1) - s.A 0 (i + 1) * s.b 0 / s.A 0 0

theorem subtractRow_eq (i : Nat) : subtractRow m s i =
    ⟨Function.update s.A (i + 1) (s.row m i), Function.update s.b (i + 1) (s.rhs i)⟩ := by
  rw [subtractRow, Gang.foldl_update (fun j v => v - s.A 0 (i + 1) * s.A 0 (i + j + 1) / s.A 0 0)
    List.nodup_range]
  rfl

theorem behind_eta {α : Type} (f : Nat → α) : behind (f 0) (fun i => f (i + 1)) = f := by
  funext i
  cases i <;> rfl

/-- Rows updated one after the other. -/
theorem foldl_subtractRow {l : List Nat} (hl : l.Nodup) : l.foldl (subtractRow m) s =
    ⟨behind (s.A 0) fun i => if i ∈ l then s.row m i else s.A (i + 1),
      behind (s.b 0) fun i => if i ∈ l then s.rhs i else s.b (i + 1)⟩ := by
  induction l generalizing s with
  | nil =>
      simp only [List.foldl_nil, List.not_mem_nil, if_false, behind_eta]
  | cons k l ih =>
      rw [List.nodup_cons] at hl
      rw [List.foldl_cons, ih hl.2, subtractRow_eq]
      congr 1
      · funext i
        cases i with
        | zero => simp [behind]
        | succ i =>
            by_cases hik : i = k
            · subst hik
              simp [behind, hl.1]
            · have hrow : System.row m ⟨Function.update s.A (k + 1) (s.row m k),
                  Function.update s.b (k + 1) (s.rhs k)⟩ i = s.row m i := by
                funext j
                simp [System.row, hik]
              simp [behind, hik, hrow]
      · funext i
        cases i with
        | zero => simp [behind]
        | succ i =>
            by_cases hik : i = k
            · subst hik
              simp [behind, hl.1]
            · simp [behind, hik, System.rhs]

/-- **The elimination updates each row once**, whoever does it and in what order. -/
theorem eliminate_rows : eliminate w m s =
    ⟨behind (s.A 0) fun i => if i < m then s.row m i else s.A (i + 1),
      behind (s.b 0) fun i => if i < m then s.rhs i else s.b (i + 1)⟩ := by
  have hperm := w.rows_perm m
  rw [eliminate_eq, foldl_subtractRow (hperm.nodup_iff.mpr List.nodup_range)]
  simp only [hperm.mem_iff, List.mem_range]

/-! ## one unknown less -/

/-- The system before the recursive call. -/
def step (w : Team) (m : Nat) (A : Nat → Nat → ℚ) (b : Nat → ℚ) : System :=
  if A 0 0 ≠ 0 then eliminate w m ⟨A, b⟩ else ⟨A, b⟩

theorem step_first : (step w m A b).A 0 = A 0 ∧ (step w m A b).b 0 = b 0 := by
  rw [step]
  split
  · rw [eliminate_rows]
    exact ⟨rfl, rfl⟩
  · exact ⟨rfl, rfl⟩

theorem step_entry {i j : Nat} (hij : i + j < m) : (step w m A b).A (i + 1) j =
    A (i + 1) j - A 0 (i + 1) * A 0 (i + j + 1) / A 0 0 := by
  rw [step]
  split
  · have hi : i < m := by omega
    have hj : j < m - i := by omega
    rw [eliminate_rows]
    simp [behind, hi, System.row, hj]
  · next hp =>
    rw [not_not] at hp
    simp [hp]

theorem step_rhs {i : Nat} (hi : i < m) : (step w m A b).b (i + 1) =
    b (i + 1) - A 0 (i + 1) * b 0 / A 0 0 := by
  rw [step]
  split
  · rw [eliminate_rows]
    simp [behind, hi, System.rhs]
  · next hp =>
    rw [not_not] at hp
    simp [hp]

/-- **The triangle holds what is left of the matrix.** -/
theorem compactMatrix_step :
    compactMatrix m (fun i => (step w m A b).A (i + 1)) = schur (compactMatrix (m + 1) A) := by
  ext i j
  have hi := i.isLt
  have hj := j.isLt
  simp only [compactMatrix, schur, of_apply, indexSymmMatrix, Fin.val_succ, Fin.val_zero,
    Nat.add_lt_add_iff_right, Nat.succ_pos, if_true, lt_irrefl, if_false, Nat.add_sub_add_right,
    Nat.sub_zero]
  split
  · have hsum : (i : Nat) + (j - i) = j := by omega
    rw [step_entry (by omega), hsum]
  · have hsum : (j : Nat) + (i - j) = i := by omega
    rw [step_entry (by omega), hsum, mul_comm]

theorem vector_step : vector m (fun i => (step w m A b).b (i + 1)) =
    reduce (compactMatrix (m + 1) A) (vector (m + 1) b) := by
  funext i
  rw [vector, step_rhs i.isLt, reduce]
  simp [vector, compactMatrix, indexSymmMatrix]

end Rows

end QStore.Solver
