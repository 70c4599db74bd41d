import QStore.Operators.PositiveSolver

/-!
# QStore.Operators.PositiveSystem

What `posdef_positive_solver` and `full_posdef_positive_solver` return. A call on `n + 1`
unknowns calls for the others with what is left of the matrix, so that what is known of the
one call follows from what is known of the other:

```
M x = b     --- eliminate --->   schur M x' = reduce M b
status, x   <-- firstUnknown --  status, x'
```

Whether the last equation holds is only asked of a last pivot of zero, that is, of a last row
that is a combination of the others.
-/

namespace QStore.Solver

open Matrix Elim

/-! ## what the solver returns -/

/-- What is known of a call on the system `M x = b`. -/
structure Result {n : Nat} (M : Matrix (Fin (n + 1)) (Fin (n + 1)) ℚ) (b : Fin (n + 1) → ℚ)
    (o : Option Out) : Prop where
  undefined : o = none ↔ ∃ r, Misses M b r ∧ 2 ^ 31 ≤ |r|
  status : ∀ out, o = some out → out.status = 0 ∨ out.status = -1
  zero_iff : ∀ out, o = some out →
    (out.status = 0 ↔ (∃ y, SolvesFirst M b y) ∧ ∀ r, Misses M b r → |r| < 1)
  solves : ∀ out, o = some out → out.status = 0 → SolvesFirst M b (vector (n + 1) out.x) ∧
    (¬ Redundant M (Fin.last n) →
      (M *ᵥ vector (n + 1) out.x) (Fin.last n) = b (Fin.last n))

section Abs

variable {v : ℚ} {z : ℤ}

/-- The number converted to an `int`, or what it would be. -/
theorem intAbs_eq (v : ℚ) : intAbs v = if ⌊|v|⌋ < 2 ^ 31 then some ⌊|v|⌋ else none := by
  have habs : |if 0 ≤ v then ⌊v⌋ else ⌈v⌉| = ⌊|v|⌋ := by
    by_cases hv : 0 ≤ v
    · rw [if_pos hv, abs_of_nonneg (Int.floor_nonneg.mpr hv), abs_of_nonneg hv]
    · have hneg : v ≤ 0 := (not_le.mp hv).le
      rw [if_neg hv, abs_of_nonpos (Int.ceil_nonpos.mpr hneg), abs_of_nonpos hneg, Int.floor_neg]
  rw [intAbs]
  simp only [habs]

theorem intAbs_eq_none : intAbs v = none ↔ 2 ^ 31 ≤ |v| := by
  have hle : (2 : ℤ) ^ 31 ≤ ⌊|v|⌋ ↔ 2 ^ 31 ≤ |v| := by
    rw [Int.le_floor]
    norm_num
  rw [intAbs_eq, ← hle]
  simp

/-- The tolerance is in fact 1. -/
theorem le_of_intAbs (h : intAbs v = some z) : (z : ℚ) > defaultEps ↔ 1 ≤ |v| := by
  rw [intAbs_eq] at h
  split at h
  · cases h
    have hnonneg : 0 ≤ ⌊|v|⌋ := Int.floor_nonneg.mpr (abs_nonneg v)
    rw [← Int.cast_one, ← Int.le_floor, gt_iff_lt, defaultEps]
    constructor
    · intro hlt
      by_contra hcon
      have hz : ⌊|v|⌋ = 0 := by omega
      rw [hz] at hlt
      norm_num at hlt
    · intro hle
      have hone : ((1 : ℤ) : ℚ) ≤ ⌊|v|⌋ := Int.cast_le.mpr hle
      push_cast at hone
      linarith
  · cases h

end Abs

section Rec

variable {w : Team} {m n : Nat} {A : Nat → Nat → ℚ} {x b : Nat → ℚ}

/-- One equation for one unknown. -/
theorem result_one (h : (compactMatrix 1 A).PosSemidef) :
    Result (compactMatrix 1 A) (vector 1 b) (positiveSolverRec w 1 A x b) := by
  have hred := reducible_of_posSemidef h
  have hp : compactMatrix 1 A 0 0 = A 0 0 := rfl
  have hmiss : ∀ {r}, Misses (compactMatrix 1 A) (vector 1 b) r ↔ A 0 0 = 0 ∧ r = b 0 :=
    misses_one hred
  have hlast : Redundant (compactMatrix 1 A) (Fin.last 0) ↔ A 0 0 = 0 := redundant_zero hred
  have hfirst : ∃ y, SolvesFirst (compactMatrix 1 A) (vector 1 b) y := ⟨0, solvesFirst_one 0⟩
  rw [positiveSolverRec]
  split
  case isTrue hzero =>
    simp only [hzero, true_and] at hmiss hlast
    have hall : (∀ r, Misses (compactMatrix 1 A) (vector 1 b) r → |r| < 1) ↔ |b 0| < 1 := by
      simp [hmiss]
    constructor
    · rw [Option.map_eq_none_iff, intAbs_eq_none]
      simp [hmiss]
    · intro out hout
      obtain ⟨z, hz, rfl⟩ := Option.map_eq_some_iff.mp hout
      split
      · exact .inr rfl
      · exact .inl rfl
    · intro out hout
      obtain ⟨z, hz, rfl⟩ := Option.map_eq_some_iff.mp hout
      have hle := le_of_intAbs hz
      rw [hall]
      split
      case isTrue hfar => simp [hle.mp hfar]
      case isFalse hnear => simp [hfirst, not_le.mp (mt hle.mpr hnear)]
    · intro out _ _
      exact ⟨solvesFirst_one _, fun hno => absurd (hlast.mpr trivial) hno⟩
  case isFalse hne =>
    simp only [hne, false_and] at hmiss
    constructor
    · simp [hmiss]
    · intro out hout
      cases hout
      exact .inl rfl
    · intro out hout
      cases hout
      simp [hmiss, hfirst]
    · intro out hout _
      cases hout
      refine ⟨solvesFirst_one _, fun _ => ?_⟩
      have hone : ∀ y : Fin 1 → ℚ, (compactMatrix 1 A *ᵥ y) (Fin.last 0) = A 0 0 * y 0 := by
        intro y
        rw [mulVec, dotProduct, Fin.sum_univ_one]
        rfl
      rw [hone]
      exact mul_div_cancel₀ _ hne

theorem sum_loop (f : Nat → ℚ) (m : Nat) :
    (List.range m).foldl (fun p k => p + f k) 0 = ∑ k : Fin m, f k := by
  rw [Fin.sum_univ_eq_sum_range]
  induction m with
  | zero => rfl
  | succ m ih =>
      rw [List.range_succ, List.foldl_append, ih, List.foldl_cons, List.foldl_nil,
        Finset.sum_range_succ]

theorem indexSymmMatrix_zero (A : Nat → Nat → ℚ) (j : Nat) : indexSymmMatrix A 0 j = A 0 j := by
  rw [indexSymmMatrix]
  split
  · rfl
  · have hj : j = 0 := by omega
    rw [hj]

theorem compactMatrix_zero (j : Fin (n + 1)) : compactMatrix (n + 1) A 0 j = A 0 j :=
  indexSymmMatrix_zero A j

/-- The arrays of a call, when it has called for all but the first unknown. -/
def Out.behind (A : Nat → Nat → ℚ) (x b : Nat → ℚ) (out : Out) : Out :=
  ⟨out.status, Solver.behind (A 0) out.A, Solver.behind (x 0) out.x, Solver.behind (b 0) out.b⟩

theorem positiveSolverRec_succ : positiveSolverRec w (m + 2) A x b =
    (positiveSolverRec w (m + 1) (fun i => (step w (m + 1) A b).A (i + 1)) (fun i => x (i + 1))
      fun i => (step w (m + 1) A b).b (i + 1)).map fun out =>
        firstUnknown (m + 1) (out.behind A x b) := by
  have hfirst : (step w (m + 1) A b).A 0 = A 0 ∧ (step w (m + 1) A b).b 0 = b 0 := step_first
  rw [positiveSolverRec]
  change Option.map (fun out : Out => firstUnknown (m + 1) ⟨out.status,
    behind ((step w (m + 1) A b).A 0) out.A, behind (x 0) out.x,
    behind ((step w (m + 1) A b).b 0) out.b⟩) _ = _
  rw [hfirst.1, hfirst.2]
  rfl

theorem tail_vector {a : ℚ} {f : Nat → ℚ} :
    Fin.tail (vector (n + 1) (Function.update (behind (x 0) f) 0 a)) = vector n f := by
  funext i
  simp [vector, Fin.tail, behind]

/-- The first unknown is chosen for the first equation to hold. -/
theorem firstUnknown_eq (h : Reducible (compactMatrix (n + 1) A)) {out : Out}
    (hout : out.status = 0) : ((firstUnknown n (out.behind A x b)).status = 0 ∨
        (firstUnknown n (out.behind A x b)).status = -1) ∧
      ((firstUnknown n (out.behind A x b)).status = 0 ↔ (A 0 0 = 0 → b 0 = 0)) ∧
      ((firstUnknown n (out.behind A x b)).status = 0 →
        Fin.tail (vector (n + 1) (firstUnknown n (out.behind A x b)).x) = vector n out.x ∧
        (compactMatrix (n + 1) A *ᵥ vector (n + 1) (firstUnknown n (out.behind A x b)).x) 0 =
          b 0) := by
  have hA : (out.behind A x b).A 0 0 = A 0 0 := rfl
  have hb : (out.behind A x b).b 0 = b 0 := rfl
  have hstatus : (out.behind A x b).status = 0 := hout
  rw [firstUnknown, if_neg (by rw [hstatus]; exact lt_irrefl 0), hA, hb]
  by_cases hp : A 0 0 = 0
  · rw [if_pos hp]
    by_cases hb0 : b 0 = 0
    · rw [if_neg (not_not.mpr hb0)]
      refine ⟨.inl hstatus, by simp [hstatus, hb0], fun _ => ⟨tail_vector, ?_⟩⟩
      rw [h.eq_zero hp, hb0]
    · rw [if_pos hb0]
      exact ⟨.inr rfl, by simp [hp, hb0], by simp⟩
  · rw [if_neg hp]
    refine ⟨.inl hstatus, by simp [hstatus, hp], fun _ => ⟨tail_vector, ?_⟩⟩
    rw [mulVec_first, compactMatrix_zero, sum_loop]
    simp only [compactMatrix_zero]
    simp only [vector, Fin.val_zero, Fin.val_succ, Function.update_self, ne_eq, Nat.succ_ne_zero,
      not_false_eq_true, Function.update_of_ne]
    rw [mul_div_cancel₀ _ hp]
    exact sub_add_cancel _ _

/-- **One unknown more**: what is known of the call for the others is known of this one. -/
theorem result_step (h : (compactMatrix (n + 2) A).PosSemidef) {o : Option Out}
    (hrec : Result (schur (compactMatrix (n + 2) A))
      (reduce (compactMatrix (n + 2) A) (vector (n + 2) b)) o) :
    Result (compactMatrix (n + 2) A) (vector (n + 2) b)
      (o.map fun out => firstUnknown (n + 1) (out.behind A x b)) := by
  have hred := reducible_of_posSemidef h
  have hs : (schur (compactMatrix (n + 2) A)).IsSymm :=
    isHermitian_iff.mp (schur_posSemidef h).isHermitian
  have hmiss : ∀ r, Misses (compactMatrix (n + 2) A) (vector (n + 2) b) r ↔
      Misses (schur (compactMatrix (n + 2) A))
        (reduce (compactMatrix (n + 2) A) (vector (n + 2) b)) r := fun r => misses_succ hred hs
  have hfirst : (∃ y, SolvesFirst (compactMatrix (n + 2) A) (vector (n + 2) b) y) ↔
      (A 0 0 = 0 → b 0 = 0) ∧ ∃ y, SolvesFirst (schur (compactMatrix (n + 2) A))
        (reduce (compactMatrix (n + 2) A) (vector (n + 2) b)) y := exists_solvesFirst_succ hred
  -- a failure is passed on
  have hfail : ∀ out : Out, out.status = -1 →
      (firstUnknown (n + 1) (out.behind A x b)).status = -1 := by
    intro out hout
    have hneg : (out.behind A x b).status < 0 := by
      rw [Out.behind, hout]
      omega
    rw [firstUnknown, if_pos hneg]
    exact hout
  constructor
  · rw [Option.map_eq_none_iff, hrec.undefined]
    simp only [hmiss]
  · intro out' hout'
    obtain ⟨out, hout, rfl⟩ := Option.map_eq_some_iff.mp hout'
    cases hrec.status out hout with
    | inl hzero => exact (firstUnknown_eq hred hzero).1
    | inr hneg => exact .inr (hfail out hneg)
  · intro out' hout'
    obtain ⟨out, hout, rfl⟩ := Option.map_eq_some_iff.mp hout'
    have hiff := hrec.zero_iff out hout
    simp only [hfirst, hmiss]
    cases hrec.status out hout with
    | inl hzero =>
        rw [(firstUnknown_eq hred hzero).2.1, and_assoc, ← hiff]
        exact (and_iff_left hzero).symm
    | inr hneg =>
        rw [hfail out hneg, and_assoc, ← hiff, hneg]
        simp
  · intro out' hout' hstatus
    obtain ⟨out, hout, rfl⟩ := Option.map_eq_some_iff.mp hout'
    cases hrec.status out hout with
    | inr hneg =>
        rw [hfail out hneg] at hstatus
        cases hstatus
    | inl hzero =>
        obtain ⟨htail, hrow⟩ := (firstUnknown_eq hred hzero).2.2 hstatus
        obtain ⟨hsolves, hlast⟩ := hrec.solves out hout hzero
        rw [← htail] at hsolves hlast
        refine ⟨(solvesFirst_succ hred).mpr ⟨hrow, hsolves⟩, ?_⟩
        rw [← Fin.succ_last, redundant_succ hred hs, mulVec_eq_iff hred hrow]
        exact hlast

/-- **What `_positive_solver_rec` returns.** -/
theorem positiveSolverRec_result (w : Team) (A : Nat → Nat → ℚ) (x b : Nat → ℚ)
    (h : (compactMatrix (n + 1) A).PosSemidef) :
    Result (compactMatrix (n + 1) A) (vector (n + 1) b) (positiveSolverRec w (n + 1) A x b) := by
  induction n generalizing A x b with
  | zero => exact result_one h
  | succ n ih =>
      rw [positiveSolverRec_succ]
      refine result_step h ?_
      rw [← compactMatrix_step (w := w) (b := b), ← vector_step (w := w)]
      refine ih _ _ _ ?_
      rw [compactMatrix_step]
      exact schur_posSemidef h

end Rec

/-! ## the copies -/

section Copy

variable {read : (Nat → Nat → ℚ) → Nat → Nat → ℚ} {n : Nat} {mem : Memory}

theorem foldl_copyRow (l : List Nat) : l.foldl (copyRow read n) mem =
    { mem with
      ACopy := l.foldl (fun c i => Function.update c i <| (List.range (n - i)).foldl
        (fun row j => Function.update row j (read mem.A i j)) (c i)) mem.ACopy
      bCopy := l.foldl (fun c i => Function.update c i (mem.b i)) mem.bCopy } := by
  induction l generalizing mem with
  | nil => rfl
  | cons i l ih =>
      rw [List.foldl_cons, ih]
      rfl

/-- The triangle is copied, whatever was in the memory of the copy. -/
theorem copied (read : (Nat → Nat → ℚ) → Nat → Nat → ℚ) (n : Nat) (mem : Memory) :
    ∃ C c, (List.range n).foldl (copyRow read n) mem =
      { mem with ACopy := C, bCopy := c } ∧
    compactMatrix n C = compactMatrix n (read mem.A) ∧ vector n c = vector n mem.b := by
  refine ⟨_, _, foldl_copyRow _, ?_, ?_⟩
  · rw [Gang.foldl_update (fun i row => (List.range (n - i)).foldl
      (fun row j => Function.update row j (read mem.A i j)) row) List.nodup_range]
    ext i j
    have hi := i.isLt
    have hj := j.isLt
    have hrow : ∀ i, (List.range (n - i)).foldl
        (fun row j => Function.update row j (read mem.A i j)) (mem.ACopy i) = _ :=
      fun i => Gang.foldl_update (fun j _ => read mem.A i j) List.nodup_range _
    simp only [compactMatrix, of_apply, indexSymmMatrix, List.mem_range, hrow, hi, hj, if_true]
    split
    · rw [if_pos (by omega)]
    · rw [if_pos (by omega)]
  · rw [Gang.foldl_update (fun i _ => mem.b i) List.nodup_range]
    funext i
    simp [vector]

theorem solveCopy_eq (read : (Nat → Nat → ℚ) → Nat → Nat → ℚ) (w : Team) (n : Nat) (mem : Memory) :
    ∃ C c, compactMatrix n C = compactMatrix n (read mem.A) ∧
    vector n c = vector n mem.b ∧ solveCopy read w n mem =
      (positiveSolverRec w n C mem.x c).map fun out =>
        (out.status, { mem with ACopy := out.A, x := out.x, bCopy := out.b }) := by
  obtain ⟨C, c, hcopy, hC, hc⟩ := copied read n mem
  refine ⟨C, c, hC, hc, ?_⟩
  rw [solveCopy, hcopy]

end Copy

/-! ## a system to solve -/

/-- How the caller stores a matrix. -/
inductive Storage where
  | compact
  | full

def Storage.matrix : Storage → (n : Nat) → (Nat → Nat → ℚ) → Matrix (Fin n) (Fin n) ℚ
  | compact => compactMatrix
  | full => fullMatrix

def Storage.solver : Storage → Team → Nat → Memory → Option (Int × Memory)
  | compact => posdefPositiveSolver
  | full => fullPosdefPositiveSolver

/-- A positive semidefinite system of `m + 1` equations, and the threads that work on it. -/
structure Problem where
  storage : Storage
  m : Nat
  w : Team
  mem : Memory
  semidef : (storage.matrix (m + 1) mem.A).PosSemidef

namespace Problem

variable (a : Problem)

def M : Matrix (Fin (a.m + 1)) (Fin (a.m + 1)) ℚ := a.storage.matrix (a.m + 1) a.mem.A

def b : Fin (a.m + 1) → ℚ := vector (a.m + 1) a.mem.b

def call : Option (Int × Memory) := a.storage.solver a.w (a.m + 1) a.mem

/-- `y` is a solution, up to the tolerance in the last equation. -/
def IsSolution (y : Fin (a.m + 1) → ℚ) : Prop :=
  SolvesFirst a.M a.b y ∧ |a.b (Fin.last a.m) - (a.M *ᵥ y) (Fin.last a.m)| ≤ defaultEps

end Problem

/-- What a solver is to return. -/
structure Answers (a : Problem) (status : Int) (mem : Memory) : Prop where
  keeps : mem.A = a.mem.A ∧ mem.b = a.mem.b
  posDef : a.M.PosDef → status = 0 ∧ a.M *ᵥ vector (a.m + 1) mem.x = a.b
  zero_iff : status = 0 ↔ ∃ y, a.IsSolution y
  solves : status = 0 → a.IsSolution (vector (a.m + 1) mem.x)

/-- **The system is solved**, and the workers share out the rows of every step. -/
structure Solves (a : Problem) : Prop where
  answers : ∃ status mem, a.call = some (status, mem) ∧ Answers a status mem
  one_worker : ∀ i, ∃! t, t < a.w.nT ∧ Takes a.w.nT t i
  each_row : ∀ m, (a.w.rows m).Perm (List.range m)

section Problem

variable {a : Problem}

theorem Storage.compactMatrix_eq {n : Nat} {A : Nat → Nat → ℚ} (h : (fullMatrix n A).IsSymm) :
    compactMatrix n (fun i j => A i (j + i)) = fullMatrix n A := by
  ext i j
  simp only [compactMatrix, fullMatrix, of_apply, indexSymmMatrix]
  split
  · rw [Nat.sub_add_cancel (by omega)]
    exact h.apply i j
  · rw [Nat.sub_add_cancel (by omega)]

/-- The call, as one of `_positive_solver_rec`. -/
theorem Problem.call_eq (a : Problem) : ∃ o : Option Out, Result a.M a.b o ∧
    a.call = o.map fun out =>
      (out.status, { a.mem with ACopy := out.A, x := out.x, bCopy := out.b }) := by
  obtain ⟨storage, m, w, mem, hsemi⟩ := a
  have hcall : ∀ read, compactMatrix (m + 1) (read mem.A) = storage.matrix (m + 1) mem.A →
      ∃ o : Option Out, Result (storage.matrix (m + 1) mem.A) (vector (m + 1) mem.b) o ∧
        solveCopy read w (m + 1) mem = o.map fun out =>
          (out.status, { mem with ACopy := out.A, x := out.x, bCopy := out.b }) := by
    intro read hread
    obtain ⟨C, c, hC, hc, heq⟩ := solveCopy_eq read w (m + 1) mem
    rw [hread] at hC
    have hres := positiveSolverRec_result w C mem.x c (by rw [hC]; exact hsemi)
    rw [hC, hc] at hres
    exact ⟨_, hres, heq⟩
  cases storage with
  | compact => exact hcall _ rfl
  | full => exact hcall _ (Storage.compactMatrix_eq (isHermitian_iff.mp hsemi.isHermitian))

/-- **When the system is solved**: always, but where the last equation is a combination of the
others on its left side, and is missed by more than the tolerance and less than 1, or by more
than an `int`. -/
theorem solves_iff (a : Problem) : Solves a ↔ ∀ r, Misses a.M a.b r →
    |r| < 2 ^ 31 ∧ ((∃ y, SolvesFirst a.M a.b y) → |r| ≤ defaultEps ∨ 1 ≤ |r|) := by
  obtain ⟨o, hres, hcall⟩ := a.call_eq
  constructor
  · intro h r hr
    obtain ⟨status, mem, hsome, hans⟩ := h.answers
    rw [hcall, Option.map_eq_some_iff] at hsome
    obtain ⟨out, hout, heq⟩ := hsome
    cases heq
    constructor
    · by_contra hbig
      have hnone := hres.undefined.mpr ⟨r, hr, not_lt.mp hbig⟩
      rw [hout] at hnone
      cases hnone
    · intro hfirst
      by_cases hone : 1 ≤ |r|
      · exact .inr hone
      · have hzero : out.status = 0 := (hres.zero_iff out hout).mpr ⟨hfirst, fun r' hr' => by
          rw [← hr.unique a.semidef hr']
          exact not_le.mp hone⟩
        obtain ⟨hsolves, htol⟩ := hans.solves hzero
        have hsame := hr.unique a.semidef (hsolves.misses hr.1)
        rw [← hsame] at htol
        exact .inl htol
  · intro h
    have hsome : o ≠ none := by
      intro hnone
      obtain ⟨r, hr, hbig⟩ := hres.undefined.mp hnone
      exact absurd (h r hr).1 (not_lt.mpr hbig)
    obtain ⟨out, hout⟩ := Option.ne_none_iff_exists'.mp hsome
    have heps : (0 : ℚ) ≤ defaultEps ∧ defaultEps < 1 := by norm_num [defaultEps]
    have hsolves : out.status = 0 → a.IsSolution (vector (a.m + 1) out.x) := by
      intro hzero
      obtain ⟨hfirst, hlast⟩ := hres.solves out hout hzero
      refine ⟨hfirst, ?_⟩
      by_cases hred : Redundant a.M (Fin.last a.m)
      · have hmiss := hfirst.misses hred
        have hlt := ((hres.zero_iff out hout).mp hzero).2 _ hmiss
        cases (h _ hmiss).2 ⟨_, hfirst⟩ with
        | inl hle => exact hle
        | inr hone => exact absurd hlt (not_lt.mpr hone)
      · rw [hlast hred, sub_self, abs_zero]
        exact heps.1
    have hzero : (∃ y, a.IsSolution y) → out.status = 0 := by
      intro hy
      obtain ⟨y, hfirst, htol⟩ := hy
      refine (hres.zero_iff out hout).mpr ⟨⟨y, hfirst⟩, ?_⟩
      intro r hr
      rw [hr.unique a.semidef (hfirst.misses hr.1)]
      exact htol.trans_lt heps.2
    rw [hout, Option.map_some] at hcall
    refine ⟨⟨_, _, hcall, ⟨⟨rfl, rfl⟩, ?_, ⟨?_, hzero⟩, hsolves⟩⟩,
      existsUnique_takes a.w.nT_pos, a.w.rows_perm⟩
    · intro hpos
      obtain ⟨y, hy⟩ := exists_solution_of_posDef hpos a.b
      have hsol : a.IsSolution y := by
        constructor
        · exact fun k _ => congrFun hy k
        · rw [hy, sub_self, abs_zero]
          exact heps.1
      have hstatus := hzero ⟨y, hsol⟩
      obtain ⟨hfirst, hlast⟩ := hres.solves out hout hstatus
      refine ⟨hstatus, ?_⟩
      funext k
      by_cases hk : k = Fin.last a.m
      · rw [hk]
        exact hlast (not_redundant_of_posDef hpos _)
      · exact hfirst k hk
    · exact fun hstatus => ⟨_, hsolves hstatus⟩

theorem zeroMatrix_posSemidef :
    (Storage.compact.matrix 1 fun _ _ => 0).PosSemidef := by
  have hzero : (Storage.compact.matrix 1 fun _ _ => 0) = 0 := by
    ext i j
    simp [Storage.matrix, compactMatrix, indexSymmMatrix]
  rw [hzero]
  exact Matrix.PosSemidef.zero

/-- `0 x = 1/2`, on one thread. -/
def halfOff : Problem where
  storage := .compact
  m := 0
  w := ⟨1, fun m => List.range 1 ×ˢ List.range m, Nat.one_pos, fun _ => List.Perm.refl _⟩
  mem := ⟨fun _ _ => 0, fun _ => 0, fun _ => 1 / 2, fun _ _ => 0, fun _ => 0⟩
  semidef := zeroMatrix_posSemidef

/-- No number solves it, and yet one is returned. -/
theorem halfOff_fails : ¬ Solves halfOff := by
  intro h
  obtain ⟨o, hres, hcall⟩ := halfOff.call_eq
  obtain ⟨status, mem, hsome, hans⟩ := h.answers
  rw [hcall, Option.map_eq_some_iff] at hsome
  obtain ⟨out, hout, heq⟩ := hsome
  cases heq
  have hred : Reducible halfOff.M := reducible_of_posSemidef halfOff.semidef
  have hzero : out.status = 0 := by
    refine (hres.zero_iff out hout).mpr ⟨⟨0, solvesFirst_one 0⟩, ?_⟩
    intro r hr
    rw [((misses_one hred).mp hr).2]
    norm_num [Problem.b, vector, halfOff]
  have htol := (hans.solves hzero).2
  have hrow : (halfOff.M *ᵥ vector 1 out.x) 0 = 0 := hred.eq_zero rfl
  have hb : halfOff.b (Fin.last 0) = 1 / 2 := rfl
  change |halfOff.b (Fin.last 0) - (halfOff.M *ᵥ vector 1 out.x) 0| ≤ defaultEps at htol
  rw [hrow, hb] at htol
  norm_num [defaultEps] at htol

end Problem

end QStore.Solver
