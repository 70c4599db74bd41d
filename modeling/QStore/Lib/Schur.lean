import Mathlib.LinearAlgebra.Matrix.PosDef
import Mathlib.Algebra.BigOperators.Fin
import Mathlib.Algebra.Star.Rat
import Mathlib.Tactic.FieldSimp
import Mathlib.Tactic.Linarith

/-!
# QStore.Lib.Schur

Symmetric systems `M y = b` by elimination of one unknown after the other: the first equation
is solved for the first unknown, which leaves a system for the others,

```
M = [ p  aᵀ ]      schur M = S - a aᵀ / p      reduce M b = c - a β / p
    [ a  S  ]                                  where b = (β, c)
```

A pivot `p` of zero is skipped. That loses nothing where its whole row is zero, which is so
where `M` is positive semidefinite: what does not fit then is the right-hand side.
-/

namespace QStore.Elim

open Matrix

section Field

variable {𝕜 : Type*} [Field 𝕜] {n : Nat}

/-- What is left of the matrix when the first unknown is eliminated. -/
def schur (M : Matrix (Fin (n + 1)) (Fin (n + 1)) 𝕜) : Matrix (Fin n) (Fin n) 𝕜 :=
  Matrix.of fun i j => M i.succ j.succ - M 0 i.succ * M 0 j.succ / M 0 0

/-- What is left of the right-hand side. -/
def reduce (M : Matrix (Fin (n + 1)) (Fin (n + 1)) 𝕜) (b : Fin (n + 1) → 𝕜) : Fin n → 𝕜 :=
  fun i => b i.succ - M 0 i.succ * b 0 / M 0 0

/-- A matrix whose first unknown may be eliminated, or skipped. -/
structure Reducible (M : Matrix (Fin (n + 1)) (Fin (n + 1)) 𝕜) : Prop where
  symm : M.IsSymm
  zero : M 0 0 = 0 → ∀ j, M 0 j = 0

variable {M : Matrix (Fin (n + 1)) (Fin (n + 1)) 𝕜} {b : Fin (n + 1) → 𝕜}

theorem mulVec_first (y : Fin (n + 1) → 𝕜) :
    (M *ᵥ y) 0 = M 0 0 * y 0 + ∑ j : Fin n, M 0 j.succ * y j.succ := by
  rw [mulVec, dotProduct, Fin.sum_univ_succ]

/-- **An equation of `M` is one of `schur M`**, up to a multiple of the first. -/
theorem mulVec_succ (h : Reducible M) (y : Fin (n + 1) → 𝕜) (i : Fin n) :
    (M *ᵥ y) i.succ = (schur M *ᵥ Fin.tail y) i + M 0 i.succ / M 0 0 * (M *ᵥ y) 0 := by
  have hrow : (M *ᵥ y) i.succ =
      M 0 i.succ * y 0 + ∑ j : Fin n, M i.succ j.succ * y j.succ := by
    rw [mulVec, dotProduct, Fin.sum_univ_succ, h.symm.apply]
  have hrest : (schur M *ᵥ Fin.tail y) i = ∑ j : Fin n, M i.succ j.succ * y j.succ -
      M 0 i.succ / M 0 0 * ∑ j : Fin n, M 0 j.succ * y j.succ := by
    rw [Finset.mul_sum, ← Finset.sum_sub_distrib, mulVec, dotProduct]
    refine Finset.sum_congr rfl ?_
    intro j _
    rw [schur, of_apply, Fin.tail]
    ring
  rw [hrow, hrest, mulVec_first]
  by_cases hp : M 0 0 = 0
  · rw [h.zero hp]
    ring
  · field_simp
    ring

/-- The first unknown can be chosen for the first equation to hold. -/
theorem exists_head {c : 𝕜} (hc : M 0 0 = 0 → c = 0) (h : Reducible M) (y : Fin n → 𝕜) :
    ∃ a, (M *ᵥ (Fin.cons a y : Fin (n + 1) → 𝕜)) 0 = c := by
  by_cases hp : M 0 0 = 0
  · use 0
    rw [mulVec_first, hc hp]
    simp [h.zero hp]
  · use (c - ∑ j : Fin n, M 0 j.succ * y j) / M 0 0
    rw [mulVec_first, Fin.cons_zero, mul_div_cancel₀ _ hp]
    simp

/-- What the other equations miss is what the equations left miss. -/
theorem sub_mulVec_succ (h : Reducible M) (y : Fin (n + 1) → 𝕜) (i : Fin n) :
    b i.succ - (M *ᵥ y) i.succ = reduce M b i - (schur M *ᵥ Fin.tail y) i +
      M 0 i.succ / M 0 0 * (b 0 - (M *ᵥ y) 0) := by
  rw [mulVec_succ h, reduce]
  ring

/-- Where the first equation holds, another one holds as it does in what is left. -/
theorem mulVec_eq_iff (h : Reducible M) {y : Fin (n + 1) → 𝕜} (hzero : (M *ᵥ y) 0 = b 0)
    {k : Fin n} : (M *ᵥ y) k.succ = b k.succ ↔ (schur M *ᵥ Fin.tail y) k = reduce M b k := by
  have hsub := sub_mulVec_succ (b := b) h y k
  rw [hzero, sub_self, mul_zero, add_zero] at hsub
  rw [eq_comm, ← sub_eq_zero, hsub, sub_eq_zero, eq_comm]

theorem Reducible.eq_zero (h : Reducible M) {y : Fin (n + 1) → 𝕜} (hp : M 0 0 = 0) :
    (M *ᵥ y) 0 = 0 := by
  rw [mulVec_first]
  simp [h.zero hp]

theorem schur_isSymm (h : M.IsSymm) : (schur M).IsSymm := by
  ext i j
  rw [transpose_apply, schur, of_apply, of_apply, h.apply i.succ j.succ, mul_comm]

/-! ## equations that follow from others -/

/-- Row `k` is a combination of those above it. -/
def Redundant (M : Matrix (Fin n) (Fin n) 𝕜) (k : Fin n) : Prop :=
  ∃ w : Fin n → 𝕜, (∀ i, k ≤ i → w i = 0) ∧ w ᵥ* M = M k

theorem redundant_iff {M : Matrix (Fin n) (Fin n) 𝕜} (h : M.IsSymm) {k : Fin n} :
    Redundant M k ↔ ∃ w : Fin n → 𝕜, (∀ i, k ≤ i → w i = 0) ∧ ∀ i, (M *ᵥ w) i = M k i := by
  have hvec : ∀ w : Fin n → 𝕜, w ᵥ* M = M *ᵥ w := by
    intro w
    rw [← mulVec_transpose, h.eq]
  simp only [Redundant, hvec, funext_iff]

theorem redundant_zero (h : Reducible M) : Redundant M 0 ↔ M 0 0 = 0 := by
  rw [redundant_iff h.symm]
  constructor
  · intro hw
    obtain ⟨w, hzero, hrow⟩ := hw
    rw [← hrow 0, mulVec_first, hzero 0 (le_refl 0)]
    simp [hzero]
  · intro hp
    refine ⟨0, fun i _ => rfl, ?_⟩
    intro i
    simp [h.zero hp]

/-- **Elimination keeps what follows from the equations above.** -/
theorem redundant_succ (h : Reducible M) (hs : (schur M).IsSymm) {k : Fin n} :
    Redundant M k.succ ↔ Redundant (schur M) k := by
  rw [redundant_iff h.symm, redundant_iff hs]
  have hk : ∀ i : Fin n, M 0 i.succ / M 0 0 * M 0 k.succ = M 0 k.succ * M 0 i.succ / M 0 0 := by
    intro i
    ring
  constructor
  · intro hw
    obtain ⟨w, hzero, hrow⟩ := hw
    refine ⟨Fin.tail w, fun i hi => hzero i.succ (Fin.succ_le_succ_iff.mpr hi), ?_⟩
    intro i
    have hi := hrow i.succ
    rw [mulVec_succ h, hrow 0, h.symm.apply 0 k.succ, hk] at hi
    rw [schur, of_apply, ← hi]
    exact eq_sub_of_add_eq rfl
  · intro hw
    obtain ⟨w, hzero, hrow⟩ := hw
    obtain ⟨a, ha⟩ := exists_head (fun hp => h.zero hp k.succ) h w
    refine ⟨Fin.cons a w, ?_, ?_⟩
    · intro i hi
      cases i using Fin.cases with
      | zero => exact absurd hi (by simp)
      | succ i => exact hzero i (Fin.succ_le_succ_iff.mp hi)
    · intro i
      cases i using Fin.cases with
      | zero => rw [ha, h.symm.apply]
      | succ i =>
          rw [mulVec_succ h, ha, Fin.tail_cons, hrow i, hk, schur, of_apply]
          exact sub_add_cancel _ _

/-! ## all equations but the last -/

/-- The equations before the last one hold. -/
def SolvesFirst (M : Matrix (Fin (n + 1)) (Fin (n + 1)) 𝕜) (b y : Fin (n + 1) → 𝕜) : Prop :=
  ∀ k, k ≠ Fin.last n → (M *ᵥ y) k = b k

/-- The last row says nothing that the others do not say, and what solves those of them that
say something misses the last equation by `r`. -/
def Misses (M : Matrix (Fin (n + 1)) (Fin (n + 1)) 𝕜) (b : Fin (n + 1) → 𝕜) (r : 𝕜) : Prop :=
  Redundant M (Fin.last n) ∧ ∃ y : Fin (n + 1) → 𝕜,
    (∀ k, k ≠ Fin.last n → ¬ Redundant M k → (M *ᵥ y) k = b k) ∧
      b (Fin.last n) - (M *ᵥ y) (Fin.last n) = r

theorem SolvesFirst.misses {y : Fin (n + 1) → 𝕜} (h : SolvesFirst M b y)
    (hlast : Redundant M (Fin.last n)) :
    Misses M b (b (Fin.last n) - (M *ᵥ y) (Fin.last n)) :=
  ⟨hlast, y, fun k hk _ => h k hk, rfl⟩

section One

variable {M : Matrix (Fin 1) (Fin 1) 𝕜} {b : Fin 1 → 𝕜}

theorem solvesFirst_one (y : Fin 1 → 𝕜) : SolvesFirst M b y := by
  intro k hk
  exact absurd (Fin.eq_zero k) hk

theorem misses_one (h : Reducible M) {r : 𝕜} : Misses M b r ↔ M 0 0 = 0 ∧ r = b 0 := by
  have hlast : Fin.last 0 = 0 := rfl
  rw [Misses, hlast, redundant_zero h]
  constructor
  · intro hm
    obtain ⟨hp, y, -, hr⟩ := hm
    rw [h.eq_zero hp, sub_zero] at hr
    exact ⟨hp, hr.symm⟩
  · intro hm
    refine ⟨hm.1, 0, ?_, ?_⟩
    · intro k hk
      exact absurd (Fin.eq_zero k) hk
    · rw [h.eq_zero hm.1, sub_zero, hm.2]

end One

section Step

variable {M : Matrix (Fin (n + 2)) (Fin (n + 2)) 𝕜} {b : Fin (n + 2) → 𝕜} {y : Fin (n + 2) → 𝕜}

theorem succ_ne_last {k : Fin (n + 1)} : k.succ ≠ Fin.last (n + 1) ↔ k ≠ Fin.last n := by
  rw [← Fin.succ_last, ne_eq, Fin.succ_inj]

/-- **A step keeps what solves the equations before the last.** -/
theorem solvesFirst_succ (h : Reducible M) : SolvesFirst M b y ↔
    (M *ᵥ y) 0 = b 0 ∧ SolvesFirst (schur M) (reduce M b) (Fin.tail y) := by
  have hrow : (M *ᵥ y) 0 = b 0 → ∀ k : Fin (n + 1), (M *ᵥ y) k.succ = b k.succ ↔
      (schur M *ᵥ Fin.tail y) k = reduce M b k := fun hzero k => mulVec_eq_iff h hzero
  constructor
  · intro hy
    have hzero := hy 0 (Fin.last_pos).ne
    exact ⟨hzero, fun k hk => (hrow hzero k).mp (hy k.succ (succ_ne_last.mpr hk))⟩
  · intro hy k hk
    cases k using Fin.cases with
    | zero => exact hy.1
    | succ k => exact (hrow hy.1 k).mpr (hy.2 k (succ_ne_last.mp hk))

theorem exists_solvesFirst_succ (h : Reducible M) : (∃ y, SolvesFirst M b y) ↔
    (M 0 0 = 0 → b 0 = 0) ∧ ∃ y, SolvesFirst (schur M) (reduce M b) y := by
  constructor
  · intro hy
    obtain ⟨y, hy⟩ := hy
    obtain ⟨hzero, htail⟩ := (solvesFirst_succ h).mp hy
    refine ⟨fun hp => ?_, Fin.tail y, htail⟩
    rw [← hzero, h.eq_zero hp]
  · intro hy
    obtain ⟨hzero, y, hy⟩ := hy
    obtain ⟨a, ha⟩ := exists_head hzero h y
    refine ⟨Fin.cons a y, (solvesFirst_succ h).mpr ⟨ha, ?_⟩⟩
    rwa [Fin.tail_cons]

/-- **A step keeps what the last equation is missed by.** -/
theorem misses_succ (h : Reducible M) (hs : (schur M).IsSymm) {r : 𝕜} :
    Misses M b r ↔ Misses (schur M) (reduce M b) r := by
  -- what the first equation is missed by does not matter where it is skipped
  have hsub : ∀ y, (¬ Redundant M 0 → (M *ᵥ y) 0 = b 0) → ∀ k : Fin (n + 1),
      b k.succ - (M *ᵥ y) k.succ = reduce M b k - (schur M *ᵥ Fin.tail y) k := by
    intro y hy k
    rw [sub_mulVec_succ h]
    by_cases hp : M 0 0 = 0
    · rw [h.zero hp]
      simp
    · rw [hy (mt (redundant_zero h).mp hp)]
      simp
  have hrow : ∀ y, (¬ Redundant M 0 → (M *ᵥ y) 0 = b 0) → ∀ k : Fin (n + 1),
      (M *ᵥ y) k.succ = b k.succ ↔ (schur M *ᵥ Fin.tail y) k = reduce M b k := by
    intro y hy k
    rw [eq_comm, ← sub_eq_zero, hsub y hy, sub_eq_zero, eq_comm]
  rw [Misses, Misses, ← Fin.succ_last, redundant_succ h hs]
  refine and_congr_right fun _ => ?_
  constructor
  · intro hy
    obtain ⟨y, hy, hr⟩ := hy
    have hzero := hy 0 (by rw [Fin.succ_last]; exact (Fin.last_pos).ne)
    refine ⟨Fin.tail y, ?_, by rw [← hsub y hzero, hr]⟩
    intro k hk hred
    exact (hrow y hzero k).mp (hy k.succ (by rwa [ne_eq, Fin.succ_inj])
      (mt (redundant_succ h hs).mp hred))
  · intro hy
    classical
    obtain ⟨y, hy, hr⟩ := hy
    obtain ⟨a, ha⟩ : ∃ a, (M *ᵥ (Fin.cons a y : Fin (n + 2) → 𝕜)) 0 =
        if M 0 0 = 0 then 0 else b 0 := exists_head (fun hp => if_pos hp) h y
    have hzero : ¬ Redundant M 0 → (M *ᵥ (Fin.cons a y : Fin (n + 2) → 𝕜)) 0 = b 0 := by
      intro hred
      rw [ha, if_neg (mt (redundant_zero h).mpr hred)]
    refine ⟨Fin.cons a y, ?_, by rw [hsub _ hzero, Fin.tail_cons, hr]⟩
    intro k hk hred
    cases k using Fin.cases with
    | zero => exact hzero hred
    | succ k =>
        rw [hrow _ hzero, Fin.tail_cons]
        exact hy k (by rwa [ne_eq, Fin.succ_inj] at hk) (mt (redundant_succ h hs).mpr hred)

end Step

end Field

/-! ## positive semidefinite matrices -/

section Ordered

variable {𝕜 : Type*} [Field 𝕜] [StarRing 𝕜] [TrivialStar 𝕜] {n : Nat}

theorem isHermitian_iff {M : Matrix (Fin n) (Fin n) 𝕜} : M.IsHermitian ↔ M.IsSymm := by
  rw [IsHermitian, conjTranspose_eq_transpose_of_trivial, IsSymm]

theorem dotProduct_cons {M : Matrix (Fin (n + 1)) (Fin (n + 1)) 𝕜} (h : Reducible M) {a : 𝕜}
    {y : Fin n → 𝕜}
    (ha : (M *ᵥ (Fin.cons a y : Fin (n + 1) → 𝕜)) 0 = 0) :
    star (Fin.cons a y : Fin (n + 1) → 𝕜) ⬝ᵥ (M *ᵥ (Fin.cons a y : Fin (n + 1) → 𝕜)) =
      star y ⬝ᵥ (schur M *ᵥ y) := by
  rw [star_trivial, star_trivial, dotProduct, Fin.sum_univ_succ, ha, mul_zero, zero_add, dotProduct]
  refine Finset.sum_congr rfl ?_
  intro i _
  rw [mulVec_succ h, ha, mul_zero, add_zero, Fin.cons_succ, Fin.tail_cons]

variable [LinearOrder 𝕜] [IsStrictOrderedRing 𝕜] {M : Matrix (Fin (n + 1)) (Fin (n + 1)) 𝕜}

/-- A pivot of zero has a row of zeros. -/
theorem reducible_of_posSemidef (h : M.PosSemidef) : Reducible M := by
  have hsymm : M.IsSymm := isHermitian_iff.mp h.isHermitian
  refine ⟨hsymm, ?_⟩
  intro hp j
  cases j using Fin.cases with
  | zero => exact hp
  | succ j =>
      by_contra hj
      -- along this line the form falls without bound
      have hline : ∀ t : 𝕜, 0 ≤ M j.succ j.succ + 2 * t * M 0 j.succ := by
        intro t
        have hform := h.dotProduct_mulVec_nonneg (Fin.cons t (Pi.single j 1))
        simp only [star_trivial, dotProduct, mulVec, Fin.sum_univ_succ, Fin.cons_zero,
          Fin.cons_succ, Pi.single_apply, mul_ite, mul_one, mul_zero, ite_mul, one_mul, zero_mul,
          Finset.sum_ite_eq', Finset.mem_univ, if_true, hp, zero_add,
          hsymm.apply 0 j.succ] at hform
        linarith
      have hbelow := hline (-(M j.succ j.succ + 1) / (2 * M 0 j.succ))
      have hval : M j.succ j.succ + 2 * (-(M j.succ j.succ + 1) / (2 * M 0 j.succ)) * M 0 j.succ =
          -1 := by
        field_simp
        ring
      rw [hval] at hbelow
      linarith

/-- **What is left of a positive semidefinite matrix is one.** -/
theorem schur_posSemidef (h : M.PosSemidef) : (schur M).PosSemidef := by
  have hred := reducible_of_posSemidef h
  refine PosSemidef.of_dotProduct_mulVec_nonneg
    (isHermitian_iff.mpr (schur_isSymm hred.symm)) ?_
  intro y
  obtain ⟨a, ha⟩ := exists_head (fun _ => rfl) hred y
  rw [← dotProduct_cons hred ha]
  exact h.dotProduct_mulVec_nonneg _

/-- No equation of a positive definite matrix follows from the others. -/
theorem not_redundant_of_posDef {M : Matrix (Fin n) (Fin n) 𝕜} (h : M.PosDef) (k : Fin n) :
    ¬ Redundant M k := by
  intro hred
  have hsymm : M.IsSymm := isHermitian_iff.mp h.isHermitian
  obtain ⟨w, hzero, hrow⟩ := (redundant_iff hsymm).mp hred
  have hker : M *ᵥ (w - Pi.single k 1) = 0 := by
    funext i
    rw [mulVec_sub, Pi.sub_apply, hrow i, mulVec_single_one, col_apply, hsymm.apply, sub_self]
    rfl
  have hne : w - Pi.single k 1 ≠ 0 := by
    intro heq
    have hk := congrFun heq k
    simp [hzero k (le_refl k)] at hk
  have hpos := h.dotProduct_mulVec_pos hne
  rw [hker, dotProduct_zero] at hpos
  exact lt_irrefl _ hpos

theorem exists_solution_of_posDef {K : Type*} [Field K] [PartialOrder K] [StarRing K]
    {M : Matrix (Fin n) (Fin n) K} (h : M.PosDef) (b : Fin n → K) : ∃ y, M *ᵥ y = b := by
  classical
  have hunit := h.isUnit
  rw [isUnit_iff_isUnit_det] at hunit
  exact ⟨M⁻¹ *ᵥ b, by rw [mulVec_mulVec, mul_nonsing_inv _ hunit, one_mulVec]⟩

/-! ## a whole elimination -/

/-- What the last equation is missed by does not depend on what solves the others. -/
theorem Misses.unique {M : Matrix (Fin (n + 1)) (Fin (n + 1)) 𝕜} {b : Fin (n + 1) → 𝕜} {r r' : 𝕜}
    (h : M.PosSemidef) (hr : Misses M b r) (hr' : Misses M b r') : r = r' := by
  induction n with
  | zero =>
      have hred := reducible_of_posSemidef h
      rw [misses_one hred] at hr hr'
      rw [hr.2, hr'.2]
  | succ n ih =>
      have hred := reducible_of_posSemidef h
      have hs := schur_posSemidef h
      have hsymm := isHermitian_iff.mp hs.isHermitian
      exact ih hs ((misses_succ hred hsymm).mp hr) ((misses_succ hred hsymm).mp hr')

end Ordered

end QStore.Elim
