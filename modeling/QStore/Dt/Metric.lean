import QStore.Lib.Rounding

/-!
# QStore.Dt.Metric

`eval_metrics`: the weighted gini impurity of a split, in `double`. The code
knows one bad value, -1, for a split that leaves nothing on the right. Rounding
may take the impurity below 0, but not near -1: `evalMetric_gt`.
-/

namespace QStore.Dt

/-- `double`. -/
abbrev Double := Rounding 53

variable (R : Double)

/-- `xL = nTL / nL; xL *= xL`. -/
def sqRatio (a c : ℚ) : ℚ := R.rnd (R.rnd (a / c) * R.rnd (a / c))

/-- `giniL` and `giniR`. -/
def gini (a b c : ℚ) : ℚ := R.rnd (R.rnd (1 - sqRatio R a c) - sqRatio R b c)

/-- One candidate of `eval_metrics`. The sums of counts are exact. -/
def evalMetric (nTL nHL nT nH : Nat) : ℚ :=
  let n : ℚ := (nT + nH : Nat)
  let nTR := R.rnd (nT - nTL)
  let nHR := R.rnd (nH - nHL)
  let nR := R.rnd (nTR + nHR)
  let nL := R.rnd (nTL + nHL)
  if nR = 0 ∨ nT = 0 then -1
  else R.rnd (R.rnd (R.rnd (nL / n) * gini R nTL nHL nL) + R.rnd (R.rnd (nR / n) * gini R nTR nHR nR))

section Bounds

variable {R} {a b c : ℚ}

theorem rnd_unit {x : ℚ} (h0 : 0 ≤ x) (h1 : x ≤ 1) : 0 ≤ R.rnd x ∧ R.rnd x ≤ 1 := by
  have hl := R.int_le (k := 0) (by decide) (by simpa using h0)
  have hu := R.le_int (k := 1) (by decide) (by simpa using h1)
  simp only [Int.cast_zero, Int.cast_one] at hl hu
  exact ⟨hl, hu⟩

theorem sqRatio_unit (ha : 0 ≤ a) (hac : a ≤ c) (hc : 0 < c) :
    0 ≤ sqRatio R a c ∧ sqRatio R a c ≤ 1 := by
  obtain ⟨h0, h1⟩ := rnd_unit (R := R) (div_nonneg ha hc.le) ((div_le_one hc).mpr hac)
  exact rnd_unit (mul_nonneg h0 h0) (mul_le_one₀ h1 h0 h1)

/-- The smaller class. -/
theorem sqRatio_le_quarter (ha : 0 ≤ a) (hac : 2 * a ≤ c) (hc : 0 < c) :
    sqRatio R a c ≤ 1 / 4 := by
  have h0 := (rnd_unit (R := R) (div_nonneg ha hc.le) ((div_le_one hc).mpr (by linarith))).1
  have hhalf : R.rnd (a / c) ≤ 1 / 2 := by
    have := R.le_frac (k := 1) (e := 1) (x := a / c) (by decide) (by decide)
      (by rw [div_le_div_iff₀ hc (by norm_num)]; push_cast; linarith)
    simpa using this
  have := R.le_frac (k := 1) (e := 2) (x := R.rnd (a / c) * R.rnd (a / c)) (by decide) (by decide)
    (by push_cast; nlinarith)
  rw [sqRatio]
  norm_num at this ⊢
  exact this

/-- Rounding does not take an impurity far below 0. -/
theorem gini_ge (ha : 0 ≤ a) (hb : 0 ≤ b) (habc : a + b = c) (hc : 0 < c) :
    -(1 / 4) ≤ gini R a b c := by
  have hx := sqRatio_unit (R := R) ha (by linarith) hc
  have hy := sqRatio_unit (R := R) hb (by linarith) hc
  have hdiff : -(1 / 4) ≤ R.rnd (1 - sqRatio R a c) - sqRatio R b c := by
    rcases le_total a b with hab | hba
    · have hq := sqRatio_le_quarter (R := R) ha (by linarith) hc
      have := R.frac_le (k := 3) (e := 2) (x := 1 - sqRatio R a c) (by decide) (by decide)
        (by push_cast; linarith)
      push_cast at this
      linarith
    · have hq := sqRatio_le_quarter (R := R) hb (by linarith) hc
      have := (rnd_unit (R := R) (x := 1 - sqRatio R a c) (by linarith) (by linarith)).1
      linarith
  have := R.frac_le (k := -1) (e := 2) (x := R.rnd (1 - sqRatio R a c) - sqRatio R b c)
    (by decide) (by decide) (by push_cast; linarith)
  push_cast at this
  rw [gini]
  linarith

/-- An impurity with the weight of its side. -/
theorem weighted_ge {w x : ℚ} (hw0 : 0 ≤ w) (hw1 : w ≤ 1) (hx : -(1 / 4) ≤ x) :
    -(1 / 4) ≤ R.rnd (w * x) := by
  have := R.frac_le (k := -1) (e := 2) (x := w * x) (by decide) (by decide)
    (by push_cast; nlinarith)
  push_cast at this
  linarith

/-- Two such sides. -/
theorem sides_gt {x y : ℚ} (hx : -(1 / 4) ≤ x) (hy : -(1 / 4) ≤ y) : -1 < R.rnd (x + y) := by
  have := R.frac_le (k := -1) (e := 1) (x := x + y) (by decide) (by decide)
    (by push_cast; linarith)
  push_cast at this
  linarith

end Bounds

variable {R} {nTL nHL nT nH : Nat}

theorem rnd_sub {a b : Nat} (h : a ≤ b) (hb : b < 2 ^ 32) : R.rnd ((b : ℚ) - a) = (b - a : Nat) := by
  rw [← Nat.cast_sub h]
  exact R.nat (by omega)

theorem rnd_add {a b : Nat} (h : a + b < 2 ^ 32) : R.rnd ((a : ℚ) + b) = (a + b : Nat) := by
  rw [← Nat.cast_add]
  exact R.nat (by omega)

/-- A split that leaves rows on the right has a metric above the bad value. -/
theorem evalMetric_gt (hT : nTL ≤ nT) (hH : nHL ≤ nH) (hL : 0 < nTL + nHL)
    (hR : nTL + nHL < nT + nH) (hpos : 0 < nT) (hn : nT + nH < 2 ^ 32) :
    -1 < evalMetric R nTL nHL nT nH := by
  have hR' : R.rnd (((nT - nTL : Nat) : ℚ) + (nH - nHL : Nat)) = (nT - nTL + (nH - nHL) : Nat) :=
    rnd_add (by omega)
  have hne : ¬ (((nT - nTL + (nH - nHL) : Nat) : ℚ) = 0 ∨ nT = 0) := by
    rw [Nat.cast_eq_zero]
    omega
  simp only [evalMetric, rnd_sub hT (by omega : nT < 2 ^ 32), rnd_sub hH (by omega : nH < 2 ^ 32),
    hR', rnd_add (by omega : nTL + nHL < 2 ^ 32), if_neg hne]
  have hnpos : (0 : ℚ) < (nT + nH : Nat) := Nat.cast_pos.mpr (by omega)
  have hside : ∀ a b : Nat, 0 < a + b → a + b ≤ nT + nH →
      -(1 / 4) ≤ R.rnd (R.rnd ((a + b : Nat) / (nT + nH : Nat)) * gini R a b (a + b : Nat)) := by
    intro a b h0 h1
    obtain ⟨hw0, hw1⟩ := rnd_unit (R := R) (x := ((a + b : Nat) : ℚ) / (nT + nH : Nat))
      (by positivity) ((div_le_one hnpos).mpr (Nat.cast_le.mpr h1))
    exact weighted_ge hw0 hw1 (gini_ge (Nat.cast_nonneg a) (Nat.cast_nonneg b)
      (Nat.cast_add a b).symm (Nat.cast_pos.mpr h0))
  exact sides_gt (hside nTL nHL hL hR.le) (hside (nT - nTL) (nH - nHL) (by omega) (by omega))

/-- Nothing is left on the right. -/
theorem evalMetric_full (hT : nTL ≤ nT) (hH : nHL ≤ nH) (hR : nTL + nHL = nT + nH)
    (hn : nT + nH < 2 ^ 32) : evalMetric R nTL nHL nT nH = -1 := by
  have hR' : R.rnd (((nT - nTL : Nat) : ℚ) + (nH - nHL : Nat)) = (nT - nTL + (nH - nHL) : Nat) :=
    rnd_add (by omega)
  have hzero : nT - nTL + (nH - nHL) = 0 := by omega
  simp only [evalMetric, rnd_sub hT (by omega : nT < 2 ^ 32), rnd_sub hH (by omega : nH < 2 ^ 32),
    hR', hzero, Nat.cast_zero, true_or, if_true]

end QStore.Dt
