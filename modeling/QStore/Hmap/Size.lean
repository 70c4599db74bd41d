import QStore.Lib.Binary64

/-!
# QStore.Hmap.Size

The table sizes of `inc/rs_hmap_common.h`, `src/calc_new_size.c` and
`prime_geq` of `src/aux.c`: when a table is too full or too empty, and which
size it gets next.

The water marks are binary64 constants. `0.85` and `0.6` lie just below their
decimals and `0.2` just above, so each truncation is stated through
`QStore.Binary64` and then shown to be the exact quotient on 32-bit counts.
-/

namespace QStore.Hmap

open Binary64

/-- `HASH_MIN_SIZE` -/
def hashMinSize : Nat := 1024

/-- `MAX_GROWTH_STEP` -/
def maxGrowthStep : Nat := 1024 * 1024

/-- `UINT_MAX` -/
def uintMax : Nat := 2 ^ 32 - 1

/-- `(uint64_t)(HIGH_WATER_MARK * (double)n)` -/
def highThreshold (n : Nat) : Nat := truncRound (7656119366529843 * n) (2 ^ 53)

/-- `(size_t)(LOW_WATER_MARK * (double)n)` -/
def lowThreshold (n : Nat) : Nat := truncRound (3602879701896397 * n) (2 ^ 54)

/-- `(size_t)((double)n / IDEAL_WATER_MARK)` -/
def idealSize (n : Nat) : Nat := truncRound (n * 2 ^ 53) 5404319552844595

variable {n : Nat}

/-- The binary64 `0.85` is short by `4 / 20` of its last place. A multiple of
`20` is then just below an integer, which the product rounds up to. -/
theorem highThreshold_eq (h : n < 5 * 10 ^ 9) : highThreshold n = 17 * n / 20 := by
  by_cases h0 : n = 0
  · subst h0; decide
  · refine truncRound_eq_of_near (by norm_num) (by omega) (by omega) ?_ (by omega)
    by_cases hr : n % 20 = 0
    · obtain ⟨k, rfl⟩ : ∃ k, n = 20 * k := ⟨n / 20, by omega⟩
      rw [show 17 * (20 * k) / 20 = 17 * k by omega]
      omega
    · have hfrac : 17 * n % 20 ≠ 0 := by omega
      rw [Nat.sub_eq_zero_of_le (by omega)]
      omega

theorem lowThreshold_eq (h : n < 2 ^ 32) : lowThreshold n = n / 5 :=
  truncRound_eq (by norm_num) (by omega) (by omega) (by omega)

theorem idealSize_eq (h : n < 2 ^ 31) : idealSize n = 5 * n / 3 :=
  truncRound_eq (by norm_num) (by omega) (by omega) (by omega)

/-! ## the next size of a growing table -/

/-- The loop of `calc_new_size`. Its body does not depend on the turn, so it
ends after the first or never: `none`. -/
def growSize (nitems size : Nat) : Option Nat :=
  let newsize := min (2 * size) (size + maxGrowthStep)
  if nitems > highThreshold newsize then none else some newsize

/-- `trial m k`: no odd number from `k` up to the root of `m` divides `m`. -/
def trial (m k : Nat) : Bool :=
  if k * k ≤ m then
    if m % k = 0 then false else trial m (k + 2)
  else true
termination_by m + 1 - k
decreasing_by
  have := Nat.le_mul_self k
  omega

/-- The outer loop of `prime_geq`. Past the last 32-bit number it wraps to `0`
or `1`, for which no divisor is tried. -/
def primeLoop (m : Nat) : Nat :=
  if trial m 3 then m
  else if m + 2 < 2 ^ 32 then primeLoop (m + 2)
  else m + 2 - 2 ^ 32
termination_by 2 ^ 32 - m

/-- `prime_geq`. The test `n % 0x1 == 1` never holds, so the search always
starts above `n`, at an even number if `n` is odd. -/
def primeGeq (n : Nat) : Nat :=
  if n ≤ 1 then 1 else primeLoop ((n + 1) % 2 ^ 32)

/-- What `calc_new_size` returns and writes. -/
structure NewSize where
  status : Int
  newsize : Nat
  resize : Bool

/-- `calc_new_size`. The bound `UINT_MAX * 0.85` is `3650722200.75`. -/
def calcNewSize (nitems maxsize size : Nat) : Option NewSize :=
  let resize := decide (nitems > highThreshold size)
  (if resize then growSize nitems size else some 0).map fun newsize =>
    if newsize > 3650722200 then { status := -1, newsize := 0, resize }
    else if maxsize > 0 ∧ newsize > maxsize then { status := -1, newsize := 0, resize }
    else { status := 0, newsize := primeGeq newsize, resize }

/-! ## sizes that `prime_geq` returns -/

theorem trial_of_lt {m k : Nat} (h : m < k * k) : trial m k = true := by
  rw [trial, if_neg (by omega)]

/-- The search ends above its start, or has wrapped. -/
theorem primeLoop_cases {m : Nat} (hm : m < 2 ^ 32) :
    primeLoop m ≤ 1 ∨ (m ≤ primeLoop m ∧ primeLoop m < 2 ^ 32) := by
  fun_induction primeLoop m with
  | case1 m _ => exact .inr ⟨le_rfl, hm⟩
  | case2 m _ hlt ih =>
      rcases ih hlt with h | ⟨hle, hlt'⟩
      · exact .inl h
      · exact .inr ⟨by omega, hlt'⟩
  | case3 m _ hge => exact .inl (by omega)

theorem primeGeq_lt (n : Nat) : primeGeq n < 2 ^ 32 := by
  unfold primeGeq
  split
  · omega
  · have := primeLoop_cases (m := (n + 1) % 2 ^ 32) (Nat.mod_lt _ (by norm_num))
    omega

/-- The result is larger than `n`, unless the search wrapped. -/
theorem primeGeq_cases (h2 : 2 ≤ n) (hn : n + 1 < 2 ^ 32) :
    primeGeq n ≤ 1 ∨ n < primeGeq n := by
  rw [primeGeq, if_neg (by omega), Nat.mod_eq_of_lt hn]
  have := primeLoop_cases (m := n + 1) hn
  omega

/-- Below the square of `3` nothing is tried. -/
theorem primeGeq_of_lt (h2 : 2 ≤ n) (h8 : n < 8) : primeGeq n = n + 1 := by
  rw [primeGeq, if_neg (by omega), Nat.mod_eq_of_lt (by omega), primeLoop,
    if_pos (trial_of_lt (by omega))]

end QStore.Hmap
