import Mathlib.NumberTheory.LucasLehmer
import Mathlib.NumberTheory.LucasPrimality
import Mathlib.Tactic.NormNum.Prime
import Mathlib.Tactic.ReduceModChar
import QStore.Hmap.Del

/-!
# QStore.Hmap.NewSize

The sizes that tables grow and shrink to.

The loop of `calc_new_size` computes the same new size in every turn, a step of `2^20` above the
old one at most, so it ends where that step makes enough room. The search of `prime_geq` from
there does not wrap: below `2^32` it would meet an odd prime and twice a Mersenne prime, and it
visits all numbers of one parity.
-/

namespace QStore.Hmap

variable {n m w k nitems size newsize : Nat}

/-! ## Where the search for a size ends -/

/-- Nothing is found to divide a number without odd divisors up to its root. -/
theorem trial_of_no_odd_divisor (hodd : k % 2 = 1)
    (h : ∀ d, k ≤ d → d % 2 = 1 → d * d ≤ m → m % d ≠ 0) : trial m k = true := by
  fun_induction trial m k with
  | case1 k hk h0 => exact absurd h0 (h k le_rfl hodd hk)
  | case2 k hk _ ih => exact ih (by omega) fun d hd => h d (by omega)
  | case3 => rfl

/-- A search ends at the first number of its parity that no odd number divides. -/
theorem primeLoop_le (hmw : m ≤ w) (hw : w < 2 ^ 32) (hpar : m % 2 = w % 2)
    (hstop : trial w 3 = true) : m ≤ primeLoop m ∧ primeLoop m ≤ w := by
  fun_induction primeLoop m with
  | case1 m _ => exact ⟨le_rfl, hmw⟩
  | case2 m hno hlt ih =>
      have hne : m ≠ w := by
        rintro rfl
        exact hno hstop
      have := ih (by omega) (by omega)
      omega
  | case3 m hno hge =>
      have hne : m ≠ w := by
        rintro rfl
        exact hno hstop
      omega

/-- Not `1`, by its residue. -/
theorem zmod_ne_one {p c : Nat} (h : c % p ≠ 1 % p) : (c : ZMod p) ≠ 1 := by
  intro hc
  rw [← Nat.cast_one, ZMod.natCast_eq_natCast_iff'] at hc
  exact h hc

/-- `2^32 - 2^20 + 1` is prime: `19` is a primitive root. -/
theorem prime_odd : Nat.Prime 4293918721 := by
  refine lucas_primality _ 19 (by norm_num only; reduce_mod_char) ?_
  intro q hq hd
  rw [show 4293918721 - 1 = 2 ^ 20 * (3 ^ 2 * (5 * (7 * 13))) by norm_num] at hd
  have hcases : q = 2 ∨ q = 3 ∨ q = 5 ∨ q = 7 ∨ q = 13 := by
    rcases hq.dvd_mul.mp hd with h2 | hd
    · exact .inl ((Nat.prime_dvd_prime_iff_eq hq (by norm_num)).mp (hq.dvd_of_dvd_pow h2))
    rcases hq.dvd_mul.mp hd with h3 | hd
    · exact .inr (.inl ((Nat.prime_dvd_prime_iff_eq hq (by norm_num)).mp (hq.dvd_of_dvd_pow h3)))
    rcases hq.dvd_mul.mp hd with h5 | hd
    · exact .inr (.inr (.inl ((Nat.prime_dvd_prime_iff_eq hq (by norm_num)).mp h5)))
    rcases hq.dvd_mul.mp hd with h7 | h13
    · exact .inr (.inr (.inr (.inl ((Nat.prime_dvd_prime_iff_eq hq (by norm_num)).mp h7))))
    · exact .inr (.inr (.inr (.inr ((Nat.prime_dvd_prime_iff_eq hq (by norm_num)).mp h13))))
  rcases hcases with rfl | rfl | rfl | rfl | rfl
  · norm_num only
    reduce_mod_char
    exact zmod_ne_one (c := 4293918720) (by norm_num)
  · norm_num only
    reduce_mod_char
    exact zmod_ne_one (c := 3592176614) (by norm_num)
  · norm_num only
    reduce_mod_char
    exact zmod_ne_one (c := 2404679289) (by norm_num)
  · norm_num only
    reduce_mod_char
    exact zmod_ne_one (c := 2963021984) (by norm_num)
  · norm_num only
    reduce_mod_char
    exact zmod_ne_one (c := 2423190612) (by norm_num)

theorem trial_odd : trial 4293918721 3 = true := by
  refine trial_of_no_odd_divisor rfl fun d hd _ hle h0 => ?_
  rcases (Nat.dvd_prime prime_odd).mp (Nat.dvd_of_mod_eq_zero h0) with rfl | rfl
  · omega
  · omega

/-- `2 (2^31 - 1)`: an odd divisor divides the Mersenne prime. -/
theorem trial_even : trial 4294967294 3 = true := by
  have hprime : Nat.Prime 2147483647 := lucas_lehmer_sufficiency 31 (by norm_num) (by norm_num)
  refine trial_of_no_odd_divisor rfl fun d hd hodd hle h0 => ?_
  have hdvd : d ∣ 2 * 2147483647 := Nat.dvd_of_mod_eq_zero h0
  have hcop : Nat.Coprime d 2 := (Nat.odd_iff.mpr hodd).coprime_two_right
  rcases (Nat.dvd_prime hprime).mp (hcop.dvd_of_dvd_mul_left hdvd) with rfl | rfl
  · omega
  · omega

/-- `prime_geq` does not wrap on the sizes that `calc_new_size` lets through. -/
theorem primeGeq_bounds (h2 : 2 ≤ n) (hn : n ≤ 3650722200) :
    n ≤ primeGeq n ∧ primeGeq n < uintMax := by
  rw [primeGeq, if_neg (by omega), Nat.mod_eq_of_lt (by omega), uintMax]
  rcases Nat.mod_two_eq_zero_or_one (n + 1) with heven | hodd
  · have := primeLoop_le (m := n + 1) (w := 4294967294) (by omega) (by norm_num) (by omega)
      trial_even
    omega
  · have := primeLoop_le (m := n + 1) (w := 4293918721) (by omega) (by norm_num) (by omega)
      trial_odd
    omega

/-! ## When it is the next prime -/

/-- What the inner loop of `prime_geq` has tried. -/
theorem mod_ne_zero_of_trial (h : trial m k = true) {d : Nat} (hk : k ≤ d) (hpar : d % 2 = k % 2)
    (hle : d * d ≤ m) : m % d ≠ 0 := by
  fun_induction trial m k with
  | case1 k _ _ => contradiction
  | case2 k _ hmod ih =>
      by_cases hd : d = k
      · rw [hd]
        exact hmod
      · exact ih h (by omega) (by omega)
  | case3 k hlt =>
      have := Nat.mul_le_mul hk hk
      omega

/-- On odd numbers the inner loop tells the primes. -/
theorem trial_iff_prime (h3 : 3 ≤ m) (hodd : m % 2 = 1) : trial m 3 = true ↔ m.Prime := by
  constructor
  · intro h
    by_contra hnot
    have hsq := Nat.minFac_sq_le_self (by omega) hnot
    have hmod := Nat.mod_eq_zero_of_dvd (Nat.minFac_dvd m)
    have hprime := Nat.minFac_prime (n := m) (by omega)
    -- the least factor of an odd number is odd
    have hodd' : m.minFac % 2 = 1 :=
      Nat.odd_iff.mp ((Nat.odd_iff.mpr hodd).of_dvd_nat (Nat.minFac_dvd m))
    have := hprime.two_le
    rw [Nat.pow_two] at hsq
    exact mod_ne_zero_of_trial h (by omega) (by omega) hsq hmod
  · intro hp
    refine trial_of_no_odd_divisor rfl fun d hd _ hle h0 => ?_
    rcases (Nat.dvd_prime hp).mp (Nat.dvd_of_mod_eq_zero h0) with rfl | rfl
    · omega
    · have := Nat.mul_le_mul_right d hd
      omega

/-- The number a search ends at has passed the inner loop, also where the search has wrapped. -/
theorem trial_primeLoop (hm : m < 2 ^ 32) : trial (primeLoop m) 3 = true := by
  fun_induction primeLoop m with
  | case1 m h => exact h
  | case2 m _ hlt ih => exact ih hlt
  | case3 m _ hge => exact trial_of_lt (by omega)

/-- A search keeps to one parity. -/
theorem primeLoop_parity (m : Nat) : primeLoop m % 2 = m % 2 := by
  fun_induction primeLoop m with
  | case1 m _ => rfl
  | case2 m _ _ ih => omega
  | case3 m _ hge => omega

/-- **When `prime_geq` returns the next prime**: exactly for even numbers. From an odd one the
search starts at the even number after it and meets no prime. -/
theorem primeGeq_isLeast_iff {p : Nat} (h3 : 3 ≤ n) (hp : IsLeast {q | q.Prime ∧ n ≤ q} p)
    (hlt : p < 2 ^ 32) : IsLeast {q | q.Prime ∧ n ≤ q} (primeGeq n) ↔ n % 2 = 0 := by
  obtain ⟨⟨hprime, hnp⟩, hleast⟩ := hp
  have hpodd : p % 2 = 1 := Nat.odd_iff.mp (hprime.odd_of_ne_two (by omega))
  rw [primeGeq, if_neg (by omega)]
  constructor
  · rintro ⟨⟨hr, hge⟩, -⟩
    have hrodd := Nat.odd_iff.mp (hr.odd_of_ne_two (by omega))
    rw [primeLoop_parity] at hrodd
    omega
  · intro heven
    rw [Nat.mod_eq_of_lt (by omega)]
    obtain ⟨hge, hle⟩ := primeLoop_le (m := n + 1) (w := p) (by omega) hlt (by omega)
      ((trial_iff_prime (by omega) hpodd).mpr hprime)
    have hpar := primeLoop_parity (n + 1)
    have hr := (trial_iff_prime (by omega) (by omega)).mp (trial_primeLoop (m := n + 1) (by omega))
    have heq : primeLoop (n + 1) = p := le_antisymm hle (hleast ⟨hr, by omega⟩)
    rw [heq]
    exact ⟨⟨hprime, hnp⟩, hleast⟩

/-- From `4` it is `5`. -/
theorem primeGeq_isLeast_four : IsLeast {q | q.Prime ∧ 4 ≤ q} (primeGeq 4) ↔ 4 % 2 = 0 := by
  refine primeGeq_isLeast_iff (p := 5) (by norm_num) ⟨⟨by norm_num, by norm_num⟩, ?_⟩ (by norm_num)
  rintro q ⟨hq, hge⟩
  by_contra hlt
  obtain rfl : q = 4 := by omega
  exact absurd hq (by norm_num)

/-- From the prime `3` it is `4`. -/
theorem primeGeq_isLeast_fails : IsLeast {q | q.Prime ∧ 3 ≤ q} 3 ∧ 3 < 2 ^ 32 ∧
    ¬ IsLeast {q | q.Prime ∧ 3 ≤ q} (primeGeq 3) := by
  refine ⟨⟨⟨Nat.prime_three, le_rfl⟩, fun q hq => hq.2⟩, by norm_num, ?_⟩
  rw [primeGeq_of_lt (by norm_num) (by norm_num)]
  rintro ⟨⟨hprime, -⟩, -⟩
  exact absurd hprime (by norm_num)

/-! ## Room for what the table has -/

/-- A size for `nitems` items: they fill at most `0.85` of it, `rs_hmap_resize` lets it through,
and a bucket stays free. -/
structure Enough (nitems newsize : Nat) : Prop where
  load : nitems ≤ 17 * newsize / 20
  pos : 0 < newsize
  lt : newsize < uintMax
  checked : ¬ newsize < highThreshold nitems
  free : nitems < newsize

theorem Enough.of_load (hload : nitems ≤ 17 * newsize / 20) (hpos : 0 < newsize)
    (hlt : newsize < uintMax) : Enough nitems newsize := by
  rw [uintMax] at hlt
  refine ⟨hload, hpos, hlt, ?_, by omega⟩
  rw [highThreshold_eq (by omega)]
  omega

/-- What `calc_new_size` owes to a table of `size` buckets with `nitems` items, and what the end
of `rs_hmap_del` owes to it. -/
structure SizesRight (hc : HmapConfig) (nitems size : Nat) : Prop where
  grows : ∃ c, calcNewSize nitems hc.maxSize size = some c ∧
    (c.status = 0 → c.resize = true → Enough nitems c.newsize)
  shrinks : nitems > (configOf hc).minSize → nitems < lowThreshold size →
    Enough nitems (shrinkSize nitems (configOf hc).minSize)

/-- A table with more than one item is never shrunk too far. -/
theorem enough_shrinkSize {minSize : Nat} (hmin : 0 < minSize) (hgt : nitems > minSize)
    (hlow : nitems < lowThreshold size) (hlt : size < 2 ^ 32) :
    Enough nitems (shrinkSize nitems minSize) := by
  rw [lowThreshold_eq hlt] at hlow
  rw [shrinkSize, idealSize_eq (by omega), if_neg (by omega)]
  exact .of_load (by omega) (by omega) (by rw [uintMax]; omega)

theorem configOf_minSize_pos (hc : HmapConfig) : 0 < (configOf hc).minSize := by
  rw [configOf]
  simp only
  split
  · decide
  · omega

/-- The one new size that the loop of `calc_new_size` tries is too small, or the loop ends. -/
theorem growSize_eq_some_iff (hle : nitems ≤ size) (hlt : size < 2 ^ 32) :
    growSize nitems size = some (min (2 * size) (size + maxGrowthStep)) ↔
      20 * nitems ≤ 17 * (size + maxGrowthStep) := by
  simp only [growSize]
  rw [highThreshold_eq (by unfold maxGrowthStep; omega)]
  constructor
  · intro h
    by_contra hno
    rw [if_pos (by omega)] at h
    contradiction
  · intro h
    rw [if_neg (by unfold maxGrowthStep at h ⊢; omega)]

theorem growSize_eq_none (h : growSize nitems size ≠ some (min (2 * size) (size + maxGrowthStep))) :
    growSize nitems size = none := by
  simp only [growSize] at h ⊢
  split at h
  · next hgt => rw [if_pos hgt]
  · exact absurd rfl h

/-- A table that is too full gets a new size. -/
theorem calcNewSize_resize {maxsize : Nat} {c : NewSize} (hgt : nitems > highThreshold size)
    (hc : calcNewSize nitems maxsize size = some c) : c.resize = true := by
  simp only [calcNewSize, decide_eq_true hgt, if_true] at hc
  rw [Option.map_eq_some_iff] at hc
  obtain ⟨s, -, hs⟩ := hc
  rw [← hs]
  split
  · rfl
  · split <;> rfl

/-- It returns 0 or an error. -/
theorem calcNewSize_status {maxsize : Nat} {c : NewSize}
    (hc : calcNewSize nitems maxsize size = some c) (h0 : 0 ≤ c.status) : c.status = 0 := by
  simp only [calcNewSize] at hc
  rw [Option.map_eq_some_iff] at hc
  obtain ⟨s, -, hs⟩ := hc
  rw [← hs] at h0 ⊢
  split at h0
  · simp at h0
  · next hbig =>
    rw [if_neg hbig]
    split at h0
    · simp at h0
    · next hmax => rw [if_neg hmax]

/-- A new size is larger. -/
theorem calcNewSize_gt {maxsize : Nat} {c : NewSize} (hpos : 0 < size)
    (hgt : nitems > highThreshold size) (hc : calcNewSize nitems maxsize size = some c)
    (hst : c.status = 0) : size < c.newsize := by
  simp only [calcNewSize, decide_eq_true hgt, if_true] at hc
  rw [Option.map_eq_some_iff] at hc
  obtain ⟨s, hs, hcs⟩ := hc
  have hs' : s = min (2 * size) (size + maxGrowthStep) := by
    simp only [growSize] at hs
    split at hs
    · contradiction
    · exact (Option.some.inj hs).symm
  unfold maxGrowthStep at hs'
  rw [← hcs] at hst ⊢
  by_cases hbig : s > 3650722200
  · rw [if_pos hbig] at hst
    exact absurd hst (by decide)
  · rw [if_neg hbig] at hst ⊢
    split at hst
    · exact absurd hst (by decide)
    · next hmax =>
      rw [if_neg hmax]
      have := (primeGeq_bounds (n := s) (by omega) (by omega)).1
      exact lt_of_lt_of_le (by omega) this

/-- `calc_new_size` ends and makes enough room exactly where a step of `2^20` buckets does. -/
theorem calcNewSize_enough_iff (maxsize : Nat) (hle : nitems ≤ size) (hlt : size < 2 ^ 32) :
    (∃ c, calcNewSize nitems maxsize size = some c ∧
      (c.status = 0 → c.resize = true → Enough nitems c.newsize)) ↔
      20 * nitems ≤ 17 * (size + maxGrowthStep) := by
  have hthr : highThreshold size = 17 * size / 20 := highThreshold_eq (by omega)
  by_cases hgt : nitems > highThreshold size
  · have hiff := growSize_eq_some_iff hle hlt
    rw [← hiff]
    constructor
    · rintro ⟨c, hc, -⟩
      by_contra hno
      rw [calcNewSize, decide_eq_true hgt, growSize_eq_none hno] at hc
      contradiction
    · intro hgrow
      obtain ⟨s, hs⟩ : ∃ s, s = min (2 * size) (size + maxGrowthStep) := ⟨_, rfl⟩
      have hcalc : calcNewSize nitems maxsize size = some
          (if s > 3650722200 then { status := -1, newsize := 0, resize := true }
          else if maxsize > 0 ∧ s > maxsize then { status := -1, newsize := 0, resize := true }
          else { status := 0, newsize := primeGeq s, resize := true }) := by
        rw [calcNewSize, decide_eq_true hgt, if_pos rfl, hgrow, ← hs]
        rfl
      refine ⟨_, hcalc, ?_⟩
      by_cases hbig : s > 3650722200
      · rw [if_pos hbig]
        intro h0
        exact absurd h0 (by decide)
      · rw [if_neg hbig]
        split
        · intro h0
          exact absurd h0 (by decide)
        · intro _ _
          have hgrow' := hiff.mp hgrow
          unfold maxGrowthStep at hs hgrow'
          obtain ⟨hge, hlt'⟩ := primeGeq_bounds (n := s) (by omega) (by omega)
          exact .of_load (by simp only; omega) (by simp only; omega) hlt'
  · refine iff_of_true ⟨_, by rw [calcNewSize, decide_eq_false hgt]; rfl, ?_⟩ (by omega)
    intro _ hres
    simp at hres

/-- **When the sizes are right**: exactly where a table that is too full is not more than a step
of `2^20` buckets short of room for what it has. -/
theorem sizesRight_iff (hc : HmapConfig) (hle : nitems ≤ size) (hlt : size < 2 ^ 32) :
    SizesRight hc nitems size ↔ 20 * nitems ≤ 17 * (size + maxGrowthStep) := by
  rw [← calcNewSize_enough_iff hc.maxSize hle hlt]
  constructor
  · exact fun h => h.grows
  · intro h
    exact ⟨h, fun hgt hlow => enough_shrinkSize (configOf_minSize_pos hc) hgt hlow hlt⟩

/-- A table of `2^20` full buckets. -/
theorem sizesRight_iff_full : SizesRight ⟨1, 0, 0, 0, none⟩ (2 ^ 20) (2 ^ 20) ↔
    20 * 2 ^ 20 ≤ 17 * (2 ^ 20 + maxGrowthStep) :=
  sizesRight_iff ⟨1, 0, 0, 0, none⟩ le_rfl (by norm_num)

/-- A table of six million full buckets: the loop of `calc_new_size` never ends. -/
theorem sizesRight_fails : ¬ SizesRight ⟨1, 0, 0, 0, none⟩ 6000000 6000000 := by
  rintro ⟨⟨c, hc, -⟩, -⟩
  have hgt : 6000000 > highThreshold 6000000 := by
    rw [highThreshold_eq (by norm_num)]
    norm_num
  have hno : growSize 6000000 6000000 = none := by
    refine growSize_eq_none fun h => ?_
    have := (growSize_eq_some_iff le_rfl (by norm_num)).mp h
    unfold maxGrowthStep at this
    omega
  rw [calcNewSize, decide_eq_true hgt, hno] at hc
  contradiction

end QStore.Hmap
