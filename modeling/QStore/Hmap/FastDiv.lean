import Mathlib.Tactic.Common
import Mathlib.Tactic.Positivity
import Mathlib.Tactic.Ring

/-!
# QStore.Hmap.FastDiv

`inc/fastdiv.h` and `src/set_probe_loc.c`: the remainder of a 32-bit hash by
the table size, computed with a multiplication by a reciprocal that
`fast_div32_init` packs into 64 bits.

```
divinfo  =  m (32 bits) | 0 (16) | s1 (8) | s2 (8)
v / div  =  (t + ((v - t) >> s1)) >> s2,      t = (v * m) >> 32
```

`setProbeLoc_eq` says the packed arithmetic is `hash % size`.
-/

namespace QStore.Hmap

/-- `fls`: the position of the highest set bit, counted from one. -/
def fls (x : Nat) : Nat := if x = 0 then 0 else Nat.log2 x + 1

/-- `fast_div32_init`: the packed reciprocal of `div`. -/
def fastDiv32Init (div : Nat) : Nat :=
  let l := fls (div - 1)
  let mt := 2 ^ 32 * (2 ^ l - div)
  let s1 := if l > 1 then 1 else l
  let s2 := if l = 0 then 0 else l - 1
  ((mt / div + 1) <<< 32) % 2 ^ 64 ||| s1 <<< 8 ||| s2

/-- `fast_div32`. -/
def fastDiv32 (v divinfo : Nat) : Nat :=
  let m := divinfo >>> 32
  let s1 := (divinfo &&& 0x0000ff00) >>> 8
  let s2 := divinfo &&& 0x000000ff
  let t := (v * m) >>> 32
  (t + (v - t) >>> s1) >>> s2

/-- `fast_rem32`, on unsigned 32-bit integers. -/
def fastRem32 (v div divinfo : Nat) : Nat :=
  (v + 2 ^ 32 - div * fastDiv32 v divinfo % 2 ^ 32) % 2 ^ 32

/-- `set_probe_loc`: the home slot of a hash. -/
def setProbeLoc (hash size divinfo : Nat) : Nat := fastRem32 hash size divinfo

/-! ## unpacking the reciprocal -/

theorem packed_eq (m s1 s2 : Nat) (h1 : s1 < 2) (h2 : s2 < 2 ^ 8) :
    m <<< 32 ||| s1 <<< 8 ||| s2 = m * 2 ^ 32 + s1 * 2 ^ 8 + s2 := by
  have hlow : s1 <<< 8 ||| s2 = s1 * 2 ^ 8 + s2 := by
    rw [← Nat.shiftLeft_add_eq_or_of_lt h2, Nat.shiftLeft_eq]
  rw [Nat.or_assoc, hlow, ← Nat.shiftLeft_add_eq_or_of_lt (by omega), Nat.shiftLeft_eq]
  omega

theorem packed_m (m s1 s2 : Nat) (h1 : s1 < 2) (h2 : s2 < 2 ^ 8) :
    (m * 2 ^ 32 + s1 * 2 ^ 8 + s2) >>> 32 = m := by
  rw [Nat.shiftRight_eq_div_pow]
  omega

theorem packed_s1 (m s1 s2 : Nat) (h1 : s1 < 2) (h2 : s2 < 2 ^ 8) :
    ((m * 2 ^ 32 + s1 * 2 ^ 8 + s2) &&& 0x0000ff00) >>> 8 = s1 := by
  rw [Nat.shiftRight_and_distrib, show 0x0000ff00 >>> 8 = 2 ^ 8 - 1 by decide,
    Nat.and_two_pow_sub_one_eq_mod, Nat.shiftRight_eq_div_pow]
  omega

theorem packed_s2 (m s1 s2 : Nat) (h2 : s2 < 2 ^ 8) :
    (m * 2 ^ 32 + s1 * 2 ^ 8 + s2) &&& 0x000000ff = s2 := by
  rw [show 0x000000ff = 2 ^ 8 - 1 by decide, Nat.and_two_pow_sub_one_eq_mod]
  omega

/-! ## the reciprocal -/

variable {d v l m : Nat}

theorem le_two_pow_fls (_hd : 0 < d) : d ≤ 2 ^ fls (d - 1) := by
  unfold fls
  split
  · omega
  · have := Nat.lt_log2_self (n := d - 1)
    omega

theorem two_pow_fls_le (hd : 1 < d) : 2 ^ fls (d - 1) ≤ 2 * (d - 1) := by
  unfold fls
  rw [if_neg (by omega), Nat.pow_succ]
  have := Nat.log2_self_le (n := d - 1) (by omega)
  omega

theorem fls_le (hd : d < 2 ^ 32) : fls (d - 1) ≤ 32 := by
  unfold fls
  split
  · omega
  · next h => exact (Nat.log2_lt h).mpr (by omega)

/-- The reciprocal fits 64 bits. -/
theorem fastDiv32Init_lt (hd : d < 2 ^ 32) : fastDiv32Init d < 2 ^ 64 := by
  have hl := fls_le hd
  have hs1 : ∀ l : Nat, (if l > 1 then 1 else l) <<< 8 < 2 ^ 64 := by
    intro l
    rw [Nat.shiftLeft_eq]
    split <;> omega
  have hs2 : (if fls (d - 1) = 0 then 0 else fls (d - 1) - 1) < 2 ^ 64 := by
    split <;> omega
  exact Nat.or_lt_two_pow (Nat.or_lt_two_pow (Nat.mod_lt _ (by decide)) (hs1 _)) hs2

/-- The multiplier, with the implicit bit above it, is the ceiling of a power
of two over the divisor: too large by at most `2^l` parts. -/
theorem multiplier_bounds (hd : 0 < d) (hl : d ≤ 2 ^ l)
    (hm : m = 2 ^ 32 * (2 ^ l - d) / d + 1) :
    2 ^ 32 * 2 ^ l < (m + 2 ^ 32) * d ∧ (m + 2 ^ 32) * d ≤ 2 ^ 32 * 2 ^ l + d := by
  have hdm := Nat.div_add_mod (2 ^ 32 * (2 ^ l - d)) d
  have hmod := Nat.mod_lt (2 ^ 32 * (2 ^ l - d)) hd
  have hexp : (m + 2 ^ 32) * d =
      d * (2 ^ 32 * (2 ^ l - d) / d) + d + 2 ^ 32 * d := by rw [hm]; ring
  rw [Nat.mul_sub] at hdm hmod hexp
  have hle : 2 ^ 32 * d ≤ 2 ^ 32 * 2 ^ l := Nat.mul_le_mul_left _ hl
  omega

/-- A reciprocal too large by at most `2^l` parts of `2^(32+l)` divides every
32-bit number exactly. -/
theorem div_of_multiplier (hd : 0 < d) (hl : d ≤ 2 ^ l) (hv : v < 2 ^ 32)
    (hlow : 2 ^ 32 * 2 ^ l < m * d) (hup : m * d ≤ 2 ^ 32 * 2 ^ l + d) :
    v * m / (2 ^ 32 * 2 ^ l) = v / d := by
  have hdm := Nat.div_add_mod v d
  have hmod := Nat.mod_lt v hd
  have hpos : 0 < 2 ^ 32 * 2 ^ l := by positivity
  apply Nat.div_eq_of_lt_le
  · refine Nat.le_of_mul_le_mul_right ?_ hd
    calc v / d * (2 ^ 32 * 2 ^ l) * d = d * (v / d) * (2 ^ 32 * 2 ^ l) := by ring
      _ ≤ v * (2 ^ 32 * 2 ^ l) := Nat.mul_le_mul_right _ (by omega)
      _ ≤ v * (m * d) := Nat.mul_le_mul_left _ hlow.le
      _ = v * m * d := by ring
  · refine Nat.lt_of_mul_lt_mul_right (a := d) ?_
    have hvd : v * d < 2 ^ 32 * 2 ^ l :=
      (Nat.mul_lt_mul_of_pos_right hv hd).trans_le (Nat.mul_le_mul_left _ hl)
    calc v * m * d = v * (m * d) := by ring
      _ ≤ v * (2 ^ 32 * 2 ^ l + d) := Nat.mul_le_mul_left _ hup
      _ = v * (2 ^ 32 * 2 ^ l) + v * d := by ring
      _ < v * (2 ^ 32 * 2 ^ l) + 2 ^ 32 * 2 ^ l := by omega
      _ = (v + 1) * (2 ^ 32 * 2 ^ l) := by ring
      _ ≤ (d * (v / d) + d) * (2 ^ 32 * 2 ^ l) := Nat.mul_le_mul_right _ (by omega)
      _ = (v / d + 1) * (2 ^ 32 * 2 ^ l) * d := by ring

/-- Unpacked, `fast_div32` adds the product's high word and halves before the
last shift, so that nothing leaves 32 bits. -/
theorem fastDiv32_eq (hd : 0 < d) (hd32 : d < 2 ^ 32) (hv : v < 2 ^ 32) :
    fastDiv32 v (fastDiv32Init d) = v / d := by
  have hl := le_two_pow_fls hd
  have hl32 := fls_le hd32
  obtain ⟨l, hldef⟩ : ∃ l, l = fls (d - 1) := ⟨_, rfl⟩
  obtain ⟨m, hm⟩ : ∃ m, m = 2 ^ 32 * (2 ^ l - d) / d + 1 := ⟨_, rfl⟩
  rw [← hldef] at hl hl32
  have hs1 : (if l > 1 then 1 else l) < 2 := by split <;> omega
  have hs2 : (if l = 0 then 0 else l - 1) < 2 ^ 8 := by split <;> omega
  -- the multiplier fits in 32 bits
  have hm32 : m < 2 ^ 32 := by
    rw [hm]
    by_cases h1 : d = 1
    · have : l = 0 := by rw [hldef, h1]; rfl
      simp [h1, this]
    · have hup := two_pow_fls_le (d := d) (by omega)
      rw [← hldef] at hup
      have : 2 ^ 32 * (2 ^ l - d) / d < 2 ^ 32 - 1 := by
        rw [Nat.div_lt_iff_lt_mul hd, Nat.sub_mul]
        have : 2 ^ 32 * (2 ^ l - d) ≤ 2 ^ 32 * (d - 2) := Nat.mul_le_mul_left _ (by omega)
        omega
      omega
  have hinit : fastDiv32Init d =
      m * 2 ^ 32 + (if l > 1 then 1 else l) * 2 ^ 8 + (if l = 0 then 0 else l - 1) := by
    rw [← packed_eq _ _ _ hs1 hs2, fastDiv32Init, ← hldef, ← hm,
      Nat.mod_eq_of_lt (by rw [Nat.shiftLeft_eq]; omega)]
  obtain ⟨hlow, hup⟩ := multiplier_bounds hd hl hm
  have hdiv := div_of_multiplier hd hl hv hlow hup
  have hprod : v * (m + 2 ^ 32) / (2 ^ 32 * 2 ^ l) = (v * m / 2 ^ 32 + v) / 2 ^ l := by
    rw [← Nat.div_div_eq_div_mul, Nat.mul_add, Nat.add_mul_div_right _ _ (by norm_num)]
  have ht : v * m / 2 ^ 32 ≤ v := by
    apply Nat.div_le_of_le_mul
    rw [Nat.mul_comm (2 ^ 32)]
    exact Nat.mul_le_mul_left _ hm32.le
  rw [← hdiv, hprod, fastDiv32, hinit, packed_m _ _ _ hs1 hs2, packed_s1 _ _ _ hs1 hs2,
    packed_s2 _ _ _ hs2]
  simp only [Nat.shiftRight_eq_div_pow]
  rcases Nat.lt_trichotomy l 1 with h | h | h
  · obtain rfl : l = 0 := by omega
    obtain rfl : d = 1 := by omega
    have hm1 : m = 1 := by rw [hm]; rfl
    rw [hm1, Nat.mul_one, Nat.div_eq_of_lt hv]
    simp
  · subst h
    simp
    omega
  · rw [if_pos h, if_neg (by omega)]
    have hpow : 2 ^ l = 2 * 2 ^ (l - 1) := by rw [← Nat.pow_succ']; congr 1; omega
    rw [hpow, ← Nat.div_div_eq_div_mul]
    congr 1
    omega

/-- **The home slot** is the remainder of the hash by the size. -/
theorem setProbeLoc_eq (hd : 0 < d) (hd32 : d < 2 ^ 32) (hv : v < 2 ^ 32) :
    setProbeLoc v d (fastDiv32Init d) = v % d := by
  rw [setProbeLoc, fastRem32, fastDiv32_eq hd hd32 hv]
  have hdm := Nat.div_add_mod v d
  have hmod := Nat.mod_lt v hd
  rw [Nat.mod_eq_of_lt (by omega : d * (v / d) < 2 ^ 32),
    show v + 2 ^ 32 - d * (v / d) = v % d + 2 ^ 32 by omega, Nat.add_mod_right,
    Nat.mod_eq_of_lt (by omega)]

end QStore.Hmap
