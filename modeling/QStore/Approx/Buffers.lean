import QStore.Approx.Promise
import QStore.Lib.Entries

/-!
# QStore.Approx.Buffers

The buffers of the estimator never run out. A packet is stored with weight 1 and two buffers
of one weight make one of twice the weight, so all weights are powers of two; and when no
buffer is free, two of them have the same one:

```
values added        k · (sum of weights) + n_in_buffer  ≤  N  ≤  k · 2 ^ (b - 1)
weights all there, all different      sum of weights  ≥  2 ^ b - 1
```

What may go wrong is the arithmetic: `k` is cut down to an `int`, so is what `Collapse`
merges, and so are the weights.
-/

namespace QStore.Approx

/-! ## two buffers of one weight -/

section Pairs

variable {weight : List Nat} {b i n : Nat}

/-- The first buffer of weight `w` among `j`, .., `j + n - 1`, if there is one. -/
theorem findSame_cases (weight : List Nat) (w j n : Nat) :
    (∃ j', findSame weight w j n = some j' ∧ j ≤ j' ∧ j' < j + n ∧ weight.getD j' 0 = w) ∨
    findSame weight w j n = none ∧ ∀ j', j ≤ j' → j' < j + n → weight.getD j' 0 ≠ w := by
  induction n generalizing j with
  | zero =>
      right
      refine ⟨rfl, ?_⟩
      intro j' h1 h2
      omega
  | succ n ih =>
      rw [findSame]
      by_cases hw : weight.getD j 0 = w
      · exact .inl ⟨j, if_pos hw, le_refl j, by omega, hw⟩
      · rw [if_neg hw]
        cases ih (j + 1) with
        | inl h =>
            obtain ⟨j', hj', h1, h2, heq⟩ := h
            exact .inl ⟨j', hj', by omega, by omega, heq⟩
        | inr h =>
            right
            refine ⟨h.1, ?_⟩
            intro j' h1 h2
            cases Nat.eq_or_lt_of_le h1 with
            | inl heq => exact heq ▸ hw
            | inr hlt => exact h.2 j' hlt (by omega)

/-- The search for a pair finds one if there is one. -/
theorem findPair_cases (hpos : ∀ i < b, weight.getD i 0 ≠ 0) (hn : i + n + 1 = b) :
    (∃ i' j', findPair weight b i n = some (i', j') ∧ i' < j' ∧ j' < b ∧
      weight.getD i' 0 = weight.getD j' 0) ∨
    ∀ i' j', i ≤ i' → i' < j' → j' < b → weight.getD i' 0 ≠ weight.getD j' 0 := by
  induction n generalizing i with
  | zero =>
      right
      intro i' j' h1 h2 h3
      omega
  | succ n ih =>
      rw [findPair, if_neg (hpos i (by omega))]
      cases findSame_cases weight (weight.getD i 0) (i + 1) (b - (i + 1)) with
      | inl h =>
          obtain ⟨j, hj, h1, h2, heq⟩ := h
          rw [hj]
          exact .inl ⟨i, j, rfl, by omega, by omega, heq.symm⟩
      | inr h =>
          rw [h.1]
          cases ih (i := i + 1) (by omega) with
          | inl hpair => exact .inl hpair
          | inr hnone =>
              right
              intro i' j' h1 h2 h3
              cases Nat.eq_or_lt_of_le h1 with
              | inl heq =>
                  subst heq
                  exact fun heq => h.2 j' (by omega) (by omega) heq.symm
              | inr hlt => exact hnone i' j' hlt h2 h3

end Pairs

/-! ## what the buffers are -/

/-- The buffers and their weights, whatever is in them. -/
structure Stored (b k : Nat) (s : State) : Prop where
  b_eq : s.b = b
  k_eq : s.k = k
  buffers : s.buffer.length = b
  full : ∀ buf ∈ s.buffer, buf.length = k
  weights : s.weight.length = b
  powers : ∀ w ∈ s.weight, w ≠ 0 → ∃ e, w = 2 ^ e
  empty : s.numEmptyBuffers = s.weight.count 0

/-- Should two buffers be collapsed now, their values fit, and so does the new weight. -/
def Fits (s : State) : Prop :=
  s.numEmptyBuffers = 0 → ∀ i j, findPair s.weight s.b 0 (s.b - 1) = some (i, j) →
    s.weight.getD i 0 + s.weight.getD j 0 < 2 ^ 31 ∧
      ∀ v, v ∈ s.buffer.getD i [] ∨ v ∈ s.buffer.getD j [] → v.toInt32.isSome

section Step

variable {qsortAsc : List Double → List Double} {b k n N : Nat} {s t : State} {x : Double}

theorem Stored.full_getD (h : Stored b k s) {i : Nat} (hi : i < b) :
    (s.buffer.getD i []).length = k := by
  have hlt : i < s.buffer.length := h.buffers ▸ hi
  rw [List.getD_eq_getElem _ _ hlt]
  exact h.full _ (List.getElem_mem hlt)

theorem Stored.weight_ne (h : Stored b k s) (hfull : s.numEmptyBuffers = 0) :
    ∀ i < b, s.weight.getD i 0 ≠ 0 := by
  intro i hi hzero
  have hlt : i < s.weight.length := h.weights ▸ hi
  rw [List.getD_eq_getElem _ _ hlt] at hzero
  have hpos := List.count_pos_iff.mpr (hzero ▸ List.getElem_mem hlt : 0 ∈ s.weight)
  rw [← h.empty] at hpos
  omega

/-- **Two buffers have one weight** when none is free and not too much has been added. -/
theorem Stored.findPair (h : Stored b k s) (hb : 0 < b) (hsum : s.weight.sum + 1 < 2 ^ b)
    (hfull : s.numEmptyBuffers = 0) :
    ∃ i j, Approx.findPair s.weight s.b 0 (s.b - 1) = some (i, j) ∧ i < j ∧ j < b ∧
      s.weight.getD i 0 = s.weight.getD j 0 := by
  have hne := h.weight_ne hfull
  rw [h.b_eq]
  cases findPair_cases hne (show 0 + (b - 1) + 1 = b by omega) with
  | inl hpair => exact hpair
  | inr hnone =>
      have hzero : 0 ∉ s.weight := by
        rw [← List.count_eq_zero, ← h.empty, hfull]
      have hpow : ∀ w ∈ s.weight, ∃ e, w = 2 ^ e := fun w hw =>
        h.powers w hw fun hw0 => hzero (hw0 ▸ hw)
      have hdup := not_nodup_of_sum_lt hpow (by rw [h.weights]; exact hsum)
      refine absurd ?_ hdup
      rw [List.nodup_iff_pairwise_ne, List.pairwise_iff_getElem]
      intro i j hi hj hij
      have hd := hnone i j (Nat.zero_le i) hij (h.weights ▸ hj)
      rwa [List.getD_eq_getElem _ _ hi, List.getD_eq_getElem _ _ hj] at hd

/-- Room is made, and no weight is lost. -/
theorem Stored.makeRoom (h : Stored b k s) (hk : 2 * k < 2 ^ 31) (hb : 0 < b)
    (hsum : s.weight.sum + 1 < 2 ^ b) (hfits : Fits s) :
    ∃ t, Approx.makeRoom s = some t ∧ Stored b k t ∧ t.weight.sum = s.weight.sum ∧
      0 < t.numEmptyBuffers := by
  by_cases hfull : s.numEmptyBuffers = 0
  · obtain ⟨i, j, hpair, hij, hj, heq⟩ := h.findPair hb hsum hfull
    obtain ⟨hw, hvals⟩ := hfits hfull i j hpair
    have hne := h.weight_ne hfull
    have hwi := hne i (by omega)
    have hwj := hne j hj
    obtain ⟨buf, hbuf, hlen, -⟩ := collapse_of_fits (h.full_getD (by omega : i < b))
      (h.full_getD hj) (Nat.pos_of_ne_zero hwi) (Nat.pos_of_ne_zero hwj) hk hw hvals
    rw [← h.k_eq] at hbuf
    have hil : i < s.weight.length := by
      rw [h.weights]
      omega
    have hjl : j < (s.weight.set i (s.weight.getD i 0 + s.weight.getD j 0)).length := by
      rw [List.length_set, h.weights]
      exact hj
    have hold : (s.weight.set i (s.weight.getD i 0 + s.weight.getD j 0)).getD j 0 =
        s.weight.getD j 0 := by
      rw [getD_set hil, if_neg (by omega)]
    refine ⟨{ s with
      buffer := s.buffer.set i buf
      weight := (s.weight.set i (s.weight.getD i 0 + s.weight.getD j 0)).set j 0
      numEmptyBuffers := 1 }, ?_, ?_, ?_, ?_⟩
    · rw [Approx.makeRoom, if_pos hfull, hpair]
      simp only [Option.bind_eq_bind, Option.bind_some, hbuf]
      rfl
    · constructor
      · exact h.b_eq
      · exact h.k_eq
      · rw [List.length_set]
        exact h.buffers
      · intro buf' hbuf'
        cases List.mem_or_eq_of_mem_set hbuf' with
        | inl hmem => exact h.full buf' hmem
        | inr heq => exact heq ▸ hlen
      · rw [List.length_set, List.length_set]
        exact h.weights
      · intro w hmem hw0
        cases List.mem_or_eq_of_mem_set hmem with
        | inr hzero => exact absurd hzero hw0
        | inl hmem =>
            cases List.mem_or_eq_of_mem_set hmem with
            | inl hmem => exact h.powers w hmem hw0
            | inr hsum =>
                have hmemj : s.weight.getD j 0 ∈ s.weight := by
                  rw [List.getD_eq_getElem _ _ (h.weights ▸ hj)]
                  exact List.getElem_mem _
                obtain ⟨e, he⟩ := h.powers _ hmemj hwj
                exact ⟨e + 1, by rw [hsum, heq, he, Nat.pow_succ]; omega⟩
      · rw [count_set_self hjl (by rwa [hold]), count_set_of_ne hil hwi (by omega), ← h.empty,
          hfull]
    · have hi := sum_set hil (s.weight.getD i 0 + s.weight.getD j 0)
      have hj := sum_set hjl 0
      rw [hold] at hj
      simp only
      omega
    · exact Nat.one_pos
  · exact ⟨s, by rw [Approx.makeRoom, if_neg hfull], h, rfl, Nat.pos_of_ne_zero hfull⟩

theorem length_memcpyInts {dst src : List Double} (hd : dst.length = k) (hs : src.length = k) :
    (memcpyInts dst src k).length = k := by
  rw [memcpyInts]
  split
  · rw [List.length_append, List.length_take, List.length_drop]
    omega
  · rw [List.length_append, List.length_take, List.length_cons, List.length_drop]
    omega

/-- A packet is stored with weight 1. -/
theorem Stored.exec (h : Stored b k s) (hsort : ∀ l, (qsortAsc l).length = l.length)
    (hk : 2 * k < 2 ^ 31) (hb : 0 < b) (hsum : s.weight.sum + 1 < 2 ^ b) (hfits : Fits s)
    (hlen : s.inBuffer.length = k) :
    ∃ t, approxQuantileExec qsortAsc s = some t ∧ Stored b k t ∧
      t.weight.sum = s.weight.sum + 1 ∧ t.inBuffer = [] := by
  obtain ⟨t, ht, hstored, hsame, hfree⟩ := h.makeRoom hk hb hsum hfits
  -- the first free buffer
  have hmem : 0 ∈ t.weight := by
    rw [← List.count_pos_iff, ← hstored.empty]
    exact hfree
  have hidx : t.weight.findIdx (fun w => decide (w = 0)) < t.weight.length :=
    List.findIdx_lt_length_of_exists ⟨0, hmem, by simp⟩
  have hzero : t.weight.getD (t.weight.findIdx fun w => decide (w = 0)) 0 = 0 := by
    rw [List.getD_eq_getElem _ _ hidx]
    simpa using List.findIdx_getElem (w := hidx)
  have hib : t.weight.findIdx (fun w => decide (w = 0)) < b := hstored.weights ▸ hidx
  rw [approxQuantileExec, if_neg (by rw [hlen, h.k_eq]; simp)]
  simp only [ht, Option.bind_eq_bind, Option.bind_some]
  generalize t.weight.findIdx (fun w => decide (w = 0)) = i at hidx hzero hib ⊢
  rw [if_neg (by rw [hstored.b_eq]; omega)]
  refine ⟨_, rfl, ?_, ?_, rfl⟩
  · constructor
    · exact hstored.b_eq
    · exact hstored.k_eq
    · rw [List.length_set]
      exact hstored.buffers
    · intro buf hbuf
      cases List.mem_or_eq_of_mem_set hbuf with
      | inl hmem => exact hstored.full buf hmem
      | inr heq =>
          rw [heq, hstored.k_eq]
          exact length_memcpyInts (hstored.full_getD hib) ((hsort _).trans hlen)
    · rw [List.length_set]
      exact hstored.weights
    · intro w hw hw0
      cases List.mem_or_eq_of_mem_set hw with
      | inl hmem => exact hstored.powers w hmem hw0
      | inr hone => exact ⟨0, hone⟩
    · have hcount := count_set_other hidx hzero Nat.one_ne_zero
      have hempty := hstored.empty
      simp only
      omega
  · have hset := sum_set hidx 1
    rw [hzero] at hset
    simp only
    omega

/-- An execution that returns has found room. -/
theorem fits_of_exec (ht : approxQuantileExec qsortAsc s = some t) : Fits s := by
  intro hfull i j hpair
  rw [approxQuantileExec] at ht
  split at ht
  · cases ht
  · obtain ⟨r, hroom, -⟩ := Option.bind_eq_some_iff.mp ht
    rw [makeRoom, if_pos hfull, hpair] at hroom
    obtain ⟨p, hp, hroom⟩ := Option.bind_eq_some_iff.mp hroom
    cases hp
    obtain ⟨buf, hbuf, -⟩ := Option.bind_eq_some_iff.mp hroom
    obtain ⟨-, hw, hvals⟩ := fits_of_collapse hbuf
    exact ⟨hw, hvals⟩

/-! ## one value more -/

/-- What holds when `n` values have been added. -/
structure Tally (b k : Nat) (s : State) (n : Nat) : Prop extends Stored b k s where
  room : s.inBuffer.length < k
  total : s.weight.sum * k + s.inBuffer.length = n

/-- Should the next value complete a packet for which there is no room, room can be made. -/
def FitsNext (s : State) : Prop := s.inBuffer.length + 1 = s.k → Fits s

/-- Too little has been added for all weights to differ. -/
theorem Tally.sum_lt (h : Tally b k s n) (hb : 2 ≤ b) (hn : n ≤ k * 2 ^ (b - 1)) :
    s.weight.sum + 1 < 2 ^ b := by
  have hk : 0 < k := Nat.zero_lt_of_lt h.room
  have hle : s.weight.sum * k ≤ 2 ^ (b - 1) * k := by
    have := h.total
    rw [Nat.mul_comm (2 ^ (b - 1))]
    omega
  have hsum := Nat.le_of_mul_le_mul_right hle hk
  have hpow : 2 ^ b = 2 * 2 ^ (b - 1) := by
    rw [← Nat.pow_succ']
    congr 1
    omega
  have hbig : 2 ^ 1 ≤ 2 ^ (b - 1) := Nat.pow_le_pow_right (by omega) (by omega)
  omega

theorem Tally.add (h : Tally b k s n) (hsort : ∀ l, (qsortAsc l).length = l.length)
    (hk : 2 * k < 2 ^ 31) (hb : 2 ≤ b) (hn : n ≤ k * 2 ^ (b - 1)) (hfits : FitsNext s)
    (x : Double) :
    ∃ t, approxQuantileAdd qsortAsc s x = some t ∧ Tally b k t (n + 1) := by
  have hroom := h.room
  have htotal := h.total
  by_cases hlast : s.inBuffer.length + 1 = k
  · have hstored : Stored b k { s with
        nInputVals := s.nInputVals + 1, inBuffer := s.inBuffer ++ [x] } :=
      ⟨h.b_eq, h.k_eq, h.buffers, h.full, h.weights, h.powers, h.empty⟩
    have hlen : (s.inBuffer ++ [x]).length = k := by simpa using hlast
    obtain ⟨t, ht, hafter, hsum, hempty⟩ := hstored.exec hsort hk (by omega) (h.sum_lt hb hn)
      (hfits (by rw [h.k_eq, hlast])) hlen
    refine ⟨t, by rw [approxQuantileAdd_of_full (by rw [h.k_eq, hlast]), ht], ⟨hafter, ?_, ?_⟩⟩
    · rw [hempty, List.length_nil]
      omega
    · have hsum' : t.weight.sum = s.weight.sum + 1 := hsum
      rw [hempty, List.length_nil, hsum', Nat.succ_mul]
      omega
  · refine ⟨_, approxQuantileAdd_of_lt (by rw [h.k_eq]; omega),
      ⟨⟨h.b_eq, h.k_eq, h.buffers, h.full, h.weights, h.powers, h.empty⟩, ?_, ?_⟩⟩
    · rw [List.length_append, List.length_singleton]
      omega
    · rw [List.length_append, List.length_singleton]
      simp only
      omega

theorem fitsNext_of_add (ht : approxQuantileAdd qsortAsc s x = some t) : FitsNext s := by
  intro hlast
  rw [approxQuantileAdd_of_full hlast] at ht
  have hfits := fits_of_exec ht
  exact hfits

/-! ## a run -/

variable {xs : List Double}

/-- **As long as what is merged fits, all values are added.** -/
theorem Tally.run (h : Tally b k s 0) (hsort : ∀ l, (qsortAsc l).length = l.length)
    (hk : 2 * k < 2 ^ 31) (hb : 2 ≤ b) (hN : xs.length ≤ k * 2 ^ (b - 1))
    (hfits : ∀ m < xs.length, ∀ t, addAll qsortAsc s (xs.take m) = some t → FitsNext t) :
    ∀ m ≤ xs.length, ∃ t, addAll qsortAsc s (xs.take m) = some t ∧ Tally b k t m := by
  intro m hm
  induction m with
  | zero => exact ⟨s, rfl, h⟩
  | succ m ih =>
      obtain ⟨t, ht, htally⟩ := ih (by omega)
      obtain ⟨t', ht', htally'⟩ := htally.add hsort hk hb (by omega) (hfits m hm t ht) xs[m]
      refine ⟨t', ?_, htally'⟩
      rw [List.take_succ_eq_append_getElem hm, addAll_append, ht, Option.bind_some, addAll,
        List.foldlM_cons, ht']
      rfl

/-- A run in which all values are added has always found room. -/
theorem fits_of_run (hrun : ∀ m ≤ xs.length, ∃ t, addAll qsortAsc s (xs.take m) = some t) :
    ∀ m < xs.length, ∀ t, addAll qsortAsc s (xs.take m) = some t → FitsNext t := by
  intro m hm t ht
  obtain ⟨t₂, ht₂⟩ := hrun (m + 1) hm
  rw [List.take_succ_eq_append_getElem hm, addAll_append, ht, Option.bind_some, addAll,
    List.foldlM_cons] at ht₂
  cases hadd : approxQuantileAdd qsortAsc t xs[m] with
  | none => simp [hadd] at ht₂
  | some t' => exact fitsNext_of_add hadd

end Step

/-! ## `k` is large enough -/

section Size

variable {R : Rounding 53} {n b : Nat}

/-- The values a buffer is to hold, one in `2 ^ (b - 1)` rounded up, are no more than an
`int` can count. -/
def SizeFits (R : Rounding 53) (n b : Nat) : Prop :=
  if n % 2 ^ (b - 1) = 0 then n < 2 ^ 31 * 2 ^ (b - 1)
  else R.rnd (R.rnd n / 2 ^ (b - 1) + 1) < 2 ^ 31

/-- `k` as the `long long` it is before it is stored in an `int`. -/
def kWide (R : Rounding 53) (n b : Nat) : ℤ :=
  if n % 2 ^ (b - 1) = 0 then ⌊R.rnd n / 2 ^ (b - 1)⌋
  else ⌊R.rnd (R.rnd n / 2 ^ (b - 1) + 1)⌋

theorem determineBK_eq (R : Rounding 53) (eps : ℚ) (n : Nat) : (determineBK R eps n).2 =
    (kWide R n (determineBK R eps n).1).bmod (2 ^ 32) := rfl

/-- A size that fits is stored as it is, and it is enough. -/
theorem le_of_sizeFits (hR : R.KeepsScaled) (h : SizeFits R n b) :
    (kWide R n b).bmod (2 ^ 32) = kWide R n b ∧ (n : ℤ) ≤ kWide R n b * 2 ^ (b - 1) := by
  obtain ⟨m, hm⟩ : ∃ m, m = n / 2 ^ (b - 1) := ⟨_, rfl⟩
  have hdiv := Nat.div_add_mod n (2 ^ (b - 1))
  have hmod := Nat.mod_lt n (Nat.two_pow_pos (b - 1))
  rw [← hm, Nat.mul_comm] at hdiv
  rw [SizeFits] at h
  rw [kWide]
  split at h
  case isTrue hz =>
    have hn : n = m * 2 ^ (b - 1) := by omega
    have hm31 : m < 2 ^ 31 := by
      rw [hn] at h
      exact Nat.lt_of_mul_lt_mul_right h
    have hle := hR.le (by omega) hn.le
    have hge := hR.ge (by omega) hn.ge
    have hfloor : ⌊R.rnd n / 2 ^ (b - 1)⌋ = (m : ℤ) := by
      rw [le_antisymm hle hge]
      exact Int.floor_natCast m
    rw [if_pos hz, hfloor]
    constructor
    · exact Int.bmod_eq_of_le (by omega) (by omega)
    · rw [hn]
      push_cast
      exact le_refl _
  case isFalse hz =>
    rw [if_neg hz]
    have hlt : ⌊R.rnd (R.rnd n / 2 ^ (b - 1) + 1)⌋ < 2 ^ 31 := by
      rw [Int.floor_lt]
      exact_mod_cast h
    have hle : ((m + 1 : Nat) : ℤ) ≤ ⌊R.rnd (R.rnd n / 2 ^ (b - 1) + 1)⌋ := by
      by_contra hgt
      -- a share of 2 ^ 53 at least is no `int`
      have hge : ∀ j : Nat, j ≤ m → j + 1 ≤ 2 ^ 53 →
          ((j + 1 : Nat) : ℤ) ≤ ⌊R.rnd (R.rnd n / 2 ^ (b - 1) + 1)⌋ := by
        intro j hj hj53
        have hjn : j * 2 ^ (b - 1) ≤ n := by
          have := Nat.mul_le_mul_right (2 ^ (b - 1)) hj
          omega
        rw [Int.le_floor]
        refine R.int_le (by omega) ?_
        have := hR.ge (by omega) hjn
        push_cast
        linarith
      by_cases hm53 : m + 1 ≤ 2 ^ 53
      · exact hgt (hge m (le_refl m) hm53)
      · have := hge (2 ^ 53 - 1) (by omega) (by omega)
        omega
    constructor
    · exact Int.bmod_eq_of_le (by omega) (by omega)
    · have hn : n ≤ (m + 1) * 2 ^ (b - 1) := by
        rw [Nat.succ_mul]
        omega
      calc (n : ℤ) ≤ ((m + 1 : Nat) : ℤ) * 2 ^ (b - 1) := by exact_mod_cast hn
        _ ≤ _ := Int.mul_le_mul_of_nonneg_right hle (by positivity)

/-- **`k` is large enough** just where it fits an `int`. -/
theorem enough_iff (hR : R.KeepsScaled) (hn : 0 < n) :
    (n : ℤ) ≤ (kWide R n b).bmod (2 ^ 32) * 2 ^ (b - 1) ↔ SizeFits R n b := by
  constructor
  · intro h
    have hk : (kWide R n b).bmod (2 ^ 32) ≤ (2 ^ 31 - 1 : Nat) := by
      have := Int.bmod_lt (x := kWide R n b) (m := 2 ^ 32) (by decide)
      omega
    have hle : n ≤ (2 ^ 31 - 1) * 2 ^ (b - 1) := by
      have := h.trans (Int.mul_le_mul_of_nonneg_right hk (by positivity))
      exact_mod_cast this
    rw [SizeFits]
    split
    case isTrue hz =>
      exact hle.trans_lt (Nat.mul_lt_mul_of_pos_right (by decide) (Nat.two_pow_pos _))
    case isFalse hz =>
      by_contra hge
      -- rounded up to 2 ^ 31 it would be stored as a negative number
      have hshare := hR.le (by decide) hle
      have hrnd : R.rnd (R.rnd n / 2 ^ (b - 1) + 1) ≤ ((2 ^ 31 : Nat) : ℤ) := by
        refine R.le_int (by decide) ?_
        push_cast at hshare ⊢
        linarith
      have heq : R.rnd (R.rnd n / 2 ^ (b - 1) + 1) = ((2 ^ 31 : ℤ) : ℚ) := by
        push_cast at hrnd ⊢
        linarith
      rw [kWide, if_neg hz, heq, Int.floor_intCast] at h
      have hneg : (2 ^ 31 : ℤ).bmod (2 ^ 32) = -2 ^ 31 := by decide
      rw [hneg] at h
      have : (0 : ℤ) < 2 ^ (b - 1) := by positivity
      nlinarith
  · intro h
    obtain ⟨hbmod, hle⟩ := le_of_sizeFits hR h
    rwa [hbmod]

end Size

/-! ## a stream -/

/-- The arguments of `approx_quantile_make`, and the values added after it. -/
structure Stream where
  R : Rounding 53
  scaled : R.KeepsScaled
  qsortAsc : List Double → List Double
  sorts : SortsAsc qsortAsc
  numQuantiles : Int
  est : Nat
  est_lt : est < 2 ^ 64
  eps : ℚ
  xs : List Double
  two_le : 2 ≤ (determineBK R eps (if est = 0 then 1048576 else est)).1
  length_le : xs.length ≤ if est = 0 then 1048576 else est

namespace Stream

variable (a : Stream)

/-- The estimate, as it is where none was given. -/
def n : Nat := if a.est = 0 then 1048576 else a.est

def b : Nat := (determineBK a.R a.eps a.n).1

def k : ℤ := (determineBK a.R a.eps a.n).2

def make : Except MakeError State := approxQuantileMake a.R a.numQuantiles a.est a.eps

/-- The state once `m` values have been added. -/
def after (s : State) (m : Nat) : Option State := addAll a.qsortAsc s (a.xs.take m)

end Stream

/-- The buffers once `m` values have been added. -/
structure Consistent (s : State) (m : Nat) : Prop where
  powers : ∀ w ∈ s.weight, w ≠ 0 → ∃ e, w = 2 ^ e
  total : s.weight.sum * s.k + s.inBuffer.length = m
  empty : s.numEmptyBuffers = s.weight.count 0
  pair : s.numEmptyBuffers = 0 → ∃ i j, i < j ∧ j < s.weight.length ∧
    s.weight.getD i 0 = s.weight.getD j 0

/-- **The buffers never run out**: there are enough of them, and every value is added. -/
structure NeverRunsOut (a : Stream) : Prop where
  enough : (a.n : ℤ) ≤ a.k * 2 ^ (a.b - 1)
  runs : ∀ s, a.make = .ok s → ∀ m ≤ a.xs.length, ∃ t, a.after s m = some t ∧ Consistent t m

section

variable {b k m : Nat} {s : State} {a : Stream}

theorem Tally.consistent (h : Tally b k s m) (hb : 2 ≤ b) (hm : m ≤ k * 2 ^ (b - 1)) :
    Consistent s m := by
  constructor
  · exact h.powers
  · rw [h.k_eq]
    exact h.total
  · exact h.empty
  · intro hfull
    obtain ⟨i, j, -, hij, hj, heq⟩ := h.findPair (by omega) (h.sum_lt hb hm) hfull
    exact ⟨i, j, hij, h.weights ▸ hj, heq⟩

theorem Stream.n_pos : 0 < a.n := by
  rw [n]
  split <;> omega

/-- The buffers are as many as `determine_b_k` says, and no `int` overflows over their
size. -/
theorem Stream.tally_of_make (h : a.make = .ok s) :
    a.k = s.k ∧ 2 * s.k < 2 ^ 31 ∧ Tally a.b s.k s 0 := by
  have hfresh := (fresh_of_make h).1
  have hsizes : a.k = s.k ∧ s.b = a.b ∧ (s.b + 11) * s.k ≤ maxSz := by
    simp only [make, approxQuantileMake] at h
    simp only [k, b, n]
    generalize determineBK a.R a.eps (if a.est = 0 then 1048576 else a.est) = bk at h ⊢
    generalize (if a.est = 0 then 1048576 else a.est) = n at h
    obtain ⟨b, k⟩ := bk
    simp only at h
    split_ifs at h with h1 h2 h3 h4 h5
    cases h
    simp only
    refine ⟨by omega, trivial, ?_⟩
    zify
    rw [Int.toNat_of_nonneg (by omega)]
    exact not_lt.mp h5
  obtain ⟨hk, hb, hmax⟩ := hsizes
  have h2k : 11 * s.k ≤ (s.b + 11) * s.k := Nat.mul_le_mul_right _ (by omega)
  rw [maxSz] at hmax
  refine ⟨hk, by omega, ⟨⟨hb, rfl, ?_, ?_, ?_, ?_, ?_⟩, ?_, ?_⟩⟩
  · rw [hfresh.buffer, List.length_replicate, hb]
  · intro buf hbuf
    rw [hfresh.buffer] at hbuf
    rw [List.eq_of_mem_replicate hbuf, List.length_replicate]
  · rw [hfresh.weight, List.length_replicate, hb]
  · intro w hw hw0
    rw [hfresh.weight] at hw
    exact absurd (List.eq_of_mem_replicate hw) hw0
  · rw [hfresh.weight, List.count_replicate_self, hfresh.numEmptyBuffers]
  · rw [hfresh.inBuffer]
    exact hfresh.k_pos
  · simp [hfresh.weight, hfresh.inBuffer]

/-- **When the buffers never run out**: exactly where their size is an `int`, and whatever
has to be merged to make room consists of `int`s, with an `int` for its weight. -/
theorem neverRunsOut_iff (a : Stream) : NeverRunsOut a ↔ SizeFits a.R a.n a.b ∧
    ∀ s, a.make = .ok s → ∀ m < a.xs.length, ∀ t, a.after s m = some t → FitsNext t := by
  have henough : (a.n : ℤ) ≤ a.k * 2 ^ (a.b - 1) ↔ SizeFits a.R a.n a.b := by
    rw [Stream.k, determineBK_eq]
    exact enough_iff a.scaled a.n_pos
  constructor
  · intro h
    refine ⟨henough.mp h.enough, ?_⟩
    intro s hs
    refine fits_of_run ?_
    intro m hm
    obtain ⟨t, ht, -⟩ := h.runs s hs m hm
    exact ⟨t, ht⟩
  · intro h
    refine ⟨henough.mpr h.1, ?_⟩
    intro s hs m hm
    obtain ⟨hk, h2k, htally⟩ := a.tally_of_make hs
    have hle := henough.mpr h.1
    rw [hk] at hle
    have hn : a.n ≤ s.k * 2 ^ (a.b - 1) := by exact_mod_cast hle
    have hlen : a.xs.length ≤ s.k * 2 ^ (a.b - 1) := a.length_le.trans hn
    obtain ⟨t, ht, hafter⟩ := htally.run (fun l => (a.sorts l).1.length_eq) h2k a.two_le hlen
      (h.2 s hs) m hm
    have hcons := hafter.consistent a.two_le (hm.trans hlen)
    exact ⟨t, ht, hcons⟩

end

theorem determineBK_wide :
    determineBK (Rounding.exact 53) (1 / 2 ^ 32) (2 ^ 33 + 10) = (2, 5) := by
  have hceil : ⌈(4294967301 / 2147483648 : ℚ)⌉₊ = 3 := by norm_num [Nat.ceil_eq_iff]
  have hb : bLoop (4294967301 / 2147483648) 3 2 = 3 := by norm_num [bLoop]
  norm_num [determineBK, Rounding.exact, hceil, hb]
  decide

/-- Two buffers for `2 ^ 33 + 10` values, of which a half is `2 ^ 32 + 5`: they hold five
each. -/
def wide : Stream where
  R := Rounding.exact 53
  scaled := Rounding.keepsScaled_exact
  qsortAsc := mergeAsc
  sorts := mergeAsc_sortsAsc
  numQuantiles := 1
  est := 2 ^ 33 + 10
  est_lt := by norm_num
  eps := 1 / 2 ^ 32
  xs := List.replicate 20 .zero
  two_le := by
    rw [if_neg (by norm_num), determineBK_wide]
  length_le := by
    rw [if_neg (by norm_num), List.length_replicate]
    norm_num

theorem wide_runs_out : ¬ NeverRunsOut wide := by
  intro h
  have henough := h.enough
  have hn : wide.n = 2 ^ 33 + 10 := rfl
  have hbk : determineBK wide.R wide.eps wide.n = (2, 5) := determineBK_wide
  rw [Stream.k, Stream.b, hbk, hn] at henough
  norm_num at henough

end QStore.Approx
