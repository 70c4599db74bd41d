import QStore.Approx.Collapse
import Mathlib.Tactic.FieldSimp
import Mathlib.Algebra.Order.Group.Abs

/-!
# QStore.Approx.Promise

When the quantiles of a stream are what they should be: each occurs in the stream, at a
rank within `eps * n` of the rank asked for.

A stream that never fills `in_buffer` is kept whole, and then the rank that
`slow_output` aims at is met exactly. The first packet that fills it loses half of its
values in `New`: what comes back then are zeros that were never in the stream.
-/

namespace QStore.Approx

/-! ## what is promised -/

/-- `v` stands at place `r` of the sorted stream, counted from one. -/
def HasRank (xs : List Double) (v : Double) (r : Nat) : Prop :=
  xs.countP (· < v) < r ∧ r ≤ xs.countP (· ≤ v)

/-- The rank of quantile `q`, counted from zero. -/
def targetRank (n numQuantiles q : Nat) : ℚ := (q + 1) * n / (numQuantiles + 1)

/-- The quantiles promised for the stream `xs`. -/
structure Answers (s : State) (target : Nat → ℚ) (xs quantiles : List Double) : Prop where
  length : quantiles.length = s.numQuantiles
  sorted : quantiles.Pairwise (· ≤ ·)
  occurs : ∀ v ∈ quantiles, ∃ x ∈ xs, x.units = v.units
  ranked : ∀ q v, quantiles[q]? = some v →
    ∃ r, HasRank xs v r ∧ |(r : ℚ) - target q| ≤ s.eps * xs.length

/-- All values of a stream, one call of `approx_quantile_add` each. -/
def addAll (qsortAsc : List Double → List Double) (s : State) (xs : List Double) :
    Option State :=
  xs.foldlM (approxQuantileAdd qsortAsc) s

/-- **The promise**: every call succeeds, and the quantiles read are those promised. -/
def KeepsPromise (qsortAsc : List Double → List Double) (s : State) (target : Nat → ℚ)
    (xs : List Double) : Prop :=
  ∃ s₁ s₂, addAll qsortAsc s xs = some s₁ ∧ approxQuantileRead qsortAsc s₁ = some s₂ ∧
    Answers s target xs s₂.quantiles

/-- What `qsort_asc_F8` does. -/
def SortsAsc (qsortAsc : List Double → List Double) : Prop :=
  ∀ l, (qsortAsc l).Perm l ∧ (qsortAsc l).Pairwise (· ≤ ·)

/-! ## the pass over the sorted array -/

section

variable {nPer nQ : Nat} {l : List (Double × Nat)} {cum qidx q : Nat} {qs : List Double}
variable {v : Double}

theorem length_quantileLoop : (quantileLoop nPer nQ l cum qidx qs).length = qs.length := by
  induction l generalizing cum qidx qs with
  | nil => rfl
  | cons e l ih =>
      rw [quantileLoop]
      split_ifs <;> simp [ih]

/-- Quantiles already found stay. -/
theorem quantileLoop_of_lt (h : q < qidx) :
    (quantileLoop nPer nQ l cum qidx qs)[q]? = qs[q]? := by
  induction l generalizing cum qidx qs with
  | nil => rfl
  | cons e l ih =>
      rw [quantileLoop]
      split_ifs
      · rfl
      · rw [List.getElem?_set_ne (by omega)]
      · rw [ih (by omega), List.getElem?_set_ne (by omega)]
      · exact ih h

/-- The next quantile is the value at which its rank is reached. -/
theorem quantileLoop_reach (hq : qidx < nQ) (hlen : qidx < qs.length)
    (h : reach ((qidx + 1) * nPer - cum) l = some v) :
    (quantileLoop nPer nQ l cum qidx qs)[qidx]? = some v := by
  induction l generalizing cum with
  | nil => cases h
  | cons e l ih =>
      rw [reach] at h
      by_cases he : (qidx + 1) * nPer ≤ cum + e.2
      · rw [if_pos (by omega)] at h
        cases h
        rw [quantileLoop, if_pos he, if_neg (by omega)]
        split
        · simp [hlen]
        · rw [quantileLoop_of_lt (Nat.lt_succ_self _)]
          simp [hlen]
      · rw [if_neg (by omega), Nat.sub_sub] at h
        rw [quantileLoop, if_neg he]
        exact ih h

/-- Where no value counts twice, every quantile is the value at which its rank is
reached. -/
theorem quantileLoop_ones (hone : ∀ e ∈ l, e.2 ≤ 1) (hper : 0 < nPer) (hlen : qs.length = nQ)
    (hcum : cum < (qidx + 1) * nPer) (hq : qidx ≤ q) (hnQ : q < nQ)
    (h : reach ((q + 1) * nPer - cum) l = some v) :
    (quantileLoop nPer nQ l cum qidx qs)[q]? = some v := by
  induction l generalizing cum qidx qs with
  | nil => cases h
  | cons e l ih =>
      have he1 := hone e List.mem_cons_self
      have hl := fun e he => hone e (List.mem_cons_of_mem _ he)
      cases hq.eq_or_lt with
      | inl heq =>
          subst heq
          exact quantileLoop_reach hnQ (hlen ▸ hnQ) h
      | inr hlt =>
          -- the rank of `q` lies a whole `nPer` or more behind the one that is next
          have hnext : (qidx + 1) * nPer + nPer ≤ (q + 1) * nPer := by
            calc (qidx + 1) * nPer + nPer = (qidx + 1 + 1) * nPer := by ring
              _ ≤ (q + 1) * nPer := Nat.mul_le_mul_right _ (by omega)
          rw [reach, if_neg (by omega), Nat.sub_sub] at h
          rw [quantileLoop]
          split
          · rw [if_neg (by omega), if_neg (by omega)]
            refine ih hl (by simpa using hlen) ?_ hlt h
            calc cum + e.2 < (qidx + 1) * nPer + nPer := by omega
              _ = (qidx + 1 + 1) * nPer := by ring
          · exact ih hl hlen (by omega) hq h

/-- Nothing is returned that is neither in the array nor there before. -/
theorem mem_quantileLoop (h : v ∈ quantileLoop nPer nQ l cum qidx qs) :
    v ∈ qs ∨ ∃ e ∈ l, e.1 = v := by
  induction l generalizing cum qidx qs with
  | nil => exact .inl h
  | cons e l ih =>
      have hset : v ∈ qs.set qidx e.1 → v ∈ qs ∨ ∃ e' ∈ e :: l, e'.1 = v := fun hv =>
        (List.mem_or_eq_of_mem_set hv).imp_right fun he => ⟨e, List.mem_cons_self, he.symm⟩
      have hlater : (∃ e' ∈ l, e'.1 = v) → ∃ e' ∈ e :: l, e'.1 = v := fun ⟨e', he', hv⟩ =>
        ⟨e', List.mem_cons_of_mem _ he', hv⟩
      rw [quantileLoop] at h
      split_ifs at h
      · exact .inl h
      · exact hset h
      · cases ih h with
        | inl hv => exact hset hv
        | inr hv => exact .inr (hlater hv)
      · exact (ih h).imp_right hlater

end

/-! ## what is read -/

section

variable {qsortAsc : List Double → List Double} {s s' : State} {xs ys : List Double}

/-- The array `final`, sorted. -/
def sortedRecs (buffer : List (List Double)) (weight : List Nat) (lastPacket : List Double) :
    List (Double × Nat) :=
  (finalRecs buffer weight lastPacket).mergeSort fun r₁ r₂ => ¬ r₂.1 < r₁.1

theorem sortedRecs_perm (buffer : List (List Double)) (weight : List Nat) :
    (sortedRecs buffer weight xs).Perm (finalRecs buffer weight xs) :=
  List.mergeSort_perm _ _

theorem sortedRecs_sorted (buffer : List (List Double)) (weight : List Nat) :
    (sortedRecs buffer weight xs).Pairwise fun a b => a.1 ≤ b.1 := by
  have hs : (sortedRecs buffer weight xs).Pairwise fun a b => decide (¬ b.1 < a.1) := by
    refine List.pairwise_mergeSort (fun a b c hab hbc => ?_) (fun a b => ?_) _
    · simp only [Double.lt_iff, decide_eq_true_eq] at hab hbc ⊢
      omega
    · simp only [Double.lt_iff, Bool.or_eq_true, decide_eq_true_eq]
      omega
  refine hs.imp fun h => ?_
  simp only [Double.lt_iff, decide_eq_true_eq] at h
  exact not_lt.mp h

/-- The last packet, as `slow_output` gets it. -/
def lastPacket (qsortAsc : List Double → List Double) (s : State) : List Double :=
  if s.inBuffer.length < s.k then qsortAsc s.inBuffer else s.inBuffer

theorem lastPacket_perm (hsort : SortsAsc qsortAsc) : (lastPacket qsortAsc s).Perm s.inBuffer := by
  rw [lastPacket]
  split
  · exact (hsort _).1
  · exact List.Perm.refl _

/-- What `slow_output` gives where it gets past its checks. -/
theorem slowOutput_eq_some {buffer : List (List Double)} {weight : List Nat} {qs qs' : List Double}
    {nQ b k : Nat} {n : Int} (h : slowOutput buffer weight xs qs nQ n b k = some qs') :
    0 < n ∧ qs' = quantileLoop (n.toNat / (nQ + 1)) nQ (sortedRecs buffer weight xs) 0 0 qs := by
  rw [slowOutput] at h
  split_ifs at h
  cases h
  exact ⟨by omega, rfl⟩

theorem approxQuantileRead_eq : approxQuantileRead qsortAsc s =
    (slowOutput s.buffer s.weight (lastPacket qsortAsc s) s.quantiles s.numQuantiles
      (Int.bmod s.nInputVals (2 ^ 32)) s.b s.k).map fun qs =>
        { s with inBuffer := lastPacket qsortAsc s, quantiles := qs } := by
  rw [approxQuantileRead, lastPacket, Option.map_eq_bind]
  rfl

theorem approxQuantileRead_eq_some (h : approxQuantileRead qsortAsc s = some s') :
    0 < Int.bmod s.nInputVals (2 ^ 32) ∧ s'.quantiles =
      quantileLoop ((Int.bmod s.nInputVals (2 ^ 32)).toNat / (s.numQuantiles + 1)) s.numQuantiles
        (sortedRecs s.buffer s.weight (lastPacket qsortAsc s)) 0 0 s.quantiles := by
  rw [approxQuantileRead_eq, Option.map_eq_some_iff] at h
  obtain ⟨qs, hqs, rfl⟩ := h
  exact slowOutput_eq_some hqs

theorem approxQuantileRead_of (hn : 0 < s.nInputVals) (hlt : s.nInputVals < 2 ^ 31)
    (hk : 0 < s.k) (hb : 0 < s.b) (hlen : s.inBuffer.length ≤ s.k)
    (hnQ : s.numQuantiles + 1 < 2 ^ 31) (hsort : SortsAsc qsortAsc) :
    ∃ s', approxQuantileRead qsortAsc s = some s' ∧ s'.quantiles =
      quantileLoop (s.nInputVals / (s.numQuantiles + 1)) s.numQuantiles
        (sortedRecs s.buffer s.weight (lastPacket qsortAsc s)) 0 0 s.quantiles := by
  have hbmod : Int.bmod s.nInputVals (2 ^ 32) = s.nInputVals :=
    Int.bmod_eq_of_le (by omega) (by omega)
  have hlast := (lastPacket_perm (s := s) hsort).length_eq
  refine ⟨{ s with inBuffer := lastPacket qsortAsc s, quantiles := _ }, ?_, rfl⟩
  rw [approxQuantileRead_eq, hbmod, slowOutput, if_neg (by omega), if_neg (by omega)]
  rfl

end

/-! ## a fresh state -/

/-- The state that `approx_quantile_make` leaves. -/
structure Fresh (s : State) : Prop where
  b_pos : 0 < s.b
  k_pos : 0 < s.k
  k_lt : s.k < 2 ^ 31
  nInputVals : s.nInputVals = 0
  numEmptyBuffers : s.numEmptyBuffers = s.b
  buffer : s.buffer = List.replicate s.b (List.replicate s.k .zero)
  weight : s.weight = List.replicate s.b 0
  quantiles : s.quantiles = List.replicate s.numQuantiles .zero
  numQuantiles_pos : 0 < s.numQuantiles
  inBuffer : s.inBuffer = []

theorem fresh_of_make {R : Rounding 53} {nQ : Int} {est : Nat} {eps : ℚ} {s : State}
    (h : approxQuantileMake R nQ est eps = .ok s) : Fresh s ∧ s.eps = eps ∧
      s.numQuantiles = nQ.toNat ∧
      s.k = (determineBK R eps (if est = 0 then 1048576 else est)).2.toNat := by
  simp only [approxQuantileMake] at h
  generalize determineBK R eps (if est = 0 then 1048576 else est) = bk at h ⊢
  generalize (if est = 0 then 1048576 else est) = est' at h
  obtain ⟨b, k⟩ := bk
  simp only at h
  split_ifs at h with h1 h2 h3 h4 h5
  cases h
  have hk : k ≤ (b + 1 + 10) * k := le_mul_of_one_le_left (by omega) (by omega)
  refine ⟨⟨?_, ?_, ?_, rfl, rfl, rfl, rfl, rfl, ?_, rfl⟩, rfl, rfl, rfl⟩ <;> simp only <;> omega

section

variable {qsortAsc : List Double → List Double} {s s' : State} {xs ys : List Double}

theorem addAll_append : addAll qsortAsc s (xs ++ ys) =
    (addAll qsortAsc s xs).bind fun s => addAll qsortAsc s ys := by
  simp [addAll, List.foldlM_append]

theorem approxQuantileAdd_of_lt {x : Double} (h : s.inBuffer.length + 1 < s.k) :
    approxQuantileAdd qsortAsc s x =
      some { s with nInputVals := s.nInputVals + 1, inBuffer := s.inBuffer ++ [x] } := by
  have hlt : s.inBuffer.length < s.k := by omega
  simp only [approxQuantileAdd, hlt, if_true]
  rw [if_pos (by simp only [List.length_append, List.length_singleton]; omega)]

theorem approxQuantileAdd_of_full {x : Double} (h : s.inBuffer.length + 1 = s.k) :
    approxQuantileAdd qsortAsc s x = approxQuantileExec qsortAsc
      { s with nInputVals := s.nInputVals + 1, inBuffer := s.inBuffer ++ [x] } := by
  have hlt : s.inBuffer.length < s.k := by omega
  simp only [approxQuantileAdd, hlt, if_true]
  rw [if_neg (by simp only [List.length_append, List.length_singleton]; omega)]

/-- Values that do not fill the buffer are kept. -/
theorem addAll_short (h : s.inBuffer.length + xs.length < s.k) : addAll qsortAsc s xs =
    some { s with nInputVals := s.nInputVals + xs.length, inBuffer := s.inBuffer ++ xs } := by
  induction xs generalizing s with
  | nil => simp [addAll]
  | cons x xs ih =>
      rw [List.length_cons] at h
      have hrest := ih (s := { s with
        nInputVals := s.nInputVals + 1, inBuffer := s.inBuffer ++ [x] }) (by simp; omega)
      rw [addAll] at hrest
      rw [addAll, List.foldlM_cons, approxQuantileAdd_of_lt (by omega), Option.bind_eq_bind,
        Option.bind_some, hrest]
      simp only [List.append_assoc, List.singleton_append, List.length_cons]
      congr 2
      omega

/-! ## a stream that is kept whole -/

theorem weigh_finalRecs_zeros (p : Double → Bool) (b k : Nat) :
    weigh p (finalRecs (List.replicate b (List.replicate k .zero)) (List.replicate b 0) xs) =
      xs.countP p := by
  rw [finalRecs, List.zip_replicate', weigh_append, weigh_flatMap_replicate, weigh_zeros, weigh_ones]
  omega

theorem weight_le_one {b k : Nat} {e : Double × Nat} (he : e ∈ finalRecs
    (List.replicate b (List.replicate k .zero)) (List.replicate b 0) xs) : e.2 ≤ 1 := by
  rw [finalRecs, List.zip_replicate', List.mem_append, List.mem_flatMap] at he
  cases he with
  | inl h =>
      obtain ⟨bw, hbw, he⟩ := h
      rw [List.eq_of_mem_replicate hbw, List.mem_map] at he
      obtain ⟨x, -, rfl⟩ := he
      exact Nat.zero_le 1
  | inr h =>
      obtain ⟨x, -, rfl⟩ := List.mem_map.mp h
      exact le_refl 1

/-- **The rank found** is the rank aimed at, as long as the stream is kept whole. -/
theorem kept_ranked (hf : Fresh s) (hsort : SortsAsc qsortAsc) (hk : xs.length < s.k)
    (hnQ : s.numQuantiles < xs.length) : ∃ s₁ s₂, addAll qsortAsc s xs = some s₁ ∧
      approxQuantileRead qsortAsc s₁ = some s₂ ∧ s₂.quantiles.length = s.numQuantiles ∧
      ∀ q < s.numQuantiles, ∃ v, s₂.quantiles[q]? = some v ∧
        HasRank xs v ((q + 1) * (xs.length / (s.numQuantiles + 1))) := by
  have hklt := hf.k_lt
  have hadd : addAll qsortAsc s xs = _ := addAll_short (by simp [hf.inBuffer, hk])
  rw [hf.nInputVals, hf.inBuffer, Nat.zero_add, List.nil_append] at hadd
  obtain ⟨s₁, hs₁⟩ : ∃ s₁, s₁ = { s with nInputVals := xs.length, inBuffer := xs } := ⟨_, rfl⟩
  obtain ⟨s₂, hread, hqs⟩ : ∃ s₂, approxQuantileRead qsortAsc s₁ = some s₂ ∧ _ :=
    approxQuantileRead_of
    (by subst hs₁; simp only; omega) (by subst hs₁; simp only; omega)
    (by subst hs₁; exact hf.k_pos) (by subst hs₁; exact hf.b_pos)
    (by subst hs₁; exact hk.le) (by subst hs₁; simp only; omega) hsort
  refine ⟨s₁, s₂, hs₁ ▸ hadd, hread, ?_, fun q hq => ?_⟩
  · rw [hqs, length_quantileLoop, hs₁]
    simp [hf.quantiles]
  · have hlast : (lastPacket qsortAsc s₁).Perm xs := by
      have := lastPacket_perm (s := s₁) hsort
      rwa [hs₁] at this ⊢
    obtain ⟨final, hfinal⟩ : ∃ final, final =
        sortedRecs s₁.buffer s₁.weight (lastPacket qsortAsc s₁) := ⟨_, rfl⟩
    have hperm : final.Perm (finalRecs s.buffer s.weight (lastPacket qsortAsc s₁)) := by
      rw [hfinal, hs₁]
      exact sortedRecs_perm _ _
    have hsorted : final.Pairwise fun a b => a.1 ≤ b.1 := by
      rw [hfinal]
      exact sortedRecs_sorted _ _
    have hweigh : ∀ p, weigh p final = xs.countP p := fun p => by
      rw [weigh_perm hperm, hf.buffer, hf.weight, weigh_finalRecs_zeros, hlast.countP_eq]
    have hone : ∀ e ∈ final, e.2 ≤ 1 := fun e he => by
      have hmem := hperm.mem_iff.mp he
      rw [hf.buffer, hf.weight] at hmem
      exact weight_le_one hmem
    obtain ⟨nPer, hnPer⟩ : ∃ nPer, nPer = xs.length / (s.numQuantiles + 1) := ⟨_, rfl⟩
    have hpos : 0 < nPer := hnPer ▸ Nat.div_pos hnQ (Nat.succ_pos _)
    have ht : 0 < (q + 1) * nPer := Nat.mul_pos (Nat.succ_pos q) hpos
    have htop : (q + 1) * nPer ≤ weigh (fun _ => true) final := by
      rw [hweigh, List.countP_true]
      calc (q + 1) * nPer ≤ (s.numQuantiles + 1) * nPer := Nat.mul_le_mul_right _ (by omega)
        _ ≤ xs.length := hnPer ▸ Nat.mul_div_le _ _
    have hne : final ≠ [] := fun hnil => by
      rw [hnil, weigh_nil] at htop
      omega
    obtain ⟨v, hv⟩ := reach_isSome hne htop
    have hrank := rank_of_reach hsorted ht hv
    rw [hweigh, hweigh] at hrank
    refine ⟨v, ?_, by rw [← hnPer]; exact hrank⟩
    rw [hqs, ← hfinal, hs₁]
    simp only [← hnPer]
    exact quantileLoop_ones hone hpos (by simp [hf.quantiles]) (by omega) (Nat.zero_le q) hq hv

end

/-! ## ranks -/

section

variable {xs : List Double} {v v' : Double} {r r' : Nat}

/-- What has a rank occurs. -/
theorem HasRank.occurs (h : HasRank xs v r) : ∃ x ∈ xs, x.units = v.units := by
  by_contra hcon
  have hall : ∀ x ∈ xs, decide (x ≤ v) → decide (x < v) := fun x hx hle => by
    rw [decide_eq_true_eq] at hle ⊢
    have hne : x.units ≠ v.units := fun heq => hcon ⟨x, hx, heq⟩
    rw [Double.le_iff] at hle
    rw [Double.lt_iff]
    omega
  have hmono := List.countP_mono_left hall
  have := h.1
  have := h.2
  omega

/-- A higher rank is not held by a smaller value. -/
theorem HasRank.le (h : HasRank xs v r) (h' : HasRank xs v' r') (hr : r ≤ r') : v ≤ v' := by
  by_contra hcon
  have hlt : v' < v := by
    rw [Double.le_iff] at hcon
    rw [Double.lt_iff]
    omega
  have hmono : xs.countP (· ≤ v') ≤ xs.countP (· < v) :=
    List.countP_mono_left fun x _ hx => by
      rw [decide_eq_true_eq] at hx ⊢
      exact lt_of_le_of_lt hx hlt
  have := h.1
  have := h'.2
  omega

/-- Where all values differ there is one rank for each. -/
theorem HasRank.unique (hnd : (xs.map Double.units).Nodup) (h : HasRank xs v r)
    (h' : HasRank xs v r') : r = r' := by
  have hcount : xs.countP (· ≤ v) = xs.countP (· < v) + (xs.map Double.units).count v.units := by
    clear hnd h h'
    induction xs with
    | nil => rfl
    | cons x xs ih =>
        rw [List.countP_cons, List.countP_cons, List.map_cons, List.count_cons, ih]
        simp only [decide_eq_true_eq, Double.le_iff, Double.lt_iff, beq_iff_eq]
        split_ifs <;> omega
  have hle := List.nodup_iff_count_le_one.mp hnd v.units
  have := h.1
  have := h.2
  have := h'.1
  have := h'.2
  omega

end

/-! ## streams shorter than a buffer -/

/-- The ranks that `slow_output` aims at are near those asked for. -/
def Near (s : State) (target : Nat → ℚ) (n : Nat) : Prop :=
  ∀ q < s.numQuantiles,
    |(((q + 1) * (n / (s.numQuantiles + 1)) : Nat) : ℚ) - target q| ≤ s.eps * n

section

variable {qsortAsc : List Double → List Double} {s s' : State} {xs ys : List Double}
variable {target : Nat → ℚ} {n : Nat}

theorem keepsPromise_of_kept (hf : Fresh s) (hsort : SortsAsc qsortAsc) (hk : xs.length < s.k)
    (hnQ : s.numQuantiles < xs.length) (hnear : Near s target xs.length) :
    KeepsPromise qsortAsc s target xs := by
  obtain ⟨s₁, s₂, hadd, hread, hlen, hrank⟩ := kept_ranked hf hsort hk hnQ
  have hat : ∀ q v, s₂.quantiles[q]? = some v → q < s.numQuantiles ∧
      HasRank xs v ((q + 1) * (xs.length / (s.numQuantiles + 1))) := fun q v hv => by
    obtain ⟨hq, -⟩ := List.getElem?_eq_some_iff.mp hv
    obtain ⟨v', hv', hr⟩ := hrank q (hlen ▸ hq)
    rw [hv] at hv'
    cases hv'
    exact ⟨hlen ▸ hq, hr⟩
  refine ⟨s₁, s₂, hadd, hread, hlen, ?_, fun v hv => ?_, fun q v hv => ?_⟩
  · rw [List.pairwise_iff_getElem]
    intro i j hi hj hij
    refine (hat i _ (List.getElem?_eq_getElem hi)).2.le (hat j _ (List.getElem?_eq_getElem hj)).2 ?_
    exact Nat.mul_le_mul_right _ (by omega)
  · obtain ⟨q, hq⟩ := List.mem_iff_getElem?.mp hv
    exact (hat q v hq).2.occurs
  · exact ⟨_, (hat q v hv).2, hnear q (hat q v hv).1⟩

/-- `n` different values. -/
def spread (n : Nat) : List Double :=
  (List.range n).map fun i => Double.tiny (i % 2 ^ 52) (Nat.mod_lt _ (by norm_num))

theorem nodup_spread (hn : n ≤ 2 ^ 52) : ((spread n).map Double.units).Nodup := by
  rw [spread, List.map_map]
  refine List.Nodup.map_on (fun i hi j hj h => ?_) List.nodup_range
  rw [List.mem_range] at hi hj
  simp only [Function.comp_apply, Double.units_tiny] at h
  rw [Nat.mod_eq_of_lt (by omega), Nat.mod_eq_of_lt (by omega)] at h
  exact_mod_cast h

/-- On different values a promise kept tells that the ranks are near. -/
theorem near_of_spread (hf : Fresh s) (hsort : SortsAsc qsortAsc) (hk : n < s.k)
    (hnQ : s.numQuantiles < n) (h : KeepsPromise qsortAsc s target (spread n)) :
    Near s target n := by
  have hlen : (spread n).length = n := by simp [spread]
  have hklt := hf.k_lt
  obtain ⟨s₁, s₂, hadd, hread, -, hrank⟩ :=
    kept_ranked hf hsort (hlen.trans_lt hk) (by rwa [hlen])
  obtain ⟨s₁', s₂', hadd', hread', hans⟩ := h
  rw [hadd] at hadd'
  cases hadd'
  rw [hread] at hread'
  cases hread'
  intro q hq
  obtain ⟨v, hv, hr⟩ := hrank q hq
  obtain ⟨r, hr', hle⟩ := hans.ranked q v hv
  rw [hlen] at hr hle
  rwa [hr.unique (nodup_spread (by omega)) hr']

end

/-! ## packets -/

/-- What `New` leaves of a packet of `c`s in a buffer of zeros. -/
def image (c : Double) (k : Nat) : List Double :=
  List.replicate (k / 2) c ++ List.replicate (k - k / 2) .zero

/-- After `m` packets of `c`s, each in a buffer of its own. -/
def packets (s : State) (c : Double) (m : Nat) : State :=
  { s with
    nInputVals := m * s.k
    numEmptyBuffers := s.b - m
    buffer := List.replicate m (image c s.k) ++
      List.replicate (s.b - m) (List.replicate s.k .zero)
    weight := List.replicate m 1 ++ List.replicate (s.b - m) 0
    inBuffer := [] }

section

variable {qsortAsc : List Double → List Double} {s s' : State} {xs ys : List Double}
variable {c : Double} {m k : Nat}

theorem memcpyInts_zeros (hc : c.frac = 0) :
    memcpyInts (List.replicate k .zero) (List.replicate k c) k = image c k := by
  rw [memcpyInts, image, List.take_replicate, Nat.min_eq_left (by omega)]
  congr 1
  split
  · rw [List.drop_replicate]
  · have hmid : k / 2 < k := by omega
    simp only [List.getD_eq_getElem?_getD, List.getElem?_replicate, hmid, if_true,
      Option.getD_some, Double.withLow_zero hc, List.drop_replicate]
    rw [← List.replicate_succ]
    congr 1
    omega

theorem packets_zero (hf : Fresh s) : packets s c 0 = s := by
  rw [packets]
  cases s
  have hb := hf.buffer
  have hw := hf.weight
  have hn := hf.nInputVals
  have he := hf.numEmptyBuffers
  have hi := hf.inBuffer
  simp_all

/-- A packet is added: the call that fills `in_buffer` flushes it. -/
theorem addAll_packet (hin : s.inBuffer = []) (hk : 0 < s.k) (hlen : xs.length = s.k) :
    addAll qsortAsc s xs = approxQuantileExec qsortAsc
      { s with nInputVals := s.nInputVals + s.k, inBuffer := xs } := by
  have hne : xs ≠ [] := List.ne_nil_of_length_pos (by omega)
  obtain ⟨ys, y, rfl⟩ : ∃ ys y, xs = ys ++ [y] :=
    ⟨xs.dropLast, xs.getLast hne, (List.dropLast_append_getLast hne).symm⟩
  rw [List.length_append, List.length_singleton] at hlen
  have hshort : addAll qsortAsc s ys = _ := addAll_short (by rw [hin, List.length_nil]; omega)
  rw [addAll_append, hshort, Option.bind_some]
  rw [addAll, List.foldlM_cons, approxQuantileAdd_of_full]
  · simp only [hin, List.nil_append, List.foldlM_nil, ← hlen, Nat.add_assoc]
    exact bind_pure _
  · simpa [hin] using hlen

theorem qsortAsc_replicate (hsort : SortsAsc qsortAsc) :
    qsortAsc (List.replicate k c) = List.replicate k c :=
  List.perm_replicate.mp (hsort _).1

theorem getD_replicates {α : Type*} (a b d : α) (m r : Nat) :
    (List.replicate m a ++ List.replicate (r + 1) b).getD m d = b := by
  simp

theorem set_replicates {α : Type*} (a b : α) (m r : Nat) :
    (List.replicate m a ++ List.replicate (r + 1) b).set m a =
      List.replicate (m + 1) a ++ List.replicate r b := by
  rw [List.set_append_right _ _ (by simp), List.length_replicate, Nat.sub_self, List.replicate_succ,
    List.set_cons_zero, List.replicate_succ', List.append_assoc, List.singleton_append]

/-- **A packet goes to a free buffer**, as long as there is one. -/
theorem addAll_packets_succ (hsort : SortsAsc qsortAsc) (hk : 0 < s.k) (hc : c.frac = 0)
    (hm : m < s.b) : addAll qsortAsc (packets s c m) (List.replicate s.k c) =
      some (packets s c (m + 1)) := by
  obtain ⟨r, hr⟩ : ∃ r, s.b - m = r + 1 := ⟨s.b - m - 1, by omega⟩
  have hpacket : addAll qsortAsc (packets s c m) (List.replicate s.k c) = _ :=
    addAll_packet rfl hk List.length_replicate
  have hfind : (List.replicate m 1 ++ List.replicate (s.b - m) 0).findIdx (fun w => w = 0) = m := by
    rw [hr, List.replicate_succ, List.findIdx_eq (by simp)]
    constructor
    · simp
    · intro j hj
      rw [List.getElem_append_left (by simpa using hj)]
      simp
  have hfree : s.b - m ≠ 0 := by omega
  have hsub : s.b - (m + 1) = r := by omega
  rw [hpacket, approxQuantileExec]
  simp only [packets, List.length_replicate, qsortAsc_replicate hsort, makeRoom, hfree, if_false,
    ne_eq, not_true_eq_false, Option.bind_eq_bind, Option.bind_some, hfind, hsub]
  rw [if_neg (by omega)]
  simp only [hr, getD_replicates, memcpyInts_zeros hc, set_replicates, Nat.add_sub_cancel,
    Nat.succ_mul]
  rfl

/-- Up to `b` packets find a free buffer each. -/
theorem addAll_packets (hf : Fresh s) (hsort : SortsAsc qsortAsc) (hc : c.frac = 0)
    (hm : m ≤ s.b) :
    addAll qsortAsc s (List.replicate (m * s.k) c) = some (packets s c m) := by
  induction m with
  | zero => simp [addAll, packets_zero hf]
  | succ m ih =>
      rw [Nat.succ_mul, List.replicate_add, addAll_append, ih (by omega), Option.bind_some]
      exact addAll_packets_succ hsort hf.k_pos hc hm

/-! ## a packet too many -/

/-- A number that is no `int`. -/
def huge : Double := Double.pow2 false 31 (by norm_num)

theorem toTempBuffer_huge {l : List (Double × Nat)} {w : Nat} :
    toTempBuffer ((huge, w) :: l) = none := by
  rw [toTempBuffer, huge, Double.toInt32_pow2 _ (le_refl 31)]
  rfl

theorem collapse_huge {w₁ w₂ : Nat} (hk : 2 ≤ k) :
    collapse (image huge k) (image huge k) w₁ w₂ k = none := by
  obtain ⟨h, hh⟩ : ∃ h, k / 2 = h + 1 := ⟨k / 2 - 1, by omega⟩
  rw [collapse, image, hh, List.replicate_succ, List.cons_append, mergeBufs, if_pos (le_refl huge)]
  simp only [toTempBuffer_huge]
  split
  · rfl
  · split <;> rfl

/-- Where all buffers hold the same packet, the first two are collapsed. -/
theorem makeRoom_full {t : State} {b : Nat} (hfull : t.numEmptyBuffers = 0) (hk : 2 ≤ t.k)
    (hb : t.b = b) (hw : t.weight = List.replicate b 1)
    (hbuf : t.buffer = List.replicate b (image huge t.k)) : makeRoom t = none := by
  rw [makeRoom, if_pos hfull, hb, hw, hbuf]
  cases b with
  | zero => rfl
  | succ b =>
      cases b with
      | zero => rfl
      | succ b =>
          have hsame : findSame (List.replicate (b + 2) 1) 1 1 (b + 1) = some 1 := by
            simp [findSame]
          simp [findPair, hsame, collapse_huge hk]

/-- **One packet more than there are buffers**: a collapse, and its conversion to `int`. -/
theorem addAll_huge (hf : Fresh s) (hsort : SortsAsc qsortAsc) (hk : 2 ≤ s.k) {n : Nat}
    (hn : (s.b + 1) * s.k ≤ n) : addAll qsortAsc s (List.replicate n huge) = none := by
  rw [Nat.succ_mul] at hn
  obtain ⟨r, rfl⟩ := Nat.exists_eq_add_of_le hn
  have hpacket : addAll qsortAsc (packets s huge s.b) (List.replicate s.k huge) = _ :=
    addAll_packet rfl hf.k_pos List.length_replicate
  rw [List.replicate_add, List.replicate_add, addAll_append, addAll_append,
    addAll_packets hf hsort rfl (le_refl _), Option.bind_some, hpacket, approxQuantileExec]
  simp only [packets, List.length_replicate, ne_eq, not_true_eq_false, if_false]
  rw [makeRoom_full (b := s.b)]
  · rfl
  · exact Nat.sub_self s.b
  · exact hk
  · rfl
  · simp
  · simp

/-! ## packets that lose their upper half -/

def one : Double := Double.pow2 false 0 (by norm_num)

def negOne : Double := Double.pow2 true 0 (by norm_num)

theorem units_one : one.units = 2 ^ 1074 := Double.units_pow2 _ _

theorem units_negOne : negOne.units = -2 ^ 1074 := Double.units_pow2 _ _

theorem negOne_lt_zero : negOne < .zero := by
  rw [Double.lt_iff, units_negOne, Double.units_zero]
  exact neg_neg_of_pos (by positivity)

theorem zero_lt_one : Double.zero < one := by
  rw [Double.lt_iff, units_one, Double.units_zero]
  positivity

theorem units_one_ne : one.units ≠ 0 := (Double.lt_iff.mp zero_lt_one).ne'

theorem units_negOne_ne : negOne.units ≠ 0 := (Double.lt_iff.mp negOne_lt_zero).ne

theorem weigh_finalRecs_packets (p : Double → Bool) (A Z : List Double) (m r : Nat) :
    weigh p (finalRecs (List.replicate m A ++ List.replicate r Z)
      (List.replicate m 1 ++ List.replicate r 0) xs) = m * A.countP p + xs.countP p := by
  rw [finalRecs, List.zip_append (by simp), List.zip_replicate', List.zip_replicate',
    List.flatMap_append, weigh_append, weigh_append, weigh_flatMap_replicate,
    weigh_flatMap_replicate, weigh_ones, weigh_zeros, weigh_ones, Nat.mul_zero, Nat.add_zero]

theorem mem_finalRecs {buffer : List (List Double)} {weight : List Nat} {e : Double × Nat}
    (he : e ∈ finalRecs buffer weight xs) : (∃ buf ∈ buffer, e.1 ∈ buf) ∨ e.1 ∈ xs := by
  rw [finalRecs, List.mem_append, List.mem_flatMap] at he
  cases he with
  | inl h =>
      obtain ⟨bw, hbw, he⟩ := h
      obtain ⟨x, hx, rfl⟩ := List.mem_map.mp he
      exact .inl ⟨bw.1, (List.of_mem_zip hbw).1, hx⟩
  | inr h =>
      obtain ⟨x, hx, rfl⟩ := List.mem_map.mp h
      exact .inr hx

theorem countP_image (p : Double → Bool) (c : Double) (k : Nat) : (image c k).countP p =
    (if p c then k / 2 else 0) + if p .zero then k - k / 2 else 0 := by
  simp [image, List.countP_append, List.countP_replicate]

/-- What stands behind the packets in the stream that shows the loss. -/
def tail (y r : Nat) : List Double := List.replicate y negOne ++ List.replicate (r - y) one

theorem countP_tail (p : Double → Bool) (y r : Nat) : (tail y r).countP p =
    (if p negOne then y else 0) + if p one then r - y else 0 := by
  simp [tail, List.countP_append, List.countP_replicate]

/-- A value read from an array of ones, zeros and minus ones in which the rank falls on
the zeros. -/
theorem reach_zeros {l : List (Double × Nat)} {t : Nat} {v : Double}
    (hs : l.Pairwise fun a b => a.1 ≤ b.1) (hv : reach t l = some v)
    (hmem : ∀ e ∈ l, e.1 = one ∨ e.1 = .zero ∨ e.1 = negOne) (hzero : ∃ e ∈ l, e.1 = .zero)
    (hbelow : t ≤ weigh (· < one) l)
    (hneg : (∃ e ∈ l, e.1 = negOne) → weigh (· ≤ negOne) l < t) : v.units = 0 := by
  obtain ⟨e, he, hev⟩ := mem_of_reach hv
  rcases hmem e he with h | h | h
  · exfalso
    rw [← hev, h] at hv
    cases Nat.eq_zero_or_pos t with
    | inl h0 =>
        subst h0
        obtain ⟨z, hz, hz0⟩ := hzero
        exact absurd (le_of_reach_zero hs hv z hz) (hz0 ▸ zero_lt_one.not_ge)
    | inr hpos => exact absurd (rank_of_reach hs hpos hv).1 (by omega)
  · rw [← hev, h, Double.units_zero]
  · exfalso
    have hlt := hneg ⟨e, he, h⟩
    rw [← hev, h] at hv
    have := (rank_of_reach hs (by omega) hv).2
    omega

theorem toNat_bmod_le (n : Nat) : (Int.bmod n (2 ^ 32)).toNat ≤ n := by
  rw [Int.bmod_def]
  split <;> omega

/-- Packets of ones, and behind them as many minus ones as bring the rank of the first
quantile to the zeros. -/
def spoiled (s : State) (m r : Nat) : List Double :=
  List.replicate (m * s.k) one ++
    tail ((Int.bmod (m * s.k + r : Nat) (2 ^ 32)).toNat / (s.numQuantiles + 1) -
      m * (s.k - s.k / 2)) r

/-- **A lost half spoils the stream.** -/
theorem packets_fail (hf : Fresh s) (hsort : SortsAsc qsortAsc) (hm : 0 < m) (hb : m ≤ s.b)
    {r : Nat} (hr : r < s.k) : (spoiled s m r).length = m * s.k + r ∧
      ∀ target, ¬ KeepsPromise qsortAsc s target (spoiled s m r) := by
  obtain ⟨t, ht⟩ : ∃ t, t =
    (Int.bmod (m * s.k + r : Nat) (2 ^ 32)).toNat / (s.numQuantiles + 1) := ⟨_, rfl⟩
  obtain ⟨Z, hZ⟩ : ∃ Z, Z = m * (s.k - s.k / 2) := ⟨_, rfl⟩
  have hkpos := hf.k_pos
  have hZpos : 0 < Z := hZ ▸ Nat.mul_pos hm (by omega)
  have hhalf : m * s.k ≤ 2 * Z := by
    calc m * s.k ≤ m * (2 * (s.k - s.k / 2)) := Nat.mul_le_mul_left _ (by omega)
      _ = 2 * Z := by rw [hZ]; ring
  have hty : t - Z ≤ r := by
    have hquot : t ≤ (m * s.k + r) / 2 := by
      rw [ht]
      exact Nat.div_le_div (toNat_bmod_le _) (Nat.succ_le_succ hf.numQuantiles_pos) two_ne_zero
    omega
  have hlen : (tail (t - Z) r).length = r := by
    simp [tail]
    omega
  have hxs : spoiled s m r = List.replicate (m * s.k) one ++ tail (t - Z) r := by
    rw [spoiled, ht, hZ]
  rw [hxs]
  refine ⟨by simp [hlen], fun target h => ?_⟩
  obtain ⟨s₁, s₂, hadd, hread, hans⟩ := h
  rw [addAll_append, addAll_packets hf hsort rfl hb, Option.bind_some,
    addAll_short (by simpa [packets, hlen] using hr)] at hadd
  cases hadd
  obtain ⟨-, hqs⟩ := approxQuantileRead_eq_some hread
  simp only [packets, hlen, ← ht, List.nil_append] at hqs
  generalize hlast : lastPacket qsortAsc _ = last at hqs
  have hlast' : last.Perm (tail (t - Z) r) := by
    rw [← hlast]
    exact lastPacket_perm hsort
  obtain ⟨final, hfinal⟩ : ∃ final, final = sortedRecs
    (List.replicate m (image one s.k) ++ List.replicate (s.b - m) (List.replicate s.k .zero))
    (List.replicate m 1 ++ List.replicate (s.b - m) 0) last := ⟨_, rfl⟩
  rw [← hfinal] at hqs
  have hperm := hfinal ▸ sortedRecs_perm _ _
  have hweigh : ∀ p, weigh p final =
      m * (image one s.k).countP p + (tail (t - Z) r).countP p := fun p => by
    rw [weigh_perm hperm, weigh_finalRecs_packets, hlast'.countP_eq]
  have hlt : weigh (· < one) final = Z + (t - Z) := by
    rw [hweigh, countP_image, countP_tail]
    simp [zero_lt_one, negOne_lt_zero.trans zero_lt_one, hZ]
  have hle : weigh (· ≤ negOne) final = t - Z := by
    rw [hweigh, countP_image, countP_tail]
    simp [(negOne_lt_zero.trans zero_lt_one).not_ge, negOne_lt_zero.not_ge]
  have hmem : ∀ e ∈ final, e.1 = one ∨ e.1 = .zero ∨ e.1 = negOne ∧ 0 < t - Z := fun e he => by
    cases mem_finalRecs (hperm.mem_iff.mp he) with
    | inl h =>
        obtain ⟨buf, hbuf, hx⟩ := h
        simp only [List.mem_append, List.mem_replicate] at hbuf
        rcases hbuf with ⟨-, rfl⟩ | ⟨-, rfl⟩
        · simp only [image, List.mem_append, List.mem_replicate] at hx
          rcases hx with ⟨-, hx⟩ | ⟨-, hx⟩
          · exact .inl hx
          · exact .inr (.inl hx)
        · exact .inr (.inl (List.eq_of_mem_replicate hx))
    | inr h =>
        have htail := hlast'.mem_iff.mp h
        simp only [tail, List.mem_append, List.mem_replicate] at htail
        rcases htail with ⟨hy, hx⟩ | ⟨-, hx⟩
        · exact .inr (.inr ⟨hx, by omega⟩)
        · exact .inl hx
  have hzero : ∃ e ∈ final, e.1 = .zero := by
    have hpos : 0 < weigh (· = .zero) final := by
      rw [hweigh, countP_image]
      simp only [decide_true, if_true]
      exact Nat.add_pos_left (Nat.mul_pos hm (by omega)) _
    obtain ⟨e, he, heq⟩ := exists_of_weigh_pos hpos
    exact ⟨e, he, of_decide_eq_true heq⟩
  have htop : t ≤ weigh (fun _ => true) final := by
    have hall : weigh (· < one) final ≤ weigh (fun _ => true) final := weigh_mono fun _ _ _ => rfl
    omega
  have hne : final ≠ [] := fun hnil => by simp [hnil] at hzero
  obtain ⟨v, hv⟩ := reach_isSome hne htop
  have hunits : v.units = 0 := by
    refine reach_zeros (hfinal ▸ sortedRecs_sorted _ _) hv (fun e he => ?_) hzero (by omega) ?_
    · exact (hmem e he).imp_right (Or.imp_right And.left)
    · intro ⟨e, he, hneg⟩
      rcases hmem e he with h | h | h
      · exact absurd (hneg.symm.trans h) (negOne_lt_zero.trans zero_lt_one).ne
      · exact absurd (hneg.symm.trans h) negOne_lt_zero.ne
      · omega
  have hq : s₂.quantiles[0]? = some v := by
    rw [hqs]
    exact quantileLoop_reach hf.numQuantiles_pos (by simpa [hf.quantiles] using hf.numQuantiles_pos)
      (by simpa using hv)
  obtain ⟨x, hx, hxv⟩ := hans.occurs v (List.mem_of_getElem? hq)
  rw [hunits] at hxv
  simp only [List.mem_append, List.mem_replicate, tail] at hx
  rcases hx with ⟨-, rfl⟩ | ⟨-, rfl⟩ | ⟨-, rfl⟩
  · exact units_one_ne hxv
  · exact units_negOne_ne hxv
  · exact units_one_ne hxv

/-- **No more values than quantiles**: every rank is reached at once, by the zeros of the
empty buffers. -/
theorem few_fail (hf : Fresh s) (hsort : SortsAsc qsortAsc) {n : Nat} (hk : n < s.k)
    (hn : n ≤ s.numQuantiles) (target : Nat → ℚ) :
    ¬ KeepsPromise qsortAsc s target (List.replicate n one) := by
  intro ⟨s₁, s₂, hadd, hread, hans⟩
  rw [addAll_short (by simpa [hf.inBuffer] using hk)] at hadd
  cases hadd
  obtain ⟨-, hqs⟩ := approxQuantileRead_eq_some hread
  simp only [hf.nInputVals, hf.inBuffer, Nat.zero_add, List.length_replicate, List.nil_append] at hqs
  rw [Nat.div_eq_of_lt ((toNat_bmod_le n).trans_lt (Nat.lt_succ_of_le hn))] at hqs
  generalize hlast : lastPacket qsortAsc _ = last at hqs
  have hlast' : last.Perm (List.replicate n one) := by
    rw [← hlast]
    exact lastPacket_perm hsort
  obtain ⟨final, hfinal⟩ : ∃ final, final = sortedRecs s.buffer s.weight last := ⟨_, rfl⟩
  rw [← hfinal] at hqs
  have hperm := hfinal ▸ sortedRecs_perm _ _
  have hmem : ∀ e ∈ final, e.1 = one ∨ e.1 = .zero := fun e he => by
    cases mem_finalRecs (hperm.mem_iff.mp he) with
    | inl h =>
        obtain ⟨buf, hbuf, hx⟩ := h
        rw [hf.buffer] at hbuf
        rw [List.eq_of_mem_replicate hbuf] at hx
        exact .inr (List.eq_of_mem_replicate hx)
    | inr h => exact .inl (List.eq_of_mem_replicate (hlast'.mem_iff.mp h))
  have hzero : ∃ e ∈ final, e.1 = .zero := by
    refine ⟨(.zero, 0), hperm.mem_iff.mpr ?_, rfl⟩
    rw [finalRecs, hf.buffer, hf.weight, List.zip_replicate']
    simp [hf.b_pos.ne', hf.k_pos.ne']
  have hne : final ≠ [] := fun hnil => by simp [hnil] at hzero
  obtain ⟨v, hv⟩ := reach_isSome hne (Nat.zero_le _)
  have hunits : v.units = 0 := by
    refine reach_zeros (hfinal ▸ sortedRecs_sorted _ _) hv (fun e he => ?_) hzero (Nat.zero_le _) ?_
    · exact (hmem e he).imp_right .inl
    · intro ⟨e, he, hneg⟩
      cases hmem e he with
      | inl h => exact absurd (hneg.symm.trans h) (negOne_lt_zero.trans zero_lt_one).ne
      | inr h => exact absurd (hneg.symm.trans h) negOne_lt_zero.ne
  have hq : s₂.quantiles[0]? = some v := by
    rw [hqs]
    exact quantileLoop_reach hf.numQuantiles_pos (by simpa [hf.quantiles] using hf.numQuantiles_pos)
      (by simpa using hv)
  obtain ⟨x, hx, hxv⟩ := hans.occurs v (List.mem_of_getElem? hq)
  rw [hunits, List.eq_of_mem_replicate hx] at hxv
  exact units_one_ne hxv

/-! ## buffers of a single value -/

/-- Nothing but zeros has been stored. -/
structure AllZero (s : State) : Prop where
  buffer : ∀ buf ∈ s.buffer, ∀ x ∈ buf, x = .zero
  quantiles : ∀ x ∈ s.quantiles, x = .zero
  inBuffer : s.inBuffer = []
  k : s.k = 1

theorem toTempBuffer_zeros {l : List (Double × Nat)} {temp : List (Int32 × Nat)}
    (hl : ∀ e ∈ l, e.1 = .zero) (h : toTempBuffer l = some temp) : ∀ e ∈ temp, e.1 = 0 := by
  induction l generalizing temp with
  | nil =>
      cases h
      simp
  | cons e l ih =>
      obtain ⟨x, w⟩ := e
      have hx : x = .zero := hl (x, w) List.mem_cons_self
      rw [toTempBuffer, hx, Double.toInt32_zero] at h
      obtain ⟨z, hz, h⟩ := Option.bind_eq_some_iff.mp h
      cases hz
      obtain ⟨rest, hrest, h⟩ := Option.bind_eq_some_iff.mp h
      cases h
      intro e he
      cases List.mem_cons.mp he with
      | inl heq => rw [heq]
      | inr hmem => exact ih (fun e he => hl e (List.mem_cons_of_mem _ he)) hrest e hmem

theorem storeLoop_zeros {temp : List (Int32 × Nat)} {offSet outWeight kk jj : Nat}
    {stored : List Double} (ht : ∀ e ∈ temp, e.1 = 0)
    (h : storeLoop offSet outWeight k temp kk jj = some stored) : ∀ x ∈ stored, x = .zero := by
  induction temp generalizing kk jj stored with
  | nil =>
      cases h
      simp
  | cons e temp ih =>
      obtain ⟨z, w⟩ := e
      have hz : z = 0 := ht (z, w) List.mem_cons_self
      rw [storeLoop] at h
      obtain ⟨n, -, h⟩ := Option.bind_eq_some_iff.mp h
      obtain ⟨rest, hrest, h⟩ := Option.bind_eq_some_iff.mp h
      cases h
      intro x hx
      cases List.mem_append.mp hx with
      | inl hnew => rw [List.eq_of_mem_replicate hnew, hz, Double.ofInt32_zero]
      | inr hold => exact ih (fun e he => ht e (List.mem_cons_of_mem _ he)) hrest x hold

theorem collapse_zeros {buf1 buf2 buf : List Double} {w₁ w₂ : Nat}
    (h1 : ∀ x ∈ buf1, x = .zero) (h2 : ∀ x ∈ buf2, x = .zero)
    (h : collapse buf1 buf2 w₁ w₂ k = some buf) : ∀ x ∈ buf, x = .zero := by
  rw [collapse] at h
  split_ifs at h with hzero hsmall
  · obtain ⟨temp, htemp, h⟩ := Option.bind_eq_some_iff.mp h
    obtain ⟨stored, hstored, h⟩ := Option.bind_eq_some_iff.mp h
    cases h
    have hmerge : ∀ e ∈ mergeBufs w₁ w₂ buf1 buf2, e.1 = .zero := fun e he =>
      (mem_mergeBufs_iff.mp ⟨e, he, rfl⟩).elim (h1 _) (h2 _)
    intro x hx
    cases List.mem_append.mp hx with
    | inl hnew => exact storeLoop_zeros (toTempBuffer_zeros hmerge htemp) hstored x hnew
    | inr hold => exact h1 x (List.mem_of_mem_drop hold)

/-- The buffers of a list of zero buffers, the missing ones included. -/
theorem getD_zeros {bufs : List (List Double)} (h : ∀ buf ∈ bufs, ∀ x ∈ buf, x = .zero) (i : Nat) :
    ∀ x ∈ bufs.getD i [], x = .zero := by
  rw [List.getD_eq_getElem?_getD]
  cases hi : bufs[i]? with
  | none => simp
  | some buf => exact h buf (List.mem_of_getElem? hi)

theorem set_zeros {bufs : List (List Double)} {buf : List Double} {i : Nat}
    (h : ∀ buf ∈ bufs, ∀ x ∈ buf, x = .zero) (hbuf : ∀ x ∈ buf, x = .zero) :
    ∀ b ∈ bufs.set i buf, ∀ x ∈ b, x = .zero := fun b hb =>
  (List.mem_or_eq_of_mem_set hb).elim (h b) fun heq => heq ▸ hbuf

theorem makeRoom_zeros (h : ∀ buf ∈ s.buffer, ∀ x ∈ buf, x = .zero)
    (hs : makeRoom s = some s') : (∀ buf ∈ s'.buffer, ∀ x ∈ buf, x = .zero) ∧
      s'.quantiles = s.quantiles ∧ s'.k = s.k := by
  rw [makeRoom] at hs
  split at hs
  · obtain ⟨⟨i, j⟩, -, hs⟩ := Option.bind_eq_some_iff.mp hs
    obtain ⟨buf, hbuf, hs⟩ := Option.bind_eq_some_iff.mp hs
    cases hs
    exact ⟨set_zeros h (collapse_zeros (getD_zeros h i) (getD_zeros h j) hbuf), rfl, rfl⟩
  · cases hs
    exact ⟨h, rfl, rfl⟩

theorem memcpyInts_one {dst : List Double} (h : ∀ x ∈ dst, x = .zero) :
    ∀ x ∈ memcpyInts dst [one] 1, x = .zero := by
  have hfirst : dst.getD 0 .zero = .zero := by
    cases dst with
    | nil => rfl
    | cons x dst => exact h x List.mem_cons_self
  intro x hx
  simp only [memcpyInts, Nat.reduceDiv, List.take_zero, List.nil_append, Nat.one_mod,
    one_ne_zero, if_false, hfirst, List.mem_cons] at hx
  cases hx with
  | inl hx => exact hx.trans (Double.withLow_zero rfl)
  | inr hx => exact h x (List.mem_of_mem_drop hx)

/-- A buffer of one value gets the low half of a one: nothing. -/
theorem AllZero.add_one (h : AllZero s) (hsort : SortsAsc qsortAsc)
    (hs : approxQuantileAdd qsortAsc s one = some s') :
    AllZero s' ∧ s'.quantiles.length = s.quantiles.length := by
  have hpacket : qsortAsc [one] = [one] := qsortAsc_replicate (k := 1) hsort
  rw [approxQuantileAdd_of_full (by rw [h.inBuffer, h.k]; rfl), approxQuantileExec,
    if_neg (by simp [h.inBuffer, h.k])] at hs
  obtain ⟨t, ht, hs⟩ := Option.bind_eq_some_iff.mp hs
  obtain ⟨hbuf, hqs, hk⟩ := makeRoom_zeros (by exact h.buffer) ht
  simp only [h.inBuffer, List.nil_append, hpacket] at hs
  split at hs
  · cases hs
  · cases hs
    have hk1 : t.k = 1 := hk.trans h.k
    simp only [hk1, hqs]
    exact ⟨⟨set_zeros hbuf (memcpyInts_one (getD_zeros hbuf _)), h.quantiles, rfl, rfl⟩, trivial⟩

theorem AllZero.addAll {n : Nat} (h : AllZero s) (hsort : SortsAsc qsortAsc)
    (hs : addAll qsortAsc s (List.replicate n one) = some s') :
    AllZero s' ∧ s'.quantiles.length = s.quantiles.length := by
  induction n generalizing s with
  | zero =>
      cases hs
      exact ⟨h, rfl⟩
  | succ n ih =>
      rw [List.replicate_succ, Approx.addAll, List.foldlM_cons] at hs
      obtain ⟨t, ht, hs⟩ := Option.bind_eq_some_iff.mp hs
      obtain ⟨hz, hlen⟩ := h.add_one hsort ht
      obtain ⟨hz', hlen'⟩ := ih hz hs
      exact ⟨hz', hlen'.trans hlen⟩

/-- **Buffers of one value** keep nothing of a stream of ones. -/
theorem single_fail (hf : Fresh s) (hsort : SortsAsc qsortAsc) (hk : s.k = 1) (n : Nat)
    (target : Nat → ℚ) : ¬ KeepsPromise qsortAsc s target (List.replicate n one) := by
  intro ⟨s₁, s₂, hadd, hread, hans⟩
  have hz : AllZero s :=
    { buffer := fun buf hbuf x hx => by
        rw [hf.buffer] at hbuf
        exact List.eq_of_mem_replicate (List.eq_of_mem_replicate hbuf ▸ hx)
      quantiles := fun x hx => List.eq_of_mem_replicate (hf.quantiles ▸ hx)
      inBuffer := hf.inBuffer
      k := hk }
  obtain ⟨hz₁, -⟩ := hz.addAll hsort hadd
  obtain ⟨-, hqs⟩ := approxQuantileRead_eq_some hread
  have hlast : lastPacket qsortAsc s₁ = [] := by
    have hperm := lastPacket_perm (s := s₁) hsort
    rw [hz₁.inBuffer] at hperm
    exact hperm.eq_nil
  have hall : ∀ v ∈ s₂.quantiles, v = .zero := fun v hv => by
    rw [hqs, hlast] at hv
    cases mem_quantileLoop hv with
    | inl h => exact hz₁.quantiles v h
    | inr h =>
        obtain ⟨e, he, hev⟩ := h
        cases mem_finalRecs ((sortedRecs_perm _ _).mem_iff.mp he) with
        | inl hbuf =>
            obtain ⟨buf, hbuf, hx⟩ := hbuf
            exact hev ▸ hz₁.buffer buf hbuf _ hx
        | inr hnil => simp at hnil
  have hpos : 0 < s₂.quantiles.length := hans.length ▸ hf.numQuantiles_pos
  have hmem := List.getElem_mem hpos
  obtain ⟨x, hx, hxv⟩ := hans.occurs _ hmem
  rw [hall _ hmem, List.eq_of_mem_replicate hx, Double.units_zero] at hxv
  exact units_one_ne hxv

/-! ## when the promise is kept -/

variable {target : Nat → ℚ} {n : Nat}

/-- A packet that fills `in_buffer` lets some stream of that length go wrong. -/
theorem full_fail (hf : Fresh s) (hsort : SortsAsc qsortAsc) (hn : s.k ≤ n) :
    ∃ xs, xs.length = n ∧ ∀ target, ¬ KeepsPromise qsortAsc s target xs := by
  have hkpos := hf.k_pos
  by_cases h1 : s.k = 1
  · exact ⟨List.replicate n one, List.length_replicate, single_fail hf hsort h1 n⟩
  · by_cases hb : (s.b + 1) * s.k ≤ n
    · refine ⟨List.replicate n huge, List.length_replicate, fun target h => ?_⟩
      obtain ⟨s₁, -, hadd, -⟩ := h
      rw [addAll_huge hf hsort (by omega) hb] at hadd
      cases hadd
    · have hm : n / s.k ≤ s.b := Nat.lt_succ_iff.mp <|
        (Nat.div_lt_iff_lt_mul hkpos).mpr (not_le.mp hb)
      obtain ⟨hlen, hfail⟩ :=
        packets_fail hf hsort (Nat.div_pos hn hkpos) hm (Nat.mod_lt n hkpos)
      exact ⟨_, hlen.trans (Nat.div_add_mod' n s.k), hfail⟩

/-- The streams for which any ranks at all are promised, and kept. -/
theorem keepsPromise_iff_near (hf : Fresh s) (hsort : SortsAsc qsortAsc) :
    (∀ xs, xs.length = n → KeepsPromise qsortAsc s target xs) ↔
      n < s.k ∧ s.numQuantiles < n ∧ Near s target n := by
  constructor
  · intro h
    have hk : n < s.k := by
      by_contra hcon
      obtain ⟨xs, hlen, hfail⟩ := full_fail hf hsort (not_lt.mp hcon)
      exact hfail target (h xs hlen)
    have hnQ : s.numQuantiles < n := by
      by_contra hcon
      exact few_fail hf hsort hk (not_lt.mp hcon) target (h _ List.length_replicate)
    exact ⟨hk, hnQ, near_of_spread hf hsort hk hnQ (h _ (by simp [spread]))⟩
  · intro ⟨hk, hnQ, hnear⟩ xs hlen
    subst hlen
    exact keepsPromise_of_kept hf hsort hk hnQ hnear

/-- The rank aimed at falls short of the target by the remainder's share. -/
theorem targetRank_sub (n nQ q : Nat) :
    (((q + 1) * (n / (nQ + 1)) : Nat) : ℚ) - targetRank n nQ q =
      -((q + 1) * (n % (nQ + 1) : Nat) / (nQ + 1)) := by
  have hdiv : (n : ℚ) = (nQ + 1) * (n / (nQ + 1) : Nat) + (n % (nQ + 1) : Nat) := by
    exact_mod_cast (Nat.div_add_mod n (nQ + 1)).symm
  have hne : (nQ + 1 : ℚ) ≠ 0 := by positivity
  rw [targetRank]
  push_cast
  conv_lhs => rw [hdiv]
  field_simp
  ring

theorem near_targetRank_iff (hpos : 0 < s.numQuantiles) :
    Near s (targetRank n s.numQuantiles) n ↔
      (s.numQuantiles * (n % (s.numQuantiles + 1) : Nat) : ℚ) ≤
        s.eps * n * (s.numQuantiles + 1) := by
  have habs : ∀ q : Nat, |(((q + 1) * (n / (s.numQuantiles + 1)) : Nat) : ℚ) -
      targetRank n s.numQuantiles q| ≤ s.eps * n ↔
      ((q + 1) * (n % (s.numQuantiles + 1) : Nat) : ℚ) ≤ s.eps * n * (s.numQuantiles + 1) :=
    fun q => by
      rw [targetRank_sub, abs_neg, abs_of_nonneg (by positivity), div_le_iff₀ (by positivity)]
  simp only [Near, habs]
  constructor
  · intro h
    have hlast := h (s.numQuantiles - 1) (by omega)
    rwa [← Nat.cast_add_one, Nat.sub_add_cancel hpos] at hlast
  · intro h q hq
    refine le_trans (mul_le_mul_of_nonneg_right ?_ (Nat.cast_nonneg _)) h
    exact_mod_cast hq

end

/-- **When the quantiles are what was promised**: exactly for the streams too short to fill
a buffer, longer than there are quantiles, and on which `n / (num_quantiles + 1)` is not
rounded down too far. -/
theorem keepsPromise_iff {R : Rounding 53} {qsortAsc : List Double → List Double} {nQ : Int}
    {est : Nat} {eps : ℚ} {s : State} (hsort : SortsAsc qsortAsc)
    (hmake : approxQuantileMake R nQ est eps = .ok s) (n : Nat) :
    (∀ xs, xs.length = n → KeepsPromise qsortAsc s (targetRank n s.numQuantiles) xs) ↔
      n < (determineBK R eps (if est = 0 then 1048576 else est)).2.toNat ∧ nQ.toNat < n ∧
        (nQ.toNat * (n % (nQ.toNat + 1) : Nat) : ℚ) ≤ eps * n * (nQ.toNat + 1) := by
  obtain ⟨hf, heps, hnQ, hk⟩ := fresh_of_make hmake
  rw [keepsPromise_iff_near hf hsort, near_targetRank_iff hf.numQuantiles_pos, hk, heps, hnQ]

/-- Sorting by merging. -/
def mergeAsc (l : List Double) : List Double := l.mergeSort fun a b => a ≤ b

theorem mergeAsc_sortsAsc : SortsAsc mergeAsc := fun l => by
  have hs : (mergeAsc l).Pairwise fun a b => decide (a ≤ b) := by
    refine List.pairwise_mergeSort (fun a b c hab hbc => ?_) (fun a b => ?_) l
    · simpa using le_trans (of_decide_eq_true hab) (of_decide_eq_true hbc)
    · simpa using Double.le_total' a b
  exact ⟨List.mergeSort_perm _ _, hs.imp of_decide_eq_true⟩

theorem determineBK_three : determineBK (Rounding.exact 53) (1 / 4) 3 = (1, 3) := by
  have hb : ∀ fuel, bLoop (3 / 4) fuel 2 = 2 := fun fuel => by
    cases fuel <;> norm_num [bLoop]
  norm_num [determineBK, Rounding.exact, hb]
  decide

/-- One quantile of two values, where three fill a buffer. -/
theorem keepsPromise_two : ∃ s, approxQuantileMake (Rounding.exact 53) 1 3 (1 / 4) = .ok s ∧
    ∀ xs, xs.length = 2 → KeepsPromise mergeAsc s (targetRank 2 s.numQuantiles) xs := by
  have hmake : ∃ s, approxQuantileMake (Rounding.exact 53) 1 3 (1 / 4) = .ok s := by
    norm_num [approxQuantileMake, determineBK_three, maxSz]
  obtain ⟨s, hs⟩ := hmake
  refine ⟨s, hs, (keepsPromise_iff mergeAsc_sortsAsc hs 2).mpr ?_⟩
  norm_num [determineBK_three]

/-- Three ones, where three fill a buffer: the quantile read is no one. -/
theorem keepsPromise_fails : ∃ s, approxQuantileMake (Rounding.exact 53) 1 3 (1 / 4) = .ok s ∧
    ¬ KeepsPromise mergeAsc s (targetRank 3 s.numQuantiles) [one, one, one] := by
  have hmake : ∃ s, approxQuantileMake (Rounding.exact 53) 1 3 (1 / 4) = .ok s := by
    norm_num [approxQuantileMake, determineBK_three, maxSz]
  obtain ⟨s, hs⟩ := hmake
  obtain ⟨hf, -, hnQ, hk⟩ := fresh_of_make hs
  have hk3 : s.k = 3 := by
    rw [hk, if_neg three_ne_zero, determineBK_three]
    rfl
  have hxs : spoiled s 1 0 = [one, one, one] := by
    rw [spoiled, hk3, hnQ]
    rfl
  refine ⟨s, hs, ?_⟩
  rw [← hxs]
  exact (packets_fail hf mergeAsc_sortsAsc Nat.one_pos hf.b_pos hf.k_pos).2 _

end QStore.Approx
