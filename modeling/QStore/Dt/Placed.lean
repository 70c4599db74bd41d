import QStore.Dt.Search

/-!
# QStore.Dt.Placed

What `search` finds. Every entry of the buffer has the class counts of the rows up
to it (`Cand.Ok`), also after a refill, and all but the one that ends at `ub` have
a metric above the bad value. So the split that is chosen lies inside:
`search_spec`.
-/

namespace QStore.Dt

variable {R : Double} {cfg : Config} {Y : Nat → Nat} {lb ub i nT nH n m : Nat}

@[simp] theorem tails_nil : tails [] = 0 := rfl
@[simp] theorem heads_nil : heads [] = 0 := rfl

theorem tails_append {L L' : List Nat} : tails (L ++ L') = tails L + tails L' := by
  simp [tails]

theorem heads_append {L L' : List Nat} : heads (L ++ L') = heads L + heads L' := by
  simp [heads]

theorem tails_singleton {w : Nat} : tails [w] = if getGoal w = 0 then 1 else 0 := by
  simp [tails, List.countP_cons]

theorem heads_singleton {w : Nat} : heads [w] = if getGoal w = 0 then 0 else 1 := by
  by_cases h : getGoal w = 0 <;> simp [heads, h]

/-! ## accumulate -/

/-- An entry that counts the rows from `lb` up to it. -/
structure Cand.Counts (Y : Nat → Nat) (lb i : Nat) (c : Cand) : Prop where
  nT : c.nT = tails (seg Y lb i)
  nH : c.nH = heads (seg Y lb i)

/-- An entry of the buffer. -/
structure Cand.Ok (cfg : Config) (Y : Nat → Nat) (lb ub : Nat) (c : Cand) : Prop
    extends Cand.Counts Y lb (c.yidx + 1) c where
  lb_le : lb ≤ c.yidx
  lt : c.yidx < ub
  big : c.yidx + 1 < ub → cfg.minPartitionSize ≤ c.yidx + 1 - lb

theorem Cand.put_counts {c : Cand} (h : c.Counts Y lb i) (hi : lb ≤ i) :
    (c.put i (Y i)).yidx = i ∧ (c.put i (Y i)).Counts Y lb (i + 1) := by
  unfold Cand.put
  split
  · next h0 =>
      refine ⟨rfl, ⟨?_, ?_⟩⟩
      · rw [seg_succ hi, tails_append, tails_singleton, if_pos h0, h.nT]
      · rw [seg_succ hi, heads_append, heads_singleton, if_pos h0, h.nH, Nat.add_zero]
  · next h0 =>
      refine ⟨rfl, ⟨?_, ?_⟩⟩
      · rw [seg_succ hi, tails_append, tails_singleton, if_neg h0, h.nT, Nat.add_zero]
      · rw [seg_succ hi, heads_append, heads_singleton, if_neg h0, h.nH]

/-- What `accumulate` leaves in the buffer when it has come to row `r.2`. -/
structure Filled (cfg : Config) (Y : Nat → Nat) (lb ub : Nat) (r : List Cand × Nat) : Prop where
  ends : ∃ init last, r.1 = init ++ [last] ∧ last.yidx + 1 = r.2 ∧ last.Ok cfg Y lb ub ∧
    ∀ c ∈ init, c.Ok cfg Y lb ub ∧ c.yidx + 1 < ub
  le : r.2 ≤ ub
  length_le : r.1.length ≤ cfg.metricsBufferSize
  full : r.2 < ub → r.1.length = cfg.metricsBufferSize

/-- Invariant of the loop of `accumulate`: `cur` counts the rows before `i`. -/
theorem accumulateFrom_spec (k curr consumed left : Nat) {cur : Cand} {done : List Cand}
    (hk : i + k = ub) (hlb : lb < i) (hcur : cur.yidx + 1 = i ∧ cur.Counts Y lb i)
    (hcons : consumed = i - lb) (hdone : ∀ c ∈ done, c.Ok cfg Y lb ub ∧ c.yidx + 1 < ub)
    (hlen : done.length + 1 ≤ cfg.metricsBufferSize) :
    Filled cfg Y lb ub (accumulateFrom cfg Y ub k i curr consumed left cur done) ∧
      i ≤ (accumulateFrom cfg Y ub k i curr consumed left cur done).2 := by
  obtain ⟨hidx, hcounts⟩ := hcur
  have hinit : ∀ c ∈ done.reverse, c.Ok cfg Y lb ub ∧ c.yidx + 1 < ub := fun c hc =>
    hdone c (List.mem_reverse.mp hc)
  induction k generalizing i curr consumed left cur done with
  | zero =>
      subst hidx
      refine ⟨⟨⟨done.reverse, cur, by simp [accumulateFrom], hk, ?_, hinit⟩, le_rfl, ?_, ?_⟩,
        hk.le⟩
      · exact ⟨hcounts, by omega, by omega, by omega⟩
      · simpa [accumulateFrom] using hlen
      · exact fun h => absurd h (lt_irrefl _)
  | succ k ih =>
    rw [accumulateFrom]
    split
    · next hcut =>
        have hok : cur.Ok cfg Y lb ub ∧ cur.yidx + 1 < ub :=
          ⟨⟨hidx ▸ hcounts, by omega, by omega, by omega⟩, by omega⟩
        split
        · next hfull =>
            refine ⟨⟨⟨done.reverse, cur, by simp, hidx, hok.1, hinit⟩, by omega, ?_, fun _ => ?_⟩,
              le_rfl⟩
            · simpa using hlen
            · simpa using hfull
        · next hroom =>
            have hnew := Cand.put_counts (c := ⟨i, getYval (Y i), cur.nT, cur.nH⟩)
              ⟨hcounts.nT, hcounts.nH⟩ hlb.le
            have hdone' : ∀ c ∈ cur :: done, c.Ok cfg Y lb ub ∧ c.yidx + 1 < ub := by
              intro c hc
              rcases List.mem_cons.mp hc with rfl | hc
              · exact hok
              · exact hdone c hc
            obtain ⟨hfill, hle⟩ := ih (i := i + 1) (getYval (Y i)) (consumed + 1) (sub32 left 1)
              (by omega) (by omega) (by omega)
              hdone' (by rw [List.length_cons]; omega) (by rw [hnew.1]) hnew.2
              fun c hc => hdone' c (List.mem_reverse.mp hc)
            exact ⟨hfill, by omega⟩
    · have hnew := Cand.put_counts hcounts hlb.le
      obtain ⟨hfill, hle⟩ := ih (i := i + 1) curr (consumed + 1) (sub32 left 1)
        (by omega) (by omega) (by omega) hdone hlen (by rw [hnew.1])
        hnew.2 hinit
      exact ⟨hfill, by omega⟩

/-- A call that goes on from row `i` with the counts of the rows before. -/
theorem accumulate_spec (hbuf : 0 < cfg.metricsBufferSize) (hlb : lb ≤ i) (hub : i < ub) :
    ∃ r, accumulate cfg Y i ub (tails (seg Y lb i)) (heads (seg Y lb i)) = some r ∧
      Filled cfg Y lb ub r ∧ i < r.2 := by
  have hnone : Cand.Counts Y lb i ⟨i, getYval (Y i), tails (seg Y lb i), heads (seg Y lb i)⟩ :=
    ⟨rfl, rfl⟩
  have hfirst := Cand.put_counts hnone hlb
  have hsum : tails (seg Y lb i) + heads (seg Y lb i) = i - lb := by
    rw [tails_add_heads, length_seg]
  have hrest : i + 1 + (ub - (i + 1)) = ub := by omega
  obtain ⟨hfill, hle⟩ := accumulateFrom_spec (ub - (i + 1)) (getYval (Y i)) (i - lb + 1)
    (sub32 (sub32 (ub - i) (i - lb)) 1) hrest (by omega)
    ⟨by rw [hfirst.1], hfirst.2⟩ (by omega) (fun c hc => absurd hc List.not_mem_nil) hbuf
  refine ⟨_, ?_, hfill, by omega⟩
  rw [accumulate, if_neg hbuf.ne', hsum]
  exact if_neg (not_lt.mpr hfill.length_le)

/-! ## search_j -/

/-- A best split that came from an entry before the end. -/
structure Best.Placed (R : Double) (cfg : Config) (Y : Nat → Nat) (lb ub nT nH : Nat)
    (b : Best) : Prop where
  cand : ∃ c : Cand, c.Ok cfg Y lb ub ∧ c.yidx + 1 < ub ∧ b = Best.of R nT nH c
  good : -1 < b.metric

/-- The class counts of the interval that `split` passes down. -/
structure Counted (Y : Nat → Nat) (lb ub nT nH : Nat) : Prop where
  nT_eq : nT = tails (seg Y lb ub)
  nH_eq : nH = heads (seg Y lb ub)
  nT_pos : 0 < nT
  lt : ub < 2 ^ 32

theorem Counted.add (h : Counted Y lb ub nT nH) : nT + nH = ub - lb := by
  rw [h.nT_eq, h.nH_eq, tails_add_heads, length_seg]

theorem Cand.Ok.le {c : Cand} (h : c.Ok cfg Y lb ub) (hc : Counted Y lb ub nT nH) :
    c.nT ≤ nT ∧ c.nH ≤ nH ∧ c.nT + c.nH = c.yidx + 1 - lb := by
  have hcat : seg Y lb (c.yidx + 1) ++ seg Y (c.yidx + 1) ub = seg Y lb ub :=
    seg_append (by have := h.lb_le; omega) h.lt
  refine ⟨?_, ?_, ?_⟩
  · rw [h.nT, hc.nT_eq, ← hcat, tails_append]
    exact Nat.le_add_right ..
  · rw [h.nH, hc.nH_eq, ← hcat, heads_append]
    exact Nat.le_add_right ..
  · rw [h.nT, h.nH, tails_add_heads, length_seg]

/-- Which entries have a metric above the bad value. -/
theorem metricOf_gt {c : Cand} (h : c.Ok cfg Y lb ub) (hc : Counted Y lb ub nT nH) :
    -1 < metricOf R nT nH c ↔ c.yidx + 1 < ub := by
  obtain ⟨hT, hH, hsum⟩ := h.le hc
  have hadd := hc.add
  have h1 := h.lb_le
  have h2 := h.lt
  have h3 := hc.lt
  constructor
  · intro hgt
    by_contra hend
    rw [metricOf, evalMetric_full hT hH (by omega) (by omega)] at hgt
    exact absurd hgt (lt_irrefl _)
  · intro hin
    exact evalMetric_gt hT hH (by omega) (by omega) hc.nT_pos (by omega)

/-- A buffer improves on what is kept, or leaves it. -/
theorem improve_placed {r : List Cand × Nat} {best : Best} (hr : Filled cfg Y lb ub r)
    (hc : Counted Y lb ub nT nH)
    (hbest : best.Placed R cfg Y lb ub nT nH ∨ best.metric = -1 ∧ 1 < r.1.length) :
    (best.improve R nT nH r.1).Placed R cfg Y lb ub nT nH := by
  obtain ⟨init, last, hr1, hlast, hlok, hinit⟩ := hr.ends
  have hall : ∀ c ∈ r.1, c.Ok cfg Y lb ub := by
    intro c hcm
    rw [hr1, List.mem_append, List.mem_singleton] at hcm
    rcases hcm with hcm | rfl
    · exact (hinit c hcm).1
    · exact hlok
  unfold Best.improve
  cases harg : calcBestMetric R nT nH r.1 with
  | none =>
      rw [calcBestMetric, List.argmax_eq_none, hr1] at harg
      simp at harg
  | some c =>
    have hmem : c ∈ r.1 := List.argmax_mem harg
    simp only
    split
    · next hlt =>
        have hgt : -1 < metricOf R nT nH c := by
          rcases hbest with h | h
          · exact h.good.trans hlt
          · rwa [h.1] at hlt
        exact ⟨⟨c, hall c hmem, (metricOf_gt (hall c hmem) hc).mp hgt, rfl⟩, hgt⟩
    · next hge =>
        rcases hbest with h | ⟨h1, h2⟩
        · exact h
        · -- the first entry of two is above the bad value
          cases init with
          | nil => simp [hr1] at h2
          | cons d init =>
            have hd := hinit d (List.mem_cons_self ..)
            have hdr : d ∈ r.1 := by simp [hr1]
            have hle := List.le_of_mem_argmax hdr harg
            have hdgt := (metricOf_gt (R := R) hd.1 hc).mpr hd.2
            rw [h1] at hge
            exact absurd (hdgt.trans_le hle) hge

/-- Invariant of the loop of `search_j`. -/
theorem searchJLoop_spec (hbuf : 0 < cfg.metricsBufferSize) (hc : Counted Y lb ub nT nH)
    {fuel : Nat} (iter0 : Bool) {best : Best} (hi : lb ≤ i) (hfuel : ub - i < fuel)
    (hfirst : iter0 = true → i < ub ∧ best.metric = -1)
    (hbest : iter0 = false → best.Placed R cfg Y lb ub nT nH) :
    ∃ r, searchJLoop R cfg Y ub nT nH fuel i (tails (seg Y lb i)) (heads (seg Y lb i)) iter0 best
        = some r ∧ ∀ b, r = some b → b.Placed R cfg Y lb ub nT nH := by
  induction fuel generalizing i iter0 best with
  | zero => omega
  | succ fuel ih =>
    rw [searchJLoop]
    by_cases hend : ub ≤ i
    · have h0 : iter0 = false := by
        by_contra h
        have := (hfirst (by simpa using h)).1
        omega
      refine ⟨_, if_pos hend, fun b hb => ?_⟩
      obtain rfl := Option.some.inj hb
      exact hbest h0
    · rw [if_neg hend]
      obtain ⟨r, hr, hfill, hlt⟩ := accumulate_spec (Y := Y) hbuf hi (not_le.mp hend)
      obtain ⟨init, last, hr1, hlast, hlok, -⟩ := hfill.ends
      rw [hr, Option.bind_some, hr1, List.getLast?_append_of_ne_nil _ (by simp),
        List.getLast?_singleton, ← hr1]
      dsimp only
      by_cases hone : iter0 = true ∧ r.1.length ≤ 1
      · exact ⟨none, if_pos hone, fun b hb => nomatch hb⟩
      · rw [if_neg hone]
        have hgood : (best.improve R nT nH r.1).Placed R cfg Y lb ub nT nH := by
          refine improve_placed hfill hc ?_
          cases iter0 with
          | false => exact .inl (hbest rfl)
          | true => exact .inr ⟨(hfirst rfl).2, by simpa using hone⟩
        by_cases hmore : r.1.length < cfg.metricsBufferSize
        · refine ⟨_, if_pos hmore, fun b hb => ?_⟩
          obtain rfl := Option.some.inj hb
          exact hgood
        · rw [if_neg hmore, hlok.nT, hlok.nH, hlast]
          exact ih false (by omega) (by omega) (fun h => nomatch h) fun _ => hgood

theorem searchJ_spec (hbuf : 0 < cfg.metricsBufferSize) (hc : Counted Y lb ub nT nH)
    (hlb : lb < ub) (hn : ub ≤ n) :
    ∃ r, searchJ R cfg Y lb ub nT nH n = some r ∧
      ∀ b, r = some b → b.Placed R cfg Y lb ub nT nH := by
  unfold searchJ
  by_cases h1 : ub - lb ≤ cfg.minLeafSize
  · exact ⟨none, if_pos h1, fun b hb => nomatch hb⟩
  · rw [if_neg h1]
    by_cases h2 : Y lb = Y (ub - 1)
    · exact ⟨none, if_pos h2, fun b hb => nomatch hb⟩
    · rw [if_neg h2, if_neg (by omega)]
      simpa using searchJLoop_spec (R := R) (i := lb) hbuf hc true le_rfl
        (Nat.lt_succ_self (ub - lb)) (fun _ => ⟨hlb, rfl⟩) fun h => nomatch h

/-- Without a buffer the first candidate is already written past its end. -/
theorem searchJ_nobuf (hbuf : cfg.metricsBufferSize = 0) (hlb : lb < ub) (hn : ub ≤ n) :
    searchJ R cfg Y lb ub nT nH n =
      if ub - lb ≤ cfg.minLeafSize ∨ Y lb = Y (ub - 1) then some none else none := by
  unfold searchJ
  by_cases h1 : ub - lb ≤ cfg.minLeafSize
  · rw [if_pos h1, if_pos (.inl h1)]
  · by_cases h2 : Y lb = Y (ub - 1)
    · rw [if_neg h1, if_pos h2, if_pos (.inr h2)]
    · rw [if_neg h1, if_neg h2, if_neg (by omega), if_neg (by simp [h1, h2]), searchJLoop,
        if_neg (by omega), accumulate, if_pos hbuf, Option.bind_none]

theorem searchJ_placed {b : Best} (hc : Counted Y lb ub nT nH) (hlb : lb < ub) (hn : ub ≤ n)
    (h : searchJ R cfg Y lb ub nT nH n = some (some b)) : b.Placed R cfg Y lb ub nT nH := by
  rcases Nat.eq_zero_or_pos cfg.metricsBufferSize with hbuf | hbuf
  · rw [searchJ_nobuf hbuf hlb hn] at h
    split at h <;> cases h
  · obtain ⟨r, hr, hb⟩ := searchJ_spec (R := R) hbuf hc hlb hn
    rw [hr, Option.some.injEq] at h
    exact hb b h

/-! ## search -/

section Search

variable {Y : Nat → Nat → Nat} {js : List Nat} {found : Option (Nat × Best)}

/-- A split between two rows, with the counts of both sides. -/
structure Split.Placed (cfg : Config) (Y : Nat → Nat → Nat) (lb ub m : Nat) (b : Split) : Prop where
  feature_lt : b.feature < m
  lb_lt : lb < b.yidx
  lt_ub : b.yidx < ub
  big : cfg.minPartitionSize ≤ b.yidx - lb
  nTL : b.nTL = tails (seg (Y b.feature) lb b.yidx)
  nHL : b.nHL = heads (seg (Y b.feature) lb b.yidx)
  nTR : b.nTR = tails (seg (Y b.feature) b.yidx ub)
  nHR : b.nHR = heads (seg (Y b.feature) b.yidx ub)

theorem Split.placed_of {f : Nat × Best} (hf : f.1 < m) (hc : Counted (Y f.1) lb ub nT nH)
    (hb : f.2.Placed R cfg (Y f.1) lb ub nT nH) : (Split.of f).Placed cfg Y lb ub m := by
  obtain ⟨⟨c, hok, hin, hbc⟩, -⟩ := hb
  obtain ⟨hT, hH, -⟩ := hok.le hc
  have hlb := hok.lb_le
  have hadd := hc.add
  have hlt := hc.lt
  have hcat : seg (Y f.1) lb (c.yidx + 1) ++ seg (Y f.1) (c.yidx + 1) ub = seg (Y f.1) lb ub :=
    seg_append (by omega) hin.le
  have hTR : nT - c.nT = tails (seg (Y f.1) (c.yidx + 1) ub) := by
    rw [hc.nT_eq, hok.nT, ← hcat, tails_append, Nat.add_sub_cancel_left]
  have hHR : nH - c.nH = heads (seg (Y f.1) (c.yidx + 1) ub) := by
    rw [hc.nH_eq, hok.nH, ← hcat, heads_append, Nat.add_sub_cancel_left]
  simp only [Split.of, hbc, Best.of]
  exact ⟨hf, by dsimp only; omega, hin, hok.big hin, hok.nT, hok.nH,
    (sub32_eq hT (by omega)).trans hTR, (sub32_eq hH (by omega)).trans hHR⟩

theorem choose_cases (j : Nat) (r : Option Best) :
    choose j found r = found ∨ ∃ b, r = some b ∧ choose j found r = some (j, b) := by
  cases r with
  | none => exact .inl rfl
  | some b =>
    cases found with
    | none => exact .inr ⟨b, rfl, rfl⟩
    | some f =>
      rw [choose]
      by_cases h : f.2.metric < b.metric
      · exact .inr ⟨b, rfl, if_pos h⟩
      · exact .inl (if_neg h)

/-- What wins was found by `search_j` for its feature. -/
theorem searchAll_found {out : Option (Nat × Best)}
    (h : searchAll R cfg Y lb ub nT nH n js found = some out) :
    out = found ∨ ∃ f, out = some f ∧ f.1 ∈ js ∧
      searchJ R cfg (Y f.1) lb ub nT nH n = some (some f.2) := by
  induction js generalizing found with
  | nil => exact .inl (Option.some.inj h).symm
  | cons j js ih =>
    rw [searchAll, Option.bind_eq_some_iff] at h
    obtain ⟨r, hr, h⟩ := h
    rcases ih h with hout | ⟨f, hf, hmem, hrun⟩
    · rcases choose_cases j r with hc | ⟨b, rfl, hc⟩
      · exact .inl (hout.trans hc)
      · exact .inr ⟨(j, b), hout.trans hc, List.mem_cons_self .., hr⟩
    · exact .inr ⟨f, hf, List.mem_cons_of_mem _ hmem, hrun⟩

theorem searchAll_total (h : ∀ j ∈ js, ∃ r, searchJ R cfg (Y j) lb ub nT nH n = some r) :
    ∃ out, searchAll R cfg Y lb ub nT nH n js found = some out := by
  induction js generalizing found with
  | nil => exact ⟨found, rfl⟩
  | cons j js ih =>
    obtain ⟨r, hr⟩ := h j (List.mem_cons_self ..)
    rw [searchAll, hr, Option.bind_some]
    exact ih fun k hk => h k (List.mem_cons_of_mem _ hk)

theorem search_eq (hd : cfg.isDebug = false) :
    search R cfg Y lb ub nT nH n m =
      (searchAll R cfg Y lb ub nT nH n (List.range m) none).map (Option.map Split.of) := by
  rw [search]
  cases searchAll R cfg Y lb ub nT nH n (List.range m) none with
  | none => rfl
  | some out => cases out <;> simp [hd]

/-- A split that `search` finds is well placed. -/
theorem search_placed {b : Split} (hd : cfg.isDebug = false)
    (hc : ∀ j < m, Counted (Y j) lb ub nT nH) (hlb : lb < ub) (hn : ub ≤ n)
    (h : search R cfg Y lb ub nT nH n m = some (some b)) : b.Placed cfg Y lb ub m := by
  rw [search_eq hd, Option.map_eq_some_iff] at h
  obtain ⟨out, hout, hb⟩ := h
  obtain ⟨f, rfl, rfl⟩ := Option.map_eq_some_iff.mp hb
  rcases searchAll_found hout with hnone | ⟨f', hf', hmem, hrun⟩
  · cases hnone
  · obtain rfl := Option.some.inj hf'
    have hlt := List.mem_range.mp hmem
    exact Split.placed_of hlt (hc _ hlt) (searchJ_placed (hc _ hlt) hlb hn hrun)

/-- With a buffer, `search` returns. -/
theorem search_total (hd : cfg.isDebug = false) (hbuf : 0 < cfg.metricsBufferSize)
    (hc : ∀ j < m, Counted (Y j) lb ub nT nH) (hlb : lb < ub) (hn : ub ≤ n) :
    ∃ r, search R cfg Y lb ub nT nH n m = some r := by
  obtain ⟨out, hout⟩ : ∃ out, searchAll R cfg Y lb ub nT nH n (List.range m) none = some out :=
    searchAll_total fun j hj => by
      obtain ⟨r, hr, -⟩ := searchJ_spec (R := R) hbuf (hc j (List.mem_range.mp hj)) hlb hn
      exact ⟨r, hr⟩
  exact ⟨_, by rw [search_eq hd, hout, Option.map_some]⟩

/-- Without one, only an interval that no feature looks at gets past `search`. -/
theorem search_nobuf (hd : cfg.isDebug = false) (hbuf : cfg.metricsBufferSize = 0)
    (hm : 0 < m) (hlb : lb < ub) (hn : ub ≤ n) (hne : ∀ j < m, Y j lb ≠ Y j (ub - 1)) :
    search R cfg Y lb ub nT nH n m = if ub - lb ≤ cfg.minLeafSize then some none else none := by
  have hj : ∀ j < m, searchJ R cfg (Y j) lb ub nT nH n =
      if ub - lb ≤ cfg.minLeafSize then some none else none := by
    intro j hjm
    rw [searchJ_nobuf hbuf hlb hn]
    simp only [hne j hjm, or_false]
  rw [search_eq hd]
  by_cases hsmall : ub - lb ≤ cfg.minLeafSize
  · obtain ⟨out, hout⟩ : ∃ out, searchAll R cfg Y lb ub nT nH n (List.range m) none = some out :=
      searchAll_total fun j hjm =>
        ⟨none, by rw [hj j (List.mem_range.mp hjm), if_pos hsmall]⟩
    rcases searchAll_found hout with rfl | ⟨f, rfl, hmem, hrun⟩
    · rw [hout, if_pos hsmall]
      rfl
    · rw [hj _ (List.mem_range.mp hmem), if_pos hsmall] at hrun
      cases hrun
  · obtain ⟨k, rfl⟩ : ∃ k, m = k + 1 := ⟨m - 1, by omega⟩
    rw [List.range_succ_eq_map, searchAll, hj 0 hm, if_neg hsmall, if_neg hsmall]
    rfl

/-- What `search` finds it has found with a buffer. -/
theorem search_found_buf {b : Split} (hd : cfg.isDebug = false) (hlb : lb < ub) (hn : ub ≤ n)
    (h : search R cfg Y lb ub nT nH n m = some (some b)) : 0 < cfg.metricsBufferSize := by
  rw [search_eq hd, Option.map_eq_some_iff] at h
  obtain ⟨out, hout, hb⟩ := h
  obtain ⟨f, rfl, -⟩ := Option.map_eq_some_iff.mp hb
  rcases searchAll_found hout with hnone | ⟨f', -, -, hrun⟩
  · cases hnone
  · by_contra hbuf
    rw [searchJ_nobuf (by omega) hlb hn] at hrun
    split at hrun <;> cases hrun

end Search

end QStore.Dt
