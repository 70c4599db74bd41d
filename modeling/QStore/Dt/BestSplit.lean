import QStore.Dt.SingleSort
import QStore.Dt.Buffered
import Mathlib.Tactic.Ring

/-!
# QStore.Dt.BestSplit

How good the split is that `search` finds. `eval_metrics` computes the weighted gini
impurity of a candidate,

```
(NLeft / N) * GiniLeft + (NRight / N) * GiniRight
```

which is small when the sides are pure. `calc_best_metric`, `search_j` and `search` keep the
largest, and know -1 for the bad value: of the candidates that are placed it is the worst one
that wins (`CallInv.worst`).
-/

namespace QStore.Dt

/-! ## the impurity -/

/-- The gini impurity of `t` tails and `h` heads. -/
def giniImpurity (t h : Nat) : ℚ := 1 - (t / (t + h) : ℚ) ^ 2 - (h / (t + h) : ℚ) ^ 2

/-- The impurities of both sides, each with its share of the rows. -/
def weightedGini (tL hL tR hR : Nat) : ℚ :=
  (tL + hL) / (tL + hL + (tR + hR)) * giniImpurity tL hL +
    (tR + hR) / (tL + hL + (tR + hR)) * giniImpurity tR hR

/-- The impurity when rows `lb`, .., `ub - 1` are split before row `r`. -/
def splitGini (Y : Nat → Nat) (lb ub r : Nat) : ℚ :=
  weightedGini (tails (seg Y lb r)) (heads (seg Y lb r)) (tails (seg Y r ub)) (heads (seg Y r ub))

section Metric

variable {R : Double} {cfg : Config} {Y : Nat → Nat} {lb ub nT nH n r a : Nat}

/-- Without rounding the metric is the impurity. -/
theorem metricOf_exact (hc : Counted Y lb ub nT nH) (hlb : lb ≤ r) (hub : r < ub) :
    metricOf (Rounding.exact 53) nT nH (entryAt Y lb a r) = splitGini Y lb ub r := by
  have hcat : seg Y lb r ++ seg Y r ub = seg Y lb ub := seg_append hlb hub.le
  have htails : nT = tails (seg Y lb r) + tails (seg Y r ub) := by
    rw [hc.nT_eq, ← hcat, tails_append]
  have hheads : nH = heads (seg Y lb r) + heads (seg Y r ub) := by
    rw [hc.nH_eq, ← hcat, heads_append]
  have hrows : tails (seg Y r ub) + heads (seg Y r ub) = ub - r := by
    rw [tails_add_heads, length_seg]
  have hpos := hc.nT_pos
  rw [metricOf, entryAt, splitGini]
  generalize tails (seg Y lb r) = tL at *
  generalize heads (seg Y lb r) = hL at *
  generalize tails (seg Y r ub) = tR at *
  generalize heads (seg Y r ub) = hR at *
  subst htails hheads
  have htR : ((tL + tR : Nat) : ℚ) - (tL : ℚ) = (tR : ℚ) := by
    rw [Nat.cast_add, add_sub_cancel_left]
  have hhR : ((hL + hR : Nat) : ℚ) - (hL : ℚ) = (hR : ℚ) := by
    rw [Nat.cast_add, add_sub_cancel_left]
  have hne : ¬ ((tR : ℚ) + hR = 0 ∨ tL + tR = 0) := by
    rw [← Nat.cast_add, Nat.cast_eq_zero]
    omega
  simp only [evalMetric, Rounding.exact, htR, hhR, if_neg hne, gini, sqRatio, weightedGini,
    giniImpurity]
  push_cast
  ring

end Metric

/-! ## the candidates -/

section Feature

variable {R : Double} {cfg : Config} {Y : Nat → Nat} {lb ub nT nH n r a stop : Nat}
  {cs : List Nat} {l : List Cand} {e : Cand} {best b : Best}

/-- A candidate begins at row `r`. With a buffer of one entry none does. -/
structure Begins (cfg : Config) (Y : Nat → Nat) (lb ub n r : Nat) : Prop where
  buffer : 2 ≤ cfg.metricsBufferSize
  scans : Scans cfg Y lb ub n
  mem : r ∈ cutsBuf cfg.metricsBufferSize cfg.minPartitionSize Y lb ub

theorem Begins.bounds (h : Begins cfg Y lb ub n r) : lb < r ∧ r < ub := by
  obtain ⟨new, hnew, -, hle⟩ := cutsFrom_eq_append (yvalAt Y) lb
    (allowedBuf cfg.metricsBufferSize cfg.minPartitionSize lb ub) (ub - (lb + 1)) (lb + 1) []
  have hmem : r ∈ new := by
    have := h.mem
    rwa [cutsBuf, hnew] at this
  have := hle r hmem
  omega

theorem length_accumulate {prevT prevH : Nat} {bufs : List Cand × Nat}
    (h : accumulate cfg Y lb ub prevT prevH = some bufs) :
    bufs.1.length ≤ cfg.metricsBufferSize := by
  simp only [accumulate] at h
  split at h
  · cases h
  · split at h
    · cases h
    · next hlen =>
        rw [Option.some.injEq] at h
        exact h ▸ not_lt.mp hlen

/-- With a buffer of one entry, nothing is evaluated. -/
theorem evaluated_small (hB : cfg.metricsBufferSize < 2) (h : evaluated cfg Y lb ub n = some l) :
    l = [] := by
  rw [evaluated] at h
  split at h
  · cases h
    rfl
  · split at h
    · cases h
      rfl
    · split at h
      · cases h
      · next hlt =>
          rw [searchJBufs, if_neg (by omega)] at h
          cases hbufs : accumulate cfg Y lb ub 0 0 with
          | none => simp [hbufs] at h
          | some bufs =>
              have hlen := length_accumulate hbufs
              have hone : bufs.1.length ≤ 1 := by omega
              cases hlast : bufs.1.getLast? <;> simp [hbufs, hlast, hone] at h
              exact h

/-- What is evaluated are the candidates, and the entry of all rows. -/
theorem entry_of_evaluated (hub : ub < 2 ^ 32) (h : evaluated cfg Y lb ub n = some l)
    (he : e ∈ l) : ∃ a r, e = entryAt Y lb a r ∧ (Begins cfg Y lb ub n r ∨ r = ub) := by
  by_cases hB : 2 ≤ cfg.metricsBufferSize
  · by_cases hs : Scans cfg Y lb ub n
    · rw [evaluated_eq hB hub hs] at h
      split at h
      · cases h
        cases he
      · cases h
        obtain ⟨a, r, heq, hr⟩ := entryAt_of_mem he
        exact ⟨a, r, heq, hr.imp_left fun hmem => ⟨hB, hs, hmem⟩⟩
    · rw [evaluated_of_not_scans hs] at h
      split at h
      · cases h
        cases he
      · cases h
  · rw [evaluated_small (by omega) h] at he
    cases he

/-- Every candidate is evaluated. -/
theorem Begins.evaluated (h : Begins cfg Y lb ub n r) (hub : ub < 2 ^ 32) :
    ∃ l a, evaluated cfg Y lb ub n = some l ∧ entryAt Y lb a r ∈ l := by
  obtain ⟨a, ha⟩ : ∃ a, entryAt Y lb a r ∈ entries Y lb ub lb _ := mem_entries_of h.mem lb
  exact ⟨_, a, by rw [evaluated_eq h.buffer hub h.scans, if_neg (List.ne_nil_of_mem h.mem)], ha⟩

/-- So a feature that has a candidate has a best one. -/
theorem Begins.searched (h : Begins cfg Y lb ub n r) (hub : ub < 2 ^ 32) :
    ∃ l a best, Dt.evaluated cfg Y lb ub n = some l ∧ entryAt Y lb a r ∈ l ∧
      searchJ R cfg Y lb ub nT nH n = some (some best) := by
  obtain ⟨l, a, hl, ha⟩ := h.evaluated hub
  have hbest : ∃ best, searchJ R cfg Y lb ub nT nH n = some (some best) := by
    rw [searchJ_eq, hl, Option.map_some, if_neg (List.ne_nil_of_mem ha)]
    exact ⟨_, rfl⟩
  obtain ⟨best, hbest⟩ := hbest
  exact ⟨l, a, best, hl, ha, hbest⟩

/-- The largest metric is kept. -/
theorem le_foldl_improveOne : best.metric ≤ (l.foldl (Best.improveOne R nT nH) best).metric ∧
    ∀ c ∈ l, metricOf R nT nH c ≤ (l.foldl (Best.improveOne R nT nH) best).metric := by
  induction l generalizing best with
  | nil => simp
  | cons c l ih =>
      obtain ⟨hbest, hall⟩ := @ih (best.improveOne R nT nH c)
      have hone : best.metric ≤ (best.improveOne R nT nH c).metric ∧
          metricOf R nT nH c ≤ (best.improveOne R nT nH c).metric := by
        rw [Best.improveOne]
        split
        · next hlt => exact ⟨hlt.le, le_refl _⟩
        · next hle => exact ⟨le_refl _, not_lt.mp hle⟩
      rw [List.foldl_cons, List.forall_mem_cons]
      exact ⟨hone.1.trans hbest, hone.2.trans hbest, hall⟩

theorem foldl_improveOne_cases (R : Double) (nT nH : Nat) (l : List Cand) (best : Best) :
    l.foldl (Best.improveOne R nT nH) best = best ∨
    ∃ c ∈ l, l.foldl (Best.improveOne R nT nH) best = Best.of R nT nH c := by
  induction l generalizing best with
  | nil => exact .inl rfl
  | cons c l ih =>
      rw [List.foldl_cons]
      cases @ih (best.improveOne R nT nH c) with
      | inl hkept =>
          rw [hkept, Best.improveOne]
          split
          · exact .inr ⟨c, List.mem_cons_self, rfl⟩
          · exact .inl rfl
      | inr hnew =>
          obtain ⟨d, hd, heq⟩ := hnew
          exact .inr ⟨d, List.mem_cons_of_mem c hd, heq⟩

/-- What `search_j` reports is a candidate, and no other one has a larger metric. -/
theorem searchJ_best (hc : Counted Y lb ub nT nH) (hlb : lb < ub) (hn : ub ≤ n)
    (h : searchJ R cfg Y lb ub nT nH n = some (some b)) :
    (∃ a r, Begins cfg Y lb ub n r ∧ b = Best.of R nT nH (entryAt Y lb a r)) ∧
      ∀ l, evaluated cfg Y lb ub n = some l → ∀ e ∈ l, metricOf R nT nH e ≤ b.metric := by
  have hplaced := searchJ_placed hc hlb hn h
  rw [searchJ_eq] at h
  cases hl : evaluated cfg Y lb ub n with
  | none => simp [hl] at h
  | some l =>
      rw [hl, Option.map_some, Option.some.injEq] at h
      split at h
      · cases h
      · rw [Option.some.injEq] at h
        subst h
        constructor
        · cases foldl_improveOne_cases R nT nH l ⟨-1, 0, 0, 0, 0, 0, 0⟩ with
          | inl hkept =>
              have hgood := hplaced.good
              rw [hkept] at hgood
              exact absurd hgood (lt_irrefl _)
          | inr hnew =>
              obtain ⟨e, he, heq⟩ := hnew
              obtain ⟨a, r, rfl, hr⟩ := entry_of_evaluated hc.lt hl he
              cases hr with
              | inl hbegins => exact ⟨a, r, hbegins, heq⟩
              | inr hend =>
                  obtain ⟨⟨c, hok, hin, hbc⟩, -⟩ := hplaced
                  have hyidx := congrArg Best.yidx (heq.symm.trans hbc)
                  have hsame : (entryAt Y lb a r).yidx = c.yidx := hyidx
                  rw [entryAt] at hsame
                  simp only at hsame
                  omega
        · intro l' hl' e he
          rw [Option.some.injEq] at hl'
          exact le_foldl_improveOne.2 e (hl' ▸ he)

end Feature

section Search

variable {R : Double} {cfg : Config} {Y : Nat → Nat → Nat} {lb ub nT nH n j : Nat}
  {js : List Nat} {found out : Option (Nat × Best)} {b : Best}

/-- Nothing is given up for something smaller. -/
theorem choose_mono {f : Nat × Best} (r : Option Best) (h : found = some f) :
    ∃ f', choose j found r = some f' ∧ f.2.metric ≤ f'.2.metric := by
  subst h
  cases r with
  | none => exact ⟨f, rfl, le_refl _⟩
  | some b =>
      rw [choose]
      by_cases hlt : f.2.metric < b.metric
      · exact ⟨(j, b), if_pos hlt, hlt.le⟩
      · exact ⟨f, if_neg hlt, le_refl _⟩

theorem le_choose (found : Option (Nat × Best)) :
    ∃ f', choose j found (some b) = some f' ∧ b.metric ≤ f'.2.metric := by
  cases found with
  | none => exact ⟨(j, b), rfl, le_refl _⟩
  | some f =>
      rw [choose]
      by_cases hlt : f.2.metric < b.metric
      · exact ⟨(j, b), if_pos hlt, le_refl _⟩
      · exact ⟨f, if_neg hlt, not_lt.mp hlt⟩

/-- The largest metric of all features is kept. -/
theorem searchAll_best (h : searchAll R cfg Y lb ub nT nH n js found = some out) :
    (∀ f, found = some f → ∃ f', out = some f' ∧ f.2.metric ≤ f'.2.metric) ∧
      ∀ j ∈ js, ∀ b, searchJ R cfg (Y j) lb ub nT nH n = some (some b) →
        ∃ f', out = some f' ∧ b.metric ≤ f'.2.metric := by
  induction js generalizing found with
  | nil =>
      rw [searchAll, Option.some.injEq] at h
      exact ⟨fun f hf => ⟨f, h ▸ hf, le_refl _⟩, by simp⟩
  | cons j js ih =>
      rw [searchAll, Option.bind_eq_some_iff] at h
      obtain ⟨r, hr, h⟩ := h
      obtain ⟨hkept, hrest⟩ := ih h
      constructor
      · intro f hf
        obtain ⟨f', hf', hle⟩ := choose_mono (j := j) r hf
        obtain ⟨f'', hf'', hle'⟩ := hkept f' hf'
        exact ⟨f'', hf'', hle.trans hle'⟩
      · intro i hi b hb
        cases List.mem_cons.mp hi with
        | inl heq =>
            rw [heq, hr, Option.some.injEq] at hb
            subst hb
            obtain ⟨f', hf', hle⟩ := le_choose (j := j) (b := b) found
            obtain ⟨f'', hf'', hle'⟩ := hkept f' hf'
            exact ⟨f'', hf'', hle.trans hle'⟩
        | inr hmem => exact hrest i hmem b hb

end Search

/-! ## at a node -/

/-- A boundary between two values, with enough rows on both sides. -/
structure Admissible (cfg : Config) (Y : Nat → Nat) (lb ub r : Nat) : Prop where
  lb_lt : lb < r
  lt_ub : r < ub
  untied : getYval (Y (r - 1)) ≠ getYval (Y r)
  left : cfg.minPartitionSize ≤ r - lb
  right : cfg.minPartitionSize ≤ ub - r

/-- The split is as good as any, and is reported with its counts. -/
structure BestSplit (cfg : Config) (m : Nat) (c : Call) (s : St) (b : Split) : Prop where
  best : ∀ j < m, ∀ r, Admissible cfg (s.Y j) c.lb c.ub r →
    splitGini (s.Y b.feature) c.lb c.ub b.yidx ≤ splitGini (s.Y j) c.lb c.ub r
  nTL : b.nTL = tails (seg (s.Y b.feature) c.lb b.yidx)
  nHL : b.nHL = heads (seg (s.Y b.feature) c.lb b.yidx)
  nTR : b.nTR = tails (seg (s.Y b.feature) b.yidx c.ub)
  nHR : b.nHR = heads (seg (s.Y b.feature) b.yidx c.ub)

/-- No candidate that is placed is worse than an admissible split. -/
def NoneWorse (cfg : Config) (n m : Nat) (c : Call) (s : St) : Prop :=
  ∀ j < m, ∀ r, Begins cfg (s.Y j) c.lb c.ub n r →
    ∀ k < m, ∀ r', Admissible cfg (s.Y k) c.lb c.ub r' →
      splitGini (s.Y j) c.lb c.ub r ≤ splitGini (s.Y k) c.lb c.ub r'

section Node

variable {V : Type} [LinearOrder V] {D : DataSet V} {cfg : Config} {R : Double} {c : Call}
  {s : St} {b : Split} {j r : Nat}

theorem Begins.metric (h : Begins cfg (s.Y j) c.lb c.ub D.n r)
    (hc : Counted (s.Y j) c.lb c.ub c.nT c.nH) (a : Nat) :
    metricOf (Rounding.exact 53) c.nT c.nH (entryAt (s.Y j) c.lb a r) =
      splitGini (s.Y j) c.lb c.ub r :=
  metricOf_exact hc h.bounds.1.le h.bounds.2

/-- A node with a candidate is split. -/
theorem CallInv.finds_of_begins (h : CallInv D c s) (hd : cfg.isDebug = false)
    (hs : (Env.of D R cfg).stops c s = false) (hj : j < D.m)
    (hb : Begins cfg (s.Y j) c.lb c.ub D.n r) :
    ∃ b, (Env.of D R cfg).finds c s = some (some b) := by
  have hc : ∀ k < D.m, Counted (s.Y k) c.lb c.ub c.nT c.nH := fun k hk =>
    h.counted (not_stops hs).2.2.2 hk
  have hpos : 0 < cfg.metricsBufferSize := Nat.zero_lt_two.trans_le hb.buffer
  obtain ⟨out, hout⟩ := search_total (R := R) hd hpos hc h.lb_lt h.ub_le
  have hfinds : (Env.of D R cfg).finds c s = some out := (finds_eq hd hs).trans hout
  obtain ⟨l, a, best, -, -, hbest⟩ := hb.searched (hc j hj).lt
  rw [search_eq hd, Option.map_eq_some_iff] at hout
  obtain ⟨found, hfound, heq⟩ := hout
  obtain ⟨f, hf, -⟩ := (searchAll_best hfound).2 j (List.mem_range.mpr hj) best hbest
  exact ⟨Split.of f, by rw [hfinds, ← heq, hf, Option.map_some]⟩

/-- **The worst candidate wins.** -/
theorem CallInv.worst (h : CallInv D c s) (hd : cfg.isDebug = false)
    (hf : (Env.of D (Rounding.exact 53) cfg).finds c s = some (some b)) :
    Begins cfg (s.Y b.feature) c.lb c.ub D.n b.yidx ∧
      ∀ j < D.m, ∀ r, Begins cfg (s.Y j) c.lb c.ub D.n r →
        splitGini (s.Y j) c.lb c.ub r ≤ splitGini (s.Y b.feature) c.lb c.ub b.yidx := by
  have hs := stops_of_finds hf
  have hc : ∀ k < D.m, Counted (s.Y k) c.lb c.ub c.nT c.nH := fun k hk =>
    h.counted (not_stops hs).2.2.2 hk
  rw [finds_eq hd hs] at hf
  have hsearch : search (Rounding.exact 53) cfg s.Y c.lb c.ub c.nT c.nH D.n D.m =
    some (some b) := hf
  rw [search_eq hd, Option.map_eq_some_iff] at hsearch
  obtain ⟨found, hfound, heq⟩ := hsearch
  obtain ⟨f, rfl, rfl⟩ := Option.map_eq_some_iff.mp heq
  obtain ⟨-, hall⟩ := searchAll_best hfound
  cases searchAll_found hfound with
  | inl hnone => cases hnone
  | inr hsome =>
      obtain ⟨f', hf', hmem, hrun⟩ := hsome
      obtain rfl := Option.some.inj hf'
      have hj := List.mem_range.mp hmem
      obtain ⟨⟨a, r, hbegins, hbest⟩, -⟩ := searchJ_best (hc _ hj) h.lb_lt h.ub_le hrun
      have hr : (Split.of f).yidx = r := by
        have hlt := hbegins.bounds.1
        simp only [Split.of, hbest, Best.of, entryAt]
        omega
      have hmetric : f.2.metric = splitGini (s.Y f.1) c.lb c.ub r := by
        rw [hbest]
        exact hbegins.metric (hc _ hj) a
      rw [hr]
      refine ⟨hbegins, ?_⟩
      intro k hk r' hr'
      obtain ⟨l, a', best, hl, ha', hbest'⟩ := hr'.searched (hc k hk).lt
      have hle := (searchJ_best (hc k hk) h.lb_lt h.ub_le hbest').2 l hl _ ha'
      obtain ⟨f'', hf'', hle'⟩ := hall k (List.mem_range.mpr hk) best hbest'
      cases hf''
      rw [hr'.metric (hc k hk) a'] at hle
      exact hmetric ▸ hle.trans hle'

/-- The split of a node is the best one when no candidate is worse than that. -/
theorem CallInv.bestSplit_iff (h : CallInv D c s) (hd : cfg.isDebug = false)
    (hf : (Env.of D (Rounding.exact 53) cfg).finds c s = some (some b)) :
    BestSplit cfg D.m c s b ↔ NoneWorse cfg D.n D.m c s := by
  obtain ⟨hbegins, hworst⟩ := h.worst hd hf
  have hp := h.placed hd hf
  constructor
  · intro hbest j hj r hr k hk r' hr'
    exact (hworst j hj r hr).trans (hbest.best k hk r' hr')
  · intro hnone
    exact ⟨hnone b.feature hp.feature_lt b.yidx hbegins, hp.nTL, hp.nHL, hp.nTR, hp.nHR⟩

end Node

/-! ## in a run -/

section Run

variable {V : Type} [LinearOrder V]

/-- In exact arithmetic, every split of the run is the best one. -/
def BestSplitRun (D : DataSet V) (qs : Qsort V) (cfg : Config) (junk tmpY : Nat → Nat → Nat) :
    Prop :=
  ∀ p root, preproc D qs cfg junk = some p →
    (Env.of D (Rounding.exact 53) cfg).root p tmpY = some root →
    ∀ x ∈ preorder ((Env.of D (Rounding.exact 53) cfg).calls cfg.maxDepth root.1 root.2),
      ∀ b, (Env.of D (Rounding.exact 53) cfg).finds x.1 x.2 = some (some b) →
        BestSplit cfg D.m x.1 x.2 b

/-- **When all splits are best**: at no node that is searched a candidate is worse than an
admissible split. -/
theorem bestSplits_iff (D : DataSet V) (qs : Qsort V) (cfg : Config)
    (junk tmpY : Nat → Nat → Nat) :
    BestSplitRun D qs cfg junk tmpY ↔
      ∀ p root, preproc D qs cfg junk = some p →
        (Env.of D (Rounding.exact 53) cfg).root p tmpY = some root →
        ∀ x ∈ preorder ((Env.of D (Rounding.exact 53) cfg).calls cfg.maxDepth root.1 root.2),
          (Env.of D (Rounding.exact 53) cfg).stops x.1 x.2 = false →
          NoneWorse cfg D.n D.m x.1 x.2 := by
  constructor
  · intro h p root hp hroot x hx hs j hj r hr
    have hd := isDebug_of_preproc hp
    have hinv := calls_inv hd (root_inv hd hp hroot) x hx
    obtain ⟨b, hf⟩ := hinv.finds_of_begins hd hs hj hr
    exact (hinv.bestSplit_iff hd hf).mp (h p root hp hroot x hx b hf) j hj r hr
  · intro h p root hp hroot x hx b hf
    have hd := isDebug_of_preproc hp
    have hinv := calls_inv hd (root_inv hd hp hroot) x hx
    exact (hinv.bestSplit_iff hd hf).mpr (h p root hp hroot x hx (stops_of_finds hf))

end Run

/-! ## three rows -/

/-- The values 1, 2, 3 with the classes 0, 1, 1. -/
def threeRows : DataSet Nat where
  n := 3
  m := 1
  X _ i := i + 1
  g i := if i = 0 then 0 else 1
  n_pos := Nat.succ_pos 2
  n_lt := by decide
  m_pos := Nat.one_pos
  g_le i _ := by grind
  values_lt _ _ := Finset.card_image_le.trans_lt (by simp)

def threeRowsConfig : Config where
  isDebug := false
  maxDepth := 1
  minLeafSize := 1
  metricsBufferSize := 8
  minPartitionSize := 1
  maxNodesInTree := 8

/-- One class is apart from the other, and yet the rows are split behind the second. -/
theorem bestSplits_fails :
    ¬ BestSplitRun threeRows (Qsort.insertion Nat) threeRowsConfig (fun _ _ => 0)
      (fun _ _ => 0) := by
  intro h
  have hrun : ((preproc threeRows (Qsort.insertion Nat) threeRowsConfig fun _ _ => 0).bind fun p =>
      ((Env.of threeRows (Rounding.exact 53) threeRowsConfig).root p fun _ _ => 0).bind fun root =>
        ((Env.of threeRows (Rounding.exact 53) threeRowsConfig).finds root.1 root.2).bind fun found =>
          found.map fun b => ((root.1.lb, root.1.ub), (b.feature, b.yidx),
            (splitGini (root.2.Y 0) 0 3 2, splitGini (root.2.Y 0) 0 3 1),
            (getYval (root.2.Y 0 0), getYval (root.2.Y 0 1)))) =
      some ((0, 3), (0, 2), (1 / 3, 0), (1, 2)) := by decide +kernel
  simp only [Option.bind_eq_some_iff, Option.map_eq_some_iff, Prod.mk.injEq] at hrun
  obtain ⟨p, hp, root, hroot, found, hf, b, rfl, ⟨hlb, hub⟩, ⟨hfeature, hyidx⟩, ⟨h2, h1⟩, hv0, hv1⟩ :=
    hrun
  have hmem : root ∈ preorder ((Env.of threeRows (Rounding.exact 53) threeRowsConfig).calls
      threeRowsConfig.maxDepth root.1 root.2) := by
    rw [show threeRowsConfig.maxDepth = 0 + 1 from rfl, Env.calls, hf]
    simp
  have hbest := h p root hp hroot root hmem b hf
  have hadmissible : Admissible threeRowsConfig (root.2.Y 0) root.1.lb root.1.ub 1 := by
    rw [hlb, hub]
    constructor
    · exact Nat.zero_lt_one
    · exact Nat.lt_of_sub_ne_zero (by simp)
    · simp only [Nat.sub_self, hv0, hv1]
      simp
    · exact le_refl 1
    · exact Nat.le_succ 1
  have hle := hbest.best 0 Nat.zero_lt_one 1 hadmissible
  rw [hlb, hub, hfeature, hyidx, h1, h2] at hle
  norm_num at hle

end QStore.Dt
