import QStore.Dt.Placed
import QStore.Lib.Cuts

/-!
# QStore.Dt.Buffered

The buffer of `search_j`. When it is full the candidates in it are evaluated, and
`accumulate` is called again for the rows from there on, with the class counts so far. It
takes these counts for rows of its own interval:

```
left_to_consume = (ub-lb) - consumed_so_far        lb has moved, consumed_so_far has not
```

so after a refill the number of rows left is too small by the rows before it, or wraps.
What the candidates of a run are is told by the rows at which they begin (`Cuts`).
-/

namespace QStore.Dt

/-! ## the candidates that are evaluated -/

section Model

variable (cfg : Config)

/-- The buffers that `searchJLoop` evaluates. -/
def searchJBufs (Yj : Nat → Nat) (ub : Nat) :
    (fuel lb prevT prevH : Nat) → (iter0 : Bool) → Option (List (List Cand))
  | 0, _, _, _, _ => none
  | k + 1, lb, prevT, prevH, iter0 =>
    if ub ≤ lb then some []
    else
      (accumulate cfg Yj lb ub prevT prevH).bind fun r =>
        match r.1.getLast? with
        | none => none
        | some last =>
          if iter0 ∧ r.1.length ≤ 1 then some []
          else if r.1.length < cfg.metricsBufferSize then some [r.1]
          else (searchJBufs Yj ub k r.2 last.nT last.nH false).map (r.1 :: ·)

/-- The entries that `search_j` evaluates. -/
def evaluated (Yj : Nat → Nat) (lb ub n : Nat) : Option (List Cand) :=
  if ub - lb ≤ cfg.minLeafSize then some []
  else if Yj lb = Yj (ub - 1) then some []
  else if ub ≤ lb ∨ n < ub then none
  else (searchJBufs cfg Yj ub (ub - lb + 1) lb 0 0 true).map List.flatten

end Model

/-! ## evaluating in parts -/

section

variable {R : Double} {cfg : Config} {Yj : Nat → Nat} {lb ub nT nH n : Nat}

/-- One entry against the best so far. -/
def Best.improveOne (R : Double) (nT nH : Nat) (best : Best) (c : Cand) : Best :=
  if best.metric < metricOf R nT nH c then Best.of R nT nH c else best

/-- The best of a buffer, then against the best so far: the entries one by one. -/
theorem improve_eq_foldl (best : Best) (buf : List Cand) :
    best.improve R nT nH buf = buf.foldl (Best.improveOne R nT nH) best := by
  induction buf using List.reverseRecOn with
  | nil => rfl
  | append_singleton buf c ih =>
      rw [List.foldl_append, List.foldl_cons, List.foldl_nil, ← ih, Best.improve, Best.improve,
        calcBestMetric, calcBestMetric, List.argmax_concat]
      cases List.argmax (metricOf R nT nH) buf with
      | none => rfl
      | some c' =>
          have hmetric : (Best.of R nT nH c').metric = metricOf R nT nH c' := rfl
          by_cases hgt : metricOf R nT nH c' < metricOf R nT nH c
          · -- `c` beats the best of the buffer, so only what was kept before can stop it
            by_cases hb : best.metric < metricOf R nT nH c'
            · simp only [Best.improveOne, hgt, hb, hb.trans hgt, hmetric, if_true]
            · simp only [Best.improveOne, hgt, hb, if_true, if_false]
          · by_cases hb : best.metric < metricOf R nT nH c'
            · simp only [Best.improveOne, hgt, hb, hmetric, if_true, if_false]
            · have hc : ¬ best.metric < metricOf R nT nH c := fun h =>
                hgt ((not_lt.mp hb).trans_lt h)
              simp only [Best.improveOne, hgt, hb, hc, if_false]

/-- **The search is decided by the entries that are evaluated.** -/
theorem searchJLoop_eq (fuel lb prevT prevH : Nat) (best : Best) :
    searchJLoop R cfg Yj ub nT nH fuel lb prevT prevH false best =
      (searchJBufs cfg Yj ub fuel lb prevT prevH false).map fun bufs =>
        some (bufs.flatten.foldl (Best.improveOne R nT nH) best) := by
  induction fuel generalizing lb prevT prevH best with
  | zero => rfl
  | succ fuel ih =>
      rw [searchJLoop, searchJBufs]
      split
      · rfl
      · cases accumulate cfg Yj lb ub prevT prevH with
        | none => rfl
        | some r =>
            simp only [Option.bind_some]
            cases r.1.getLast? with
            | none => rfl
            | some last =>
                simp only [Bool.false_eq_true, false_and, if_false]
                split
                · simp [improve_eq_foldl]
                · rw [ih, Option.map_map, improve_eq_foldl]
                  congr 1
                  funext bufs
                  simp

/-- The first round may find that the interval cannot be split. -/
theorem searchJLoop_eq_iter0 (fuel lb prevT prevH : Nat) (best : Best) (hlb : lb < ub) :
    searchJLoop R cfg Yj ub nT nH fuel lb prevT prevH true best =
      (searchJBufs cfg Yj ub fuel lb prevT prevH true).map fun bufs =>
        if bufs.flatten = [] then none
        else some (bufs.flatten.foldl (Best.improveOne R nT nH) best) := by
  cases fuel with
  | zero => rfl
  | succ fuel =>
      rw [searchJLoop, searchJBufs, if_neg (not_le.mpr hlb), if_neg (not_le.mpr hlb)]
      cases accumulate cfg Yj lb ub prevT prevH with
      | none => rfl
      | some r =>
          simp only [Option.bind_some]
          cases hlast : r.1.getLast? with
          | none => rfl
          | some last =>
              have hne : r.1 ≠ [] := fun hnil => by simp [hnil] at hlast
              simp only [true_and]
              split
              · rfl
              · split
                · simp [improve_eq_foldl, hne]
                · rw [searchJLoop_eq, Option.map_map, improve_eq_foldl]
                  congr 1
                  funext bufs
                  simp [hne]

theorem searchJ_eq : searchJ R cfg Yj lb ub nT nH n =
    (evaluated cfg Yj lb ub n).map fun l =>
      if l = [] then none
      else some (l.foldl (Best.improveOne R nT nH) ⟨-1, 0, 0, 0, 0, 0, 0⟩) := by
  rw [searchJ, evaluated]
  split
  · rfl
  · split
    · rfl
    · split
      · rfl
      · next h =>
          rw [searchJLoop_eq_iter0 _ _ _ _ _ (by omega), Option.map_map]
          rfl

/-! ## the rows at which candidates begin -/

/-- `yval` of a row. -/
def yvalAt (Yj : Nat → Nat) (r : Nat) : Nat := getYval (Yj r)

/-- Enough rows before row `r` and from it on. -/
def allowed (p lb ub : Nat) (_ : List Nat) (r : Nat) : Bool :=
  decide (p ≤ r - lb ∧ p ≤ ub - r)

/-- Where `accumulate` was called last, when the candidates have begun at `past`. -/
def refill (B lb : Nat) (past : List Nat) : Nat :=
  if past.length < B then lb else past.getD (past.length / B * B - 1) lb

/-- The test with `left_to_consume` as it is computed. -/
def allowedBuf (B p lb ub : Nat) (past : List Nat) (r : Nat) : Bool :=
  decide (p ≤ r - lb ∧ p ≤ sub32 (ub - r) (refill B lb past - lb))

/-- The rows at which a candidate should begin. -/
def cuts (p : Nat) (Yj : Nat → Nat) (lb ub : Nat) : List Nat :=
  cutsFrom (yvalAt Yj) lb (allowed p lb ub) (ub - (lb + 1)) (lb + 1) []

/-- The rows at which one begins. -/
def cutsBuf (B p : Nat) (Yj : Nat → Nat) (lb ub : Nat) : List Nat :=
  cutsFrom (yvalAt Yj) lb (allowedBuf B p lb ub) (ub - (lb + 1)) (lb + 1) []

/-- The entry for rows `a`, .., `b - 1`; its counts start at row `lb`. -/
def entryAt (Yj : Nat → Nat) (lb a b : Nat) : Cand :=
  ⟨b - 1, yvalAt Yj a, tails (seg Yj lb b), heads (seg Yj lb b)⟩

/-- The entries that begin at row `a` and at the rows behind it, up to row `stop`. -/
def entries (Yj : Nat → Nat) (lb stop : Nat) : (a : Nat) → List Nat → List Cand
  | a, [] => [entryAt Yj lb a stop]
  | a, c :: cs => entryAt Yj lb a c :: entries Yj lb stop c cs

theorem length_entries {a stop : Nat} {cs : List Nat} :
    (entries Yj lb stop a cs).length = cs.length + 1 := by
  induction cs generalizing a with
  | nil => rfl
  | cons c cs ih => rw [entries, List.length_cons, ih, List.length_cons]

theorem entries_append {a c stop : Nat} {cs cs' : List Nat} :
    entries Yj lb stop a (cs ++ c :: cs') =
      entries Yj lb c a cs ++ entries Yj lb stop c cs' := by
  induction cs generalizing a with
  | nil => rfl
  | cons d cs ih => rw [List.cons_append, entries, entries, ih, List.cons_append]

/-- Other rows give other entries. -/
theorem entries_inj {a stop : Nat} {cs cs' : List Nat} (h : ∀ c ∈ cs, 0 < c)
    (h' : ∀ c ∈ cs', 0 < c) (heq : entries Yj lb stop a cs = entries Yj lb stop a cs') :
    cs = cs' := by
  induction cs generalizing a cs' with
  | nil =>
      have hlen := congrArg List.length heq
      rw [length_entries, length_entries] at hlen
      exact (List.length_eq_zero_iff.mp (by simpa using hlen.symm)).symm
  | cons c cs ih =>
      cases cs' with
      | nil =>
          have hlen := congrArg List.length heq
          rw [length_entries, length_entries] at hlen
          simp at hlen
      | cons c' cs' =>
          rw [entries, entries, List.cons.injEq] at heq
          have hyidx := congrArg Cand.yidx heq.1
          have hc := h c List.mem_cons_self
          have hc' := h' c' List.mem_cons_self
          simp only [entryAt] at hyidx
          obtain rfl : c = c' := by omega
          rw [ih (fun d hd => h d (List.mem_cons_of_mem _ hd))
            (fun d hd => h' d (List.mem_cons_of_mem _ hd)) heq.2]

/-! ## one call of `accumulate` -/

variable {i k a c B p : Nat} {past done : List Nat}

/-- A row joins an entry. -/
theorem put_entryAt (Yj : Nat → Nat) (a y : Nat) (hi : lb ≤ i) :
    Cand.put ⟨y, yvalAt Yj a, tails (seg Yj lb i), heads (seg Yj lb i)⟩ i (Yj i) =
      entryAt Yj lb a (i + 1) := by
  rw [Cand.put, entryAt, seg_succ hi, tails_append, heads_append, tails_singleton, heads_singleton]
  split <;> simp

theorem sub32_one {d : Nat} (hi : i < ub) (hub : ub < 2 ^ 32) (hd : d ≤ ub) :
    sub32 (sub32 (ub - i) d) 1 = sub32 (ub - (i + 1)) d := by
  simp only [sub32]
  omega

/-- Within a buffer the call stays the same. -/
theorem refill_append (h : past.length % B + 1 < B) :
    refill B lb (past ++ [c]) = refill B lb past := by
  have hB : 0 < B := by omega
  have hdm := Nat.div_add_mod past.length B
  rw [Nat.mul_comm] at hdm
  have hdiv : (past.length + 1) / B = past.length / B :=
    Nat.div_eq_of_lt_le (by omega) (by rw [Nat.add_mul]; omega)
  rw [refill, refill, List.length_append, List.length_singleton, hdiv]
  by_cases hlt : past.length < B
  · rw [Nat.mod_eq_of_lt hlt] at h
    rw [if_pos h, if_pos hlt]
  · have hq : 1 ≤ past.length / B := (Nat.le_div_iff_mul_le hB).mpr (by omega)
    have hle : past.length / B * B ≤ past.length := Nat.div_mul_le_self _ _
    have hpos : B ≤ past.length / B * B := Nat.le_mul_of_pos_left B hq
    rw [if_neg (by omega), if_neg hlt, List.getD_append _ _ _ _ (by omega)]

theorem succ_eq_of_full {n : Nat} (h : n % B + 1 = B) : n + 1 = (n / B + 1) * B := by
  have hdm := Nat.div_add_mod n B
  rw [Nat.add_mul, Nat.mul_comm (n / B)]
  omega

theorem succ_mod_of_room {n : Nat} (h : n % B + 1 < B) : (n + 1) % B = n % B + 1 := by
  rw [Nat.add_mod, Nat.mod_eq_of_lt (by omega : 1 < B), Nat.mod_eq_of_lt h]

/-- With the next candidate the next call begins. -/
theorem refill_append_full (h : past.length % B + 1 = B) :
    refill B lb (past ++ [c]) = c := by
  have hB : 0 < B := by omega
  have hlen := succ_eq_of_full h
  have hle : B ≤ (past.length / B + 1) * B := Nat.le_mul_of_pos_left B (Nat.succ_pos _)
  rw [refill, List.length_append, List.length_singleton, if_neg (by omega), hlen,
    Nat.mul_div_cancel _ hB, ← hlen, Nat.add_sub_cancel]
  simp

/-- How a call of `accumulate` ends: with all rows, or at the row that finds no space. -/
inductive Stops (p B : Nat) (Yj : Nat → Nat) (lb ub : Nat) (k i a : Nat) (past : List Nat)
    (done : List Cand) : List Cand × Nat → Prop where
  | all (mid : List Nat)
      (hcuts : cutsFrom (yvalAt Yj) lb (allowedBuf B p lb ub) k i past = past ++ mid)
      (hlen : done.length + mid.length + 1 ≤ B) :
      Stops p B Yj lb ub k i a past done (done.reverse ++ entries Yj lb ub a mid, ub)
  | full (mid : List Nat) (s : Nat) (hi : i ≤ s) (hs : s < ub)
      (hcuts : cutsFrom (yvalAt Yj) lb (allowedBuf B p lb ub) k i past =
        cutsFrom (yvalAt Yj) lb (allowedBuf B p lb ub) (ub - (s + 1)) (s + 1) (past ++ mid ++ [s]))
      (hlen : done.length + mid.length + 1 = B) (hmod : (past ++ mid ++ [s]).length % B = 0)
      (hrefill : refill B lb (past ++ mid ++ [s]) = s) :
      Stops p B Yj lb ub k i a past done (done.reverse ++ entries Yj lb s a mid, s)

theorem lastCut_append : lastCut lb (past ++ [c]) = c := by
  simp [lastCut]

theorem Stops.skip {done : List Cand} {r : List Cand × Nat}
    (hskip : cutsFrom (yvalAt Yj) lb (allowedBuf B p lb ub) (k + 1) i past =
      cutsFrom (yvalAt Yj) lb (allowedBuf B p lb ub) k (i + 1) past)
    (h : Stops p B Yj lb ub k (i + 1) a past done r) :
    Stops p B Yj lb ub (k + 1) i a past done r := by
  cases h with
  | all mid hcuts hlen => exact .all mid (hskip.trans hcuts) hlen
  | full mid s hi hs hcuts hlen hmod hrefill =>
      exact .full mid s (by omega) hs (hskip.trans hcuts) hlen hmod hrefill

theorem Stops.cut {done : List Cand} {r : List Cand × Nat}
    (hcut : cutsFrom (yvalAt Yj) lb (allowedBuf B p lb ub) (k + 1) i past =
      cutsFrom (yvalAt Yj) lb (allowedBuf B p lb ub) k (i + 1) (past ++ [i]))
    (h : Stops p B Yj lb ub k (i + 1) i (past ++ [i]) (entryAt Yj lb a i :: done) r) :
    Stops p B Yj lb ub (k + 1) i a past done r := by
  have hassoc : ∀ mid : List Nat, past ++ [i] ++ mid = past ++ (i :: mid) := fun mid => by simp
  have hentries : ∀ stop mid, (entryAt Yj lb a i :: done).reverse ++ entries Yj lb stop i mid =
      done.reverse ++ entries Yj lb stop a (i :: mid) := fun stop mid => by simp [entries]
  cases h with
  | all mid hcuts hlen =>
      rw [hentries]
      rw [hassoc] at hcuts
      exact .all (i :: mid) (hcut.trans hcuts) (by simp only [List.length_cons] at hlen ⊢; omega)
  | full mid s hi hs hcuts hlen hmod hrefill =>
      rw [hentries]
      rw [hassoc] at hcuts hmod hrefill
      exact .full (i :: mid) s (by omega) hs (hcut.trans hcuts)
        (by simp only [List.length_cons] at hlen ⊢; omega) hmod hrefill

theorem accumulateFrom_stops (cfg : Config) (Yj : Nat → Nat) {done : List Cand}
    (hk : i + k = ub) (hub : ub < 2 ^ 32) (hlb : lb < i) (ha : lastCut lb past = a)
    (hdone : done.length = past.length % cfg.metricsBufferSize)
    (hB : done.length + 1 ≤ cfg.metricsBufferSize)
    (hrefill : refill cfg.metricsBufferSize lb past ≤ ub) :
    Stops cfg.minPartitionSize cfg.metricsBufferSize Yj lb ub k i a past done
      (accumulateFrom cfg Yj ub k i (yvalAt Yj a) (i - lb)
        (sub32 (ub - i) (refill cfg.metricsBufferSize lb past - lb)) (entryAt Yj lb a i) done) := by
  induction k generalizing i a past done with
  | zero =>
      have hend : done.reverse ++ entries Yj lb ub a [] = (entryAt Yj lb a ub :: done).reverse := by
        simp [entries]
      obtain rfl : i = ub := by omega
      rw [accumulateFrom, ← hend]
      exact .all [] (by simp [cutsFrom]) (by simpa using hB)
  | succ k ih =>
      have hleft := sub32_one (d := refill cfg.metricsBufferSize lb past - lb) (i := i) (by omega) hub
        (by omega)
      have hcons : i - lb + 1 = i + 1 - lb := by omega
      have htest : (yvalAt Yj i ≠ yvalAt Yj (lastCut lb past) ∧
          allowedBuf cfg.metricsBufferSize cfg.minPartitionSize lb ub past i = true) ↔
          getYval (Yj i) ≠ yvalAt Yj a ∧ cfg.minPartitionSize ≤ i - lb ∧ cfg.minPartitionSize ≤
            sub32 (ub - i) (refill cfg.metricsBufferSize lb past - lb) := by
        rw [ha, allowedBuf, decide_eq_true_eq]
        rfl
      rw [accumulateFrom]
      split
      · next hcut =>
          have hcuts : cutsFrom (yvalAt Yj) lb
              (allowedBuf cfg.metricsBufferSize cfg.minPartitionSize lb ub) (k + 1) i past =
              cutsFrom (yvalAt Yj) lb (allowedBuf cfg.metricsBufferSize cfg.minPartitionSize lb ub)
                k (i + 1) (past ++ [i]) := by
            rw [cutsFrom, if_pos (htest.mpr hcut)]
          split
          · next hfull =>
              have hend : done.reverse ++ entries Yj lb i a [] =
                  (entryAt Yj lb a i :: done).reverse := by
                simp [entries]
              have hsub : ub - (i + 1) = k := by omega
              rw [hdone] at hfull
              rw [← hend]
              refine .full [] i (Nat.le_refl i) (by omega) ?_ (by rw [hdone]; simpa using hfull) ?_ ?_
              · rw [hcuts, hsub, List.append_nil]
              · rw [List.append_nil, List.length_append, List.length_singleton,
                  succ_eq_of_full hfull, Nat.mul_mod_left]
              · rw [List.append_nil]
                exact refill_append_full hfull
          · next hroom =>
              have hput := put_entryAt Yj i i hlb.le
              have hnext : refill cfg.metricsBufferSize lb (past ++ [i]) =
                  refill cfg.metricsBufferSize lb past := refill_append (by omega)
              have hlen : (entryAt Yj lb a i :: done).length =
                  (past ++ [i]).length % cfg.metricsBufferSize := by
                rw [List.length_cons, List.length_append, List.length_singleton,
                  succ_mod_of_room (by omega), hdone]
              have hrec := ih (by omega : i + 1 + k = ub) (by omega) lastCut_append hlen
                (by rw [List.length_cons]; omega) (by omega)
              rw [hnext, ← hleft, ← hcons, ← hput] at hrec
              exact Stops.cut hcuts hrec
      · next hskip =>
          have hput := put_entryAt Yj a (i - 1) hlb.le
          have hrec := ih (i := i + 1) (by omega) (by omega) ha hdone hB hrefill
          rw [← hleft, ← hcons, ← hput] at hrec
          refine Stops.skip ?_ hrec
          rw [cutsFrom, if_neg (mt htest.mp hskip)]

/-! ## the whole search -/

theorem Stops.length {s : Nat} {r : List Cand × Nat} (h : Stops p B Yj lb ub k i s past [] r) :
    r.1.length ≤ B := by
  cases h with
  | all mid hcuts hlen =>
      simp only [List.length_append, List.length_reverse, List.length_nil, length_entries] at hlen ⊢
      omega
  | full mid s hi hs hcuts hlen hmod hrefill =>
      simp only [List.length_append, List.length_reverse, List.length_nil, length_entries] at hlen ⊢
      omega

theorem getLast_entries (Yj : Nat → Nat) (lb stop a : Nat) (cs : List Nat) :
    ∃ a', (entries Yj lb stop a cs).getLast? = some (entryAt Yj lb a' stop) := by
  induction cs generalizing a with
  | nil => exact ⟨a, rfl⟩
  | cons c cs ih =>
      obtain ⟨a', ha'⟩ := ih c
      exact ⟨a', by rw [entries, List.getLast?_cons, ha']; rfl⟩

/-- A call at row `s`, with the counts of the rows before. -/
theorem accumulate_stops (cfg : Config) (Yj : Nat → Nat) {s : Nat}
    (hB : 0 < cfg.metricsBufferSize) (hub : ub < 2 ^ 32) (hlb : lb ≤ s) (hs : s < ub)
    (hlast : lastCut lb past = s)
    (hmod : past.length % cfg.metricsBufferSize = 0)
    (hrefill : refill cfg.metricsBufferSize lb past = s) :
    ∃ r, accumulate cfg Yj s ub (tails (seg Yj lb s)) (heads (seg Yj lb s)) = some r ∧
      Stops cfg.minPartitionSize cfg.metricsBufferSize Yj lb ub (ub - (s + 1)) (s + 1) s past [] r := by
  have hsum : tails (seg Yj lb s) + heads (seg Yj lb s) = s - lb := by
    rw [tails_add_heads, length_seg]
  have hfirst := put_entryAt Yj s s hlb
  have hleft := sub32_one (d := s - lb) hs hub (by omega)
  have hcons : s - lb + 1 = s + 1 - lb := by omega
  have hnone : ([] : List Cand).length = past.length % cfg.metricsBufferSize := hmod.symm
  have hstop := accumulateFrom_stops cfg Yj (by omega : s + 1 + (ub - (s + 1)) = ub) hub (by omega)
    hlast hnone hB (by omega)
  rw [hrefill, ← hleft, ← hcons, ← hfirst] at hstop
  refine ⟨_, ?_, hstop⟩
  rw [accumulate, if_neg hB.ne', hsum]
  exact if_neg (not_lt.mpr hstop.length)

/-- **All calls from row `s` on** evaluate the entries that begin there and behind. -/
theorem searchJBufs_spec (cfg : Config) (Yj : Nat → Nat) {s : Nat} (fuel : Nat)
    (hB : 0 < cfg.metricsBufferSize) (hub : ub < 2 ^ 32) (hlb : lb ≤ s) (hs : s < ub)
    (hlast : lastCut lb past = s)
    (hmod : past.length % cfg.metricsBufferSize = 0)
    (hrefill : refill cfg.metricsBufferSize lb past = s) (hfuel : ub - s < fuel) :
    ∃ bufs new, searchJBufs cfg Yj ub fuel s (tails (seg Yj lb s)) (heads (seg Yj lb s)) false =
        some bufs ∧ bufs.flatten = entries Yj lb ub s new ∧
      cutsFrom (yvalAt Yj) lb (allowedBuf cfg.metricsBufferSize cfg.minPartitionSize lb ub)
        (ub - (s + 1)) (s + 1) past = past ++ new := by
  induction fuel generalizing s past with
  | zero => omega
  | succ fuel ih =>
      obtain ⟨r, hr, hstop⟩ := accumulate_stops cfg Yj hB hub hlb hs hlast hmod hrefill
      rw [searchJBufs, if_neg (not_le.mpr hs), hr, Option.bind_some]
      cases hstop with
      | all mid hcuts hlen =>
          obtain ⟨a', ha'⟩ := getLast_entries Yj lb ub s mid
          simp only [List.reverse_nil, List.nil_append, ha', Bool.false_eq_true, false_and, if_false]
          by_cases hlt : (entries Yj lb ub s mid).length < cfg.metricsBufferSize
          · simp only [hlt, if_true]
            exact ⟨_, mid, rfl, by simp, hcuts⟩
          · -- the buffer is full, and there are no rows left
            obtain ⟨f, rfl⟩ : ∃ f, fuel = f + 1 := ⟨fuel - 1, by omega⟩
            simp only [hlt, if_false]
            rw [searchJBufs, if_pos (le_refl ub)]
            exact ⟨_, mid, rfl, by simp, hcuts⟩
      | full mid s' hi hs' hcuts hlen hmod' hrefill' =>
          obtain ⟨a', ha'⟩ := getLast_entries Yj lb s' s mid
          obtain ⟨bufs, new, hbufs, hflat, hnew⟩ :=
            ih (by omega) hs' lastCut_append hmod' hrefill' (by omega)
          simp only [List.length_nil, Nat.zero_add] at hlen
          simp only [List.reverse_nil, List.nil_append, ha', Bool.false_eq_true, false_and, if_false,
            length_entries, hlen, lt_irrefl]
          refine ⟨entries Yj lb s' s mid :: bufs, mid ++ s' :: new, ?_, ?_, ?_⟩
          · have hcounts : searchJBufs cfg Yj ub fuel s' (entryAt Yj lb a' s').nT
                (entryAt Yj lb a' s').nH false = some bufs := hbufs
            rw [hcounts, Option.map_some]
          · rw [List.flatten_cons, hflat, entries_append]
          · rw [hcuts, hnew]
            simp

/-- The tests that end `search_j` early. -/
def Scans (cfg : Config) (Yj : Nat → Nat) (lb ub n : Nat) : Prop :=
  cfg.minLeafSize < ub - lb ∧ Yj lb ≠ Yj (ub - 1) ∧ ub ≤ n

/-- **What is evaluated** is told by the rows at which a candidate begins. -/
theorem evaluated_eq (hB : 2 ≤ cfg.metricsBufferSize) (hub : ub < 2 ^ 32)
    (h : Scans cfg Yj lb ub n) : evaluated cfg Yj lb ub n =
      some (if cutsBuf cfg.metricsBufferSize cfg.minPartitionSize Yj lb ub = [] then []
        else entries Yj lb ub lb (cutsBuf cfg.metricsBufferSize cfg.minPartitionSize Yj lb ub)) := by
  obtain ⟨hleaf, hne, hn⟩ := h
  have hlt : lb < ub := by omega
  have hrefill : refill cfg.metricsBufferSize lb [] = lb := if_pos (by rw [List.length_nil]; omega)
  have hfirst : lastCut lb [] = lb := rfl
  obtain ⟨bufs, new, hbufs, hflat, hcuts⟩ := searchJBufs_spec cfg Yj (ub - lb + 1) (by omega) hub
    (le_refl lb) hlt hfirst (Nat.zero_mod _) hrefill (Nat.lt_succ_self _)
  obtain ⟨r, hr, hstop⟩ := accumulate_stops cfg Yj (by omega) hub (le_refl lb) hlt hfirst
    (Nat.zero_mod _) hrefill
  rw [List.nil_append] at hcuts
  have hnew : cutsBuf cfg.metricsBufferSize cfg.minPartitionSize Yj lb ub = new := hcuts
  rw [seg_self, tails_nil, heads_nil] at hr hbufs
  rw [evaluated, if_neg (by omega), if_neg hne, if_neg (by omega), hnew]
  rw [searchJBufs, if_neg (not_le.mpr hlt), hr, Option.bind_some] at hbufs ⊢
  -- a first buffer of one entry has met no candidate at all
  have hone : r.1.length ≤ 1 ↔ new = [] := by
    cases hstop with
    | all mid hall hlen =>
        rw [hcuts, List.nil_append] at hall
        simp [hall, length_entries]
    | full mid s hi hs hfull hlen hmod hrefill' =>
        obtain ⟨later, hlater, -⟩ := cutsFrom_eq_append (yvalAt Yj) lb
          (allowedBuf cfg.metricsBufferSize cfg.minPartitionSize lb ub) (ub - (s + 1)) (s + 1)
          ([] ++ mid ++ [s])
        rw [hcuts, hlater] at hfull
        simp only [List.length_nil] at hlen
        constructor
        · intro hle
          simp only [List.reverse_nil, List.nil_append, length_entries] at hle
          omega
        · intro hnil
          simp [hnil] at hfull
  cases hlast : r.1.getLast? with
  | none => simp [hlast] at hbufs
  | some last =>
      simp only [hlast, Bool.false_eq_true, false_and, if_false] at hbufs
      simp only [true_and, hone]
      by_cases hnil : new = []
      · simp [hnil]
      · simp only [hnil, if_false, hbufs, Option.map_some, hflat]

/-! ## with and without refills -/

/-- The same configuration with a buffer of `M` entries. -/
def withBuffer (cfg : Config) (M : Nat) : Config := { cfg with metricsBufferSize := M }

/-- **The size of the buffer does not matter.** A buffer with an entry for each row is large
enough for all candidates. The entry that takes in all rows is no candidate: it has the bad
value for a metric. -/
structure BufferedSearch (cfg : Config) (Yj : Nat → Nat) (lb ub n : Nat) : Prop where
  same : ∀ R nT nH M, ub - lb ≤ M →
    searchJ R cfg Yj lb ub nT nH n = searchJ R (withBuffer cfg M) Yj lb ub nT nH n
  evaluates : ∀ M, ub - lb ≤ M →
    evaluated cfg Yj lb ub n = evaluated (withBuffer cfg M) Yj lb ub n
  candidates : ∀ l, evaluated cfg Yj lb ub n = some l → ∀ e ∈ l, e.yidx + 1 < ub →
    yvalAt Yj e.yidx ≠ yvalAt Yj (e.yidx + 1) ∧ cfg.minPartitionSize ≤ e.yidx + 1 - lb ∧
      cfg.minPartitionSize ≤ ub - (e.yidx + 1)

/-- No candidate begins between equal values, and where a new value comes up after a refill,
the rows left are enough, and are counted so. -/
structure Undisturbed (cfg : Config) (Yj : Nat → Nat) (lb ub : Nat) : Prop where
  untied : ∀ c ∈ cuts cfg.minPartitionSize Yj lb ub, yvalAt Yj (c - 1) ≠ yvalAt Yj c
  refills : ∀ r past, lb < r → r < ub →
    past = (cuts cfg.minPartitionSize Yj lb ub).filter (· < r) →
    cfg.metricsBufferSize ≤ past.length → yvalAt Yj r ≠ yvalAt Yj (lastCut lb past) →
    cfg.minPartitionSize = 0 ∨ cfg.minPartitionSize ≤ ub - r ∧
      (ub - r < refill cfg.metricsBufferSize lb past - lb ∨
        refill cfg.metricsBufferSize lb past - lb + cfg.minPartitionSize ≤ ub - r)

theorem mem_cuts (h : c ∈ cuts p Yj lb ub) : lb < c ∧ c < ub ∧ p ≤ c - lb ∧ p ≤ ub - c := by
  obtain ⟨new, hnew, -, hle⟩ :=
    cutsFrom_eq_append (yvalAt Yj) lb (allowed p lb ub) (ub - (lb + 1)) (lb + 1) []
  have hmem : c ∈ new := by
    rw [cuts, hnew] at h
    exact h
  have hok : ∃ past', allowed p lb ub past' c = true :=
    (ok_of_mem_cutsFrom h).resolve_left List.not_mem_nil
  obtain ⟨past', hok⟩ := hok
  rw [allowed, decide_eq_true_eq] at hok
  have := hle c hmem
  omega

theorem length_cuts (p : Nat) (Yj : Nat → Nat) (lb ub : Nat) :
    (cuts p Yj lb ub).length ≤ ub - (lb + 1) := by
  obtain ⟨new, hnew, hlen, -⟩ :=
    cutsFrom_eq_append (yvalAt Yj) lb (allowed p lb ub) (ub - (lb + 1)) (lb + 1) []
  rw [cuts, hnew]
  exact hlen

theorem refill_mem (lb : Nat) (hB : 0 < B) (h : B ≤ past.length) : refill B lb past ∈ past := by
  have hq : 1 ≤ past.length / B := (Nat.le_div_iff_mul_le hB).mpr (by omega)
  have hpos : B ≤ past.length / B * B := Nat.le_mul_of_pos_left B hq
  have hle : past.length / B * B ≤ past.length := Nat.div_mul_le_self _ _
  rw [refill, if_neg (by omega), List.getD_eq_getElem?_getD, List.getElem?_eq_getElem (by omega)]
  exact List.getElem_mem _

/-- The wrapped number of rows left. -/
theorem le_sub32_iff {x d : Nat} (hx : x < 2 ^ 32) (hd : p + d < 2 ^ 32) :
    p ≤ sub32 x d ↔ x < d ∨ d + p ≤ x := by
  by_cases h : d ≤ x
  · rw [sub32_eq h hx]
    omega
  · rw [sub32, Nat.mod_eq_of_lt (by omega)]
    omega

/-- Where the two tests agree. -/
theorem allowedBuf_eq_iff {r : Nat} (hB : 0 < B) (hub : ub < 2 ^ 32)
    (hpast : ∀ c ∈ past, c ∈ cuts p Yj lb ub ∧ c < r) :
    allowedBuf B p lb ub past r = allowed p lb ub past r ↔
      (B ≤ past.length → p = 0 ∨ p ≤ ub - r ∧
        (ub - r < refill B lb past - lb ∨ refill B lb past - lb + p ≤ ub - r)) := by
  rw [allowedBuf, allowed, decide_eq_decide]
  by_cases hlen : B ≤ past.length
  · obtain ⟨hcut, hlt⟩ := hpast _ (refill_mem lb hB hlen)
    obtain ⟨h1, h2, h3, h4⟩ := mem_cuts hcut
    rw [le_sub32_iff (by omega) (by omega)]
    simp only [hlen, true_implies]
    omega
  · have hlb : refill B lb past = lb := if_pos (not_le.mp hlen)
    rw [hlb, Nat.sub_self, sub32_eq (Nat.zero_le _) (by omega)]
    simp [hlen]

/-- **The same candidates**: at every new value after a refill. -/
theorem cutsBuf_eq_iff (hB : 0 < B) (hub : ub < 2 ^ 32) : cutsBuf B p Yj lb ub = cuts p Yj lb ub ↔
    ∀ r past, lb < r → r < ub → past = (cuts p Yj lb ub).filter (· < r) → B ≤ past.length →
      yvalAt Yj r ≠ yvalAt Yj (lastCut lb past) → p = 0 ∨ p ≤ ub - r ∧
        (ub - r < refill B lb past - lb ∨ refill B lb past - lb + p ≤ ub - r) := by
  have hpast : ∀ r, ∀ c ∈ (cuts p Yj lb ub).filter (· < r), c ∈ cuts p Yj lb ub ∧ c < r :=
    fun r c hc => by simpa using hc
  have hsame : cutsBuf B p Yj lb ub = cuts p Yj lb ub ↔ _ :=
    cutsFrom_eq_iff fun c hc => absurd hc List.not_mem_nil
  refine hsame.trans ⟨fun h r past h1 h2 heq hlen hv => ?_, fun h r h1 h2 hv => ?_⟩
  · subst heq
    exact (allowedBuf_eq_iff hB hub (hpast r)).mp (h r h1 (by omega) hv) hlen
  · exact (allowedBuf_eq_iff hB hub (hpast r)).mpr fun hlen =>
      h r _ (by omega) (by omega) rfl hlen hv

/-- A buffer with an entry for each row is never refilled. -/
theorem cutsBuf_large {M : Nat} (hM : ub - lb ≤ M) (hlt : lb < ub) (hub : ub < 2 ^ 32) :
    cutsBuf M p Yj lb ub = cuts p Yj lb ub := by
  rw [cutsBuf_eq_iff (by omega) hub]
  intro r past h1 h2 hpast hlen
  have hle : past.length ≤ (cuts p Yj lb ub).length := hpast ▸ List.length_filter_le _ _
  have := length_cuts p Yj lb ub
  omega

/-! ## the candidates among the entries -/

theorem entries_ne_nil {stop : Nat} {cs : List Nat} : entries Yj lb stop a cs ≠ [] := by
  cases cs with
  | nil => exact List.cons_ne_nil _ _
  | cons c cs => exact List.cons_ne_nil _ _

/-- Each entry counts the rows before the one at which the next begins. -/
theorem entryAt_of_mem {stop : Nat} {cs : List Nat} {e : Cand}
    (h : e ∈ entries Yj lb stop a cs) :
    ∃ a' r, e = entryAt Yj lb a' r ∧ (r ∈ cs ∨ r = stop) := by
  induction cs generalizing a with
  | nil => exact ⟨a, stop, List.mem_singleton.mp h, .inr rfl⟩
  | cons c cs ih =>
      cases List.mem_cons.mp h with
      | inl heq => exact ⟨a, c, heq, .inl List.mem_cons_self⟩
      | inr hmem =>
          obtain ⟨a', r, heq, hr⟩ := ih hmem
          exact ⟨a', r, heq, hr.imp_left (List.mem_cons_of_mem c)⟩

theorem mem_entries_of {stop r : Nat} {cs : List Nat} (h : r ∈ cs) (a : Nat) :
    ∃ a', entryAt Yj lb a' r ∈ entries Yj lb stop a cs := by
  induction cs generalizing a with
  | nil => cases h
  | cons c cs ih =>
      cases List.mem_cons.mp h with
      | inl heq => exact ⟨a, heq ▸ List.mem_cons_self⟩
      | inr hmem =>
          obtain ⟨a', ha'⟩ := ih hmem c
          exact ⟨a', List.mem_cons_of_mem _ ha'⟩

/-- What a buffer that is large enough evaluates. -/
theorem evaluated_large {M : Nat} (hM : ub - lb ≤ M) (hub : ub < 2 ^ 32)
    (h : Scans cfg Yj lb ub n) : evaluated (withBuffer cfg M) Yj lb ub n =
      some (if cuts cfg.minPartitionSize Yj lb ub = [] then []
        else entries Yj lb ub lb (cuts cfg.minPartitionSize Yj lb ub)) := by
  have hlt : lb + 2 ≤ ub := by
    obtain ⟨hleaf, hne, -⟩ := h
    by_contra hcon
    exact hne (congrArg Yj (by omega))
  have heval : evaluated (withBuffer cfg M) Yj lb ub n = _ :=
    evaluated_eq (show 2 ≤ M by omega) hub h
  rwa [withBuffer, cutsBuf_large hM (by omega) hub] at heval

/-- A search that ends early evaluates nothing. -/
theorem evaluated_of_not_scans (h : ¬ Scans cfg Yj lb ub n) : evaluated cfg Yj lb ub n =
    if ub - lb ≤ cfg.minLeafSize ∨ Yj lb = Yj (ub - 1) then some [] else none := by
  rw [evaluated]
  by_cases hleaf : ub - lb ≤ cfg.minLeafSize
  · simp [hleaf]
  · by_cases heq : Yj lb = Yj (ub - 1)
    · simp [heq]
    · have hn : n < ub := by
        by_contra hcon
        exact h ⟨not_le.mp hleaf, heq, not_lt.mp hcon⟩
      simp [hleaf, heq, hn]

theorem cutsBuf_eq_of_evaluates (hB : 2 ≤ cfg.metricsBufferSize) (hub : ub < 2 ^ 32)
    (hs : Scans cfg Yj lb ub n)
    (h : evaluated cfg Yj lb ub n = evaluated (withBuffer cfg (ub - lb)) Yj lb ub n) :
    cutsBuf cfg.metricsBufferSize cfg.minPartitionSize Yj lb ub =
      cuts cfg.minPartitionSize Yj lb ub := by
  rw [evaluated_eq hB hub hs, evaluated_large (le_refl _) hub hs, Option.some.injEq] at h
  obtain ⟨new, hnew, -, hle⟩ := cutsFrom_eq_append (yvalAt Yj) lb
    (allowedBuf cfg.metricsBufferSize cfg.minPartitionSize lb ub) (ub - (lb + 1)) (lb + 1) []
  have hbuf : cutsBuf cfg.metricsBufferSize cfg.minPartitionSize Yj lb ub = new := hnew
  rw [hbuf] at h ⊢
  split at h
  · next hnil =>
      split at h
      · next hnil' => rw [hnil, hnil']
      · exact absurd h.symm entries_ne_nil
  · split at h
    · exact absurd h entries_ne_nil
    · refine entries_inj (fun c hc => ?_) (fun c hc => ?_) h
      · have := hle c hc
        omega
      · have := mem_cuts hc
        omega

/-- **When the size of the buffer does not matter.** -/
theorem bufferedSearch_iff (hB : 2 ≤ cfg.metricsBufferSize) (hub : ub < 2 ^ 32) :
    BufferedSearch cfg Yj lb ub n ↔ (Scans cfg Yj lb ub n → Undisturbed cfg Yj lb ub) := by
  constructor
  · intro h hs
    have hcuts := cutsBuf_eq_of_evaluates hB hub hs (h.evaluates _ (le_refl _))
    refine ⟨fun c hc => ?_, (cutsBuf_eq_iff (by omega) hub).mp hcuts⟩
    obtain ⟨a, he⟩ : ∃ a, entryAt Yj lb a c ∈ entries Yj lb ub lb _ := mem_entries_of hc lb
    generalize he' : entryAt Yj lb a c = e at he
    have hyidx : e.yidx = c - 1 := he' ▸ rfl
    obtain ⟨h1, h2, -⟩ := mem_cuts hc
    have hsucc : e.yidx + 1 = c := by omega
    have heval := evaluated_eq hB hub hs
    rw [hcuts, if_neg (List.ne_nil_of_mem hc)] at heval
    have hcand := (h.candidates _ heval e he (by omega)).1
    rwa [hsucc, hyidx] at hcand
  · intro h
    have heval : ∀ M, ub - lb ≤ M →
        evaluated cfg Yj lb ub n = evaluated (withBuffer cfg M) Yj lb ub n := by
      intro M hM
      by_cases hs : Scans cfg Yj lb ub n
      · rw [evaluated_eq hB hub hs, evaluated_large hM hub hs,
          (cutsBuf_eq_iff (by omega) hub).mpr (h hs).refills]
      · have hM' : evaluated (withBuffer cfg M) Yj lb ub n = _ := evaluated_of_not_scans hs
        rw [evaluated_of_not_scans hs, hM']
        rfl
    refine ⟨fun R nT nH M hM => ?_, heval, fun l hl e he hend => ?_⟩
    · rw [searchJ_eq, searchJ_eq, heval M hM]
    · by_cases hs : Scans cfg Yj lb ub n
      · have hcuts := (cutsBuf_eq_iff (by omega) hub).mpr (h hs).refills
        rw [evaluated_eq hB hub hs, hcuts] at hl
        split at hl
        · cases hl
          cases he
        · cases hl
          obtain ⟨a, c, rfl, hcut⟩ := entryAt_of_mem he
          have hyidx : (entryAt Yj lb a c).yidx = c - 1 := rfl
          cases hcut with
          | inl hc =>
              obtain ⟨h1, h2, h3, h4⟩ := mem_cuts hc
              have hsucc : (entryAt Yj lb a c).yidx + 1 = c := by omega
              rw [hsucc, hyidx]
              exact ⟨(h hs).untied c hc, h3, h4⟩
          | inr hlast => omega
      · rw [evaluated_of_not_scans hs] at hl
        split at hl
        · cases hl
          cases he
        · cases hl

end

/-! ## a buffer of two entries -/

/-- The words of five rows with values 1 to 5 and the classes 1, 1, 0, 1, 0. -/
def fiveRows (i : Nat) : Nat := mkCompVal i ([1, 1, 0, 1, 0].getD i 0) (i + 1)

/-- The words of twelve rows, of which the last nine have one value. -/
def twelveRows (i : Nat) : Nat := mkCompVal i ([1, 1, 0, 1].getD i 0) (min i 3 + 1)

def rowsConfig (B : Nat) : Config where
  isDebug := false
  maxDepth := 10
  minLeafSize := 1
  metricsBufferSize := B
  minPartitionSize := 1
  maxNodesInTree := 100

/-- Three rows begin a candidate, the third of them behind a refill. -/
theorem bufferedSearch_twelve : cuts 1 twelveRows 0 12 = [1, 2, 3] ∧
    BufferedSearch (rowsConfig 2) twelveRows 0 12 12 := by
  refine ⟨by decide +kernel, (bufferedSearch_iff (by decide) (by decide)).mpr fun _ => ?_⟩
  refine ⟨by decide +kernel, fun r past h1 h2 hpast hlen hv => .inr ?_⟩
  subst hpast
  have hrefill : ∀ r < 12, 0 < r →
      2 ≤ ((cuts 1 twelveRows 0 12).filter (· < r)).length →
      yvalAt twelveRows r ≠ yvalAt twelveRows
        (lastCut 0 ((cuts 1 twelveRows 0 12).filter (· < r))) →
      1 ≤ 12 - r ∧ refill 2 0 ((cuts 1 twelveRows 0 12).filter (· < r)) - 0 + 1 ≤ 12 - r := by
    decide +kernel
  exact (hrefill r h2 h1 hlen hv).imp_right .inr

/-- The third candidate, the best, is lost to the refill. -/
theorem bufferedSearch_fails : ¬ BufferedSearch (rowsConfig 2) fiveRows 0 5 5 := by
  intro h
  have hsame := h.same (Rounding.exact 53) 2 3 5 (by decide)
  exact absurd hsame (by decide +kernel)

end QStore.Dt
