import QStore.Dt.Metric
import QStore.Dt.Preproc
import Mathlib.Data.List.MinMax

/-!
# QStore.Dt.Search

`search`: where to split rows `lb`, .., `ub - 1`. For each feature `search_j` walks
over the words in order and places candidates; `accumulate` collects them in a
buffer of `metrics_buffer_size` entries with the class counts up to each, and is
called again from where it stopped when the buffer is full. The best candidate
over all features wins.

What the rest of the program relies on is `Placed`: a split lies strictly inside,
its left side is not too small, and its four counts are those of the rows.
-/

namespace QStore.Dt

/-- Subtraction of `uint32_t`. -/
def sub32 (a b : Nat) : Nat := (a + (2 ^ 32 - b)) % 2 ^ 32

theorem sub32_eq {a b : Nat} (h : b ≤ a) (ha : a < 2 ^ 32) : sub32 a b = a - b := by
  rw [sub32]
  omega

/-! ## accumulate -/

/-- One entry of `metrics_t`. -/
structure Cand where
  yidx : Nat
  yval : Nat
  nT : Nat
  nH : Nat
  deriving DecidableEq

/-- A row joins the entry. -/
def Cand.put (c : Cand) (i w : Nat) : Cand :=
  if getGoal w = 0 then { c with yidx := i, nT := c.nT + 1 }
  else { c with yidx := i, nH := c.nH + 1 }

/-- The loop of `accumulate` from row `i`; `k` rows are left, `cur` is entry
`nbuf - 1` and `done` has the entries before it, last first. -/
def accumulateFrom (cfg : Config) (Y : Nat → Nat) (ub : Nat) :
    (k i curr consumed left : Nat) → Cand → List Cand → List Cand × Nat
  | 0, _, _, _, _, cur, done => ((cur :: done).reverse, ub)
  | k + 1, i, curr, consumed, left, cur, done =>
    if getYval (Y i) ≠ curr ∧ cfg.minPartitionSize ≤ consumed ∧ cfg.minPartitionSize ≤ left then
      if done.length + 1 = cfg.metricsBufferSize then ((cur :: done).reverse, i)
      else
        accumulateFrom cfg Y ub k (i + 1) (getYval (Y i)) (consumed + 1) (sub32 left 1)
          (Cand.put ⟨i, getYval (Y i), cur.nT, cur.nH⟩ i (Y i)) (cur :: done)
    else
      accumulateFrom cfg Y ub k (i + 1) curr (consumed + 1) (sub32 left 1) (cur.put i (Y i)) done

/-- `accumulate`: the entries and `*ptr_lb`. The caller has `lb < ub`. A buffer of
no entries is overrun at once. -/
def accumulate (cfg : Config) (Y : Nat → Nat) (lb ub prevT prevH : Nat) :
    Option (List Cand × Nat) :=
  if cfg.metricsBufferSize = 0 then none
  else
    let consumed := prevT + prevH
    let left := sub32 (ub - lb) consumed
    let first := Cand.put ⟨lb, getYval (Y lb), prevT, prevH⟩ lb (Y lb)
    let r := accumulateFrom cfg Y ub (ub - (lb + 1)) (lb + 1) (getYval (Y lb)) (consumed + 1)
      (sub32 left 1) first []
    if cfg.metricsBufferSize < r.1.length then none else some r

/-! ## search_j -/

/-- The best split of a feature: its metric, `yval`, `yidx` and `four_nums_t`. -/
structure Best where
  metric : ℚ
  yval : Nat
  yidx : Nat
  nTL : Nat
  nHL : Nat
  nTR : Nat
  nHR : Nat
  deriving DecidableEq

section Model

variable (R : Double) (cfg : Config)

/-- `eval_metrics`, for one entry. -/
def metricOf (nT nH : Nat) (c : Cand) : ℚ := evalMetric R c.nT c.nH nT nH

/-- `calc_best_metric`: the first of the largest. -/
def calcBestMetric (nT nH : Nat) (buf : List Cand) : Option Cand :=
  buf.argmax (metricOf R nT nH)

/-- What `search_j` keeps of entry `loc`. -/
def Best.of (nT nH : Nat) (c : Cand) : Best :=
  { metric := metricOf R nT nH c, yval := c.yval, yidx := c.yidx,
    nTL := c.nT, nHL := c.nH, nTR := sub32 nT c.nT, nHR := sub32 nH c.nH }

/-- The better of what is kept and the best of the buffer. -/
def Best.improve (nT nH : Nat) (best : Best) (buf : List Cand) : Best :=
  match calcBestMetric R nT nH buf with
  | none => best
  | some c => if best.metric < metricOf R nT nH c then Best.of R nT nH c else best

/-- The loop of `search_j`. `none` is an error, `some none` an interval that cannot
be split. -/
def searchJLoop (Yj : Nat → Nat) (ub nT nH : Nat) :
    (fuel lb prevT prevH : Nat) → (iter0 : Bool) → Best → Option (Option Best)
  | 0, _, _, _, _, _ => none
  | k + 1, lb, prevT, prevH, iter0, best =>
    if ub ≤ lb then some (some best)
    else
      (accumulate cfg Yj lb ub prevT prevH).bind fun r =>
        match r.1.getLast? with
        | none => none
        | some last =>
          if iter0 ∧ r.1.length ≤ 1 then some none
          else
            let best := best.improve R nT nH r.1
            if r.1.length < cfg.metricsBufferSize then some (some best)
            else searchJLoop Yj ub nT nH k r.2 last.nT last.nH false best

/-- `search_j`. Every round of its loop takes in a row at least. -/
def searchJ (Yj : Nat → Nat) (lb ub nT nH n : Nat) : Option (Option Best) :=
  if ub - lb ≤ cfg.minLeafSize then some none
  else if Yj lb = Yj (ub - 1) then some none
  else if ub ≤ lb ∨ n < ub then none
  else searchJLoop R cfg Yj ub nT nH (ub - lb + 1) lb 0 0 true ⟨-1, 0, 0, 0, 0, 0, 0⟩

/-! ## search -/

/-- A feature takes over when it is the first or strictly better. -/
def choose (j : Nat) (found : Option (Nat × Best)) : Option Best → Option (Nat × Best)
  | none => found
  | some b =>
    match found with
    | none => some (j, b)
    | some f => if f.2.metric < b.metric then some (j, b) else some f

/-- The two loops of `search` over the features. -/
def searchAll (Y : Nat → Nat → Nat) (lb ub nT nH n : Nat) :
    List Nat → Option (Nat × Best) → Option (Option (Nat × Best))
  | [], found => some found
  | j :: js, found =>
    (searchJ R cfg (Y j) lb ub nT nH n).bind fun r =>
      searchAll Y lb ub nT nH n js (choose j found r)

/-- What `search` hands to `split`; `yidx` is exclusive here. -/
structure Split where
  feature : Nat
  yval : Nat
  yidx : Nat
  nTL : Nat
  nHL : Nat
  nTR : Nat
  nHR : Nat
  deriving DecidableEq

def Split.of (f : Nat × Best) : Split :=
  ⟨f.1, f.2.yval, f.2.yidx + 1, f.2.nTL, f.2.nHL, f.2.nTR, f.2.nHR⟩

/-- `search`. With `is_debug` the indices are checked even when nothing was found,
and `best_feature` is then -1. -/
def search (Y : Nat → Nat → Nat) (lb ub nT nH n m : Nat) : Option (Option Split) :=
  (searchAll R cfg Y lb ub nT nH n (List.range m) none).bind fun
    | none => if cfg.isDebug then none else some none
    | some f =>
      if cfg.isDebug ∧ (m ≤ f.1 ∨ ub ≤ f.2.yidx ∨ f.2.yidx < lb) then none
      else some (some (Split.of f))

end Model

end QStore.Dt
