import QStore.Approx.Quantile
import Mathlib.Data.List.GetD

/-!
# QStore.Approx.Collapse

One call of `Collapse`, after `src/Collapse.c` of `approxalgos/ApproxQuantile`: two sorted
buffers become one, which keeps the middle of every `w₁ + w₂` values of their merge, where
each value counts as often as its buffer's weight says.

```
buf1, weight 1     1   3   5   7   9
buf2, weight 2     2   4   6   8   10
the merge          1 2 2 | 3 4 4 | 5 6 6 | 7 8 8 | 9 10 10
buf1 afterwards    1       3       5       7       9
```

The merge passes through an array of `int`, and that is the way in which it fails.
-/

namespace QStore.Approx

/-! ## the call -/

/-- What `Collapse` leaves: `buf1`, the weights, and how often it has stored into `buf1`. -/
structure CollapseOut where
  buf1 : List Double
  weight : List Nat
  jj : Nat
deriving DecidableEq

/-- `Collapse` with its checks and its arrays. `none` is a status other than zero, an
overflow of `2*k` or of `outWeight`, or a store outside of `buf1`. -/
def collapseCall (buf1 buf2 : List Double) (weight : List Nat) (bufidx1 bufidx2 b k : Nat) :
    Option CollapseOut :=
  let w₁ := weight.getD bufidx1 0
  let w₂ := weight.getD bufidx2 0
  if b ≤ bufidx1 ∨ b ≤ bufidx2 then none
  else if w₁ = 0 ∨ w₂ = 0 then none
  else if 2 ^ 31 ≤ 2 * k ∨ 2 ^ 31 ≤ w₁ + w₂ then none
  else do
    let temp ← toTempBuffer (mergeBufs w₁ w₂ buf1 buf2)
    let stored ← storeLoop ((w₁ + w₂) / 2) (w₁ + w₂) k temp 0 0
    return {
      buf1 := stored ++ buf1.drop stored.length
      weight := (weight.set bufidx1 (w₁ + w₂)).set bufidx2 0
      jj := stored.length }

/-- Two sorted buffers of one array, and their weights. -/
structure Two where
  k : Nat
  buf1 : List Double
  buf2 : List Double
  weight : List Nat
  bufidx1 : Nat
  bufidx2 : Nat
  k_lt : k < 2 ^ 31
  length₁ : buf1.length = k
  length₂ : buf2.length = k
  sorted₁ : buf1.Pairwise (· ≤ ·)
  sorted₂ : buf2.Pairwise (· ≤ ·)
  weight_lt : ∀ w ∈ weight, w < 2 ^ 31
  idx₁ : bufidx1 < weight.length
  idx₂ : bufidx2 < weight.length
  idx_ne : bufidx1 ≠ bufidx2
  pos₁ : 0 < weight.getD bufidx1 0
  pos₂ : 0 < weight.getD bufidx2 0

namespace Two

variable (a : Two)

def w₁ : Nat := a.weight.getD a.bufidx1 0

def w₂ : Nat := a.weight.getD a.bufidx2 0

/-- The call for these buffers. -/
def call : Option CollapseOut :=
  collapseCall a.buf1 a.buf2 a.weight a.bufidx1 a.bufidx2 a.weight.length a.k

/-- The merge of the two buffers, each value with its weight. -/
def merged : List (Double × Nat) :=
  (a.buf1.map (·, a.w₁)).merge (a.buf2.map (·, a.w₂)) fun x y => x.1 ≤ y.1

/-- The weighted rank of value `j`. -/
def rank (j : Nat) : Nat := (a.w₁ + a.w₂) / 2 + j * (a.w₁ + a.w₂)

end Two

/-- What `Collapse` is for. -/
structure Collapsed (a : Two) (out : CollapseOut) : Prop where
  /-- It stores as many values as there are places. -/
  stores : out.jj = a.k
  length : out.buf1.length = a.k
  /-- Value `j` is the one at which the merge reaches the weight `rank j`. -/
  ranked : ∀ j < a.k, ∃ v, out.buf1[j]? = some v ∧ reach (a.rank j) a.merged = some v
  sorted : out.buf1.Pairwise (· ≤ ·)
  unchanged : ∀ v ∈ out.buf1, v ∈ a.buf1 ∨ v ∈ a.buf2
  weight₁ : out.weight.getD a.bufidx1 0 = a.w₁ + a.w₂
  weight₂ : out.weight.getD a.bufidx2 0 = 0
  others : ∀ i, i ≠ a.bufidx1 → i ≠ a.bufidx2 → out.weight[i]? = a.weight[i]?

/-- The numbers of the call are small enough, and the values that are kept are whole. -/
structure Two.Exact (a : Two) : Prop where
  k_fits : 2 * a.k < 2 ^ 31
  weight_fits : a.w₁ + a.w₂ < 2 ^ 31
  fits : ∀ v, v ∈ a.buf1 ∨ v ∈ a.buf2 → v.toInt32.isSome
  whole : ∀ j < a.k, ∀ v, reach (a.rank j) a.merged = some v → v.IsInt32

/-! ## `mergeBufs` and `toTempBuffer` -/

variable {a : Two} {w₁ w₂ : Nat} {buf1 buf2 : List Double} {l : List (Double × Nat)}
  {temp : List (Int32 × Nat)} {t offSet outWeight k kk jj room : Nat}

theorem mergeBufs_eq : mergeBufs w₁ w₂ buf1 buf2 =
    (buf1.map (·, w₁)).merge (buf2.map (·, w₂)) fun x y => x.1 ≤ y.1 := by
  fun_induction mergeBufs w₁ w₂ buf1 buf2 with
  | case1 buf2 => simp
  | case2 buf1 h => simp
  | case3 x buf1 y buf2 h ih =>
      rw [ih, List.map_cons, List.map_cons, List.cons_merge_cons_pos _ _ _ (by simpa using h)]
  | case4 x buf1 y buf2 h ih =>
      rw [ih, List.map_cons, List.map_cons, List.cons_merge_cons_neg _ _ _ (by simpa using h)]

theorem toTempBuffer_isSome : (toTempBuffer l).isSome ↔ ∀ e ∈ l, e.1.toInt32.isSome := by
  induction l with
  | nil => simp [toTempBuffer]
  | cons e l ih =>
      rw [toTempBuffer, List.forall_mem_cons, ← ih]
      cases e.1.toInt32 <;> cases toTempBuffer l <;> simp

theorem toTempBuffer_cons {e : Double × Nat} (h : toTempBuffer (e :: l) = some temp) :
    ∃ z rest, e.1.toInt32 = some z ∧ toTempBuffer l = some rest ∧ temp = (z, e.2) :: rest := by
  rw [toTempBuffer] at h
  cases hz : e.1.toInt32 <;> cases hrest : toTempBuffer l <;> simp [hz, hrest] at h
  exact ⟨_, _, rfl, rfl, h.symm⟩

/-- The conversion moves no weight. -/
theorem weigh_toTempBuffer (h : toTempBuffer l = some temp) :
    weigh (fun _ => true) temp = weigh (fun _ => true) l := by
  induction l generalizing temp with
  | nil =>
      cases h
      rfl
  | cons e l ih =>
      obtain ⟨z, rest, -, hrest, rfl⟩ := toTempBuffer_cons h
      simp [ih hrest]

theorem reach_toTempBuffer (h : toTempBuffer l = some temp) :
    reach t temp = (reach t l).bind Double.toInt32 := by
  induction l generalizing temp t with
  | nil =>
      cases h
      rfl
  | cons e l ih =>
      obtain ⟨z, rest, hz, hrest, rfl⟩ := toTempBuffer_cons h
      rw [reach, reach]
      split
      · simp [hz]
      · exact ih hrest

/-! ## the selection loop -/

/-- One value is stored for every rank that its weight reaches. -/
theorem storeTurns_eq (h : kk < offSet + (jj + room) * outWeight) :
    ∃ n ≤ room, storeTurns kk offSet outWeight room jj = some n ∧
      (∀ j, jj ≤ j → j < jj + n → offSet + j * outWeight ≤ kk) ∧
      kk < offSet + (jj + n) * outWeight := by
  induction room generalizing jj with
  | zero =>
      rw [Nat.add_zero] at h
      refine ⟨0, le_refl _, ?_, by omega, h⟩
      rw [storeTurns, if_neg (by omega)]
  | succ room ih =>
      by_cases hle : offSet + jj * outWeight ≤ kk
      · rw [← Nat.add_assoc, Nat.add_right_comm] at h
        obtain ⟨n, hn, hturns, hbelow, habove⟩ := ih h
        refine ⟨n + 1, by omega, ?_, ?_, by rwa [← Nat.add_assoc, Nat.add_right_comm]⟩
        · rw [storeTurns, if_pos hle, hturns]
          rfl
        · intro j hj hlt
          cases Nat.eq_or_lt_of_le hj with
          | inl heq => exact heq ▸ hle
          | inr hgt => exact hbelow j hgt (by omega)
      · refine ⟨0, Nat.zero_le _, ?_, by omega, by simpa using hle⟩
        rw [storeTurns, if_neg hle]

/-- **The values stored are those at the ranks.** All ranks below `k` are reached and no
other one is, so no store is outside of the buffer. -/
theorem storeLoop_eq (hjj : jj ≤ k) (hkk : kk < offSet + jj * outWeight)
    (hall : ∀ j < k, offSet + j * outWeight ≤ kk + weigh (fun _ => true) temp)
    (htop : kk + weigh (fun _ => true) temp < offSet + k * outWeight) :
    ∃ stored, storeLoop offSet outWeight k temp kk jj = some stored ∧
      stored.map some = (List.range' jj (k - jj)).map fun j =>
        (reach (offSet + j * outWeight - kk) temp).map Double.ofInt32 := by
  induction temp generalizing kk jj with
  | nil =>
      have hk : k - jj = 0 := by
        by_contra hcon
        have := hall jj (by omega)
        rw [weigh_nil] at this
        omega
      rw [hk]
      exact ⟨[], rfl, rfl⟩
  | cons e temp ih =>
      rw [weigh_cons, if_pos rfl, ← Nat.add_assoc] at htop
      simp only [weigh_cons, if_true, ← Nat.add_assoc] at hall
      have hnext : kk + e.2 < offSet + (jj + (k - jj)) * outWeight := by
        rw [Nat.add_sub_cancel' hjj]
        omega
      obtain ⟨n, hn, hturns, hbelow, habove⟩ := storeTurns_eq hnext
      obtain ⟨rest, hrest, hmap⟩ := ih (show jj + n ≤ k by omega) habove hall htop
      have hsplit : List.range' jj (k - jj) =
          List.range' jj n ++ List.range' (jj + n) (k - (jj + n)) := by
        rw [List.range'_append_1]
        congr 1
        omega
      refine ⟨List.replicate n (Double.ofInt32 e.1) ++ rest, ?_, ?_⟩
      · simp only [storeLoop, hturns, hrest, Option.bind_eq_bind, Option.bind_some]
        rfl
      · rw [List.map_append, hmap, hsplit, List.map_append, List.map_replicate]
        congr 1
        · -- the ranks that this value reaches
          rw [eq_comm, List.eq_replicate_iff, List.length_map, List.length_range']
          refine ⟨rfl, ?_⟩
          intro o ho
          obtain ⟨j, hj, rfl⟩ := List.mem_map.mp ho
          rw [List.mem_range'_1] at hj
          have := hbelow j hj.1 hj.2
          rw [reach, if_pos (by omega)]
          rfl
        · -- those that are left to the others
          apply List.map_congr_left
          intro j hj
          rw [List.mem_range'_1] at hj
          have hle : (jj + n) * outWeight ≤ j * outWeight := Nat.mul_le_mul_right _ hj.1
          rw [reach, if_neg (by omega), ← Nat.sub_sub]

/-- The buffers together weigh what the new one will. -/
theorem weigh_mergeBufs (h₁ : buf1.length = k) (h₂ : buf2.length = k) :
    weigh (fun _ => true) (mergeBufs w₁ w₂ buf1 buf2) = k * (w₁ + w₂) := by
  rw [mergeBufs_eq, weigh_perm (List.merge_perm_append _), weigh_append, weigh_same, weigh_same,
    List.countP_true, h₁, h₂, Nat.mul_add]

theorem mem_mergeBufs_iff {v : Double} :
    (∃ e ∈ mergeBufs w₁ w₂ buf1 buf2, e.1 = v) ↔ v ∈ buf1 ∨ v ∈ buf2 := by
  simp only [mergeBufs_eq, List.mem_merge, List.mem_map]
  constructor
  · intro h
    obtain ⟨e, he, hv⟩ := h
    cases he with
    | inl h =>
        obtain ⟨x, hx, rfl⟩ := h
        exact .inl (hv ▸ hx)
    | inr h =>
        obtain ⟨x, hx, rfl⟩ := h
        exact .inr (hv ▸ hx)
  · intro h
    cases h with
    | inl h => exact ⟨(v, w₁), .inl ⟨v, h, rfl⟩, rfl⟩
    | inr h => exact ⟨(v, w₂), .inr ⟨v, h, rfl⟩, rfl⟩

/-- **Two full buffers make one** when every value fits, sorted or not. -/
theorem stored_of_fits (h₁ : buf1.length = k) (h₂ : buf2.length = k) (hw₁ : 0 < w₁) (hw₂ : 0 < w₂)
    (hfits : ∀ v, v ∈ buf1 ∨ v ∈ buf2 → v.toInt32.isSome) :
    ∃ temp stored, toTempBuffer (mergeBufs w₁ w₂ buf1 buf2) = some temp ∧
      storeLoop ((w₁ + w₂) / 2) (w₁ + w₂) k temp 0 0 = some stored ∧ stored.length = k ∧
      ∀ j < k, stored[j]? = ((reach ((w₁ + w₂) / 2 + j * (w₁ + w₂))
        (mergeBufs w₁ w₂ buf1 buf2)).bind Double.toInt32).map Double.ofInt32 := by
  obtain ⟨temp, htemp⟩ := Option.isSome_iff_exists.mp <|
    toTempBuffer_isSome.mpr fun e he => hfits e.1 (mem_mergeBufs_iff.mp ⟨e, he, rfl⟩)
  have hweigh : weigh (fun _ => true) temp = k * (w₁ + w₂) := by
    rw [weigh_toTempBuffer htemp, weigh_mergeBufs h₁ h₂]
  have hall : ∀ j < k, (w₁ + w₂) / 2 + j * (w₁ + w₂) ≤ 0 + weigh (fun _ => true) temp := by
    intro j hj
    have hle : (j + 1) * (w₁ + w₂) ≤ k * (w₁ + w₂) := Nat.mul_le_mul_right _ hj
    rw [Nat.succ_mul] at hle
    omega
  have hfirst : 0 < (w₁ + w₂) / 2 + 0 * (w₁ + w₂) := by omega
  obtain ⟨stored, hstored, hmap⟩ := storeLoop_eq (Nat.zero_le k) hfirst hall (by omega)
  have hlen : stored.length = k := by
    have := congrArg List.length hmap
    simpa using this
  refine ⟨temp, stored, htemp, hstored, hlen, ?_⟩
  intro j hj
  have hlt : j < stored.length := hlen ▸ hj
  have hget := congrArg (·[j]?) hmap
  rw [List.getElem?_map, Nat.sub_zero, List.getElem?_map, List.getElem?_range' hj,
    Option.map_some, Nat.zero_add, Nat.one_mul, Nat.sub_zero, reach_toTempBuffer htemp,
    List.getElem?_eq_getElem hlt, Option.map_some, Option.some.injEq] at hget
  rw [List.getElem?_eq_getElem hlt]
  exact hget

/-- A collapse has converted every value. -/
theorem fits_of_collapse {buf : List Double} (h : collapse buf1 buf2 w₁ w₂ k = some buf) :
    2 * k < 2 ^ 31 ∧ w₁ + w₂ < 2 ^ 31 ∧ ∀ v, v ∈ buf1 ∨ v ∈ buf2 → v.toInt32.isSome := by
  rw [collapse] at h
  split_ifs at h with hzero hsmall
  cases htemp : toTempBuffer (mergeBufs w₁ w₂ buf1 buf2) with
  | none => simp [htemp] at h
  | some temp =>
      refine ⟨by omega, by omega, ?_⟩
      intro v hv
      obtain ⟨e, he, rfl⟩ : ∃ e ∈ mergeBufs w₁ w₂ buf1 buf2, e.1 = v :=
        mem_mergeBufs_iff.mpr hv
      exact toTempBuffer_isSome.mp (Option.isSome_iff_exists.mpr ⟨temp, htemp⟩) e he

/-- Where the values fit, it leaves a full buffer. -/
theorem collapse_of_fits (h₁ : buf1.length = k) (h₂ : buf2.length = k) (hw₁ : 0 < w₁)
    (hw₂ : 0 < w₂) (hk : 2 * k < 2 ^ 31) (hw : w₁ + w₂ < 2 ^ 31)
    (hfits : ∀ v, v ∈ buf1 ∨ v ∈ buf2 → v.toInt32.isSome) :
    ∃ buf, collapse buf1 buf2 w₁ w₂ k = some buf ∧ buf.length = k ∧
      ∀ v ∈ buf, ∃ u z, (u ∈ buf1 ∨ u ∈ buf2) ∧ u.toInt32 = some z ∧ v = Double.ofInt32 z := by
  obtain ⟨temp, stored, htemp, hstored, hlen, hget⟩ := stored_of_fits h₁ h₂ hw₁ hw₂ hfits
  have hdrop : buf1.drop stored.length = [] :=
    List.drop_eq_nil_of_le (by rw [h₁, hlen])
  refine ⟨stored, ?_, hlen, ?_⟩
  · rw [collapse, if_neg (by omega), if_neg (by omega), htemp]
    simp only [Option.bind_eq_bind, Option.bind_some, hstored, hdrop, List.append_nil]
    rfl
  · intro v hv
    obtain ⟨j, hj⟩ := List.mem_iff_getElem?.mp hv
    have hlt := (List.getElem?_eq_some_iff.mp hj).1
    rw [hget j (hlen ▸ hlt), Option.map_eq_some_iff] at hj
    obtain ⟨z, hz, rfl⟩ := hj
    obtain ⟨u, hu, huz⟩ := Option.bind_eq_some_iff.mp hz
    obtain ⟨e, he, rfl⟩ := mem_of_reach hu
    exact ⟨e.1, z, mem_mergeBufs_iff.mp ⟨e, he, rfl⟩, huz, rfl⟩

/-! ## the whole call -/

namespace Two

theorem pos : 0 < a.w₁ + a.w₂ := Nat.add_pos_left a.pos₁ _

theorem mem_merged {e : Double × Nat} (h : e ∈ a.merged) : e.1 ∈ a.buf1 ∨ e.1 ∈ a.buf2 := by
  rw [merged, ← mergeBufs_eq] at h
  exact mem_mergeBufs_iff.mp ⟨e, h, rfl⟩

theorem merged_sorted : a.merged.Pairwise fun x y => x.1 ≤ y.1 := by
  have htrans : ∀ x y z : Double × Nat,
      decide (x.1 ≤ y.1) → decide (y.1 ≤ z.1) → decide (x.1 ≤ z.1) := by
    intro x y z hxy hyz
    rw [decide_eq_true_iff] at hxy hyz ⊢
    exact hxy.trans hyz
  have htotal : ∀ x y : Double × Nat, decide (x.1 ≤ y.1) || decide (y.1 ≤ x.1) := by
    intro x y
    simpa using Double.le_total' x.1 y.1
  have h := List.pairwise_merge htrans htotal (a.buf1.map (·, a.w₁)) (a.buf2.map (·, a.w₂))
    (List.pairwise_map.mpr (a.sorted₁.imp fun hle => decide_eq_true hle))
    (List.pairwise_map.mpr (a.sorted₂.imp fun hle => decide_eq_true hle))
  exact h.imp fun hle => of_decide_eq_true hle

theorem weigh_merged : weigh (fun _ => true) a.merged = a.k * (a.w₁ + a.w₂) := by
  rw [merged, ← mergeBufs_eq, weigh_mergeBufs a.length₁ a.length₂]

theorem rank_le {j : Nat} (h : j < a.k) : a.rank j ≤ a.k * (a.w₁ + a.w₂) := by
  have hle : (j + 1) * (a.w₁ + a.w₂) ≤ a.k * (a.w₁ + a.w₂) := Nat.mul_le_mul_right _ h
  rw [Nat.succ_mul] at hle
  rw [rank]
  omega

theorem rank_mono {i j : Nat} (h : i ≤ j) : a.rank i ≤ a.rank j :=
  Nat.add_le_add_left (Nat.mul_le_mul_right _ h) _

/-- The merge reaches every rank. -/
theorem exists_reach {j : Nat} (h : j < a.k) : ∃ v, reach (a.rank j) a.merged = some v := by
  apply reach_isSome
  · intro hnil
    have hw := a.weigh_merged
    rw [hnil, weigh_nil, eq_comm, Nat.mul_eq_zero] at hw
    have := a.pos
    omega
  · exact a.weigh_merged ▸ a.rank_le h

theorem call_eq : a.call =
    if 2 ^ 31 ≤ 2 * a.k ∨ 2 ^ 31 ≤ a.w₁ + a.w₂ then none
    else do
      let temp ← toTempBuffer a.merged
      let stored ← storeLoop ((a.w₁ + a.w₂) / 2) (a.w₁ + a.w₂) a.k temp 0 0
      return {
        buf1 := stored ++ a.buf1.drop stored.length
        weight := (a.weight.set a.bufidx1 (a.w₁ + a.w₂)).set a.bufidx2 0
        jj := stored.length } := by
  have h₁ := a.idx₁
  have h₂ := a.idx₂
  have hpos₁ := a.pos₁
  have hpos₂ := a.pos₂
  rw [call, collapseCall, mergeBufs_eq, if_neg (by omega), if_neg (by omega)]
  rfl

/-- What the call leaves when it ends: the values at the ranks, each by way of an `int`. -/
structure Stores (a : Two) (out : CollapseOut) : Prop where
  stores : out.jj = a.k
  length : out.buf1.length = a.k
  ranked : ∀ j < a.k, out.buf1[j]? =
    ((reach (a.rank j) a.merged).bind Double.toInt32).map Double.ofInt32
  weight : out.weight = (a.weight.set a.bufidx1 (a.w₁ + a.w₂)).set a.bufidx2 0

/-- The call ends when its numbers are small enough and every value fits. -/
theorem call_ends (hk : 2 * a.k < 2 ^ 31) (hw : a.w₁ + a.w₂ < 2 ^ 31)
    (hfits : ∀ v, v ∈ a.buf1 ∨ v ∈ a.buf2 → v.toInt32.isSome) :
    ∃ out, a.call = some out ∧ a.Stores out := by
  obtain ⟨temp, stored, htemp, hstored, hlen, hget⟩ :=
    stored_of_fits a.length₁ a.length₂ a.pos₁ a.pos₂ hfits
  have hmerged : mergeBufs a.w₁ a.w₂ a.buf1 a.buf2 = a.merged := mergeBufs_eq
  have htemp' : toTempBuffer a.merged = some temp := hmerged ▸ htemp
  have hdrop : a.buf1.drop stored.length = [] :=
    List.drop_eq_nil_of_le (by rw [a.length₁, hlen])
  have hcall : a.call =
      some ⟨stored, (a.weight.set a.bufidx1 (a.w₁ + a.w₂)).set a.bufidx2 0, stored.length⟩ := by
    rw [call_eq, if_neg (by omega), htemp']
    have hrun : storeLoop ((a.w₁ + a.w₂) / 2) (a.w₁ + a.w₂) a.k temp 0 0 = some stored := hstored
    simp only [Option.bind_eq_bind, Option.bind_some, hrun, hdrop, List.append_nil]
    rfl
  refine ⟨_, hcall, ?_⟩
  constructor
  · exact hlen
  · exact hlen
  · intro j hj
    rw [hget j hj]
    exact congrArg (fun l => ((reach _ l).bind Double.toInt32).map Double.ofInt32) hmerged
  · rfl

/-- The function that the other calls go through leaves the same buffer. -/
theorem collapse_of_call {out : CollapseOut} (h : a.call = some out) :
    collapse a.buf1 a.buf2 a.w₁ a.w₂ a.k = some out.buf1 := by
  have hpos₁ : 0 < a.w₁ := a.pos₁
  have hpos₂ : 0 < a.w₂ := a.pos₂
  have hmerged : mergeBufs a.w₁ a.w₂ a.buf1 a.buf2 = a.merged := mergeBufs_eq
  rw [call_eq] at h
  split at h
  · cases h
  · rw [collapse, if_neg (by omega), if_neg (by omega), hmerged]
    cases htemp : toTempBuffer a.merged with
    | none => simp [htemp] at h
    | some temp =>
        cases hstored : storeLoop ((a.w₁ + a.w₂) / 2) (a.w₁ + a.w₂) a.k temp 0 0 with
        | none => simp [htemp, hstored] at h
        | some stored =>
            simp only [htemp, hstored, Option.bind_eq_bind, Option.bind_some] at h ⊢
            cases h
            rfl

/-- A call that ends has stored nothing that does not fit. -/
theorem fits_of_call {out : CollapseOut} (h : a.call = some out) :
    2 * a.k < 2 ^ 31 ∧ a.w₁ + a.w₂ < 2 ^ 31 ∧
      ∀ v, v ∈ a.buf1 ∨ v ∈ a.buf2 → v.toInt32.isSome :=
  fits_of_collapse (a.collapse_of_call h)

end Two

/-- Whole values come out as they went in. -/
theorem Two.Stores.collapsed {out : CollapseOut} (h : a.Stores out) (hex : a.Exact) :
    Collapsed a out := by
  have hranked : ∀ j < a.k, ∃ v, out.buf1[j]? = some v ∧ reach (a.rank j) a.merged = some v := by
    intro j hj
    obtain ⟨v, hv⟩ := a.exists_reach hj
    have hwhole := Double.isInt32_iff.mp (hex.whole j hj v hv)
    exact ⟨v, by rw [h.ranked j hj, hv, Option.bind_some, hwhole], hv⟩
  constructor
  · exact h.stores
  · exact h.length
  · exact hranked
  · rw [List.pairwise_iff_getElem]
    intro i j hi hj hij
    have hlen := h.length
    obtain ⟨x, hx, hrx⟩ := hranked i (by omega)
    obtain ⟨y, hy, hry⟩ := hranked j (by omega)
    rw [List.getElem?_eq_getElem hi, Option.some.injEq] at hx
    rw [List.getElem?_eq_getElem hj, Option.some.injEq] at hy
    rw [hx, hy]
    exact reach_mono a.merged_sorted (a.rank_mono hij.le) hrx hry
  · intro v hv
    obtain ⟨j, hj⟩ := List.mem_iff_getElem?.mp hv
    have hlt := (List.getElem?_eq_some_iff.mp hj).1
    obtain ⟨v', hv', hreach⟩ := hranked j (h.length ▸ hlt)
    obtain ⟨e, he, heq⟩ := mem_of_reach hreach
    rw [hj, Option.some.injEq] at hv'
    rw [hv', ← heq]
    exact a.mem_merged he
  · rw [h.weight, List.getD_eq_getElem?_getD, List.getElem?_set_ne a.idx_ne.symm,
      List.getElem?_set_self a.idx₁]
    rfl
  · rw [h.weight, List.getD_eq_getElem?_getD,
      List.getElem?_set_self (by rw [List.length_set]; exact a.idx₂)]
    rfl
  · intro i h₁ h₂
    rw [h.weight, List.getElem?_set_ne h₂.symm, List.getElem?_set_ne h₁.symm]

/-- Less than the rank lies strictly below the value, and the rank or more up to it. -/
theorem Collapsed.weighs {out : CollapseOut} (h : Collapsed a out) {j : Nat} {v : Double}
    (hv : out.buf1[j]? = some v) :
    weigh (fun x => decide (x < v)) a.merged < a.rank j ∧
      a.rank j ≤ weigh (fun x => decide (x ≤ v)) a.merged := by
  have hlt := (List.getElem?_eq_some_iff.mp hv).1
  obtain ⟨v', hv', hreach⟩ := h.ranked j (h.length ▸ hlt)
  rw [hv, Option.some.injEq] at hv'
  have hpos₁ : 0 < a.w₁ := a.pos₁
  have hpos₂ : 0 < a.w₂ := a.pos₂
  apply rank_of_reach a.merged_sorted
  · rw [Two.rank]
    omega
  · exact hv' ▸ hreach

/-- **When `Collapse` is exact**: each value that is kept is a whole number, no value is
too large for an `int`, and neither is the new weight. -/
theorem collapse_exact_iff (a : Two) :
    (∃ out, a.call = some out ∧ Collapsed a out) ↔ a.Exact := by
  constructor
  · intro h
    obtain ⟨out, hcall, hout⟩ := h
    obtain ⟨hk, hw, hfits⟩ := a.fits_of_call hcall
    obtain ⟨out', hcall', hstores⟩ := a.call_ends hk hw hfits
    rw [hcall, Option.some.injEq] at hcall'
    subst hcall'
    constructor
    · exact hk
    · exact hw
    · exact hfits
    · intro j hj v hv
      obtain ⟨v', hget, hv'⟩ := hout.ranked j hj
      rw [hv, Option.some.injEq] at hv'
      rw [hstores.ranked j hj, hv, Option.bind_some, ← hv'] at hget
      exact Double.isInt32_iff.mpr hget
  · intro h
    obtain ⟨out, hcall, hstores⟩ := a.call_ends h.k_fits h.weight_fits h.fits
    exact ⟨out, hcall, hstores.collapsed h⟩

/-- `1/2` -/
def half : Double := ⟨false, 1022, 0, Nat.le_of_ble_eq_true rfl, Nat.two_pow_pos 52⟩

/-- Two buffers that hold `1/2` once each. -/
def halves : Two where
  k := 1
  buf1 := [half]
  buf2 := [half]
  weight := [1, 1]
  bufidx1 := 0
  bufidx2 := 1
  k_lt := by norm_num
  length₁ := rfl
  length₂ := rfl
  sorted₁ := List.pairwise_singleton _ _
  sorted₂ := List.pairwise_singleton _ _
  weight_lt := by simp
  idx₁ := Nat.zero_lt_two
  idx₂ := Nat.one_lt_two
  idx_ne := Nat.zero_ne_one
  pos₁ := Nat.one_pos
  pos₂ := Nat.one_pos

/-- The middle of twice `1/2` comes out as zero. -/
theorem halves_fail : ∃ out, halves.call = some out ∧ out.buf1 = [Double.zero] ∧
    ¬ Collapsed halves out := by
  have hhalf : half.toInt32 = some 0 := by decide +kernel
  refine ⟨⟨[Double.zero], [2, 0], 1⟩, ?_, rfl, ?_⟩
  · rw [Two.call_eq]
    simp [halves, Two.merged, Two.w₁, Two.w₂, toTempBuffer, hhalf, storeLoop, storeTurns]
  · intro h
    have := h.unchanged Double.zero (by simp)
    simp [halves, half, Double.zero] at this

end QStore.Approx
