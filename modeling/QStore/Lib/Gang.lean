import Mathlib.Algebra.Ring.Nat
import Mathlib.Data.List.Range
import Mathlib.Data.List.Perm.Basic
import Mathlib.Logic.Function.Basic
import Mathlib.Tactic.Common

/-!
# QStore.Lib.Gang

Programs that run in gangs of lanes. A varying value is a function of the lane, a branch is
taken under a mask, and what is done in it is done for the lanes that the mask leaves active:

```
lane                     0  1  2  3
mask                     1  0  1  1
exclusive_scan_add(1)    0     1  2
packed_store_active      values of lanes 0, 2, 3, one behind the other
```

A store is a list of writes, and writes to places of their own may be done in any order
(`writes_perm`).
-/

namespace QStore.Gang

/-! ## writes -/

section Writes

variable {β : Type*} {ws ws' : List (Nat × β)} {a : Nat → β} {i : Nat} {x : β}

/-- Writes to an array, one after the other. -/
def writes (a : Nat → β) (ws : List (Nat × β)) : Nat → β :=
  ws.foldl (fun a w => Function.update a w.1 w.2) a

@[simp] theorem writes_nil : writes a [] = a := rfl

theorem writes_append : writes a (ws ++ ws') = writes (writes a ws) ws' :=
  List.foldl_append

theorem writes_concat : writes a (ws ++ [(i, x)]) = Function.update (writes a ws) i x := by
  rw [writes_append]
  rfl

/-- What is not written to is kept. -/
theorem writes_of_not_mem (h : i ∉ ws.map Prod.fst) : writes a ws i = a i := by
  induction ws generalizing a with
  | nil => rfl
  | cons w ws ih =>
      rw [List.map_cons, List.mem_cons, not_or] at h
      have hrest : writes (Function.update a w.1 w.2) ws i = Function.update a w.1 w.2 i := ih h.2
      rw [Function.update_of_ne h.1] at hrest
      exact hrest

/-- A place that is written once has what was written. -/
theorem writes_of_mem (hnd : (ws.map Prod.fst).Nodup) (h : (i, x) ∈ ws) : writes a ws i = x := by
  induction ws generalizing a with
  | nil => cases h
  | cons w ws ih =>
      rw [List.map_cons, List.nodup_cons] at hnd
      cases List.mem_cons.mp h with
      | inl heq =>
          subst heq
          have hrest : writes (Function.update a i x) ws i = Function.update a i x i :=
            writes_of_not_mem hnd.1
          rw [Function.update_self] at hrest
          exact hrest
      | inr hmem => exact ih hnd.2 hmem

/-- **The order does not matter** when no place is written twice. -/
theorem writes_perm (h : ws.Perm ws') (hnd : (ws.map Prod.fst).Nodup) :
    writes a ws = writes a ws' := by
  have hkeys := h.map Prod.fst
  funext i
  by_cases hi : i ∈ ws.map Prod.fst
  · obtain ⟨w, hw, rfl⟩ := List.mem_map.mp hi
    rw [writes_of_mem hnd hw, writes_of_mem (hkeys.nodup hnd) (h.mem_iff.mp hw)]
  · rw [writes_of_not_mem hi, writes_of_not_mem fun hi' => hi (hkeys.mem_iff.mpr hi')]

/-- A loop that changes entries one by one, each from what it was. -/
theorem foldl_update {ι : Type*} [DecidableEq ι] (g : ι → β → β) {l : List ι} (hl : l.Nodup)
    (a : ι → β) : l.foldl (fun a i => Function.update a i (g i (a i))) a =
      fun i => if i ∈ l then g i (a i) else a i := by
  induction l generalizing a with
  | nil => simp
  | cons j l ih =>
      rw [List.nodup_cons] at hl
      rw [List.foldl_cons, ih hl.2]
      funext i
      by_cases hij : i = j
      · subst hij
        simp [hl.1]
      · simp [hij]

end Writes

/-! ## lanes -/

section Lanes

variable {β : Type*} (width : Nat) (mask : Nat → Bool)

/-- The active lanes. -/
def active : List Nat := (List.range width).filter mask

/-- `exclusive_scan_add`: the sum over the active lanes before this one. -/
def exclusiveScanAdd (v : Nat → Nat) (lane : Nat) : Nat :=
  ((active lane mask).map v).sum

/-- A store through an index of each lane. -/
def scatter (a : Nat → β) (idx : Nat → Nat) (v : Nat → β) : Nat → β :=
  writes a ((active width mask).map fun lane => (idx lane, v lane))

/-- `packed_store_active`: the array from `start` on, and how many values were stored. -/
def packedStoreActive (a : Nat → β) (start : Nat) (v : Nat → β) : (Nat → β) × Nat :=
  (writes a ((active width mask).mapIdx fun k lane => (start + k, v lane)),
    (active width mask).length)

variable {width mask} {lane k : Nat}

theorem mem_active : lane ∈ active width mask ↔ lane < width ∧ mask lane = true := by
  simp [active]

theorem active_succ : active (width + 1) mask =
    active width mask ++ if mask width then [width] else [] := by
  rw [active, active, List.range_succ, List.filter_append, List.filter_singleton]
  cases mask width <;> rfl

/-- A loop that is left by the last lanes. -/
theorem active_and {n : Nat} (go : Nat → Bool) :
    active width (fun lane => decide (lane < n) && go lane) = active (min width n) go := by
  have hlt : (List.range width).filter (fun lane => decide (lane < n)) =
      List.range (min width n) := by
    induction width with
    | zero => simp
    | succ width ih =>
        rw [List.range_succ, List.filter_append, ih, List.filter_singleton]
        by_cases h : width < n
        · rw [decide_eq_true h, Nat.min_eq_left h.le, Nat.min_eq_left h, List.range_succ]
          rfl
        · rw [decide_eq_false h, Nat.min_eq_right (by omega), Nat.min_eq_right (by omega)]
          simp
  rw [active, active, ← hlt, List.filter_filter]
  congr 1
  funext lane
  exact Bool.and_comm _ _

theorem length_active_mono (mask : Nat → Bool) {n m : Nat} (h : n ≤ m) :
    (active n mask).length ≤ (active m mask).length := by
  induction m with
  | zero => simp [Nat.le_zero.mp h]
  | succ m ih =>
      cases Nat.eq_or_lt_of_le h with
      | inl heq => rw [heq]
      | inr hlt =>
          rw [active_succ, List.length_append]
          exact (ih (by omega)).trans (Nat.le_add_right _ _)

theorem length_active_lt {n m : Nat} (h : n < m) (hn : mask n = true) :
    (active n mask).length < (active m mask).length := by
  have hone : (active (n + 1) mask).length = (active n mask).length + 1 := by
    rw [active_succ, if_pos hn, List.length_append, List.length_singleton]
  have hle : (active (n + 1) mask).length ≤ (active m mask).length := length_active_mono mask h
  omega

theorem length_active_add (go : Nat → Bool) (n : Nat) :
    (active n go).length + (active n fun lane => !go lane).length = n := by
  rw [← List.length_append]
  exact (List.filter_append_perm go (List.range n)).length_eq.trans List.length_range

/-- The number of active lanes before a lane. -/
theorem exclusiveScanAdd_one : exclusiveScanAdd mask (fun _ => 1) lane =
    (active lane mask).length := by
  simp [exclusiveScanAdd]

/-- The scan numbers the active lanes. -/
theorem map_scan_active (width : Nat) (mask : Nat → Bool) :
    (active width mask).map (exclusiveScanAdd mask fun _ => 1) =
      List.range (active width mask).length := by
  induction width with
  | zero => rfl
  | succ width ih =>
      rw [active_succ]
      cases mask width with
      | false => simpa using ih
      | true =>
          rw [if_pos rfl, List.map_append, ih, List.map_singleton, exclusiveScanAdd_one,
            List.length_append, List.length_singleton, List.range_succ]

/-- So a packed store puts the value of a lane where the scan says. -/
theorem packedStoreActive_eq {a : Nat → β} {start : Nat} {v : Nat → β} :
    packedStoreActive width mask a start v =
      (scatter width mask a (fun lane => start + exclusiveScanAdd mask (fun _ => 1) lane) v,
        (active width mask).length) := by
  have hmap : (active width mask).mapIdx (fun k lane => (start + k, v lane)) =
      (active width mask).map fun lane =>
        (start + exclusiveScanAdd mask (fun _ => 1) lane, v lane) := by
    apply List.ext_getElem
    · simp
    · intro k h₁ h₂
      have hk : k < (active width mask).length := by simpa using h₁
      have hscan : exclusiveScanAdd mask (fun _ => 1) (active width mask)[k] = k := by
        have hget := congrArg (·[k]?) (map_scan_active width mask)
        simpa [List.getElem?_eq_getElem, hk] using hget
      simp [hscan]
  rw [packedStoreActive, hmap]
  rfl

end Lanes

/-! ## `foreach` -/

variable {width : Nat}

/-- `foreach (i = lb ... ub)`: gangs from `lb` on, the last one with the lanes that are left. -/
def gangs (width lb ub : Nat) : List Nat :=
  (List.range ((ub - lb + (width - 1)) / width)).map fun g => lb + g * width

/-- As many gangs as are needed, and no more. -/
theorem gangs_enough (hw : 0 < width) (m : Nat) :
    m ≤ (m + (width - 1)) / width * width ∧
      (((m + (width - 1)) / width - 1) * width < m ∨ (m + (width - 1)) / width = 0) := by
  have hdiv := Nat.div_add_mod' (m + (width - 1)) width
  have hmod := Nat.mod_lt (m + (width - 1)) hw
  constructor
  · omega
  · by_cases hzero : (m + (width - 1)) / width = 0
    · exact .inr hzero
    · left
      obtain ⟨q, hq⟩ := Nat.exists_eq_succ_of_ne_zero hzero
      rw [hq, Nat.succ_mul] at hdiv
      rw [hq, Nat.succ_sub_one]
      omega

end QStore.Gang
