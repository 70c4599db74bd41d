import QStore.Lib.MixedRadix
import Mathlib.Data.List.ProdSigma

/-!
# QStore.Operators.MkTemplate

`mk_template` (`MDB/lua/mk_template.lua`): for raw attributes with so many derived ones each, all
ways to take at most one derived attribute of every raw one.

```
T = {3, 4, 2}     derived attributes   1 2 3 | 4 5 6 7 | 8 9
                  rows                 0 0 0, 0 0 8, 0 0 9, 0 4 0, …, 3 7 9
```

The rows are counted out by an odometer whose wheels have `T[i] + 1` positions.
-/

namespace QStore.Operators

open QStore.MixedRadix

/-- What `mk_template` returns. -/
structure Template where
  ct : List (List Nat)
  nR : Nat
  nD : Nat
  nC : Nat

/-- `F`, the numbers of the derived attributes of each raw one, from `ctr` on. -/
def derived : Nat → List Nat → List (List Nat)
  | _, [] => []
  | ctr, v :: T => List.range' ctr v :: derived (ctr + v) T

/-- `rollover`, from the right. -/
def rollover : List Nat → List Nat
  | [] => []
  | [_] => [1]
  | _ :: t :: T =>
      let rest := rollover (t :: T)
      (t + 1) * rest.headD 0 :: rest

/-- One row, as the odometer stands. -/
def templateRow (F : List (List Nat)) (odometer : List Nat) : List Nat :=
  List.zipWith (fun f x => if x ≠ 0 then f.getD (x - 1) 0 else x) F odometer

/-- The odometer after row `k`. -/
def turn (T : List Nat) (k : Nat) (odometer : List Nat) : List Nat :=
  List.zipWith (fun p x =>
    if k % p.2 = 0 then if x + 1 > p.1 then 0 else x + 1 else x) (T.zip (rollover T)) odometer

/-- The loop over the rows, from row `k` on, with `left` to go. -/
def templateRows (T : List Nat) (F : List (List Nat)) : Nat → Nat → List Nat → List (List Nat)
  | 0, _, _ => []
  | left + 1, k, odometer =>
      templateRow F odometer :: templateRows T F left (k + 1) (turn T k odometer)

/-- `nR` -/
def numRows (T : List Nat) : Nat := (T.map (· + 1)).prod

/-- `mk_template`, which asserts that there are two raw attributes. -/
def mkTemplate (T : List Nat) : Option Template :=
  if T.length > 1 then
    some ⟨templateRows T (derived 1 T) (numRows T) 1 (List.replicate T.length 0), numRows T, T.sum,
      T.length⟩
  else none

variable {T c odometer : List Nat} {k left x : Nat}

/-! ## the odometer -/

theorem numRows_pos (T : List Nat) : 0 < numRows T := by
  induction T with
  | nil => exact Nat.one_pos
  | cons t T ih =>
      rw [numRows, List.map_cons, List.prod_cons]
      exact Nat.mul_pos (Nat.succ_pos t) ih

/-- A wheel rolls over after as many rows as those behind it can show. -/
theorem rollover_cons (t : Nat) (T : List Nat) : rollover (t :: T) = numRows T :: rollover T := by
  induction T generalizing t with
  | nil => rfl
  | cons s T ih =>
      rw [rollover, ih s]
      rfl

/-- The wheels at row `k`, counted from 0. -/
def wheels (T : List Nat) (k : Nat) : List Nat := digits (T.map (· + 1)) k

theorem wheels_cons (t : Nat) (T : List Nat) (k : Nat) :
    wheels (t :: T) k = k / numRows T % (t + 1) :: wheels T k := rfl

theorem wheels_zero (T : List Nat) : wheels T 0 = List.replicate T.length 0 := by
  induction T with
  | nil => rfl
  | cons t T ih =>
      rw [wheels_cons, ih, Nat.zero_div, Nat.zero_mod, List.length_cons, List.replicate_succ]

/-- A wheel moves on when the rows of those behind it have been seen, and wraps around. -/
theorem turn_wheel (t k r : Nat) :
    (if (k + 1) % r = 0 then if k / r % (t + 1) + 1 > t then 0 else k / r % (t + 1) + 1
      else k / r % (t + 1)) = (k + 1) / r % (t + 1) := by
  have hlt : k / r % (t + 1) < t + 1 := Nat.mod_lt (k / r) (Nat.succ_pos t)
  rw [Nat.succ_div]
  split
  · next hk =>
    rw [if_pos (Nat.dvd_of_mod_eq_zero hk), ← Nat.mod_add_mod (k / r) (t + 1) 1]
    split
    · next hwrap => rw [show k / r % (t + 1) + 1 = t + 1 by omega, Nat.mod_self]
    · next hmove => exact (Nat.mod_eq_of_lt (by omega)).symm
  · next hk =>
    rw [if_neg fun hdvd => hk (Nat.mod_eq_zero_of_dvd hdvd)]
    rfl

theorem turn_wheels (T : List Nat) (k : Nat) : turn T (k + 1) (wheels T k) = wheels T (k + 1) := by
  induction T with
  | nil => rfl
  | cons t T ih =>
      rw [turn, rollover_cons, wheels_cons, List.zip_cons_cons, List.zipWith_cons_cons,
        wheels_cons, turn_wheel t k (numRows T)]
      exact congrArg _ ih

/-- **The rows** are those of the wheels, one after the other. -/
theorem templateRows_eq (T : List Nat) (F : List (List Nat)) (left k : Nat) :
    templateRows T F left (k + 1) (wheels T k) =
      (List.range' k left).map fun i => templateRow F (wheels T i) := by
  induction left generalizing k with
  | zero => rfl
  | succ left ih =>
      rw [templateRows, turn_wheels, ih, List.range'_succ, List.map_cons]

/-! ## combinations -/

/-- A choice of derived attributes: of each raw one none, or the `c[i]`-th. -/
def Combination (T c : List Nat) : Prop := List.Forall₂ (· ≤ ·) c T

/-- A choice, written with the numbers of the attributes. -/
def written (T c : List Nat) : List Nat :=
  c.mapIdx fun i x => if x = 0 then 0 else (T.take i).sum + x

/-- Each combination is a row, each row is one, and none comes twice. -/
structure Enumerates (T : List Nat) (tmpl : Template) : Prop where
  length : tmpl.ct.length = tmpl.nR
  sound : ∀ row ∈ tmpl.ct, ∃ c, Combination T c ∧ row = written T c
  once : ∀ c, Combination T c → ∃! k : Nat, tmpl.ct[k]? = some (written T c)

theorem combination_wheels (T : List Nat) (k : Nat) : Combination T (wheels T k) := by
  have h := digits_lt (numRows_pos T) k
  rw [List.forall₂_map_right_iff] at h
  exact h.imp fun _ _ => Nat.le_of_lt_succ

theorem existsUnique_wheels (h : Combination T c) : ∃! k, k < numRows T ∧ wheels T k = c := by
  refine existsUnique_digits ?_
  rw [List.forall₂_map_right_iff]
  exact h.imp fun _ _ => Nat.lt_succ_of_le

/-- The choice of one raw attribute. -/
theorem getD_derived {t off : Nat} (h : x ≤ t) :
    (if x ≠ 0 then (List.range' (off + 1) t).getD (x - 1) 0 else x) =
      if x = 0 then 0 else off + x := by
  by_cases hx : x = 0
  · rw [if_neg (not_not.mpr hx), if_pos hx, hx]
  · rw [if_pos hx, if_neg hx, List.getD_eq_getElem?_getD, List.getElem?_range' (by omega),
      Option.getD_some]
    omega

theorem templateRow_derived (h : Combination T c) (off : Nat) :
    templateRow (derived (off + 1) T) c =
      c.mapIdx fun i x => if x = 0 then 0 else off + (T.take i).sum + x := by
  induction h generalizing off with
  | nil => rfl
  | @cons x t c T hx _ ih =>
      rw [derived, templateRow, List.zipWith_cons_cons, getD_derived hx, List.mapIdx_cons,
        Nat.add_right_comm off 1 t]
      refine congrArg₂ List.cons rfl ((ih (off + t)).trans ?_)
      simp only [List.take_succ_cons, List.sum_cons, Nat.add_assoc]

theorem templateRow_eq (h : Combination T c) : templateRow (derived 1 T) c = written T c := by
  rw [written]
  simpa only [Nat.zero_add] using templateRow_derived h 0

/-- The choice can be read off a row. -/
theorem written_inj {c' : List Nat} (hc : Combination T c) (hc' : Combination T c')
    (h : written T c = written T c') : c = c' := by
  apply List.ext_getElem?
  intro i
  have hi := congrArg (·[i]?) h
  simp only [written, List.getElem?_mapIdx] at hi
  have hlen : c.length = c'.length := hc.length_eq.trans hc'.length_eq.symm
  by_cases hlt : i < c.length
  · rw [List.getElem?_eq_getElem hlt, List.getElem?_eq_getElem (hlen ▸ hlt)] at hi ⊢
    simp only [Option.map_some, Option.some.injEq] at hi ⊢
    split at hi <;> split at hi <;> omega
  · rw [List.getElem?_eq_none (by omega), List.getElem?_eq_none (by omega)]

theorem getElem?_ct (T : List Nat) (k : Nat) :
    (templateRows T (derived 1 T) (numRows T) 1 (List.replicate T.length 0))[k]? =
      if k < numRows T then some (written T (wheels T k)) else none := by
  rw [← wheels_zero, templateRows_eq, List.getElem?_map]
  split
  · next hk =>
    rw [List.getElem?_range' hk, Option.map_some, Nat.zero_add, Nat.one_mul,
      templateRow_eq (combination_wheels T k)]
  · next hk => rw [List.getElem?_eq_none (by rw [List.length_range']; omega), Option.map_none]

theorem enumerates_mkTemplate {tmpl : Template} (h : mkTemplate T = some tmpl) :
    Enumerates T tmpl := by
  rw [mkTemplate] at h
  split at h
  · rw [← Option.some.inj h]
    refine ⟨?_, ?_, ?_⟩
    · rw [← wheels_zero, templateRows_eq, List.length_map, List.length_range']
    · intro row hrow
      obtain ⟨k, hk⟩ := List.mem_iff_getElem?.mp hrow
      rw [getElem?_ct] at hk
      split at hk
      · exact ⟨_, combination_wheels T k, (Option.some.inj hk).symm⟩
      · contradiction
    · intro c hc
      obtain ⟨k, ⟨hlt, hk⟩, huniq⟩ := existsUnique_wheels hc
      refine ⟨k, ?_, ?_⟩
      · simp only [getElem?_ct, if_pos hlt, hk]
      · intro k' hk'
        simp only [getElem?_ct] at hk'
        split at hk'
        · next hlt' =>
          exact huniq k' ⟨hlt', written_inj (combination_wheels T k') hc (Option.some.inj hk')⟩
        · contradiction
  · contradiction

/-- In the first row nothing is chosen. -/
theorem mkTemplate_zero {tmpl : Template} (h : mkTemplate T = some tmpl) :
    0 < tmpl.nR ∧ (tmpl.ct.getD 0 []).length = T.length ∧ ∀ t ∈ tmpl.ct.getD 0 [], t = 0 := by
  rw [mkTemplate] at h
  split at h
  · have hrow : (templateRows T (derived 1 T) (numRows T) 1 (List.replicate T.length 0)).getD 0 [] =
        written T (List.replicate T.length 0) := by
      rw [List.getD_eq_getElem?_getD, getElem?_ct, if_pos (numRows_pos T), wheels_zero,
        Option.getD_some]
    rw [← Option.some.inj h]
    simp only [hrow]
    refine ⟨numRows_pos T, by rw [written, List.length_mapIdx, List.length_replicate], ?_⟩
    intro t ht
    obtain ⟨i, hi, rfl⟩ := List.mem_iff_getElem.mp ht
    simp [written]
  · contradiction

/-- **`mk_template` enumerates** the combinations of two or more raw attributes. -/
theorem mkTemplate_enumerates (h : 1 < T.length) :
    ∃ tmpl, mkTemplate T = some tmpl ∧ Enumerates T tmpl :=
  ⟨_, if_pos h, enumerates_mkTemplate (if_pos h)⟩

theorem mkTemplate_enumerates_three : ∃ tmpl, mkTemplate [3, 4, 2] = some tmpl ∧
    Enumerates [3, 4, 2] tmpl :=
  mkTemplate_enumerates (by decide)

end QStore.Operators
