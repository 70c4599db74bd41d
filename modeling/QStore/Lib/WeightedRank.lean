import Mathlib.Algebra.Order.BigOperators.Group.List
import Mathlib.Order.Lattice
import Mathlib.Algebra.Order.Monoid.Canonical.Basic
import Mathlib.Algebra.Order.Ring.Nat
import Mathlib.Tactic.Common

/-!
# QStore.Lib.WeightedRank

Values that count as often as their weight says. `weigh p l` is how much of `l` has
the property `p`; the value at which a sorted list reaches the weight `t` has less
than `t` strictly below it and `t` or more up to it.

```
value    2  3  3  7          reach 4 = 3:   below 3 weighs 2 < 4
weight   2  0  5  1                         up to 3 weighs 7 ≥ 4
```
-/

namespace QStore

variable {α : Type*} {p q : α → Bool} {l l' : List (α × Nat)} {t : Nat} {v : α}

/-- The weight of what has the property. -/
def weigh (p : α → Bool) (l : List (α × Nat)) : Nat :=
  (l.map fun e => if p e.1 then e.2 else 0).sum

@[simp] theorem weigh_nil : weigh p [] = 0 := rfl

@[simp] theorem weigh_cons {e : α × Nat} :
    weigh p (e :: l) = (if p e.1 then e.2 else 0) + weigh p l := by
  simp [weigh]

@[simp] theorem weigh_append : weigh p (l ++ l') = weigh p l + weigh p l' := by
  simp [weigh]

theorem weigh_perm (h : l.Perm l') : weigh p l = weigh p l' :=
  (h.map _).sum_eq

theorem weigh_mono (h : ∀ e ∈ l, p e.1 → q e.1) : weigh p l ≤ weigh q l := by
  induction l with
  | nil => simp
  | cons e l ih =>
      have hl := ih fun e he => h e (List.mem_cons_of_mem _ he)
      have he := h e List.mem_cons_self
      rw [weigh_cons, weigh_cons]
      by_cases hp : p e.1
      · rw [if_pos hp, if_pos (he hp)]
        omega
      · rw [if_neg hp]
        omega

theorem weigh_eq_zero (h : ∀ e ∈ l, p e.1 = false) : weigh p l = 0 := by
  induction l with
  | nil => simp
  | cons e l ih =>
      rw [weigh_cons, ih fun e he => h e (List.mem_cons_of_mem _ he), h e List.mem_cons_self]
      simp

theorem exists_of_weigh_pos (h : 0 < weigh p l) : ∃ e ∈ l, p e.1 := by
  by_contra hcon
  have hzero : weigh p l = 0 := weigh_eq_zero fun e he => by
    rw [← Bool.not_eq_true]
    exact fun hp => hcon ⟨e, he, hp⟩
  omega

/-- Values of one weight are counted. -/
theorem weigh_same (p : α → Bool) (w : Nat) (xs : List α) :
    weigh p (xs.map fun x => (x, w)) = xs.countP p * w := by
  induction xs with
  | nil => simp
  | cons x xs ih =>
      rw [List.map_cons, weigh_cons, ih, List.countP_cons]
      split
      · rw [Nat.succ_mul, Nat.add_comm]
      · simp

theorem weigh_ones (p : α → Bool) (xs : List α) :
    weigh p (xs.map fun x => (x, 1)) = xs.countP p := by
  rw [weigh_same, Nat.mul_one]

theorem weigh_zeros (p : α → Bool) (xs : List α) : weigh p (xs.map fun x => (x, 0)) = 0 := by
  rw [weigh_same, Nat.mul_zero]

theorem weigh_flatMap_replicate {β : Type*} (p : α → Bool) (f : β → List (α × Nat)) (n : Nat)
    (b : β) : weigh p ((List.replicate n b).flatMap f) = n * weigh p (f b) := by
  induction n with
  | zero => simp
  | succ n ih =>
      rw [List.replicate_succ, List.flatMap_cons, weigh_append, ih, Nat.succ_mul, Nat.add_comm]

/-! ## where a running weight reaches `t` -/

/-- The first value at which the weight so far is `t` or more. -/
def reach (t : Nat) : List (α × Nat) → Option α
  | [] => none
  | e :: l => if t ≤ e.2 then some e.1 else reach (t - e.2) l

theorem reach_isSome (hne : l ≠ []) (h : t ≤ weigh (fun _ => true) l) :
    ∃ v, reach t l = some v := by
  induction l generalizing t with
  | nil => exact absurd rfl hne
  | cons e l ih =>
      by_cases he : t ≤ e.2
      · exact ⟨e.1, by rw [reach, if_pos he]⟩
      · rw [weigh_cons, if_pos rfl] at h
        have hl : l ≠ [] := fun hnil => by
          rw [hnil, weigh_nil] at h
          omega
        rw [reach, if_neg he]
        exact ih hl (by omega)

theorem mem_of_reach (h : reach t l = some v) : ∃ e ∈ l, e.1 = v := by
  induction l generalizing t with
  | nil => cases h
  | cons e l ih =>
      rw [reach] at h
      split at h
      · cases h
        exact ⟨e, List.mem_cons_self, rfl⟩
      · obtain ⟨e', he', hv⟩ := ih h
        exact ⟨e', List.mem_cons_of_mem _ he', hv⟩

variable [Preorder α]

/-- Nothing comes before the value at which no weight at all is reached. -/
theorem le_of_reach_zero (hs : l.Pairwise fun a b => a.1 ≤ b.1) (h : reach 0 l = some v) :
    ∀ e ∈ l, v ≤ e.1 := by
  cases l with
  | nil => cases h
  | cons a l =>
      rw [reach, if_pos (Nat.zero_le _)] at h
      cases h
      intro e he
      cases List.mem_cons.mp he with
      | inl heq => exact heq ▸ le_refl _
      | inr hmem => exact List.rel_of_pairwise_cons hs hmem

/-- A larger weight is reached later. -/
theorem reach_mono {t' : Nat} {v' : α} (hs : l.Pairwise fun a b => a.1 ≤ b.1) (ht : t ≤ t')
    (h : reach t l = some v) (h' : reach t' l = some v') : v ≤ v' := by
  induction l generalizing t t' with
  | nil => cases h
  | cons e l ih =>
      rw [reach] at h h'
      split at h
      · cases h
        split at h'
        · cases h'
          exact le_refl _
        · obtain ⟨a, ha, hav⟩ := mem_of_reach h'
          exact hav ▸ List.rel_of_pairwise_cons hs ha
      · rw [if_neg (by omega)] at h'
        exact ih hs.of_cons (Nat.sub_le_sub_right ht _) h h'

variable [DecidableLE α] [DecidableLT α]

/-- **The rank of the value** at which `t` is reached. -/
theorem rank_of_reach (hs : l.Pairwise fun a b => a.1 ≤ b.1) (ht : 0 < t)
    (h : reach t l = some v) :
    weigh (fun x => decide (x < v)) l < t ∧ t ≤ weigh (fun x => decide (x ≤ v)) l := by
  induction l generalizing t with
  | nil => cases h
  | cons e l ih =>
      rw [reach] at h
      split at h
      · next he =>
          cases h
          have hnone : weigh (fun x => decide (x < e.1)) l = 0 := weigh_eq_zero fun a ha => by
            simpa using (List.rel_of_pairwise_cons hs ha).not_gt
          simp only [weigh_cons, hnone, lt_irrefl, le_refl, decide_true, decide_false]
          constructor
          · simpa using ht
          · simp only [if_true]
            omega
      · next he =>
          obtain ⟨hlt, hle⟩ := ih hs.of_cons (by omega) h
          obtain ⟨a, ha, hav⟩ := mem_of_reach h
          have hev : e.1 ≤ v := hav ▸ List.rel_of_pairwise_cons hs ha
          rw [weigh_cons, weigh_cons]
          refine ⟨?_, ?_⟩
          · split <;> omega
          · rw [if_pos (by simpa using hev)]
            omega

end QStore
