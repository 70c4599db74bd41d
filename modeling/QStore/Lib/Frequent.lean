import Mathlib.Data.Multiset.AddSub
import Mathlib.Data.Multiset.Dedup
import Mathlib.Tactic.Common
import Mathlib.Tactic.Ring

/-!
# QStore.Lib.Frequent

Counting the frequent elements of a stream with few counters: the counters are a multiset `S`,
and the stream so far is a multiset `X`.

```
count      S + T            every counter of T is added
cut        S - S.dedup      one is taken off every counter, when more than c are in use
```

A cut takes more than `c` elements out of `S` and at most one of each kind. So after `d` cuts
no element is undercounted by more than `d`, and `d (c + 1)` elements of the stream are gone.
-/

namespace QStore

variable {α : Type*} [DecidableEq α] {c d n err : Nat} {X S T : Multiset α} {x : α}

/-- `S` is what `c` counters know of `X` after `d` cuts. -/
structure Summarises (c : Nat) (X S : Multiset α) (d : Nat) : Prop where
  le : S ≤ X
  near : ∀ x, X.count x ≤ S.count x + d
  card : S.card + d * (c + 1) ≤ X.card

namespace Summarises

theorem zero : Summarises c (0 : Multiset α) 0 0 := ⟨le_rfl, by simp, by simp⟩

/-- What is counted is counted on both sides. -/
theorem add (h : Summarises c X S d) (T : Multiset α) : Summarises c (X + T) (S + T) d where
  le := Multiset.add_le_add_iff_right.mpr h.le
  near x := by
    have := h.near x
    simp only [Multiset.count_add]
    omega
  card := by
    have := h.card
    simp only [Multiset.card_add]
    omega

/-- A cut of more than `c` counters. -/
theorem cut (h : Summarises c X S d) (hc : c < S.dedup.card) :
    Summarises c X (S - S.dedup) (d + 1) where
  le := (Multiset.sub_le_self _ _).trans h.le
  near x := by
    have := h.near x
    have hone : S.dedup.count x ≤ 1 := by
      rw [Multiset.count_dedup]
      split <;> simp
    rw [Multiset.count_sub]
    omega
  card := by
    have := h.card
    rw [Multiset.card_sub (Multiset.dedup_le S), Nat.add_mul, Nat.one_mul]
    have hle := Multiset.card_le_card (Multiset.dedup_le S)
    omega

theorem count_le (h : Summarises c X S d) (x : α) : S.count x ≤ X.count x :=
  Multiset.count_le_of_le x h.le

/-- **The error** of enough counters: with one for every `err` elements of the stream, and one
more, there are fewer than `err` cuts. -/
theorem cuts_lt (h : Summarises c X S d) (hX : X.card ≤ n) (herr : 0 < err)
    (hc : n / err + 1 ≤ c) : d < err := by
  by_contra hd
  have hcuts : err * (n / err + 2) ≤ d * (c + 1) :=
    Nat.mul_le_mul (Nat.le_of_not_lt hd) (Nat.succ_le_succ hc)
  have hn : n < err * (n / err + 1) := by
    rw [Nat.mul_comm]
    exact Nat.lt_mul_of_div_lt (Nat.lt_succ_self _) herr
  have hcard := h.card
  rw [Nat.mul_add] at hcuts hn
  omega

end Summarises

end QStore
