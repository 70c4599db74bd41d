import Mathlib.Order.Lattice
import Mathlib.Data.List.Sort
import QStore.Lib.ByKey

/-!
# QStore.Lib.Bins

Bins between bounds.  Bounds that increase cut an order into bins, each from one bound up to
the next: a value lies in one bin at most, in one if it lies between the first bound and the
last, and bins are ordered as their values are.  Putting the rows of the bins one behind the
other is a permutation, and sorting each of them sorts the whole.
-/

namespace QStore.Bins

variable {α ρ : Type} [LinearOrder α] {B : List α} {b c k : Nat} {v w : α}

/-- Whether a value lies in bin `b`. -/
def inBin (B : List α) (b : Nat) (v : α) : Bool :=
  match B[b]?, B[b + 1]? with
  | some l, some u => l ≤ v && v < u
  | _, _ => false

theorem inBin_iff : inBin B b v = true ↔
    ∃ h : b + 1 < B.length, B[b] ≤ v ∧ v < B[b + 1] := by
  rw [inBin]
  by_cases h : b + 1 < B.length
  · simp [List.getElem?_eq_getElem (Nat.lt_of_succ_lt h), h]
  · simp [h]

/-- Bounds do not decrease. -/
theorem bound_le (hB : B.Pairwise (· < ·)) (hbc : b ≤ c) (hc : c < B.length) :
    B.get ⟨b, by omega⟩ ≤ B.get ⟨c, hc⟩ := by
  cases Nat.eq_or_lt_of_le hbc with
  | inl h =>
      subst h
      exact le_rfl
  | inr h => exact (List.pairwise_iff_getElem.mp hB b c (by omega) hc h).le

/-- A value of an earlier bin is smaller. -/
theorem lt_of_inBin (hB : B.Pairwise (· < ·)) (hv : inBin B b v = true)
    (hw : inBin B c w = true) (hbc : b < c) : v < w := by
  obtain ⟨hb, _, hvu⟩ := inBin_iff.mp hv
  obtain ⟨hc, hwl, _⟩ := inBin_iff.mp hw
  calc
    v < B[b + 1] := hvu
    _ ≤ B[c] := bound_le hB (by omega) (by omega)
    _ ≤ w := hwl

/-- No value lies in two bins. -/
theorem inBin_unique (hB : B.Pairwise (· < ·)) (hb : inBin B b v = true)
    (hc : inBin B c v = true) : b = c := by
  by_contra hne
  cases Nat.lt_or_gt_of_ne hne with
  | inl h => exact absurd (lt_of_inBin hB hb hc h) (lt_irrefl v)
  | inr h => exact absurd (lt_of_inBin hB hc hb h) (lt_irrefl v)

/-- A value between two bounds lies in a bin between them. -/
theorem exists_inBin (hc : c < B.length) (hbc : b < c) (hl : B.get ⟨b, by omega⟩ ≤ v)
    (hu : v < B[c]) : ∃ k, b ≤ k ∧ k < c ∧ inBin B k v = true := by
  obtain ⟨d, rfl⟩ : ∃ d, c = b + d + 1 := ⟨c - b - 1, by omega⟩
  induction d with
  | zero => exact ⟨b, Nat.le_refl b, by omega, inBin_iff.mpr ⟨hc, hl, hu⟩⟩
  | succ d ih =>
      by_cases hmid : v < B[b + d + 1]
      · obtain ⟨k, hbk, hk, hin⟩ := ih (by omega) (by omega) hl hmid
        exact ⟨k, hbk, by omega, hin⟩
      · exact ⟨b + d + 1, by omega, by omega, inBin_iff.mpr ⟨hc, not_lt.mp hmid, hu⟩⟩

/-- Where the bin of a value lies with respect to another. -/
theorem lt_bound_iff (hB : B.Pairwise (· < ·)) (hk : inBin B k v = true) (hb : b < B.length) :
    v < B[b] ↔ k < b := by
  obtain ⟨hlen, hl, hu⟩ := inBin_iff.mp hk
  constructor
  · intro hv
    by_contra hle
    have := bound_le hB (by omega : b ≤ k) (by omega)
    exact absurd (hv.trans_le this) (not_lt.mpr hl)
  · intro hkb
    exact hu.trans_le (bound_le hB (by omega : k + 1 ≤ b) hb)

/-! ## rows by bin -/

variable {key : ρ → Nat} {n : Nat} {rows : List ρ}

/-- The rows of the first `n` bins, bin by bin. -/
def byBin (key : ρ → Nat) (n : Nat) (rows : List ρ) : List ρ :=
  (List.range n).flatMap fun b => ByKey.rowsOf key b rows

/-- **Rows of the bins one behind the other** are the rows. -/
theorem perm_byBin (h : ∀ r ∈ rows, key r < n) : (byBin key n rows).Perm rows := by
  induction n generalizing rows with
  | zero =>
      cases rows with
      | nil => simp [byBin]
      | cons r rows => exact absurd (h r (by simp)) (Nat.not_lt_zero _)
  | succ n ih =>
      -- the last bin apart, the others have no rows of it
      have hothers : byBin key n rows = byBin key n (rows.filter fun r => key r ≠ n) := by
        rw [byBin, byBin]
        apply List.flatMap_congr
        intro b hb
        have hne := List.mem_range.mp hb
        rw [ByKey.rowsOf, ByKey.rowsOf, List.filter_filter]
        apply List.filter_congr
        intro r _
        by_cases hr : key r = b
        · have : key r ≠ n := by omega
          simp [hr] at this ⊢
          omega
        · simp [hr]
      have hlower : ∀ r ∈ rows.filter fun r => key r ≠ n, key r < n := by
        intro r hr
        have h1 := h r (List.mem_filter.mp hr).1
        have h2 : key r ≠ n := by simpa using (List.mem_filter.mp hr).2
        omega
      have hrest := ih hlower
      have hlast : byBin key (n + 1) rows = byBin key n rows ++ ByKey.rowsOf key n rows := by
        simp [byBin, List.range_succ]
      rw [hlast, hothers]
      have hsplit := List.filter_append_perm (fun r => decide (key r ≠ n)) rows
      have hself : (rows.filter fun r => !decide (key r ≠ n)) = ByKey.rowsOf key n rows := by
        simp [ByKey.rowsOf]
      rw [hself] at hsplit
      exact (hrest.append_right _).trans hsplit

/-- **Sorted bins one behind the other** are sorted. -/
theorem pairwise_flatMap {val : Nat → List α} (hsorted : ∀ b, b < n → (val b).Pairwise (· ≤ ·))
    (hbins : ∀ b c, b < c → c < n → ∀ v ∈ val b, ∀ w ∈ val c, v ≤ w) :
    ((List.range n).flatMap val).Pairwise (· ≤ ·) := by
  induction n with
  | zero => simp
  | succ n ih =>
      rw [List.range_succ, List.flatMap_append, List.flatMap_singleton, List.pairwise_append]
      constructor
      · exact ih (fun b hb => hsorted b (by omega)) fun b c hbc hc => hbins b c hbc (by omega)
      · constructor
        · exact hsorted n (by omega)
        · intro v hv w hw
          obtain ⟨b, hb, hvb⟩ := List.mem_flatMap.mp hv
          exact hbins b n (List.mem_range.mp hb) (by omega) v hvb w hw

end QStore.Bins
