import QStore.Operators.DrgPartition
import Mathlib.Algebra.Ring.Nat

/-!
# QStore.Operators.DrgParts

`while (STACK_NOT_EMPTY)` to its end: the stack holds (`PartsFit`), and what is left for
the insertion sort has its least value among the first five (`Leads`).

`Leads` names the end `e` of a front that is still to be sorted or short. No value
behind it is before one of the front, unless a NaN stands between the two; that NaN is
in no part that waits, or the first of one, and rounds leave it where it is.
-/

namespace QStore.Operators

variable {B D K : Type} {last : Nat} [LinearOrder K] {key : (Fin (last + 1) → B) → Option K}
  {n : Nat} {s s' : SortArrays B D last} {lo hi left right e fuel : Nat}
  {parts rest : List (Nat × Nat)}

/-! ## the stack -/

/-- The stack while the first of `parts` is in work. -/
def waiting : List (Nat × Nat) → List (Option (Nat × Nat))
  | [] => []
  | _ :: rest => rest.map some ++ [none]

/-- Parts of more than `maxThresh` values, none of which overlap, and each so small that
those behind it are few. -/
def PartsFit (n : Nat) : List (Nat × Nat) → Prop
  | [] => True
  | g :: rest => g.1 + maxThresh ≤ g.2 ∧ g.2 < n ∧ (g.2 - g.1 + 1) * 2 ^ rest.length ≤ n ∧
      (∀ h ∈ rest, h.2 < g.1 ∨ g.2 < h.1) ∧ PartsFit n rest

/-- At most so many rounds are still to come. -/
def work (parts : List (Nat × Nat)) : Nat := (parts.map fun g => 2 * (g.2 - g.1) + 1).sum

/-- The pieces of a part that are still to be sorted, the smaller one first. -/
def pieces (lo hi left right : Nat) : List (Nat × Nat) :=
  if right ≤ lo + maxThresh then if hi ≤ left + maxThresh then [] else [(left, hi)]
  else if hi ≤ left + maxThresh then [(lo, right)]
  else if hi - left < right - lo then [(left, hi), (lo, right)]
  else [(lo, right), (left, hi)]

/-- What holds of both pieces and of the parts that waited holds of all that wait now. -/
theorem forall_mem_pieces {P : Nat × Nat → Prop} (hl : P (lo, right)) (hr : P (left, hi))
    (hrest : ∀ g ∈ rest, P g) : ∀ g ∈ pieces lo hi left right ++ rest, P g := by
  intro g hg
  rw [List.mem_append] at hg
  cases hg with
  | inl hg =>
    rw [pieces] at hg
    split_ifs at hg <;> simp only [List.mem_cons, List.not_mem_nil, or_false] at hg <;> grind
  | inr hg => exact hrest g hg

/-- A left piece that is not short is still to be sorted. -/
theorem left_mem_pieces (h : lo + maxThresh < right) : (lo, right) ∈ pieces lo hi left right := by
  rw [pieces, if_neg (by omega)]
  split_ifs <;> simp

theorem PartsFit.stack_lt (h : PartsFit n ((lo, hi) :: rest)) (hn : n < 2 ^ 64) :
    rest.length + 1 < stackSize := by
  by_contra hlong
  have hsize : 4 * 2 ^ rest.length ≤ (hi - lo + 1) * 2 ^ rest.length :=
    Nat.mul_le_mul_right _ (by have := h.1; rw [maxThresh] at this; omega)
  have hpow : 2 ^ 62 ≤ 2 ^ rest.length :=
    Nat.pow_le_pow_right (by decide) (by rw [stackSize] at hlong; omega)
  have hle := h.2.2.1
  simp only at hle
  omega

/-- The larger piece waits for the smaller one, which is at most half of the part. -/
theorem PartsFit.pieces (h : PartsFit n ((lo, hi) :: rest)) (hlo : lo ≤ right) (hlt : right < left)
    (hhi : left ≤ hi) : PartsFit n (pieces lo hi left right ++ rest) := by
  obtain ⟨hlen, hn, hsize, hdis, hrest⟩ := h
  simp only at hlen hn hsize hdis
  have hone : ∀ a b, lo ≤ a → a + maxThresh < b → b ≤ hi → PartsFit n ((a, b) :: rest) := by
    intro a b ha hab hb
    refine ⟨hab.le, by simp only; omega, le_trans ?_ hsize, fun g hg => ?_, hrest⟩
    · exact Nat.mul_le_mul_right _ (by simp only; omega)
    · have := hdis g hg
      simp only
      omega
  have htwo : ∀ a b c d, lo ≤ a → a + maxThresh < b → b ≤ hi → lo ≤ c → c + maxThresh < d →
      d ≤ hi → (d < a ∨ b < c) → b - a ≤ d - c → PartsFit n ((a, b) :: (c, d) :: rest) := by
    intro a b c d ha hab hb hc hcd hd hdis' hle
    refine ⟨hab.le, by simp only; omega, ?_, fun g hg => ?_, hone c d hc hcd hd⟩
    · rw [List.length_cons, Nat.pow_succ', ← Nat.mul_assoc]
      refine le_trans (Nat.mul_le_mul_right _ ?_) hsize
      simp only
      omega
    · rw [List.mem_cons] at hg
      cases hg with
      | inl hg => subst hg; exact hdis'
      | inr hg =>
        have := hdis g hg
        simp only
        omega
  rw [QStore.Operators.pieces]
  split_ifs with h₁ h₂ h₂ h₃
  · exact hrest
  · exact hone left hi (by omega) (by omega) le_rfl
  · exact hone lo right le_rfl (by omega) (by omega)
  · exact htwo left hi lo right (by omega) (by omega) le_rfl le_rfl (by omega) (by omega)
      (by omega) (by omega)
  · exact htwo lo right left hi le_rfl (by omega) (by omega) (by omega) (by omega) le_rfl
      (by omega) (by omega)

theorem work_pieces_lt (hlo : lo ≤ right) (hlt : right < left) (hhi : left ≤ hi) :
    work (pieces lo hi left right ++ rest) < work ((lo, hi) :: rest) := by
  rw [pieces]
  split_ifs <;> simp [work] <;> omega

theorem isSmall_iff (h : lo ≤ hi) : isSmall hi lo = true ↔ hi ≤ lo + maxThresh := by
  rw [isSmall, decide_eq_true_iff]
  omega

/-- The end of a round: `lo` and `hi` for the next one, what is pushed and what popped. -/
theorem sortParts_succ {s₁ : SortArrays B D last} {w : Walls B D last}
    (hmed : medianOfThree key n lo (lo + (hi - lo) / 2) hi s = some s₁)
    (hback : stepBack hi = some (hi - 1))
    (hrun : collapseWalls key n (n + 1) s₁ (lo + 1) (hi - 1) (lo + (hi - lo) / 2) = some w)
    (h : Round key lo hi s w) (hstack : rest.length + 1 < stackSize) :
    sortParts key n (fuel + 1) s (some (lo, hi)) (waiting ((lo, hi) :: rest)) =
      sortParts key n fuel w.arrays (pieces lo hi w.left w.right ++ rest).head?
        (waiting (pieces lo hi w.left w.right ++ rest)) := by
  have hpush : ∀ node, pushNode node (rest.map some ++ [none]) =
      some (node :: (rest.map some ++ [none])) := by
    intro node
    rw [pushNode, if_pos (by simpa using hstack)]
  have hlo := h.lo_le
  have hlt := h.lt
  have hhi := h.le_hi
  obtain ⟨top, stack, hwait⟩ : ∃ top stack, rest.map some ++ [none] = top :: stack :=
    List.exists_cons_of_ne_nil (by simp)
  have htop : rest.head? = top ∧ waiting rest = stack := by
    cases rest with
    | nil => cases hwait; exact ⟨rfl, rfl⟩
    | cons g rest => cases hwait; exact ⟨rfl, rfl⟩
  rw [waiting, hwait, sortParts]
  rw [hwait] at hpush
  simp only [hmed, hback, hrun, Option.bind_eq_bind, Option.bind_some, isSmall_iff hlo,
    isSmall_iff hhi, hpush]
  rw [pieces]
  by_cases h₁ : w.right ≤ lo + maxThresh
  · by_cases h₂ : hi ≤ w.left + maxThresh
    · rw [if_pos h₁, if_pos h₂, if_pos h₁, if_pos h₂, List.nil_append, htop.1, htop.2]
    · rw [if_pos h₁, if_neg h₂, if_pos h₁, if_neg h₂, ← hwait]
      rfl
  · by_cases h₂ : hi ≤ w.left + maxThresh
    · rw [if_neg h₁, if_pos h₂, if_neg h₁, if_pos h₂, ← hwait]
      rfl
    · rw [if_neg h₁, if_neg h₂, if_neg h₁, if_neg h₂, ← hwait]
      by_cases h₃ : hi - w.left < w.right - lo
      · rw [if_pos (by omega), if_pos h₃]
        rfl
      · rw [if_neg (by omega), if_neg h₃]
        rfl

/-! ## the front -/

/-- A NaN that keeps `j` from the front, and that no round moves. -/
def Shielded (key : (Fin (last + 1) → B) → Option K) (s : SortArrays B D last)
    (parts : List (Nat × Nat)) (e j : Nat) : Prop :=
  ∃ k, e < k ∧ k ≤ j ∧ s.keyAt key k = none ∧ ∀ g ∈ parts, ¬ (g.1 < k ∧ k ≤ g.2)

/-- No value behind the front `0 … e` belongs into it. -/
structure LeadsTo (key : (Fin (last + 1) → B) → Option K) (n : Nat) (s : SortArrays B D last)
    (parts : List (Nat × Nat)) (e : Nat) : Prop where
  lt : e < n
  front : e ≤ maxThresh ∨ (0, e) ∈ parts
  behind : ∀ g ∈ parts, g = (0, e) ∨ e < g.1
  above : ∀ j, e < j → j < n →
    (∀ i, i ≤ e → ¬ comesFirst (s.keyAt key j) (s.keyAt key i)) ∨ Shielded key s parts e j

/-- A round on the front: its left piece is the new one. -/
theorem LeadsTo.round_front {w : Walls B D last} (h : LeadsTo key n s ((0, hi) :: rest) hi)
    (hfits : PartsFit n ((0, hi) :: rest)) (hw : Round key 0 hi s w) :
    LeadsTo key n w.arrays (pieces 0 hi w.left w.right ++ rest) w.right := by
  have hlt := hw.lt
  have hle := hw.le_hi
  -- the other parts are behind this one
  have hbehind : ∀ g ∈ rest, hi < g.1 := by
    intro g hg
    cases h.behind g (List.mem_cons_of_mem _ hg) with
    | inl he =>
      have := hfits.2.2.2.1 g hg
      rw [he] at this
      simp only at this
      omega
    | inr hlt => exact hlt
  refine ⟨by have := h.lt; omega, ?_, ?_, ?_⟩
  · by_cases hshort : w.right ≤ maxThresh
    · exact .inl hshort
    · exact .inr (List.mem_append_left _ (left_mem_pieces (by omega)))
  · refine forall_mem_pieces (.inl rfl) (.inr hlt) fun g hg => .inr ?_
    have := hbehind g hg
    omega
  · intro j hj hjn
    by_cases hjhi : j ≤ hi
    · cases hw.apart with
      | inl hap => exact .inl fun i hi' => hap i j (Nat.zero_le i) hi' hj hjhi
      | inr hnan =>
        refine .inr ⟨w.right + 1, by omega, hj, hnan,
          forall_mem_pieces (by simp only; omega) (by simp only; omega) fun g hg => ?_⟩
        have := hbehind g hg
        omega
    · have hkey : w.arrays.keyAt key j = s.keyAt key j := hw.stirs.keys.outside (by omega)
      cases h.above j (by omega) hjn with
      | inl hab =>
        rw [hkey]
        refine .inl fun i hi' => ?_
        exact hw.stirs.keys.forall_inside (P := fun x => ¬ comesFirst (s.keyAt key j) x)
          (fun i _ hi' => hab i hi') (Nat.zero_le i) (by omega)
      | inr hsh =>
        obtain ⟨k, hk, hkj, hnan, hout⟩ := hsh
        refine .inr ⟨k, by omega, hkj, ?_, forall_mem_pieces (by simp only; omega)
          (by simp only; omega) fun g hg => hout g (List.mem_cons_of_mem _ hg)⟩
        rw [hw.stirs.keys.outside (by omega), hnan]

/-- A round behind the front. -/
theorem LeadsTo.round_behind {w : Walls B D last} (h : LeadsTo key n s ((lo, hi) :: rest) e)
    (hlo : e < lo) (hhi : hi < n) (hw : Round key lo hi s w) :
    LeadsTo key n w.arrays (pieces lo hi w.left w.right ++ rest) e := by
  have hlt := hw.lt
  have hle := hw.le_hi
  have hge := hw.lo_le
  -- a NaN that keeps values from the front still does
  have hshield : ∀ j, Shielded key s ((lo, hi) :: rest) e j →
      Shielded key w.arrays (pieces lo hi w.left w.right ++ rest) e j := by
    rintro j ⟨k, hk, hkj, hnan, hout⟩
    have hout' : ¬ (lo < k ∧ k ≤ hi) := hout (lo, hi) List.mem_cons_self
    refine ⟨k, hk, hkj, ?_, forall_mem_pieces (by simp only; omega) (by simp only; omega)
      fun g hg => hout g (List.mem_cons_of_mem _ hg)⟩
    by_cases hklo : k = lo
    · rw [hklo]
      exact hw.front (hklo ▸ hnan)
    · rw [hw.stirs.keys.outside (by omega), hnan]
  refine ⟨h.lt, ?_, ?_, ?_⟩
  · cases h.front with
    | inl hshort => exact .inl hshort
    | inr hmem =>
      rw [List.mem_cons] at hmem
      cases hmem with
      | inl heq => cases heq; omega
      | inr hmem => exact .inr (List.mem_append_right _ hmem)
  · exact forall_mem_pieces (.inr hlo) (.inr (by simp only; omega)) fun g hg =>
      h.behind g (List.mem_cons_of_mem _ hg)
  · intro j hj hjn
    have hkeys : ∀ i, i ≤ e → w.arrays.keyAt key i = s.keyAt key i :=
      fun i hi' => hw.stirs.keys.outside (by omega)
    by_cases hin : lo ≤ j ∧ j ≤ hi
    · by_cases hsh : Shielded key s ((lo, hi) :: rest) e lo
      · obtain ⟨k, hk, hklo, hnan⟩ := hsh
        exact .inr (hshield j ⟨k, hk, hklo.trans hin.1, hnan⟩)
      · -- without a NaN up to `lo` all values of the part stay out of the front
        have hall : ∀ j, lo ≤ j → j ≤ hi →
            ∀ i, i ≤ e → ¬ comesFirst (s.keyAt key j) (s.keyAt key i) := by
          intro j hj hj'
          cases h.above j (by omega) (by omega) with
          | inl hab => exact hab
          | inr hsh' =>
            obtain ⟨k, hk, hkj, hnan, hout⟩ := hsh'
            have hout' : ¬ (lo < k ∧ k ≤ hi) := hout (lo, hi) List.mem_cons_self
            exact absurd ⟨k, hk, by omega, hnan, hout⟩ hsh
        refine .inl fun i hi' => ?_
        rw [hkeys i hi']
        exact hw.stirs.keys.forall_inside (P := fun x => ¬ comesFirst x (s.keyAt key i))
          (fun j hj hj' => hall j hj hj' i hi') hin.1 hin.2
    · cases h.above j hj hjn with
      | inl hab =>
        refine .inl fun i hi' => ?_
        rw [hkeys i hi', hw.stirs.keys.outside hin]
        exact hab i hi'
      | inr hsh => exact .inr (hshield j hsh)

theorem sortParts_some (hn : n < 2 ^ 64) {fuel : Nat} (hwork : work parts < fuel)
    (hfits : PartsFit n parts) (h : LeadsTo key n s parts e) : ∃ s' e',
    sortParts key n fuel s parts.head? (waiting parts) = some s' ∧ Stirs 0 (n - 1) s s' ∧
      LeadsTo key n s' [] e' := by
  induction fuel generalizing s parts e with
  | zero => omega
  | succ fuel ih =>
    cases parts with
    | nil => exact ⟨s, e, rfl, .refl .., h⟩
    | cons g rest =>
      obtain ⟨lo, hi⟩ := g
      have hlen := hfits.1
      have hhi := hfits.2.1
      simp only [maxThresh] at hlen hhi
      obtain ⟨s₁, w, hmed, hback, hrun, hw⟩ :=
        round_some key s (show lo + 2 ≤ hi by omega) hhi
      rw [List.head?_cons, sortParts_succ hmed hback hrun hw (hfits.stack_lt hn)]
      have hfits' := hfits.pieces hw.lo_le hw.lt hw.le_hi
      have hless : work (pieces lo hi w.left w.right ++ rest) < work ((lo, hi) :: rest) :=
        work_pieces_lt hw.lo_le hw.lt hw.le_hi
      have hstir : Stirs 0 (n - 1) s w.arrays := hw.stirs.widen (Nat.zero_le lo) (by omega)
      cases h.behind (lo, hi) List.mem_cons_self with
      | inl heq =>
        cases heq
        obtain ⟨s', e', hrun', hstir', h'⟩ := ih (by omega) hfits' (h.round_front hfits hw)
        exact ⟨s', e', hrun', hstir.trans hstir', h'⟩
      | inr hlt =>
        obtain ⟨s', e', hrun', hstir', h'⟩ := ih (by omega) hfits' (h.round_behind hlt hhi hw)
        exact ⟨s', e', hrun', hstir.trans hstir', h'⟩

end QStore.Operators
