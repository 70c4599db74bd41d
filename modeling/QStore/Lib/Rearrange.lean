import Mathlib.Logic.Equiv.Basic
import Mathlib.Algebra.Group.End
import Mathlib.Data.List.Nodup
import Mathlib.Data.List.Perm.Basic

/-!
# QStore.Lib.Rearrange

Arrays in memory, as functions of the index, and the same entries in another order.

`Rearranges lo hi f g`: the entries of `g` from `lo` to `hi` are those of `f`, and the
others stay. It is closed under doing one after the other, and an exchange of two
entries (`swap`) and a move of one to the front of others (`rotate`) are of this kind.
-/

namespace QStore

variable {α β : Type} {f g h : Nat → α} {lo hi lo' hi' i j n : Nat}

/-- `g` is `f` with the entries from `lo` to `hi` in another order. -/
def Rearranges (lo hi : Nat) (f g : Nat → α) : Prop :=
  ∃ σ : Equiv.Perm Nat, (∀ i, ¬ (lo ≤ i ∧ i ≤ hi) → σ i = i) ∧ g = f ∘ σ

namespace Rearranges

theorem refl (lo hi : Nat) (f : Nat → α) : Rearranges lo hi f f := ⟨1, fun _ _ => rfl, rfl⟩

theorem trans (hfg : Rearranges lo hi f g) (hgh : Rearranges lo hi g h) : Rearranges lo hi f h := by
  obtain ⟨σ, hσ, rfl⟩ := hfg
  obtain ⟨τ, hτ, rfl⟩ := hgh
  refine ⟨σ * τ, fun i hk => ?_, rfl⟩
  rw [Equiv.Perm.mul_apply, hτ i hk, hσ i hk]

theorem symm (hfg : Rearranges lo hi f g) : Rearranges lo hi g f := by
  obtain ⟨σ, hσ, rfl⟩ := hfg
  refine ⟨σ.symm, fun i hk => ?_, ?_⟩
  · rw [Equiv.symm_apply_eq, hσ i hk]
  · funext i
    rw [Function.comp_apply, Function.comp_apply, σ.apply_symm_apply]

theorem widen (hfg : Rearranges lo hi f g) (hlo : lo' ≤ lo) (hhi : hi ≤ hi') :
    Rearranges lo' hi' f g := by
  obtain ⟨σ, hσ, hg⟩ := hfg
  exact ⟨σ, fun i hk => hσ i (by omega), hg⟩

theorem outside (hfg : Rearranges lo hi f g) (hk : ¬ (lo ≤ i ∧ i ≤ hi)) : g i = f i := by
  obtain ⟨σ, hσ, rfl⟩ := hfg
  rw [Function.comp_apply, hσ i hk]

theorem inside (hfg : Rearranges lo hi f g) (hk : lo ≤ i ∧ i ≤ hi) :
    ∃ j, (lo ≤ j ∧ j ≤ hi) ∧ g i = f j := by
  obtain ⟨σ, hσ, rfl⟩ := hfg
  refine ⟨σ i, ?_, rfl⟩
  by_contra hno
  have hfix : σ i = i := σ.injective (hσ (σ i) hno)
  rw [hfix] at hno
  exact hno hk

/-- What holds of all the entries still does. -/
theorem forall_inside (hfg : Rearranges lo hi f g) {P : α → Prop}
    (hall : ∀ i, lo ≤ i → i ≤ hi → P (f i)) (hlo : lo ≤ i) (hhi : i ≤ hi) : P (g i) := by
  obtain ⟨j, hj, he⟩ := hfg.inside ⟨hlo, hhi⟩
  rw [he]
  exact hall j hj.1 hj.2

/-- Of what is computed from each entry. -/
theorem comp (hfg : Rearranges lo hi f g) (p : α → β) : Rearranges lo hi (p ∘ f) (p ∘ g) := by
  obtain ⟨σ, hσ, rfl⟩ := hfg
  exact ⟨σ, hσ, rfl⟩

/-- The entries of the whole array are the same ones. -/
theorem perm (hfg : Rearranges lo hi f g) (hn : hi < n) :
    ((List.range n).map g).Perm ((List.range n).map f) := by
  obtain ⟨σ, hσ, rfl⟩ := hfg
  rw [← List.map_map]
  refine List.Perm.map f ?_
  rw [List.perm_ext_iff_of_nodup (List.nodup_range.map σ.injective) List.nodup_range]
  intro i
  rw [List.mem_map, List.mem_range]
  constructor
  · rintro ⟨j, hj, rfl⟩
    rw [List.mem_range] at hj
    by_contra hno
    have hfix : σ j = j := σ.injective (hσ (σ j) (by omega))
    omega
  · intro hk
    refine ⟨σ.symm i, ?_, σ.apply_symm_apply i⟩
    rw [List.mem_range]
    by_contra hno
    have hfix := hσ (σ.symm i) (by omega)
    rw [σ.apply_symm_apply] at hfix
    omega

/-- Two entries exchanged. -/
theorem swap (f : Nat → α) (hki : lo ≤ i ∧ i ≤ hi) (hkj : lo ≤ j ∧ j ≤ hi) :
    Rearranges lo hi f (f ∘ Equiv.swap i j) := by
  refine ⟨Equiv.swap i j, fun k hk => Equiv.swap_apply_of_ne_of_ne ?_ ?_, rfl⟩
  · rintro rfl
    exact hk hki
  · rintro rfl
    exact hk hkj

end Rearranges

/-- The index from which the entry at `i` comes when that at `hi` goes to `lo` and
those from `lo` on move up. -/
def rotateIdx (lo hi i : Nat) : Nat :=
  if i = lo then hi else if lo < i ∧ i ≤ hi then i - 1 else i

theorem rotateIdx_self (lo hi : Nat) : rotateIdx lo hi lo = hi := if_pos rfl

theorem rotateIdx_of_lt (hi : Nat) (h : i < lo) : rotateIdx lo hi i = i := by
  rw [rotateIdx, if_neg (by omega), if_neg (by omega)]

theorem rotateIdx_succ (hlo : lo ≤ i) (hhi : i < hi) : rotateIdx lo hi (i + 1) = i := by
  rw [rotateIdx, if_neg (by omega), if_pos (by omega), Nat.add_sub_cancel]

/-- A rotation. -/
def rotate (h : lo ≤ hi) : Equiv.Perm Nat where
  toFun := rotateIdx lo hi
  invFun i := if i = hi then lo else if lo ≤ i ∧ i < hi then i + 1 else i
  left_inv i := by
    simp only [rotateIdx]
    split_ifs <;> omega
  right_inv i := by
    simp only [rotateIdx]
    split_ifs <;> omega

theorem Rearranges.rotate (f : Nat → α) (h : lo ≤ hi) :
    Rearranges lo hi f fun i => f (rotateIdx lo hi i) := by
  refine ⟨QStore.rotate h, fun i hk => ?_, rfl⟩
  show rotateIdx lo hi i = i
  rw [rotateIdx, if_neg (by omega), if_neg (by omega)]

/-- The `k` entries from `lo` on, one further up, and `x` in front of them. -/
def shiftIn (lo k : Nat) (f : Nat → α) (x : α) (i : Nat) : α :=
  if i = lo then x else if lo < i ∧ i ≤ lo + k then f (i - 1) else f i

theorem shiftIn_zero (lo : Nat) (f : Nat → α) (x : α) :
    shiftIn lo 0 f x = Function.update f lo x := by
  funext i
  rw [shiftIn, Function.update_apply, if_neg (c := lo < i ∧ i ≤ lo + 0) (by omega)]

/-- The last one first. -/
theorem shiftIn_succ (lo k : Nat) (f : Nat → α) (x : α) :
    shiftIn lo k (Function.update f (lo + k + 1) (f (lo + k))) x = shiftIn lo (k + 1) f x := by
  funext i
  simp only [shiftIn, Function.update_apply]
  by_cases hlast : i = lo + k + 1
  · subst hlast
    rw [if_neg (by omega), if_neg (by omega), if_pos rfl, if_neg (by omega), if_pos (by omega)]
    rfl
  · rw [if_neg hlast]
    split_ifs <;> first | rfl | omega

/-- When the last one is what comes in front, it is a rotation. -/
theorem shiftIn_rotate (h : lo ≤ hi) (f : Nat → α) :
    shiftIn lo (hi - lo) f (f hi) = fun i => f (rotateIdx lo hi i) := by
  funext i
  rw [shiftIn, rotateIdx, Nat.add_sub_cancel' h]
  split_ifs <;> rfl

end QStore
