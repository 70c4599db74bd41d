import Mathlib.Order.Lattice
import Mathlib.Tactic.Common
import Mathlib.Data.List.Basic

/-!
# QStore.Lib.Matches

Rows filed under keys, and sorted lists that are cut in two.

`valuesAt l rows` are the values filed under `l`, in order. A key lies on both
sides of a cut of a sorted list exactly when the two entries at the cut are that
key (`Spans`).
-/

namespace QStore

variable {κ β : Type}

section Values

variable [DecidableEq κ] {l : κ} {r : κ × β} {v : β} {rows rows' : List (κ × β)}

/-- The values filed under `l`. -/
def valuesAt (l : κ) (rows : List (κ × β)) : List β :=
  (rows.filter fun r => r.1 = l).map Prod.snd

@[simp] theorem valuesAt_nil : valuesAt l ([] : List (κ × β)) = [] := rfl

theorem valuesAt_append : valuesAt l (rows ++ rows') = valuesAt l rows ++ valuesAt l rows' := by
  simp [valuesAt]

@[simp] theorem valuesAt_cons_self : valuesAt l ((l, v) :: rows) = v :: valuesAt l rows := by
  simp [valuesAt]

theorem valuesAt_cons_of_ne (h : r.1 ≠ l) : valuesAt l (r :: rows) = valuesAt l rows := by
  simp [valuesAt, h]

theorem valuesAt_eq_nil_iff : valuesAt l rows = [] ↔ ∀ r ∈ rows, r.1 ≠ l := by
  simp [valuesAt]

theorem valuesAt_eq_nil_iff_notMem : valuesAt l rows = [] ↔ l ∉ rows.map Prod.fst := by
  rw [valuesAt_eq_nil_iff]
  grind

end Values

/-- The first place of an entry. -/
theorem exists_first_of_mem [DecidableEq κ] {xs : List κ} {l : κ} (h : l ∈ xs) :
    ∃ i, xs[i]? = some l ∧ l ∉ xs.take i := by
  obtain ⟨as, bs, rfl, hno⟩ := List.eq_append_cons_of_mem h
  refine ⟨as.length, ?_, ?_⟩
  · simp
  · rwa [List.take_left]

section Cut

variable [LinearOrder κ] {xs : List κ} {l a b : κ} {i j e : Nat}

/-- The two entries at the cut before `e` are both `l`. -/
def Spans (xs : List κ) (e : Nat) (l : κ) : Prop :=
  0 < e ∧ xs[e - 1]? = some l ∧ xs[e]? = some l

theorem le_of_sorted (hs : xs.Pairwise (· ≤ ·)) (hi : xs[i]? = some a) (hj : xs[j]? = some b)
    (hij : i ≤ j) : a ≤ b := by
  obtain ⟨hi', rfl⟩ := List.getElem?_eq_some_iff.mp hi
  obtain ⟨hj', rfl⟩ := List.getElem?_eq_some_iff.mp hj
  rcases Nat.lt_or_eq_of_le hij with hlt | rfl
  · exact List.pairwise_iff_getElem.mp hs i j hi' hj' hlt
  · exact le_refl _

/-- A key on both sides of a cut lies at it. -/
theorem spans_of_sorted (hs : xs.Pairwise (· ≤ ·)) (hi : xs[i]? = some l) (hie : i < e)
    (hj : xs[j]? = some l) (hej : e ≤ j) : Spans xs e l := by
  have hjl := (List.getElem?_eq_some_iff.mp hj).1
  obtain ⟨a, ha⟩ : ∃ a, xs[e - 1]? = some a := ⟨_, List.getElem?_eq_getElem (by omega)⟩
  obtain ⟨b, hb⟩ : ∃ b, xs[e]? = some b := ⟨_, List.getElem?_eq_getElem (by omega)⟩
  have h1 := le_of_sorted hs hi ha (by omega)
  have h2 := le_of_sorted hs ha hb (by omega)
  have h3 := le_of_sorted hs hb hj hej
  have hal : a = l := le_antisymm (h2.trans h3) h1
  have hbl : b = l := le_antisymm h3 (h1.trans h2)
  exact ⟨by omega, hal ▸ ha, hbl ▸ hb⟩

end Cut

end QStore
