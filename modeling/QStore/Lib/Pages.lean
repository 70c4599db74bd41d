import Mathlib.Tactic.Common
import Mathlib.Data.List.Infix
import Mathlib.Algebra.BigOperators.Group.Finset.Basic
import Mathlib.Algebra.BigOperators.Intervals
import Mathlib.Tactic.Ring

/-!
# QStore.Lib.Pages

A sequence laid out in pages of `p` entries: page `i` is what lies between
`i * p` and `(i + 1) * p`, and only the last page may be short. Appending
touches the last page and leaves the others; a block of memory holds a page when
the page is a prefix of it.
-/

namespace QStore

variable {α : Type} {D x bs want : List α} {p i n off : Nat}

/-- `xs` over what `bs` holds from `off` on. -/
def splice (bs : List α) (off : Nat) (xs : List α) : List α :=
  bs.take off ++ xs ++ bs.drop (off + xs.length)

theorem length_splice (h : off + x.length ≤ bs.length) : (splice bs off x).length = bs.length := by
  simp only [splice, List.length_append, List.length_take, List.length_drop]
  omega

/-- What is spliced in behind a prefix extends it. -/
theorem prefix_splice (hw : want <+: bs) (h : want.length + x.length ≤ bs.length) :
    want ++ x <+: splice bs want.length x := by
  obtain ⟨rest, rfl⟩ := hw
  rw [splice, List.take_left']
  · exact List.prefix_append _ _
  · rfl

/-- A second splice at the same place replaces the start of the first. -/
theorem splice_splice {y z : List α} (hx : x.length = y.length)
    (h : off + (y ++ z).length ≤ bs.length) :
    splice (splice bs off (y ++ z)) off x = splice bs off (x ++ z) := by
  have ht : (bs.take off).length = off := by
    rw [List.length_append] at h
    rw [List.length_take]
    omega
  have h1 : (splice bs off (y ++ z)).take off = bs.take off := by
    rw [splice, List.append_assoc]
    exact List.take_left' ht
  have h2 : (splice bs off (y ++ z)).drop (off + x.length) = z ++ bs.drop (off + (y ++ z).length) := by
    rw [splice, ← List.append_assoc, List.append_assoc, hx]
    exact List.drop_left' (by rw [List.length_append, ht])
  rw [splice, h1, h2, splice, List.length_append, List.length_append, hx]
  simp only [List.append_assoc]

/-- A second splice right behind the first. -/
theorem splice_append {y : List α} (h : off + x.length + y.length ≤ bs.length) :
    splice (splice bs off x) (off + x.length) y = splice bs off (x ++ y) := by
  have ht : (bs.take off ++ x).length = off + x.length := by
    rw [List.length_append, List.length_take, Nat.min_eq_left (by omega)]
  have h1 : (splice bs off x).take (off + x.length) = bs.take off ++ x := by
    rw [splice]
    exact List.take_left' ht
  have h2 : (splice bs off x).drop (off + x.length + y.length) =
      bs.drop (off + (x ++ y).length) := by
    rw [splice, ← List.drop_drop, List.drop_left' ht, List.drop_drop, List.length_append,
      Nat.add_assoc]
  rw [splice, h1, h2, splice, List.append_assoc (bs.take off)]

/-- A read inside a prefix finds what the prefix has there. -/
theorem take_drop_within (hw : want <+: bs) (h : off + n ≤ want.length) :
    (bs.drop off).take n = (want.drop off).take n := by
  obtain ⟨rest, rfl⟩ := hw
  rw [List.drop_append_of_le_length (by omega),
    List.take_append_of_le_length (by rw [List.length_drop]; omega)]

/-- Page `i` of `D`. -/
def page (p : Nat) (D : List α) (i : Nat) : List α := (D.drop (i * p)).take p

theorem length_page : (page p D i).length = min p (D.length - i * p) := by
  simp [page]

theorem length_page_le : (page p D i).length ≤ p := by
  rw [length_page]; omega

/-- Entry `n` of a page. -/
theorem getElem?_page {a : α} : (page p D i)[n]? = some a ↔ n < p ∧ D[i * p + n]? = some a := by
  rw [page, List.getElem?_take]
  split
  · next h => simp [h]
  · next h => simp [h]

theorem page_eq_nil (h : D.length ≤ i * p) : page p D i = [] := by
  rw [page, List.drop_eq_nil_of_le h, List.take_nil]

theorem page_append_of_full (h : (i + 1) * p ≤ D.length) : page p (D ++ x) i = page p D i := by
  rw [Nat.add_mul, Nat.one_mul] at h
  rw [page, page, List.drop_append_of_le_length (by omega),
    List.take_append_of_le_length (by rw [List.length_drop]; omega)]

theorem page_append_last (h : i * p ≤ D.length) (h' : D.length + x.length ≤ (i + 1) * p) :
    page p (D ++ x) i = page p D i ++ x := by
  rw [Nat.add_mul, Nat.one_mul] at h'
  have h1 : (D.drop (i * p)).length ≤ p := by rw [List.length_drop]; omega
  rw [page, page, List.drop_append_of_le_length h, List.take_of_length_le, List.take_of_length_le h1]
  rw [List.length_append, List.length_drop]
  omega

/-- A read inside a page is a read of the whole. -/
theorem take_drop_page (h : off + n ≤ p) :
    ((page p D i).drop off).take n = (D.drop (i * p + off)).take n := by
  rw [page, List.drop_take, List.drop_drop, List.take_take, Nat.min_eq_left (by omega)]

/-- The first pages, one after the other, are the start of the whole. -/
theorem take_append_page : D.take (i * p) ++ page p D i = D.take ((i + 1) * p) := by
  rw [page, Nat.add_mul, Nat.one_mul, List.take_add]

/-- A page and what comes after it. -/
theorem page_append_drop : page p D i ++ D.drop ((i + 1) * p) = D.drop (i * p) := by
  have h : D.drop ((i + 1) * p) = (D.drop (i * p)).drop p := by
    rw [List.drop_drop, Nat.add_mul, Nat.one_mul]
  rw [page, h, List.take_append_drop]

/-- Nothing comes after a short page. -/
theorem drop_eq_nil_of_short_page (h : (page p D i).length < p) : D.drop ((i + 1) * p) = [] := by
  rw [length_page] at h
  rw [List.drop_eq_nil_iff, Nat.add_mul, Nat.one_mul]
  omega

/-- The lengths of the first `k` pages of `n` entries add up. -/
theorem sum_min_page (p n k : Nat) :
    ∑ i ∈ Finset.range k, min p (n - i * p) = min n (k * p) := by
  induction k with
  | zero => simp
  | succ k ih =>
      rw [Finset.sum_range_succ, ih, Nat.add_mul, Nat.one_mul]
      omega

/-- The first `k` pages, one after the other. -/
theorem flatten_pages (p k : Nat) (D : List α) :
    ((List.range k).map (page p D)).flatten = D.take (k * p) := by
  induction k with
  | zero => simp
  | succ k ih => rw [List.range_succ, List.map_append, List.flatten_append, ih,
      List.map_singleton, List.flatten_singleton, take_append_page]

/-- Numbering the entries of page after page is numbering them through. -/
theorem flatMap_range_pages {β : Type} (f : Nat → β) (p n k : Nat) :
    (List.range k).flatMap (fun b => (List.range (min p (n - b * p))).map fun i => f (b * p + i)) =
      (List.range (min n (k * p))).map f := by
  induction k with
  | zero => simp
  | succ k ih =>
      have hsplit : min n ((k + 1) * p) = min n (k * p) + min p (n - k * p) := by
        rw [Nat.succ_mul]
        omega
      rw [List.range_succ, List.flatMap_append, ih, hsplit, List.range_add, List.map_append,
        List.map_map]
      congr 1
      rw [List.flatMap_singleton]
      apply List.map_congr_left
      intro i hi
      have := List.mem_range.mp hi
      rw [Function.comp_apply, Nat.min_eq_right (by omega)]

/-! ## entries of equal length -/

/-- The first `n` runs of `w` entries each. -/
def slices (w n : Nat) (X : List α) : List (List α) :=
  (List.range n).map fun j => (X.drop (w * j)).take w

@[simp] theorem length_slices {w : Nat} {X : List α} : (slices w n X).length = n := by
  simp [slices]

theorem flatten_slices {w : Nat} {X : List α} : (slices w n X).flatten = X.take (w * n) := by
  induction n with
  | zero => simp [slices]
  | succ n ih =>
      rw [Nat.mul_succ, List.take_add, ← ih]
      simp [slices, List.range_succ]

theorem slices_add {w m : Nat} {X : List α} :
    slices w (n + m) X = slices w n X ++ slices w m (X.drop (w * n)) := by
  rw [slices, List.range_add, List.map_append, List.map_map, slices, slices]
  congr 1
  refine List.map_congr_left fun j _ => ?_
  rw [Function.comp_apply, List.drop_drop, Nat.mul_add]

theorem length_of_mem_slices {w : Nat} {X : List α} (h : w * n ≤ X.length)
    (hx : x ∈ slices w n X) : x.length = w := by
  obtain ⟨j, hj, rfl⟩ := List.mem_map.mp hx
  have hjn := Nat.mul_le_mul_left w (show j + 1 ≤ n from List.mem_range.mp hj)
  rw [Nat.mul_succ] at hjn
  rw [List.length_take, List.length_drop]
  omega

theorem length_flatten_of_eq {w : Nat} {L : List (List α)} (h : ∀ x ∈ L, x.length = w) :
    L.flatten.length = w * L.length := by
  induction L with
  | nil => simp
  | cons x L ih =>
      have hL : L.flatten.length = w * L.length := ih fun y hy => h y (List.mem_cons_of_mem _ hy)
      rw [List.flatten_cons, List.length_append, h x List.mem_cons_self, hL, List.length_cons,
        Nat.mul_succ, Nat.add_comm]

/-- Entry `i`, found again where its predecessors end. -/
theorem take_drop_flatten {w : Nat} : ∀ {L : List (List α)} {i : Nat},
    (∀ x ∈ L, x.length = w) → (hi : i < L.length) → (L.flatten.drop (w * i)).take w = L[i]
  | x :: L, 0, h, _ => by
    have hx : x.length = w := h x List.mem_cons_self
    simp [← hx]
  | x :: L, i + 1, h, hi => by
    have hx : x.length = w := h x List.mem_cons_self
    have ih := take_drop_flatten (L := L) (i := i) (fun y hy => h y (List.mem_cons_of_mem _ hy))
      (Nat.lt_of_succ_lt_succ hi)
    rw [List.flatten_cons, Nat.mul_succ, Nat.add_comm, ← List.drop_drop, List.drop_left' hx, ih]
    rfl

end QStore
