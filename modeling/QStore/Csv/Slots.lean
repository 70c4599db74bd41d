import QStore.Csv.Columns

/-!
# QStore.Csv.Slots

Which strings of a column survive when the product that places them wraps round
at `2^32`. Row `j` is stored at byte `j * width % 2^32` and read at
`j * width`; a null is stored as zeros.

```
read     | row 0 | row 1 | …                 | row i  | …
stored   | row 0 | row 1 | …   2^32 bytes …  |
           row i   row i+1 …
```
-/

namespace QStore.Csv

/-- Where `asc_to_bin` stores the string of row `j`. -/
def slotOf (width j : Nat) : Nat := j * width % 2 ^ 32

/-- The store of row `j` covers the byte `p`. -/
def Covers (width j p : Nat) : Prop := slotOf width j ≤ p ∧ p < slotOf width j + width

instance (width j p : Nat) : Decidable (Covers width j p) := by
  unfold Covers
  infer_instance

/-- The string of row `i` is stored where it is read, and no later row is stored
over it. -/
structure SlotKept (width n i len : Nat) : Prop where
  within : i * width < 2 ^ 32
  apart : ∀ j, i < j → j < n →
    slotOf width j + width ≤ i * width ∨ i * width + len ≤ slotOf width j

/-- The slot of row `i` holds the string `cell`, terminated. -/
def Value.HoldsText (x : Value) (cell : Bytes) : Prop :=
  match x with
  | .num _ => False
  | .str bs => (cell ++ [0]).map some <+: bs

variable {a : LoadArgs} {col : Column} {cells : List Bytes} {cell : Bytes} {i j k p w : Nat}
  {b : UInt8}

theorem slotOf_eq (h : j * w < 2 ^ 32) : slotOf w j = j * w := Nat.mod_eq_of_lt h

theorem slotOf_lt : slotOf w j < 2 ^ 32 := Nat.mod_lt _ (by decide)

/-- Where all slots fit, each is kept. -/
theorem slotKept_of_fit {n len : Nat} (hfit : n * w ≤ 2 ^ 32) (hi : i < n) (hlen : len < w) :
    SlotKept w n i len := by
  have hbelow : ∀ j, j < n → j * w + w ≤ 2 ^ 32 := by
    intro j hj
    have hmul : (j + 1) * w ≤ n * w := Nat.mul_le_mul_right w hj
    rw [Nat.succ_mul] at hmul
    omega
  constructor
  · have := hbelow i hi
    omega
  · intro j hij hj
    have hmul : (i + 1) * w ≤ j * w := Nat.mul_le_mul_right w hij
    have := hbelow j hj
    rw [Nat.succ_mul] at hmul
    rw [slotOf_eq (by omega)]
    omega

/-- The bytes stored of a cell. -/
def padded (w : Nat) (cell : Bytes) : Bytes := (cell ++ List.replicate w 0).take w

theorem getElem?_padded (hlen : cell.length < w) (hk : k ≤ cell.length) :
    (padded w cell)[k]? = (cell ++ [0])[k]? := by
  rw [padded, List.getElem?_take_of_lt (by omega)]
  rcases Nat.lt_or_eq_of_le hk with h | h
  · rw [List.getElem?_append_left h, List.getElem?_append_left h]
  · subst h
    rw [List.getElem?_append_right (Nat.le_refl _), List.getElem?_append_right (Nat.le_refl _),
      Nat.sub_self, List.getElem?_replicate, if_pos (by omega)]
    rfl

/-- A null is stored as zeros. -/
theorem padded_nil : padded w [] = List.replicate w 0 := by
  simp [padded]

/-! ## the last store over a byte -/

theorem byteAt_append (hq : col.qtype = .SC) :
    byteAt (columnWrites a col (cells ++ [cell])) p =
      if Covers col.width cells.length p then
        (padded col.width cell)[p - slotOf col.width cells.length]?
      else byteAt (columnWrites a col cells) p := by
  rw [columnWrites_concat, byteAt_concat, overByte, datumOf_string hq]
  simp only [length_stringBytes]
  rfl

/-- A byte that was written was written by a last row. -/
theorem exists_last (hq : col.qtype = .SC)
    (h : byteAt (columnWrites a col cells) p = some b) :
    ∃ j cell, cells[j]? = some cell ∧ Covers col.width j p ∧
      (∀ m, j < m → m < cells.length → ¬ Covers col.width m p) ∧
      (padded col.width cell)[p - slotOf col.width j]? = some b := by
  induction cells using List.reverseRecOn with
  | nil => contradiction
  | append_singleton cells last ih =>
      rw [byteAt_append hq] at h
      by_cases hc : Covers col.width cells.length p
      · rw [if_pos hc] at h
        refine ⟨cells.length, last, by simp, hc, fun m hm hlt => ?_, h⟩
        rw [List.length_append, List.length_singleton] at hlt
        omega
      · rw [if_neg hc] at h
        obtain ⟨j, cell, hj, hcov, hlast, hb⟩ := ih h
        have hlt : j < cells.length := (List.getElem?_eq_some_iff.mp hj).1
        refine ⟨j, cell, by rw [List.getElem?_append_left hlt, hj], hcov, fun m hm hlt' => ?_, hb⟩
        rw [List.length_append, List.length_singleton] at hlt'
        rcases Nat.lt_or_eq_of_le (Nat.le_of_lt_succ hlt') with hmc | rfl
        · exact hlast m hm hmc
        · exact hc

/-! ## strings -/

/-- A slot holds a string when its bytes are the string's and a zero. -/
theorem holdsText_iff (hq : col.qtype = .SC) (hlen : cell.length < col.width) :
    (valueAt col (columnWrites a col cells) i).HoldsText cell ↔
      ∀ k, k ≤ cell.length →
        byteAt (columnWrites a col cells) (i * col.width + k) = (cell ++ [0])[k]? := by
  have hget : ∀ k, k ≤ cell.length → ((List.range col.width).map fun k =>
      byteAt (columnWrites a col cells) (i * col.width + k))[k]? =
        some (byteAt (columnWrites a col cells) (i * col.width + k)) := by
    intro k hk
    rw [List.getElem?_map, List.getElem?_range (by omega), Option.map_some]
  rw [valueAt, if_pos hq]
  simp only [Value.HoldsText, List.prefix_iff_getElem?, List.length_map, List.length_append,
    List.length_singleton, List.getElem_map, Nat.lt_succ_iff]
  constructor
  · intro h k hk
    have hbyte := h k hk
    rw [hget k hk, Option.some.injEq] at hbyte
    rw [hbyte, List.getElem?_eq_getElem]
  · intro h k hk
    rw [hget k hk, h k hk, List.getElem?_eq_getElem]

/-- The cells of a string column: they fit, and are texts. -/
structure Texts (w : Nat) (cells : List Bytes) : Prop where
  short : ∀ cell ∈ cells, cell.length < w
  noNul : ∀ cell ∈ cells, (0 : UInt8) ∉ cell

/-- Strings whose slots are kept are read back. -/
theorem holdsText_of_kept (hq : col.qtype = .SC) (ht : Texts col.width cells)
    (hkept : ∀ i cell, cells[i]? = some cell → cell ≠ [] →
      SlotKept col.width cells.length i cell.length)
    (hi : cells[i]? = some cell) (hne : cell ≠ []) :
    (valueAt col (columnWrites a col cells) i).HoldsText cell := by
  have hshort := ht.short cell (List.mem_of_getElem? hi)
  have hs := hkept i cell hi hne
  have hplace := slotOf_eq hs.within
  have hlt : i < cells.length := (List.getElem?_eq_some_iff.mp hi).1
  rw [holdsText_iff hq hshort]
  intro k hk
  obtain ⟨b, hb⟩ := Option.isSome_iff_exists.mp
    (byteAt_isSome (a := a) hq cells hlt hs.within (show k < col.width by omega))
  obtain ⟨j, other, hj, hc, hlast, hbyte⟩ := exists_last hq hb
  have hjlt : j < cells.length := (List.getElem?_eq_some_iff.mp hj).1
  rw [hb, ← hbyte]
  rcases Nat.lt_trichotomy j i with hji | rfl | hji
  · exact absurd ⟨by omega, by omega⟩ (hlast i hji hlt)
  · rw [hj, Option.some.injEq] at hi
    rw [hplace, Nat.add_sub_cancel_left, hi, getElem?_padded hshort hk]
  · -- a later row reaches the terminating zero only, and it is a null
    have hapart := hs.apart j hji hjlt
    obtain ⟨h1, h2⟩ := hc
    have hend : k = cell.length ∧ slotOf col.width j = i * col.width + cell.length := by omega
    have hnull : other = [] := by
      by_contra hother
      have hwithin := slotOf_eq (hkept j other hj hother).within
      have hmul : (i + 1) * col.width ≤ j * col.width := Nat.mul_le_mul_right _ hji
      rw [Nat.succ_mul] at hmul
      omega
    rw [hnull, hend.1, hend.2, Nat.sub_self, padded_nil, List.getElem?_replicate,
      if_pos (by omega), List.getElem?_append_right (Nat.le_refl _), Nat.sub_self]
    rfl

/-- A string that is read back is not a null. -/
theorem byteAt_of_holdsText (hq : col.qtype = .SC) (ht : Texts col.width cells)
    (hi : cells[i]? = some cell)
    (hread : (valueAt col (columnWrites a col cells) i).HoldsText cell) (hk : k < cell.length) :
    ∃ b, b ≠ 0 ∧ byteAt (columnWrites a col cells) (i * col.width + k) = some b := by
  have hmem := List.mem_of_getElem? hi
  have hbyte := (holdsText_iff hq (ht.short cell hmem)).mp hread k (Nat.le_of_lt hk)
  rw [List.getElem?_append_left hk, List.getElem?_eq_getElem hk] at hbyte
  refine ⟨cell[k], fun h0 => ht.noNul cell hmem ?_, hbyte⟩
  rw [← h0]
  exact List.getElem_mem hk

/-- What a null stores is zero. -/
theorem ne_nil_of_stored {other : Bytes} {q : Nat} (h : (padded w other)[q]? = some b)
    (hb : b ≠ 0) : other ≠ [] := by
  rintro rfl
  rw [padded_nil, List.getElem?_replicate] at h
  split at h
  · exact hb (Option.some.inj h).symm
  · contradiction

/-- Strings that are read back begin below `2^32`. -/
theorem within_of_holdsText (hq : col.qtype = .SC) (ht : Texts col.width cells)
    (hw : col.width ≤ 2 ^ 32)
    (hread : ∀ i cell, cells[i]? = some cell → cell ≠ [] →
      (valueAt col (columnWrites a col cells) i).HoldsText cell)
    (hi : cells[i]? = some cell) (hne : cell ≠ []) : i * col.width < 2 ^ 32 := by
  by_contra hout
  -- the last string that does not
  obtain ⟨n, hn⟩ : ∃ n, n = cells.length - i := ⟨_, rfl⟩
  induction n using Nat.strong_induction_on generalizing i cell with
  | _ n ih =>
      have hlt : i < cells.length := (List.getElem?_eq_some_iff.mp hi).1
      obtain ⟨b, hb0, hb⟩ := byteAt_of_holdsText hq ht hi (hread i cell hi hne)
        (List.length_pos_iff.mpr hne)
      rw [Nat.add_zero] at hb
      obtain ⟨j, other, hj, ⟨h1, h2⟩, -, hbyte⟩ := exists_last hq hb
      have hother := ne_nil_of_stored hbyte hb0
      have hjlt : j < cells.length := (List.getElem?_eq_some_iff.mp hj).1
      have hslot := slotOf_lt (w := col.width) (j := j)
      rcases Nat.lt_trichotomy j i with hji | rfl | hji
      · have hmul : (j + 1) * col.width ≤ i * col.width := Nat.mul_le_mul_right _ hji
        rw [Nat.succ_mul] at hmul
        by_cases hjw : j * col.width < 2 ^ 32
        · rw [slotOf_eq hjw] at h2
          omega
        · omega
      · have hdiv := Nat.div_add_mod (j * col.width) (2 ^ 32)
        have hpos : 1 ≤ j * col.width / 2 ^ 32 := by
          rw [Nat.one_le_div_iff (by decide)]
          omega
        unfold slotOf at h2
        omega
      · have hmul : (i + 1) * col.width ≤ j * col.width := Nat.mul_le_mul_right _ hji
        rw [Nat.succ_mul] at hmul
        exact ih (cells.length - j) (by omega) hj hother (by omega) rfl

/-- The slots of strings that are read back are kept. -/
theorem kept_of_holdsText (hq : col.qtype = .SC) (ht : Texts col.width cells)
    (hw : col.width ≤ 2 ^ 32)
    (hread : ∀ i cell, cells[i]? = some cell → cell ≠ [] →
      (valueAt col (columnWrites a col cells) i).HoldsText cell)
    (hi : cells[i]? = some cell) (hne : cell ≠ []) :
    SlotKept col.width cells.length i cell.length := by
  have hwithin := within_of_holdsText hq ht hw hread hi hne
  constructor
  · exact hwithin
  · intro j hij hjlt
    by_contra hmeet
    rw [not_or] at hmeet
    have hshort := ht.short cell (List.mem_of_getElem? hi)
    have hlen : 0 < cell.length := List.length_pos_iff.mpr hne
    -- a byte of the string that row `j` is stored over
    obtain ⟨k, hk⟩ : ∃ k, k = slotOf col.width j - i * col.width := ⟨_, rfl⟩
    obtain ⟨b, hb0, hb⟩ := byteAt_of_holdsText hq ht hi (hread i cell hi hne)
      (show k < cell.length by omega)
    obtain ⟨m, other, hm, ⟨h1, h2⟩, hlast, hbyte⟩ := exists_last hq hb
    have hjm : j ≤ m := by
      by_contra hlt
      exact hlast j (by omega) hjlt ⟨by omega, by omega⟩
    have hmw := within_of_holdsText hq ht hw hread hm (ne_nil_of_stored hbyte hb0)
    have hmul : (i + 1) * col.width ≤ m * col.width := Nat.mul_le_mul_right _ (by omega)
    rw [Nat.succ_mul] at hmul
    rw [slotOf_eq hmw] at h1
    omega

/-- **Which strings are read back**: all of a column, exactly when their slots
are kept. -/
theorem holdsText_all_iff (hq : col.qtype = .SC) (ht : Texts col.width cells)
    (hw : col.width ≤ 2 ^ 32) :
    (∀ i cell, cells[i]? = some cell → cell ≠ [] →
      (valueAt col (columnWrites a col cells) i).HoldsText cell) ↔
    ∀ i cell, cells[i]? = some cell → cell ≠ [] →
      SlotKept col.width cells.length i cell.length := by
  constructor
  · intro hread i cell hi hne
    exact kept_of_holdsText hq ht hw hread hi hne
  · intro hkept i cell hi hne
    exact holdsText_of_kept hq ht hkept hi hne

end QStore.Csv
