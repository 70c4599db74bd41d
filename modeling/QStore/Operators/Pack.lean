import Mathlib.Data.List.GetD
import QStore.Lib.MapM
import QStore.Lib.Fields
import QStore.Qtype

/-!
# QStore.Operators.Pack

`Q.pack` and `Q.unpack` (`OPERATORS/PACK`, `OPERATORS/UNPACK`).  `pack` puts the elements that
several columns have in a row side by side into one word, the last column lowest; `unpack`
takes such words apart again.  Elements are their bits, as the kernels read them through
`uint8_t *` to `uint64_t *`.

Both kernels first compute how far each column is shifted, from the last column to the first.
`pack` starts at the last one.  `unpack` starts one behind it: it reads a width that the array
does not have and writes a shift behind the end of the other.  What it reads there, whatever
the memory holds, is added to every shift.
-/

namespace QStore.Operators

open Fields

/-! ## The specializers -/

/-- What the specializers of both operators let pass: a packed type, and widths of columns
that together fit it. -/
structure Layout where
  qtype : Qtype
  width : List Nat
  qtype_mem : qtype ∈ [.UI2, .UI4, .UI8, .UI16]
  width_mem : ∀ w ∈ width, w ∈ [1, 2, 4, 8]
  width_ne : width ≠ []
  sum_le : width.sum ≤ getWidthCQtype qtype

/-- `n_vals` -/
def Layout.nVals (l : Layout) : Nat := l.width.length

/-- The bits of the packed type. -/
def Layout.bits (l : Layout) : Nat := 8 * getWidthCQtype l.qtype

/-- The bits of the type it has in a shift: `uint16_t` is promoted to `int`. -/
def Layout.promoted (l : Layout) : Nat := max 32 l.bits

/-! ## The shifts -/

/-- The two variables of the loop over the shifts, and the indices at which it has touched
`width` and `shift_by`. -/
structure Shifts where
  shiftBy : List Nat
  lShiftBy : Nat
  touched : List Nat

/-- `for ( int i = ..; i >= 0; i-- )`, on the widths from index `i` on: the entries behind go
first. The sum is a `uint32_t`. -/
def shiftLoop : List Nat → Nat → Shifts
  | [], _ => { shiftBy := [], lShiftBy := 0, touched := [] }
  | w :: ws, i =>
      let st := shiftLoop ws (i + 1)
      { shiftBy := st.lShiftBy :: st.shiftBy
        lShiftBy := (st.lShiftBy + 8 * w) % 2 ^ 32
        touched := st.touched ++ [i] }

/-! ## pack -/

/-- What a kernel has done: its status, what it has written, and the indices at which it has
touched `width` and `shift_by`. -/
structure Ran (α : Type) where
  status : Int
  out : List α
  touched : List Nat

/-- `out_val[j] |= tmp << shift_by[i]`. Undefined where the shift is by the whole width or
more, or does not fit the `int` that `uint16_t` is promoted to. -/
def orShifted (l : Layout) (s out tmp : Nat) : Option Nat :=
  if s < l.promoted ∧ (l.bits < 32 → tmp <<< s < 2 ^ 31) then
    some ((out ||| tmp <<< s) % 2 ^ l.bits)
  else none

/-- `tmp` after the `switch`: the element as a value of the packed type. -/
def packTmp (l : Layout) (w v : Nat) : Nat :=
  if w ∈ [1, 2, 4, 8] then v % 2 ^ l.bits else 0

/-- The loop over the columns, from column `i` on. A width that is none of the four is noticed
at the next column only. -/
def packLoop (l : Layout) : Nat → List Nat → List Nat → List (List Nat) → Ran Nat →
    Option (Ran Nat)
  | i, w :: ws, s :: ss, col :: cols, st =>
      if st.status < 0 then some st
      else do
        let out ← (st.out.zip col).mapM fun p => orShifted l s p.1 (packTmp l w p.2)
        packLoop l (i + 1) ws ss cols
          { status := if w ∈ [1, 2, 4, 8] ∨ col = [] then st.status else -1
            out := out
            touched := st.touched ++ List.replicate col.length i }
  | _, _, _, _, st => some st

/-- `pack_<out_qtype>` on columns of `n` elements. -/
def packKernel (l : Layout) (inVals : List (List Nat)) (n : Nat) : Option (Ran Nat) :=
  let shifts := shiftLoop l.width 0
  packLoop l 0 l.width shifts.shiftBy inVals
    { status := 0, out := List.replicate n 0, touched := shifts.touched }

/-! ## unpack -/

/-- One element of a column: `tmp1 & mask` of the shifted word, stored in `w` bytes. -/
def unpackWord (l : Layout) (w s inval : Nat) : Option Nat :=
  if s < l.promoted then some ((inval >>> s &&& (2 ^ (8 * w) - 1) % 2 ^ l.bits) % 2 ^ (8 * w))
  else none

/-- One column. With a width that is none of the four its buffer stays as the expander has set
it, to zeros. -/
def unpackColumn (l : Layout) (w s : Nat) (inVal : List Nat) : Option (List Nat) :=
  if w ∈ [1, 2, 4, 8] then inVal.mapM (unpackWord l w s)
  else some (List.replicate inVal.length 0)

/-- The loop over the columns, from column `i` on. -/
def unpackLoop (l : Layout) (inVal : List Nat) : Nat → List Nat → List Nat → Ran (List Nat) →
    Option (Ran (List Nat))
  | i, w :: ws, s :: ss, st => do
      let col ← unpackColumn l w s inVal
      unpackLoop l inVal (i + 1) ws ss
        { status := if w ∈ [1, 2, 4, 8] ∨ inVal = [] then st.status else -1
          out := st.out ++ [col]
          touched := st.touched ++ List.replicate inVal.length i }
  | _, _, _, st => some st

/-- `unpack_<in_qtype>`. The loop over the shifts starts at `i = (int)n_vals`, and `beyond` is
what lies behind the widths. -/
def unpackKernel (l : Layout) (beyond : Nat) (inVal : List Nat) : Option (Ran (List Nat)) :=
  let shifts := shiftLoop (l.width ++ [beyond]) 0
  unpackLoop l inVal 0 l.width shifts.shiftBy
    { status := 0, out := [], touched := shifts.touched }

/-! ## Columns and rows -/

/-- The widths of the fields, in bits. -/
def fieldBits (width : List Nat) : List Nat := width.map (8 * ·)

/-- The elements that the columns have in row `j`. -/
def row (cols : List (List Nat)) (j : Nat) : List Nat := cols.map (·.getD j 0)

/-- `n` elements of `w` bytes. -/
def Column (n w : Nat) (col : List Nat) : Prop := col.length = n ∧ ∀ v ∈ col, v < 2 ^ (8 * w)

/-- The columns that `unpack` is to write: each field of every word. -/
def unpacked (inVal : List Nat) : List Nat → List (List Nat)
  | [] => []
  | w :: ws => inVal.map (fun x => x >>> (8 * ws.sum) % 2 ^ (8 * w)) :: unpacked inVal ws

variable {n w i j beyond : Nat} {width inVal : List Nat} {cols : List (List Nat)} {l : Layout}

theorem sum_fieldBits (width : List Nat) : (fieldBits width).sum = 8 * width.sum := by
  induction width with
  | nil => simp [fieldBits]
  | cons w ws ih =>
      rw [fieldBits, List.map_cons, List.sum_cons, List.sum_cons, Nat.mul_add]
      congr 1

theorem split_fieldBits_cons (w : Nat) (ws : List Nat) (x : Nat) :
    split (fieldBits (w :: ws)) x =
      x >>> (8 * ws.sum) % 2 ^ (8 * w) :: split (fieldBits ws) x := by
  rw [← sum_fieldBits]
  simp [fieldBits, split]

/-- An element of a column fits its width. -/
theorem Column.getD_lt {col : List Nat} (h : Column n w col) (j : Nat) :
    col.getD j 0 < 2 ^ (8 * w) := by
  by_cases hj : j < col.length
  · rw [List.getD_eq_getElem _ _ hj]
    exact h.2 _ (List.getElem_mem hj)
  · rw [List.getD_eq_default _ _ (by omega)]
    exact Nat.two_pow_pos _

/-- The elements of a row fit their fields. -/
theorem fits_row (h : List.Forall₂ (Column n) width cols) (j : Nat) :
    Fits (fieldBits width) (row cols j) := by
  induction h with
  | nil => exact .nil
  | cons hcol _ ih => exact .cons (hcol.getD_lt j) ih

/-- The columns read from words are columns of the widths asked for. -/
theorem column_unpacked (inVal width : List Nat) :
    List.Forall₂ (Column inVal.length) width (unpacked inVal width) := by
  induction width with
  | nil => exact .nil
  | cons w ws ih =>
      constructor
      · constructor
        · simp
        · intro v hv
          obtain ⟨x, _, rfl⟩ := List.mem_map.mp hv
          exact Nat.mod_lt _ (Nat.two_pow_pos _)
      · exact ih

/-- Row `j` of the columns read from words are the fields of word `j`. -/
theorem row_unpacked (hj : j < inVal.length) :
    row (unpacked inVal width) j = split (fieldBits width) (inVal.getD j 0) := by
  induction width with
  | nil => simp [row, unpacked, fieldBits, split]
  | cons w ws ih =>
      rw [split_fieldBits_cons, ← ih]
      simp [row, unpacked, hj]

/-- Columns are read back from words whose fields are their rows. -/
theorem unpacked_eq (h : List.Forall₂ (Column n) width cols) (hn : inVal.length = n)
    (hrow : ∀ j, j < n → split (fieldBits width) (inVal.getD j 0) = row cols j) :
    unpacked inVal width = cols := by
  induction h with
  | nil => simp [unpacked]
  | @cons w col ws cols hcol _ ih =>
      have hcell : ∀ j, j < n → inVal.getD j 0 >>> (8 * ws.sum) % 2 ^ (8 * w) = col.getD j 0 ∧
          split (fieldBits ws) (inVal.getD j 0) = row cols j := by
        intro j hj
        have h := hrow j hj
        rw [split_fieldBits_cons] at h
        simpa [row] using h
      rw [unpacked, ih fun j hj => (hcell j hj).2]
      congr 1
      apply List.ext_getElem
      · rw [List.length_map, hn, hcol.1]
      · intro j hj hj'
        have h := (hcell j (hcol.1 ▸ hj')).1
        rw [List.getD_eq_getElem _ _ hj', List.getD_eq_getElem _ _ (by simpa using hj)] at h
        simpa using h

/-! ## The shifts of both loops -/

/-- The running sum at the end of the loop. -/
theorem lShiftBy_eq (ws : List Nat) (i : Nat) :
    (shiftLoop ws i).lShiftBy = 8 * ws.sum % 2 ^ 32 := by
  induction ws generalizing i with
  | nil => simp [shiftLoop]
  | cons w ws ih =>
      simp only [shiftLoop, ih, List.sum_cons]
      omega

/-- The loop touches the indices of the widths it is given. -/
theorem mem_touched_shiftLoop {ws : List Nat} {k : Nat} :
    k ∈ (shiftLoop ws i).touched ↔ i ≤ k ∧ k < i + ws.length := by
  induction ws generalizing i with
  | nil =>
      simp only [shiftLoop, List.not_mem_nil, List.length_nil, false_iff]
      omega
  | cons w ws ih =>
      simp only [shiftLoop, List.mem_append, ih, List.mem_singleton, List.length_cons]
      omega

/-- With nothing but zeros behind the widths the loop of `unpack` computes the shifts of
`pack`. -/
theorem shiftBy_beyond (hbeyond : 8 * beyond % 2 ^ 32 = 0) (ws : List Nat) (i : Nat) :
    (shiftLoop (ws ++ [beyond]) i).shiftBy = (shiftLoop ws i).shiftBy ++ [0] := by
  induction ws generalizing i with
  | nil => simp [shiftLoop]
  | cons w ws ih =>
      rw [List.cons_append, shiftLoop, shiftLoop]
      simp only [ih, lShiftBy_eq, List.sum_append, List.sum_singleton, List.cons_append]
      congr 1
      omega

/-! ## The loop of pack -/

theorem Layout.bits_mem (l : Layout) : l.bits ∈ [16, 32, 64, 128] := by
  have h := l.qtype_mem
  simp only [List.mem_cons, List.not_mem_nil, or_false] at h
  obtain h | h | h | h := h <;> simp [bits, h, getWidthCQtype]

theorem Layout.eight_sum_le (l : Layout) : 8 * l.width.sum ≤ l.bits := by
  have := l.sum_le
  rw [bits]
  omega

/-- An element that fits its place in the word is put there. -/
theorem orShifted_eq {s out v : Nat} (hout : out < 2 ^ l.bits) (hv : v < 2 ^ w)
    (hw : 0 < w) (hs : w + s ≤ l.bits) :
    orShifted l s out v = some (out ||| v <<< s) ∧ out ||| v <<< s < 2 ^ l.bits := by
  have hshift : v <<< s < 2 ^ (w + s) := by
    rw [Nat.shiftLeft_eq, Nat.pow_add]
    exact Nat.mul_lt_mul_of_pos_right hv (Nat.two_pow_pos _)
  have hfit : v <<< s < 2 ^ l.bits :=
    Nat.lt_of_lt_of_le hshift (Nat.pow_le_pow_right (by simp) hs)
  have hor : out ||| v <<< s < 2 ^ l.bits := Nat.or_lt_two_pow hout hfit
  have hint : l.bits < 32 → v <<< s < 2 ^ 31 := by
    intro hlt
    exact Nat.lt_of_lt_of_le hfit (Nat.pow_le_pow_right (by simp) (by omega))
  have hdef : s < l.promoted := by
    rw [Layout.promoted]
    omega
  constructor
  · rw [orShifted, if_pos ⟨hdef, hint⟩, Nat.mod_eq_of_lt hor]
  · exact hor

/-- The accesses of a loop over `k` columns from column `i` on, with `n` rows each. -/
def turns (n i k : Nat) : List Nat := (List.range' i k).flatMap (List.replicate n)

theorem turns_succ (n i k : Nat) : turns n i (k + 1) = List.replicate n i ++ turns n (i + 1) k := by
  simp [turns, List.range'_succ]

/-- What the loop of `pack` does with the columns from `i` on: it puts the fields of each row
into the word of that row. -/
theorem packLoop_eq (h : List.Forall₂ (Column n) width cols)
    (hwidth : ∀ w ∈ width, w ∈ [1, 2, 4, 8]) (hsum : 8 * width.sum ≤ l.bits) (st : Ran Nat)
    (hst : st.status = 0) (hlen : st.out.length = n) (hout : ∀ x ∈ st.out, x < 2 ^ l.bits) :
    ∃ st', packLoop l i width (shiftLoop width i).shiftBy cols st = some st' ∧
      st'.status = 0 ∧ st'.out.length = n ∧ (∀ x ∈ st'.out, x < 2 ^ l.bits) ∧
      (∀ j, j < n → st'.out.getD j 0 =
        st.out.getD j 0 ||| join (fieldBits width) (row cols j)) ∧
      st'.touched = st.touched ++ turns n i width.length := by
  induction h generalizing i st with
  | nil =>
      exact ⟨st, by simp [packLoop], hst, hlen, hout, by simp [fieldBits, join],
        by simp [turns]⟩
  | @cons w col ws cols hcol hcols ih =>
      have hw : w ∈ [1, 2, 4, 8] := hwidth w (by simp)
      have hpos : 0 < w := by
        simp only [List.mem_cons, List.not_mem_nil, or_false] at hw
        omega
      have hbits : l.bits ≤ 128 := by
        have := l.bits_mem
        simp only [List.mem_cons, List.not_mem_nil, or_false] at this
        omega
      rw [List.sum_cons] at hsum
      have hs : (shiftLoop ws (i + 1)).lShiftBy = 8 * ws.sum := by
        rw [lShiftBy_eq]
        exact Nat.mod_eq_of_lt (by omega)
      -- every word takes in the element of its row
      have hcell : ∀ p ∈ st.out.zip col,
          orShifted l (8 * ws.sum) p.1 (packTmp l w p.2) =
            some (p.1 ||| p.2 <<< (8 * ws.sum)) ∧
          p.1 ||| p.2 <<< (8 * ws.sum) < 2 ^ l.bits := by
        intro p hp
        have hv : p.2 < 2 ^ (8 * w) := hcol.2 _ (List.of_mem_zip hp).2
        have htmp : packTmp l w p.2 = p.2 := by
          rw [packTmp, if_pos hw]
          exact Nat.mod_eq_of_lt
            (Nat.lt_of_lt_of_le hv (Nat.pow_le_pow_right (by simp) (by omega)))
        rw [htmp]
        exact orShifted_eq (hout _ (List.of_mem_zip hp).1) hv (by omega) (by omega)
      have hmap := mapM_eq_map fun p hp => (hcell p hp).1
      let out := (st.out.zip col).map fun p => p.1 ||| p.2 <<< (8 * ws.sum)
      have houtLen : out.length = n := by simp [out, hlen, hcol.1]
      have houtLt : ∀ x ∈ out, x < 2 ^ l.bits := by
        intro x hx
        obtain ⟨p, hp, rfl⟩ := List.mem_map.mp hx
        exact (hcell p hp).2
      obtain ⟨st', hrun, hst', hlen', hout', hrow, htouched⟩ :=
        @ih (i + 1) (fun x hx => hwidth x (by simp [hx])) (by omega)
          ⟨0, out, st.touched ++ List.replicate n i⟩ rfl houtLen houtLt
      have hstep : packLoop l i (w :: ws) (shiftLoop (w :: ws) i).shiftBy (col :: cols) st =
          some st' := by
        rw [← hrun]
        simp [shiftLoop, packLoop, hs, hmap, hst, hcol.1, hw, out]
      have hword : ∀ j, j < n → st'.out.getD j 0 =
          st.out.getD j 0 ||| join (fieldBits (w :: ws)) (row (col :: cols) j) := by
        intro j hj
        have hj1 : j < st.out.length := by omega
        have hj2 : j < col.length := by rw [hcol.1]; exact hj
        have hj3 : j < out.length := by omega
        rw [hrow j hj]
        simp only [fieldBits, row, List.map_cons, join]
        rw [← fieldBits, sum_fieldBits, ← Nat.or_assoc, List.getD_eq_getElem _ _ hj3,
          List.getD_eq_getElem _ _ hj1, List.getD_eq_getElem _ _ hj2]
        simp [out]
      exact ⟨st', hstep, hst', hlen', hout', hword, by
        rw [htouched, List.length_cons, turns_succ, List.append_assoc]⟩

/-! ## The loop of unpack -/

/-- An element is read from its place in the word. -/
theorem unpackWord_eq {s x : Nat} (hw : 0 < w) (hs : 8 * w + s ≤ l.bits) :
    unpackWord l w s x = some (x >>> s % 2 ^ (8 * w)) := by
  have hdef : s < l.promoted := by
    rw [Layout.promoted]
    omega
  have hmask : (2 ^ (8 * w) - 1) % 2 ^ l.bits = 2 ^ (8 * w) - 1 := by
    have := Nat.two_pow_pos (8 * w)
    have := Nat.pow_le_pow_right (n := 2) (by simp) (by omega : 8 * w ≤ l.bits)
    exact Nat.mod_eq_of_lt (by omega)
  rw [unpackWord, if_pos hdef, hmask, Nat.and_two_pow_sub_one_eq_mod, Nat.mod_mod]

/-- What the loop of `unpack` does for the columns from `i` on: it writes each field of the
words. -/
theorem unpackLoop_eq {ws rest : List Nat} (hwidth : ∀ w ∈ ws, w ∈ [1, 2, 4, 8])
    (hsum : 8 * ws.sum ≤ l.bits) (st : Ran (List Nat)) :
    unpackLoop l inVal i ws ((shiftLoop ws i).shiftBy ++ rest) st =
      some { status := st.status
             out := st.out ++ unpacked inVal ws
             touched := st.touched ++ turns inVal.length i ws.length } := by
  induction ws generalizing i st with
  | nil => simp [unpackLoop, unpacked, turns]
  | cons w ws ih =>
      have hw : w ∈ [1, 2, 4, 8] := hwidth w (by simp)
      have hpos : 0 < w := by
        simp only [List.mem_cons, List.not_mem_nil, or_false] at hw
        omega
      have hbits : l.bits ≤ 128 := by
        have := l.bits_mem
        simp only [List.mem_cons, List.not_mem_nil, or_false] at this
        omega
      rw [List.sum_cons] at hsum
      have hs : (shiftLoop ws (i + 1)).lShiftBy = 8 * ws.sum := by
        rw [lShiftBy_eq]
        exact Nat.mod_eq_of_lt (by omega)
      have hmap : inVal.mapM (unpackWord l w (8 * ws.sum)) = _ := mapM_eq_map fun x _ =>
        unpackWord_eq hpos (by omega : 8 * w + 8 * ws.sum ≤ l.bits)
      have hcol : unpackColumn l w (8 * ws.sum) inVal =
          some (inVal.map fun x => x >>> (8 * ws.sum) % 2 ^ (8 * w)) := by
        rw [unpackColumn, if_pos hw, hmap]
      simp only [shiftLoop, hs, List.cons_append, unpackLoop, hcol, Option.bind_eq_bind,
        Option.bind_some]
      rw [ih fun x hx => hwidth x (by simp [hx])]
      · simp [unpacked, hw, turns_succ]
      · omega

/-- What is touched once stays touched. -/
theorem touched_unpackLoop {ws ss : List Nat} {st st' : Ran (List Nat)}
    (h : unpackLoop l inVal i ws ss st = some st') {k : Nat} (hk : k ∈ st.touched) :
    k ∈ st'.touched := by
  induction ws generalizing i ss st with
  | nil =>
      simp only [unpackLoop, Option.some.injEq] at h
      exact h ▸ hk
  | cons w ws ih =>
      cases ss with
      | nil =>
          simp only [unpackLoop, Option.some.injEq] at h
          exact h ▸ hk
      | cons s ss =>
          simp only [unpackLoop, Option.bind_eq_bind, Option.bind_eq_some_iff] at h
          obtain ⟨col, _, h⟩ := h
          exact ih h (by simp [hk])

/-! ## The kernels -/

theorem mem_turns {k m : Nat} (h : m ∈ turns n i k) : m < i + k := by
  obtain ⟨r, hr, hm⟩ := List.mem_flatMap.mp h
  rw [(List.mem_replicate.mp hm).2]
  have := List.mem_range'_1.mp hr
  omega

/-- `pack` on columns of the widths it is given: each word has the fields of its row, and the
arrays are touched at the indices of the columns only. -/
theorem packKernel_eq (h : List.Forall₂ (Column n) l.width cols) :
    ∃ p, packKernel l cols n = some p ∧ p.status = 0 ∧ p.out.length = n ∧
      (∀ j, j < n → p.out.getD j 0 = join (fieldBits l.width) (row cols j)) ∧
      ∀ k ∈ p.touched, k < l.nVals := by
  obtain ⟨p, hrun, hst, hlen, _, hrow, htouched⟩ :=
    packLoop_eq (i := 0) h l.width_mem l.eight_sum_le
      ⟨0, List.replicate n 0, (shiftLoop l.width 0).touched⟩ rfl List.length_replicate
      (fun x hx => by
        rw [(List.mem_replicate.mp hx).2]
        exact Nat.two_pow_pos _)
  refine ⟨p, hrun, hst, hlen, ?_, ?_⟩
  · intro j hj
    rw [hrow j hj, List.getD_eq_getElem _ _ (by simpa using hj)]
    simp
  · intro k hk
    rw [htouched, List.mem_append, mem_touched_shiftLoop] at hk
    rw [Layout.nVals]
    cases hk with
    | inl hk => omega
    | inr hk =>
        have := mem_turns hk
        omega

/-- `unpack`, where the memory behind the widths adds nothing to the shifts. -/
theorem unpackKernel_eq (hbeyond : 8 * beyond % 2 ^ 32 = 0) (inVal : List Nat) :
    ∃ u, unpackKernel l beyond inVal = some u ∧ u.status = 0 ∧
      u.out = unpacked inVal l.width := by
  rw [unpackKernel, shiftBy_beyond hbeyond, unpackLoop_eq l.width_mem l.eight_sum_le]
  exact ⟨_, rfl, rfl, by simp⟩

/-- Whatever `unpack` is called with, it touches the arrays behind their ends. -/
theorem unpackKernel_touched {u : Ran (List Nat)} (h : unpackKernel l beyond inVal = some u) :
    l.nVals ∈ u.touched := by
  apply touched_unpackLoop h
  rw [mem_touched_shiftLoop, Layout.nVals, List.length_append, List.length_singleton]
  omega

/-- Where the memory behind the widths adds nothing, `unpack` undoes `pack`. -/
theorem unpack_pack (h : List.Forall₂ (Column n) l.width cols)
    (hbeyond : 8 * beyond % 2 ^ 32 = 0) :
    ∃ p u, packKernel l cols n = some p ∧ p.status = 0 ∧
      unpackKernel l beyond p.out = some u ∧ u.status = 0 ∧ u.out = cols := by
  obtain ⟨p, hp, hpst, hlen, hrow, _⟩ := packKernel_eq h
  obtain ⟨u, hu, hust, hout⟩ := unpackKernel_eq (l := l) hbeyond p.out
  refine ⟨p, u, hp, hpst, hu, hust, ?_⟩
  rw [hout]
  apply unpacked_eq h hlen
  intro j hj
  rw [hrow j hj]
  exact split_join (fits_row h j)

/-- Where the memory behind the widths adds nothing, `pack` undoes `unpack` on words without
bits above the fields. -/
theorem pack_unpack {words : List Nat} (hwords : ∀ x ∈ words, x < 2 ^ (8 * l.width.sum))
    (hbeyond : 8 * beyond % 2 ^ 32 = 0) :
    ∃ u p, unpackKernel l beyond words = some u ∧ u.status = 0 ∧
      packKernel l u.out words.length = some p ∧ p.status = 0 ∧ p.out = words := by
  obtain ⟨u, hu, hust, hout⟩ := unpackKernel_eq (l := l) hbeyond words
  obtain ⟨p, hp, hpst, hlen, hrow, _⟩ := packKernel_eq (column_unpacked words l.width)
  refine ⟨u, p, hu, hust, hout ▸ hp, hpst, ?_⟩
  apply List.ext_getElem hlen
  intro j hj hj'
  have hword := hrow j hj'
  have hlt : words[j] < 2 ^ (fieldBits l.width).sum := by
    rw [sum_fieldBits]
    exact hwords _ (List.getElem_mem hj')
  rw [row_unpacked hj', join_split, List.getD_eq_getElem _ _ hj, List.getD_eq_getElem _ _ hj',
    Nat.mod_eq_of_lt hlt] at hword
  exact hword

/-! ## What is asked of the two -/

/-- One call of both kernels: columns of the widths they are given, words without bits above
the fields, and what lies behind the widths when `unpack` reads it. -/
structure PackCall (l : Layout) where
  n : Nat
  cols : List (List Nat)
  words : List Nat
  beyond : Nat
  columns : List.Forall₂ (Column n) l.width cols
  unused : ∀ x ∈ words, x < 2 ^ (8 * l.width.sum)

/-- Both arrays are touched at the indices of the columns only. -/
def Within {α : Type} (l : Layout) (r : Ran α) : Prop := ∀ k ∈ r.touched, k < l.nVals

/-- In every call `unpack` gives back the columns that `pack` has put together, `pack` the
words that `unpack` has taken apart, and neither leaves its arrays. -/
structure UndoesPack (l : Layout) (calls : List (PackCall l)) : Prop where
  columns : ∀ c ∈ calls, ∃ p u, packKernel l c.cols c.n = some p ∧ p.status = 0 ∧ Within l p ∧
    unpackKernel l c.beyond p.out = some u ∧ u.status = 0 ∧ Within l u ∧ u.out = c.cols
  words : ∀ c ∈ calls, ∃ u p, unpackKernel l c.beyond c.words = some u ∧ u.status = 0 ∧
    packKernel l u.out c.words.length = some p ∧ p.status = 0 ∧ p.out = c.words

/-- Only where neither kernel is called at all is nothing touched behind the arrays. -/
theorem undoesPack_iff (l : Layout) (calls : List (PackCall l)) :
    UndoesPack l calls ↔ calls = [] := by
  constructor
  · intro h
    cases calls with
    | nil => rfl
    | cons c calls =>
        obtain ⟨_, u, _, _, _, hu, _, hwithin, _⟩ := h.columns c (by simp)
        exact absurd (hwithin _ (unpackKernel_touched hu)) (Nat.lt_irrefl _)
  · intro h
    subst h
    exact { columns := by simp, words := by simp }

/-- Two columns of a byte in a word of two. -/
def twoBytes : Layout where
  qtype := .UI2
  width := [1, 1]
  qtype_mem := by simp
  width_mem := by simp
  width_ne := by simp
  sum_le := by simp [getWidthCQtype]

/-- One row, with zeros behind the widths. -/
def oneRow : PackCall twoBytes where
  n := 1
  cols := [[3], [5]]
  words := [0x305]
  beyond := 0
  columns := .cons (by simp [Column]) (.cons (by simp [Column]) .nil)
  unused := by simp [twoBytes]

/-- The columns come back, but `unpack` has touched index 2 of arrays of two. -/
theorem undoesPack_fails :
    (unpackKernel twoBytes 0 [0x305]).map (fun u => (u.out, u.touched)) =
      some ([[3], [5]], [2, 1, 0, 0, 1]) ∧
    ¬ UndoesPack twoBytes [oneRow] := by
  constructor
  · decide
  · intro h
    obtain ⟨_, u, _, _, _, hu, _, hwithin, _⟩ := h.columns oneRow (by simp)
    exact absurd (hwithin _ (unpackKernel_touched hu)) (Nat.lt_irrefl _)

end QStore.Operators
