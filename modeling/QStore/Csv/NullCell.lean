import Mathlib.Data.List.GetD
import QStore.Csv.CellText

/-!
# QStore.Csv.NullCell

Cells that begin with a backslash. `get_cell` takes them to be `\N`, three bytes with the byte
that ends the cell, whatever they are; the test it makes for `\N` decides nothing.
-/

namespace QStore.Csv

variable {m : CellMode} {X l lbuf text : Bytes} {fldSep c d e : UInt8} {isLastCol isTrim : Bool}
  {bufsz n xidx : Nat}

/-- The byte that ends a raw cell. -/
def cellEnd (fldSep : UInt8) (isLastCol : Bool) : UInt8 := if isLastCol then eoln else fldSep

/-- The cell is `\N`, with the byte that ends it. -/
def IsNullCell (X : Bytes) (xidx : Nat) (fldSep : UInt8) (isLastCol : Bool) : Prop :=
  (X.drop xidx).take 3 = [bslash, 78, cellEnd fldSep isLastCol]

instance : Decidable (IsNullCell X xidx fldSep isLastCol) :=
  inferInstanceAs (Decidable (_ = _))

/-- What `get_cell` would make of the cell if it were read as any other raw cell is. -/
def rawCell (X : Bytes) (xidx : Nat) (fldSep : UInt8) (isLastCol isTrim : Bool) (bufsz : Nat) :
    CellResult :=
  if bufsz = 0 then cellFailed isTrim []
  else
    scanCell ⟨cellEnd fldSep isLastCol, false, cellEnd fldSep isLastCol, isTrim, bufsz⟩
      (X.drop xidx) xidx []

/-- The same index and flag, and the same bytes in the zeroed buffer. -/
structure CellResult.Same (r s : CellResult) : Prop where
  xidx : r.xidx = s.xidx
  isErr : r.isErr = s.isErr
  buf : ∀ i, r.buf.getD i 0 = s.buf.getD i 0

/-- A cell that begins with a backslash is null where it is `\N`, and is read as any other raw
cell where it is not. -/
def BackslashRight (X : Bytes) (xidx : Nat) (fldSep : UInt8) (isLastCol isTrim : Bool)
    (bufsz : Nat) : Prop :=
  ∃ r, getCell X xidx fldSep isLastCol isTrim bufsz = some r ∧
    (IsNullCell X xidx fldSep isLastCol → r.Same ⟨xidx + 3, [], false⟩) ∧
    (¬ IsNullCell X xidx fldSep isLastCol →
      r.Same (rawCell X xidx fldSep isLastCol isTrim bufsz))

/-- The buffer stays empty: what is written to it is NULs, or `trim` leaves nothing of it. -/
def LeavesBlank (isTrim : Bool) (bufsz : Nat) (text : Bytes) : Prop :=
  if isTrim then ∃ buf, trim bufsz text = some buf ∧ ∀ b ∈ buf, b = 0 else ∀ b ∈ text, b = 0

/-- The two bytes behind the backslash leave the buffer empty as well, and the cell ends with the
second of them. -/
def BlankThree (term : UInt8) (isTrim : Bool) (bufsz : Nat) : Bytes → Prop
  | c :: d :: e :: rest =>
      c ≠ term ∧ (e = term ∧ LeavesBlank isTrim bufsz [d] ∨
        e ≠ term ∧ e ≠ bslash ∧ e ≠ eoln ∧ rest = [] ∧ 1 < bufsz ∧ LeavesBlank isTrim bufsz [d, e])
  | _ => False

theorem BlankThree.three_le {term : UInt8} {l : Bytes} (h : BlankThree term isTrim bufsz l) :
    3 ≤ l.length := by
  match l, h with
  | c :: d :: e :: rest, _ => simp

/-! ## where the loop ends -/

theorem cellDone_xidx (isTrim : Bool) (bufsz xidx : Nat) (lbuf : Bytes) :
    (cellDone isTrim bufsz xidx lbuf).xidx = 0 ∨
      (cellDone isTrim bufsz xidx lbuf).xidx = xidx := by
  rw [cellDone]
  split
  · split
    · exact .inl rfl
    · exact .inr rfl
  · exact .inr rfl

/-- The loop fails with the index 0, or goes on by a byte at least. -/
theorem scanCell_xidx (hroom : lbuf.length ≤ m.bufsz) (hl : l ≠ []) :
    (scanCell m l xidx lbuf).xidx = 0 ∨ xidx < (scanCell m l xidx lbuf).xidx := by
  rcases cell_cases m l.length (m.bufsz - lbuf.length) l (Nat.le_refl _)
    with ⟨text, n, h, hlen⟩ | h | h
  · have hpos := h.length_pos hl
    rw [scanCell_ends h (by omega)]
    rcases cellDone_xidx m.isTrim m.bufsz (xidx + n) (lbuf ++ text) with h0 | h0
    · exact .inl h0
    · exact .inr (by omega)
  · obtain ⟨text, h⟩ := h
    rw [scanCell_stuck h hroom]
    exact .inl rfl
  · obtain ⟨text, h⟩ := h
    rw [scanCell_hasEoln h]
    exact .inl rfl

theorem scanCell_ge (hroom : lbuf.length ≤ m.bufsz) :
    (scanCell m l xidx lbuf).xidx = 0 ∨ xidx ≤ (scanCell m l xidx lbuf).xidx := by
  by_cases hl : l = []
  · subst hl
    rw [scanCell]
    exact (cellDone_xidx _ _ _ _).imp_right fun h => Nat.le_of_eq h.symm
  · exact (scanCell_xidx hroom hl).imp_right Nat.le_of_lt

/-- A cell that is done is blank exactly where nothing is left of it. -/
theorem cellDone_same (hpos : 0 < xidx) :
    CellResult.Same ⟨xidx, [], false⟩ (cellDone isTrim bufsz xidx text) ↔
      LeavesBlank isTrim bufsz text := by
  have hzero : ∀ buf : Bytes, (∀ i, ([] : Bytes).getD i 0 = buf.getD i 0) ↔ ∀ b ∈ buf, b = 0 := by
    intro buf
    constructor
    · intro h b hb
      obtain ⟨i, hi, rfl⟩ := List.mem_iff_getElem.mp hb
      have := h i
      rw [List.getD_nil, List.getD_eq_getElem _ _ hi] at this
      exact this.symm
    · intro h i
      by_cases hi : i < buf.length
      · rw [List.getD_nil, List.getD_eq_getElem _ _ hi, h _ (List.getElem_mem hi)]
      · rw [List.getD_nil, List.getD_eq_default _ _ (Nat.le_of_not_lt hi)]
  rw [LeavesBlank, cellDone]
  cases isTrim with
  | false => exact ⟨fun h => (hzero _).mp h.buf, fun h => ⟨rfl, rfl, (hzero _).mpr h⟩⟩
  | true =>
      simp only [if_true]
      cases htrim : trim bufsz text with
      | none =>
          refine iff_of_false (fun h => ?_) (by simp)
          have h0 : xidx = 0 := h.xidx
          omega
      | some buf =>
          simp only [Option.some.injEq, exists_eq_left']
          exact ⟨fun h => (hzero _).mp h.buf, fun h => ⟨rfl, rfl, (hzero _).mpr h⟩⟩

/-! ## three bytes -/

/-- The raw cell at a backslash is blank and takes three bytes, in these cases only. -/
theorem scanCell_three_iff (term : UInt8) (hpos : 0 < bufsz) :
    CellResult.Same ⟨xidx + 3, [], false⟩
        (scanCell ⟨term, false, term, isTrim, bufsz⟩ (bslash :: l) xidx []) ↔
      BlankThree term isTrim bufsz (bslash :: l) := by
  obtain ⟨m, hm⟩ : ∃ m : CellMode, m = ⟨term, false, term, isTrim, bufsz⟩ := ⟨_, rfl⟩
  have hlast : m.lastChar = term := by rw [hm]
  have hquote : m.startDquote = false := by rw [hm]
  have hbufsz : m.bufsz = bufsz := by rw [hm]
  have htrim : m.isTrim = isTrim := by rw [hm]
  rw [← hm]
  by_cases hterm : bslash = term
  · -- the backslash itself ends the cell
    have hscan : scanCell m (bslash :: l) xidx [] = cellDone m.isTrim m.bufsz (xidx + 1) [] := by
      rw [hterm, ← hlast]
      exact scanCell_stop hquote
    rw [hscan]
    refine iff_of_false (fun h => ?_) fun h => ?_
    · have hx : xidx + 3 = (cellDone m.isTrim m.bufsz (xidx + 1) []).xidx := h.xidx
      rcases cellDone_xidx m.isTrim m.bufsz (xidx + 1) [] with h0 | h0 <;> omega
    · match l, h with
      | d :: e :: rest, h => exact h.1 hterm
  · have hne : bslash ≠ m.lastChar := by rwa [hlast]
    cases l with
    | nil =>
        have hscan : scanCell m [bslash] xidx [] = cellFailed m.isTrim [] :=
          scanCell_stuck (.escape_here hne) (Nat.zero_le _)
        rw [hscan]
        refine iff_of_false (fun h => ?_) fun h => h
        have hx : xidx + 3 = 0 := h.xidx
        omega
    | cons d l =>
        have hscan : scanCell m (bslash :: d :: l) xidx [] = scanCell m l (xidx + 2) [d] :=
          scanCell_escaped hne (by rw [hbufsz]; exact hpos)
        rw [hscan]
        cases l with
        | nil =>
            rw [scanCell]
            refine iff_of_false (fun h => ?_) fun h => h
            have hx : xidx + 3 = (cellDone m.isTrim m.bufsz (xidx + 2) [d]).xidx := h.xidx
            rcases cellDone_xidx m.isTrim m.bufsz (xidx + 2) [d] with h0 | h0 <;> omega
        | cons e rest =>
            simp only [BlankThree, ne_eq, hterm, not_false_eq_true, true_and]
            by_cases he : e = term
            · -- the third byte ends the cell
              have hstop : scanCell m (e :: rest) (xidx + 2) [d] =
                  cellDone m.isTrim m.bufsz (xidx + 3) [d] := by
                rw [he, ← hlast]
                exact scanCell_stop hquote
              rw [hstop, htrim, hbufsz, cellDone_same (Nat.succ_pos _)]
              simp [he]
            · simp only [he, false_and, not_false_eq_true, true_and, false_or]
              have he' : e ≠ m.lastChar := by rwa [hlast]
              have hzero : ∀ r : CellResult, r.xidx = 0 ∨ xidx + 3 < r.xidx →
                  ¬ CellResult.Same ⟨xidx + 3, [], false⟩ r := by
                intro r hr h
                have hx : xidx + 3 = r.xidx := h.xidx
                omega
              by_cases hsmall : bufsz ≤ 1
              · -- no room for a second byte
                have hfull : (scanCell m (e :: rest) (xidx + 2) [d]).xidx = 0 := by
                  have hle : [d].length ≤ m.bufsz := by rw [hbufsz]; exact hpos
                  have hroom : m.bufsz - [d].length = 0 := by
                    rw [hbufsz, List.length_singleton]
                    omega
                  by_cases hnone : e = bslash ∧ rest = []
                  · rw [hnone.1, hnone.2, scanCell_stuck (.escape_here hne) hle]
                    rfl
                  · have hstuck := Stuck.full_here he' fun hb hrest => hnone ⟨hb, hrest⟩
                    rw [← hroom] at hstuck
                    rw [scanCell_stuck hstuck hle]
                    rfl
                exact iff_of_false (hzero _ (.inl hfull)) fun h => by omega
              · have hroom : [d].length < m.bufsz := by
                  rw [hbufsz, List.length_singleton]
                  omega
                by_cases hb : e = bslash
                · refine iff_of_false (hzero _ ?_) fun h => h.1 hb
                  subst hb
                  cases rest with
                  | nil =>
                      rw [scanCell_stuck (.escape_here hne) (Nat.le_of_lt hroom)]
                      exact .inl rfl
                  | cons f rest =>
                      rw [scanCell_escaped hne hroom]
                      exact (scanCell_ge (by exact hroom)).imp_right fun h => by omega
                · by_cases hnl : e = eoln
                  · refine iff_of_false (hzero _ (.inl ?_)) fun h => h.2.1 hnl
                    have hlone : HasEoln m (m.bufsz - [d].length) (e :: rest) [] :=
                      ⟨hquote, hnl ▸ he', by rw [List.length_nil]; omega, [], rest, .nil,
                        by rw [hnl]; rfl⟩
                    rw [scanCell_hasEoln hlone]
                  · rw [scanCell_plain he' hb hroom (.inr hnl)]
                    cases rest with
                    | nil =>
                        rw [scanCell, htrim, hbufsz]
                        refine (cellDone_same (Nat.succ_pos (xidx + 2))).trans ?_
                        simp only [hb, hnl, not_false_eq_true, true_and]
                        exact ⟨fun h => ⟨by omega, h⟩, fun h => h.2⟩
                    | cons f rest =>
                        refine iff_of_false (hzero _ ?_) fun h => by simp at h
                        exact scanCell_xidx (by exact hroom) (List.cons_ne_nil _ _)

/-! ## the call -/

/-- At a backslash the call skips three bytes, or reads past the end of the file. -/
theorem getCell_bslash (fldSep : UInt8) (isLastCol isTrim : Bool) (hb : X[xidx]? = some bslash)
    (hpos : 0 < bufsz) :
    getCell X xidx fldSep isLastCol isTrim bufsz = some ⟨xidx + 3, [], false⟩ ∨
      getCell X xidx fldSep isLastCol isTrim bufsz = none ∧ X.length ≤ xidx + 2 := by
  obtain ⟨hlt, hget⟩ := List.getElem?_eq_some_iff.mp hb
  have hdrop : X.drop xidx = bslash :: X.drop (xidx + 1) := by
    rw [List.drop_eq_getElem_cons hlt, hget]
  simp only [getCell, if_neg (show ¬ X.length = 0 by omega), if_neg (show ¬ xidx = X.length by omega),
    if_neg (show ¬ bufsz = 0 by omega), hdrop, if_true]
  split
  · next hend =>
    split
    · exact .inr ⟨rfl, hend⟩
    · split
      · exact .inr ⟨rfl, hend⟩
      · exact .inl rfl
  · exact .inl rfl

/-- **When a cell that begins with a backslash is read right**: where it is `\N`, and where
reading it as any other cell takes three bytes and leaves the buffer empty. -/
theorem backslashRight_iff (hb : X[xidx]? = some bslash) (fldSep : UInt8)
    (isLastCol isTrim : Bool) (bufsz : Nat) :
    BackslashRight X xidx fldSep isLastCol isTrim bufsz ↔
      if bufsz = 0 then ¬ IsNullCell X xidx fldSep isLastCol
      else IsNullCell X xidx fldSep isLastCol ∨
        BlankThree (cellEnd fldSep isLastCol) isTrim bufsz (X.drop xidx) := by
  obtain ⟨hlt, hget⟩ := List.getElem?_eq_some_iff.mp hb
  have hdrop : X.drop xidx = bslash :: X.drop (xidx + 1) := by
    rw [List.drop_eq_getElem_cons hlt, hget]
  by_cases h0 : bufsz = 0
  · rw [if_pos h0]
    have hfail : getCell X xidx fldSep isLastCol isTrim bufsz = some (cellFailed isTrim []) := by
      simp only [getCell, if_neg (show ¬ X.length = 0 by omega),
        if_neg (show ¬ xidx = X.length by omega), if_pos h0]
    constructor
    · rintro ⟨r, hr, hnull, -⟩ his
      rw [hfail, Option.some.injEq] at hr
      have hx : r.xidx = xidx + 3 := (hnull his).xidx
      rw [← hr] at hx
      exact absurd hx (Nat.zero_ne_add_one _)
    · intro hno
      refine ⟨_, hfail, fun his => absurd his hno, fun _ => ?_⟩
      rw [rawCell, if_pos h0]
      exact ⟨rfl, rfl, fun _ => rfl⟩
  · rw [if_neg h0]
    have hraw : CellResult.Same ⟨xidx + 3, [], false⟩
        (rawCell X xidx fldSep isLastCol isTrim bufsz) ↔
        BlankThree (cellEnd fldSep isLastCol) isTrim bufsz (X.drop xidx) := by
      rw [rawCell, if_neg h0, hdrop]
      exact scanCell_three_iff _ (by omega)
    rcases getCell_bslash fldSep isLastCol isTrim hb (show 0 < bufsz by omega)
      with hsome | ⟨hnone, hend⟩
    · rw [← hraw]
      constructor
      · rintro ⟨r, hr, -, hother⟩
        rw [hsome, Option.some.injEq] at hr
        by_cases his : IsNullCell X xidx fldSep isLastCol
        · exact .inl his
        · exact .inr (hr ▸ hother his)
      · rintro (his | hsame)
        · exact ⟨_, hsome, fun _ => ⟨rfl, rfl, fun _ => rfl⟩, fun hno => absurd his hno⟩
        · exact ⟨_, hsome, fun _ => ⟨rfl, rfl, fun _ => rfl⟩, fun _ => hsame⟩
    · -- fewer than three bytes are left
      have hlen : (X.drop xidx).length < 3 := by rw [List.length_drop]; omega
      refine iff_of_false ?_ ?_
      · rintro ⟨r, hr, -⟩
        rw [hnone] at hr
        contradiction
      · rintro (his | hthree)
        · have := congrArg List.length his
          simp only [List.length_take, List.length_cons, List.length_nil] at this
          omega
        · exact absurd hthree.three_le (by omega)

/-- The cell `\N` of a file of one row. -/
theorem backslashRight_iff_null : BackslashRight [92, 78, 10] 0 44 true false 7 ↔
    if 7 = 0 then ¬ IsNullCell [92, 78, 10] 0 44 true
    else IsNullCell [92, 78, 10] 0 44 true ∨
      BlankThree (cellEnd 44 true) false 7 (List.drop 0 [92, 78, 10]) :=
  backslashRight_iff rfl 44 true false 7

/-- The cell `\ab`, before a comma: it is taken to be null, and the index is that of the comma. -/
theorem backslashRight_fails : ¬ BackslashRight [92, 97, 98, 44, 99, 10] 0 44 false false 7 := by
  rintro ⟨r, hr, -, hother⟩
  have hno : ¬ IsNullCell [92, 97, 98, 44, 99, 10] 0 44 false := by decide
  have hcell : getCell [92, 97, 98, 44, 99, 10] 0 44 false false 7 = some ⟨3, [], false⟩ := rfl
  have hx := (hother hno).xidx
  rw [hcell, Option.some.injEq] at hr
  rw [← hr] at hx
  exact absurd hx (by decide)

end QStore.Csv
