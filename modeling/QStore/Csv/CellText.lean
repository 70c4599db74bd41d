import QStore.Csv.GetCell

/-!
# QStore.Csv.CellText

What the bytes of a cell say and where the cell ends, apart from how `get_cell` scans them.

```
cell  =  item item … end
item  =  byte  or  \byte
end   =  the byte that ends a raw cell, the closing quote and the byte behind it, or the end of the file
```

`cell_cases` divides what may stand at a cell: it ends, it cannot be read on, or it is a raw cell
with a newline in it. Each case has its lemma of what the loop of `get_cell` makes of it.
-/

namespace QStore.Csv

/-- Bytes of a cell, and the text they stand for: a backslash protects the byte behind it. -/
inductive Body (m : CellMode) : Bytes → Bytes → Prop
  | nil : Body m [] []
  | plain {c : UInt8} {src text : Bytes} (hlast : c ≠ m.lastChar) (hb : c ≠ bslash)
      (hnl : m.startDquote = true ∨ c ≠ eoln) (h : Body m src text) :
      Body m (c :: src) (c :: text)
  | escaped {d : UInt8} {src text : Bytes} (hlast : bslash ≠ m.lastChar) (h : Body m src text) :
      Body m (bslash :: d :: src) (d :: text)

/-- The cell has the text `text` and takes `n` bytes with its end. -/
inductive Ends (m : CellMode) : Bytes → Bytes → Nat → Prop
  | eof {src text : Bytes} (h : Body m src text) : Ends m src text src.length
  | raw {src text rest : Bytes} (hq : m.startDquote = false) (h : Body m src text) :
      Ends m (src ++ m.lastChar :: rest) text (src.length + 1)
  | quoted {src text rest : Bytes} (hq : m.startDquote = true) (h : Body m src text) :
      Ends m (src ++ m.lastChar :: m.term :: rest) text (src.length + 2)

/-- After `text` the cell cannot be read on, with room for `room` bytes: there is no room for the
next byte, the file ends behind a backslash, or something else stands behind the closing quote. -/
inductive Stuck (m : CellMode) (room : Nat) : Bytes → Bytes → Prop
  | full {c : UInt8} {src text rest : Bytes} (h : Body m src text) (hlen : text.length = room)
      (hlast : c ≠ m.lastChar) (hb : c = bslash → rest ≠ []) : Stuck m room (src ++ c :: rest) text
  | escape {src text : Bytes} (h : Body m src text) (hlen : text.length ≤ room)
      (hlast : bslash ≠ m.lastChar) : Stuck m room (src ++ [bslash]) text
  | quote {src text rest : Bytes} (hq : m.startDquote = true) (h : Body m src text)
      (hlen : text.length ≤ room) (hterm : rest.head? ≠ some m.term) :
      Stuck m room (src ++ m.lastChar :: rest) text

/-- A raw cell that is not the last of its row has a newline after `text`. -/
def HasEoln (m : CellMode) (room : Nat) (l text : Bytes) : Prop :=
  m.startDquote = false ∧ eoln ≠ m.lastChar ∧ text.length < room ∧
    ∃ src rest, Body m src text ∧ l = src ++ eoln :: rest

variable {m : CellMode} {c d : UInt8} {l src text rest lbuf : Bytes} {n room xidx : Nat}

/-! ## the cases -/

theorem Ends.plain (hlast : c ≠ m.lastChar) (hb : c ≠ bslash)
    (hnl : m.startDquote = true ∨ c ≠ eoln) (h : Ends m l text n) :
    Ends m (c :: l) (c :: text) (n + 1) := by
  cases h with
  | eof h => exact .eof (.plain hlast hb hnl h)
  | raw hq h => exact .raw hq (.plain hlast hb hnl h)
  | quoted hq h => exact .quoted hq (.plain hlast hb hnl h)

theorem Ends.escaped (hlast : bslash ≠ m.lastChar) (h : Ends m l text n) :
    Ends m (bslash :: d :: l) (d :: text) (n + 2) := by
  cases h with
  | eof h => exact .eof (.escaped hlast h)
  | raw hq h => exact .raw hq (.escaped hlast h)
  | quoted hq h => exact .quoted hq (.escaped hlast h)

/-- Ending at the first byte. -/
theorem Ends.raw_here (hq : m.startDquote = false) : Ends m (m.lastChar :: rest) [] 1 :=
  show Ends m ([] ++ m.lastChar :: rest) [] (([] : Bytes).length + 1) from .raw hq .nil

theorem Ends.quoted_here (hq : m.startDquote = true) :
    Ends m (m.lastChar :: m.term :: rest) [] 2 :=
  show Ends m ([] ++ m.lastChar :: m.term :: rest) [] (([] : Bytes).length + 2) from .quoted hq .nil

/-- Stuck at the first byte. -/
theorem Stuck.full_here (hlast : c ≠ m.lastChar) (hb : c = bslash → rest ≠ []) :
    Stuck m 0 (c :: rest) [] :=
  show Stuck m 0 ([] ++ c :: rest) [] from .full .nil rfl hlast hb

theorem Stuck.escape_here (hlast : bslash ≠ m.lastChar) : Stuck m room [bslash] [] :=
  show Stuck m room ([] ++ [bslash]) [] from .escape .nil (Nat.zero_le _) hlast

theorem Stuck.quote_here (hq : m.startDquote = true) (hterm : rest.head? ≠ some m.term) :
    Stuck m room (m.lastChar :: rest) [] :=
  show Stuck m room ([] ++ m.lastChar :: rest) [] from .quote hq .nil (Nat.zero_le _) hterm

theorem Stuck.plain (hlast : c ≠ m.lastChar) (hb : c ≠ bslash)
    (hnl : m.startDquote = true ∨ c ≠ eoln) (h : Stuck m room l text) :
    Stuck m (room + 1) (c :: l) (c :: text) := by
  cases h with
  | full h hlen hlast' hb' =>
      exact .full (.plain hlast hb hnl h) (by rw [List.length_cons, hlen]) hlast' hb'
  | escape h hlen hlast' =>
      exact .escape (.plain hlast hb hnl h) (by rw [List.length_cons]; omega) hlast'
  | quote hq h hlen hterm =>
      exact .quote hq (.plain hlast hb hnl h) (by rw [List.length_cons]; omega) hterm

theorem Stuck.escaped (hlast : bslash ≠ m.lastChar) (h : Stuck m room l text) :
    Stuck m (room + 1) (bslash :: d :: l) (d :: text) := by
  cases h with
  | full h hlen hlast' hb' =>
      exact .full (.escaped hlast h) (by rw [List.length_cons, hlen]) hlast' hb'
  | escape h hlen hlast' =>
      exact .escape (.escaped hlast h) (by rw [List.length_cons]; omega) hlast'
  | quote hq h hlen hterm =>
      exact .quote hq (.escaped hlast h) (by rw [List.length_cons]; omega) hterm

theorem HasEoln.plain (hlast : c ≠ m.lastChar) (hb : c ≠ bslash) (hnl : c ≠ eoln)
    (h : HasEoln m room l text) : HasEoln m (room + 1) (c :: l) (c :: text) := by
  obtain ⟨hq, hne, hlen, src, rest, hbody, rfl⟩ := h
  exact ⟨hq, hne, by rw [List.length_cons]; omega, c :: src, rest, .plain hlast hb (.inr hnl) hbody,
    rfl⟩

theorem HasEoln.escaped (hlast : bslash ≠ m.lastChar) (h : HasEoln m room l text) :
    HasEoln m (room + 1) (bslash :: d :: l) (d :: text) := by
  obtain ⟨hq, hne, hlen, src, rest, hbody, rfl⟩ := h
  exact ⟨hq, hne, by rw [List.length_cons]; omega, bslash :: d :: src, rest, .escaped hlast hbody,
    rfl⟩

/-- A cell takes a byte at least, unless the file is at its end. -/
theorem Ends.length_pos (h : Ends m l text n) (hl : l ≠ []) : 0 < n := by
  cases h with
  | eof h => exact List.length_pos_iff.mpr hl
  | raw _ _ => omega
  | quoted _ _ => omega

/-- **What may stand at a cell.** -/
theorem cell_cases (m : CellMode) : ∀ (len room : Nat) (l : Bytes), l.length ≤ len →
    (∃ text n, Ends m l text n ∧ text.length ≤ room) ∨ (∃ text, Stuck m room l text) ∨
      ∃ text, HasEoln m room l text := by
  intro len
  induction len with
  | zero =>
      intro room l hlen
      obtain rfl := List.eq_nil_of_length_eq_zero (Nat.le_zero.mp hlen)
      exact .inl ⟨[], 0, .eof .nil, Nat.zero_le _⟩
  | succ len ih =>
      intro room l hlen
      cases l with
      | nil => exact .inl ⟨[], 0, .eof .nil, Nat.zero_le _⟩
      | cons c rest =>
          rw [List.length_cons] at hlen
          by_cases hlast : c = m.lastChar
          · subst hlast
            cases hq : m.startDquote with
            | false => exact .inl ⟨[], 1, .raw_here hq, Nat.zero_le _⟩
            | true =>
                by_cases hterm : rest.head? = some m.term
                · obtain ⟨rest', rfl⟩ := List.head?_eq_some_iff.mp hterm
                  exact .inl ⟨[], 2, .quoted_here hq, Nat.zero_le _⟩
                · exact .inr (.inl ⟨[], .quote_here hq hterm⟩)
          · by_cases hb : c = bslash
            · subst hb
              cases rest with
              | nil => exact .inr (.inl ⟨[], .escape_here hlast⟩)
              | cons d rest =>
                  rw [List.length_cons] at hlen
                  cases room with
                  | zero => exact .inr (.inl ⟨[], .full_here hlast (by simp)⟩)
                  | succ room =>
                      rcases ih room rest (by omega) with ⟨text, n, h, hle⟩ | ⟨text, h⟩ | ⟨text, h⟩
                      · exact .inl ⟨_, _, h.escaped hlast, Nat.succ_le_succ hle⟩
                      · exact .inr (.inl ⟨_, h.escaped hlast⟩)
                      · exact .inr (.inr ⟨_, h.escaped hlast⟩)
            · cases room with
              | zero => exact .inr (.inl ⟨[], .full_here hlast fun h => absurd h hb⟩)
              | succ room =>
                  by_cases hnl : m.startDquote = true ∨ c ≠ eoln
                  · rcases ih room rest (by omega) with ⟨text, n, h, hle⟩ | ⟨text, h⟩ | ⟨text, h⟩
                    · exact .inl ⟨_, _, h.plain hlast hb hnl, Nat.succ_le_succ hle⟩
                    · exact .inr (.inl ⟨_, h.plain hlast hb hnl⟩)
                    · have hne : c ≠ eoln := hnl.resolve_left (by simp [h.1])
                      exact .inr (.inr ⟨_, h.plain hlast hb hne⟩)
                  · rw [not_or, not_not] at hnl
                    obtain ⟨hq, rfl⟩ := hnl
                    exact .inr (.inr ⟨[], by simpa using hq, hlast, Nat.succ_pos room, [], rest, .nil,
                      rfl⟩)

/-! ## what the loop makes of them -/

/-- The loop goes through the bytes of a cell that has room for its text. -/
theorem scanCell_body (h : Body m src text) (hlen : lbuf.length + text.length ≤ m.bufsz) :
    scanCell m (src ++ rest) xidx lbuf = scanCell m rest (xidx + src.length) (lbuf ++ text) := by
  induction h generalizing xidx lbuf with
  | nil => simp
  | @plain c src text hlast hb hnl _ ih =>
      rw [List.length_cons] at hlen
      rw [List.cons_append, scanCell_plain hlast hb (by omega) hnl,
        ih (by rw [List.length_append, List.length_singleton]; omega), List.append_assoc,
        List.singleton_append, List.length_cons, Nat.add_assoc, Nat.add_comm 1]
  | @escaped d src text hlast _ ih =>
      rw [List.length_cons] at hlen
      rw [List.cons_append, List.cons_append, scanCell_escaped hlast (by omega),
        ih (by rw [List.length_append, List.length_singleton]; omega), List.append_assoc,
        List.singleton_append, List.length_cons, List.length_cons, Nat.add_assoc, Nat.add_comm 2]

/-- **A cell that ends** and has room for its text is read to just behind its end. -/
theorem scanCell_ends (h : Ends m l text n) (hlen : lbuf.length + text.length ≤ m.bufsz) :
    scanCell m l xidx lbuf = cellDone m.isTrim m.bufsz (xidx + n) (lbuf ++ text) := by
  cases h with
  | @eof src text h =>
      have hscan : scanCell m (l ++ []) xidx lbuf =
          scanCell m [] (xidx + l.length) (lbuf ++ text) :=
        scanCell_body h hlen
      rw [List.append_nil] at hscan
      rw [hscan, scanCell]
  | raw hq h => rw [scanCell_body h hlen, scanCell_stop hq, Nat.add_assoc]
  | quoted hq h => rw [scanCell_body h hlen, scanCell_close hq, Nat.add_assoc]

/-- A cell that cannot be read on: an error that no flag tells. -/
theorem scanCell_stuck (h : Stuck m (m.bufsz - lbuf.length) l text)
    (hroom : lbuf.length ≤ m.bufsz) :
    scanCell m l xidx lbuf = cellFailed m.isTrim (lbuf ++ text) := by
  cases h with
  | @full c src text rest h hlen hlast hb =>
      have hfull : (lbuf ++ text).length ≥ m.bufsz := by rw [List.length_append]; omega
      rw [scanCell_body h (by omega)]
      by_cases hc : c = bslash
      · obtain ⟨d, rest', rfl⟩ := List.exists_cons_of_ne_nil (hb hc)
        rw [scanCell, if_neg hlast, if_pos hc]
        simp only [if_pos hfull]
      · rw [scanCell.eq_def]
        simp only [if_neg hlast, if_neg hc, if_pos hfull]
  | escape h hlen hlast =>
      rw [scanCell_body h (by omega), scanCell.eq_def]
      simp only [if_neg hlast, if_true]
  | @quote src text rest hq h hlen hterm =>
      rw [scanCell_body h (by omega), scanCell.eq_def]
      simp only [if_true, if_pos hq]
      cases rest with
      | nil => rfl
      | cons d rest =>
          have hd : d ≠ m.term := fun hd => hterm (by rw [hd]; rfl)
          simp only [if_pos hd]

/-- A newline in a raw cell: an error that the flag tells. -/
theorem scanCell_hasEoln (h : HasEoln m (m.bufsz - lbuf.length) l text) :
    scanCell m l xidx lbuf = ⟨0, if m.isTrim then [] else lbuf ++ text, true⟩ := by
  obtain ⟨hq, hne, hlen, src, rest, hbody, rfl⟩ := h
  have hroom : ¬ (lbuf ++ text).length ≥ m.bufsz := by rw [List.length_append]; omega
  have hraw : (!m.startDquote && eoln == eoln) = true := by rw [hq]; rfl
  rw [scanCell_body hbody (by omega), scanCell.eq_def]
  simp only [if_neg hne, if_neg (show ¬ eoln = bslash by decide), if_neg hroom, if_pos hraw]

/-! ## what the call makes of them -/

/-- What a call that stands at a cell makes of it: it reads `n` bytes to the end and fills the
buffer; it fails and sets the flag; it fails without a word, with what it has left in the buffer;
or it reads past the end of the file. -/
inductive Reading where
  | done (n : Nat) (buf : Bytes)
  | flagged (buf : Bytes)
  | silent (buf : Bytes)
  | past

/-- The result that goes with it. -/
def Reading.result (xidx : Nat) : Reading → Option CellResult
  | .done n buf => some ⟨xidx + n, buf, false⟩
  | .flagged buf => some ⟨0, buf, true⟩
  | .silent buf => some ⟨0, buf, false⟩
  | .past => none

/-- The reading of a cell that the loop goes through from `l` on, `k` bytes behind its start. -/
inductive Scans (m : CellMode) (k : Nat) : Bytes → Reading → Prop
  | whole {l text : Bytes} {n : Nat} (h : Ends m l text n) (hlen : text.length ≤ m.bufsz)
      (ht : m.isTrim = false) : Scans m k l (.done (k + n) text)
  | trimmed {l text buf : Bytes} {n : Nat} (h : Ends m l text n) (hlen : text.length ≤ m.bufsz)
      (ht : m.isTrim = true) (hbuf : trim m.bufsz text = some buf) : Scans m k l (.done (k + n) buf)
  | untrimmed {l text : Bytes} {n : Nat} (h : Ends m l text n) (hlen : text.length ≤ m.bufsz)
      (ht : m.isTrim = true) (hbuf : trim m.bufsz text = none) : Scans m k l (.silent [])
  | stuck {l text : Bytes} (h : Stuck m m.bufsz l text) :
      Scans m k l (.silent (if m.isTrim then [] else text))
  | eoln {l text : Bytes} (h : HasEoln m m.bufsz l text) :
      Scans m k l (.flagged (if m.isTrim then [] else text))

/-- The reading of a cell at the bytes `l`: quoted, raw, beginning with a backslash, or behind the
end of the file. -/
inductive Reads (term : UInt8) (isTrim : Bool) (bufsz : Nat) : Bytes → Reading → Prop
  | noBuffer {l : Bytes} (h0 : bufsz = 0) : Reads term isTrim bufsz l (.silent [])
  | beyond (h0 : bufsz ≠ 0) : Reads term isTrim bufsz [] .past
  | overrun {rest : Bytes} (h0 : bufsz ≠ 0) (h : rest = [] ∨ rest = [78]) :
      Reads term isTrim bufsz (bslash :: rest) .past
  | skipped {rest : Bytes} (h0 : bufsz ≠ 0) (h : ¬ (rest = [] ∨ rest = [78])) :
      Reads term isTrim bufsz (bslash :: rest) (.done 3 [])
  | quoted {rest : Bytes} {o : Reading} (h0 : bufsz ≠ 0)
      (h : Scans ⟨dquote, true, term, isTrim, bufsz⟩ 1 rest o) :
      Reads term isTrim bufsz (dquote :: rest) o
  | raw {c : UInt8} {rest : Bytes} {o : Reading} (h0 : bufsz ≠ 0) (hb : c ≠ bslash)
      (hq : c ≠ dquote) (h : Scans ⟨term, false, term, isTrim, bufsz⟩ 0 (c :: rest) o) :
      Reads term isTrim bufsz (c :: rest) o

variable {X : Bytes} {fldSep : UInt8} {isLastCol isTrim : Bool} {bufsz k : Nat} {o : Reading}

theorem scans_total (m : CellMode) (k : Nat) (l : Bytes) : ∃ o, Scans m k l o := by
  rcases cell_cases m l.length m.bufsz l (Nat.le_refl _) with ⟨text, n, h, hlen⟩ | ⟨text, h⟩ | ⟨text, h⟩
  · cases ht : m.isTrim with
    | false => exact ⟨_, .whole h hlen ht⟩
    | true =>
        cases hbuf : trim m.bufsz text with
        | none => exact ⟨_, .untrimmed h hlen ht hbuf⟩
        | some buf => exact ⟨_, .trimmed h hlen ht hbuf⟩
  · exact ⟨_, .stuck h⟩
  · exact ⟨_, .eoln h⟩

theorem reads_total (term : UInt8) (isTrim : Bool) (bufsz : Nat) (l : Bytes) :
    ∃ o, Reads term isTrim bufsz l o := by
  by_cases h0 : bufsz = 0
  · exact ⟨_, .noBuffer h0⟩
  cases l with
  | nil => exact ⟨_, .beyond h0⟩
  | cons c rest =>
    by_cases hb : c = bslash
    · subst hb
      by_cases h : rest = [] ∨ rest = [78]
      · exact ⟨_, .overrun h0 h⟩
      · exact ⟨_, .skipped h0 h⟩
    · by_cases hq : c = dquote
      · subst hq
        exact (scans_total _ 1 rest).imp fun _ h => .quoted h0 h
      · exact (scans_total _ 0 (c :: rest)).imp fun _ h => .raw h0 hb hq h

/-- The loop, started `k` bytes behind the cell's first. -/
theorem scanCell_of_scans (h : Scans m k l o) (xidx : Nat) :
    some (scanCell m l (xidx + k) []) = o.result xidx := by
  cases h with
  | whole h hlen ht =>
      rw [scanCell_ends h (by simpa using hlen), cellDone, ht, List.nil_append, Nat.add_assoc]
      rfl
  | trimmed h hlen ht hbuf =>
      rw [scanCell_ends h (by simpa using hlen), cellDone, ht, List.nil_append, hbuf, Nat.add_assoc]
      rfl
  | untrimmed h hlen ht hbuf =>
      rw [scanCell_ends h (by simpa using hlen), cellDone, ht, List.nil_append, hbuf]
      rfl
  | stuck h => rw [scanCell_stuck h (Nat.zero_le _)]; rfl
  | eoln h => rw [scanCell_hasEoln h]; rfl

/-- **What `get_cell` returns** goes with the reading of the cell it stands at. -/
theorem getCell_of_reads (hX : X ≠ []) (hne : xidx ≠ X.length)
    (h : Reads (if isLastCol then eoln else fldSep) isTrim bufsz (X.drop xidx) o) :
    getCell X xidx fldSep isLastCol isTrim bufsz = o.result xidx := by
  obtain ⟨l, hl⟩ : ∃ l, l = X.drop xidx := ⟨_, rfl⟩
  have hlen : l.length = X.length - xidx := by rw [hl, List.length_drop]
  have hpos : 0 < X.length := List.length_pos_iff.mpr hX
  simp only [getCell, if_neg (show ¬ X.length = 0 by omega), if_neg hne]
  rw [← hl] at h ⊢
  cases h with
  | noBuffer h0 =>
      rw [if_pos h0, cellFailed, ite_self]
      rfl
  | beyond h0 =>
      rw [if_neg h0]
      rfl
  | @overrun rest h0 h =>
      rw [List.length_cons] at hlen
      rw [if_neg h0]
      rcases h with rfl | rfl
      · rw [List.length_nil] at hlen
        simp only [if_true, if_pos (show xidx + 2 ≥ X.length by omega)]
        rfl
      · rw [List.length_singleton] at hlen
        simp only [if_true, if_pos (show xidx + 2 ≥ X.length by omega)]
        rfl
  | @skipped rest h0 h =>
      rw [not_or] at h
      rw [if_neg h0]
      simp only [if_true]
      cases rest with
      | nil => exact absurd rfl h.1
      | cons d rest =>
          by_cases hend : xidx + 2 ≥ X.length
          · rw [List.length_cons, List.length_cons] at hlen
            obtain rfl : rest = [] := List.eq_nil_of_length_eq_zero (by omega)
            rw [if_pos hend]
            simp only [if_neg (show ¬ d = 78 from fun hd => h.2 (by rw [hd]))]
            rfl
          · rw [if_neg hend]
            rfl
  | quoted h0 h =>
      rw [if_neg h0]
      simp only [if_neg (show ¬ dquote = bslash by decide), if_true]
      exact scanCell_of_scans h xidx
  | raw h0 hb hq h =>
      rw [if_neg h0]
      simp only [if_neg hb, if_neg hq]
      exact scanCell_of_scans h xidx

/-- Where a cell is read to its end, the call goes on by a byte at least. -/
theorem Reads.pos {term : UInt8} {buf : Bytes} (h : Reads term isTrim bufsz l (.done n buf)) :
    0 < n := by
  cases h with
  | skipped => omega
  | quoted _ h => cases h <;> omega
  | @raw c rest _ _ _ _ h =>
      cases h with
      | whole h _ _ => rw [Nat.zero_add]; exact h.length_pos (List.cons_ne_nil c rest)
      | trimmed h _ _ _ => rw [Nat.zero_add]; exact h.length_pos (List.cons_ne_nil c rest)

end QStore.Csv
