import QStore.Csv.NullCell
import QStore.Csv.Slots
import QStore.Csv.Chunks
import Mathlib.Data.List.DropRight

/-!
# QStore.Csv.WholeText

Which cells of a string column are stored whole.

`chk_data` keeps the width of a column to `max_width`, and `get_cell` a cell to `max_width - 1`
bytes; that a cell fits the width of its own column is not tested. `asc_to_bin` copies `width`
bytes of the buffer, with the terminating zero if there is room for it.

```
width 4    a b \0 \0     the cell and a zero
           a b c d       the cell, or the first bytes of a longer one
```
-/

namespace QStore.Csv

/-- The text without the spaces at its ends. -/
def strip (text : Bytes) : Bytes := (text.rdropWhile isSpace).dropWhile isSpace

/-- The cell as its column is to hold it. -/
def wholeCell (isTrim : Bool) (text : Bytes) : Bytes := if isTrim then strip text else text

/-- The bytes at a cell, and its text. `\N`, with the byte that ends the cell, is null and has
none. -/
inductive TextAt (term : UInt8) (isTrim : Bool) (bufsz : Nat) : Bytes → Bytes → Prop
  | null {rest : Bytes} : TextAt term isTrim bufsz (bslash :: 78 :: term :: rest) []
  | quoted {rest text : Bytes} {n : Nat}
      (h : Ends ⟨dquote, true, term, isTrim, bufsz⟩ rest text n) :
      TextAt term isTrim bufsz (dquote :: rest) text
  | raw {c : UInt8} {rest text : Bytes} {n : Nat} (hq : c ≠ dquote)
      (hnull : (c :: rest).take 3 ≠ [bslash, 78, term])
      (h : Ends ⟨term, false, term, isTrim, bufsz⟩ (c :: rest) text n) :
      TextAt term isTrim bufsz (c :: rest) text

/-- A store that leaves `cell` and a zero in the slot of row `i`, and changes no other byte. -/
structure StoresText (w i : Nat) (cell : Bytes) (d : Nat × Datum) : Prop where
  short : cell.length < w
  holds : ∀ k old, k ≤ cell.length → overByte (i * w + k) old d = (cell ++ [0])[k]?
  frame : ∀ p old, p < i * w ∨ i * w + w ≤ p → overByte p old d = old

/-- The states at which a call from `fileOffset` asks for a cell. -/
inductive ComesTo (a : LoadArgs) (X : Bytes) (sep : UInt8) (fileOffset : Nat) : LoadState → Prop
  | start (hnC : a.nC ≠ 0) (hchk : chkData a.cols a.maxWidth = true)
      (hlt : fileOffset < X.length) : ComesTo a X sep fileOffset (startState a fileOffset)
  | turn {s t : LoadState} (h : ComesTo a X sep fileOffset s)
      (ht : loadStep a X sep fileOffset s = some (.more t)) : ComesTo a X sep fileOffset t

/-- The state stands at a cell of the body, in the loaded string column `col`. -/
structure AtString (a : LoadArgs) (fileOffset : Nat) (s : LoadState) (col : Column) : Prop where
  column : a.cols[s.colCtr]? = some col
  load : col.isLoad = true
  string : col.qtype = .SC
  body : (s.isHdr && fileOffset == 0) = false

/-- The turn from `s` to `t` stores the cell at `s`, whole, in the row's own slot. -/
def StoresCell (a : LoadArgs) (X : Bytes) (sep : UInt8) (col : Column) (s t : LoadState) : Prop :=
  ∃ text d, TextAt (cellEnd sep (decide (s.colCtr = a.nC - 1))) col.isTrim (a.maxWidth - 1)
      (X.drop s.xidx) text ∧ 0 ∉ text ∧
    t.data = s.data ++ [(s.colCtr, d)] ∧
    StoresText col.width s.rowCtr (wholeCell col.isTrim text) d

/-- The turn fails the call, or stores its cell whole. -/
def TurnWhole (a : LoadArgs) (X : Bytes) (sep : UInt8) (fileOffset : Nat) (s : LoadState) : Prop :=
  ∀ col, AtString a fileOffset s col → ∃ st, loadStep a X sep fileOffset s = some st ∧
    ∀ t, st = .more t ∨ st = .stop t → StoresCell a X sep col s t

/-- No turn of a call stores a string that is not whole. -/
def StringsWhole (a : LoadArgs) (fileOffset : Nat) : Prop :=
  ∀ X sep, a.file = some X → getFldSep a.strFldSep = some sep →
    ∀ s, ComesTo a X sep fileOffset s → TurnWhole a X sep fileOffset s

/-- The cell at the bytes `l` has room in its slot and comes through the buffer: it is short, has
no zero in it and does not begin with a backslash unless it is blank, and is shorter than the
buffer if it is to be trimmed; and the place of the slot does not wrap round. -/
structure FitsSlot (a : LoadArgs) (col : Column) (term : UInt8) (l : Bytes) (i : Nat)
    (text : Bytes) : Prop where
  reads : TextAt term col.isTrim (a.maxWidth - 1) l text
  noNul : 0 ∉ text
  short : (wholeCell col.isTrim text).length < col.width
  place : i * col.width < 2 ^ 32
  read : wholeCell col.isTrim text ≠ [] → l.head? ≠ some bslash ∧
    (col.isTrim = true → text.length < a.maxWidth - 1)

/-- A newline fails the call, what is left in the buffer is refused, or the cell fits. -/
def TurnFits (a : LoadArgs) (X : Bytes) (sep : UInt8) (fileOffset : Nat) (s : LoadState) : Prop :=
  ∀ col o, AtString a fileOffset s col →
    Reads (cellEnd sep (decide (s.colCtr = a.nC - 1))) col.isTrim (a.maxWidth - 1)
      (X.drop s.xidx) o →
    match o with
    | .flagged _ => True
    | .past => False
    | .done _ buf | .silent buf => takesCell a col buf = false ∨ ∃ text,
        FitsSlot a col (cellEnd sep (decide (s.colCtr = a.nC - 1))) (X.drop s.xidx) s.rowCtr text

variable {a : LoadArgs} {X l text buf cell : Bytes} {sep term : UInt8} {fileOffset w i k n : Nat}
  {s t : LoadState} {col : Column} {m : CellMode} {isTrim : Bool} {bufsz : Nat}

/-! ## trimming -/

theorem mem_of_mem_strip {c : UInt8} (h : c ∈ strip text) : c ∈ text :=
  (List.rdropWhile_prefix isSpace text).subset ((List.dropWhile_suffix isSpace).subset h)

theorem mem_of_mem_wholeCell {c : UInt8} (h : c ∈ wholeCell isTrim text) : c ∈ text := by
  rw [wholeCell] at h
  split at h
  · exact mem_of_mem_strip h
  · exact h

theorem cStr_eq_self (h0 : (0 : UInt8) ∉ text) : cStr text = text := by
  rw [cStr, List.takeWhile_eq_self_iff]
  intro c hc
  simp only [bne_iff_ne, ne_eq]
  rintro rfl
  exact h0 hc

/-- A text that begins and ends with no space is stripped already. -/
theorem strip_eq_self {c : UInt8} {rest : Bytes} (hfirst : isSpace c = false)
    (hlast : isSpace ((c :: rest).getLast?.getD c) = false) : strip (c :: rest) = c :: rest := by
  have hr : (c :: rest).rdropWhile isSpace = c :: rest := by
    rw [List.rdropWhile_eq_self_iff]
    intro hne
    rw [List.getLast?_eq_some_getLast hne, Option.getD_some] at hlast
    simp [hlast]
  rw [strip, hr, List.dropWhile_cons_of_neg (by simp [hfirst])]

/-- The bytes from the first that is no space to the last. -/
theorem strip_eq_drop (text : Bytes) :
    strip text = (text.take (text.length - text.reverse.findIdx fun c => !isSpace c)).drop
      (text.findIdx fun c => !isSpace c) := by
  have hr : text.rdropWhile isSpace =
      text.take (text.length - text.reverse.findIdx fun c => !isSpace c) := by
    rw [List.rdropWhile, List.dropWhile_eq_drop_findIdx_not, List.drop_reverse, List.reverse_reverse]
  obtain ⟨r, hrdef⟩ : ∃ r, r = text.rdropWhile isSpace := ⟨_, rfl⟩
  rw [strip, ← hr, ← hrdef, List.dropWhile_eq_drop_findIdx_not]
  by_cases hne : r = []
  · rw [hne, List.drop_nil, List.drop_nil]
  · -- a byte that is no space is left, so the first one is
    have hlt : r.findIdx (fun c => !isSpace c) < r.length := by
      refine List.findIdx_lt_length_of_exists ⟨r.getLast hne, List.getLast_mem hne, ?_⟩
      subst hrdef
      simpa using List.rdropWhile_last_not isSpace text hne
    obtain ⟨tail, htail⟩ := List.rdropWhile_prefix isSpace text
    have hfind : text.findIdx (fun c => !isSpace c) = r.findIdx (fun c => !isSpace c) := by
      rw [← htail, ← hrdef, List.findIdx_append, if_pos hlt]
    rw [hfind]

theorem findIdx_noNul (h0 : (0 : UInt8) ∉ l) :
    (l.findIdx fun c => !(c == 0 || isSpace c)) = l.findIdx fun c => !isSpace c := by
  induction l with
  | nil => rfl
  | cons c l ih =>
      rw [List.mem_cons, not_or] at h0
      rw [List.findIdx_cons, List.findIdx_cons, ih h0.2, beq_false_of_ne (Ne.symm h0.1),
        Bool.false_or]

/-- `trim` removes the spaces of a text that is shorter than the buffer, and nothing else. -/
theorem trim_eq_strip (h0 : (0 : UInt8) ∉ text) (hlt : text.length < n) (hn : 1 < n) :
    trim n text = some (strip text) := by
  rw [trim, if_neg (by omega), if_neg (by omega), cStr_eq_self h0]
  cases text with
  | nil => rfl
  | cons c rest =>
      simp only
      split
      · next hends =>
        simp only [Bool.and_eq_true, Bool.not_eq_true'] at hends
        rw [strip_eq_self hends.1 hends.2]
      · rw [findIdx_noNul (by rwa [List.mem_reverse]), strip_eq_drop]

/-- A text that fills the buffer is not trimmed. -/
theorem trim_full (h0 : (0 : UInt8) ∉ text) (hlen : text.length = n) : trim n text = none := by
  rw [trim]
  split
  · rfl
  · next hn =>
    rw [if_pos]
    refine ⟨by omega, fun hlast => h0 (List.mem_of_getLast? hlast)⟩

/-! ## what is left of a cell in the buffer -/

/-- A text that has no room in the buffer. -/
theorem Body.stuck {src : Bytes} (h : Body m src text) {room : Nat} (hlt : room < text.length)
    (tail : Bytes) : ∃ text', Stuck m room (src ++ tail) text' := by
  induction h generalizing room with
  | nil => exact absurd hlt (Nat.not_lt_zero _)
  | @plain c src text hlast hb hnl _ ih =>
      cases room with
      | zero => exact ⟨[], .full_here hlast fun h => absurd h hb⟩
      | succ room =>
          obtain ⟨text', h⟩ := ih (Nat.lt_of_succ_lt_succ hlt)
          exact ⟨_, h.plain hlast hb hnl⟩
  | @escaped d src text hlast _ ih =>
      cases room with
      | zero => exact ⟨[], .full_here hlast fun _ => List.cons_ne_nil d (src ++ tail)⟩
      | succ room =>
          obtain ⟨text', h⟩ := ih (Nat.lt_of_succ_lt_succ hlt)
          exact ⟨_, h.escaped hlast⟩

theorem Ends.stuck (h : Ends m l text n) {room : Nat} (hlt : room < text.length) :
    ∃ text', Stuck m room l text' := by
  cases h with
  | @eof src _ h =>
      obtain ⟨text', hs⟩ := h.stuck hlt []
      exact ⟨text', by rwa [List.append_nil] at hs⟩
  | raw _ h => exact h.stuck hlt _
  | quoted _ h => exact h.stuck hlt _

/-- The buffer of a cell to be trimmed is left blank if the cell fills it. -/
def leftOf (isTrim : Bool) (bufsz : Nat) (text : Bytes) : Bytes :=
  if isTrim = true ∧ bufsz ≤ text.length then [] else wholeCell isTrim text

/-- A cell that ends, in a column with room for it, leaves `leftOf` in the buffer. -/
theorem scans_text (h : Ends m l text n) (h0 : (0 : UInt8) ∉ text)
    (hroom : m.isTrim = false → text.length ≤ m.bufsz) (k : Nat) :
    ∃ o, Scans m k l o ∧ ∃ x, o.result 0 = some ⟨x, leftOf m.isTrim m.bufsz text, false⟩ := by
  cases ht : m.isTrim with
  | false => exact ⟨_, .whole h (hroom ht) ht, _, rfl⟩
  | true =>
      by_cases hfull : m.bufsz ≤ text.length
      · rw [leftOf, if_pos ⟨rfl, hfull⟩]
        rcases Nat.lt_or_eq_of_le hfull with hlt | heq
        · obtain ⟨text', hs⟩ := h.stuck hlt
          exact ⟨_, .stuck hs, 0, by rw [ht]; rfl⟩
        · exact ⟨_, .untrimmed h (Nat.le_of_eq heq.symm) ht (trim_full h0 heq.symm), 0, rfl⟩
      · rw [leftOf, if_neg fun h => hfull h.2, wholeCell, if_pos rfl]
        by_cases h1 : 1 < m.bufsz
        · exact ⟨_, .trimmed h (by omega) ht (trim_eq_strip h0 (by omega) h1), _, rfl⟩
        · -- `trim` refuses a buffer of one byte, and only an empty text is shorter
          have hnil : text = [] := List.eq_nil_of_length_eq_zero (by omega)
          subst hnil
          refine ⟨_, .untrimmed h (Nat.zero_le _) ht ?_, 0, rfl⟩
          rw [trim, if_pos (Nat.not_lt.mp h1)]

/-- What a call leaves in the buffer at a cell with a text: nothing, at a backslash. -/
theorem reads_text (h : TextAt term isTrim bufsz l text) (h0 : (0 : UInt8) ∉ text)
    (hroom : isTrim = false → text.length ≤ bufsz) :
    ∃ o, Reads term isTrim bufsz l o ∧ ∀ r, o.result 0 = some r →
      r.buf = (if l.head? = some bslash then [] else leftOf isTrim bufsz text) ∧
        r.isErr = false := by
  by_cases hbuf : bufsz = 0
  · refine ⟨_, .noBuffer hbuf, fun r hr => ?_⟩
    obtain rfl := Option.some.inj hr
    refine ⟨?_, rfl⟩
    split
    · rfl
    · rw [leftOf]
      split
      · rfl
      · next hno =>
        have ht : isTrim = false := by
          cases ht : isTrim with
          | false => rfl
          | true => exact absurd ⟨ht, by omega⟩ hno
        have hnil : text = [] := List.eq_nil_of_length_eq_zero (by have := hroom ht; omega)
        rw [hnil, wholeCell, ht]
        rfl
  cases h with
  | null =>
      refine ⟨_, .skipped hbuf (by simp), fun r hr => ?_⟩
      obtain rfl := Option.some.inj hr
      exact ⟨rfl, rfl⟩
  | @quoted rest _ n h =>
      obtain ⟨o, ho, x, hx⟩ := scans_text h h0 hroom 1
      refine ⟨o, .quoted hbuf ho, fun r hr => ?_⟩
      obtain rfl := Option.some.inj (hx.symm.trans hr)
      rw [List.head?_cons, if_neg (by decide)]
      exact ⟨rfl, rfl⟩
  | @raw c rest _ n hq hnull h =>
      by_cases hb : c = bslash
      · subst hb
        by_cases hover : rest = [] ∨ rest = [78]
        · exact ⟨_, .overrun hbuf hover, fun r hr => absurd hr (by simp [Reading.result])⟩
        · refine ⟨_, .skipped hbuf hover, fun r hr => ?_⟩
          obtain rfl := Option.some.inj hr
          exact ⟨rfl, rfl⟩
      · obtain ⟨o, ho, x, hx⟩ := scans_text h h0 hroom 0
        refine ⟨o, .raw hbuf hb hq ho, fun r hr => ?_⟩
        obtain rfl := Option.some.inj (hx.symm.trans hr)
        rw [List.head?_cons, if_neg (by simpa using hb)]
        exact ⟨rfl, rfl⟩

theorem TextAt.ne_nil (h : TextAt term isTrim bufsz l text) : l ≠ [] := by
  cases h <;> exact List.cons_ne_nil _ _

/-- The readings of one cell have one result. -/
theorem reads_unique {o o' : Reading} (hl : l ≠ []) (h : Reads term isTrim bufsz l o)
    (h' : Reads term isTrim bufsz l o') : o.result 0 = o'.result 0 := by
  have hne : 0 ≠ l.length := Nat.ne_of_lt (List.length_pos_iff.mpr hl)
  have hget : ∀ o, Reads term isTrim bufsz l o →
      getCell l 0 term false isTrim bufsz = o.result 0 := fun o ho =>
    getCell_of_reads hl hne (by rw [List.drop_zero]; exact ho)
  rw [← hget o h, ← hget o' h']

/-! ## what is stored -/

theorem length_padded : (padded w buf).length = w := by
  simp [padded]

/-- A store of a string, by the bytes that are stored. -/
theorem storesText_iff : StoresText w i cell (i, .bytes (i * w % 2 ^ 32) (padded w buf)) ↔
    cell.length < w ∧ i * w < 2 ^ 32 ∧
      ∀ k, k ≤ cell.length → (padded w buf)[k]? = (cell ++ [0])[k]? := by
  constructor
  · rintro ⟨hshort, hholds, hframe⟩
    simp only [overByte, length_padded] at hholds hframe
    have hplace : i * w < 2 ^ 32 := by
      by_contra hout
      -- the store would go to a slot in front of the row's own
      have hmod : i * w % 2 ^ 32 < 2 ^ 32 := Nat.mod_lt _ (by decide)
      have hbyte := hframe (i * w % 2 ^ 32) none (.inl (by omega))
      rw [if_pos ⟨Nat.le_refl _, by omega⟩, Nat.sub_self, List.getElem?_eq_none_iff,
        length_padded] at hbyte
      omega
    refine ⟨hshort, hplace, fun k hk => ?_⟩
    have hbyte := hholds k none hk
    rwa [Nat.mod_eq_of_lt hplace, if_pos ⟨by omega, by omega⟩, Nat.add_sub_cancel_left] at hbyte
  · rintro ⟨hshort, hplace, hbytes⟩
    refine ⟨hshort, fun k old hk => ?_, fun p old hp => ?_⟩
    · simp only [overByte, length_padded]
      rw [Nat.mod_eq_of_lt hplace, if_pos ⟨by omega, by omega⟩, Nat.add_sub_cancel_left,
        hbytes k hk]
    · simp only [overByte, length_padded]
      rw [Nat.mod_eq_of_lt hplace, if_neg (by omega)]

/-- Zeros hold no text. -/
theorem blank_holds_iff (h0 : (0 : UInt8) ∉ cell) (hshort : cell.length < w) :
    (∀ k, k ≤ cell.length → (padded w [])[k]? = (cell ++ [0])[k]?) ↔ cell = [] := by
  constructor
  · intro h
    cases cell with
    | nil => rfl
    | cons c cell =>
        have hbyte := h 0 (Nat.zero_le _)
        rw [padded_nil, List.getElem?_replicate, if_pos (by omega), List.cons_append,
          List.getElem?_cons_zero, Option.some.injEq] at hbyte
        exact absurd (List.mem_cons.mpr (.inl hbyte)) h0
  · rintro rfl k hk
    exact getElem?_padded hshort hk

/-- **One cell**: what is left of it in the buffer is the whole of it. -/
theorem left_holds_iff (h0 : (0 : UInt8) ∉ text) (hshort : (wholeCell isTrim text).length < w) :
    (∀ k, k ≤ (wholeCell isTrim text).length →
      (padded w (if l.head? = some bslash then [] else leftOf isTrim bufsz text))[k]? =
        (wholeCell isTrim text ++ [0])[k]?) ↔
    (wholeCell isTrim text ≠ [] → l.head? ≠ some bslash ∧ (isTrim = true → text.length < bufsz)) := by
  have hblank := blank_holds_iff (fun h => h0 (mem_of_mem_wholeCell h)) hshort
  by_cases hb : l.head? = some bslash
  · rw [if_pos hb, hblank]
    exact ⟨fun h hne => absurd h hne, fun h => by_contra fun hne => (h hne).1 hb⟩
  · rw [if_neg hb, leftOf]
    split
    · next hfull =>
      rw [hblank]
      refine ⟨fun h hne => absurd h hne, fun h => by_contra fun hne => ?_⟩
      have := (h hne).2 hfull.1
      omega
    · next hroom =>
      refine iff_of_true (fun k hk => getElem?_padded hshort hk) fun _ => ⟨hb, fun ht => ?_⟩
      exact Nat.not_le.mp fun hle => hroom ⟨ht, hle⟩

/-! ## one turn -/

theorem endTurn_cases (nC chunkSize : Nat) (atEnd : Bool) (s : LoadState) :
    endTurn nC chunkSize atEnd s = .more (advance nC s) ∨
      endTurn nC chunkSize atEnd s = .stop (advance nC s) := by
  rw [endTurn]
  split
  · exact .inr rfl
  · split
    · exact .inr rfl
    · exact .inl rfl

theorem advance_data (nC : Nat) (s : LoadState) : (advance nC s).data = s.data := by
  rw [advance]
  split <;> rfl

/-- A turn in a string column fails, or stores what is left in the buffer. -/
theorem loadStep_string {r : CellResult} (hs : AtString a fileOffset s col)
    (hget : getCell X s.xidx sep (decide (s.colCtr = a.nC - 1)) col.isTrim (a.maxWidth - 1) =
      some r) (herr : r.isErr = false) :
    (takesCell a col r.buf = false → loadStep a X sep fileOffset s = some .error) ∧
      (takesCell a col r.buf = true → ∃ t, t.data = s.data ++
          [(s.colCtr, s.rowCtr, .bytes (s.rowCtr * col.width % 2 ^ 32) (padded col.width r.buf))] ∧
        (loadStep a X sep fileOffset s = some (.more t) ∨
          loadStep a X sep fileOffset s = some (.stop t))) := by
  have hstep : loadStep a X sep fileOffset s =
      some (bodyTurn a X.length col r.buf (setXidx s r.xidx)) := by
    simp only [loadStep, hs.column, Option.bind_some, hget, Option.map_some, herr,
      Bool.false_eq_true, if_false, hs.body]
  rw [hstep]
  simp only [bodyTurn, hs.load, Bool.not_true, Bool.false_eq_true, if_false, storeCell_eq hs.load]
  constructor
  · intro h
    rw [if_neg (by simp [h])]
  · intro h
    rw [if_pos h]
    refine ⟨_, ?_, (endTurn_cases _ _ _ _).imp (congrArg some) (congrArg some)⟩
    have hdatum : datumOf a col r.buf s.rowCtr =
        .bytes (s.rowCtr * col.width % 2 ^ 32) (padded col.width r.buf) := datumOf_string hs.string
    rw [advance_data, ← hdatum]
    cases col.hasNulls <;> rfl

/-- What a turn leaves in the buffer. -/
theorem buf_eq_left {o : Reading} (hwidth : col.width ≤ a.maxWidth)
    (ho : Reads term col.isTrim (a.maxWidth - 1) l o) {x : Nat}
    (hr : o.result 0 = some ⟨x, buf, false⟩)
    (ht : TextAt term col.isTrim (a.maxWidth - 1) l text) (h0 : (0 : UInt8) ∉ text)
    (hshort : (wholeCell col.isTrim text).length < col.width) :
    buf = if l.head? = some bslash then [] else leftOf col.isTrim (a.maxWidth - 1) text := by
  have hroom : col.isTrim = false → text.length ≤ a.maxWidth - 1 := by
    intro htrim
    rw [wholeCell, htrim, if_neg Bool.false_ne_true] at hshort
    omega
  obtain ⟨o', ho', hleft⟩ := reads_text ht h0 hroom
  exact (hleft _ ((reads_unique ht.ne_nil ho' ho).trans hr)).1

theorem storesCell_iff {o : Reading} (hwidth : col.width ≤ a.maxWidth)
    (ho : Reads (cellEnd sep (decide (s.colCtr = a.nC - 1))) col.isTrim (a.maxWidth - 1)
      (X.drop s.xidx) o) {x : Nat} (hr : o.result 0 = some ⟨x, buf, false⟩)
    (hdata : t.data = s.data ++
      [(s.colCtr, s.rowCtr, .bytes (s.rowCtr * col.width % 2 ^ 32) (padded col.width buf))]) :
    StoresCell a X sep col s t ↔ ∃ text,
      FitsSlot a col (cellEnd sep (decide (s.colCtr = a.nC - 1))) (X.drop s.xidx) s.rowCtr
        text := by
  constructor
  · rintro ⟨text, d, ht, h0, hdata', hstores⟩
    rw [hdata, List.append_cancel_left_eq, List.singleton_inj, Prod.mk.injEq] at hdata'
    rw [← hdata'.2] at hstores
    obtain ⟨hshort, hplace, hbytes⟩ := storesText_iff.mp hstores
    rw [buf_eq_left hwidth ho hr ht h0 hshort] at hbytes
    exact ⟨text, ht, h0, hshort, hplace, (left_holds_iff h0 hshort).mp hbytes⟩
  · rintro ⟨text, ht, h0, hshort, hplace, hread⟩
    refine ⟨text, _, ht, h0, hdata, storesText_iff.mpr ⟨hshort, hplace, ?_⟩⟩
    rw [buf_eq_left hwidth ho hr ht h0 hshort]
    exact (left_holds_iff h0 hshort).mpr hread

/-- A turn that reads a cell fails or stores the cell whole exactly where the cell is refused or
fits. -/
theorem readTurn_iff {o : Reading} {x : Nat} (hwidth : col.width ≤ a.maxWidth)
    (hs : AtString a fileOffset s col)
    (ho : Reads (cellEnd sep (decide (s.colCtr = a.nC - 1))) col.isTrim (a.maxWidth - 1)
      (X.drop s.xidx) o) (hr0 : o.result 0 = some ⟨x, buf, false⟩) {y : Nat}
    (hget : getCell X s.xidx sep (decide (s.colCtr = a.nC - 1)) col.isTrim (a.maxWidth - 1) =
      some ⟨y, buf, false⟩) :
    (∃ st, loadStep a X sep fileOffset s = some st ∧
      ∀ t, st = .more t ∨ st = .stop t → StoresCell a X sep col s t) ↔
    (takesCell a col buf = false ∨ ∃ text,
      FitsSlot a col (cellEnd sep (decide (s.colCtr = a.nC - 1))) (X.drop s.xidx) s.rowCtr
        text) := by
  obtain ⟨hrefused, htaken⟩ := loadStep_string hs hget rfl
  cases htakes : takesCell a col buf with
  | false =>
      refine iff_of_true ⟨_, hrefused htakes, fun t ht => ?_⟩ (.inl rfl)
      rcases ht with ht | ht <;> contradiction
  | true =>
      obtain ⟨t, hdata, hst⟩ := htaken htakes
      rw [← storesCell_iff hwidth ho hr0 hdata]
      simp only [Bool.true_eq_false, false_or]
      constructor
      · rintro ⟨st, hstep, hwhole⟩
        refine hwhole t (hst.imp (fun h => ?_) fun h => ?_) <;>
          exact Option.some.inj (hstep.symm.trans h)
      · intro hwhole
        rcases hst with hst | hst <;> refine ⟨_, hst, fun u hu => ?_⟩ <;>
          rcases hu with hu | hu <;> first | contradiction | skip
        · rwa [← Step.more.inj hu]
        · rwa [← Step.stop.inj hu]

/-- **A turn stores its cell whole exactly where it fits.** -/
theorem turnWhole_iff (hne : s.xidx ≠ X.length) (hX : X ≠ [])
    (hwidth : ∀ col ∈ a.cols, col.width ≤ a.maxWidth) :
    TurnWhole a X sep fileOffset s ↔ TurnFits a X sep fileOffset s := by
  have hget : ∀ (col : Column) (o : Reading),
      Reads (cellEnd sep (decide (s.colCtr = a.nC - 1))) col.isTrim (a.maxWidth - 1)
        (X.drop s.xidx) o →
      getCell X s.xidx sep (decide (s.colCtr = a.nC - 1)) col.isTrim (a.maxWidth - 1) =
        o.result s.xidx := fun col o ho => getCell_of_reads hX hne ho
  have hcol : ∀ col, AtString a fileOffset s col → col.width ≤ a.maxWidth := fun col hs =>
    hwidth col (List.mem_of_getElem? hs.column)
  constructor
  · intro h col o hs ho
    have hturn := h col hs
    have hr := hget col o ho
    cases o with
    | flagged buf => trivial
    | past =>
        obtain ⟨st, hst, -⟩ := hturn
        simp only [loadStep, hs.column, Option.bind_some, hr, Reading.result, Option.map_none]
          at hst
        contradiction
    | done n buf => exact (readTurn_iff (hcol col hs) hs ho rfl hr).mp hturn
    | silent buf => exact (readTurn_iff (hcol col hs) hs ho rfl hr).mp hturn
  · intro h col hs
    obtain ⟨o, ho⟩ := reads_total (cellEnd sep (decide (s.colCtr = a.nC - 1))) col.isTrim
      (a.maxWidth - 1) (X.drop s.xidx)
    have hfits := h col o hs ho
    have hr := hget col o ho
    cases o with
    | flagged buf =>
        refine ⟨.error, ?_, fun t ht => ?_⟩
        · simp only [loadStep, hs.column, Option.bind_some, hr, Reading.result, Option.map_some,
            if_true]
        · rcases ht with ht | ht <;> contradiction
    | past => exact absurd hfits id
    | done n buf => exact (readTurn_iff (hcol col hs) hs ho rfl hr).mpr hfits
    | silent buf => exact (readTurn_iff (hcol col hs) hs ho rfl hr).mpr hfits

/-! ## the turns of a call -/

theorem endTurn_more {nC chunkSize : Nat} {atEnd : Bool} {u : LoadState}
    (h : endTurn nC chunkSize atEnd u = .more t) : atEnd = false ∧ t = advance nC u := by
  rw [endTurn] at h
  split at h
  · contradiction
  · split at h
    · contradiction
    · next hend => exact ⟨by simpa using hend, (Step.more.inj h).symm⟩

theorem advance_xidx (nC : Nat) (s : LoadState) : (advance nC s).xidx = s.xidx := by
  rw [advance]
  split <;> rfl

/-- A turn that does not end the loop leaves an index that is not the end of the file. -/
theorem loadStep_more_xidx (h : loadStep a X sep fileOffset s = some (.more t)) :
    t.xidx ≠ X.length := by
  simp only [loadStep, Option.bind_eq_some_iff, Option.map_eq_some_iff] at h
  obtain ⟨col, -, r, -, h⟩ := h
  split at h
  · contradiction
  · split at h
    · -- the header
      rw [headerTurn] at h
      split at h
      · contradiction
      · simp only at h
        split at h
        · contradiction
        · next hgo =>
          rw [← Step.more.inj h]
          split <;> exact fun hx => hgo (Nat.le_of_eq hx.symm)
    · rw [bodyTurn] at h
      cases hl : col.isLoad with
      | false =>
          rw [if_pos (by rw [hl]; rfl)] at h
          obtain ⟨hend, rfl⟩ := endTurn_more h
          rw [advance_xidx]
          simpa using hend
      | true =>
          simp only [hl, Bool.not_true, Bool.false_eq_true, if_false, storeCell_eq hl] at h
          split at h
          · contradiction
          · next u hu =>
            obtain ⟨hend, rfl⟩ := endTurn_more h
            rw [Option.ite_none_right_eq_some] at hu
            rw [advance_xidx, ← Option.some.inj hu.2]
            have hlt : r.xidx < X.length := by simpa [setXidx] using hend
            cases col.hasNulls <;> exact Nat.ne_of_lt hlt

theorem chkData_width {cols : List Column} {maxWidth : Nat} (h : chkData cols maxWidth = true) :
    ∀ col ∈ cols, col.width ≤ maxWidth := by
  intro col hcol
  simp only [chkData, Bool.and_eq_true, List.all_eq_true] at h
  simpa using (h.2 col hcol).2

theorem ComesTo.atCell (h : ComesTo a X sep fileOffset s) :
    s.xidx ≠ X.length ∧ X ≠ [] ∧ ∀ col ∈ a.cols, col.width ≤ a.maxWidth := by
  induction h with
  | start _ hchk hlt =>
      refine ⟨Nat.ne_of_lt hlt, ?_, chkData_width hchk⟩
      rintro rfl
      exact Nat.not_lt_zero _ hlt
  | turn _ ht ih => exact ⟨loadStep_more_xidx ht, ih.2⟩

/-- **When no string is stored that is not whole**: at each turn in a string column the cell is
refused, or it fits. -/
theorem stringsWhole_iff (a : LoadArgs) (fileOffset : Nat) :
    StringsWhole a fileOffset ↔ ∀ X sep, a.file = some X → getFldSep a.strFldSep = some sep →
      ∀ s, ComesTo a X sep fileOffset s → TurnFits a X sep fileOffset s := by
  constructor
  · intro h X sep hfile hsep s hs
    obtain ⟨hne, hX, hwidth⟩ := hs.atCell
    exact (turnWhole_iff hne hX hwidth).mp (h X sep hfile hsep s hs)
  · intro h X sep hfile hsep s hs
    obtain ⟨hne, hX, hwidth⟩ := hs.atCell
    exact (turnWhole_iff hne hX hwidth).mpr (h X sep hfile hsep s hs)

/-- The file `abcd⏎`, loaded into a string column of width 4. -/
def fourBytes : LoadArgs where
  file := some [97, 98, 99, 100, 10]
  cols := [⟨.SC, 4, false, true, false, true, false⟩]
  strFldSep := "comma".toUTF8.data.toList
  chunkSize := 1
  maxWidth := 2048
  nnQtype := .BL
  isHdr := false
  txt := fun _ _ => none

/-- The four bytes are stored without a zero behind them. -/
theorem stringsWhole_fails : ¬ StringsWhole fourBytes 0 := by
  intro h
  have hsep : getFldSep fourBytes.strFldSep = some 44 := by
    change getFldSep ("comma".toUTF8.data.toList) = some 44
    decide +kernel
  have hstart : ComesTo fourBytes [97, 98, 99, 100, 10] 44 0 (startState fourBytes 0) :=
    .start (by decide) (by decide) (by decide)
  obtain ⟨st, hst, hwhole⟩ := h _ _ rfl hsep _ hstart _ ⟨rfl, rfl, rfl, rfl⟩
  obtain ⟨t, ht, hdata⟩ : ∃ t,
      loadStep fourBytes [97, 98, 99, 100, 10] 44 0 (startState fourBytes 0) = some (.stop t) ∧
        t.data = [(0, 0, .bytes 0 [97, 98, 99, 100])] := ⟨_, rfl, rfl⟩
  obtain rfl : st = .stop t := Option.some.inj (hst.symm.trans ht)
  obtain ⟨text, d, -, -, hd, hshort, hholds, -⟩ := hwhole t (.inr rfl)
  have hd' : (0, d) = (0, 0, Datum.bytes 0 [97, 98, 99, 100]) :=
    (List.singleton_inj.mp (hdata.symm.trans hd)).symm
  rw [Prod.mk.injEq] at hd'
  have hzero : ∀ k < 4, overByte (0 * 4 + k) none (0, Datum.bytes 0 [97, 98, 99, 100]) ≠ some 0 := by
    decide
  have hbyte := hholds _ none (Nat.le_refl _)
  rw [hd'.2, List.getElem?_concat_length] at hbyte
  exact hzero _ hshort hbyte

end QStore.Csv
