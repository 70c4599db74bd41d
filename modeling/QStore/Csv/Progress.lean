import QStore.Csv.CellText
import QStore.Csv.Chunks
import QStore.Lib.Trace

/-!
# QStore.Csv.Progress

When the calls of `load_csv_seq` go forward in the file.

An error that `get_cell` tells by its return value only is none to the loop: it takes the index 0
and the bytes read so far for a cell, and goes on at the start of the file.
-/

namespace QStore.Csv

/-- The state of the loop after a turn that does not end it. -/
def nextTurn (a : LoadArgs) (X : Bytes) (sep : UInt8) (fileOffset : Nat) (s : LoadState) :
    Option LoadState :=
  match loadStep a X sep fileOffset s with
  | some (.more t) => some t
  | _ => none

/-- The states at which a call from `fileOffset` asks for a cell; a call that is refused, or has
nothing left to read, asks for none. -/
def turnsOf (a : LoadArgs) (X : Bytes) (sep : UInt8) (fileOffset : Nat) : List LoadState :=
  if a.nC = 0 ∨ chkData a.cols a.maxWidth = false ∨ fileOffset ≥ X.length then []
  else
    visits (fun (_ : Unit) => nextTurn a X sep fileOffset)
      (List.replicate (a.nC * (a.chunkSize + 1) + X.length) ()) (startState a fileOffset)

/-- A turn reads nothing past the end of the file. Unless it fails the call, it moves the index
forward. -/
def TurnForward (a : LoadArgs) (X : Bytes) (sep : UInt8) (fileOffset : Nat) (s : LoadState) :
    Prop :=
  ∃ st, loadStep a X sep fileOffset s = some st ∧
    ∀ t, st = .more t ∨ st = .stop t → s.xidx < t.xidx

/-- A call returns an error or leaves an offset behind the one it got, or at the end of the file;
and all of its turns go forward. -/
structure CallForward (a : LoadArgs) (X : Bytes) (sep : UInt8) (fileOffset : Nat) : Prop where
  returns : ∃ r, loadCsvSeq a fileOffset = some r ∧
    (r.status < 0 ∨ fileOffset < r.fileOffset ∨ r.fileOffset = X.length)
  turns : ∀ s ∈ turnsOf a X sep fileOffset, TurnForward a X sep fileOffset s

/-- The offsets of the calls that start at one, each from where the one before left. -/
inductive CallsReach (a : LoadArgs) (fileOffset : Nat) : Nat → Prop
  | start : CallsReach a fileOffset fileOffset
  | call {x : Nat} {r : LoadResult} (h : CallsReach a fileOffset x) (hr : loadCsvSeq a x = some r)
      (h0 : ¬ r.status < 0) : CallsReach a fileOffset r.fileOffset

/-- Calls until one fails or leaves nothing to read. `none`: more than `n`, or one that does not
return. -/
def loadToEnd (a : LoadArgs) (nX : Nat) : Nat → Nat → Option (List LoadResult)
  | 0, _ => none
  | n + 1, fileOffset =>
      (loadCsvSeq a fileOffset).bind fun r =>
        if r.status < 0 ∨ nX ≤ r.fileOffset then some [r]
        else (loadToEnd a nX n r.fileOffset).map (r :: ·)

/-- All calls from `fileOffset` on go forward, and they come to an end. -/
structure AllForward (a : LoadArgs) (X : Bytes) (sep : UInt8) (fileOffset : Nat) : Prop where
  calls : ∀ x, CallsReach a fileOffset x → CallForward a X sep x
  ends : ∃ n, (loadToEnd a X.length n fileOffset).isSome = true

/-- What a cell left in the buffer is refused: it is a cell of the body, and its column does not
take it. -/
def Refuses (a : LoadArgs) (fileOffset : Nat) (s : LoadState) (buf : Bytes) : Prop :=
  if (s.isHdr && fileOffset == 0) = true then s.rowCtr ≠ 0
  else ∀ col, a.cols[s.colCtr]? = some col → takesCell a col buf = false

/-- The bytes at the index of the state are a cell that can be read to its end, one with a newline
in it, or one that leaves in the buffer what its column refuses. -/
def TurnReady (a : LoadArgs) (X : Bytes) (sep : UInt8) (fileOffset : Nat) (s : LoadState) : Prop :=
  ∀ col o, a.cols[s.colCtr]? = some col →
    Reads (if decide (s.colCtr = a.nC - 1) then eoln else sep) col.isTrim (a.maxWidth - 1)
      (X.drop s.xidx) o →
    match o with
    | .done _ _ => True
    | .flagged _ => True
    | .silent buf => Refuses a fileOffset s buf
    | .past => False

variable {a : LoadArgs} {X : Bytes} {sep : UInt8} {fileOffset x : Nat} {s t : LoadState}
  {col : Column} {r : CellResult}

/-! ## one turn -/

/-- What every state of the loop keeps. -/
structure AtCell (a : LoadArgs) (X : Bytes) (s : LoadState) : Prop where
  col : s.colCtr < a.nC
  row : s.rowCtr < a.chunkSize
  notEnd : s.xidx ≠ X.length

/-- The turns that are left at most. -/
def turnsLeft (a : LoadArgs) (fileOffset : Nat) (s : LoadState) : Nat :=
  if (s.isHdr && fileOffset == 0) = true then a.nC * (a.chunkSize + 1) - s.colCtr
  else a.nC * a.chunkSize - (a.nC * s.rowCtr + s.colCtr)

/-- The end of a turn that does not fail: the loop stops, or goes on at a cell with one turn less
to go. -/
def GoesOn (a : LoadArgs) (X : Bytes) (fileOffset : Nat) (s t : LoadState) : Step → Prop
  | .error => False
  | .stop u => u = t
  | .more u => u = t ∧ AtCell a X t ∧ turnsLeft a fileOffset t + 1 = turnsLeft a fileOffset s

theorem turnsLeft_pos (hat : AtCell a X s) : 0 < turnsLeft a fileOffset s := by
  have hcol := hat.col
  have hrow := hat.row
  rw [turnsLeft]
  split
  · rw [Nat.mul_succ]
    omega
  · have hmul := Nat.mul_le_mul_left a.nC (show s.rowCtr + 1 ≤ a.chunkSize from hrow)
    rw [Nat.mul_succ] at hmul
    omega

/-- A turn of the header. -/
theorem headerTurn_goesOn (hat : AtCell a X s) (hh : (s.isHdr && fileOffset == 0) = true)
    (h0 : s.rowCtr = 0) {u : LoadState} (hhdr : u.isHdr = s.isHdr) (hrow : u.rowCtr = s.rowCtr)
    (hcol : u.colCtr = s.colCtr) : ∃ t, t.xidx = u.xidx ∧
      GoesOn a X fileOffset s t (headerTurn X.length (decide (s.colCtr = a.nC - 1)) u) := by
  have hclt := hat.col
  have hrlt := hat.row
  have hleft : turnsLeft a fileOffset s = a.nC * a.chunkSize + a.nC - s.colCtr := by
    rw [turnsLeft, if_pos hh, Nat.mul_succ]
  rw [headerTurn, if_neg (by rw [hrow, h0]; simp)]
  by_cases hlast : s.colCtr = a.nC - 1
  · rw [decide_eq_true hlast, if_pos rfl]
    refine ⟨{ u with colCtr := 0, isHdr := false }, rfl, ?_⟩
    simp only
    split
    · rfl
    · next hgo =>
      refine ⟨rfl, ⟨by simp only; omega, by simp only; omega, by simp only; omega⟩, ?_⟩
      rw [hleft, turnsLeft]
      simp only [Bool.false_and, Bool.false_eq_true, if_false, hrow, h0, Nat.mul_zero]
      omega
  · rw [decide_eq_false hlast, if_neg Bool.false_ne_true]
    refine ⟨{ u with colCtr := u.colCtr + 1 }, rfl, ?_⟩
    simp only
    split
    · rfl
    · next hgo =>
      refine ⟨rfl, ⟨by simp only; omega, by simp only; omega, by simp only; omega⟩, ?_⟩
      rw [hleft, turnsLeft, if_pos (by rw [hhdr]; exact hh), Nat.mul_succ]
      simp only
      omega

/-- The end of a turn of the body. -/
theorem endTurn_goesOn (hat : AtCell a X s) (hh : (s.isHdr && fileOffset == 0) = false)
    {atEnd : Bool} (hend : atEnd = false → t.xidx ≠ X.length) (hhdr : t.isHdr = s.isHdr)
    (hrow : t.rowCtr = s.rowCtr) (hcol : t.colCtr = s.colCtr) :
    GoesOn a X fileOffset s (advance a.nC t) (endTurn a.nC a.chunkSize atEnd t) := by
  have hlt := hat.col
  have hrlt := hat.row
  rw [endTurn]
  split
  · rfl
  · next hfull =>
    split
    · rfl
    · next hgo =>
      have hhdr' : ((advance a.nC t).isHdr && fileOffset == 0) = false := by
        rw [advance_isHdr, hhdr]
        exact hh
      have hx : (advance a.nC t).xidx = t.xidx := by
        rw [advance]
        split <;> rfl
      refine ⟨rfl, ⟨?_, ?_, by rw [hx]; exact hend (by simpa using hgo)⟩, ?_⟩
      · rw [advance]
        split <;> simp only <;> omega
      · rw [advance]
        split <;> simp only <;> omega
      · rw [turnsLeft, turnsLeft, if_neg (by simp [hhdr']), if_neg (by simp [hh])]
        have hmul := Nat.mul_le_mul_left a.nC (show s.rowCtr + 1 ≤ a.chunkSize from hrlt)
        rw [Nat.mul_succ] at hmul
        rw [advance]
        split
        · next hlast =>
          rw [hcol] at hlast
          simp only [hrow]
          have hmul' := Nat.mul_le_mul_left a.nC (show s.rowCtr + 1 + 1 ≤ a.chunkSize by omega)
          rw [Nat.mul_succ, Nat.mul_succ] at hmul'
          rw [Nat.mul_succ]
          omega
        · simp only [hrow, hcol]
          omega

/-- **One turn** whose cell sets no flag: the cell is refused and the call fails, or the turn goes
on from the index `get_cell` returned. -/
theorem loadStep_goesOn (hat : AtCell a X s) (hcol : a.cols[s.colCtr]? = some col)
    (hget : getCell X s.xidx sep (decide (s.colCtr = a.nC - 1)) col.isTrim (a.maxWidth - 1) =
      some r) (herr : r.isErr = false) :
    (Refuses a fileOffset s r.buf → loadStep a X sep fileOffset s = some .error) ∧
      (¬ Refuses a fileOffset s r.buf → ∃ st t, loadStep a X sep fileOffset s = some st ∧
        t.xidx = r.xidx ∧ GoesOn a X fileOffset s t st) := by
  have hstep : loadStep a X sep fileOffset s =
      some (if (s.isHdr && fileOffset == 0) = true then
          headerTurn X.length (decide (s.colCtr = a.nC - 1)) (setXidx s r.xidx)
        else bodyTurn a X.length col r.buf (setXidx s r.xidx)) := by
    simp only [loadStep, hcol, Option.bind_some, hget, Option.map_some, herr, Bool.false_eq_true,
      if_false]
  rw [hstep, Refuses]
  by_cases hh : (s.isHdr && fileOffset == 0) = true
  · simp only [if_pos hh]
    constructor
    · intro h0
      rw [headerTurn, if_pos (show (setXidx s r.xidx).rowCtr ≠ 0 from h0)]
    · intro h0
      obtain ⟨t, ht, hgo⟩ := headerTurn_goesOn hat hh (not_not.mp h0) (u := setXidx s r.xidx) rfl rfl
        rfl
      exact ⟨_, t, rfl, ht, hgo⟩
  · have hh' : (s.isHdr && fileOffset == 0) = false := by simpa using hh
    simp only [if_neg hh, hcol, Option.some.injEq, forall_eq']
    have hx : ∀ u : LoadState, (advance a.nC u).xidx = u.xidx := by
      intro u
      rw [advance]
      split <;> rfl
    cases hl : col.isLoad with
    | false =>
        have htakes : takesCell a col r.buf = true := by rw [takesCell, hl]; rfl
        refine ⟨fun h => by rw [htakes] at h; contradiction, fun _ => ?_⟩
        rw [bodyTurn, if_pos (by rw [hl]; rfl)]
        obtain ⟨u, hu⟩ : ∃ u, u = { setXidx s r.xidx with cells := (setXidx s r.xidx).cells ++ [r.buf] } :=
          ⟨_, rfl⟩
        refine ⟨_, advance a.nC u, by rw [← hu], by rw [hx, hu]; rfl, ?_⟩
        refine endTurn_goesOn hat hh' ?_ (by rw [hu]; rfl) (by rw [hu]; rfl) (by rw [hu]; rfl)
        intro hend
        rw [hu]
        simpa [setXidx] using hend
    | true =>
        simp only [bodyTurn, hl, Bool.not_true, Bool.false_eq_true, if_false, storeCell_eq hl]
        constructor
        · intro h
          rw [if_neg (by simp [h])]
        · intro h
          rw [if_pos (by simpa using h)]
          refine ⟨_, _, rfl, ?_, endTurn_goesOn hat hh' ?_ ?_ ?_ ?_⟩
          · rw [hx]
            cases col.hasNulls <;> rfl
          · intro hend
            have : ¬ (setXidx s r.xidx).xidx ≥ X.length := by simpa using hend
            cases col.hasNulls <;> simp only [setData, setNn, setXidx, if_true, Bool.false_eq_true,
              if_false] at this ⊢ <;> omega
          · cases col.hasNulls <;> rfl
          · cases col.hasNulls <;> rfl
          · cases col.hasNulls <;> rfl

/-- **A turn goes forward exactly where the cell at its index is ready.** -/
theorem turnForward_iff (hX : X ≠ []) (hat : AtCell a X s) :
    TurnForward a X sep fileOffset s ↔ TurnReady a X sep fileOffset s := by
  obtain ⟨col, hcol⟩ : ∃ col, a.cols[s.colCtr]? = some col :=
    ⟨_, List.getElem?_eq_getElem hat.col⟩
  obtain ⟨bufsz, hbufsz⟩ : ∃ bufsz, bufsz = a.maxWidth - 1 := ⟨_, rfl⟩
  have hget : ∀ o, Reads (if decide (s.colCtr = a.nC - 1) then eoln else sep) col.isTrim bufsz
      (X.drop s.xidx) o → getCell X s.xidx sep (decide (s.colCtr = a.nC - 1)) col.isTrim
        (a.maxWidth - 1) = o.result s.xidx := by
    intro o ho
    rw [← hbufsz]
    exact getCell_of_reads hX hat.notEnd ho
  constructor
  · rintro ⟨st, hst, hforward⟩ col' o hcol' ho
    obtain rfl : col = col' := Option.some.inj (hcol.symm.trans hcol')
    rw [← hbufsz] at ho
    have hr := hget o ho
    cases o with
    | done n buf => trivial
    | flagged buf => trivial
    | past =>
        simp only [loadStep, hcol, Option.bind_some, hr, Reading.result, Option.map_none] at hst
        contradiction
    | silent buf =>
        by_contra hno
        obtain ⟨st', t, hst', ht, hgo⟩ := (loadStep_goesOn hat hcol hr rfl).2 hno
        obtain rfl : st = st' := Option.some.inj (hst.symm.trans hst')
        have hzero : t.xidx = 0 := ht
        have hlt : s.xidx < t.xidx := by
          cases st with
          | error => exact absurd hgo id
          | stop u => exact hforward t (.inr (by rw [show u = t from hgo]))
          | more u => exact hforward t (.inl (by rw [hgo.1]))
        omega
  · intro hready
    obtain ⟨o, ho⟩ := reads_total (if decide (s.colCtr = a.nC - 1) then eoln else sep) col.isTrim
      bufsz (X.drop s.xidx)
    have hr := hget o ho
    have hok := hready col o hcol (hbufsz ▸ ho)
    have hfails : ∀ t : LoadState, ¬ (Step.error = .more t ∨ Step.error = .stop t) := by
      rintro t (h | h) <;> contradiction
    cases o with
    | past => exact absurd hok id
    | flagged buf =>
        refine ⟨.error, ?_, fun t ht => absurd ht (hfails t)⟩
        simp only [loadStep, hcol, Option.bind_some, hr, Reading.result, Option.map_some, if_true]
    | silent buf =>
        exact ⟨.error, (loadStep_goesOn hat hcol hr rfl).1 hok, fun t ht => absurd ht (hfails t)⟩
    | done n buf =>
        by_cases href : Refuses a fileOffset s buf
        · exact ⟨.error, (loadStep_goesOn hat hcol hr rfl).1 href, fun t ht => absurd ht (hfails t)⟩
        · obtain ⟨st, t, hst, ht, hgo⟩ := (loadStep_goesOn hat hcol hr rfl).2 href
          have hpos := ho.pos
          have hx : t.xidx = s.xidx + n := ht
          refine ⟨st, hst, fun u hu => ?_⟩
          have htu : u = t := by
            cases st with
            | error => exact absurd hgo id
            | stop u' =>
                rcases hu with hu | hu
                · contradiction
                · rw [← Step.stop.inj hu]
                  exact hgo
            | more u' =>
                rcases hu with hu | hu
                · rw [← Step.more.inj hu]
                  exact hgo.1
                · contradiction
          rw [htu]
          omega

/-! ## the turns of a call -/

theorem nextTurn_eq_some :
    nextTurn a X sep fileOffset s = some t ↔ loadStep a X sep fileOffset s = some (.more t) := by
  rw [nextTurn]
  constructor
  · intro h
    split at h
    · next u hu => rw [hu, Option.some.inj h]
    · contradiction
  · intro h
    rw [h]

/-- The loop goes on at a cell, with one turn less to go. -/
theorem loadStep_more (hat : AtCell a X s)
    (h : loadStep a X sep fileOffset s = some (.more t)) :
    AtCell a X t ∧ turnsLeft a fileOffset t + 1 = turnsLeft a fileOffset s := by
  have hstep := h
  simp only [loadStep, Option.bind_eq_some_iff, Option.map_eq_some_iff] at hstep
  obtain ⟨col, hcol, r, hget, hr⟩ := hstep
  have herr : r.isErr = false := by
    by_contra herr
    rw [if_pos (by simpa using herr)] at hr
    contradiction
  obtain ⟨hrefuses, hgoes⟩ := loadStep_goesOn hat hcol hget herr
  by_cases href : Refuses a fileOffset s r.buf
  · rw [hrefuses href] at h
    exact absurd (Option.some.inj h) (by simp)
  · obtain ⟨st, u, hst, -, hgo⟩ := hgoes href
    obtain rfl : st = .more t := Option.some.inj (hst.symm.trans h)
    obtain ⟨rfl, hat', hleft⟩ := hgo
    exact ⟨hat', hleft⟩

theorem atCell_start (hnC : a.nC ≠ 0) (hchunk : 0 < a.chunkSize)
    (hlt : fileOffset < X.length) : AtCell a X (startState a fileOffset) :=
  ⟨Nat.pos_of_ne_zero hnC, hchunk, Nat.ne_of_lt hlt⟩

/-- Every turn of a call stands at a cell. -/
theorem turnsOf_atCell (hchunk : 0 < a.chunkSize) (hs : s ∈ turnsOf a X sep fileOffset) :
    AtCell a X s := by
  rw [turnsOf] at hs
  split at hs
  · exact absurd hs List.not_mem_nil
  · next hok =>
    rw [not_or, not_or] at hok
    exact forall_visits
      (fun _ _ _ hat hstep => (loadStep_more hat (nextTurn_eq_some.mp hstep)).1)
      (atCell_start hok.1 hchunk (Nat.not_le.mp hok.2.2)) s hs

/-- A loop all of whose turns go forward returns, with an error or further on. -/
theorem loadLoop_forward {fuel : Nat} (hat : AtCell a X s) (hfuel : turnsLeft a fileOffset s ≤ fuel)
    (h : ∀ u ∈ visits (fun (_ : Unit) => nextTurn a X sep fileOffset) (List.replicate fuel ()) s,
      TurnForward a X sep fileOffset u) :
    ∃ o, loadLoop a X sep fileOffset fuel s = some o ∧ ∀ t, o = some t → s.xidx < t.xidx := by
  induction fuel generalizing s with
  | zero =>
      have : 0 < turnsLeft a fileOffset s := turnsLeft_pos hat
      omega
  | succ fuel ih =>
      obtain ⟨st, hst, hforward⟩ := h s self_mem_visits
      rw [loadLoop, hst]
      cases st with
      | error => exact ⟨none, rfl, fun t ht => absurd ht (by simp)⟩
      | stop t =>
          refine ⟨some t, rfl, fun u hu => ?_⟩
          rw [← Option.some.inj hu]
          exact hforward t (.inr rfl)
      | more t =>
          obtain ⟨hat', hleft⟩ := loadStep_more hat hst
          rw [List.replicate_succ, visits, nextTurn_eq_some.mpr hst] at h
          obtain ⟨o, ho, hlt⟩ := ih hat' (by omega) fun u hu => h u (List.mem_cons_of_mem _ hu)
          exact ⟨o, ho, fun u hu => Nat.lt_trans (hforward t (.inl rfl)) (hlt u hu)⟩

/-- **A call goes forward exactly where each of its turns finds its cell ready.** -/
theorem callForward_iff (hfile : a.file = some X) (hsep : getFldSep a.strFldSep = some sep)
    (hchunk : 0 < a.chunkSize) (fileOffset : Nat) :
    CallForward a X sep fileOffset ↔
      ∀ s ∈ turnsOf a X sep fileOffset, TurnReady a X sep fileOffset s := by
  have hX : ∀ s ∈ turnsOf a X sep fileOffset, X ≠ [] := by
    rintro s hs rfl
    rw [turnsOf, if_pos (.inr (.inr (Nat.zero_le _)))] at hs
    exact absurd hs List.not_mem_nil
  have hturn : ∀ s ∈ turnsOf a X sep fileOffset,
      (TurnForward a X sep fileOffset s ↔ TurnReady a X sep fileOffset s) := fun s hs =>
    turnForward_iff (hX s hs) (turnsOf_atCell hchunk hs)
  constructor
  · exact fun h s hs => (hturn s hs).mp (h.turns s hs)
  · intro h
    have hforward := fun s hs => (hturn s hs).mpr (h s hs)
    refine ⟨?_, hforward⟩
    have hrefused : ∃ r, some (noRows (-1) fileOffset) = some r ∧
        (r.status < 0 ∨ fileOffset < r.fileOffset ∨ r.fileOffset = X.length) :=
      ⟨_, rfl, .inl (show (-1 : Int) < 0 by decide)⟩
    rw [loadCsvSeq]
    by_cases hnC : a.nC = 0
    · rw [if_pos hnC]
      exact hrefused
    · rw [if_neg hnC]
      cases hchk : chkData a.cols a.maxWidth with
      | false => exact hrefused
      | true =>
          rw [hfile, hsep]
          simp only [Bool.not_true, Bool.false_eq_true, if_false]
          split
          · exact hrefused
          · split
            · exact hrefused
            · next hle =>
              split
              · next hge => exact ⟨_, rfl, .inr (.inr (by simp only [noRows]; omega))⟩
              · next hlt =>
                have hlt' := Nat.not_le.mp hlt
                rw [turnsOf, if_neg (by simp [hnC, hchk, hlt'])] at hforward
                have hleft : turnsLeft a fileOffset (startState a fileOffset) ≤
                    a.nC * (a.chunkSize + 1) + X.length := by
                  rw [turnsLeft, Nat.mul_succ]
                  split <;> omega
                obtain ⟨o, ho, hend⟩ := loadLoop_forward (atCell_start hnC hchunk hlt') hleft
                  hforward
                rw [ho]
                cases o with
                | none => exact hrefused
                | some t => exact ⟨_, rfl, .inr (.inl (hend t rfl))⟩

/-! ## all calls -/

/-- Calls that go forward come to an end. -/
theorem loadToEnd_isSome {nX : Nat} (hX : X.length = nX)
    (h : ∀ y, CallsReach a fileOffset y → CallForward a X sep y)
    (hx : CallsReach a fileOffset x) : ∃ n, (loadToEnd a nX n x).isSome = true := by
  obtain ⟨k, hk⟩ : ∃ k, k = nX - x := ⟨_, rfl⟩
  induction k using Nat.strongRecOn generalizing x with
  | ind k ih =>
      obtain ⟨r, hr, hres⟩ := (h x hx).returns
      by_cases hend : r.status < 0 ∨ nX ≤ r.fileOffset
      · exact ⟨1, by rw [loadToEnd, hr, Option.bind_some, if_pos hend]; rfl⟩
      · rw [not_or] at hend
        obtain ⟨n, hn⟩ := ih (nX - r.fileOffset) (by omega) (hx.call hr hend.1) rfl
        refine ⟨n + 1, ?_⟩
        rw [loadToEnd, hr, Option.bind_some, if_neg (by omega), Option.isSome_map]
        exact hn

/-- **When loading a file goes forward**: exactly where at every turn of every call the cell is
ready. -/
theorem allForward_iff (hfile : a.file = some X) (hsep : getFldSep a.strFldSep = some sep)
    (hchunk : 0 < a.chunkSize) (fileOffset : Nat) :
    AllForward a X sep fileOffset ↔ ∀ x, CallsReach a fileOffset x →
      ∀ s ∈ turnsOf a X sep x, TurnReady a X sep x s := by
  constructor
  · exact fun h x hx => (callForward_iff hfile hsep hchunk x).mp (h.calls x hx)
  · intro h
    have hcalls : ∀ x, CallsReach a fileOffset x → CallForward a X sep x := fun x hx =>
      (callForward_iff hfile hsep hchunk x).mpr (h x hx)
    exact ⟨hcalls, loadToEnd_isSome rfl hcalls .start⟩

/-- One string column of width 2, loaded one row a call from the file `X`. -/
def narrowColumn (X : Bytes) : LoadArgs where
  file := some X
  cols := [⟨.SC, 2, false, true, false, true, false⟩]
  strFldSep := "comma".toUTF8.data.toList
  chunkSize := 1
  maxWidth := 2
  nnQtype := .BL
  isHdr := false
  txt := fun _ _ => none

theorem getFldSep_narrow (X : Bytes) : getFldSep (narrowColumn X).strFldSep = some 44 := by
  change getFldSep ("comma".toUTF8.data.toList) = some 44
  decide +kernel

/-- The file `a⏎`. -/
theorem allForward_iff_row : AllForward (narrowColumn [97, 10]) [97, 10] 44 0 ↔
    ∀ x, CallsReach (narrowColumn [97, 10]) 0 x →
      ∀ s ∈ turnsOf (narrowColumn [97, 10]) [97, 10] 44 x,
        TurnReady (narrowColumn [97, 10]) [97, 10] 44 x s :=
  allForward_iff rfl (getFldSep_narrow _) Nat.one_pos 0

/-- The file `ab⏎`, whose cell has no room in the buffer: the call succeeds and leaves the offset
at 0. -/
theorem allForward_fails : ¬ AllForward (narrowColumn [97, 98, 10]) [97, 98, 10] 44 0 := by
  intro h
  obtain ⟨r, hr, hres⟩ := (h.calls 0 .start).returns
  have hcall : (loadCsvSeq (narrowColumn [97, 98, 10]) 0).map
      (fun r => (r.status, r.fileOffset)) = some (0, 0) := by
    rw [loadCsvSeq, getFldSep_narrow]
    rfl
  rw [hr, Option.map_some, Option.some.injEq, Prod.mk.injEq] at hcall
  rw [hcall.1, hcall.2] at hres
  exact absurd hres (by decide)

end QStore.Csv
