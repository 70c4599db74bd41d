import QStore.Vctr.Stages

/-!
# QStore.Vctr.Member

A lazily evaluated vector as Lua sees it: a column of the runtime, that of its
null vector if it has one, and whether it still has a generator.

Each function of `QStore.Vctr.LVector` that is about one vector takes it from one
stage to another, and both columns go together.
-/

namespace QStore.Vctr

open Function

/-! ## rules -/

section Rules

variable {α : Type} {s : LSt} {u i : Nat} {v : VctrVal} {Q : α → LSt → Prop} {E : LErr → LSt → Prop}

@[simp] theorem LSt.setC_c {c : St} : (s.setC c).c = c := rfl
@[simp] theorem LSt.setC_self : s.setC s.c = s := rfl
@[simp] theorem LSt.setC_lua {c : St} : (s.setC c).lua = s.lua := rfl
@[simp] theorem LSt.setLua_c {o : LuaVec} : (s.setLua u o).c = s.c := rfl
@[simp] theorem LSt.setLua_self {o : LuaVec} : (s.setLua u o).lua u = o := update_self ..
theorem LSt.setLua_of_ne {w : Nat} {o : LuaVec} (h : w ≠ u) : (s.setLua u o).lua w = s.lua w :=
  update_of_ne h ..

@[simp] theorem ends_luaAssert {c : Prop} [Decidable c] {Q : Unit → LSt → Prop} :
    Ends (luaAssert c) s Q E ↔ (c → Q () s) ∧ (¬ c → E .raised s) := by
  by_cases hc : c <;> simp [luaAssert, hc]

theorem ends_luaAssert_of {c : Prop} [Decidable c] (hc : c) {Q : Unit → LSt → Prop} :
    Ends (luaAssert c) s Q E ↔ Q () s := by
  simp [hc]

@[simp] theorem ends_luaIf {c : Prop} [Decidable c] {m : L Unit} {Q : Unit → LSt → Prop} :
    Ends (luaIf c m) s Q E ↔ (c → Ends m s Q E) ∧ (¬ c → Q () s) := by
  by_cases hc : c <;> simp [luaIf, hc]

@[simp] theorem ends_attempt {m : M α} {Q : Option α → LSt → Prop} :
    Ends (attempt m) s Q E ↔
      Ends m s.c (fun a t => Q (some a) (s.setC t)) fun e t => match e with
        | .bye _ => Q none (s.setC t)
        | .ub => E .ub (s.setC t) := by
  simp only [Ends, attempt]
  cases m s.c with
  | ok a t => rfl
  | error e t => cases e <;> rfl

@[simp] theorem ends_present_some {a : α} : Ends (present (some a)) s Q E ↔ Q a s := Iff.rfl

@[simp] theorem ends_present_none : Ends (present none) s Q E ↔ E .raised s := Iff.rfl

theorem ends_must {m : M α} :
    Ends (must m) s Q E ↔
      Ends m s.c (fun a t => Q a (s.setC t)) fun e t => match e with
        | .bye _ => E .raised (s.setC t)
        | .ub => E .ub (s.setC t) := by
  rw [must, ends_bind, ends_attempt]
  rfl

/-- A call into C that does not fail. -/
theorem Ends.must {m : M α} {R : α → St → Prop} (h : Ends m s.c R fun _ _ => False)
    (hQ : ∀ a c, R a c → Q a (s.setC c)) : Ends (must m) s Q E :=
  ends_must.mpr (h.imp hQ fun _ _ => False.elim)

theorem ends_castTo_of {bits : Nat} (h : i < 2 ^ bits) {Q : Nat → LSt → Prop} :
    Ends (castTo bits i) s Q E ↔ Q i s := by
  simp [castTo, h]

@[simp] theorem ends_getLua {Q : LuaVec → LSt → Prop} : Ends (getLua u) s Q E ↔ Q (s.lua u) s :=
  Iff.rfl

@[simp] theorem ends_modLua {g : LuaVec → LuaVec} {Q : Unit → LSt → Prop} :
    Ends (modLua u g) s Q E ↔ Q () (s.setLua u (g (s.lua u))) := Iff.rfl

/-! What a vector without an error says of itself. -/

variable (hv : s.c.vctrs u = some v) (he : v.isError = false)
include hv he

theorem ends_isEov {Q : Bool → LSt → Prop} : Ends (isEov u) s Q E ↔ Q v.isEov s := by
  simp [isEov, getFlag, vctrGetSet, hv, he, getMeta, putBl, deref, LSt.setC, Got.nothing]

theorem ends_hasNnVec {Q : Bool → LSt → Prop} : Ends (hasNnVec u) s Q E ↔ Q v.hasNn s := by
  simp [hasNnVec, getFlag, vctrGetSet, hv, he, getMeta, putBl, deref, LSt.setC, Got.nothing]

theorem ends_isNnVec {Q : Bool → LSt → Prop} : Ends (isNnVec u) s Q E ↔ Q v.hasParent s := by
  simp [isNnVec, getFlag, vctrGetSet, hv, he, getMeta, putBl, deref, LSt.setC, Got.nothing]

theorem ends_maxChnkIdx {Q : Nat → LSt → Prop} : Ends (maxChnkIdx u) s Q E ↔ Q v.maxChnkIdx s := by
  simp [maxChnkIdx, ends_must, getNumber, vctrGetSet, hv, he, getMeta, putI8, deref, LSt.setC,
    Got.nothing]

theorem ends_maxNumInChunk (h : 0 < v.maxNumInChnk) {Q : Nat → LSt → Prop} :
    Ends (maxNumInChunk u) s Q E ↔ Q v.maxNumInChnk s := by
  simp [maxNumInChunk, ends_must, getNumber, vctrGetSet, hv, he, getMeta, putI8, deref, LSt.setC,
    Got.nothing, h, Nat.ne_of_gt h]

theorem ends_qtypeOf {Q : Int → LSt → Prop} : Ends (qtypeOf u) s Q E ↔ Q v.qtype.num s := by
  simp [qtypeOf, ends_must, getNumber, vctrGetSet, hv, he, getMeta, putI8, deref, LSt.setC,
    Got.nothing]

omit he in
theorem ends_numElements {Q : Nat → LSt → Prop} :
    Ends (numElements u) s Q E ↔ Q v.numElements s := by
  simp [numElements, ends_must, vctrNumElements, hv, LSt.setC]

omit he in
theorem ends_getNnVec (hu : u ≠ 0) (hnn : v.hasNn = true) {Q : Nat → LSt → Prop} :
    Ends (getNnVec u) s Q E ↔ Q v.nnKey s := by
  simp [getNnVec, ends_must, cvecGetNnVec, vctrGetNnVec, hv, hu, hnn, LSt.setC]

end Rules

/-! ## one vector -/

/-- A vector and its null vector. -/
structure Member where
  base : Column
  nn : Option Column

namespace Member

abbrev uqid (m : Member) : Nat := m.base.uqid

def columns (m : Member) : List Column := m.base :: m.nn.toList

/-- The generator yields the chunks of a stream, in blocks that the runtime keeps. A
null vector is of type `BL`, and no chunk of it has 29316 elements. -/
structure Fits (m : Member) (n : Lengths) (gen : Nat → Nat → Chunk) : Prop where
  base : m.base.Fits n
  primary : m.base.entry.hasParent = false
  hasNn : m.base.entry.hasNn = m.nn.isSome
  nnKey : ∀ w ∈ m.nn, m.base.entry.nnKey = w.uqid
  nn : ∀ w ∈ m.nn, w.Fits n
  marks : ∀ w ∈ m.nn, w.entry.qtype = .BL
  apart : ∀ w ∈ m.nn, w.uqid ≠ m.uqid
  clear : ∀ w ∈ m.nn, ∀ j, n.num j ≠ 29316
  num : ∀ j, j ≤ n.last → (gen m.uqid j).num = n.num j
  buf : ∀ j, 0 < n.num j → (gen m.uqid j).buf = some (m.base.cmem j)
  nnBuf : ∀ w ∈ m.nn, ∀ j, 0 < n.num j → (gen m.uqid j).nnBuf = some (w.cmem j)

/-- How many chunks were generated, and how many readers they have. -/
structure Progress where
  stage : Nat
  readers : Nat → UInt16

/-- Both columns are at the same stage, with the same readers. -/
structure InStep (m : Member) (n : Lengths) (k : Nat) (readers : Nat → UInt16) (c : St) : Prop where
  base : m.base.At n k readers c
  nn : ∀ w ∈ m.nn, w.At n k readers c

/-- So far has a vector come. -/
structure At (m : Member) (n : Lengths) (siblings : List Nat) (p : Progress) (s : LSt) : Prop where
  stage_le : p.stage ≤ n.last + 1
  inStep : m.InStep n p.stage p.readers s.c
  lua : s.lua m.uqid = ⟨decide (p.stage ≤ n.last), siblings, List.range p.stage⟩

/-- Only this vector and its null vector differ. -/
structure Only (m : Member) (s t : LSt) : Prop where
  vctrs : ∀ w, (∀ col ∈ m.columns, w ≠ col.uqid) → t.c.vctrs w = s.c.vctrs w
  chnks : ∀ w j, (∀ col ∈ m.columns, w ≠ col.uqid) → t.c.chnks (w, j) = s.c.chnks (w, j)
  lua : ∀ w, w ≠ m.uqid → t.lua w = s.lua w

/-- What is handed out is chunk `i`: past the end, nothing. -/
structure Delivers (m : Member) (n : Lengths) (i : Nat) (r : Chunk) : Prop where
  num : r.num = n.num i
  buf : 0 < n.num i → ∃ b d, r.buf = some b ∧ b.data = some d ∧ m.base.bytes i <+: d.bytes
  nnBuf : 0 < n.num i → ∀ w ∈ m.nn,
    ∃ b d, r.nnBuf = some b ∧ b.data = some d ∧ w.bytes i <+: d.bytes

variable {m : Member} {n : Lengths} {gen : Nat → Nat → Chunk} {siblings : List Nat} {p : Progress}
  {s t : LSt} {i : Nat}

theorem Only.refl : m.Only s s := ⟨fun _ _ => rfl, fun _ _ _ => rfl, fun _ _ => rfl⟩

theorem Only.trans {r : LSt} (h : m.Only r s) (h' : m.Only s t) : m.Only r t where
  vctrs w hw := (h'.vctrs w hw).trans (h.vctrs w hw)
  chnks w j hw := (h'.chnks w j hw).trans (h.chnks w j hw)
  lua w hw := (h'.lua w hw).trans (h.lua w hw)

theorem base_mem_columns : m.base ∈ m.columns := by simp [columns]

theorem nn_mem_columns {w : Column} (hw : w ∈ m.nn) : w ∈ m.columns := by
  simp [columns, Option.mem_def.mp hw]

/-- A change of one column is a change of the vector. -/
theorem only_of {c : St} {col : Column} (hcol : col ∈ m.columns) (h : OnlyAt col.uqid s.c c) :
    m.Only s (s.setC c) where
  vctrs w hw := h.vctrs w (hw col hcol)
  chnks w j hw := h.chnks w j (hw col hcol)
  lua _ _ := rfl

/-- So is a change of what Lua keeps. -/
theorem only_setLua {o : LuaVec} : m.Only s (s.setLua m.uqid o) :=
  ⟨fun _ _ => rfl, fun _ _ _ => rfl, fun _ hw => LSt.setLua_of_ne hw⟩

/-! ### both columns -/

section Both

variable {k : Nat} {readers : Nat → UInt16} {Q : Unit → LSt → Prop} {E : LErr → LSt → Prop}

theorem ends_ofNnVec (hf : m.Fits n gen) (hs : m.base.At n k readers s.c) {f : Nat → L Unit}
    (hnone : m.nn = none → Q () s) (hsome : ∀ w ∈ m.nn, Ends (f w.uqid) s Q E) :
    Ends (ofNnVec m.uqid f) s Q E := by
  have he : (m.base.entry.after n k).isError = false := hf.base.error
  rw [ofNnVec, ends_bind, ends_hasNnVec hs.vctr he]
  have hhas : (m.base.entry.after n k).hasNn = m.nn.isSome := hf.hasNn
  cases hw : m.nn with
  | none => simpa [hhas, hw] using hnone hw
  | some w =>
      have hkey : (m.base.entry.after n k).nnKey = w.uqid := hf.nnKey w hw
      rw [hhas, hw]
      simp only [Option.isSome_some, if_true, ends_bind]
      rw [ends_getNnVec hs.vctr hf.base.uqid_pos (by rw [hhas, hw]; rfl), hkey]
      exact hsome w hw

theorem Fits.column (hf : m.Fits n gen) {col : Column} (hcol : col ∈ m.columns) : col.Fits n := by
  rw [columns, List.mem_cons, Option.mem_toList] at hcol
  cases hcol with
  | inl h => exact h ▸ hf.base
  | inr h => exact hf.nn col h

/-- The same is done to both columns, and fails for neither. -/
theorem ends_both (hf : m.Fits n gen) (hs : m.InStep n k readers s.c) (f : Nat → L Unit) {k' : Nat}
    {readers' : Nat → UInt16}
    (hdo : ∀ col ∈ m.columns, ∀ r : LSt, col.At n k readers r.c →
      Ends (f col.uqid) r (fun _ t => ∃ c, t = r.setC c ∧ col.At n k' readers' c ∧
        OnlyAt col.uqid r.c c) fun _ _ => False) :
    Ends (do f m.uqid; ofNnVec m.uqid f) s
      (fun _ t => ∃ c, t = s.setC c ∧ m.InStep n k' readers' c ∧ m.Only s t)
      fun _ _ => False := by
  rw [ends_bind]
  refine (hdo m.base base_mem_columns s hs.base).imp ?_ fun _ _ => False.elim
  intro _ t ht
  obtain ⟨c, rfl, hbase, honly⟩ := ht
  refine ends_ofNnVec hf hbase ?_ ?_
  · intro hnone
    exact ⟨c, rfl, ⟨hbase, by simp [hnone]⟩, only_of base_mem_columns honly⟩
  · intro w hw
    have hother : w.At n k readers c := (hs.nn w hw).frame honly (hf.apart w hw)
    refine (hdo w (nn_mem_columns hw) (s.setC c) hother).imp ?_ fun _ _ => False.elim
    intro _ t ht
    obtain ⟨c', rfl, hnn, honly'⟩ := ht
    refine ⟨c', rfl, ⟨hbase.frame honly' (hf.apart w hw).symm, ?_⟩,
      (only_of base_mem_columns honly).trans (only_of (nn_mem_columns hw) honly')⟩
    intro w' hw'
    rw [Option.mem_unique hw' hw]
    exact hnn

/-- Giving back a chunk that has a reader. -/
theorem ends_ungetChunk (hf : m.Fits n gen) (hs : m.InStep n k readers s.c) (hi : i < n.chunks k)
    (hk : k ≤ n.last + 1) (hr : readers i ≠ 0) :
    Ends (ungetChunk m.uqid i) s
      (fun _ t => ∃ c, t = s.setC c ∧ m.InStep n k (update readers i (readers i - 1)) c ∧
        m.Only s t)
      fun _ _ => False := by
  refine ends_both hf hs (fun w => cvecUngetChunk w i) fun col hcol r hcolr => ?_
  have hbound : i < 2 ^ 31 := by
    have := (Lengths.chunks_le hk).2
    have := hf.base.last_lt
    omega
  rw [cvecUngetChunk, ends_bind, ends_castTo_of hbound, ends_must]
  refine ((hf.column hcol).ends_ungetChunk hcolr).imp ?_ ?_
  · intro _ c hc
    exact ⟨c, rfl, hc.2.2⟩
  · intro e c hc
    exact absurd ⟨hi, hr⟩ hc.2.2

/-- Giving back another one fails, and leaves everything as it was. -/
theorem ungetChunk_fails (hf : m.Fits n gen) (hs : m.InStep n k readers s.c) (hi : i < 2 ^ 31)
    (hr : ¬ (i < n.chunks k ∧ readers i ≠ 0)) : ungetChunk m.uqid i s = .error .raised s := by
  refine Ends.throws ?_
  rw [ungetChunk, ends_bind, cvecUngetChunk, ends_bind, ends_castTo_of hi, ends_must]
  refine (hf.base.ends_ungetChunk hs.base).imp ?_ ?_
  · intro _ c hc
    exact absurd ⟨hc.1, hc.2.1⟩ hr
  · intro e c hc
    obtain ⟨rfl, rfl, -⟩ := hc
    exact ⟨rfl, rfl⟩

/-- Counting a reader of a chunk. -/
theorem ends_incrReaders (hf : m.Fits n gen) (hs : m.InStep n k readers s.c) (hi : i < n.chunks k)
    (hk : k ≤ n.last + 1) :
    Ends (incrReaders m.uqid i) s
      (fun _ t => ∃ c, t = s.setC c ∧ m.InStep n k (update readers i (readers i + 1)) c ∧
        m.Only s t)
      fun _ _ => False := by
  refine ends_both hf hs (fun w => cvecIncrNumReaders w i) fun col hcol r hcolr => ?_
  have hbound : i < 2 ^ 32 := by
    have := (Lengths.chunks_le hk).2
    have := hf.base.last_lt
    omega
  rw [cvecIncrNumReaders, ends_bind, ends_castTo_of hbound]
  exact Ends.must (hcolr.ends_incrNumReaders hi) fun _ c hc => ⟨c, rfl, hc⟩

/-! ### reading -/

/-- The block that `cVector.get_chunk` fills in leads to the chunk. -/
theorem ends_cvecGetChunk {col : Column} (hf : col.Fits n) (hs : col.At n k readers s.c)
    (hi : i < n.chunks k) (hk : k ≤ n.last + 1) :
    Ends (cvecGetChunk col.uqid i) s
      (fun r t => ∃ g c, r = some g ∧ g.num = n.num i ∧ col.bytes i <+: g.bytes ∧ t = s.setC c ∧
        col.At n k (update readers i (readers i + 1)) c ∧ OnlyAt col.uqid s.c c)
      fun _ _ => False := by
  have hbound : i < 2 ^ 32 := by
    have := (Lengths.chunks_le hk).2
    have := hf.last_lt
    omega
  rw [cvecGetChunk, ends_bind, ends_castTo_of hbound, ends_attempt]
  refine (hf.ends_getChunk hs).imp ?_ ?_
  · intro g c hc
    exact ⟨g, c, rfl, hc.2.1, hc.2.2.1, rfl, hc.2.2.2⟩
  · intro e c hc
    omega

/-- A chunk that is in the runtime is delivered, and counted as read. -/
theorem ends_archivalChunk (hf : m.Fits n gen) (hs : m.InStep n k readers s.c)
    (hi : i < n.chunks k) (hk : k ≤ n.last + 1) :
    Ends (archivalChunk m.uqid i) s
      (fun r t => m.Delivers n i r ∧ ∃ c, t = s.setC c ∧
        m.InStep n k (update readers i (readers i + 1)) c ∧ m.Only s t)
      fun _ _ => False := by
  rw [archivalChunk, ends_bind]
  refine (ends_cvecGetChunk hf.base hs.base hi hk).imp ?_ fun _ _ => False.elim
  intro r t hr
  obtain ⟨g, c, rfl, hnum, hbytes, rfl, hbase, honly⟩ := hr
  have he : (m.base.entry.after n k).isError = false := hf.base.error
  have hhas : (m.base.entry.after n k).hasNn = m.nn.isSome := hf.hasNn
  have hbuf : ∃ b d, some g.cmem = some b ∧ b.data = some d ∧ m.base.bytes i <+: d.bytes :=
    ⟨g.cmem, ⟨g.addr, g.bytes⟩, rfl, rfl, hbytes⟩
  simp only [ends_bind]
  rw [ends_hasNnVec hbase.vctr he, hhas]
  cases hw : m.nn with
  | none =>
      simp only [Option.isSome_none, Bool.false_eq_true, if_false, ends_pure]
      exact ⟨⟨hnum, fun _ => hbuf, by simp [hw]⟩, c, rfl, ⟨hbase, by simp [hw]⟩,
        only_of base_mem_columns honly⟩
  | some w =>
      have hkey : (m.base.entry.after n k).nnKey = w.uqid := hf.nnKey w hw
      have hclear : g.num ≠ 29316 := by
        rw [hnum]
        exact hf.clear w hw i
      have hother : w.At n k readers c := (hs.nn w hw).frame honly (hf.apart w hw)
      simp only [Option.isSome_some, if_true, ends_bind]
      rw [ends_getNnVec hbase.vctr hf.base.uqid_pos (by rw [hhas, hw]; rfl), hkey,
        ends_luaAssert_of hclear]
      refine (ends_cvecGetChunk (hf.nn w hw) hother hi hk).imp ?_ fun _ _ => False.elim
      intro r t hr
      obtain ⟨h, c', rfl, hnum', hbytes', rfl, hnn, honly'⟩ := hr
      rw [ends_present_some, ends_luaAssert_of (hnum'.trans hnum.symm), ends_pure]
      refine ⟨⟨hnum, fun _ => hbuf, fun _ w' hw' => ?_⟩, c', rfl,
        ⟨hbase.frame honly' (hf.apart w hw).symm, fun w' hw' => ?_⟩,
        (only_of base_mem_columns honly).trans (only_of (nn_mem_columns hw) honly')⟩
      · rw [Option.mem_unique hw' hw]
        exact ⟨h.cmem, ⟨h.addr, h.bytes⟩, rfl, rfl, hbytes'⟩
      · rw [Option.mem_unique hw' hw]
        exact hnn

/-- Past the last chunk there is nothing. -/
theorem archivalChunk_past (hf : m.Fits n gen) (hs : m.InStep n k readers s.c)
    (hi : n.chunks k ≤ i) (hbound : i < 2 ^ 32) {Q : Chunk → LSt → Prop} (hQ : Q ⟨0, none, none⟩ s) :
    Ends (archivalChunk m.uqid i) s Q E := by
  rw [archivalChunk, ends_bind, cvecGetChunk, ends_bind, ends_castTo_of hbound, ends_attempt]
  refine (hf.base.ends_getChunk hs.base).imp ?_ ?_
  · intro g c hc
    omega
  · intro e c hc
    obtain ⟨rfl, rfl, -⟩ := hc
    exact hQ

/-- Reading an element changes nothing. -/
theorem ends_get1 (hf : m.Fits n gen) (hs : m.InStep n k readers s.c) (hk : k ≤ n.last + 1)
    (hi : i < 2 ^ 63) :
    Ends (get1 m.uqid i) s (fun _ t => t = s) fun e t => e = .raised ∧ t = s := by
  have he : (m.base.entry.after n k).isError = false := hf.base.error
  have hhas : (m.base.entry.after n k).hasNn = m.nn.isSome := hf.hasNn
  have hrest : ∀ r : Option (List UInt8), Ends (do
      if (← hasNnVec m.uqid) ∧ r.isSome then do
        let w ← getNnVec m.uqid
        let _ ← must (vctrGet1 w i)
        luaAssert ((← qtypeOf w) = Qtype.BL.num)
        pure r
      else pure r) s (fun _ t => t = s) fun e t => e = .raised ∧ t = s := by
    intro r
    rw [ends_bind, ends_hasNnVec hs.base.vctr he, hhas, ends_ite]
    refine ⟨fun hc => ?_, fun _ => rfl⟩
    obtain ⟨w, hw⟩ := Option.isSome_iff_exists.mp hc.1
    have hkey : (m.base.entry.after n k).nnKey = w.uqid := hf.nnKey w hw
    rw [ends_bind, ends_getNnVec hs.base.vctr hf.base.uqid_pos (by rw [hhas, hw]; rfl), hkey,
      ends_bind, ends_must]
    refine ((hf.nn w hw).ends_get1 (hs.nn w hw) hk).imp ?_ ?_
    · intro _ c hc
      subst hc
      have he' : (w.entry.after n k).isError = false := (hf.nn w hw).error
      have hmarks : (w.entry.after n k).qtype = .BL := hf.marks w hw
      rw [LSt.setC_self, ends_bind, ends_qtypeOf (hs.nn w hw).vctr he', hmarks]
      simp
    · intro e c hc
      obtain ⟨rfl, rfl⟩ := hc
      exact ⟨rfl, rfl⟩
  rw [get1, ends_bind, ends_castTo_of hi, ends_bind, ends_attempt]
  refine (hf.base.ends_get1 hs.base hk).imp ?_ ?_
  · intro x c hc
    subst hc
    exact hrest (some x)
  · intro e c hc
    obtain ⟨rfl, rfl⟩ := hc
    exact hrest none

/-! ### generating -/

/-- Putting a chunk into one column. -/
theorem ends_cvecPutChunk {col : Column} (hf : col.Fits n) (hs : col.At n k readers s.c)
    (hk : k ≤ n.last) (hn : 0 < n.num k) :
    Ends (cvecPutChunk col.uqid (col.cmem k) (n.num k)) s
      (fun r t => r.data = (col.cmem k).data ∧ ∃ c, t = s.setC c ∧
        col.At n (k + 1) (update readers k 0) c ∧ OnlyAt col.uqid s.c c)
      fun _ _ => False := by
  have hbound : n.num k < 2 ^ 32 := Nat.lt_of_le_of_lt Lengths.num_le n.max_lt
  rw [cvecPutChunk, ends_bind, ends_castTo_of hbound]
  exact Ends.must (hf.ends_put hs hk hn) fun _ c hc => ⟨hc.1, c, rfl, hc.2⟩

/-- Putting what was generated takes both columns to the next stage. -/
theorem ends_putGenerated (hf : m.Fits n gen) (hs : m.InStep n k readers s.c) (hk : k ≤ n.last)
    (hn : 0 < n.num k) :
    Ends (putGenerated m.uqid (gen m.uqid k)) s
      (fun r t => m.Delivers n k r ∧ ∃ c, t = s.setC c ∧
        m.InStep n (k + 1) (update readers k 0) c ∧ m.Only s t)
      fun _ _ => False := by
  have he : (m.base.entry.after n k).isError = false := hf.base.error
  have hhas : (m.base.entry.after n k).hasNn = m.nn.isSome := hf.hasNn
  have hprimary : (m.base.entry.after n k).hasParent = false := hf.primary
  have hopen : (m.base.entry.after n k).isEov = false := by simp [VctrVal.after, hk]
  have hv := hs.base.vctr
  obtain ⟨b, hb, hbytes⟩ := hf.base.holds k hn
  rw [putGenerated, hf.num k hk, if_pos hn, ends_bind, hf.buf k hn, ends_present_some, ends_bind,
    putChunk, ends_bind, ends_isEov hv he, hopen, ends_bind, ends_luaAssert_of rfl, ends_bind,
    ends_isNnVec hv he, hprimary, ends_bind, ends_luaAssert_of rfl, ends_bind,
    ends_luaAssert_of hn, ends_bind, ends_hasNnVec hv he, hhas]
  cases hw : m.nn with
  | none =>
      simp only [Option.isSome_none, Bool.false_eq_true, if_false, ends_bind]
      refine (ends_cvecPutChunk hf.base hs.base hk hn).imp ?_ fun _ _ => False.elim
      intro r t hr
      obtain ⟨hdata, c, rfl, hbase, honly⟩ := hr
      exact ⟨⟨rfl, fun _ => ⟨r, b, rfl, hdata.trans hb, hbytes⟩, by simp [hw]⟩, c, rfl,
        ⟨hbase, by simp [hw]⟩, only_of base_mem_columns honly⟩
  | some w =>
      have hkey : (m.base.entry.after n k).nnKey = w.uqid := hf.nnKey w hw
      have hnn := hs.nn w hw
      have he' : (w.entry.after n k).isError = false := (hf.nn w hw).error
      have hmarks : (w.entry.after n k).qtype = .BL := hf.marks w hw
      obtain ⟨b', hb', hbytes'⟩ := (hf.nn w hw).holds k hn
      simp only [Option.isSome_some, if_true, ends_bind]
      rw [ends_getNnVec hv hf.base.uqid_pos (by rw [hhas, hw]; rfl), hkey,
        ends_qtypeOf hnn.vctr he', hmarks, ends_luaAssert_of rfl]
      refine (ends_cvecPutChunk hf.base hs.base hk hn).imp ?_ fun _ _ => False.elim
      intro r t hr
      obtain ⟨hdata, c, rfl, hbase, honly⟩ := hr
      rw [hf.nnBuf w hw k hn, ends_present_some]
      refine (ends_cvecPutChunk (hf.nn w hw) (hnn.frame honly (hf.apart w hw)) hk hn).imp ?_
        fun _ _ => False.elim
      intro r' t hr'
      obtain ⟨hdata', c', rfl, hnn', honly'⟩ := hr'
      refine ⟨⟨rfl, fun _ => ⟨r, b, rfl, hdata.trans hb, hbytes⟩, fun _ w' hw' => ?_⟩, c', rfl,
        ⟨hbase.frame honly' (hf.apart w hw).symm, fun w' hw' => ?_⟩,
        (only_of base_mem_columns honly).trans (only_of (nn_mem_columns hw) honly')⟩
      · rw [Option.mem_unique hw' hw]
        exact ⟨r', b', rfl, hdata'.trans hb', hbytes'⟩
      · rw [Option.mem_unique hw' hw]
        exact hnn'

/-- At the end, `eov` only drops the generator. -/
theorem ends_eov_full (hf : m.Fits n gen) (hs : m.InStep n (n.last + 1) readers s.c) :
    Ends (eov m.uqid) s (fun _ t => t = s.setLua m.uqid { s.lua m.uqid with hasGen := false })
      fun _ _ => False := by
  have he : (m.base.entry.after n (n.last + 1)).isError = false := hf.base.error
  have hprimary : (m.base.entry.after n (n.last + 1)).hasParent = false := hf.primary
  rw [eov, ends_bind, ends_isNnVec hs.base.vctr he, hprimary, ends_bind, ends_luaAssert_of rfl,
    ends_bind, ends_must, hs.base.ends_eov, LSt.setC_self, ends_bind, ends_modLua]
  have hs' : m.InStep n (n.last + 1) readers
      (s.setLua m.uqid { s.lua m.uqid with hasGen := false }).c := hs
  refine ends_ofNnVec hf hs'.base (fun _ => rfl) fun w hw => ?_
  rw [ends_must, (hs'.nn w hw).ends_eov]
  rfl

/-- An empty last chunk ends both columns. -/
theorem ends_eov_empty (hf : m.Fits n gen) (hs : m.InStep n n.last readers s.c) (h0 : n.short = 0) :
    Ends (eov m.uqid) s
      (fun _ t => m.InStep n (n.last + 1) readers t.c ∧ m.Only s t ∧
        t.lua m.uqid = { s.lua m.uqid with hasGen := false })
      fun _ _ => False := by
  have he : (m.base.entry.after n n.last).isError = false := hf.base.error
  have hprimary : (m.base.entry.after n n.last).hasParent = false := hf.primary
  rw [eov, ends_bind, ends_isNnVec hs.base.vctr he, hprimary, ends_bind, ends_luaAssert_of rfl,
    ends_bind]
  refine Ends.must (hf.base.ends_eov_empty hs.base h0) fun _ c hc => ?_
  obtain ⟨hbase, honly⟩ := hc
  have honly' : m.Only s ((s.setC c).setLua m.uqid { s.lua m.uqid with hasGen := false }) :=
    (only_of base_mem_columns honly).trans only_setLua
  rw [ends_bind, ends_modLua]
  refine ends_ofNnVec hf hbase ?_ fun w hw => ?_
  · intro hnone
    exact ⟨⟨hbase, by simp [hnone]⟩, honly', by simp⟩
  · have hother : w.At n n.last readers c := (hs.nn w hw).frame honly (hf.apart w hw)
    refine Ends.must ((hf.nn w hw).ends_eov_empty hother h0) fun _ c' hc' => ?_
    obtain ⟨hnn, honly''⟩ := hc'
    refine ⟨⟨hbase.frame honly'' (hf.apart w hw).symm, fun w' hw' => ?_⟩,
      honly'.trans (only_of (nn_mem_columns hw) honly''), by simp⟩
    rw [Option.mem_unique hw' hw]
    exact hnn

/-- Readers of chunks that are not there do not matter. -/
theorem InStep.congr {c : St} (h : m.InStep n k readers c) {readers' : Nat → UInt16}
    (hr : ∀ j, j < n.chunks k → readers j = readers' j) : m.InStep n k readers' c := by
  have hcol : ∀ col : Column, col.At n k readers c → col.At n k readers' c := by
    intro col hc
    refine ⟨hc.vctr, fun j hj => ?_, hc.outside⟩
    rw [← hr j hj]
    exact hc.inside j hj
  exact ⟨hcol _ h.base, fun w hw => hcol w (h.nn w hw)⟩

/-- What follows the call of the generator. -/
theorem ends_putAndEnd (hf : m.Fits n gen) (hs : m.InStep n k readers s.c) (hk : k ≤ n.last) :
    Ends (do
      let r ← putGenerated m.uqid (gen m.uqid k)
      luaIf (r.num < (← maxNumInChunk m.uqid)) (eov m.uqid)
      pure r) s
      (fun r t => m.Delivers n k r ∧ m.InStep n (k + 1) (update readers k 0) t.c ∧ m.Only s t ∧
        t.lua m.uqid = { s.lua m.uqid with
          hasGen := (s.lua m.uqid).hasGen && decide (k + 1 ≤ n.last) })
      fun _ _ => False := by
  have hmax_eq : ∀ j, (m.base.entry.after n j).maxNumInChnk = n.max := fun _ => hf.base.max_eq
  have hmax : ∀ j, 0 < (m.base.entry.after n j).maxNumInChnk := fun j => hmax_eq j ▸ n.max_pos
  have he : ∀ j, (m.base.entry.after n j).isError = false := fun _ => hf.base.error
  rw [ends_bind]
  by_cases hn : 0 < n.num k
  · refine (ends_putGenerated hf hs hk hn).imp ?_ fun _ _ => False.elim
    intro r t hr
    obtain ⟨hdel, c, rfl, hstep, honly⟩ := hr
    rw [ends_bind, ends_maxNumInChunk hstep.base.vctr (he _) (hmax _), hmax_eq, ends_bind,
      ends_luaIf, hdel.num, Lengths.num_lt_iff hk]
    constructor
    · intro hlast
      subst hlast
      refine (ends_eov_full hf hstep).imp ?_ fun _ _ => False.elim
      intro _ t ht
      subst ht
      exact ⟨hdel, hstep, honly.trans only_setLua, by simp⟩
    · intro hlast
      have hlt : k + 1 ≤ n.last := by omega
      exact ⟨hdel, hstep, honly, by simp [hlt]⟩
  · obtain ⟨rfl, h0⟩ := Lengths.empty hk (Nat.eq_zero_of_not_pos hn)
    have hnone : (gen m.uqid n.last).num = 0 := by rw [hf.num _ hk, Lengths.num_last, h0]
    rw [putGenerated, if_neg (by omega), ends_pure, ends_bind,
      ends_maxNumInChunk hs.base.vctr (he _) (hmax _), hmax_eq, ends_bind, ends_luaIf, hnone]
    refine ⟨fun _ => ?_, fun hbad => absurd n.max_pos hbad⟩
    refine (ends_eov_empty hf hs h0).imp ?_ fun _ _ => False.elim
    intro _ t ht
    obtain ⟨hstep, honly, hlua⟩ := ht
    refine ⟨⟨hf.num _ hk, fun h => absurd h hn, fun h => absurd h hn⟩, hstep.congr ?_, honly, ?_⟩
    · intro j hj
      rw [Lengths.chunks_end h0] at hj
      rw [update_of_ne (Nat.ne_of_lt hj)]
    · simp [hlua]

end Both

/-- **Generating** the next chunk delivers it, and takes the vector to the next
stage. -/
theorem ends_generate (hf : m.Fits n gen) (h : m.At n siblings p s) (hk : p.stage ≤ n.last) :
    Ends (generate gen m.uqid p.stage) s
      (fun r t => m.Delivers n p.stage r ∧
        m.At n siblings ⟨p.stage + 1, update p.readers p.stage 0⟩ t ∧ m.Only s t)
      fun _ _ => False := by
  have hstep : m.InStep n p.stage p.readers (s.setLua m.uqid
      { s.lua m.uqid with called := (s.lua m.uqid).called ++ [p.stage] }).c := h.inStep
  rw [generate, ends_bind, ends_modLua]
  refine (ends_putAndEnd hf hstep hk).imp ?_ fun _ _ => False.elim
  intro r t hr
  obtain ⟨hdel, hnext, honly, hlua⟩ := hr
  refine ⟨hdel, ⟨Nat.succ_le_succ hk, hnext, ?_⟩, only_setLua.trans honly⟩
  rw [hlua, LSt.setLua_self, h.lua]
  simp [hk, List.range_succ]

end Member

end QStore.Vctr
