import QStore.Vctr.Chnk

/-!
# QStore.Vctr.AddDel

Making a vector and deleting it.

`vctr_add` enters a vector without chunks under an id that was not handed out
before. `vctr_del` deletes the chunks of the window and then the entry; it stops
at the first chunk that it cannot delete, and leaves what is above.
-/

namespace QStore.Vctr

open Function

/-- The arguments of `vctr_add`. -/
structure AddArgs where
  qtype : Qtype
  width : Nat
  maxNumInChnk : Nat
  isMemo : Bool
  memoLen : Int
  isKillable : Bool
  numKillIgnore : Int
  isEarlyFreeable : Bool
  numFreeIgnore : Int
  deriving DecidableEq, Repr

/-- Arguments that ask for a plain vector of a type, with the defaults for the
rest. -/
def plainArgs (qtype : Qtype) (maxNumInChnk : Nat) : AddArgs where
  qtype := qtype
  width := 0
  maxNumInChnk := maxNumInChnk
  isMemo := false
  memoLen := 0
  isKillable := false
  numKillIgnore := 0
  isEarlyFreeable := false
  numFreeIgnore := 0

/-- The width a vector gets: that of its type where none is given. -/
def AddArgs.widthOf (a : AddArgs) : Nat := if a.width = 0 then getWidthCQtype a.qtype else a.width

/-- The number of elements in a chunk: `Q_VCTR_MAX_NUM_IN_CHNK` where none is
given. -/
def AddArgs.maxOf (a : AddArgs) : Nat := if a.maxNumInChnk = 0 then 64 else a.maxNumInChnk

/-- The entry `vctr_add` makes. -/
def AddArgs.entry (a : AddArgs) : VctrVal where
  name := []
  numElements := 0
  minChnkIdx := 0
  maxChnkIdx := 0
  maxNumInChnk := a.maxOf
  width := a.widthOf
  hasNn := false
  nnKey := 0
  hasParent := false
  parentKey := 0
  isMemo := a.isMemo
  memoLen := a.memoLen.toNat
  isKillable := a.isKillable
  numKillIgnore := a.numKillIgnore.toNat
  isEarlyFreeable := a.isEarlyFreeable
  numFreeIgnore := a.numFreeIgnore.toNat
  qtype := a.qtype
  isEov := false
  isPersist := false
  isError := false
  isLma := false
  numReaders := 0
  numWriters := 0
  x := none

/-- `vctr_new_uqid` -/
def vctrNewUqid : M Nat := do
  let s ← get
  modify (·.setUqid (u32 (s.vctrUqid + 1)))
  pure (u32 (s.vctrUqid + 1))

/-- `vctr_add` -/
def vctrAdd (a : AddArgs) : M Nat := do
  byeIf (a.qtype = .Q0)
  let u ← vctrNewUqid
  byeIf (((← get).vctrs u).isSome)
  byeIf (a.isMemo ∧ a.memoLen ≤ 0)
  byeIf (a.isMemo = false ∧ a.memoLen ≠ 0)
  byeIf (a.numKillIgnore < 0)
  byeIf (a.numKillIgnore > 16)
  byeIf (a.isKillable = false ∧ a.numKillIgnore ≠ 0)
  byeIf (a.numFreeIgnore < 0)
  byeIf (a.numFreeIgnore > 16)
  byeIf (a.isEarlyFreeable = false ∧ a.numFreeIgnore ≠ 0)
  byeIf (a.isMemo ∧ a.isEarlyFreeable)
  byeIf (a.maxOf / 64 * 64 ≠ a.maxOf)
  byeIf (a.qtype = .SC ∧ a.widthOf < 2)
  byeIf (a.qtype ≠ .SC ∧ a.qtype ≠ .B1 ∧ a.widthOf = 0)
  setVctr u a.entry
  pure u

/-- Break the links between a vector and its nn vector. The result is true where
the nn vector is gone, and `vctr_del` leaves it at that. -/
def breakNn (u : Nat) (v : VctrVal) : M Bool :=
  if v.hasNn = false then pure false
  else do
    byeIf (v.nnKey = 0)
    setVctr u { v with hasNn := false, nnKey := 0 }
    match (← get).vctrs v.nnKey with
    | none => pure true
    | some w => do
      byeIf (w.hasParent = false)
      setVctr v.nnKey { w with hasParent := false }
      byeIf (w.parentKey = 0)
      setVctr v.nnKey { w with hasParent := false, parentKey := 0 }
      pure false

/-- Remove the linear file and its mapping. -/
def delLma (u : Nat) (v : VctrVal) : M Unit := do
  byeIf (v.numReaders ≠ 0)
  byeIf (v.numWriters ≠ 0)
  match (← get).fs.read (lmaFile u) with
  | none => pure ()
  | some bs => do
    unlinkFile (lmaFile u)
    ignoreStatus (decrDskUsed bs.length)
  modVctr u fun v => { v with isLma := false, x := v.x.map fun m => { m with live := false } }

/-- One round of the loop that deletes the chunks. A vector in error may lack a
chunk, but then `chnk_del` fails. -/
def delRound (u : Nat) (v : VctrVal) (i : Nat) : M Unit := do
  byeIf (v.isError = false ∧ (← get).chnks (u, i) = none)
  chnkDel u i v.isPersist

/-- `for ( chnk_idx = min; chnk_idx <= max; chnk_idx++ )`, for an index of 32 bits:
where no index is above `max`, the loop comes round to 0 and on to a chunk that
it has deleted. -/
def delLoop (u : Nat) (v : VctrVal) : M Unit := do
  forUp (delRound u v) v.minChnkIdx (v.maxChnkIdx + 1 - v.minChnkIdx)
  onlyIf (v.minChnkIdx ≤ v.maxChnkIdx ∧ lmaIdx ≤ v.maxChnkIdx)
    (forUp (delRound u v) 0 (v.minChnkIdx + 1))

/-- `vctr_del`, with what it sets `*ptr_is_found` to. The id `0` is not looked up:
`isFound` is what was there. The call for the nn vector at the end is one for
the id `0`, since `nn_key` is never set. -/
def vctrDel (u : Nat) (isFound : Bool) : M Bool :=
  if u = 0 then pure isFound
  else do
    match (← get).vctrs u with
    | none => pure false
    | some v => do
      let gone ← breakNn u v
      if gone then pure true
      else if v.hasParent then pure true
      else do
        onlyIf (v.isLma ∧ v.isPersist = false) (delLma u v)
        onlyIf (v.numElements ≠ 0) (delLoop u v)
        modify (·.delVctr u)
        pure true

/-! ## what they do -/

variable {s t : St} {u i : Nat} {v : VctrVal}

/-- What `vctr_add` asks of its arguments. -/
structure AddArgs.Ok (a : AddArgs) : Prop where
  memo : a.isMemo = true ∧ 0 < a.memoLen ∨ a.isMemo = false ∧ a.memoLen = 0
  max_pos : 0 < a.maxOf
  max_dvd : 64 ∣ a.maxOf
  width_pos : a.qtype ≠ .B1 → 0 < a.widthOf

/-- `vctr_add` enters the vector it was asked for, or nothing. -/
theorem ends_vctrAdd {Q : Nat → St → Prop} {E : Err → St → Prop} (a : AddArgs)
    (hQ : a.Ok → s.vctrs (u32 (s.vctrUqid + 1)) = none → Q (u32 (s.vctrUqid + 1))
      ((s.setUqid (u32 (s.vctrUqid + 1))).setVctr (u32 (s.vctrUqid + 1)) a.entry))
    (h0 : E (.bye (-1)) s) (hE : E (.bye (-1)) (s.setUqid (u32 (s.vctrUqid + 1)))) :
    Ends (vctrAdd a) s Q E := by
  simp only [vctrAdd, vctrNewUqid, ends_bind, ends_byeIf, ends_get, ends_modify, ends_pure,
    ends_setVctr]
  refine ⟨fun _ => h0, fun _ => ⟨fun _ => hE, fun hfree => ⟨fun _ => hE, fun h1 =>
    ⟨fun _ => hE, fun h2 => ⟨fun _ => hE, fun _ => ⟨fun _ => hE, fun _ => ⟨fun _ => hE, fun _ =>
    ⟨fun _ => hE, fun _ => ⟨fun _ => hE, fun _ => ⟨fun _ => hE, fun _ => ⟨fun _ => hE, fun _ =>
    ⟨fun _ => hE, fun h3 => ⟨fun _ => hE, fun h4 => ⟨fun _ => hE, fun h5 => ?_⟩⟩⟩⟩⟩⟩⟩⟩⟩⟩⟩⟩⟩⟩
  refine hQ ⟨?_, ?_, ?_, fun hq => ?_⟩ (by simpa [St.setUqid] using hfree)
  · cases hm : a.isMemo with
    | true => exact Or.inl ⟨rfl, by simpa [hm] using h1⟩
    | false => exact Or.inr ⟨rfl, by simpa [hm] using h2⟩
  · unfold AddArgs.maxOf
    split <;> omega
  · exact ⟨a.maxOf / 64, by omega⟩
  · by_cases hsc : a.qtype = .SC
    · have : ¬ a.widthOf < 2 := fun hlt => h4 ⟨hsc, hlt⟩
      omega
    · exact Nat.pos_of_ne_zero fun h0 => h5 ⟨hsc, hq, h0⟩

/-- `chnk_del` removes its chunk and no other, whatever the chunk holds. -/
theorem ends_chnkDel_removes (p : Bool) :
    Ends (chnkDel u i p) s (fun _ t => t.vctrs = s.vctrs ∧ t.chnks = update s.chnks (u, i) none)
      fun _ _ => True := by
  have hfree : Ends (chnkFreeResources u i p) s
      (fun _ t => t.vctrs = s.vctrs ∧ ∃ c, t.chnks = update s.chnks (u, i) (some c))
      fun _ _ => True := by
    simp only [chnkFreeResources, ends_bind, ends_getChnk, ends_byeIf, implies_true, true_and]
    intro c hc _ _
    have hmem : Ends (onlyIf (c.l1Mem ≠ none) do
        decrMemUsed c.size
        setChnk u i { c with l1Mem := none }) s
        (fun _ t => t.vctrs = s.vctrs ∧ ∃ c, t.chnks = update s.chnks (u, i) (some c))
        fun _ _ => True := by
      simp only [ends_onlyIf, ends_bind, ends_setChnk]
      refine ⟨fun _ => ends_decrMemUsed (fun _ => trivial) fun n => ⟨rfl, _, rfl⟩,
        fun _ => ⟨trivial, c, ?_⟩⟩
      rw [← hc, update_eq_self]
    refine hmem.imp ?_ fun _ _ => id
    rintro - t ⟨htv, c', htc⟩
    simp only [ends_onlyIf, ends_bind, ends_l2Name, ends_unlinkFile, implies_true, true_and]
    refine ⟨fun _ f _ bs _ => ends_decrDskUsed (fun _ => trivial) fun n => ?_, fun _ =>
      ⟨htv, c', htc⟩⟩
    simp only [ends_modChnk, implies_true, true_and]
    intro c'' _
    refine ⟨htv, { c'' with l2Exists := false }, ?_⟩
    simp only [St.setChnk, St.setDsk, St.setFs, htc, update_idem]
  simp only [chnkDel, ends_bind, ends_get]
  split
  · trivial
  split
  · trivial
  rw [ends_bind]
  refine hfree.imp ?_ fun _ _ => id
  rintro - t ⟨htv, c, htc⟩
  exact ⟨htv, by simp only [St.delChnk, htc, update_idem]⟩

/-- **A vector that is deleted leaves no chunk behind**, if it had none outside
its window. -/
theorem ends_vctrDel_chnks (h0 : u ≠ 0) (hv : s.vctrs u = some v) (hnn : v.hasNn = false)
    (hp : v.hasParent = false) (hl : v.isLma = false)
    (hout : ∀ i, (v.numElements = 0 ∨ i < v.minChnkIdx ∨ v.maxChnkIdx < i) →
      s.chnks (u, i) = none) (b : Bool) :
    Ends (vctrDel u b) s (fun r t => r = true ∧ t.vctrs u = none ∧ ∀ i, t.chnks (u, i) = none)
      fun _ _ => True := by
  have hround : ∀ k t, Ends (delRound u v k) t
      (fun _ t' => t'.chnks = update t.chnks (u, k) none) fun _ _ => True := by
    intro k t
    simp only [delRound, ends_bind, ends_get, ends_byeIf, implies_true, true_and]
    intro _
    exact (ends_chnkDel_removes v.isPersist).imp (fun _ _ h => h.2) fun _ _ => id
  have hstays : ∀ k t, (∀ i, t.chnks (u, i) = none) →
      Ends (delRound u v k) t (fun _ t' => ∀ i, t'.chnks (u, i) = none) fun _ _ => True := by
    intro k t ht
    refine (hround k t).imp (fun _ t' htc i => ?_) fun _ _ => id
    rw [htc]
    by_cases hik : i = k
    · rw [hik, update_self]
    · rw [update_of_ne (by simp [hik])]
      exact ht i
  have hloop : Ends (onlyIf (v.numElements ≠ 0) (delLoop u v)) s
      (fun _ t => ∀ i, t.chnks (u, i) = none) fun _ _ => True := by
    rw [ends_onlyIf]
    refine ⟨fun _ => ?_, fun he i => hout i (Or.inl (by simpa using he))⟩
    -- the chunks below `k` are gone once the loop has come to `k`
    refine Ends.bind ((Ends.forUp (fun k t => ∀ i, i < k ∨ v.maxChnkIdx < i →
      t.chnks (u, i) = none) _ _ s (fun i hi => hout i (Or.inr hi))
      fun k t hlo hhi ht => ?_).imp (fun _ t ht i => ht i ?_) fun _ _ => id) fun _ t ht => ?_
    · refine (hround k t).imp (fun _ t' htc i hi => ?_) fun _ _ => id
      rw [htc]
      by_cases hik : i = k
      · rw [hik, update_self]
      · rw [update_of_ne (by simp [hik])]
        exact ht i (by omega)
    · omega
    · rw [ends_onlyIf]
      exact ⟨fun _ => Ends.forUp (fun _ t => ∀ i, t.chnks (u, i) = none) _ _ t ht
        fun k t' _ _ ht' => hstays k t' ht', fun _ => ht⟩
  have hno : ¬ (v.isLma = true ∧ v.isPersist = false) := by simp [hl]
  simp only [vctrDel, if_neg h0, ends_bind, ends_get, hv, breakNn, hnn, if_true, ends_pure, hp,
    Bool.false_eq_true, if_false, onlyIf, if_neg hno]
  exact hloop.imp (fun _ t ht => ⟨trivial, St.delVctr_self, ht⟩) fun _ _ => id

end QStore.Vctr
