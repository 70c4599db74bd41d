import QStore.Vctr.Calls
import QStore.Vctr.Contract
import QStore.Vctr.MemUsed
import QStore.Vctr.Trim

/-!
# QStore.Vctr.FailedPut

What an append that fails has changed.

The hash map of chunks may have to grow for a new chunk, and fail to. The appends
are given here over such a map; over one that never fails they are those of
`Put` (`put1_never`, `putn_never`, `putChunk_never`).

Each append writes to the chunk table, the counter of memory, the entry of the
vector and the `CMEM` in an order of its own, and takes nothing back. So a call
that fails has changed nothing exactly if it was turned away before the first
of them (`Append.TurnedAway`).
-/

namespace QStore.Vctr.Refusing

/-- Whether a put into the hash map of chunks fails, given the map and the key. -/
abbrev Full := (Nat × Nat → Option ChnkVal) → Nat × Nat → Bool

section Calls

variable (full : Full)

/-- `chnk_rs_hmap_put` -/
def chnkRsHmapPut (u i : Nat) (c : ChnkVal) : M Unit := do
  byeIf (full (← get).chnks (u, i) = true)
  setChnk u i c

/-- `chnk_first` -/
def chnkFirst (u : Nat) : M Unit := do
  let v ← getVctr u
  if v.numElements ≠ 0 then pure ()
  else do
    let b ← memalign v.chnkSize
    incrMem v.chnkSize
    chnkRsHmapPut full u 0 (freshChnk v v.chnkSize b)

/-- The middle of `vctr_put1`: the entry of the vector follows the chunk. -/
def chnkToPut1 (u : Nat) (v : VctrVal) : M Nat := do
  let c ← getChnk u v.maxChnkIdx
  byeIf (c.l1Mem = none)
  if c.numElements = v.maxNumInChnk then do
    let b ← memalign v.chnkSize
    ignoreStatus (incrMem v.chnkSize)
    chnkRsHmapPut full u (u32 (v.maxChnkIdx + 1)) (freshChnk v v.chnkSize b)
    modVctr u fun w => { w with maxChnkIdx := u32 (v.maxChnkIdx + 1) }
    pure (u32 (v.maxChnkIdx + 1))
  else pure v.maxChnkIdx

/-- The middle of `vctr_putn`: the entry of the vector comes first. -/
def chnkToPutn (u : Nat) (v : VctrVal) : M Nat := do
  let c ← getChnk u v.maxChnkIdx
  byeIf (c.l1Mem = none)
  if c.numElements = v.maxNumInChnk then do
    modVctr u fun w => { w with maxChnkIdx := u32 (v.maxChnkIdx + 1) }
    let b ← memalign v.chnkSize
    ignoreStatus (incrMem v.chnkSize)
    chnkRsHmapPut full u (u32 (v.maxChnkIdx + 1)) (freshChnk v v.chnkSize b)
    pure (u32 (v.maxChnkIdx + 1))
  else pure v.maxChnkIdx

/-- `vctr_put1` from the chunk on. -/
def putSclr (u : Nat) (v : VctrVal) (i : Nat) (sclr : List UInt8) : M Unit := do
  let c ← getChnk u i
  match c.l1Mem with
  | none => ub
  | some b => do
    let b ← poke b (u32 (c.numElements * v.width)) (List.replicate v.width 0)
    let x ← sclrBytes v sclr
    let b ← poke b (u32 (c.numElements * v.width)) x
    modVctr u fun v => { v with numElements := v.numElements + 1 }
    setChnk u i { c with l1Mem := some b, numElements := c.numElements + 1 }
    vctrMemo u

/-- `vctr_put1` -/
def vctrPut1 (u : Nat) (sclr : List UInt8) : M Unit := do
  byeIf (u = 0)
  let v ← getVctr u
  byeIf v.isEov
  chnkFirst full u
  let v ← getVctr u
  let i ← chnkToPut1 full u v
  putSclr u v i sclr

/-- A round of `vctr_putn` from the chunk on. -/
def putElems (u : Nat) (v : VctrVal) (i : Nat) (X : List UInt8) (n : Nat) : M (Nat × Nat) := do
  let c ← getChnk u i
  match c.l1Mem with
  | none => ub
  | some b => do
    let space := u32 (v.maxNumInChnk + 2 ^ 32 - c.numElements)
    let k := if n > space then space else n
    let x ← takeN X (u32 (k * v.width))
    let b ← poke b (u32 (c.numElements * v.width)) x
    modVctr u fun v => { v with numElements := v.numElements + k }
    setChnk u i { c with l1Mem := some b, numElements := c.numElements + k }
    pure (k, u32 (k * v.width))

/-- `vctr_putn` up to its recursive call. -/
def putnRound (u : Nat) (X : List UInt8) (n : Nat) : M (Nat × Nat) := do
  byeIf (u = 0)
  byeIf (n = 0)
  let v ← getVctr u
  byeIf v.isEov
  chnkFirst full u
  let i ← chnkToPutn full u v
  putElems u v i X n

/-- `vctr_putn`, with a bound on the depth of its recursion. -/
def vctrPutnLoop : Nat → Nat → List UInt8 → Nat → M Unit
  | 0, _, _, _ => ub
  | depth + 1, u, X, n => do
    let (k, nbytes) ← putnRound full u X n
    onlyIf (n > k) (vctrPutnLoop depth u (X.drop nbytes) (n - k))
    vctrMemo u

/-- `vctr_putn` -/
def vctrPutn (u : Nat) (X : List UInt8) (n : Nat) : M Unit := vctrPutnLoop full (n + 1) u X n

/-- The part of `vctr_put_chunk` in which the chunk enters the vector. -/
def putChunkEnter (u n : Nat) (r : Taken) : M Unit := do
  chnkRsHmapPut full u r.idx (putChnk r.vctr r.size r.l1Mem n)
  modVctr u fun v => { v with numElements := v.numElements + n, maxChnkIdx := r.idx }
  vctrMemo u
  modVctr u fun w => { w with isEov := decide (n < r.vctr.maxNumInChnk) }

/-- A call that does not look at the `CMEM`. -/
def onSt {α : Type} (m : M α) : EStateM Err (St × Cmem) α := fun s =>
  match m s.1 with
  | .ok a t => .ok a (t, s.2)
  | .error e t => .error e (t, s.2)

/-- `vctr_put_chunk`. The `CMEM` is part of the state: what was done to it stays
done when a later step fails. -/
def vctrPutChunk (u n : Nat) : EStateM Err (St × Cmem) Unit := do
  let r ← onSt (putChunkTake u (← get).2 n)
  modify fun s => (s.1, r.cmem)
  onSt (putChunkEnter full u n r)

/-- The three ways to append. -/
inductive Append
  | put1 (sclr : List UInt8)
  | putn (X : List UInt8) (n : Nat)
  | putChunk (n : Nat)

def Append.run (u : Nat) : Append → EStateM Err (St × Cmem) Unit
  | put1 sclr => onSt (vctrPut1 full u sclr)
  | putn X n => onSt (vctrPutn full u X n)
  | putChunk n => vctrPutChunk full u n

end Calls

/-! ## when a call fails early -/

/-- The tables of vectors, chunks and files and the counter of memory are as they were. -/
structure Intact (s t : St) : Prop where
  vctrs : t.vctrs = s.vctrs
  chnks : t.chnks = s.chnks
  fs : t.fs = s.fs
  memUsed : t.memUsed = s.memUsed

theorem Intact.refl {s : St} : Intact s s := ⟨rfl, rfl, rfl, rfl⟩

/-- Nothing has been charged for a chunk of `size` bytes that does not enter the table. -/
def Denied (full : Full) (s : St) (size : Nat) (k : Nat × Nat) : Prop :=
  s.RefusesMem size ∧ (size = 0 ∨ size > 1024 * 1048576 ∨ full s.chnks k = true)

/-- There is no memory to append to. -/
def NoLast (s : St) (u : Nat) (v : VctrVal) : Prop :=
  ∀ c, s.chnks (u, v.maxChnkIdx) = some c → c.l1Mem = none

/-- The last chunk is full, the next does not enter the table, and nothing has been
charged for it. -/
def NoNext (full : Full) (s : St) (u : Nat) (v : VctrVal) : Prop :=
  (s.chnks (u, v.maxChnkIdx)).map ChnkVal.numElements = some v.maxNumInChnk ∧
    s.RefusesMem v.chnkSize ∧ full s.chnks (u, u32 (v.maxChnkIdx + 1)) = true

/-- What `vctr_put_chunk` finds wrong with its arguments. -/
def BadChunk (v : VctrVal) (cmem : Cmem) (n : Nat) : Prop :=
  n > v.maxNumInChnk ∨ u32 cmem.size = 0 ∨ (v.qtype ≠ .B1 ∧ u32 cmem.size ≠ v.chnkSize) ∨
    v.numElements / v.maxNumInChnk * v.maxNumInChnk ≠ v.numElements

/-- The append to a vector is turned away before it has written anything. -/
def Append.Early (full : Full) (s : St) (cmem : Cmem) (u : Nat) (v : VctrVal) : Append → Prop
  | put1 _ => v.isEov = true ∨
      (v.numElements = 0 ∧ Denied full s v.chnkSize (u, 0)) ∨
      (v.numElements ≠ 0 ∧ (NoLast s u v ∨ NoNext full s u v))
  | putn _ n => n = 0 ∨ v.isEov = true ∨
      (v.numElements = 0 ∧ Denied full s v.chnkSize (u, 0)) ∨
      (v.numElements ≠ 0 ∧ NoLast s u v)
  | putChunk n => n = 0 ∨ v.isEov = true ∨ BadChunk v cmem n ∨
      (¬ (n < v.maxNumInChnk ∧ v.Moves v.maxChnkIdx) ∧
        ((cmem.isStealable = true ∧ cmem.isForeign = true) ∨
          (cmem.isStealable = false ∧ Denied full s (u32 cmem.size)
            (u, if v.numElements = 0 then 0 else u32 (v.maxChnkIdx + 1)))))

/-- The same, where there may be no such vector. -/
def Append.TurnedAway (full : Full) (s : St) (cmem : Cmem) (u : Nat) (a : Append) : Prop :=
  u = 0 ∨ ∀ v, s.vctrs u = some v → a.Early full s cmem u v

/-- The entry of a vector and that of its last chunk are in order. -/
structure Sane (s : St) (u : Nat) (v : VctrVal) : Prop where
  max_pos : 0 < v.maxNumInChnk
  max_lt : v.maxNumInChnk < 2 ^ 32
  empty : v.numElements = 0 → v.maxChnkIdx = 0
  count : ∀ c, s.chnks (u, v.maxChnkIdx) = some c → c.numElements ≤ v.maxNumInChnk

/-- Every vector that has been appended to is. -/
theorem sane_of_vec {s : St} {u : Nat} {v : VctrVal} {D : List UInt8} (h : Vec s u v D) :
    Sane s u v where
  max_pos := h.shape.max_pos
  max_lt := Nat.lt_of_le_of_lt (Nat.le_mul_of_pos_left _ h.shape.width_pos) h.shape.size_lt
  empty h0 := (h.shape.maxChnkIdx_of_empty h0).1
  count c hc := by
    by_cases h0 : v.numElements = 0
    · rw [h.empty h0] at hc
      contradiction
    · have hh := (h.held (Nat.pos_of_ne_zero h0)).1
      rw [(hh.chnkOk hc).numElements_eq h.shape]
      exact Nat.min_le_left _ _

variable {full : Full} {s t : St} {u i n N : Nat} {v : VctrVal} {c : ChnkVal} {x : List UInt8}

/-! ## the counter of memory -/

/-- The counter after `incr_mem_used`. -/
def charged (s : St) (x : Nat) : Nat := if s.RefusesMem x then s.memUsed else u64 (s.memUsed + x)

/-- The state after an `incr_mem_used` whose status is not looked at. -/
def charge (s : St) (x : Nat) : St :=
  { s with memUsed := charged s x, refused := s.refused || decide (s.RefusesMem x) }

theorem charged_eq_iff {x : Nat} : charged s x = s.memUsed ↔ s.RefusesMem x := by
  unfold charged
  split
  · next h => exact iff_of_true rfl h
  · next h =>
    refine iff_of_false (fun he => ?_) h
    unfold St.RefusesMem at h
    unfold u64 at he
    omega

theorem ends_incrMem_charge {Q : Unit → St → Prop} {E : Err → St → Prop} {x : Nat}
    (hE : x = 0 ∨ x > 1024 * 1048576 → E (.bye (-1)) (charge s x))
    (hQ : ¬ (x = 0 ∨ x > 1024 * 1048576) → Q () (charge s x)) : Ends (incrMem x) s Q E := by
  have hnote : (if s.RefusesMem x then s.setRefused true else s) =
      s.setRefused (s.refused || decide (s.RefusesMem x)) := by
    by_cases hr : s.RefusesMem x <;> simp [hr, St.setRefused]
  rw [incrMem, ends_bind, ends_modify, hnote]
  simp only [incrMemUsed, ends_bind, ends_byeIf, ends_modify]
  have hbad : x = 0 ∨ x > 1024 * 1048576 →
      s.setRefused (s.refused || decide (s.RefusesMem x)) = charge s x := by
    intro hz
    have hr : s.RefusesMem x := hz.imp_right Or.inl
    simp only [charge, charged, if_pos hr]
    rfl
  refine ⟨fun h0 => ?_, fun h0 => ⟨fun h1 => ?_, fun h1 => ?_⟩⟩
  · rw [hbad (Or.inl h0)]
    exact hE (Or.inl h0)
  · rw [hbad (Or.inr h1)]
    exact hE (Or.inr h1)
  · have hz : ¬ (x = 0 ∨ x > 1024 * 1048576) := fun h => h.elim h0 h1
    have hover : s.RefusesMem x ↔ u64 (x + s.memUsed) > s.memAllowed := by
      unfold St.RefusesMem
      tauto
    have hq := hQ hz
    change Q () (if u64 (x + s.memUsed) > s.memAllowed then _ else _)
    by_cases hgt : u64 (x + s.memUsed) > s.memAllowed
    · rw [if_pos hgt]
      simp only [charge, charged, if_pos (hover.mpr hgt)] at hq
      exact hq
    · rw [if_neg hgt]
      simp only [charge, charged, if_neg fun h => hgt (hover.mp h)] at hq
      exact hq

theorem ends_ignore_incrMem_charge {Q : Unit → St → Prop} {E : Err → St → Prop} {x : Nat} :
    Ends (ignoreStatus (incrMem x)) s Q E ↔ Q () (charge s x) := by
  have hspec : Ends (ignoreStatus (incrMem x)) s (fun _ t => t = charge s x)
      fun _ _ => False := by
    rw [ends_ignoreStatus]
    exact ends_incrMem_charge (fun _ => rfl) fun _ => rfl
  obtain ⟨⟨⟩, t, ht, rfl⟩ := hspec.returns
  rw [Ends, ht]

theorem ends_chnkRsHmapPut {Q : Unit → St → Prop} {E : Err → St → Prop} :
    Ends (chnkRsHmapPut full u i c) s Q E ↔
      (full s.chnks (u, i) = true → E (.bye (-1)) s) ∧
        (¬ full s.chnks (u, i) = true → Q () (s.setChnk u i c)) := by
  rw [chnkRsHmapPut, ends_bind, ends_get, ends_bind, ends_byeIf]
  rfl

/-! ## over a map that never fails -/

/-- The map takes every chunk. -/
def never : Full := fun _ _ => false

/-- `vctr_put1` is that of `Put`. -/
theorem put1_never : vctrPut1 never u x = Vctr.vctrPut1 u x := rfl

/-- Whether the entry of the vector or the chunk comes first makes no difference. -/
theorem chnkToPutn_never (hv : s.vctrs u = some v) {w : VctrVal} :
    chnkToPutn never u w s = chnkToPut u w s := by
  refine bind_congr_at fun c t hc => bind_congr_at fun _ t' ht' => ?_
  have hs : t' = s := by
    have h1 : Ends (getChnk u w.maxChnkIdx) s (fun _ t => t = s) fun _ _ => True := by
      simp
    have h2 : Ends (byeIf (c.l1Mem = none)) t (fun _ t' => t' = t) fun _ _ => True := by
      simp
    exact (h2.of_ok ht').trans (h1.of_ok hc)
  subst hs
  by_cases hfull : c.numElements = w.maxNumInChnk
  · rw [if_pos hfull, if_pos hfull]
    generalize hi : u32 (w.maxChnkIdx + 1) = i
    -- both ways end in one state
    have hput : Ends (do
        modVctr u fun w => { w with maxChnkIdx := i }
        let b ← memalign w.chnkSize
        ignoreStatus (incrMem w.chnkSize)
        chnkRsHmapPut never u i (freshChnk w w.chnkSize b)
        pure i) t' (fun j r => j = i ∧ r = (charge (t'.setVctr u { v with maxChnkIdx := i }).bump
          w.chnkSize).setChnk u i (freshChnk w w.chnkSize
            ⟨t'.brk, List.replicate w.chnkSize t'.junk⟩)) fun _ _ => False := by
      rw [ends_bind, ends_modVctr_of hv, ends_bind, ends_memalign, ends_bind,
        ends_ignore_incrMem_charge, ends_bind, ends_chnkRsHmapPut]
      exact ⟨fun h => by contradiction, fun _ => ⟨rfl, rfl⟩⟩
    have hput' : Ends (do
        let b ← memalign w.chnkSize
        ignoreStatus (incrMem w.chnkSize)
        setChnk u i (freshChnk w w.chnkSize b)
        modVctr u fun w => { w with maxChnkIdx := i }
        pure i) t' (fun j r => j = i ∧ r = (charge (t'.setVctr u { v with maxChnkIdx := i }).bump
          w.chnkSize).setChnk u i (freshChnk w w.chnkSize
            ⟨t'.brk, List.replicate w.chnkSize t'.junk⟩)) fun _ _ => False := by
      rw [ends_bind, ends_memalign, ends_bind, ends_ignore_incrMem_charge, ends_bind, ends_setChnk,
        ends_bind]
      refine (ends_modVctr_of (v := v) (by exact hv)).mpr ?_
      exact ⟨rfl, rfl⟩
    obtain ⟨j, r, hrun, rfl, rfl⟩ := hput.returns
    obtain ⟨j', r', hrun', rfl, rfl⟩ := hput'.returns
    exact hrun.trans hrun'.symm
  · rw [if_neg hfull, if_neg hfull]


theorem putnRound_never {X : List UInt8} :
    putnRound never u X n s = Vctr.putnRound u X n s := by
  refine bind_congr_at fun _ t₁ h₁ => bind_congr_at fun _ t₂ h₂ => bind_congr_at fun v t₃ h₃ => ?_
  refine bind_congr_at fun _ t₄ h₄ => bind_congr_at fun _ t₅ h₅ => ?_
  have hv : t₅.vctrs u = some v := by
    have h : t₃ = t₂ ∧ t₂.vctrs u = some v := by
      have hspec : Ends (getVctr u) t₂ (fun v t => t = t₂ ∧ t₂.vctrs u = some v)
          fun _ _ => True := by
        simp
      exact hspec.of_ok h₃
    have heov : t₄.vctrs = t₃.vctrs := (keeps_byeIf (f := St.vctrs) t₃).of_ok h₄
    have hfirst : t₅.vctrs = t₄.vctrs := (keeps_chnkFirst t₄).of_ok h₅
    rw [hfirst, heov, h.1, h.2]
  have hput := chnkToPutn_never hv (w := v)
  simp only [bind, EStateM.bind, hput]
  rfl

/-- `vctr_putn` is that of `Put`. -/
theorem putn_never {X : List UInt8} : vctrPutn never u X n s = Vctr.vctrPutn u X n s := by
  have hloop : ∀ (depth n : Nat) (X : List UInt8) (s : St),
      vctrPutnLoop never depth u X n s = Vctr.vctrPutnLoop depth u X n s := by
    intro depth
    induction depth with
    | zero => exact fun _ _ _ => rfl
    | succ depth ih =>
        intro n X s
        have hrest : ∀ r : Nat × Nat, vctrPutnLoop never depth u (X.drop r.2) (n - r.1) =
            Vctr.vctrPutnLoop depth u (X.drop r.2) (n - r.1) :=
          fun r => funext fun t => ih _ _ t
        rw [vctrPutnLoop, Vctr.vctrPutnLoop]
        simp only [bind, EStateM.bind, putnRound_never, hrest]
  exact hloop _ _ _ _

/-- `vctr_put_chunk` is that of `Put`, and leaves the `CMEM` as that one returns it. -/
theorem putChunk_never {cmem cmem' : Cmem} {e : Err} :
    (vctrPutChunk never u n (s, cmem) = .ok () (t, cmem') ↔
      Vctr.vctrPutChunk u cmem n s = .ok cmem' t) ∧
    ((∃ cmem', vctrPutChunk never u n (s, cmem) = .error e (t, cmem')) ↔
      Vctr.vctrPutChunk u cmem n s = .error e t) := by
  have henter : ∀ r, putChunkEnter never u n r = Vctr.putChunkEnter u n r := fun _ => rfl
  have hget : (get : EStateM Err (St × Cmem) (St × Cmem)) (s, cmem) = .ok (s, cmem) (s, cmem) :=
    rfl
  have hmodify : ∀ (f : St × Cmem → St × Cmem) r,
      (modify f : EStateM Err (St × Cmem) Unit) r = .ok () (f r) := fun _ _ => rfl
  simp only [vctrPutChunk, Vctr.vctrPutChunk, onSt, bind, EStateM.bind, hget, hmodify, henter]
  cases putChunkTake u cmem n s with
  | error e' r => simp
  | ok r s' =>
      simp only
      cases Vctr.putChunkEnter u n r s' with
      | error e' r' => simp
      | ok r' s'' => simp [pure, EStateM.pure, and_comm]

/-! ## elements that have been written -/

/-- The vector has at least `N` elements. -/
def Grew (u N : Nat) (s : St) : Prop := ∃ w, s.vctrs u = some w ∧ N ≤ w.numElements

theorem Grew.not_intact (h : Grew u N t) (hv : s.vctrs u = some v) (hN : v.numElements < N) :
    ¬ Intact s t := by
  intro hi
  obtain ⟨w, hw, hle⟩ := h
  rw [hi.vctrs, hv] at hw
  obtain rfl := Option.some.inj hw
  exact absurd hle (Nat.not_le_of_lt hN)

section Stays

variable {α : Type}

theorem stays_of {m : M α} (h : Keeps St.vctrs m) : Stays (Grew u N) m :=
  h.stays (I := fun f => ∃ w, f u = some w ∧ N ≤ w.numElements) fun _ => Iff.rfl

theorem stays_modVctr {g : VctrVal → VctrVal} (hg : ∀ v, v.numElements ≤ (g v).numElements) :
    Stays (Grew u N) (modVctr u g) := by
  rintro s ⟨w, hw, hle⟩
  rw [ends_modVctr_of hw]
  exact ⟨g w, St.setVctr_self, Nat.le_trans hle (hg w)⟩

theorem stays_vctrMemo : Stays (Grew u N) (vctrMemo u) := by
  refine (stays_of keeps_getVctr).bind fun v => Stays.ite (fun _ => stays_of keeps_pure) fun _ => ?_
  refine Stays.ite (fun _ => stays_of keeps_pure) fun _ => Stays.ite (fun _ => ?_) fun _ =>
    stays_of keeps_pure
  refine (stays_of (keeps_memoLoop _ _ _)).bind fun st => ?_
  refine Stays.bind (stays_modVctr fun _ => by exact Nat.le_refl _) fun _ => ?_
  exact Stays.ite (fun _ => stays_of keeps_throw) fun _ => stays_of keeps_pure

theorem keeps_chnkRsHmapPut : Keeps St.vctrs (chnkRsHmapPut full u i c) :=
  keeps_get.bind fun _ => keeps_byeIf.bind fun _ => keeps_setChnk

theorem keeps_first : Keeps St.vctrs (chnkFirst full u) :=
  keeps_getVctr.bind fun _ => Keeps.ite (fun _ => keeps_pure) fun _ =>
    keeps_memalign.bind fun _ => keeps_incrMem.bind fun _ => keeps_chnkRsHmapPut

theorem stays_chnkToPutn : Stays (Grew u N) (chnkToPutn full u v) := by
  refine (stays_of keeps_getChnk).bind fun c => (stays_of keeps_byeIf).bind fun _ =>
    Stays.ite (fun _ => ?_) fun _ => stays_of keeps_pure
  refine Stays.bind (stays_modVctr fun _ => by exact Nat.le_refl _) fun _ => stays_of ?_
  exact keeps_memalign.bind fun b => (keeps_ignoreStatus keeps_incrMem).bind fun _ =>
    keeps_chnkRsHmapPut.bind fun _ => keeps_pure

theorem stays_putElems {X : List UInt8} : Stays (Grew u N) (putElems u v i X n) := by
  refine (stays_of keeps_getChnk).bind fun c => ?_
  cases c.l1Mem with
  | none => exact stays_of keeps_throw
  | some b =>
      refine (stays_of keeps_takeN).bind fun x => (stays_of keeps_poke).bind fun b => ?_
      exact Stays.bind (stays_modVctr fun _ => by exact Nat.le_add_right _ _) fun _ =>
        stays_of (keeps_setChnk.bind fun _ => keeps_pure)

/-- However far `vctr_putn` gets, no element goes. -/
theorem stays_vctrPutnLoop (depth n : Nat) (X : List UInt8) :
    Stays (Grew u N) (vctrPutnLoop full depth u X n) := by
  induction depth generalizing n X with
  | zero => exact stays_of keeps_throw
  | succ depth ih =>
      have hround : Stays (Grew u N) (putnRound full u X n) := by
        refine (stays_of keeps_byeIf).bind fun _ => (stays_of keeps_byeIf).bind fun _ => ?_
        refine (stays_of keeps_getVctr).bind fun v => (stays_of keeps_byeIf).bind fun _ => ?_
        exact (stays_of keeps_first).bind fun _ => stays_chnkToPutn.bind fun _ => stays_putElems
      refine hround.bind fun r => Stays.bind ?_ fun _ => stays_vctrMemo
      exact Stays.ite (fun _ => ih _ _) fun _ => stays_of keeps_pure

end Stays

/-- `vctr_put1` past the opening of a chunk has appended its element when it fails. -/
theorem ends_putSclr {w : VctrVal} (hv : s.vctrs u = some v) (hc : s.chnks (u, i) = some c) :
    Ends (putSclr u w i x) s (fun _ _ => True)
      fun e t => e = .ub ∨ Grew u (v.numElements + 1) t := by
  rw [putSclr, ends_bind, ends_getChnk_of hc]
  cases c.l1Mem with
  | none => exact Or.inl rfl
  | some b =>
      simp only [ends_bind, ends_poke, sclrBytes, ends_ite, ends_pure, ends_takeN]
      have htail : ∀ b : Buf, Ends (modVctr u fun v => { v with numElements := v.numElements + 1 }) s
          (fun _ t => Ends (setChnk u i { c with l1Mem := some b, numElements := c.numElements + 1 }) t
            (fun _ t => Ends (vctrMemo u) t (fun _ _ => True)
              fun e t => e = .ub ∨ Grew u (v.numElements + 1) t)
            fun e t => e = .ub ∨ Grew u (v.numElements + 1) t)
          fun e t => e = .ub ∨ Grew u (v.numElements + 1) t := by
        intro b
        rw [ends_modVctr_of hv, ends_setChnk]
        refine (stays_vctrMemo _ ?_).imp (fun _ _ _ => trivial) fun _ _ => Or.inr
        exact ⟨_, by rw [St.setChnk_vctrs, St.setVctr_self], Nat.le_refl _⟩
      refine ⟨fun _ => ⟨fun _ => ?_, fun _ => ⟨fun _ => ?_, fun _ => Or.inl trivial⟩⟩,
        fun _ => Or.inl trivial⟩
      · exact ⟨fun _ => htail _, fun _ => Or.inl trivial⟩
      · exact ⟨fun _ => htail _, fun _ => Or.inl trivial⟩

/-! ## opening a chunk -/

/-- A call that fails has changed nothing exactly if `P`. -/
def Tells (P : Prop) (s : St) (e : Err) (t : St) : Prop := e ≠ .ub → (Intact s t ↔ P)

section Tells

variable {P : Prop} {e : Err}

theorem Tells.refl (hP : P) : Tells P s e s := fun _ => iff_of_true .refl hP

theorem Tells.of_grew (h : e = .ub ∨ Grew u N t) (hv : s.vctrs u = some v)
    (hN : v.numElements < N) (hP : ¬ P) : Tells P s e t :=
  fun hub => iff_of_false ((h.resolve_left hub).not_intact hv hN) hP

end Tells

theorem turnedAway_iff {a : Append} {cmem : Cmem} (hu : u ≠ 0) (hv : s.vctrs u = some v) :
    a.TurnedAway full s cmem u ↔ a.Early full s cmem u v := by
  refine ⟨fun h => h.resolve_left hu v hv, fun h => Or.inr fun w hw => ?_⟩
  obtain rfl := Option.some.inj (hv.symm.trans hw)
  exact h

/-- A chunk for which memory has been charged, or has not, does not enter the table. -/
theorem intact_charge {size : Nat} : Intact s (charge s.bump size) ↔ s.RefusesMem size := by
  constructor
  · intro h
    exact charged_eq_iff (s := s.bump).mp h.memUsed
  · intro h
    exact ⟨rfl, rfl, rfl, charged_eq_iff (s := s.bump).mpr h⟩

theorem ends_chnkFirst_empty (hv : s.vctrs u = some v) (h0 : v.numElements = 0) :
    Ends (chnkFirst full u) s
      (fun _ t => ¬ Denied full s v.chnkSize (u, 0) ∧ t.vctrs = s.vctrs ∧
        ∃ b, t.chnks (u, 0) = some (freshChnk v v.chnkSize b))
      (Tells (Denied full s v.chnkSize (u, 0)) s) := by
  rw [chnkFirst, ends_bind, ends_getVctr_of hv, if_neg (by simp [h0]), ends_bind, ends_memalign,
    ends_bind]
  refine ends_incrMem_charge (fun hz _ => ?_) fun hz => ?_
  · have hr : s.RefusesMem v.chnkSize := hz.imp_right Or.inl
    exact iff_of_true (intact_charge.mpr hr) ⟨hr, hz.imp_right Or.inl⟩
  · have hdenied : Denied full s v.chnkSize (u, 0) ↔
        s.RefusesMem v.chnkSize ∧ full s.chnks (u, 0) = true := by
      unfold Denied
      tauto
    rw [ends_chnkRsHmapPut, hdenied]
    refine ⟨fun hf _ => ?_, fun hf => ⟨fun h => hf h.2, rfl, _, St.setChnk_self⟩⟩
    rw [intact_charge]
    exact ⟨fun h => ⟨h, hf⟩, fun h => h.1⟩

/-- The first chunk is opened, and has room. -/
theorem Sane.ends_chnkFirst (hs : Sane s u v) (hv : s.vctrs u = some v) (h0 : v.numElements = 0) :
    Ends (chnkFirst full u) s
      (fun _ t => ¬ Denied full s v.chnkSize (u, 0) ∧ t.vctrs u = some v ∧
        ∃ b, t.chnks (u, v.maxChnkIdx) = some (freshChnk v v.chnkSize b))
      (Tells (Denied full s v.chnkSize (u, 0)) s) := by
  refine (ends_chnkFirst_empty hv h0).imp ?_ fun _ _ => id
  rintro - t ⟨hd, htv, b, hc⟩
  refine ⟨hd, by rw [htv, hv], b, ?_⟩
  rw [hs.empty h0]
  exact hc

theorem ends_chnkFirst_idle (hv : s.vctrs u = some v) (h0 : v.numElements ≠ 0) :
    Ends (chnkFirst full u) s (fun _ t => t = s) fun _ _ => False := by
  rw [chnkFirst, ends_bind, ends_getVctr_of hv, if_pos h0]
  rfl

theorem not_noLast (hc : s.chnks (u, v.maxChnkIdx) = some c) (hl : c.l1Mem ≠ none) :
    ¬ NoLast s u v := fun h => hl (h c hc)

theorem ends_chnkToPut1 (hv : s.vctrs u = some v) :
    Ends (chnkToPut1 full u v) s
      (fun i t => ¬ (NoLast s u v ∨ NoNext full s u v) ∧ (t.chnks (u, i)).isSome = true ∧
        ∃ w, t.vctrs u = some w ∧ w.numElements = v.numElements)
      (Tells (NoLast s u v ∨ NoNext full s u v) s) := by
  rw [chnkToPut1, ends_bind, ends_getChnk]
  refine ⟨fun hnone => .refl (Or.inl fun c hc => ?_), fun c hc => ?_⟩
  · rw [hnone] at hc
    contradiction
  rw [ends_bind, ends_byeIf]
  refine ⟨fun hl => .refl (Or.inl fun c' hc' => ?_), fun hl => ?_⟩
  · rw [hc] at hc'
    obtain rfl := Option.some.inj hc'
    exact hl
  have hlast := not_noLast hc hl
  rw [ends_ite]
  refine ⟨fun hfull => ?_, fun hroom => ⟨?_, by rw [hc]; rfl, v, hv, rfl⟩⟩
  · have hnext : NoLast s u v ∨ NoNext full s u v ↔
        s.RefusesMem v.chnkSize ∧ full s.chnks (u, u32 (v.maxChnkIdx + 1)) = true := by
      rw [or_iff_right hlast, NoNext, hc, Option.map_some, hfull]
      exact and_iff_right rfl
    rw [hnext, ends_bind, ends_memalign, ends_bind, ends_ignore_incrMem_charge, ends_bind,
      ends_chnkRsHmapPut]
    refine ⟨fun hf _ => ?_, fun hf => ?_⟩
    · rw [intact_charge]
      exact ⟨fun h => ⟨h, hf⟩, fun h => h.1⟩
    · refine (ends_bind (m := modVctr u _)).mpr ?_
      refine (ends_modVctr_of (v := v) (by exact hv)).mpr ?_
      exact ⟨fun h => hf h.2, by rw [St.setVctr_chnks, St.setChnk_self]; rfl, _, St.setVctr_self, rfl⟩
  · rintro (h | ⟨hn, -⟩)
    · exact hlast h
    · rw [hc, Option.map_some] at hn
      exact hroom (Option.some.inj hn)

/-- The opening of a chunk by `vctr_putn` is not taken back if it fails. -/
theorem ends_chnkToPutn (hv : s.vctrs u = some v) (hmax : 0 < v.maxNumInChnk)
    (hcount : ∀ c, s.chnks (u, v.maxChnkIdx) = some c → c.numElements ≤ v.maxNumInChnk) :
    Ends (chnkToPutn full u v) s
      (fun i t => ¬ NoLast s u v ∧
        (∃ c, t.chnks (u, i) = some c ∧ c.numElements < v.maxNumInChnk) ∧
        ∃ w, t.vctrs u = some w ∧ w.numElements = v.numElements)
      (Tells (NoLast s u v) s) := by
  rw [chnkToPutn, ends_bind, ends_getChnk]
  refine ⟨fun hnone => .refl fun c hc => ?_, fun c hc => ?_⟩
  · rw [hnone] at hc
    contradiction
  rw [ends_bind, ends_byeIf]
  refine ⟨fun hl => .refl fun c' hc' => ?_, fun hl => ?_⟩
  · rw [hc] at hc'
    obtain rfl := Option.some.inj hc'
    exact hl
  have hlast := not_noLast hc hl
  have hle := hcount c hc
  rw [ends_ite]
  refine ⟨fun hfull => ?_, fun hroom => ⟨hlast, ⟨c, hc, by omega⟩, v, hv, rfl⟩⟩
  rw [ends_bind, ends_modVctr_of hv, ends_bind, ends_memalign, ends_bind,
    ends_ignore_incrMem_charge, ends_bind, ends_chnkRsHmapPut]
  refine ⟨fun hf _ => iff_of_false (fun hi => ?_) hlast, fun hf => ?_⟩
  · -- the entry of the vector has moved on
    have hmoved := congrFun hi.vctrs u
    rw [hv] at hmoved
    have hself : (charge (s.setVctr u { v with maxChnkIdx := u32 (v.maxChnkIdx + 1) }).bump
        v.chnkSize).vctrs u = some { v with maxChnkIdx := u32 (v.maxChnkIdx + 1) } :=
      St.setVctr_self
    rw [hself] at hmoved
    have hidx := congrArg VctrVal.maxChnkIdx (Option.some.inj hmoved)
    simp only [u32] at hidx
    omega
  · rw [ends_pure]
    exact ⟨hlast, ⟨_, St.setChnk_self, hmax⟩, _, St.setVctr_self, rfl⟩

/-! ## the three ways to append -/

theorem ends_vctrPut1_tells {cmem : Cmem} (h : ∀ v, s.vctrs u = some v → Sane s u v) :
    Ends (vctrPut1 full u x) s (fun _ _ => True)
      (Tells ((Append.put1 x).TurnedAway full s cmem u) s) := by
  rw [vctrPut1, ends_bind, ends_byeIf]
  refine ⟨fun hu => .refl (Or.inl hu), fun hu => ?_⟩
  rw [ends_bind, ends_getVctr]
  refine ⟨fun hnone => .refl (Or.inr fun v hv => ?_), fun v hv => ?_⟩
  · rw [hnone] at hv
    contradiction
  rw [turnedAway_iff hu hv, ends_bind, ends_byeIf]
  refine ⟨fun he => .refl (Or.inl he), fun he => ?_⟩
  have hs := h v hv
  rw [Append.Early, or_iff_right he, ends_bind]
  by_cases h0 : v.numElements = 0
  · -- the first chunk is opened, and has room
    rw [or_iff_left (fun hn => hn.1 h0), and_iff_right h0]
    refine (hs.ends_chnkFirst hv h0).imp ?_ fun _ _ => id
    rintro - t ⟨hd, hv', b, hc'⟩
    have hroom : ¬ 0 = v.maxNumInChnk := Nat.ne_of_lt hs.max_pos
    rw [ends_bind, ends_getVctr_of hv', ends_bind, chnkToPut1, ends_bind, ends_getChnk_of hc',
      ends_bind, ends_byeIf_neg (by simp [freshChnk])]
    refine ends_ite.mpr ⟨fun hfull => absurd hfull hroom, fun _ => ?_⟩
    exact (ends_putSclr hv' hc').imp (fun _ _ => id) fun e r hr =>
      .of_grew hr hv (Nat.lt_succ_self _) hd
  · rw [or_iff_right fun hn => h0 hn.1, and_iff_right h0]
    refine (ends_chnkFirst_idle hv h0).imp ?_ fun _ _ => False.elim
    rintro - t rfl
    rw [ends_bind, ends_getVctr_of hv, ends_bind]
    refine (ends_chnkToPut1 hv).imp ?_ fun _ _ => id
    rintro i r ⟨hd, hfound, w, hw, hnum⟩
    obtain ⟨c, hc⟩ := Option.isSome_iff_exists.mp hfound
    exact (ends_putSclr hw hc).imp (fun _ _ => id) fun e r hr =>
      .of_grew hr hv (by omega) hd

/-- A round of `vctr_putn` past the opening of a chunk appends an element. -/
theorem ends_putElems {w : VctrVal} {X : List UInt8} (hv : s.vctrs u = some v)
    (hc : s.chnks (u, i) = some c) (hn : n ≠ 0) (hmax : w.maxNumInChnk < 2 ^ 32)
    (hroom : c.numElements < w.maxNumInChnk) :
    Ends (putElems u w i X n) s (fun _ t => Grew u (v.numElements + 1) t)
      fun e _ => e = .ub := by
  rw [putElems, ends_bind, ends_getChnk_of hc]
  cases c.l1Mem with
  | none => rfl
  | some b =>
      have hspace : u32 (w.maxNumInChnk + 2 ^ 32 - c.numElements) =
          w.maxNumInChnk - c.numElements := by
        unfold u32
        omega
      simp only [hspace]
      generalize hk : (if n > w.maxNumInChnk - c.numElements then w.maxNumInChnk - c.numElements
        else n) = k
      have hk0 : 0 < k := by split at hk <;> omega
      rw [ends_bind, ends_takeN]
      refine ⟨fun _ => ?_, fun _ => rfl⟩
      rw [ends_bind, ends_poke]
      refine ⟨fun _ => ?_, fun _ => rfl⟩
      rw [ends_bind, ends_modVctr_of hv]
      exact ⟨_, by rw [St.setChnk_vctrs, St.setVctr_self], by simp only; omega⟩

theorem ends_vctrPutn_tells {X : List UInt8} {cmem : Cmem}
    (h : ∀ v, s.vctrs u = some v → Sane s u v) :
    Ends (vctrPutn full u X n) s (fun _ _ => True)
      (Tells ((Append.putn X n).TurnedAway full s cmem u) s) := by
  rw [vctrPutn, vctrPutnLoop, ends_bind, putnRound, ends_bind, ends_byeIf]
  refine ⟨fun hu => .refl (Or.inl hu), fun hu => ?_⟩
  rw [ends_bind, ends_byeIf]
  refine ⟨fun hn => .refl (Or.inr fun v _ => Or.inl hn), fun hn => ?_⟩
  rw [ends_bind, ends_getVctr]
  refine ⟨fun hnone => .refl (Or.inr fun v hv => ?_), fun v hv => ?_⟩
  · rw [hnone] at hv
    contradiction
  rw [turnedAway_iff hu hv, ends_bind, ends_byeIf]
  refine ⟨fun he => .refl (Or.inr (Or.inl he)), fun he => ?_⟩
  have hs := h v hv
  rw [Append.Early, or_iff_right hn, or_iff_right he, ends_bind]
  -- once an element is in, neither the later rounds nor `vctr_memo` take it out
  have hrest : ∀ {P : Prop} {w : VctrVal} {i : Nat} {c : ChnkVal} {t : St}, ¬ P →
      t.vctrs u = some w → w.numElements = v.numElements → t.chnks (u, i) = some c →
      c.numElements < v.maxNumInChnk →
      Ends (putElems u v i X n) t (fun r t => Ends (do
        onlyIf (n > r.1) (vctrPutnLoop full n u (X.drop r.2) (n - r.1))
        vctrMemo u) t (fun _ _ => True) (Tells P s)) (Tells P s) := by
    intro P w i c t hP hw hnum hc hroom
    refine (ends_putElems hw hc hn hs.max_lt hroom).imp ?_ fun e t he hub => absurd he hub
    intro r t' ht'
    have hstay : Stays (Grew u (w.numElements + 1)) (do
        onlyIf (n > r.1) (vctrPutnLoop full n u (X.drop r.2) (n - r.1))
        vctrMemo u) :=
      Stays.bind (Stays.ite (fun _ => stays_vctrPutnLoop _ _ _) fun _ => stays_of keeps_pure)
        fun _ => stays_vctrMemo
    exact (hstay t' ht').imp (fun _ _ _ => trivial) fun e r hr =>
      .of_grew (Or.inr hr) hv (by omega) hP
  by_cases h0 : v.numElements = 0
  · rw [or_iff_left (fun hn => hn.1 h0), and_iff_right h0]
    refine (hs.ends_chnkFirst hv h0).imp ?_ fun _ _ => id
    rintro - t ⟨hd, hv', b, hc'⟩
    have hroom : ¬ 0 = v.maxNumInChnk := Nat.ne_of_lt hs.max_pos
    rw [ends_bind, chnkToPutn, ends_bind, ends_getChnk_of hc', ends_bind,
      ends_byeIf_neg (by simp [freshChnk])]
    refine ends_ite.mpr ⟨fun hfull => absurd hfull hroom, fun _ => ?_⟩
    exact hrest hd hv' rfl hc' hs.max_pos
  · rw [or_iff_right fun hn => h0 hn.1, and_iff_right h0]
    refine (ends_chnkFirst_idle hv h0).imp ?_ fun _ _ => False.elim
    rintro - t rfl
    rw [ends_bind]
    refine (ends_chnkToPutn hv hs.max_pos hs.count).imp ?_ fun _ _ => id
    rintro i r ⟨hd, ⟨c, hc, hroom⟩, w, hw, hnum⟩
    exact hrest hd hw hnum hc hroom

/-- What `vctr_put_chunk` finds wrong with a `CMEM`, or with the memory it asks for. -/
def Declined (full : Full) (s : St) (cmem : Cmem) (size : Nat) (k : Nat × Nat) : Prop :=
  (cmem.isStealable = true ∧ cmem.isForeign = true) ∨
    (cmem.isStealable = false ∧ Denied full s size k)

/-- The memory has been taken over: then only a chunk for which nothing was charged,
and that does not enter the table, leaves everything as it was. -/
theorem ends_takeOver_tells {cmem : Cmem} {size : Nat} {k : Nat × Nat} :
    Ends (takeOver cmem size n) s
      (fun r t => t.chnks = s.chnks ∧
        (full s.chnks k = true → (Intact s t ∧ r.2 = cmem ↔ Declined full s cmem size k)) ∧
        (¬ full s.chnks k = true → ¬ Declined full s cmem size k))
      (Tells (Declined full s cmem size k) s) := by
  rw [takeOver, ends_ite]
  constructor
  · intro hst
    have hdecl : Declined full s cmem size k ↔ cmem.isForeign = true := by
      simp [Declined, hst]
    rw [hdecl, ends_bind, ends_byeIf]
    refine ⟨fun hf => .refl hf, fun hf => ⟨rfl, fun _ => iff_of_false (fun h => ?_) hf, fun _ => hf⟩⟩
    have hstolen := congrArg Cmem.isStealable h.2
    rw [hst] at hstolen
    contradiction
  · intro hst
    have hdecl : Declined full s cmem size k ↔ Denied full s size k := by
      simp [Declined, hst]
    rw [hdecl, ends_bind, ends_memalign, ends_bind]
    refine ends_incrMem_charge (fun hz _ => ?_) fun hz => ?_
    · have hr : s.RefusesMem size := hz.imp_right Or.inl
      exact iff_of_true (intact_charge.mpr hr) ⟨hr, hz.imp_right Or.inl⟩
    · have hdenied : Denied full s size k ↔ s.RefusesMem size ∧ full s.chnks k = true := by
        unfold Denied
        tauto
      cases cmem.data with
      | none => exact fun hub => absurd rfl hub
      | some d =>
          simp only [ends_bind, ends_takeN, ends_poke, ends_pure, hdenied]
          refine ⟨fun _ => ⟨fun _ => ⟨rfl, fun hf => ?_, fun hf h => hf h.2⟩, fun _ hub =>
            absurd rfl hub⟩, fun _ hub => absurd rfl hub⟩
          rw [intact_charge, and_iff_left trivial, and_iff_left hf]

/-- A chunk that the vector could take is turned away where its memory is. -/
theorem early_putChunk_iff {cmem : Cmem} (hn : n ≠ 0) (he : ¬ v.isEov = true)
    (hok : ¬ BadChunk v cmem n) : (Append.putChunk n).Early full s cmem u v ↔
      ¬ (n < v.maxNumInChnk ∧ v.Moves v.maxChnkIdx) ∧ Declined full s cmem (u32 cmem.size)
        (u, if v.numElements = 0 then 0 else u32 (v.maxChnkIdx + 1)) := by
  rw [Append.Early, or_iff_right hn, or_iff_right he, or_iff_right hok, Declined]

/-- `vctr_put_chunk` up to the memory of the chunk. -/
theorem ends_putChunkTake_tells {cmem : Cmem} :
    Ends (putChunkTake u cmem n) s
      (fun r t => n ≠ 0 ∧ (∃ v w, s.vctrs u = some v ∧ t.vctrs u = some w ∧
          w.numElements = v.numElements) ∧
        (full t.chnks (u, r.idx) = true →
          (Intact s t ∧ r.cmem = cmem ↔ (Append.putChunk n).TurnedAway full s cmem u)) ∧
        (¬ full t.chnks (u, r.idx) = true → ¬ (Append.putChunk n).TurnedAway full s cmem u))
      (Tells ((Append.putChunk n).TurnedAway full s cmem u) s) := by
  rw [putChunkTake, ends_bind, ends_byeIf]
  refine ⟨fun hu => .refl (Or.inl hu), fun hu => ?_⟩
  rw [ends_bind, ends_byeIf]
  refine ⟨fun hn => .refl (Or.inr fun v _ => Or.inl hn), fun hn => ?_⟩
  rw [ends_bind, ends_getVctr]
  refine ⟨fun hnone => .refl (Or.inr fun v hv => ?_), fun v hv => ?_⟩
  · rw [hnone] at hv
    contradiction
  rw [turnedAway_iff hu hv, ends_bind, ends_byeIf]
  refine ⟨fun he => .refl (Or.inr (Or.inl he)), fun he => ?_⟩
  have hbad : ∀ {P : Prop}, (P → BadChunk v cmem n) → P →
      Tells ((Append.putChunk n).Early full s cmem u v) s (.bye (-1)) s :=
    fun h hP => .refl (Or.inr (Or.inr (Or.inl (h hP))))
  rw [ends_bind, ends_byeIf]
  refine ⟨hbad Or.inl, fun h1 => ?_⟩
  rw [ends_bind, ends_byeIf]
  refine ⟨hbad fun h => Or.inr (Or.inl h), fun h2 => ?_⟩
  rw [ends_bind, ends_byeIf]
  refine ⟨hbad fun h => Or.inr (Or.inr (Or.inl h)), fun h3 => ?_⟩
  rw [ends_bind, ends_byeIf]
  refine ⟨hbad fun h => Or.inr (Or.inr (Or.inr h)), fun h4 => ?_⟩
  have hok : ¬ BadChunk v cmem n := by
    rintro (h | h | h | h)
    · exact h1 h
    · exact h2 h
    · exact h3 h
    · exact h4 h
  rw [early_putChunk_iff hn he hok, ends_bind]
  by_cases hm : n < v.maxNumInChnk ∧ v.Moves v.maxChnkIdx
  · -- the window moves, and stays where it is then
    have hno : ∀ {P : Prop}, ¬ (¬ (n < v.maxNumInChnk ∧ v.Moves v.maxChnkIdx) ∧ P) :=
      fun h => h.1 hm
    have hdirty : ∀ {t : St}, t.vctrs u = some { v with minChnkIdx := v.trimTo v.maxChnkIdx } →
        ¬ Intact s t := by
      intro t ht hi
      rw [hi.vctrs, hv] at ht
      exact hm.2.trimTo_ne (congrArg VctrVal.minChnkIdx (Option.some.inj ht)).symm
    rw [onlyIf, if_pos hm.1]
    refine (ends_vctrMemo_trims hv).imp ?_ ?_
    · rintro - t ⟨ht, -⟩
      rw [ends_bind, ends_getVctr_of ht.found, ends_bind]
      refine (keeps_takeOver t).imp ?_ ?_
      · rintro r t' ht'
        have hfound : t'.vctrs u = some { v with minChnkIdx := v.trimTo v.maxChnkIdx } := by
          rw [ht', ht.found]
        exact ⟨hn, ⟨v, _, hv, hfound, rfl⟩, fun _ => iff_of_false (fun h => hdirty hfound h.1) hno,
          fun _ => hno⟩
      · intro e t' ht' _
        exact iff_of_false (hdirty (by rw [ht', ht.found])) hno
    · rintro e t ⟨-, ht, -⟩ -
      exact iff_of_false (hdirty ht.found) hno
  · rw [and_iff_right hm]
    have hidle : Ends (onlyIf (n < v.maxNumInChnk) (vctrMemo u)) s (fun _ t => t = s)
        fun _ _ => False := by
      rw [ends_onlyIf]
      exact ⟨fun hlt => ends_vctrMemo_idle hv fun h => hm ⟨hlt, h⟩, fun _ => rfl⟩
    refine hidle.imp ?_ fun _ _ => False.elim
    rintro - t rfl
    rw [ends_bind, ends_getVctr_of hv, ends_bind]
    refine (ends_takeOver_tells.and (keeps_takeOver t)).imp ?_ fun e r hr => hr.1
    rintro r t' ⟨⟨hch, hf, hnf⟩, hvs⟩
    have hfound : t'.vctrs u = some v := by rw [hvs, hv]
    refine ⟨hn, ⟨v, v, hv, hfound, rfl⟩, ?_, ?_⟩
    · rw [hch]
      exact hf
    · rw [hch]
      exact hnf

theorem ends_onSt {α : Type} {m : M α} {cmem : Cmem} {Q : α → St × Cmem → Prop}
    {E : Err → St × Cmem → Prop} :
    Ends (onSt m) (s, cmem) Q E ↔
      Ends m s (fun a t => Q a (t, cmem)) fun e t => E e (t, cmem) := by
  simp only [Ends, onSt]
  cases m s <;> rfl

/-- Nothing has changed for the vector or for the caller. -/
def Untouched (s t : St × Cmem) : Prop := Intact s.1 t.1 ∧ t.2 = s.2

theorem ends_vctrPutChunk_tells {cmem : Cmem} :
    Ends (vctrPutChunk full u n) (s, cmem) (fun _ _ => True) fun e t => e ≠ .ub →
      (Untouched (s, cmem) t ↔ (Append.putChunk n).TurnedAway full s cmem u) := by
  rw [vctrPutChunk, ends_bind, ends_get, ends_bind, ends_onSt]
  refine ends_putChunkTake_tells.imp ?_ fun e t ht hub => (and_iff_left rfl).trans (ht hub)
  rintro r t ⟨hn, ⟨v, w, hv, hw, hnum⟩, hf, hnf⟩
  rw [ends_bind, ends_modify, ends_onSt, putChunkEnter, ends_bind, ends_chnkRsHmapPut]
  refine ⟨fun h _ => hf h, fun h => ?_⟩
  rw [ends_bind]
  refine (ends_modVctr_of (v := w) (by exact hw)).mpr ?_
  -- the elements are in the vector, and stay there
  have hgrew : Grew u (v.numElements + 1) ((t.setChnk u r.idx (putChnk r.vctr r.size r.l1Mem n)).setVctr
      u { w with numElements := w.numElements + n, maxChnkIdx := r.idx }) :=
    ⟨_, St.setVctr_self, by simp only; omega⟩
  have hstay : Stays (Grew u (v.numElements + 1)) (do
      vctrMemo u
      modVctr u fun w => { w with isEov := decide (n < r.vctr.maxNumInChnk) }) :=
    Stays.bind stays_vctrMemo fun _ => stays_modVctr fun _ => by exact Nat.le_refl _
  refine (hstay _ hgrew).imp (fun _ _ _ => trivial) fun e t' ht' _ => iff_of_false ?_ (hnf h)
  exact fun hi => ht'.not_intact hv (Nat.lt_succ_self _) hi.1

/-- **An append that fails** has changed nothing exactly if it was turned away before
it had written anything. -/
theorem failedAppend_untouched_iff {cmem : Cmem} {t : St × Cmem} {a : Append} {k : Int}
    (h : ∀ v, s.vctrs u = some v → Sane s u v) (hrun : a.run full u (s, cmem) = .error (.bye k) t) :
    Untouched (s, cmem) t ↔ a.TurnedAway full s cmem u := by
  have hspec : Ends (a.run full u) (s, cmem) (fun _ _ => True) fun e t => e ≠ .ub →
      (Untouched (s, cmem) t ↔ a.TurnedAway full s cmem u) := by
    cases a with
    | put1 x =>
        rw [Append.run, ends_onSt]
        exact (ends_vctrPut1_tells h).imp (fun _ _ => id) fun e t ht hub =>
          (and_iff_left rfl).trans (ht hub)
    | putn X n =>
        rw [Append.run, ends_onSt]
        exact (ends_vctrPutn_tells h).imp (fun _ _ => id) fun e t ht hub =>
          (and_iff_left rfl).trans (ht hub)
    | putChunk n => exact ends_vctrPutChunk_tells
  exact hspec.of_error hrun (by simp)

/-- A `CMEM` for a chunk of 64 bytes. -/
def someCmem : Cmem := ⟨some ⟨0, List.replicate 64 5⟩, 64, true, false⟩

/-- Behind an element of a chunk there is no place for a chunk: it is turned away. -/
theorem failedAppend_untouched_sixtyFive : ∃ t, (Append.putChunk 3).run never 1
      (final (Vctr.vctrPutn 1 sixtyFive 65) (added (plainArgs .I1 0)), someCmem) =
        .error (.bye (-1)) t ∧
    Untouched (final (Vctr.vctrPutn 1 sixtyFive 65) (added (plainArgs .I1 0)), someCmem) t := by
  obtain ⟨v, hg⟩ := run_grown_puts run_sixtyFive rfl (by decide) (by decide) (by decide)
  have hsane : ∀ w, _ = some w → Sane _ 1 w := fun w hw => by
    rw [← Option.some.inj (hg.vec.found.symm.trans hw)]
    exact sane_of_vec hg.vec
  have hrun : (Append.putChunk 3).run never 1
      (final (Vctr.vctrPutn 1 sixtyFive 65) (added (plainArgs .I1 0)), someCmem) =
        .error (.bye (-1)) _ := run_of_outcome_error (by decide +kernel)
  refine ⟨_, hrun, (failedAppend_untouched_iff hsane hrun).mpr (.inr fun w hw => ?_)⟩
  have hn : ((final (Vctr.vctrPutn 1 sixtyFive 65) (added (plainArgs .I1 0))).vctrs 1).map
      (fun w => (w.numElements, w.maxNumInChnk)) = some (65, 64) := by decide +kernel
  rw [hw, Option.map_some, Option.some.injEq, Prod.mk.injEq] at hn
  exact .inr (.inr (.inl (.inr (.inr (.inr (by rw [hn.1, hn.2]; decide))))))

/-- A chunk is being read when it falls out of a window of one. The append says that it
failed, and has appended its element to a new chunk. -/
theorem failedAppend_untouched_fails : ∃ s t, Run (fun _ v o => o.isMemo ∧ o.Fair v) memoArgs 1 s
      (slices 1 64 (List.replicate 64 7)) ∧
    (Append.put1 [8]).run never 1 (s, someCmem) = .error (.bye (-1)) t ∧
    ¬ Untouched (s, someCmem) t := by
  have h0 := run_added (a := memoArgs) (P := fun _ v o => o.isMemo ∧ o.Fair v) (by decide)
  have h1 := h0.ok (o := .putn (List.replicate 64 7) 64) rfl ⟨trivial, Nat.le_refl 64,
    show 0 + 64 ≤ lmaIdx * 64 by decide⟩ (run_of_outcome_ok (by decide +kernel))
  have h2 := h1.ok (o := .getChunk 0) rfl ⟨trivial, trivial⟩
    (run_of_outcome_ok (by decide +kernel))
  refine ⟨_, _, h2, run_of_outcome_error (by decide +kernel), fun h => ?_⟩
  have hsame := congrFun h.1.vctrs 1
  exact absurd hsame (by decide +kernel)

end QStore.Vctr.Refusing
