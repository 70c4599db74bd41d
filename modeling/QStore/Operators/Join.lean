import QStore.Operators.LVector
import QStore.Lib.Pull
import QStore.Lib.Matches

/-!
# QStore.Operators.Join

`join` (`JOIN/lua/expander_join.lua` and the kernels `join_val.tmpl`,
`join_cnt.tmpl`, …): a column of the source, brought to the rows of the
destination that have the same link.

```
kernel     one source chunk and one destination chunk, from the cursors on;
           on a match, val and is move on in the destination, the others in
           the source
generator  for each source chunk, the kernels of all join types from the same
           cursors; then on from those of the last
```

Kernels that move differently differ where a link lies on both sides of the end
of a chunk: what the last one has passed, the others do not see again.
-/

namespace QStore.Operators

/-- The `join_types`. -/
inductive JoinType
  | val
  | cnt
  | sum
  | min
  | max
  | is
  deriving DecidableEq, Repr

/-- What sets the kernels apart: the entries of a zeroed buffer, what a match does
to one, and which index it moves. -/
structure JoinKernel (β γ : Type) where
  zero : γ
  hit : γ → β → γ
  stepsSrc : Bool

/-- Where a kernel has come to, and what it leaves. -/
structure Joined (γ : Type) where
  srcStart : Nat
  dstStart : Nat
  dstVal : List γ

section Kernel

variable {κ β γ : Type} [LinearOrder κ]

/-- The loop of a kernel, for at most `fuel` rounds. A round moves one of the
indices by one. -/
def joinLoop (K : JoinKernel β γ) (src : List (κ × β)) (dstLnk : List κ) :
    Nat → Nat → Nat → List γ → Joined γ
  | 0, sidx, didx, dstVal => ⟨sidx, didx, dstVal⟩
  | fuel + 1, sidx, didx, dstVal =>
      match src[sidx]?, dstLnk[didx]? with
      | some (srcLnk, srcVal), some lnk =>
          if srcLnk < lnk then joinLoop K src dstLnk fuel (sidx + 1) didx dstVal
          else if lnk < srcLnk then joinLoop K src dstLnk fuel sidx (didx + 1) dstVal
          else
            let dstVal := dstVal.modify didx fun c => K.hit c srcVal
            if K.stepsSrc then joinLoop K src dstLnk fuel (sidx + 1) didx dstVal
            else joinLoop K src dstLnk fuel sidx (didx + 1) dstVal
      | _, _ => ⟨sidx, didx, dstVal⟩

/-- A kernel. The source pointers are `NULL` where there is no source chunk.
`none`: a negative status. -/
def joinKernel (K : JoinKernel β γ) (src : List (κ × β)) (srcStart : Nat) (dstLnk : List κ)
    (dstVal : List γ) (dstStart : Nat) : Option (Joined γ) :=
  if dstStart ≥ dstLnk.length then none
  else if src = [] ∨ srcStart ≥ src.length then some ⟨srcStart, dstLnk.length, dstVal⟩
  else some (joinLoop K src dstLnk (src.length - srcStart + (dstLnk.length - dstStart))
    srcStart dstStart dstVal)

end Kernel

/-! ## the join types -/

section Types

variable (β σ : Type)

/-- An entry of an output vector: a value and its `nn` mark, or what needs none. -/
def JoinType.Entry : JoinType → Type
  | .val | .min | .max => β × Bool
  | .sum => σ × Bool
  | .cnt => Nat
  | .is => Bool

variable {β σ} [Zero β] [Zero σ] [LT β] [DecidableLT β]

/-- `join_val` -/
def joinVal : JoinKernel β (β × Bool) := ⟨(0, false), fun _ v => (v, true), false⟩

/-- `join_is` -/
def joinIs : JoinKernel β Bool := ⟨false, fun _ _ => true, false⟩

/-- `join_cnt` -/
def joinCnt : JoinKernel β Nat := ⟨0, fun c _ => c + 1, true⟩

/-- `join_sum`, with the `+=` of the type of the sums. -/
def joinSum (add : σ → β → σ) : JoinKernel β (σ × Bool) :=
  ⟨(0, false), fun c v => (add c.1 v, true), true⟩

/-- `join_min` -/
def joinMin : JoinKernel β (β × Bool) :=
  ⟨(0, false), fun c v => if c.2 = false then (v, true) else if v < c.1 then (v, c.2) else c, true⟩

/-- `join_max` -/
def joinMax : JoinKernel β (β × Bool) :=
  ⟨(0, false), fun c v => if c.2 = false then (v, true) else if c.1 < v then (v, c.2) else c, true⟩

/-- The kernel of a join type. -/
def JoinType.kernel (add : σ → β → σ) : (t : JoinType) → JoinKernel β (t.Entry β σ)
  | .val => joinVal
  | .cnt => joinCnt
  | .sum => joinSum add
  | .min => joinMin
  | .max => joinMax
  | .is => joinIs

end Types

/-! ## the driver -/

/-- The three vectors, evaluated. The source columns are of one length, and the
links ascend. -/
structure JoinInput (κ β : Type) [LinearOrder κ] where
  srcVal : LVector β
  srcLnk : LVector κ
  dstLnk : LVector κ
  length_eq : srcVal.elems.length = srcLnk.elems.length
  srcSorted : srcLnk.elems.Pairwise (· ≤ ·)
  dstSorted : dstLnk.elems.Pairwise (· ≤ ·)

/-- What the generators keep between calls. -/
structure JoinState where
  srcChunkNum : Nat
  srcStart : Nat
  lChunkNum : Nat

/-- "handle case when you need to get next chunk of source" -/
def JoinState.moveTo (s : JoinState) (srcStart slLen maxNumInChunk : Nat) : JoinState :=
  if srcStart = slLen ∧ slLen = maxNumInChunk then
    { s with srcChunkNum := s.srcChunkNum + 1, srcStart := 0 }
  else { s with srcStart := srcStart }

section Driver

variable {κ β σ : Type} [LinearOrder κ] [Zero β] [Zero σ] [LT β] [DecidableLT β]

/-- The buffers of a call, one for each join type. -/
abbrev JoinBufs (β σ : Type) := (t : JoinType) → List (t.Entry β σ)

/-- `for k, join_type in ipairs(join_types)`: all from the same cursors. The
cursors of the last one are what is left. -/
def joinAll (add : σ → β → σ) (src : List (κ × β)) (dstLnk : List κ) (srcStart dstStart : Nat) :
    List JoinType → Nat × Nat → JoinBufs β σ → Option ((Nat × Nat) × JoinBufs β σ)
  | [], final, bufs => some (final, bufs)
  | t :: joinTypes, _, bufs =>
      (joinKernel (t.kernel add) src srcStart dstLnk (bufs t) dstStart).bind fun r =>
        joinAll add src dstLnk srcStart dstStart joinTypes (r.srcStart, r.dstStart)
          (Function.update bufs t r.dstVal)

/-- `while true` of the generator, for at most `fuel` turns. A source chunk that
is not there cannot be given back either. -/
def joinWhile (a : JoinInput κ β) (add : σ → β → σ) (joinTypes : List JoinType) (dstLnk : List κ) :
    Nat → JoinState → Nat → JoinBufs β σ → Option (JoinBufs β σ × JoinState)
  | 0, _, _, _ => none
  | fuel + 1, s, dstStart, bufs =>
      let sv := a.srcVal.getChunk s.srcChunkNum
      let sl := a.srcLnk.getChunk s.srcChunkNum
      if sl.length ≠ sv.length then none
      else
        (joinAll add (sl.zip sv) dstLnk s.srcStart dstStart joinTypes (0, 0) bufs).bind fun r =>
          if sl.length = 0 then none
          else
            let s := s.moveTo r.1.1 sl.length a.srcVal.maxNumInChunk
            if r.1.2 = dstLnk.length then some (r.2, s)
            else joinWhile a add joinTypes dstLnk fuel s r.1.2 r.2

/-- `gen` of the vector for `t`. Whichever vector is asked, the others get their
chunk of the same call. Past the end of the destination it uses names that are
not defined. A turn of its loop takes an element of the source, or is one of the
last two. -/
def joinGen (a : JoinInput κ β) (add : σ → β → σ) (joinTypes : List JoinType) (t : JoinType) :
    Gen JoinState (t.Entry β σ) := fun s chunkNum =>
  if chunkNum ≠ s.lChunkNum then none
  else
    let dl := a.dstLnk.getChunk s.lChunkNum
    if dl.length = 0 then none
    else
      (joinWhile a add joinTypes dl (a.srcLnk.elems.length + 2) s 0 fun t =>
        List.replicate dl.length (t.kernel add).zero).bind fun r =>
          some (r.1 t, { r.2 with lChunkNum := s.lChunkNum + 1 })

/-- `expander_join`: the state of the generators, if the specializer does not
refuse the vectors for their chunk sizes. -/
def expanderJoin (a : JoinInput κ β) : Option JoinState :=
  if a.srcVal.maxNumInChunk = a.srcLnk.maxNumInChunk ∧
      a.srcVal.maxNumInChunk = a.dstLnk.maxNumInChunk then some ⟨0, 0, 0⟩
  else none

end Driver

/-! ## what a kernel does -/

section Loop

variable {κ β γ : Type} [LinearOrder κ] {K : JoinKernel β γ} {src : List (κ × β)}
  {dstLnk : List κ} {dstVal : List γ} {s q d : Nat}

/-- The values that a kernel finds for entry `d`: those of its link, if no entry
before it took them, or the first of them. -/
def hits (K : JoinKernel β γ) (src : List (κ × β)) (dstLnk : List κ) (d : Nat) : List β :=
  match dstLnk[d]? with
  | none => []
  | some l =>
      if K.stepsSrc then if l ∈ dstLnk.take d then [] else valuesAt l src
      else (valuesAt l src).take 1

/-- Entry `d` of the output. -/
def cellOf (K : JoinKernel β γ) (src : List (κ × β)) (dstLnk : List κ) (d : Nat) : γ :=
  (hits K src dstLnk d).foldl K.hit K.zero

/-- A row of the source that a kernel passes while it is at `l`. -/
def JoinKernel.Passes (K : JoinKernel β γ) (r l : κ) : Prop :=
  if K.stepsSrc then r ≤ l else r < l

/-- An entry of the destination that a kernel passes while it is at `r`. -/
def JoinKernel.Leaves (K : JoinKernel β γ) (r l : κ) : Prop :=
  if K.stepsSrc then l < r else l ≤ r

/-- What the loop has done once it ends. -/
structure LoopDone (K : JoinKernel β γ) (src : List (κ × β)) (dstLnk : List κ) (s q : Nat)
    (dstVal : List γ) (r : Joined γ) : Prop where
  src_le : s ≤ r.srcStart ∧ r.srcStart ≤ src.length
  dst_le : q ≤ r.dstStart ∧ r.dstStart ≤ dstLnk.length
  ended : r.srcStart = src.length ∨ r.dstStart = dstLnk.length
  length : r.dstVal.length = dstVal.length
  before : ∀ d, d < q → r.dstVal[d]? = dstVal[d]?
  after : ∀ d, r.dstVal[q + d]? = dstVal[q + d]?.map fun c =>
    (hits K (src.drop s) (dstLnk.drop q) d).foldl K.hit c
  srcPassed : ∀ x a, s ≤ x → x < r.srcStart → src[x]? = some a →
    ∃ d l, d ≤ r.dstStart ∧ dstLnk[d]? = some l ∧ K.Passes a.1 l
  dstPassed : ∀ d l, q ≤ d → d < r.dstStart → dstLnk[d]? = some l →
    ∃ x a, s ≤ x ∧ src[x]? = some a ∧ K.Leaves a.1 l

theorem drop_of_getElem? {α : Type} {xs : List α} {i : Nat} {x : α} (h : xs[i]? = some x) :
    xs.drop i = x :: xs.drop (i + 1) := by
  obtain ⟨hi, rfl⟩ := List.getElem?_eq_some_iff.mp h
  exact List.drop_eq_getElem_cons hi

theorem hits_nil_src : hits K ([] : List (κ × β)) dstLnk d = [] := by
  rw [hits]
  split
  · rfl
  · simp

/-- A row whose link is at the front of no entry is not found. -/
theorem hits_cons_of_ne {r : κ × β} {l : κ} (hl : dstLnk[d]? = some l) (h : r.1 ≠ l) :
    hits K (r :: src) dstLnk d = hits K src dstLnk d := by
  simp only [hits, hl, valuesAt_cons_of_ne h]

/-- Without a row for its front, the destination can go on. -/
theorem hits_cons_dst {l : κ} (hno : valuesAt l src = []) :
    hits K src (l :: dstLnk) (d + 1) = hits K src dstLnk d := by
  simp only [hits, List.getElem?_cons_succ]
  cases hd : dstLnk[d]? with
  | none => rfl
  | some b =>
      simp only [List.take_succ_cons, List.mem_cons]
      by_cases hb : b = l
      · simp [hb, hno]
      · simp [hb]

/-- A kernel that moves in the destination does not look back there. -/
theorem hits_cons_dst_of_val {l : κ} (hK : K.stepsSrc = false) :
    hits K src (l :: dstLnk) (d + 1) = hits K src dstLnk d := by
  simp [hits, hK]

section Step

variable {r : Joined γ} {a l : κ} {v : β}

theorem LoopDone.stop (hs : s ≤ src.length) (hq : q ≤ dstLnk.length)
    (h : s = src.length ∨ q = dstLnk.length) :
    LoopDone K src dstLnk s q dstVal ⟨s, q, dstVal⟩ where
  src_le := ⟨Nat.le_refl s, hs⟩
  dst_le := ⟨Nat.le_refl q, hq⟩
  ended := h
  length := rfl
  before := fun _ _ => rfl
  after := by
    intro d
    have hnil : hits K (src.drop s) (dstLnk.drop q) d = [] := by
      rcases h with h | h
      · rw [List.drop_of_length_le (Nat.le_of_eq h.symm), hits_nil_src]
      · simp [hits, h]
    simp [hnil]
  srcPassed := fun _ _ h h' => absurd h (Nat.not_le_of_lt h')
  dstPassed := fun _ _ h h' => absurd h (Nat.not_le_of_lt h')

/-- The row at the front is passed. -/
theorem LoopDone.of_less (hd : dstLnk.Pairwise (· ≤ ·)) (ha : src[s]? = some (a, v))
    (hl : dstLnk[q]? = some l) (hlt : a < l) (h : LoopDone K src dstLnk (s + 1) q dstVal r) :
    LoopDone K src dstLnk s q dstVal r where
  src_le := ⟨by have := h.src_le; omega, h.src_le.2⟩
  dst_le := h.dst_le
  ended := h.ended
  length := h.length
  before := h.before
  after := by
    intro d
    rw [h.after d, drop_of_getElem? ha]
    cases hb : (dstLnk.drop q)[d]? with
    | none => simp [hits, hb]
    | some b =>
        have hlb : l ≤ b := by
          rw [List.getElem?_drop] at hb
          exact le_of_sorted hd hl hb (by omega)
        rw [hits_cons_of_ne hb (ne_of_lt (lt_of_lt_of_le hlt hlb))]
  srcPassed := by
    intro x c hx hx' hc
    by_cases hxs : x = s
    · cases ha.symm.trans (hxs ▸ hc)
      refine ⟨q, l, h.dst_le.1, hl, ?_⟩
      rw [JoinKernel.Passes]
      split
      · exact le_of_lt hlt
      · exact hlt
    · exact h.srcPassed x c (by omega) hx' hc
  dstPassed := by
    intro d b hd hd' hb
    obtain ⟨x, c, hx, hc, hleave⟩ := h.dstPassed d b hd hd' hb
    exact ⟨x, c, by omega, hc, hleave⟩

/-- The entry at the front is passed. -/
theorem LoopDone.of_greater (hs : (src.map Prod.fst).Pairwise (· ≤ ·))
    (ha : src[s]? = some (a, v)) (hl : dstLnk[q]? = some l) (hlt : l < a)
    (h : LoopDone K src dstLnk s (q + 1) dstVal r) : LoopDone K src dstLnk s q dstVal r where
  src_le := h.src_le
  dst_le := ⟨by have := h.dst_le; omega, h.dst_le.2⟩
  ended := h.ended
  length := h.length
  before := fun d hd => h.before d (by omega)
  after := by
    have hno : valuesAt l (src.drop s) = [] := by
      rw [valuesAt_eq_nil_iff]
      intro c hc
      obtain ⟨x, hx⟩ := List.mem_iff_getElem?.mp hc
      rw [List.getElem?_drop] at hx
      have hle : a ≤ c.1 := le_of_sorted (i := s) (j := s + x) hs (by simp [ha]) (by simp [hx])
        (by omega)
      exact ne_of_gt (lt_of_lt_of_le hlt hle)
    intro d
    rw [drop_of_getElem? hl]
    cases d with
    | zero =>
        rw [Nat.add_zero, h.before q (by omega)]
        simp [hits, hno]
    | succ d =>
        rw [hits_cons_dst hno, show q + (d + 1) = q + 1 + d by omega]
        exact h.after d
  srcPassed := h.srcPassed
  dstPassed := by
    intro d b hd hd' hb
    by_cases hdq : d = q
    · cases hl.symm.trans (hdq ▸ hb)
      refine ⟨s, (a, v), Nat.le_refl s, ha, ?_⟩
      rw [JoinKernel.Leaves]
      split
      · exact hlt
      · exact le_of_lt hlt
    · exact h.dstPassed d b (by omega) hd' hb

/-- A match, and on in the source. -/
theorem LoopDone.of_src (hK : K.stepsSrc = true) (ha : src[s]? = some (a, v))
    (hl : dstLnk[q]? = some a)
    (h : LoopDone K src dstLnk (s + 1) q (dstVal.modify q fun c => K.hit c v) r) :
    LoopDone K src dstLnk s q dstVal r where
  src_le := ⟨by have := h.src_le; omega, h.src_le.2⟩
  dst_le := h.dst_le
  ended := h.ended
  length := h.length.trans (List.length_modify ..)
  before := by
    intro d hd
    rw [h.before d hd, List.getElem?_modify_ne _ _ (by omega)]
  after := by
    intro d
    rw [h.after d, drop_of_getElem? ha, drop_of_getElem? hl]
    cases d with
    | zero =>
        simp [hits, hK, Function.comp_def]
    | succ d =>
        rw [List.getElem?_modify_ne _ _ (by omega)]
        cases hb : (dstLnk.drop (q + 1))[d]? with
        | none => simp [hits, hb]
        | some b =>
            by_cases hba : b = a
            · simp [hits, hK, hb, hba]
            · rw [hits_cons_of_ne (by simpa using hb) (Ne.symm hba)]
  srcPassed := by
    intro x c hx hx' hc
    by_cases hxs : x = s
    · cases ha.symm.trans (hxs ▸ hc)
      refine ⟨q, a, h.dst_le.1, hl, ?_⟩
      rw [JoinKernel.Passes, if_pos hK]
    · exact h.srcPassed x c (by omega) hx' hc
  dstPassed := by
    intro d b hd hd' hb
    obtain ⟨x, c, hx, hc, hleave⟩ := h.dstPassed d b hd hd' hb
    exact ⟨x, c, by omega, hc, hleave⟩

/-- A match, and on in the destination. -/
theorem LoopDone.of_dst (hK : K.stepsSrc = false) (ha : src[s]? = some (a, v))
    (hl : dstLnk[q]? = some a)
    (h : LoopDone K src dstLnk s (q + 1) (dstVal.modify q fun c => K.hit c v) r) :
    LoopDone K src dstLnk s q dstVal r where
  src_le := h.src_le
  dst_le := ⟨by have := h.dst_le; omega, h.dst_le.2⟩
  ended := h.ended
  length := h.length.trans (List.length_modify ..)
  before := by
    intro d hd
    rw [h.before d (by omega), List.getElem?_modify_ne _ _ (by omega)]
  after := by
    intro d
    rw [drop_of_getElem? hl]
    cases d with
    | zero =>
        rw [Nat.add_zero, h.before q (by omega), drop_of_getElem? ha]
        simp [hits, hK]
    | succ d =>
        rw [hits_cons_dst_of_val hK, show q + (d + 1) = q + 1 + d by omega, h.after d,
          List.getElem?_modify_ne _ _ (by omega)]
  srcPassed := h.srcPassed
  dstPassed := by
    intro d b hd hd' hb
    by_cases hdq : d = q
    · cases hl.symm.trans (hdq ▸ hb)
      refine ⟨s, (a, v), Nat.le_refl s, ha, ?_⟩
      rw [JoinKernel.Leaves, if_neg (by simp [hK])]
    · exact h.dstPassed d b (by omega) hd' hb

end Step

/-- **The loop**: each entry gets what a kernel finds for it. -/
theorem joinLoop_done (hs : (src.map Prod.fst).Pairwise (· ≤ ·)) (hd : dstLnk.Pairwise (· ≤ ·)) :
    ∀ (fuel s q : Nat) (dstVal : List γ), s ≤ src.length → q ≤ dstLnk.length →
      src.length - s + (dstLnk.length - q) ≤ fuel →
      LoopDone K src dstLnk s q dstVal (joinLoop K src dstLnk fuel s q dstVal) := by
  intro fuel
  induction fuel with
  | zero =>
      intro s q dstVal hsl hql hfuel
      exact .stop hsl hql (by omega)
  | succ fuel ih =>
      intro s q dstVal hsl hql hfuel
      rw [joinLoop]
      split
      · next a v l ha hl =>
        have hsl' := (List.getElem?_eq_some_iff.mp ha).1
        have hql' := (List.getElem?_eq_some_iff.mp hl).1
        split
        · next hlt => exact .of_less hd ha hl hlt (ih _ _ _ (by omega) hql (by omega))
        · next hnlt =>
          split
          · next hgt => exact .of_greater hs ha hl hgt (ih _ _ _ hsl (by omega) (by omega))
          · next hngt =>
            have hla : l = a := le_antisymm (not_lt.mp hnlt) (not_lt.mp hngt)
            subst hla
            cases hK : K.stepsSrc with
            | true => exact .of_src hK ha hl (ih _ _ _ (by omega) hql (by omega))
            | false => exact .of_dst hK ha hl (ih _ _ _ hsl (by omega) (by omega))
      · next hno =>
        refine .stop hsl hql ?_
        by_cases hse : s = src.length
        · exact .inl hse
        · by_cases hqe : q = dstLnk.length
          · exact .inr hqe
          · exact absurd (List.getElem?_eq_getElem (show q < dstLnk.length by omega))
              (hno _ _ _ (List.getElem?_eq_getElem (show s < src.length by omega)))

end Loop

end QStore.Operators
