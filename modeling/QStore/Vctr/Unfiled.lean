import QStore.Vctr.Run

/-!
# QStore.Vctr.Unfiled

The chunks of a vector that is appended to are as they were opened: they have no file, and they
have its type and the number of times it is not to be freed.
-/

namespace QStore.Vctr

variable {a : AddArgs} {s t : St} {u i n : Nat} {v : VctrVal} {c : ChnkVal} {m : Qtype × Nat}
  {L : List (List UInt8)}

/-- What a chunk keeps of the vector it is opened for. -/
def ChnkVal.mark (c : ChnkVal) : Qtype × Nat := (c.qtype, c.numFreeIgnore)

def VctrVal.mark (v : VctrVal) : Qtype × Nat :=
  (v.qtype, if v.isEarlyFreeable then v.numFreeIgnore else 0)

/-- A chunk that has no file, and has the mark. -/
def ChnkVal.Unfiled (m : Qtype × Nat) (c : ChnkVal) : Prop := c.l2Exists = false ∧ c.mark = m

/-- The vector has the mark, and its chunks are as they were opened. -/
def Unfiled (u : Nat) (m : Qtype × Nat) (s : St) : Prop :=
  (∀ v, s.vctrs u = some v → v.mark = m) ∧ ∀ i c, s.chnks (u, i) = some c → c.Unfiled m

theorem freshChnk_unfiled {b : Buf} (hv : v.mark = m) : (freshChnk v n b).Unfiled m := ⟨rfl, hv⟩

theorem putChnk_unfiled {size : Nat} {b : Option Buf} (hv : v.mark = m) :
    (putChnk v size b n).Unfiled m := ⟨rfl, hv⟩

theorem ChnkVal.Unfiled.put (h : c.Unfiled m) (b : Option Buf) (n : Nat) :
    ({ c with l1Mem := b, numElements := n } : ChnkVal).Unfiled m := h

theorem Unfiled.setChnk (h : Unfiled u m s) (hc : c.Unfiled m) : Unfiled u m (s.setChnk u i c) := by
  refine ⟨h.1, fun j d hd => ?_⟩
  by_cases hji : j = i
  · subst hji
    rw [St.setChnk_self, Option.some.injEq] at hd
    exact hd ▸ hc
  · rw [St.setChnk_of_ne (by simp [hji])] at hd
    exact h.2 j d hd

theorem Unfiled.delChnk (h : Unfiled u m s) : Unfiled u m (s.delChnk u i) := by
  refine ⟨h.1, fun j d hd => ?_⟩
  by_cases hji : j = i
  · subst hji
    rw [St.delChnk_self] at hd
    contradiction
  · rw [St.delChnk_of_ne (by simp [hji])] at hd
    exact h.2 j d hd

theorem Unfiled.setVctr (h : Unfiled u m s) (hv : v.mark = m) : Unfiled u m (s.setVctr u v) := by
  refine ⟨fun w hw => ?_, h.2⟩
  rw [St.setVctr_self, Option.some.injEq] at hw
  exact hw ▸ hv

theorem stays_unfiled_chnkDel {p : Bool} : Stays (Unfiled u m) (chnkDel u i p) := by
  intro s hs
  simp only [chnkDel, ends_bind, ends_get, ends_ite, ends_throw]
  refine ⟨fun _ => hs, fun _ => ⟨fun _ => hs, fun _ => ?_⟩⟩
  rw [chnkFreeResources, ends_bind, ends_getChnk]
  refine ⟨fun _ => hs, fun c hc => ?_⟩
  obtain ⟨hc2, hmark⟩ : c.Unfiled m := hs.2 i c hc
  simp only [ends_bind, ends_byeIf, ends_onlyIf, ends_setChnk, ends_modify, hc2, Bool.false_eq_true,
    and_false, false_implies, not_false_eq_true, true_implies, true_and]
  refine ⟨fun _ => hs, fun _ => ⟨fun _ => hs, fun _ => ⟨fun _ => ?_, fun _ => hs.delChnk⟩⟩⟩
  exact ends_decrMemUsed (fun _ => hs) fun n =>
    (Unfiled.setChnk (s := s.setMem n) (c := { c with l2Exists := false, l1Mem := none }) hs
      ⟨rfl, hmark⟩).delChnk

theorem stays_unfiled_memoLoop {p : Bool} {k : Int} : Stays (Unfiled u m) (memoLoop u p i n k) := by
  induction n generalizing i k with
  | zero => exact fun s hs => hs
  | succ n ih =>
      intro s hs
      rw [memoLoop, ends_bind, ends_statusOf]
      refine (stays_unfiled_chnkDel s hs).imp (fun _ t ht => ih t ht) fun e t ht => ?_
      cases e with
      | bye k => exact ih t ht
      | ub => exact ht

theorem stays_unfiled_modVctr {g : VctrVal → VctrVal} (hg : ∀ v, (g v).mark = v.mark) :
    Stays (Unfiled u m) (modVctr u g) := by
  intro s hs
  rw [ends_modVctr]
  exact ⟨fun _ => hs, fun v hv => hs.setVctr ((hg v).trans (hs.1 v hv))⟩

theorem stays_unfiled_vctrMemo : Stays (Unfiled u m) (vctrMemo u) := by
  intro s hs
  rw [vctrMemo, ends_bind, ends_getVctr]
  refine ⟨fun _ => hs, fun v _ => ?_⟩
  simp only [ends_ite, ends_pure, ends_bind]
  refine ⟨fun _ => hs, fun _ => ⟨fun _ => hs, fun _ => ⟨fun _ => ?_, fun _ => hs⟩⟩⟩
  refine (stays_unfiled_memoLoop s hs).imp (fun k t ht => ?_) fun _ _ => id
  refine (stays_unfiled_modVctr (by simp only [VctrVal.mark, implies_true]) t ht).imp (fun _ r hr => ?_)
    fun _ _ => id
  exact ⟨fun _ => hr, fun _ => hr⟩

theorem stays_unfiled_chnkFirst : Stays (Unfiled u m) (chnkFirst u) := by
  intro s hs
  rw [chnkFirst, ends_bind, ends_getVctr]
  refine ⟨fun _ => hs, fun v hv => ?_⟩
  simp only [ends_ite, ends_pure, ends_bind, ends_memalign, ends_setChnk]
  exact ⟨fun _ => hs, fun _ => ends_incrMem (fun _ _ => hs) fun _ _ =>
    Unfiled.setChnk hs (freshChnk_unfiled (hs.1 v hv))⟩

theorem stays_unfiled_chnkToPut (hv : v.mark = m) : Stays (Unfiled u m) (chnkToPut u v) := by
  intro s hs
  rw [chnkToPut, ends_bind, ends_getChnk]
  refine ⟨fun _ => hs, fun c _ => ?_⟩
  simp only [ends_ite, ends_pure, ends_bind, ends_byeIf, ends_memalign, ends_setChnk, ends_modVctr]
  refine ⟨fun _ => hs, fun _ => ⟨fun _ => ends_ignore_incrMem fun _ _ => ?_, fun _ => hs⟩⟩
  exact ⟨fun _ => Unfiled.setChnk hs (freshChnk_unfiled hv), fun w hw =>
    (Unfiled.setChnk hs (freshChnk_unfiled hv)).setVctr (hs.1 w hw)⟩

theorem stays_unfiled_setChnk (hc : c.Unfiled m) : Stays (Unfiled u m) (setChnk u i c) :=
  fun _ hs => hs.setChnk hc

theorem stays_unfiled_poke {b : Buf} {x : List UInt8} : Stays (Unfiled u m) (poke b n x) := by
  intro s hs
  rw [ends_poke]
  exact ⟨fun _ => hs, fun _ => hs⟩

theorem stays_unfiled_takeN {x : List UInt8} : Stays (Unfiled u m) (takeN x n) := by
  intro s hs
  rw [ends_takeN]
  exact ⟨fun _ => hs, fun _ => hs⟩

theorem stays_unfiled_sclrBytes {x : List UInt8} : Stays (Unfiled u m) (sclrBytes v x) :=
  Stays.ite (fun _ _ hs => hs) fun _ => stays_unfiled_takeN

theorem stays_unfiled_pure {α : Type} {x : α} : Stays (Unfiled u m) (pure x : M α) := fun _ hs => hs

/-! ## the ways to append -/

theorem stays_unfiled_vctrPut1 {x : List UInt8} : Stays (Unfiled u m) (vctrPut1 u x) := by
  intro s hs
  simp only [vctrPut1, ends_bind, ends_byeIf, ends_getVctr]
  refine ⟨fun _ => hs, fun _ => ⟨fun _ => hs, fun v _ => ⟨fun _ => hs, fun _ => ?_⟩⟩⟩
  refine (stays_unfiled_chnkFirst s hs).imp (fun _ t ht => ⟨fun _ => ht, fun w hw => ?_⟩) fun _ _ => id
  refine (stays_unfiled_chnkToPut (ht.1 w hw) t ht).imp (fun i r hr => ?_) fun _ _ => id
  rw [ends_getChnk]
  refine ⟨fun _ => hr, fun c hc => ?_⟩
  cases hl : c.l1Mem with
  | none => exact hr
  | some b =>
      refine Stays.bind stays_unfiled_poke (fun _ => ?_) r hr
      refine Stays.bind stays_unfiled_sclrBytes fun _ => ?_
      refine Stays.bind stays_unfiled_poke fun _ => ?_
      refine Stays.bind (stays_unfiled_modVctr fun _ => by simp only [VctrVal.mark]) fun _ => ?_
      exact Stays.bind (stays_unfiled_setChnk ((hr.2 i c hc).put _ _)) fun _ => stays_unfiled_vctrMemo

theorem stays_unfiled_putnRound {X : List UInt8} : Stays (Unfiled u m) (putnRound u X n) := by
  intro s hs
  simp only [putnRound, ends_bind, ends_byeIf, ends_getVctr]
  refine ⟨fun _ => hs, fun _ => ⟨fun _ => hs, fun _ => ⟨fun _ => hs, fun v hv => ⟨fun _ => hs,
    fun _ => ?_⟩⟩⟩⟩
  refine (stays_unfiled_chnkFirst s hs).imp (fun _ t ht => ?_) fun _ _ => id
  refine (stays_unfiled_chnkToPut (hs.1 v hv) t ht).imp (fun i r hr => ?_) fun _ _ => id
  rw [ends_getChnk]
  refine ⟨fun _ => hr, fun c hc => ?_⟩
  cases hl : c.l1Mem with
  | none => exact hr
  | some b =>
      refine Stays.bind stays_unfiled_takeN (fun _ => ?_) r hr
      refine Stays.bind stays_unfiled_poke fun _ => ?_
      refine Stays.bind (stays_unfiled_modVctr fun _ => by simp only [VctrVal.mark]) fun _ => ?_
      exact Stays.bind (stays_unfiled_setChnk ((hr.2 i c hc).put _ _)) fun _ => stays_unfiled_pure

theorem stays_unfiled_vctrPutnLoop {depth : Nat} {X : List UInt8} :
    Stays (Unfiled u m) (vctrPutnLoop depth u X n) := by
  induction depth generalizing n X with
  | zero => exact fun s hs => hs
  | succ depth ih =>
      refine stays_unfiled_putnRound.bind fun r => Stays.bind ?_ fun _ => stays_unfiled_vctrMemo
      exact Stays.ite (fun _ => ih) fun _ _ hs => hs

theorem stays_unfiled_takeOver {cmem : Cmem} {size : Nat} :
    Stays (Unfiled u m) (takeOver cmem size n) := by
  intro s hs
  simp only [takeOver, ends_ite, ends_bind, ends_byeIf, ends_pure, ends_memalign]
  refine ⟨fun _ => ⟨fun _ => hs, fun _ => hs⟩, fun _ => ends_incrMem (fun _ _ => hs) fun _ _ => ?_⟩
  cases cmem.data with
  | none => exact hs
  | some d =>
      refine Stays.bind stays_unfiled_takeN (fun _ => ?_) _ hs
      exact Stays.bind stays_unfiled_poke fun _ => stays_unfiled_pure

theorem ends_unfiled_putChunkTake {cmem : Cmem} (hs : Unfiled u m s) :
    Ends (putChunkTake u cmem n) s (fun r t => r.vctr.mark = m ∧ Unfiled u m t)
      fun _ t => Unfiled u m t := by
  simp only [putChunkTake, ends_bind, ends_byeIf, ends_getVctr, ends_onlyIf, ends_pure]
  refine ⟨fun _ => hs, fun _ => ⟨fun _ => hs, fun _ => ⟨fun _ => hs, fun v hv => ?_⟩⟩⟩
  have hmark : v.mark = m := hs.1 v hv
  have htake : ∀ {t : St} {size : Nat}, Unfiled u m t → Ends (takeOver cmem size (u32 (n * v.width)))
      t (fun _ r => v.mark = m ∧ Unfiled u m r) fun _ r => Unfiled u m r := fun ht =>
    (stays_unfiled_takeOver _ ht).imp (fun _ _ hr => ⟨hmark, hr⟩) fun _ _ => id
  iterate 4 refine ⟨fun _ => hs, fun _ => ?_⟩
  refine ⟨fun _ => hs, fun _ => ⟨fun _ => ?_, fun _ => ⟨fun _ => hs, fun w _ => htake hs⟩⟩⟩
  -- the window is moved only for a chunk that is not full
  exact (stays_unfiled_vctrMemo s hs).imp (fun _ t ht => ⟨fun _ => ht, fun w _ => htake ht⟩)
    fun _ _ => id

theorem stays_unfiled_putChunkEnter {r : Taken} (hr : r.vctr.mark = m) :
    Stays (Unfiled u m) (putChunkEnter u n r) := by
  refine Stays.bind (stays_unfiled_setChnk (putChnk_unfiled hr)) fun _ => ?_
  refine Stays.bind (stays_unfiled_modVctr fun _ => by simp only [VctrVal.mark]) fun _ => ?_
  exact Stays.bind stays_unfiled_vctrMemo fun _ => stays_unfiled_modVctr fun _ => by simp only [VctrVal.mark]

theorem stays_unfiled_vctrPutChunk {cmem : Cmem} : Stays (Unfiled u m) (vctrPutChunk u cmem n) := by
  intro s hs
  rw [vctrPutChunk, ends_bind]
  refine (ends_unfiled_putChunkTake hs).imp (fun r t ht => ?_) fun _ _ => id
  exact Stays.bind (stays_unfiled_putChunkEnter ht.1) (fun _ => stays_unfiled_pure) t ht.2

/-- **No append** makes a file, or a chunk of another mark. -/
theorem Op.stays_unfiled {o : Op} (ho : o.isPut) : Stays (Unfiled u m) (o.run u) := by
  cases o with
  | put1 x => exact stays_unfiled_vctrPut1
  | putn X n => exact stays_unfiled_vctrPutnLoop
  | putChunk cmem n => exact Stays.bind stays_unfiled_vctrPutChunk fun _ => stays_unfiled_pure
  | _ => exact ho.elim

/-- **A run of appends** makes none. -/
theorem run_unfiled (h : Run (fun _ v o => o.isPut ∧ o.Fair v) a u s L) (hq : a.qtype ≠ .B1)
    (hfit : a.widthOf * a.maxOf < 2 ^ 32) : Unfiled u a.entry.mark s := by
  induction h with
  | add hnew ha =>
      have hg := grown_of_vctrAdd hq hfit hnew ha
      refine ⟨fun v hv => ?_, fun i c hc => ?_⟩
      · obtain rfl := Option.some.inj (hg.vec.found.symm.trans hv)
        rfl
      · rw [hg.vec.empty rfl i] at hc
        contradiction
  | ok _ _ ho hr ih => exact (Op.stays_unfiled ho.1 _ ih).of_ok hr
  | bye _ _ ho hr ih => exact (Op.stays_unfiled ho.1 _ ih).of_error hr

end QStore.Vctr
