import QStore.Vctr.Links
import QStore.Vctr.TierRun

/-!
# QStore.Vctr.Marked

What a chunk has of its vector, its type and how often it is not to be freed, no call on a vector
that is made changes.
-/

namespace QStore.Vctr

variable {a : AddArgs} {s t : St} {u i n level : Nat} {v : VctrVal} {c : ChnkVal} {m : Qtype × Nat}
  {blank : Nat → List UInt8} {o : TierOp}

/-- The chunks of the vector have the mark. -/
def Marked (u : Nat) (m : Qtype × Nat) (s : St) : Prop :=
  ∀ i c, s.chnks (u, i) = some c → c.mark = m

theorem Marked.setChnk (h : Marked u m s) (hc : c.mark = m) : Marked u m (s.setChnk u i c) := by
  intro j d hd
  by_cases hji : j = i
  · subst hji
    rw [St.setChnk_self, Option.some.injEq] at hd
    exact hd ▸ hc
  · rw [St.setChnk_of_ne (by simp [hji])] at hd
    exact h j d hd

/-- What changes no chunk. -/
theorem stays_marked_of {α : Type} {f : M α} (h : Keeps St.chnks f) : Stays (Marked u m) f :=
  h.stays (I := fun chnks => ∀ i c, chnks (u, i) = some c → c.mark = m) fun _ => Iff.rfl

theorem stays_marked_forUp {body : Nat → M Unit} (h : ∀ i, Stays (Marked u m) (body i)) :
    Stays (Marked u m) (forUp body i n) := by
  induction n generalizing i with
  | zero => exact fun s hs => hs
  | succ n ih => exact Stays.bind (h i) fun _ => ih

/-! ## a chunk -/

theorem stays_marked_chnkGetData : Stays (Marked u m) (chnkGetData u i false) := by
  intro s hs
  simp only [chnkGetData, Bool.false_eq_true, if_false, ends_bind, ends_getChnk]
  refine ⟨fun _ => hs, fun c hc => ?_⟩
  have hmark : c.mark = m := hs i c hc
  simp only [ends_ite, ends_pure, ends_bind, ends_setChnk]
  refine ⟨fun _ => hs, fun _ => ?_⟩
  cases hl : c.l1Mem with
  | some b => exact hs.setChnk hmark
  | none =>
      rw [ends_ite]
      refine ⟨fun _ => hs.setChnk hmark, fun _ => ?_⟩
      cases hf : l2FileName u i with
      | none => exact hs.setChnk hmark
      | some f =>
          simp only [ends_bind, ends_get]
          split
          · exact hs.setChnk hmark
          · simp only [ends_ite, ends_pure, ends_bind, ends_memalign, ends_setChnk]
            refine ⟨fun _ => hs.setChnk hmark, fun _ => ends_ignore_incrMem fun _ _ => ?_⟩
            exact (hs.setChnk (i := i) (c := { c with numReaders := c.numReaders + 1, l1Mem := none })
              hmark).setChnk hmark

theorem stays_marked_chnkMakeMem : Stays (Marked u m) (chnkMakeMem u i level) := by
  intro s hs
  rw [chnkMakeMem, ends_bind, ends_getChnk]
  refine ⟨fun _ => hs, fun c hc => ?_⟩
  have hmark : c.mark = m := hs i c hc
  rw [ends_bind, ends_l2Name]
  refine ⟨fun _ => hs, fun f _ => ?_⟩
  split
  · cases c.l1Mem with
    | some b => exact hs
    | none =>
        simp only [ends_bind, ends_mmapBytes, ends_byeIf, ends_memalign, ends_setChnk]
        exact ⟨fun _ => hs, fun bs _ => ⟨fun _ => hs, fun _ => ends_ignore_incrMem fun _ _ =>
          Marked.setChnk hs hmark⟩⟩
  split
  · split
    · exact hs
    cases c.l1Mem with
    | none => exact hs
    | some b =>
        simp only [ends_bind, ends_takeN, ends_writeFile, ends_byeIf]
        exact ⟨fun _ => ⟨fun _ => hs, fun _ => ends_incrDsk (fun _ _ => hs) fun _ _ =>
          Marked.setChnk hs hmark⟩, fun _ => hs⟩
  · exact hs

theorem stays_marked_chnkDropMem : Stays (Marked u m) (chnkDropMem u i level) := by
  intro s hs
  rw [chnkDropMem, ends_bind, ends_getVctr]
  refine ⟨fun _ => hs, fun v _ => ?_⟩
  rw [ends_bind, ends_getChnk]
  refine ⟨fun _ => hs, fun c hc => ?_⟩
  have hmark : c.mark = m := hs i c hc
  split
  · split
    · exact hs
    split
    · exact hs
    rw [ends_bind, ends_setChnk]
    exact ends_decrMemUsed (fun _ => hs.setChnk hmark) fun _ => hs.setChnk hmark
  split
  · split
    · exact hs
    rw [ends_bind, ends_l2Name]
    refine ⟨fun _ => hs, fun f _ => ?_⟩
    split
    · exact hs
    rw [ends_bind, ends_unlinkFile]
    refine ⟨fun _ => hs, fun bs _ => ?_⟩
    rw [ends_bind]
    exact ends_decrDskUsed (fun _ => hs) fun _ => Marked.setChnk hs hmark
  · exact hs

/-! ## the linear file -/

theorem keepsChnks_setVctr : Keeps St.chnks (setVctr u v) := fun _ => rfl

theorem keepsChnks_modVctr {g : VctrVal → VctrVal} : Keeps St.chnks (modVctr u g) :=
  keeps_getVctr.bind fun _ => keepsChnks_setVctr

theorem keepsChnks_mmapBytes {f : FileName} : Keeps St.chnks (mmapBytes f) := by
  intro s
  rw [ends_mmapBytes]
  exact ⟨fun _ => rfl, fun _ _ => rfl⟩

theorem keepsChnks_writeFile {f : FileName} {xs : List UInt8} : Keeps St.chnks (writeFile f xs) :=
  fun _ => rfl

theorem keepsChnks_rsMmap {f : FileName} : Keeps St.chnks (rsMmap f) := by
  intro s
  rw [ends_rsMmap]
  exact ⟨fun _ => rfl, fun _ _ => ⟨fun _ => rfl, fun _ => rfl⟩⟩

theorem keepsChnks_storeFile {f : FileName} {xs : List UInt8} : Keeps St.chnks (storeFile f n xs) := by
  refine keeps_get.bind fun s => ?_
  cases s.fs.dir f with
  | none => exact keeps_throw
  | some ino =>
      exact keeps_get.bind fun s => Keeps.ite (fun _ => keeps_modify fun _ => rfl) fun _ => keeps_throw

theorem keepsChnks_takeN {xs : List UInt8} : Keeps St.chnks (takeN xs n) :=
  Keeps.ite (fun _ => keeps_pure) fun _ => keeps_throw

theorem keepsChnks_memalign : Keeps St.chnks (memalign n) := fun _ => rfl

theorem keepsChnks_poke {b : Buf} {xs : List UInt8} : Keeps St.chnks (poke b n xs) :=
  Keeps.ite (fun _ => keeps_pure) fun _ => keeps_throw

theorem keepsChnks_slice {xs : List UInt8} : Keeps St.chnks (slice xs i n) :=
  Keeps.ite (fun _ => keeps_pure) fun _ => keeps_throw

theorem keepsChnks_readMapping {x : Option Mapping} : Keeps St.chnks (readMapping x i n) := by
  cases x with
  | none => exact keeps_throw
  | some m =>
      exact Keeps.ite (fun _ => keeps_get.bind fun _ => keepsChnks_slice) fun _ => keeps_throw

theorem stays_marked_lmaSource : Stays (Marked u m) (lmaSource u i c) := by
  rw [lmaSource]
  cases c.l1Mem with
  | none =>
      refine stays_marked_of (keeps_byeIf.bind fun _ => keeps_l2Name.bind fun f => ?_)
      exact keepsChnks_mmapBytes.bind fun _ => keeps_pure
  | some b =>
      refine stays_marked_chnkGetData.bind fun data s hs => ?_
      simp only [ends_bind, ends_getChnk, ends_byeIf, ends_setChnk, ends_pure]
      exact ⟨fun _ => hs, fun d hd => ⟨fun _ => hs, fun _ => hs.setChnk (hs i d hd)⟩⟩

theorem stays_marked_copyChnk {filesz : Nat} : Stays (Marked u m) (copyChnk u v filesz i n) := by
  intro s hs
  rw [copyChnk, ends_bind, ends_getChnk]
  refine ⟨fun _ => hs, fun c _ => ?_⟩
  refine (stays_marked_of keeps_byeIf).bind (fun _ => ?_) s hs
  refine (stays_marked_of keeps_byeIf).bind fun _ => ?_
  refine stays_marked_lmaSource.bind fun data => ?_
  refine stays_marked_of (keeps_byeIf.bind fun _ => ?_)
  cases data with
  | none => exact keeps_throw
  | some bs => exact keepsChnks_takeN.bind fun _ => keepsChnks_storeFile.bind fun _ => keeps_pure

theorem stays_marked_copyChnks {filesz off : Nat} :
    Stays (Marked u m) (copyChnks u v filesz i off n) := by
  induction n generalizing i off with
  | zero => exact fun s hs => hs
  | succ n ih => exact stays_marked_copyChnk.bind fun _ => ih

theorem stays_marked_vctrChnksToLma : Stays (Marked u m) (vctrChnksToLma blank u) := by
  intro s hs
  simp only [vctrChnksToLma, ends_bind, ends_byeIf, ends_getVctr]
  refine ⟨fun _ => hs, fun _ => ⟨fun _ => hs, fun v _ => ?_⟩⟩
  rw [ends_ite]
  refine ⟨fun _ => hs, fun _ => ?_⟩
  simp only [ends_bind, ends_byeIf, ends_get]
  iterate 12 refine ⟨fun _ => hs, fun _ => ?_⟩
  refine ends_incrDsk (fun _ _ => hs) fun n b => ?_
  rw [ends_writeFile, ends_ite]
  refine ⟨fun _ => hs, fun _ => ?_⟩
  exact Stays.bind stays_marked_copyChnks (fun _ => stays_marked_of keepsChnks_modVctr) _ hs

theorem stays_marked_modChnk {g : ChnkVal → ChnkVal} (hg : ∀ c, (g c).mark = c.mark) :
    Stays (Marked u m) (modChnk u i g) := by
  intro s hs
  rw [ends_modChnk]
  exact ⟨fun _ => hs, fun c hc => hs.setChnk ((hg c).trans (hs i c hc))⟩

theorem stays_marked_copyFromLma {x : Option Mapping} :
    Stays (Marked u m) (copyFromLma blank u v x level i) := by
  intro s hs
  rw [copyFromLma, ends_bind, ends_getChnk]
  refine ⟨fun _ => hs, fun c hc => ?_⟩
  have hset : ∀ l1 l2, Stays (Marked u m) (setChnk u i { c with l1Mem := l1, l2Exists := l2 }) :=
    fun _ _ t ht => ht.setChnk (hs i c hc)
  split
  · refine (stays_marked_of keepsChnks_memalign).bind (fun b => ?_) s hs
    refine (stays_marked_of keepsChnks_readMapping).bind fun y => ?_
    refine (stays_marked_of keepsChnks_poke).bind fun b => ?_
    refine (hset (some b) c.l2Exists).bind fun _ => ?_
    exact fun _ ht => ends_ignore_incrMem fun _ _ => ht
  · refine (stays_marked_of keeps_byeIf).bind (fun _ => ?_) s hs
    refine (stays_marked_of keeps_l2Name).bind fun f => ?_
    refine (stays_marked_of keepsChnks_writeFile).bind fun _ => ?_
    refine (stays_marked_of keepsChnks_rsMmap).bind fun _ => ?_
    refine (stays_marked_of keepsChnks_readMapping).bind fun y => ?_
    refine (stays_marked_of keepsChnks_storeFile).bind fun _ => ?_
    refine (hset c.l1Mem true).bind fun _ t ht => ?_
    rw [ends_ignoreStatus]
    exact ends_incrDsk (fun _ _ => ht) fun _ _ => ht

theorem stays_marked_resurrectChnk {x : Option Mapping} :
    Stays (Marked u m) (resurrectChnk blank u v x level i) := by
  refine (stays_marked_of keeps_getChnk).bind fun c => stays_marked_chnkGetData.bind fun data => ?_
  have hback : Stays (Marked u m) (modChnk u i fun d => { d with numReaders := c.numReaders }) :=
    stays_marked_modChnk fun _ => rfl
  cases data with
  | some b => exact hback
  | none => exact stays_marked_copyFromLma.bind fun _ => hback

theorem stays_marked_vctrLmaToChnks : Stays (Marked u m) (vctrLmaToChnks blank u level) := by
  intro s hs
  simp only [vctrLmaToChnks, ends_bind, ends_byeIf, ends_getVctr]
  refine ⟨fun _ => hs, fun _ => ⟨fun _ => hs, fun _ => ⟨fun _ => hs, fun v _ => ?_⟩⟩⟩
  iterate 7 refine ⟨fun _ => hs, fun _ => ?_⟩
  rw [ends_mmapBytes]
  refine ⟨fun _ => hs, fun bs _ => ⟨fun _ => hs, fun _ => ?_⟩⟩
  have hrest : ∀ x, Stays (Marked u m) (do
      byeIf (nX x = 0)
      byeIf (v.maxNumInChnk = 0)
      forUp (resurrectChnk blank u v x level) 0 v.numChnks
      modVctr u fun w => { w with x := w.x.map fun m => { m with live := false } }) := fun x =>
    (stays_marked_of keeps_byeIf).bind fun _ => (stays_marked_of keeps_byeIf).bind fun _ =>
      (stays_marked_forUp fun _ => stays_marked_resurrectChnk).bind fun _ =>
        stays_marked_of keepsChnks_modVctr
  cases v.x with
  | some m => exact hrest _ s hs
  | none => exact (stays_marked_of keepsChnks_rsMmap).bind hrest s hs

/-! ## reading -/

theorem keepsChnks_incrNumReaders : Keeps St.chnks (incrNumReaders u) :=
  keeps_getVctr.bind fun _ => Keeps.ite (fun _ => keepsChnks_setVctr) fun _ => keeps_throw

theorem keepsChnks_decrNumReaders : Keeps St.chnks (decrNumReaders u) :=
  keeps_getVctr.bind fun _ => keepsChnks_setVctr

theorem keepsChnks_mapLma : Keeps St.chnks (do
    let x ← rsMmap (lmaFile u)
    setVctr u { v with x := x }
    incrNumReaders u
    pure x) :=
  keepsChnks_rsMmap.bind fun _ => keepsChnks_setVctr.bind fun _ =>
    keepsChnks_incrNumReaders.bind fun _ => keeps_pure

theorem keepsChnks_vctrGetLmaXnX : Keeps St.chnks (vctrGetLmaXnX u) :=
  keeps_getVctr.bind fun _ => Keeps.ite (fun _ => keepsChnks_incrNumReaders.bind fun _ => keeps_pure)
    fun _ => keepsChnks_mapLma

theorem keepsChnks_vctrGet1Lma : Keeps St.chnks (vctrGet1Lma u i) := by
  refine keeps_getVctr.bind fun v => keeps_byeIf.bind fun _ => keeps_byeIf.bind fun _ => ?_
  refine keeps_byeIf.bind fun _ => keepsChnks_vctrGetLmaXnX.bind fun x => keeps_byeIf.bind fun _ => ?_
  refine keeps_byeIf.bind fun _ => keeps_byeIf.bind fun _ => keepsChnks_readMapping.bind fun y => ?_
  refine Keeps.bind ?_ fun _ => keeps_pure
  exact keeps_getVctr.bind fun _ => keeps_byeIf.bind fun _ => keepsChnks_decrNumReaders

theorem keepsChnks_elemAt {b : Buf} : Keeps St.chnks (elemAt v n b i) := by
  refine Keeps.ite (fun _ => keeps_pure) fun _ => Keeps.ite (fun _ => ?_) fun _ =>
    Keeps.ite (fun _ => ?_) fun _ => keepsChnks_slice.bind fun _ => keeps_pure
  · exact keepsChnks_slice.bind fun _ => keeps_pure
  · cases getBit b.bytes i with
    | none => exact keeps_throw
    | some x => exact keeps_pure

theorem stays_marked_vctrGet1 : Stays (Marked u m) (vctrGet1 u i) := by
  refine (stays_marked_of keeps_getVctr).bind fun v => (stays_marked_of keeps_byeIf).bind fun _ => ?_
  refine Stays.ite (fun _ => stays_marked_of keepsChnks_vctrGet1Lma) fun _ => ?_
  refine Stays.ite (fun _ => stays_marked_of keeps_throw) fun _ => ?_
  refine (stays_marked_of keeps_getChnk).bind fun _ => stays_marked_chnkGetData.bind fun data => ?_
  cases data with
  | none => exact stays_marked_of keeps_throw
  | some b =>
      refine (stays_marked_of keeps_getChnk).bind fun c => ?_
      refine (stays_marked_of keepsChnks_elemAt).bind fun r => ?_
      refine (stays_marked_modChnk (g := fun c => { c with numReaders := c.numReaders - 1 })
        fun _ => rfl).bind fun _ => ?_
      cases r with
      | none => exact stays_marked_of keeps_throw
      | some x => exact stays_marked_of keeps_pure

theorem stays_marked_vctrGetChunk : Stays (Marked u m) (vctrGetChunk u i) := by
  refine (stays_marked_of keeps_getVctr).bind fun v => Stays.ite (fun _ => ?_) fun _ => ?_
  · refine stays_marked_of (keeps_getVctr.bind fun v => keeps_byeIf.bind fun _ => ?_)
    refine keeps_byeIf.bind fun _ => keepsChnks_vctrGetLmaXnX.bind fun x => ?_
    refine keeps_byeIf.bind fun _ => keeps_get.bind fun _ => ?_
    exact Keeps.ite (fun _ => keeps_throw) fun _ => keeps_pure
  · refine (stays_marked_of keeps_getChnk).bind fun _ => stays_marked_chnkGetData.bind fun data => ?_
    cases data with
    | none => exact stays_marked_of keeps_throw
    | some b => exact stays_marked_of keeps_pure

theorem stays_marked_vctrUngetChunk : Stays (Marked u m) (vctrUngetChunk u i) := by
  refine (stays_marked_of keeps_getVctr).bind fun v => Stays.ite (fun _ => ?_) fun _ s hs => ?_
  · exact stays_marked_of (keeps_byeIf.bind fun _ => keepsChnks_decrNumReaders)
  · simp only [ends_bind, ends_getChnk, ends_byeIf, ends_setChnk]
    exact ⟨fun _ => hs, fun c hc => ⟨fun _ => hs, fun _ => hs.setChnk (hs i c hc)⟩⟩

theorem keepsChnks_vctrGetLmaRead : Keeps St.chnks (vctrGetLmaRead u) := by
  refine keeps_get.bind fun s => ?_
  cases s.vctrs u with
  | none => exact keeps_pure
  | some v =>
      refine keeps_byeIf.bind fun _ => keeps_byeIf.bind fun _ => ?_
      cases v.x with
      | none => exact keepsChnks_mapLma
      | some m => exact keepsChnks_incrNumReaders.bind fun _ => keeps_pure

theorem keepsChnks_vctrUngetLmaRead : Keeps St.chnks (vctrUngetLmaRead u) := by
  refine keeps_getVctr.bind fun v => keeps_byeIf.bind fun _ => keeps_byeIf.bind fun _ => ?_
  exact keeps_byeIf.bind fun _ => keeps_byeIf.bind fun _ => keepsChnks_decrNumReaders

/-! ## a call, and all of them -/

theorem stays_marked_vctrDropMem : Stays (Marked u m) (vctrDropMem u level) := by
  have hall : ∀ n i, Keeps St.chnks (allMem u i n) := by
    intro n
    induction n with
    | zero => exact fun _ => keeps_pure
    | succ n ih =>
        refine fun i => Keeps.bind ?_ fun b => Keeps.ite (fun _ => ih (i + 1)) fun _ => keeps_pure
        exact keeps_getVctr.bind fun _ => keeps_getChnk.bind fun _ => keeps_pure
  have hdrop : Keeps St.chnks (dropLma u) := by
    refine keeps_get.bind fun s => ?_
    cases s.fs.read (lmaFile u) with
    | none => exact keeps_throw
    | some bs =>
        refine Keeps.bind (keeps_modify fun _ => rfl) fun _ => Keeps.bind ?_ fun st => ?_
        · intro s
          rw [ends_statusOf]
          exact ends_decrDskUsed (fun _ => rfl) fun _ => rfl
        · exact keepsChnks_modVctr.bind fun _ => Keeps.ite (fun _ => keeps_throw) fun _ => keeps_pure
  refine (stays_marked_of keeps_byeIf).bind fun _ => (stays_marked_of keeps_getVctr).bind fun v => ?_
  refine Stays.ite (fun _ => ?_) fun _ => Stays.ite (fun _ => ?_) fun _ => stays_marked_of keeps_throw
  · refine Stays.ite (fun _ => stays_marked_of keeps_pure) fun _ => ?_
    exact stays_marked_of ((hall _ _).bind fun _ => keeps_onlyIf fun _ => hdrop)
  · exact stays_marked_forUp fun _ => stays_marked_chnkDropMem

/-- **No call** changes a mark. -/
theorem TierOp.stays_marked : Stays (Marked u m) (o.run blank u) := by
  cases o with
  | makeMem level =>
      refine (stays_marked_of keeps_byeIf).bind fun _ => (stays_marked_of keeps_byeIf).bind fun _ => ?_
      exact (stays_marked_of keeps_getVctr).bind fun v => stays_marked_forUp fun _ =>
        stays_marked_chnkMakeMem
  | dropMem level => exact stays_marked_vctrDropMem
  | chnksToLma => exact stays_marked_vctrChnksToLma
  | lmaToChnks level => exact stays_marked_vctrLmaToChnks
  | get1 i => exact stays_marked_vctrGet1.bind fun _ => stays_marked_of keeps_pure
  | getChunk i => exact stays_marked_vctrGetChunk.bind fun _ => stays_marked_of keeps_pure
  | ungetChunk i => exact stays_marked_vctrUngetChunk
  | getLmaRead => exact stays_marked_of (keepsChnks_vctrGetLmaRead.bind fun _ => keeps_pure)
  | ungetLmaRead => exact stays_marked_of keepsChnks_vctrUngetLmaRead

theorem TierRun.marked (h : TierRun blank u s t) (hs : Marked u m s) : Marked u m t := by
  induction h with
  | start => exact hs
  | call _ _ _ ih => exact (TierOp.stays_marked _ ih).final

end QStore.Vctr
