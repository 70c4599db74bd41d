import QStore.Vctr.Contract
import QStore.Vctr.SyncedReads
import QStore.Vctr.Unfiled

/-!
# QStore.Vctr.TierRun

The life of a vector once nothing is appended to it any more.

```
vctr_add   vctr_put…   vctr_eov   vctr_make_mem      level 1, 2
                                  vctr_drop_mem      level 1, 2, 3
                                  vctr_chnks_to_lma, vctr_lma_to_chnks
                                  vctr_get1, vctr_get_chunk, vctr_unget_chunk
                                  vctr_get_lma_read, vctr_unget_lma_read
```

The calls on the right come in any order, any number of times, and may fail. A chunk then moves
between memory, its own file and the linear file. What was appended is read from whichever of
them are left, there always is one, and those that are there agree.
-/

namespace QStore.Vctr

open Function

/-- A call on a vector that is made. -/
inductive TierOp
  | makeMem (level : Nat)
  | dropMem (level : Nat)
  | chnksToLma
  | lmaToChnks (level : Nat)
  | get1 (i : Nat)
  | getChunk (i : Nat)
  | ungetChunk (i : Nat)
  | getLmaRead
  | ungetLmaRead

namespace TierOp

/-- The call, on vector `u`. -/
def run (blank : Nat → List UInt8) (u : Nat) : TierOp → M Unit
  | makeMem level => vctrMakeMem u level
  | dropMem level => vctrDropMem u level
  | chnksToLma => vctrChnksToLma blank u
  | lmaToChnks level => vctrLmaToChnks blank u level
  | get1 i => do let _ ← vctrGet1 u i
  | getChunk i => do let _ ← vctrGetChunk u i
  | ungetChunk i => vctrUngetChunk u i
  | getLmaRead => do let _ ← vctrGetLmaRead u
  | ungetLmaRead => vctrUngetLmaRead u

/-- What a caller owes: a file is made only of chunks that are in memory or have one, since
`chnk_make_mem` writes from `l1_mem` without looking at it; and an `int` can count the readers. -/
def Allowed (s : St) (u : Nat) (v : VctrVal) : TierOp → Prop
  | makeMem level => level = 2 → Backed s u
  | get1 _ | getChunk _ | getLmaRead => v.numReaders + 1 < 2 ^ 31
  | _ => True

end TierOp

/-- Calls on vector `u`, each allowed where it is made, whether they succeed or fail. -/
inductive TierRun (blank : Nat → List UInt8) (u : Nat) (s : St) : St → Prop
  | start : TierRun blank u s s
  | call {t : St} {v : VctrVal} {o : TierOp} (h : TierRun blank u s t) (hv : t.vctrs u = some v)
      (ho : o.Allowed t u v) : TierRun blank u s (final (o.run blank u) t)

variable {blank : Nat → List UInt8} {a : AddArgs} {s t : St} {u i n : Nat} {v w : VctrVal}
  {c : ChnkVal} {L : List (List UInt8)} {D : List UInt8} {o : TierOp}

/-! ## one call, and all of them -/

/-- The fields that change once a vector is made: whether it has a linear file, and who reads it. -/
def VctrVal.SameBut (v w : VctrVal) : Prop :=
  ∃ b r x, w = { v with isLma := b, numReaders := r, x := x }

theorem VctrVal.SameBut.trans {w' : VctrVal} (h : v.SameBut w) (h' : w.SameBut w') :
    v.SameBut w' := by
  obtain ⟨b, r, x, rfl⟩ := h
  obtain ⟨b', r', x', rfl⟩ := h'
  exact ⟨b', r', x', rfl⟩

/-- **One call** keeps a vector whose copies agree, and has a meaning. -/
theorem Synced.step (h : Synced s u v D) (ho : o.Allowed s u v) (hq : v.qtype ≠ .B1)
    (hwide : v.width * v.maxChnkIdx < 2 ^ 32) (hblank : ∀ n, (blank n).length = n) :
    Ends (o.run blank u) s (fun _ t => ∃ w, v.SameBut w ∧ Synced t u w D)
      fun e t => e ≠ .ub ∧ ∃ w, v.SameBut w ∧ Synced t u w D := by
  have hkeep : ∀ {t}, Synced t u v D → ∃ w, v.SameBut w ∧ Synced t u w D :=
    fun ht => ⟨v, ⟨v.isLma, v.numReaders, v.x, rfl⟩, ht⟩
  have hlma : ∀ {t}, (∃ b, Synced t u { v with isLma := b } D) → ∃ w, v.SameBut w ∧ Synced t u w D :=
    fun ⟨b, ht⟩ => ⟨_, ⟨b, v.numReaders, v.x, rfl⟩, ht⟩
  have hread : ∀ {t}, (∃ r x, Synced t u (v.readBy r x) D) → ∃ w, v.SameBut w ∧ Synced t u w D :=
    fun ⟨r, x, ht⟩ => ⟨_, ⟨v.isLma, r, x, rfl⟩, ht⟩
  cases o with
  | makeMem level =>
      exact (h.ends_vctrMakeMem ho).imp (fun _ _ => hkeep) fun _ _ he => ⟨he.1, hkeep he.2⟩
  | dropMem level =>
      exact h.ends_vctrDropMem.imp (fun _ _ => hlma) fun _ _ he => ⟨he.1, hkeep he.2⟩
  | chnksToLma =>
      exact (h.ends_vctrChnksToLma hblank).imp (fun _ _ => hlma) fun _ _ he => ⟨he.1, hkeep he.2⟩
  | lmaToChnks level =>
      exact (h.ends_vctrLmaToChnks hwide hblank).imp (fun _ _ => hkeep)
        fun _ _ he => ⟨he.1, hkeep he.2⟩
  | get1 i =>
      refine Ends.bind ((h.ends_vctrGet1 hq ho).imp (fun _ _ => id) fun _ _ he => ?_) fun _ _ ht =>
        hread ht.2
      exact ⟨he.1, hread he.2.2⟩
  | getChunk i =>
      refine Ends.bind ((h.ends_vctrGetChunk hq ho).imp (fun _ _ => id) fun _ _ he => ?_)
        fun _ _ ht => hread ht.2.2
      exact ⟨he.1, hread he.2.2⟩
  | ungetChunk i =>
      exact h.ends_vctrUngetChunk.imp (fun _ _ => hread) fun _ _ he => ⟨he.1, hread he.2⟩
  | getLmaRead =>
      refine Ends.bind ((h.ends_vctrGetLmaRead ho).imp (fun _ _ => id) fun e t he => ?_)
        fun _ _ ht => hread ht.2
      obtain ⟨he, -, rfl⟩ := he
      exact ⟨he, hkeep h⟩
  | ungetLmaRead =>
      refine h.ends_vctrUngetLmaRead.imp (fun _ _ => hread) ?_
      rintro e t ⟨he, rfl⟩
      exact ⟨he, hkeep h⟩

/-- **Any calls** keep it. -/
theorem TierRun.synced (hrun : TierRun blank u s t) (h : Synced s u v D) (hq : v.qtype ≠ .B1)
    (hwide : v.width * v.maxChnkIdx < 2 ^ 32) (hblank : ∀ n, (blank n).length = n) :
    ∃ w, v.SameBut w ∧ Synced t u w D := by
  induction hrun with
  | start => exact ⟨v, ⟨v.isLma, v.numReaders, v.x, rfl⟩, h⟩
  | call _ hv ho ih =>
      obtain ⟨w, hw, hk⟩ := ih
      obtain rfl := Option.some.inj (hk.held.found.symm.trans hv)
      obtain ⟨b, r, x, rfl⟩ := id hw
      obtain ⟨w', hw', hk'⟩ := ((hk.step ho hq hwide hblank).imp (fun _ _ => id)
        fun _ _ he => he.2).final
      exact ⟨w', hw.trans hw', hk'⟩

/-! ## from `vctr_add` on -/

/-- The elements `L` of vector `u` are all there: every read returns what was appended, every copy
holds it, and each chunk has one. No call that is allowed is without a meaning. -/
structure StillThere (blank : Nat → List UInt8) (s : St) (u : Nat) (v : VctrVal)
    (L : List (List UInt8)) : Prop where
  num : v.numElements = L.length
  get1 : v.numReaders + 1 < 2 ^ 31 → ∀ i (hi : i < L.length), ∃ t, vctrGet1 u i s = .ok L[i] t
  past : ∀ i, L.length ≤ i → vctrGet1 u i s = .error (.bye (-1)) s
  getChunk : v.numReaders + 1 < 2 ^ 31 → ∀ i, i ≤ v.maxChnkIdx → ∃ g t, vctrGetChunk u i s = .ok g t ∧
    v.page L.flatten i <+: g.bytes ∧ (v.page L.flatten i).length = v.width * g.num
  copies : ∀ i, i ≤ v.maxChnkIdx → ∃ c, s.chnks (u, i) = some c ∧
    (∀ b, c.l1Mem = some b → v.page L.flatten i <+: b.bytes) ∧
    (c.l2Exists = true → ∃ f bs, l2FileName u i = some f ∧ s.fs.read f = some bs ∧
      v.page L.flatten i <+: bs) ∧
    (c.l1Mem = none → c.l2Exists = false → v.isLma = true)
  lma : v.isLma = true → s.fs.read (lmaFile u) = some L.flatten
  defined : ∀ (o : TierOp) t, o.Allowed s u v → o.run blank u s ≠ .error .ub t

theorem Synced.num (h : Synced s u v L.flatten) (hL : ∀ x ∈ L, x.length = v.width) :
    v.numElements = L.length := by
  have hlen := h.held.shape.len
  rw [length_flatten_of_eq hL] at hlen
  exact (Nat.eq_of_mul_eq_mul_left h.held.shape.width_pos hlen).symm

theorem Synced.stillThere (h : Synced s u v L.flatten) (hL : ∀ x ∈ L, x.length = v.width)
    (hq : v.qtype ≠ .B1) (hsc : v.qtype ≠ .SC) (hwide : v.width * v.maxChnkIdx < 2 ^ 32)
    (hblank : ∀ n, (blank n).length = n) : StillThere blank s u v L where
  num := h.num hL
  get1 hr i hi := by
    have hnum := h.num hL
    obtain ⟨y, t, hrun, hy, -⟩ := Ends.returns <|
      (h.ends_vctrGet1 (i := i) hq hr).imp (fun _ _ => id) fun _ _ he => by
        have := he.2.1 hsc
        omega
    exact ⟨t, by rw [hrun, hy]; exact congrArg (EStateM.Result.ok · t) (take_drop_flatten hL hi)⟩
  past i hi := h.vctrGet1_past (h.num hL ▸ hi)
  getChunk hr i hi := by
    obtain ⟨g, t, hrun, hpage, hnum, -⟩ := Ends.returns <|
      (h.ends_vctrGetChunk (i := i) hq hr).imp (fun _ _ => id) fun _ _ he => by
        have := he.2.1
        omega
    exact ⟨g, t, hrun, hpage, hnum⟩
  copies i hi := by
    obtain ⟨c, hc, hok⟩ := h.inside hi
    refine ⟨c, hc, fun b hb => (hok.l1 b hb).2, fun he => ?_, hok.kept⟩
    obtain ⟨f, bs, hf, hr, -, hw⟩ := hok.l2 he
    exact ⟨f, bs, hf, hr, hw (.inl trivial)⟩
  lma hl := (h.line hl).file
  defined o t ho hrun := ((h.step ho hq hwide hblank).of_error hrun).1 rfl

/-- A vector that has been appended to, and is ended, has copies in memory only. -/
theorem Grown.synced {e : Bool} (h : Grown a s u v L) (hm : a.isMemo = false) (hL : L ≠ [])
    (hnames : L.length ≤ (2 ^ 24 - 1) * a.maxOf) (hu : Unfiled u a.entry.mark s)
    (hfs : ∀ i f, l2FileName u i = some f → s.fs.read f = none)
    (hv : t.vctrs u = some { v with isEov := e }) (hc : t.chnks = s.chnks) (hf : t.fs = s.fs) :
    Synced t u { v with isEov := e } L.flatten := by
  have hmemo : v.memoLen = 0 := (static_memoLen h.static).trans (h.args.memoLen_eq hm)
  have hpos : 0 < L.length := List.length_pos_iff.mpr hL
  have hmax : v.maxNumInChnk = a.maxOf := static_maxNumInChnk h.static
  obtain ⟨hheld, hlast⟩ := h.vec.held (h.num ▸ hpos)
  have hshape := h.vec.shape
  refine ⟨⟨hv, ⟨hshape.width_pos, hshape.max_pos, hshape.size_lt, hshape.len, hshape.min_le,
    hshape.lo, hshape.hi, hshape.idx_lt⟩, fun i hlo hhi => ?_, fun i hi => ?_⟩, ?_, hlast, ?_, ?_,
    fun _ => ?_, fun i c f hci he hfi => ?_, fun hl => ?_⟩
  · obtain ⟨c, hci, hok⟩ := hheld.inside i hlo hhi
    rw [hc, hf]
    refine ⟨c, hci, hok.count, hok.size_eq, hok.fits, hok.writers, hok.l1, fun he => ?_, hok.kept⟩
    rw [(hu.2 i c hci).1] at he
    contradiction
  · rw [hc]
    exact hheld.outside i hi
  · exact h.narrow.trans (if_pos hmemo)
  · have hlt : v.maxChnkIdx * a.maxOf < (2 ^ 24 - 1) * a.maxOf := by
      have := h.num
      rw [← hmax]
      rw [← hmax] at hnames
      omega
    have := Nat.lt_of_mul_lt_mul_right hlt
    show v.maxChnkIdx + 1 < 2 ^ 24
    omega
  · exact (congrArg VctrVal.numWriters h.static :)
  · exact (congrArg VctrVal.x h.static :)
  · rw [hf]
    exact hfs i f hfi
  · have hno : v.isLma = false := h.isLma
    exact absurd (hno.symm.trans hl) (by simp)

section Life

variable {s₁ : St} (h : Run (fun _ v o => o.isPut ∧ o.Fair v) a u s L) (hq : a.qtype ≠ .B1)
  (hsc : a.qtype ≠ .SC) (hm : a.isMemo = false) (hfit : a.widthOf * a.maxOf < 2 ^ 32) (hL : L ≠ [])
  (hnames : L.length ≤ (2 ^ 24 - 1) * a.maxOf)
  (hwide : a.widthOf * L.length < 2 ^ 32 * a.maxOf)
  (hfs : ∀ i f, l2FileName u i = some f → s.fs.read f = none)
  (hblank : ∀ n, (blank n).length = n) (heov : vctrEov u s = .ok () s₁)
include h hq hsc hm hfit hL hnames hfs heov

/-- A vector is ended as it was filled. -/
theorem run_ended : ∃ v, Grown a s u v L ∧ Unfiled u a.entry.mark s ∧
    Synced s₁ u { v with isEov := true } L.flatten ∧ s₁.chnks = s.chnks := by
  obtain ⟨v, hg⟩ := run_grown_puts h hm hq hsc hfit
  have hunf := run_unfiled h hq hfit
  have hmemo : v.memoLen = 0 := (static_memoLen hg.static).trans (hg.args.memoLen_eq hm)
  have hend : Ends (vctrEov u) s (fun _ t => Synced t u { v with isEov := true } L.flatten ∧
      t.chnks = s.chnks) fun _ _ => True := by
    simp only [vctrEov, vctrMemo, ends_bind, ends_getVctr_of hg.vec.found, ends_ite, ends_pure,
      ends_byeIf, ends_modVctr_of hg.vec.found]
    refine ⟨fun he => ⟨?_, trivial⟩, fun _ =>
      ⟨fun _ => trivial, fun _ => ⟨fun _ => ?_, fun hno => absurd hmemo hno⟩⟩⟩
    · have hsame : ({ v with isEov := true } : VctrVal) = v := by rw [← he]
      exact hg.synced hm hL hnames hunf hfs (hsame ▸ hg.vec.found) rfl rfl
    · exact ⟨hg.synced hm hL hnames hunf hfs St.setVctr_self rfl rfl, rfl⟩
  exact ⟨v, hg, hunf, hend.of_ok heov⟩

include hwide hblank

/-- And stays so, but for its linear file and the readers of that. -/
theorem tierRun_synced (hrun : TierRun blank u s₁ t) : ∃ v w, Grown a s u v L ∧
    ({ v with isEov := true } : VctrVal).SameBut w ∧ Synced t u w L.flatten ∧
    w.width * w.maxChnkIdx < 2 ^ 32 := by
  obtain ⟨v, hg, -, hs, -⟩ := run_ended h hq hsc hm hfit hL hnames hfs heov
  have hqt : v.qtype = a.qtype := static_qtype hg.static
  have hmax : v.maxNumInChnk = a.maxOf := static_maxNumInChnk hg.static
  have hwidth : v.width * v.maxChnkIdx < 2 ^ 32 := by
    refine Nat.lt_of_mul_lt_mul_right (a := a.maxOf) (Nat.lt_of_le_of_lt ?_ hwide)
    rw [static_width hg.static, Nat.mul_assoc, ← hmax, ← hg.num]
    exact Nat.mul_le_mul_left _ hg.vec.shape.lo
  obtain ⟨w, ⟨b, r, x, rfl⟩, hw⟩ := hrun.synced hs (by simpa [hqt] using hq) hwidth hblank
  exact ⟨v, _, hg, ⟨b, r, x, rfl⟩, hw, hwidth⟩

/-- **A vector's life**: filled by any appends, ended, and then moved between memory, its files and
its linear file by any calls in any order, it has every element it was given. -/
theorem tierRun_stillThere (hrun : TierRun blank u s₁ t) :
    ∃ v, t.vctrs u = some v ∧ StillThere blank t u v L := by
  obtain ⟨v, _, hg, ⟨b, r, x, rfl⟩, hw, hwidth⟩ :=
    tierRun_synced h hq hsc hm hfit hL hnames hwide hfs hblank heov hrun
  have hqt : v.qtype = a.qtype := static_qtype hg.static
  exact ⟨_, hw.held.found, hw.stillThere hg.each (by simpa [hqt] using hq)
    (by simpa [hqt] using hsc) hwidth hblank⟩

end Life

/-- A call on a vector that has room for a reader. -/
theorem TierRun.next (h : TierRun blank u s t)
    (hv : (t.vctrs u).any (fun v => v.numReaders + 1 < 2 ^ 31) = true)
    (ho : ∀ v, v.numReaders + 1 < 2 ^ 31 → o.Allowed t u v) :
    TierRun blank u s (final (o.run blank u) t) := by
  obtain ⟨v, hv, hlt⟩ := (Option.any_eq_true _ _).mp hv
  exact h.call hv (ho v (by simpa using hlt))

/-- A vector of bytes with two chunks, at its end. -/
def ended : St := final (vctrEov 1) (final (vctrPutn 1 sixtyFive 65) (added (plainArgs .I1 0)))

/-- It is laid out in the linear file, dropped from memory, and read. -/
theorem tierRun_stillThere_sixtyFive : ∃ t v, t.vctrs 1 = some v ∧
    StillThere (fun n => List.replicate n 0) t 1 v (slices 1 65 sixtyFive) := by
  have r0 : TierRun (fun n => List.replicate n 0) 1 ended ended := .start
  have r1 := r0.next (o := .chnksToLma) (by decide +kernel) fun _ _ => trivial
  have r2 := r1.next (o := .dropMem 1) (by decide +kernel) fun _ _ => trivial
  have r3 := r2.next (o := .get1 64) (by decide +kernel) fun _ h => h
  obtain ⟨v, hv, hthere⟩ := tierRun_stillThere run_sixtyFive (by decide) (by decide) rfl (by decide)
    (by simp [slices]) (by decide +kernel) (by decide +kernel) (fun _ _ _ => rfl) (by simp)
    (run_of_outcome_ok (by decide +kernel)) r3
  exact ⟨_, v, hv, hthere⟩

end QStore.Vctr
