import QStore.Vctr.Append

/-!
# QStore.Vctr.Mem

Making and dropping the tiers of a whole vector: level 1 is memory, level 2 a
file for each chunk, level 3 the linear file.

A chunk that is given a tier or loses one holds what it held, with one proviso
for each direction: a chunk that has neither tier of its own cannot be given
one (`Backed`), and memory can only go if the file that is left agrees with it
(`Agrees`).
-/

namespace QStore.Vctr

open Function

/-- `vctr_make_mem` -/
def vctrMakeMem (u level : Nat) : M Unit := do
  byeIf (u = 0)
  byeIf (level < 1 ∨ level > 2)
  let v ← getVctr u
  forUp (fun i => chnkMakeMem u i level) v.minChnkIdx (v.maxChnkIdx + 1 - v.minChnkIdx)

/-- Whether all of the `n` chunks from `i` on can be resurrected without the
linear file. -/
def allMem (u : Nat) : Nat → Nat → M Bool
  | _, 0 => pure true
  | i, n + 1 => do
    let chnkMem ← chnkIsMem u i
    if chnkMem then allMem u (i + 1) n else pure false

/-- Delete the linear file. The mapping and the count of its readers stay. -/
def dropLma (u : Nat) : M Unit := do
  match (← get).fs.read (lmaFile u) with
  | none => goBYE
  | some bs => do
    modify fun s => s.setFs (s.fs.unlink (lmaFile u))
    let status ← statusOf (decrDskUsed bs.length)
    modVctr u fun v => { v with isLma := false }
    if status < 0 then throw (.bye status)

/-- `vctr_drop_mem` -/
def vctrDropMem (u level : Nat) : M Unit := do
  byeIf (u = 0)
  let v ← getVctr u
  if level = 3 then
    if v.isLma = false then pure ()
    else do
      let all ← allMem u v.minChnkIdx (v.maxChnkIdx + 1 - v.minChnkIdx)
      onlyIf all (dropLma u)
  else if level = 1 ∨ level = 2 then
    forUp (fun i => chnkDropMem u i level) v.minChnkIdx (v.maxChnkIdx + 1 - v.minChnkIdx)
  else goBYE

variable {s t : St} {u i j n w size level : Nat} {sync : Prop} {lma : Bool} {want D x : List UInt8}
  {v v' : VctrVal} {c c' : ChnkVal}

/-! ## one chunk -/

/-- `t` is `s` but for chunk `(u, i)`, which is `c`, and its file. -/
structure SetsTier (s t : St) (u i : Nat) (c : ChnkVal) : Prop where
  vctrs : t.vctrs = s.vctrs
  chnks : t.chnks = update s.chnks (u, i) (some c)
  files : ∀ f, l2FileName u i ≠ some f → s.fs.Same t.fs f

theorem SetsTier.self (hc : s.chnks (u, i) = some c) : SetsTier s s u i c :=
  ⟨rfl, by rw [← hc, update_eq_self], fun _ _ => Fs.Same.refl⟩

/-- The chunk holds what it held, and is read by as many. -/
def TierOk (s t : St) (sync : Prop) (lma : Bool) (u i w size : Nat) (want : List UInt8)
    (c c' : ChnkVal) : Prop :=
  SetsTier s t u i c' ∧ ChnkOk t.fs sync lma u i w size want c' ∧ c'.numReaders = c.numReaders

/-- `chnk_make_mem` of a chunk that has a tier of its own. It fails only where the
chunk cannot have a file. -/
theorem ends_chnkMakeMem (hc : s.chnks (u, i) = some c)
    (h : ChnkOk s.fs sync lma u i w size want c) (h0 : 0 < size)
    (hm : c.l1Mem = none → c.l2Exists = true) :
    Ends (chnkMakeMem u i level) s
      (fun _ t => ∃ c', TierOk s t sync lma u i w size want c c' ∧
        (c'.l1Mem = none → c'.l2Exists = true))
      fun e t => e = .bye (-1) ∧ t = s := by
  have hself : TierOk s s sync lma u i w size want c c := ⟨.self hc, h, rfl⟩
  have hbye : Err.bye (-1) = Err.bye (-1) ∧ s = s := ⟨rfl, rfl⟩
  rw [chnkMakeMem, ends_bind, ends_getChnk_of hc, ends_bind, ends_l2Name]
  refine ⟨fun _ => hbye, fun f hf => ?_⟩
  by_cases h1 : level = 1
  · rw [if_pos h1]
    cases hl : c.l1Mem with
    | some b => exact ⟨c, hself, hm⟩
    | none =>
        obtain ⟨f', bs, hf', hr, hlen, hw⟩ := h.l2 (hm hl)
        rw [hf, Option.some.injEq] at hf'
        subst hf'
        have hlen' : ¬ bs.length ≠ c.size := by rw [hlen, h.size_eq]; simp
        simp only [ends_bind, mmapBytes, ends_get, hr, ends_pure, ends_byeIf_neg hlen',
          ends_memalign, ends_setChnk]
        refine ends_ignore_incrMem fun n r => ⟨{ c with l1Mem := some ⟨s.brk, bs⟩ },
          ⟨⟨rfl, rfl, fun _ _ => Fs.Same.refl⟩, ?_, rfl⟩, fun hn => by cases hn⟩
        exact h.setL1 (b := ⟨s.brk, bs⟩) hlen.ge (hw (Or.inr hl))
  rw [if_neg h1]
  by_cases h2 : level = 2
  · rw [if_pos h2]
    by_cases he : c.l2Exists = true
    · rw [if_pos he]
      exact ⟨c, hself, hm⟩
    rw [if_neg he]
    cases hl : c.l1Mem with
    | none => exact absurd (hm hl) he
    | some b =>
        obtain ⟨hb, hw⟩ := h.l1 b hl
        have hfit : c.size ≤ b.bytes.length := h.size_eq ▸ hb
        have hz : ¬ c.size = 0 := by rw [h.size_eq]; omega
        simp only [ends_bind, ends_takeN, hfit, true_implies, not_true_eq_false, false_implies,
          and_true, ends_writeFile, ends_byeIf_neg hz]
        refine ends_incrDsk (fun h => absurd h hz) fun n r =>
          ⟨{ c with l2Exists := true, l1Mem := some b },
            ⟨⟨rfl, rfl, fun g hg => ?_⟩, ?_, rfl⟩, fun _ => rfl⟩
        · exact Fs.same_write fun e => hg (by rw [e, hf])
        · refine ⟨h.count, h.size_eq, h.fits, h.writers, hl ▸ h.l1, fun _ => ?_, fun hn => by cases hn⟩
          refine ⟨f, b.bytes.take c.size, hf, Fs.read_write_self _, ?_, fun _ => ?_⟩
          · rw [List.length_take, Nat.min_eq_left hfit, h.size_eq]
          · rw [List.prefix_take_iff, h.size_eq]
            exact ⟨hw, h.fits⟩
  · rw [if_neg h2]
    exact hbye

/-- The file of a chunk, if it has one, agrees with its memory, if it is there. -/
def Agrees (fs : Fs FileName) (u i w : Nat) (c : ChnkVal) : Prop :=
  ∀ b, c.l1Mem = some b → c.l2Exists = true → ∃ f bs, l2FileName u i = some f ∧
    fs.read f = some bs ∧ bs.take (w * c.numElements) = b.bytes.take (w * c.numElements)

/-- `chnk_drop_mem` of a chunk whose tiers agree. -/
theorem ends_chnkDropMem (hv : s.vctrs u = some v) (hc : s.chnks (u, i) = some c)
    (h : ChnkOk s.fs sync v.isLma u i w size want c) (h0 : 0 < size)
    (ha : level = 1 → Agrees s.fs u i w c) :
    Ends (chnkDropMem u i level) s
      (fun _ t => ∃ c', TierOk s t sync v.isLma u i w size want c c')
      fun e t => e ≠ .ub ∧ ∃ c', TierOk s t sync v.isLma u i w size want c c' := by
  have hself : ∃ c', TierOk s s sync v.isLma u i w size want c c' := ⟨c, .self hc, h, rfl⟩
  have hz : ¬ c.size = 0 := by rw [h.size_eq]; omega
  rw [chnkDropMem, ends_bind, ends_getVctr_of hv, ends_bind, ends_getChnk_of hc]
  by_cases h1 : level = 1
  · rw [if_pos h1]
    by_cases hl : c.l1Mem = none
    · rw [if_pos hl]
      exact hself
    rw [if_neg hl]
    by_cases hno : c.l2Exists = false ∧ v.isLma = false
    · rw [if_pos hno]
      exact hself
    rw [if_neg hno]
    obtain ⟨b, hb⟩ := Option.ne_none_iff_exists'.mp hl
    -- what is left holds the chunk
    have hleft : ChnkOk s.fs sync v.isLma u i w size want { c with l1Mem := none } := by
      refine ⟨h.count, h.size_eq, h.fits, h.writers, fun b' hb' => (by cases hb'), fun he => ?_,
        fun _ he => ?_⟩
      · obtain ⟨f, bs, hf, hr, hlen, -⟩ := h.l2 he
        refine ⟨f, bs, hf, hr, hlen, fun _ => ?_⟩
        obtain ⟨f', bs', hf', hr', heq⟩ := ha h1 b hb he
        rw [hf, Option.some.injEq] at hf'
        subst hf'
        rw [hr, Option.some.injEq] at hr'
        subst hr'
        have hw := (h.l1 b hb).2
        rw [← h.count] at heq
        rw [List.prefix_iff_eq_take.mp hw, ← heq]
        exact List.take_prefix _ _
      · by_contra hlm
        exact hno ⟨he, by simpa using hlm⟩
    rw [ends_bind, ends_setChnk]
    refine ends_decrMemUsed (fun _ => ⟨by simp, ?_⟩) fun n => ?_ <;>
    exact ⟨_, ⟨rfl, rfl, fun _ _ => Fs.Same.refl⟩, hleft, rfl⟩
  rw [if_neg h1]
  by_cases h2 : level = 2
  · rw [if_pos h2]
    by_cases he : c.l2Exists = false
    · rw [if_pos he]
      exact hself
    rw [if_neg he]
    rw [ends_bind, ends_l2Name]
    refine ⟨fun _ => ⟨by simp, hself⟩, fun f hf => ?_⟩
    by_cases hno : c.l1Mem = none ∧ v.isLma = false
    · rw [if_pos hno]
      exact hself
    rw [if_neg hno, ends_bind, ends_unlinkFile]
    refine ⟨fun _ => ⟨by simp, hself⟩, fun bs hr => ?_⟩
    rw [ends_bind]
    refine ends_decrDskUsed (fun h => absurd h hz) fun n => ?_
    rw [ends_setChnk]
    refine ⟨_, ⟨rfl, rfl, fun g hg => Fs.same_unlink fun e => hg (by rw [e, hf])⟩, ?_, rfl⟩
    refine ⟨h.count, h.size_eq, h.fits, h.writers, h.l1, fun he' => (by cases he'), fun hl _ => ?_⟩
    by_contra hlm
    exact hno ⟨hl, by simpa using hlm⟩
  · rw [if_neg h2]
    exact ⟨by simp, hself⟩

/-! ## all chunks -/

/-- A chunk of a held vector may change its tiers. -/
theorem Held.setsTier (h : Held sync s u v D) (hi : v.minChnkIdx ≤ i ∧ i ≤ v.maxChnkIdx)
    (ht : TierOk s t sync v.isLma u i v.width (v.width * v.maxNumInChnk) (v.page D i) c c') :
    Held sync t u v D := by
  obtain ⟨ht, hok, -⟩ := ht
  refine ⟨ht.vctrs ▸ h.found, h.shape, fun j hlo hhi => ?_, fun j hj => ?_⟩
  · by_cases hji : j = i
    · subst hji
      exact ⟨c', by rw [ht.chnks, update_self], hok⟩
    · obtain ⟨d, hd, hdok⟩ := h.inside j hlo hhi
      have hidx := h.shape.idx_lt
      refine ⟨d, by rw [ht.chnks, update_of_ne (by simp [hji])]; exact hd, hdok.of_read fun f hf => ?_⟩
      exact (ht.files f (l2FileName_ne (by omega) (by omega) hji hf)).read
  · have hji : j ≠ i := fun e => hj (e ▸ hi)
    rw [ht.chnks, update_of_ne (by simp [hji])]
    exact h.outside j hj

/-- `t` is `s` but for the tiers of the chunks of vector `u`. -/
structure Tiers (s t : St) (u k : Nat) : Prop where
  vctrs : t.vctrs = s.vctrs
  readers : ∀ i c', t.chnks (u, i) = some c' → ∃ c, s.chnks (u, i) = some c ∧
    c'.numReaders = c.numReaders
  files : ∀ f, (∀ i, i ≤ k → l2FileName u i ≠ some f) → s.fs.Same t.fs f

theorem Tiers.refl {k : Nat} : Tiers s s u k :=
  ⟨rfl, fun _ c hc => ⟨c, hc, rfl⟩, fun _ _ => Fs.Same.refl⟩

theorem Tiers.step {r : St} {k : Nat} (h : Tiers r s u k) (hc : s.chnks (u, i) = some c)
    (hi : i ≤ k) (ht : TierOk s t sync lma u i w size want c c') : Tiers r t u k := by
  obtain ⟨ht, -, hr⟩ := ht
  refine ⟨ht.vctrs.trans h.vctrs, fun j d hd => ?_, fun f hf => (h.files f hf).trans
    (ht.files f (hf i hi))⟩
  by_cases hji : j = i
  · subst hji
    rw [ht.chnks, update_self, Option.some.injEq] at hd
    obtain ⟨c₀, hc₀, hr₀⟩ := h.readers j c hc
    exact ⟨c₀, hc₀, by rw [← hd, hr, hr₀]⟩
  · rw [ht.chnks, update_of_ne (by simp [hji])] at hd
    exact h.readers j d hd

/-- Every chunk has a tier of its own. -/
def Backed (s : St) (u : Nat) : Prop :=
  ∀ i c, s.chnks (u, i) = some c → c.l1Mem = none → c.l2Exists = true

/-- Without a linear file every chunk has one. -/
theorem Held.backed (h : Held sync s u v D) (hl : v.isLma = false) : Backed s u := by
  intro i c hc hn
  by_contra he
  have := (h.chnkOk hc).kept hn (by simpa using he)
  rw [hl] at this
  cases this

/-- **`vctr_make_mem`** keeps what the vector holds. -/
theorem Held.ends_vctrMakeMem (h : Held sync s u v D) (hb : Backed s u) :
    Ends (vctrMakeMem u level) s
      (fun _ t => Held sync t u v D ∧ Backed t u ∧ Tiers s t u v.maxChnkIdx)
      fun e t => e ≠ .ub ∧ Held sync t u v D ∧ Backed t u ∧ Tiers s t u v.maxChnkIdx := by
  have hbye : Err.bye (-1) ≠ .ub ∧ Held sync s u v D ∧ Backed s u ∧ Tiers s s u v.maxChnkIdx :=
    ⟨by simp, h, hb, .refl⟩
  rw [vctrMakeMem, ends_bind, ends_byeIf]
  refine ⟨fun _ => hbye, fun _ => ?_⟩
  rw [ends_bind, ends_byeIf]
  refine ⟨fun _ => hbye, fun _ => ?_⟩
  rw [ends_bind, ends_getVctr_of h.found]
  refine Ends.forUp (fun _ t => Held sync t u v D ∧ Backed t u ∧ Tiers s t u v.maxChnkIdx) _ _ s
    hbye.2 fun i t hlo hhi ht => ?_
  obtain ⟨ht, htb, hts⟩ := ht
  have hmin := h.shape.min_le
  have hin : v.minChnkIdx ≤ i ∧ i ≤ v.maxChnkIdx := by omega
  obtain ⟨c, hc, hok⟩ := ht.inside i hin.1 hin.2
  have h0 : 0 < v.width * v.maxNumInChnk := Nat.mul_pos h.shape.width_pos h.shape.max_pos
  refine (ends_chnkMakeMem hc hok h0 (htb i c hc)).imp ?_ ?_
  · rintro - t' ⟨c', hc', hm⟩
    refine ⟨ht.setsTier hin hc', fun j d hd => ?_, hts.step hc hin.2 hc'⟩
    by_cases hji : j = i
    · subst hji
      rw [hc'.1.chnks, update_self, Option.some.injEq] at hd
      exact hd ▸ hm
    · rw [hc'.1.chnks, update_of_ne (by simp [hji])] at hd
      exact htb j d hd
  · rintro _ _ ⟨rfl, rfl⟩
    exact ⟨by simp, ht, htb, hts⟩

/-- The files of all chunks that are in memory agree with it. -/
def AllAgree (s : St) (u w : Nat) : Prop :=
  ∀ i c, s.chnks (u, i) = some c → Agrees s.fs u i w c

/-- Dropping memory leaves nothing that could disagree. -/
theorem ends_vctrDropMem_step {k : Nat} (h : Held sync t u v D)
    (ha : level = 1 → ∀ j c, i ≤ j → t.chnks (u, j) = some c → Agrees t.fs u j v.width c)
    (hts : Tiers s t u v.maxChnkIdx) (hk : k = v.maxChnkIdx)
    (hin : v.minChnkIdx ≤ i ∧ i ≤ v.maxChnkIdx) :
    Ends (chnkDropMem u i level) t
      (fun _ t' => Held sync t' u v D ∧ Tiers s t' u k ∧
        (level = 1 → ∀ j c, i + 1 ≤ j → t'.chnks (u, j) = some c → Agrees t'.fs u j v.width c))
      fun e t' => e ≠ .ub ∧ Held sync t' u v D ∧ Tiers s t' u k := by
  subst hk
  obtain ⟨c, hc, hok⟩ := h.inside i hin.1 hin.2
  have h0 : 0 < v.width * v.maxNumInChnk := Nat.mul_pos h.shape.width_pos h.shape.max_pos
  refine (ends_chnkDropMem h.found hc hok h0 fun h1 => ha h1 i c (Nat.le_refl i) hc).imp ?_ ?_
  · rintro - t' ⟨c', hc'⟩
    refine ⟨h.setsTier hin hc', hts.step hc hin.2 hc', fun h1 j d hj hd b hb he => ?_⟩
    have hji : j ≠ i := by omega
    rw [hc'.1.chnks, update_of_ne (by simp [hji])] at hd
    obtain ⟨f, bs, hf, hr, heq⟩ := ha h1 j d (by omega) hd b hb he
    have hidx := h.shape.idx_lt
    have hwin := h.mem_window hd
    refine ⟨f, bs, hf, ?_, heq⟩
    rw [(hc'.1.files f (l2FileName_ne (by omega) (by omega) hji hf)).read, hr]
  · rintro e t' ⟨he, c', hc'⟩
    exact ⟨he, h.setsTier hin hc', hts.step hc hin.2 hc'⟩

/-- **`vctr_drop_mem`** of level 1 or 2 keeps what the vector holds, if no file is
out of date that would be all that is left. -/
theorem Held.ends_vctrDropMem (h : Held sync s u v D) (hl : level ≠ 3)
    (ha : level = 1 → AllAgree s u v.width) :
    Ends (vctrDropMem u level) s
      (fun _ t => Held sync t u v D ∧ Tiers s t u v.maxChnkIdx)
      fun e t => e ≠ .ub ∧ Held sync t u v D ∧ Tiers s t u v.maxChnkIdx := by
  have hbye : Err.bye (-1) ≠ .ub ∧ Held sync s u v D ∧ Tiers s s u v.maxChnkIdx :=
    ⟨by simp, h, .refl⟩
  rw [vctrDropMem, ends_bind, ends_byeIf]
  refine ⟨fun _ => hbye, fun _ => ?_⟩
  rw [ends_bind, ends_getVctr_of h.found, if_neg hl]
  split
  · refine (Ends.forUp (fun k t => Held sync t u v D ∧ Tiers s t u v.maxChnkIdx ∧ (level = 1 →
      ∀ j c, k ≤ j → t.chnks (u, j) = some c → Agrees t.fs u j v.width c)) _ _ s
      ⟨h, .refl, fun h1 j c _ hc => ha h1 j c hc⟩ fun i t hlo hhi ht => ?_).imp
      (fun _ t ht => ⟨ht.1, ht.2.1⟩) fun _ _ => id
    obtain ⟨ht, hts, hta⟩ := ht
    have hmin := h.shape.min_le
    exact ends_vctrDropMem_step ht hta hts rfl (by omega)
  · exact hbye

end QStore.Vctr
