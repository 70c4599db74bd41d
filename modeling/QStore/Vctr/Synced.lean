import QStore.Vctr.LmaToChnks

/-!
# QStore.Vctr.Synced

A vector that is not appended to any more, whose copies all agree.

```
chunk 0   memory  file          what is there holds the page
chunk 1           file
chunk 2                         the linear file stands in for it
          linear file           holds all, if the vector has one; mapped while it is read
```

`Synced` says it, and the functions that make, drop and read a tier keep it. Next to `Held` it
knows that no file is left over: what the flags do not show is not there.
-/

namespace QStore.Vctr

open Function

/-- A chunk that is not said to have a file has none. -/
def TidyAt (s : St) (u i : Nat) : Prop :=
  ∀ c f, s.chnks (u, i) = some c → c.l2Exists = false → l2FileName u i = some f →
    s.fs.read f = none

/-- The linear file, if the vector has one, holds `D`, and is mapped as long as it is read. -/
structure Line (fs : Fs FileName) (u : Nat) (v : VctrVal) (D : List UInt8) : Prop where
  file : fs.read (lmaFile u) = some D
  mapped : v.numReaders ≠ 0 → ∃ m, v.x = some m ∧ m.live = true ∧ m.len = D.length ∧
    fs.dir (lmaFile u) = some m.ino

/-- Every copy of every chunk holds its page of `D`. -/
structure Synced (s : St) (u : Nat) (v : VctrVal) (D : List UInt8) : Prop where
  held : Held True s u v D
  first : v.minChnkIdx = 0
  last : v.maxChnkIdx * v.maxNumInChnk < v.numElements
  names : v.maxChnkIdx + 1 < 2 ^ 24
  writers : v.numWriters = 0
  unmapped : v.numReaders = 0 → v.x = none
  tidy : ∀ i, TidyAt s u i
  line : v.isLma = true → Line s.fs u v D

variable {s t : St} {u i j k level : Nat} {v w : VctrVal} {c c' : ChnkVal} {D want : List UInt8}
  {fs fs' : Fs FileName} {blank : Nat → List UInt8}

theorem Line.same (h : Line fs u v D) (hf : fs.Same fs' (lmaFile u)) : Line fs' u v D where
  file := hf.read.trans h.file
  mapped hr := by
    obtain ⟨m, hx, hl, hlen, hd⟩ := h.mapped hr
    exact ⟨m, hx, hl, hlen, hf.dir.trans hd⟩

/-- What a reader finds behind a mapping of the linear file. -/
theorem Line.data {m : Mapping} (h : Line fs u v D) (hd : fs.dir (lmaFile u) = some m.ino) :
    fs.data m.ino = D := by
  have hfile := h.file
  rw [Fs.read, hd] at hfile
  exact Option.some.inj hfile

/-- A file that agrees whenever it is there agrees where it is all that is left. -/
theorem ChnkOk.loosen {lma : Bool} {w size : Nat} (h : ChnkOk fs True lma u i w size want c) :
    ChnkOk fs False lma u i w size want c where
  count := h.count
  size_eq := h.size_eq
  fits := h.fits
  writers := h.writers
  l1 := h.l1
  l2 he := by
    obtain ⟨f, bs, hf, hr, hlen, hw⟩ := h.l2 he
    exact ⟨f, bs, hf, hr, hlen, fun _ => hw (.inl trivial)⟩
  kept := h.kept

theorem Held.loosen (h : Held True s u v D) : Held False s u v D where
  found := h.found
  shape := h.shape
  inside i hlo hhi := by
    obtain ⟨c, hc, hok⟩ := h.inside i hlo hhi
    exact ⟨c, hc, hok.loosen⟩
  outside := h.outside

namespace Synced

theorem ne_nil (h : Synced s u v D) : D ≠ [] := by
  refine List.ne_nil_of_length_pos ?_
  rw [h.held.shape.len]
  exact Nat.mul_pos h.held.shape.width_pos (Nat.lt_of_le_of_lt (Nat.zero_le _) h.last)

theorem size_pos (h : Synced s u v D) : 0 < v.width * v.maxNumInChnk :=
  Nat.mul_pos h.held.shape.width_pos h.held.shape.max_pos

theorem inside (h : Synced s u v D) (hi : i ≤ v.maxChnkIdx) : ∃ c, s.chnks (u, i) = some c ∧
    ChnkOk s.fs True v.isLma u i v.width (v.width * v.maxNumInChnk) (v.page D i) c :=
  h.held.inside i (by rw [h.first]; exact Nat.zero_le i) hi

theorem mem_window (h : Synced s u v D) (hc : s.chnks (u, i) = some c) : i ≤ v.maxChnkIdx :=
  (h.held.mem_window hc).2

/-- A state that agrees on tables and files is as good. -/
theorem congr (h : Synced s u v D) (hv : t.vctrs = s.vctrs) (hc : t.chnks = s.chnks)
    (hf : t.fs = s.fs) : Synced t u v D where
  held := h.held.congr hv hc hf
  first := h.first
  last := h.last
  names := h.names
  writers := h.writers
  unmapped := h.unmapped
  tidy i := by
    unfold TidyAt
    rw [hc, hf]
    exact h.tidy i
  line hl := hf ▸ h.line hl

/-- One chunk, and its file, may change while it holds what it held. -/
theorem retier (h : Synced s u v D) (hi : i ≤ v.maxChnkIdx) (ht : SetsTier s t u i c')
    (hok : ChnkOk t.fs True v.isLma u i v.width (v.width * v.maxNumInChnk) (v.page D i) c')
    (htidy : TidyAt t u i) : Synced t u v D where
  held := h.held.setsTier ⟨by rw [h.first]; exact Nat.zero_le i, hi⟩ ⟨ht, hok, rfl⟩
  first := h.first
  last := h.last
  names := h.names
  writers := h.writers
  unmapped := h.unmapped
  tidy j := by
    by_cases hji : j = i
    · rwa [hji]
    · intro d f hd he hf
      rw [ht.chnks, update_of_ne (by simp [hji])] at hd
      have hj := h.mem_window hd
      have hidx := h.held.shape.idx_lt
      rw [(ht.files f (l2FileName_ne (by omega) (by omega) hji hf)).read]
      exact h.tidy j d f hd he hf
  line hl := by
    have hnames := h.names
    refine (h.line hl).same (ht.files _ fun hf => ?_)
    exact l2FileName_ne_lmaFile (by omega) hf rfl

/-- So may the count of a chunk's readers. -/
theorem reread (h : Synced s u v D) (hc : s.chnks (u, i) = some c) (r : UInt16) :
    Synced (s.setChnk u i { c with numReaders := r }) u v D := by
  refine h.retier (h.mem_window hc) ⟨rfl, rfl, fun _ _ => Fs.Same.refl⟩
    ((h.held.chnkOk hc).setReaders r) fun d f hd he hf => ?_
  rw [St.setChnk_self, Option.some.injEq] at hd
  subst hd
  exact h.tidy i c f hc he hf

/-- And a page that is read into memory. -/
theorem reload {b : Buf} (h : Synced s u v D) (hc : s.chnks (u, i) = some c)
    (ht : SetsChnk s t u i { c with numReaders := c.numReaders + 1, l1Mem := some b })
    (hb : v.width * v.maxNumInChnk ≤ b.bytes.length) (hw : v.page D i <+: b.bytes) :
    Synced t u v D := by
  refine h.retier (h.mem_window hc) ⟨ht.vctrs, ht.chnks, fun _ _ => ht.fs ▸ Fs.Same.refl⟩ ?_ ?_
  · rw [ht.fs]
    exact ((h.held.chnkOk hc).setL1 hb hw).setReaders _
  · intro d f hd he hf
    rw [ht.self, Option.some.injEq] at hd
    subst hd
    rw [ht.fs]
    exact h.tidy i c f hc he hf

end Synced

/-! ## making memory and files -/

theorem ends_chnkMakeMem_tidy (h : TidyAt s u i) (h0 : ∀ c, s.chnks (u, i) = some c → c.size ≠ 0) :
    Ends (chnkMakeMem u i level) s (fun _ t => TidyAt t u i)
      fun e t => e ≠ .ub → TidyAt t u i := by
  rw [chnkMakeMem, ends_bind, ends_getChnk]
  refine ⟨fun _ _ => h, fun c hc => ?_⟩
  rw [ends_bind, ends_l2Name]
  refine ⟨fun _ _ => h, fun f hf => ?_⟩
  split
  · cases hl : c.l1Mem with
    | some b => exact h
    | none =>
        simp only [ends_bind, ends_mmapBytes, ends_byeIf, ends_memalign, ends_setChnk]
        refine ⟨fun _ _ => h, fun bs hbs => ⟨fun _ _ => h, fun _ => ?_⟩⟩
        refine ends_ignore_incrMem fun n r d g hd he hg => ?_
        obtain rfl := Option.some.inj (St.setChnk_self.symm.trans hd)
        exact h c g hc he hg
  split
  · split
    · exact h
    cases hl : c.l1Mem with
    | none => exact fun hne => absurd rfl hne
    | some b =>
        simp only [ends_bind, ends_takeN, ends_writeFile, ends_byeIf_neg (h0 c hc)]
        refine ⟨fun _ => ends_incrDsk (fun h => absurd h (h0 c hc)) fun n r => ?_,
          fun _ hne => absurd rfl hne⟩
        intro d g hd he
        obtain rfl := Option.some.inj (St.setChnk_self.symm.trans hd)
        contradiction
  · exact fun _ => h

theorem ends_chnkDropMem_tidy (h : TidyAt s u i) (h0 : ∀ c, s.chnks (u, i) = some c → c.size ≠ 0) :
    Ends (chnkDropMem u i level) s (fun _ t => TidyAt t u i) fun _ t => TidyAt t u i := by
  rw [chnkDropMem, ends_bind, ends_getVctr]
  refine ⟨fun _ => h, fun v hv => ?_⟩
  rw [ends_bind, ends_getChnk]
  refine ⟨fun _ => h, fun c hc => ?_⟩
  have hl1 : ∀ n, TidyAt ((s.setChnk u i { c with l1Mem := none }).setMem n) u i := by
    intro n d g hd he hg
    obtain rfl := Option.some.inj (St.setChnk_self.symm.trans hd)
    exact h c g hc he hg
  split
  · split
    · exact h
    split
    · exact h
    rw [ends_bind, ends_setChnk]
    exact ends_decrMemUsed (fun _ => hl1 s.memUsed) hl1
  split
  · split
    · exact h
    rw [ends_bind, ends_l2Name]
    refine ⟨fun _ => h, fun f hf => ?_⟩
    split
    · exact h
    rw [ends_bind, ends_unlinkFile]
    refine ⟨fun _ => h, fun bs hbs => ?_⟩
    rw [ends_bind]
    refine ends_decrDskUsed (fun h => absurd h (h0 c hc)) fun n d g hd he hg => ?_
    rw [hf, Option.some.injEq] at hg
    subst hg
    exact Fs.read_unlink_self _
  · exact h

namespace Synced

theorem size_ne (h : Synced s u v D) : ∀ c, s.chnks (u, i) = some c → c.size ≠ 0 := by
  intro c hc
  rw [(h.held.chnkOk hc).size_eq]
  exact h.size_pos.ne'

/-- `chnk_make_mem`. A file is made from memory, so there has to be memory. -/
theorem ends_chnkMakeMem (h : Synced s u v D) (hi : i ≤ v.maxChnkIdx)
    (hb : level = 2 → Backed s u) :
    Ends (chnkMakeMem u i level) s (fun _ t => Synced t u v D ∧ (level = 2 → Backed t u))
      fun e t => e ≠ .ub ∧ Synced t u v D := by
  obtain ⟨c, hc, hok⟩ := h.inside hi
  by_cases hm : c.l1Mem = none → c.l2Exists = true
  · refine ((QStore.Vctr.ends_chnkMakeMem hc hok h.size_pos hm).and
      (ends_chnkMakeMem_tidy (h.tidy i) h.size_ne)).imp ?_ ?_
    · rintro - t ⟨⟨c', ⟨ht, hok', -⟩, hm'⟩, htidy⟩
      refine ⟨h.retier hi ht hok' htidy, fun h2 j d hd hn => ?_⟩
      by_cases hji : j = i
      · subst hji
        rw [ht.chnks, update_self, Option.some.injEq] at hd
        exact hd ▸ hm' (hd ▸ hn)
      · rw [ht.chnks, update_of_ne (by simp [hji])] at hd
        exact hb h2 j d hd hn
    · rintro _ _ ⟨⟨rfl, rfl⟩, -⟩
      exact ⟨by simp, h⟩
  · -- only the linear file has it: there is nothing to read
    obtain ⟨hl1, hl2⟩ := Classical.not_imp.mp hm
    have h2 : level ≠ 2 := fun h2 => hm (hb h2 i c hc)
    rw [chnkMakeMem, ends_bind, ends_getChnk_of hc, ends_bind, ends_l2Name]
    refine ⟨fun _ => ⟨by simp, h⟩, fun f hf => ?_⟩
    have hnone := h.tidy i c f hc (by simpa using hl2) hf
    simp [h2, hl1, hnone, h, ends_ite]

/-- `chnk_drop_mem` -/
theorem ends_chnkDropMem (h : Synced s u v D) (hi : i ≤ v.maxChnkIdx) :
    Ends (chnkDropMem u i level) s (fun _ t => Synced t u v D) fun e t => e ≠ .ub ∧ Synced t u v D := by
  obtain ⟨c, hc, hok⟩ := h.inside hi
  have hagree : Agrees s.fs u i v.width c := by
    intro b hb he
    obtain ⟨f, bs, hf, hr, -, hw⟩ := hok.l2 he
    refine ⟨f, bs, hf, hr, ?_⟩
    rw [← hok.count, ← List.prefix_iff_eq_take.mp (hw (.inl trivial)),
      ← List.prefix_iff_eq_take.mp (hok.l1 b hb).2]
  refine ((QStore.Vctr.ends_chnkDropMem h.held.found hc hok h.size_pos fun _ => hagree).and
    (ends_chnkDropMem_tidy (h.tidy i) h.size_ne)).imp ?_ ?_
  · rintro - t ⟨⟨c', ht, hok', -⟩, htidy⟩
    exact h.retier hi ht hok' htidy
  · rintro e t ⟨⟨he, c', ht, hok', -⟩, htidy⟩
    exact ⟨he, h.retier hi ht hok' htidy⟩

/-- **`vctr_make_mem`** -/
theorem ends_vctrMakeMem (h : Synced s u v D) (hb : level = 2 → Backed s u) :
    Ends (vctrMakeMem u level) s (fun _ t => Synced t u v D) fun e t => e ≠ .ub ∧ Synced t u v D := by
  have hbye : Err.bye (-1) ≠ .ub ∧ Synced s u v D := ⟨by simp, h⟩
  simp only [vctrMakeMem, ends_bind, ends_byeIf, ends_getVctr_of h.held.found]
  refine ⟨fun _ => hbye, fun _ => ⟨fun _ => hbye, fun _ => ?_⟩⟩
  refine (Ends.forUp (fun _ t => Synced t u v D ∧ (level = 2 → Backed t u)) _ _ s ⟨h, hb⟩
    fun i t _ hi ht => ?_).imp (fun _ _ ht => ht.1) fun _ _ => id
  have hmin := h.held.shape.min_le
  exact ht.1.ends_chnkMakeMem (by omega) ht.2

end Synced

/-! ## the linear file -/

/-- Whether a chunk of the range has only the linear file is all that `allMem` looks for. -/
theorem Held.ends_allMem {sync : Prop} {n : Nat} (h : Held sync s u v D) (hi : v.minChnkIdx ≤ i)
    (hn : i + n = v.maxChnkIdx + 1) :
    Ends (allMem u i n) s (fun all t => t = s ∧ (all = true → ∀ j c, i ≤ j →
      s.chnks (u, j) = some c → c.l1Mem = none → c.l2Exists = true)) fun _ _ => False := by
  induction n generalizing i with
  | zero =>
      refine ⟨rfl, fun _ j c hj hc => ?_⟩
      have := (h.mem_window hc).2
      omega
  | succ n ih =>
      obtain ⟨c, hc, -⟩ := h.inside i hi (by omega)
      simp only [allMem, chnkIsMem, ends_bind, ends_getVctr_of h.found, ends_getChnk_of hc, ends_pure]
      cases hmem : c.l1Mem.isSome || c.l2Exists with
      | false => exact ⟨rfl, fun h => by contradiction⟩
      | true =>
          refine (ih (by omega) (by omega)).imp ?_ fun _ _ => id
          rintro all _ ⟨rfl, hall⟩
          refine ⟨rfl, fun ht j d hj hd hn => ?_⟩
          by_cases hji : j = i
          · subst hji
            obtain rfl := Option.some.inj (hc.symm.trans hd)
            simpa [hn] using hmem
          · exact hall ht j d (by omega) hd hn

namespace Synced

/-- The vector may get and lose its linear file, and the readers of that file come and go. -/
theorem relinear (h : Synced s u v D) (lma : Bool) (r : Nat) (x : Option Mapping)
    (hv : t.vctrs u = some { v with isLma := lma, numReaders := r, x := x })
    (hc : t.chnks = s.chnks) (hf : ∀ f, f ≠ lmaFile u → t.fs.read f = s.fs.read f)
    (hx : r = 0 → x = none) (hb : lma = false → Backed s u)
    (hl : lma = true → Line t.fs u { v with isLma := lma, numReaders := r, x := x } D) :
    Synced t u { v with isLma := lma, numReaders := r, x := x } D := by
  have hshape := h.held.shape
  have hnames := h.names
  have hread : ∀ i, i ≤ v.maxChnkIdx → ∀ f, l2FileName u i = some f → t.fs.read f = s.fs.read f :=
    fun i hi f hf' => hf f (l2FileName_ne_lmaFile (by omega) hf')
  refine ⟨⟨hv, ⟨hshape.width_pos, hshape.max_pos, hshape.size_lt, hshape.len, hshape.min_le,
    hshape.lo, hshape.hi, hshape.idx_lt⟩, fun i hlo hhi => ?_, fun i hi => ?_⟩, h.first, h.last,
    h.names, h.writers, hx, fun i c f hc' he hf' => ?_, hl⟩
  · obtain ⟨c, hci, hok⟩ := h.inside hhi
    have hok' := hok.of_read (hread i hhi)
    refine ⟨c, hc ▸ hci, hok'.count, hok'.size_eq, hok'.fits, hok'.writers, hok'.l1, hok'.l2,
      fun hn he => ?_⟩
    cases lma with
    | true => rfl
    | false =>
        rw [hb rfl i c hci hn] at he
        contradiction
  · rw [hc]
    exact h.held.outside i hi
  · rw [hc] at hc'
    rw [hread i (h.mem_window hc') f hf']
    exact h.tidy i c f hc' he hf'

/-- The linear file goes, once no chunk depends on it. -/
theorem ends_dropLma (h : Synced s u v D) (hl : v.isLma = true) (hb : Backed s u) :
    Ends (dropLma u) s (fun _ t => Synced t u { v with isLma := false } D) fun _ _ => False := by
  have hlen : D.length ≠ 0 := by simpa using h.ne_nil
  simp only [dropLma, ends_bind, ends_get, (h.line hl).file, ends_modify, ends_statusOf]
  refine ends_decrDskUsed (fun h0 => absurd h0 hlen) fun n => ?_
  rw [ends_modVctr_of (v := v) (by exact h.held.found)]
  refine h.relinear false v.numReaders v.x St.setVctr_self rfl (fun f hf => ?_) h.unmapped
    (fun _ => hb) fun h => by contradiction
  exact (Fs.same_unlink hf).read

/-- **`vctr_drop_mem`**, of any level. The linear file goes only if no chunk depends on it. -/
theorem ends_vctrDropMem (h : Synced s u v D) :
    Ends (vctrDropMem u level) s (fun _ t => ∃ b, Synced t u { v with isLma := b } D)
      fun e t => e ≠ .ub ∧ Synced t u v D := by
  have hsame : ∃ b, Synced s u { v with isLma := b } D := ⟨v.isLma, h⟩
  have hmin := h.held.shape.min_le
  simp only [vctrDropMem, ends_bind, ends_byeIf, ends_getVctr_of h.held.found]
  refine ⟨fun _ => ⟨by simp, h⟩, fun _ => ?_⟩
  split
  · split
    · exact hsame
    · next hl =>
      rw [ends_bind]
      refine (h.held.ends_allMem (Nat.le_refl _) (by omega)).imp ?_ fun _ _ => False.elim
      rintro all _ ⟨rfl, hall⟩
      rw [ends_onlyIf]
      refine ⟨fun ht => ?_, fun _ => hsame⟩
      refine (h.ends_dropLma (by simpa using hl) fun i c hc => hall ht i c ?_ hc).imp
        (fun _ t ht => ⟨false, ht⟩) fun _ _ => False.elim
      rw [h.first]
      exact Nat.zero_le i
  split
  · refine (Ends.forUp (fun _ t => Synced t u v D) _ _ s h fun i t _ hi ht =>
      ht.ends_chnkDropMem (by omega)).imp (fun _ t ht => ⟨v.isLma, ht⟩) fun _ _ => id
  · exact ⟨by simp, h⟩

end Synced

end QStore.Vctr
