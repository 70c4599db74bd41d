import QStore.Vctr.Contents

/-!
# QStore.Vctr.Append

Appending keeps the contents of a vector.

`Vec` is `Held` with an empty vector added: no chunk before the first append,
and a last chunk that is not empty after it. Each way to append takes it from
the bytes so far to the bytes so far and the new ones, and `vctr_memo` narrows
the window as long as nobody reads what falls out of it.
-/

namespace QStore.Vctr

open Function

variable {s t : St} {u i j n w size : Nat} {sync : Prop} {lma : Bool} {want D x : List UInt8}
  {v v' : VctrVal} {c : ChnkVal}

/-! ## deleting the chunks below the window -/

/-- `t` is `s` without chunk `(u, i)` and, if it was there, its file. -/
structure DelsChnk (s t : St) (u i : Nat) : Prop where
  vctrs : t.vctrs = s.vctrs
  chnks : t.chnks = update s.chnks (u, i) none
  files : ∀ f, l2FileName u i ≠ some f → s.fs.Same t.fs f

theorem DelsChnk.of_ne (h : DelsChnk s t u i) (hj : j ≠ i) : t.chnks (u, j) = s.chnks (u, j) := by
  rw [h.chnks, update_of_ne (by simp [hj])]

/-- `chnk_del` of a chunk that nobody reads. -/
theorem ends_chnkDel (hv : s.vctrs u = some v) (hc : s.chnks (u, i) = some c)
    (hok : ChnkOk s.fs sync lma u i w size want c) (hr : c.numReaders = 0) (h0 : 0 < size)
    (hs : size ≤ 1024 * 1048576) (p : Bool) :
    Ends (chnkDel u i p) s (fun _ t => DelsChnk s t u i) fun _ _ => False := by
  have hsz : ¬ (c.size = 0 ∨ c.size > 1024 * 1048576) := by rw [hok.size_eq]; omega
  have hr' : ¬ c.numReaders > 0 := by rw [hr]; decide
  have hw' : ¬ c.numWriters > 0 := by rw [hok.writers]; decide
  simp only [chnkDel, ends_bind, ends_get, hv, hc, reduceCtorEq, if_false, chnkFreeResources,
    ends_getChnk_of hc, ends_byeIf_neg hr', ends_byeIf_neg hw', ends_modify]
  -- what freeing the memory leaves
  have hmem : Ends (onlyIf (c.l1Mem ≠ none) do
      decrMemUsed c.size
      setChnk u i { c with l1Mem := none }) s
      (fun _ t => ∃ c', c'.l2Exists = c.l2Exists ∧ SetsChnk s t u i c') fun _ _ => False := by
    simp only [ends_onlyIf, ends_bind, ends_setChnk]
    refine ⟨fun _ => ends_decrMemUsed hsz fun n => ⟨{ c with l1Mem := none }, rfl, rfl, rfl, rfl⟩,
      fun _ => ⟨c, rfl, rfl, rfl, ?_⟩⟩
    rw [← hc, update_eq_self]
  refine hmem.imp ?_ fun _ _ => False.elim
  rintro - t ⟨c', he, ht⟩
  have hdone : DelsChnk s (t.delChnk u i) u i :=
    ⟨ht.vctrs, by simp only [St.delChnk, ht.chnks, update_idem], fun f _ => by
      rw [St.delChnk_fs, ht.fs]
      exact Fs.Same.refl⟩
  simp only [ends_onlyIf, ends_bind, ends_l2Name, ends_unlinkFile]
  refine ⟨fun hp => ?_, fun _ => hdone⟩
  have hex := hp.2
  obtain ⟨f, bs, hf, hrd, -, -⟩ := hok.l2 hex
  simp only [hf, Option.some.injEq, reduceCtorEq, false_implies, true_and, forall_eq', ht.fs, hrd]
  refine ends_decrDskUsed (fun hz => (hsz (Or.inl hz)).elim) fun n => ?_
  rw [ends_modChnk_of (c := c') (by simp [ht.self])]
  refine ⟨ht.vctrs, ?_, fun g hg => ?_⟩
  · simp only [St.delChnk, St.setChnk, St.setDsk, St.setFs, ht.chnks, update_idem]
  · have hgf : g ≠ f := fun e => hg (by rw [e, hf])
    simp only [St.delChnk_fs, St.setChnk_fs, St.setDsk_fs, St.setFs_fs]
    exact Fs.same_unlink hgf

/-- Two chunks of a vector, neither the one that stands for the linear file, do
not share a file. -/
theorem l2FileName_ne (hi : i < lmaIdx) (hj : j < lmaIdx) (hij : j ≠ i) {f : FileName}
    (h : l2FileName u j = some f) : l2FileName u i ≠ some f := by
  intro h'
  obtain ⟨-, -, rfl⟩ := l2FileName_eq_some (Nat.ne_of_lt hj) h
  obtain ⟨-, -, he⟩ := l2FileName_eq_some (Nat.ne_of_lt hi) h'
  rw [FileName.l2.injEq] at he
  exact hij he.2

/-- What a chunk holds does not depend on other files than its own. -/
theorem ChnkOk.of_read {fs fs' : Fs FileName} (h : ChnkOk fs sync lma u i w size want c)
    (hf : ∀ f, l2FileName u i = some f → fs'.read f = fs.read f) :
    ChnkOk fs' sync lma u i w size want c :=
  ⟨h.count, h.size_eq, h.fits, h.writers, h.l1, fun he => by
    obtain ⟨f, bs, hf', hr, h'⟩ := h.l2 he
    exact ⟨f, bs, hf', (hf f hf').trans hr, h'⟩, h.kept⟩

/-- The window without its lowest chunk, once that is deleted. -/
theorem Held.dropLowest (h : Held sync s u v D) (hlt : v.minChnkIdx < v.maxChnkIdx)
    (ht : DelsChnk s t u v.minChnkIdx) :
    Held sync (t.setVctr u { v with minChnkIdx := v.minChnkIdx + 1 }) u
      { v with minChnkIdx := v.minChnkIdx + 1 } D where
  found := St.setVctr_self
  shape := { h.shape with min_le := hlt }
  inside i hlo hhi := by
    have hne : i ≠ v.minChnkIdx := Nat.ne_of_gt hlo
    have hidx := h.shape.idx_lt
    obtain ⟨c, hc, hok⟩ := h.inside i (Nat.le_of_succ_le hlo) hhi
    refine ⟨c, (ht.of_ne hne).trans hc, hok.of_read fun f hf => (ht.files f ?_).read⟩
    simp only at hhi
    exact l2FileName_ne (by omega) (by omega) hne hf
  outside i hi := by
    by_cases hne : i = v.minChnkIdx
    · rw [St.setVctr_chnks, hne, ht.chnks, update_self]
    · rw [St.setVctr_chnks, ht.of_ne hne]
      exact h.outside i fun hin => hi ⟨Nat.lt_of_le_of_ne hin.1 (Ne.symm hne), hin.2⟩

/-- Nobody reads a chunk below `k`. -/
def Idle (s : St) (u k : Nat) : Prop :=
  ∀ i c, s.chnks (u, i) = some c → i < k → c.numReaders = 0

/-- The deletions of `vctr_memo`: the table's entry for the vector still has the
old `min_chnk_idx`, so the window is that of the entry as it will be. -/
theorem ends_memoLoop (p : Bool) : ∀ (n : Nat) (s : St) (w v : VctrVal), s.vctrs u = some w →
    Held sync (s.setVctr u v) u v D → v.minChnkIdx + n ≤ v.maxChnkIdx →
    Idle s u (v.minChnkIdx + n) → v.width * v.maxNumInChnk ≤ 1024 * 1048576 →
    Ends (memoLoop u p v.minChnkIdx n 0) s (fun st t => st = 0 ∧ t.vctrs = s.vctrs ∧
      Held sync (t.setVctr u { v with minChnkIdx := v.minChnkIdx + n }) u
        { v with minChnkIdx := v.minChnkIdx + n } D) fun _ _ => False
  | 0, _, _, _, _, h, _, _, _ => ⟨rfl, rfl, h⟩
  | n + 1, s, w, v, hw, h, hle, hidle, hsz => by
    have hpos : 0 < v.width * v.maxNumInChnk := Nat.mul_pos h.shape.width_pos h.shape.max_pos
    obtain ⟨c, hc, hok⟩ := h.inside v.minChnkIdx (Nat.le_refl _) h.shape.min_le
    rw [St.setVctr_chnks] at hc
    have hr : c.numReaders = 0 := hidle _ c hc (by omega)
    rw [memoLoop, ends_bind, ends_statusOf]
    refine (ends_chnkDel hw hc hok hr hpos hsz p).imp ?_ fun _ _ => False.elim
    rintro - t ht
    have hlt : v.minChnkIdx < v.maxChnkIdx := by omega
    have ht' : DelsChnk (s.setVctr u v) (t.setVctr u v) u v.minChnkIdx :=
      ⟨by simp only [St.setVctr, ht.vctrs], ht.chnks, ht.files⟩
    have hstep := h.dropLowest hlt ht'
    have hidle' : Idle t u (v.minChnkIdx + 1 + n) := by
      intro i c' hc' hi
      by_cases hne : i = v.minChnkIdx
      · rw [hne, ht.chnks, update_self] at hc'; cases hc'
      · rw [ht.of_ne hne] at hc'
        exact hidle i c' hc' (by omega)
    have := ends_memoLoop p n t w { v with minChnkIdx := v.minChnkIdx + 1 } (by rw [ht.vctrs]; exact hw)
      (hstep.congr (by simp [St.setVctr]) rfl rfl) (by simp only; omega) hidle' hsz
    refine this.imp ?_ fun _ _ => False.elim
    rintro st t' ⟨hst, hv', hh⟩
    rw [show v.minChnkIdx + (n + 1) = v.minChnkIdx + 1 + n by omega]
    exact ⟨hst, hv'.trans ht.vctrs, hh⟩

/-- The vector once `vctr_memo` has been through it. -/
def VctrVal.trimmed (v : VctrVal) : VctrVal :=
  if v.memoLen = 0 then v
  else { v with minChnkIdx := max v.minChnkIdx (v.maxChnkIdx + 1 - v.memoLen) }

/-- `vctr_memo` finds nothing to do where the window is narrow already. -/
theorem ends_vctrMemo_narrow (hv : s.vctrs u = some v) (h : Shape v D)
    (hn : v.memoLen ≠ 0 → v.maxChnkIdx + 1 ≤ v.minChnkIdx + v.memoLen) :
    Ends (vctrMemo u) s (fun _ t => t = s) fun _ _ => False := by
  have h1 := h.min_le
  have h2 := h.idx_lt
  unfold lmaIdx at h2
  simp only [vctrMemo, ends_bind, ends_getVctr_of hv]
  split
  · rfl
  · next hm =>
      have hle := hn hm
      have hnC : ¬ u32 (v.maxChnkIdx + 1 + 2 ^ 32 - v.minChnkIdx) > v.memoLen := by
        unfold u32; omega
      split <;> rfl

/-- **`vctr_memo`** succeeds and moves the window on, if nobody reads what falls
out of it. -/
theorem Held.ends_vctrMemo (h : Held sync s u v D) (he : v.isEov = false)
    (hmemo : v.memoLen ≠ 0 → v.width * v.maxNumInChnk ≤ 1024 * 1048576 ∧
      Idle s u (v.maxChnkIdx + 1 - v.memoLen)) :
    Ends (vctrMemo u) s (fun _ t => Held sync t u v.trimmed D) fun _ _ => False := by
  have h1 := h.shape.min_le
  have h2 := h.shape.idx_lt
  simp only [vctrMemo, ends_bind, ends_getVctr_of h.found, VctrVal.trimmed]
  by_cases hm : v.memoLen = 0
  · rw [if_pos hm, if_pos hm]
    exact h
  · obtain ⟨hsz, hidle⟩ := hmemo hm
    unfold lmaIdx at h2
    have hnC : u32 (v.maxChnkIdx + 1 + 2 ^ 32 - v.minChnkIdx) = v.maxChnkIdx + 1 - v.minChnkIdx := by
      unfold u32; omega
    rw [if_neg hm, if_neg hm, if_neg (by rw [he]; decide), hnC]
    by_cases hgt : v.maxChnkIdx + 1 - v.minChnkIdx > v.memoLen
    · have hmin : u32 (v.maxChnkIdx + 1 + 2 ^ 32 - v.memoLen) = v.maxChnkIdx + 1 - v.memoLen := by
        unfold u32; omega
      have hto : v.minChnkIdx + (v.maxChnkIdx + 1 - v.memoLen - v.minChnkIdx) =
          v.maxChnkIdx + 1 - v.memoLen := by omega
      have hself : s.setVctr u v = s := by
        rw [St.setVctr, ← h.found, update_eq_self]
      rw [if_pos hgt, hmin, ends_bind]
      refine (ends_memoLoop v.isPersist _ s v v h.found (by rwa [hself]) (by omega)
        (by rwa [hto]) hsz).imp ?_ fun _ _ => False.elim
      rintro st t ⟨rfl, htv, hh⟩
      rw [hto] at hh
      rw [ends_bind, ends_modVctr_of (by rw [htv]; exact h.found), if_neg (by decide),
        Nat.max_eq_right (by omega), ends_pure]
      exact hh
    · rw [if_neg hgt, Nat.max_eq_left (by omega), ends_pure]
      exact h

/-! ## a vector that grows -/

/-- The lowest chunk of the window when `i` is the highest. -/
def VctrVal.lowest (v : VctrVal) (i : Nat) : Nat := if v.memoLen = 0 then 0 else i + 1 - v.memoLen

/-- The window is as narrow as `vctr_memo` makes it. -/
def VctrVal.Narrow (v : VctrVal) : Prop := v.minChnkIdx = v.lowest v.maxChnkIdx

/-- A vector to which `D` has been appended. The window is as it was when some
chunk `j` was the last. -/
structure Vec (s : St) (u : Nat) (v : VctrVal) (D : List UInt8) : Prop where
  found : s.vctrs u = some v
  shape : Shape v D
  window : ∃ j, j ≤ v.maxChnkIdx ∧ v.minChnkIdx = v.lowest j
  empty : v.numElements = 0 → ∀ i, s.chnks (u, i) = none
  held : 0 < v.numElements → Held False s u v D ∧ v.maxChnkIdx * v.maxNumInChnk < v.numElements

/-- The same, whatever the window. -/
structure Filled (s : St) (u : Nat) (v : VctrVal) (D : List UInt8) : Prop where
  found : s.vctrs u = some v
  shape : Shape v D
  empty : v.numElements = 0 → ∀ i, s.chnks (u, i) = none
  held : 0 < v.numElements → Held False s u v D ∧ v.maxChnkIdx * v.maxNumInChnk < v.numElements

theorem Vec.filled (h : Vec s u v D) : Filled s u v D := ⟨h.found, h.shape, h.empty, h.held⟩

theorem Filled.vec (h : Filled s u v D) (hw : ∃ j, j ≤ v.maxChnkIdx ∧ v.minChnkIdx = v.lowest j) :
    Vec s u v D := ⟨h.found, h.shape, hw, h.empty, h.held⟩

/-- The tables and the files are the same. -/
structure Alike (s t : St) : Prop where
  vctrs : t.vctrs = s.vctrs
  chnks : t.chnks = s.chnks
  fs : t.fs = s.fs

theorem Alike.refl : Alike s s := ⟨rfl, rfl, rfl⟩

theorem Filled.congr (h : Filled s u v D) (ht : Alike s t) : Filled t u v D where
  found := ht.vctrs ▸ h.found
  shape := h.shape
  empty := by rw [ht.chnks]; exact h.empty
  held hp := ⟨(h.held hp).1.congr ht.vctrs ht.chnks ht.fs, (h.held hp).2⟩

theorem Vec.congr (h : Vec s u v D) (ht : Alike s t) : Vec t u v D :=
  (h.filled.congr ht).vec h.window

/-- The fields that appending leaves alone. -/
def VctrVal.static (v : VctrVal) : VctrVal :=
  { v with numElements := 0, minChnkIdx := 0, maxChnkIdx := 0, isEov := false }

section Static

variable {v w : VctrVal} (h : w.static = v.static)
include h

theorem static_width : w.width = v.width := (congrArg VctrVal.width h :)
theorem static_maxNumInChnk : w.maxNumInChnk = v.maxNumInChnk := (congrArg VctrVal.maxNumInChnk h :)
theorem static_qtype : w.qtype = v.qtype := (congrArg VctrVal.qtype h :)
theorem static_memoLen : w.memoLen = v.memoLen := (congrArg VctrVal.memoLen h :)
theorem static_isLma : w.isLma = v.isLma := (congrArg VctrVal.isLma h :)

theorem static_lowest (i : Nat) : w.lowest i = v.lowest i := by
  rw [VctrVal.lowest, static_memoLen h, VctrVal.lowest]

end Static

theorem Shape.le_len (h : Shape v D) {k : Nat} (hk : k * v.maxNumInChnk ≤ v.numElements) :
    k * (v.width * v.maxNumInChnk) ≤ D.length := by
  rw [h.len, Nat.mul_left_comm]
  exact Nat.mul_le_mul_left _ hk

theorem Shape.len_le (h : Shape v D) {k : Nat} (hk : v.numElements ≤ k * v.maxNumInChnk) :
    D.length ≤ k * (v.width * v.maxNumInChnk) := by
  rw [h.len, Nat.mul_left_comm]
  exact Nat.mul_le_mul_left _ hk

theorem Shape.maxChnkIdx_of_empty (h : Shape v D) (h0 : v.numElements = 0) :
    v.maxChnkIdx = 0 ∧ v.minChnkIdx = 0 := by
  have h1 : v.maxChnkIdx = 0 := by
    have := h.lo
    rw [h0, Nat.le_zero, Nat.mul_eq_zero] at this
    exact this.resolve_right (Nat.ne_of_gt h.max_pos)
  have h2 := h.min_le
  exact ⟨h1, by omega⟩

/-- The chunk in which the last of `n` elements lies. -/
theorem div_of_between {m q : Nat} (hlo : q * m < n) (hhi : n ≤ (q + 1) * m) : (n - 1) / m = q :=
  Nat.div_eq_of_lt_le (by omega) (by omega)

/-- A chunk that has just been opened holds nothing yet. -/
theorem chnkOk_fresh {fs : Fs FileName} {b : Buf} (hb : b.bytes.length = size) :
    ChnkOk fs sync lma u i w size [] (freshChnk v size b) where
  count := by simp [freshChnk]
  size_eq := rfl
  fits := Nat.zero_le _
  writers := rfl
  l1 b' h := by
    rw [freshChnk, Option.some.injEq] at h
    exact h ▸ ⟨hb.ge, List.nil_prefix⟩
  l2 h := by cases h
  kept h := by cases h

/-- What decides when a chunk may be deleted: its readers, and the calls of
`vctr_early_free` that it still ignores. -/
def ChnkVal.stamp (c : ChnkVal) : UInt16 × Nat := (c.numReaders, c.numFreeIgnore)

/-- The stamp of a chunk as it is opened. -/
def VctrVal.stamp (v : VctrVal) : UInt16 × Nat := (0, if v.isEarlyFreeable then v.numFreeIgnore else 0)

/-- The chunks that were there keep their stamps, those that are new have that of `v`. -/
def Stamps (s t : St) (u : Nat) (v : VctrVal) : Prop :=
  ∀ i, (t.chnks (u, i)).map ChnkVal.stamp = (s.chnks (u, i)).map ChnkVal.stamp ∨
    s.chnks (u, i) = none ∧ (t.chnks (u, i)).map ChnkVal.stamp = some v.stamp

namespace Stamps

theorem refl : Stamps s s u v := fun _ => Or.inl rfl

theorem trans {r : St} (h : Stamps s t u v) (h' : Stamps t r u v') (hv : v'.stamp = v.stamp) :
    Stamps s r u v := by
  intro i
  cases h' i with
  | inl hsame =>
      rw [hsame]
      exact h i
  | inr hnew =>
      obtain ⟨hnone, hnew⟩ := hnew
      refine Or.inr ⟨?_, hv ▸ hnew⟩
      cases h i with
      | inl hsame =>
          rw [hnone, Option.map_none, eq_comm, Option.map_eq_none_iff] at hsame
          exact hsame
      | inr hnew' => exact hnew'.1

/-- A chunk is opened. -/
theorem opens (hnone : s.chnks (u, i) = none) (hc : c.stamp = v.stamp)
    (ht : t.chnks = update s.chnks (u, i) (some c)) : Stamps s t u v := by
  intro j
  by_cases hj : j = i
  · subst hj
    rw [ht, update_self, Option.map_some, hc]
    exact Or.inr ⟨hnone, rfl⟩
  · rw [ht, update_of_ne (by simp [hj])]
    exact Or.inl rfl

/-- A chunk changes, but for its stamp. -/
theorem sets {c' : ChnkVal} (hc : s.chnks (u, i) = some c) (hst : c'.stamp = c.stamp)
    (ht : t.chnks = update s.chnks (u, i) (some c')) : Stamps s t u v := by
  intro j
  by_cases hj : j = i
  · subst hj
    rw [ht, update_self, hc, Option.map_some, Option.map_some, hst]
    exact Or.inl rfl
  · rw [ht, update_of_ne (by simp [hj])]
    exact Or.inl rfl

theorem idle {k : Nat} (h : Stamps s t u v) (hk : Idle s u k) : Idle t u k := by
  intro i c hc hi
  cases h i with
  | inl hsame =>
      rw [hc, Option.map_some, eq_comm, Option.map_eq_some_iff] at hsame
      obtain ⟨c', hc', hst⟩ := hsame
      exact (congrArg Prod.fst hst).symm.trans (hk i c' hc' hi)
  | inr hnew =>
      have hst := hnew.2
      rw [hc, Option.map_some, Option.some.injEq] at hst
      exact congrArg Prod.fst hst

end Stamps

theorem freshChnk_stamp {b : Buf} : (freshChnk v n b).stamp = v.stamp := rfl

/-- The last chunk is in memory. -/
def InMem (s : St) (u : Nat) (v : VctrVal) : Prop :=
  ∃ c b, s.chnks (u, v.maxChnkIdx) = some c ∧ c.l1Mem = some b

/-- Opening the first chunk of an empty vector. -/
theorem Filled.openFirst {b : Buf} (h : Filled s u v D) (h0 : v.numElements = 0)
    (hb : b.bytes.length = v.width * v.maxNumInChnk) (hv : t.vctrs = s.vctrs)
    (hc : t.chnks = update s.chnks (u, 0)
      (some (freshChnk v (v.width * v.maxNumInChnk) b))) : Held False t u v D := by
  obtain ⟨hmax, hmin⟩ := h.shape.maxChnkIdx_of_empty h0
  have hnil : v.page D 0 = [] := page_eq_nil (h.shape.len_le (by omega))
  refine ⟨hv ▸ h.found, h.shape, fun i hlo hhi => ?_, fun i hi => ?_⟩
  · obtain rfl : i = 0 := by omega
    refine ⟨_, by rw [hc, update_self], ?_⟩
    rw [hnil]
    exact chnkOk_fresh hb
  · rw [hc, update_of_ne (by simp; omega)]
    exact h.empty h0 i

/-- `chnk_first` -/
theorem Filled.ends_chnkFirst (h : Filled s u v D) :
    Ends (chnkFirst u) s
      (fun _ t => Held False t u v D ∧ Stamps s t u v ∧
        (InMem t u v ∨ 0 < v.numElements ∧ t = s))
      fun e t => e ≠ .ub ∧ v.numElements = 0 ∧ Alike s t := by
  simp only [chnkFirst, ends_bind, ends_getVctr_of h.found]
  by_cases h0 : v.numElements = 0
  · obtain ⟨hmax, -⟩ := h.shape.maxChnkIdx_of_empty h0
    simp only [h0, ne_eq, not_true_eq_false, if_false, ends_bind, ends_memalign, ends_setChnk,
      h.shape.chnkSize_eq]
    refine ends_incrMem (fun _ _ => ⟨by simp, trivial, rfl, rfl, rfl⟩)
      fun n r => ⟨h.openFirst h0 List.length_replicate rfl rfl,
        .opens (h.empty h0 0) freshChnk_stamp rfl,
        Or.inl ⟨_, _, by rw [hmax]; exact St.setChnk_self, rfl⟩⟩
  · rw [if_pos h0]
    have hpos := Nat.pos_of_ne_zero h0
    exact ⟨(h.held hpos).1, .refl, Or.inr ⟨hpos, rfl⟩⟩

/-- Opening the next chunk when the last one is full. -/
theorem Held.openNext {b : Buf} (h : Held False s u v D)
    (hfull : v.numElements = (v.maxChnkIdx + 1) * v.maxNumInChnk)
    (hidx : v.maxChnkIdx + 1 < lmaIdx) (hb : b.bytes.length = v.width * v.maxNumInChnk)
    (hv : t.vctrs u = some { v with maxChnkIdx := v.maxChnkIdx + 1 }) (hf : t.fs = s.fs)
    (hc : t.chnks = update s.chnks (u, v.maxChnkIdx + 1)
      (some (freshChnk v (v.width * v.maxNumInChnk) b))) :
    Held False t u { v with maxChnkIdx := v.maxChnkIdx + 1 } D := by
  have hmin := h.shape.min_le
  refine ⟨hv, { h.shape with
    min_le := Nat.le_succ_of_le h.shape.min_le
    lo := Nat.le_of_eq hfull.symm
    hi := ?_
    idx_lt := hidx }, fun i hlo hhi => ?_, fun i hi => ?_⟩
  · rw [hfull]
    exact Nat.mul_le_mul_right _ (Nat.le_succ _)
  · simp only at hlo hhi ⊢
    by_cases hi : i = v.maxChnkIdx + 1
    · subst hi
      have hnil : v.page D (v.maxChnkIdx + 1) = [] :=
        page_eq_nil (h.shape.len_le (Nat.le_of_eq hfull))
      refine ⟨_, by rw [hc, update_self], ?_⟩
      show ChnkOk _ _ _ _ _ _ _ (v.page D (v.maxChnkIdx + 1)) _
      rw [hnil]
      exact chnkOk_fresh hb
    · obtain ⟨c, hcs, hok⟩ := h.inside i hlo (by omega)
      refine ⟨c, ?_, hf ▸ hok⟩
      rw [hc, update_of_ne (by simp [hi])]
      exact hcs
  · simp only at hi
    have hne : i ≠ v.maxChnkIdx + 1 := by omega
    rw [hc, update_of_ne (by simp [hne])]
    exact h.outside i (by omega)

/-- `w` is `v` with the next chunk opened, or `v` itself. -/
structure Opened (v w : VctrVal) : Prop where
  static : w.static = v.static
  num : w.numElements = v.numElements
  min : w.minChnkIdx = v.minChnkIdx
  eov : w.isEov = v.isEov
  le : v.maxChnkIdx ≤ w.maxChnkIdx

/-- `chnk_to_put`: there is a chunk in memory with room for at least one element. -/
theorem Held.ends_chnkToPut (h : Held False s u v D)
    (hidx : v.numElements < lmaIdx * v.maxNumInChnk) :
    Ends (chnkToPut u v) s
      (fun i t => ∃ w c b, i = w.maxChnkIdx ∧ Opened v w ∧ Held False t u w D ∧
        t.chnks (u, w.maxChnkIdx) = some c ∧ c.l1Mem = some b ∧ c.numElements < w.maxNumInChnk ∧
        Stamps s t u v)
      fun e t => e ≠ .ub ∧ t = s ∧ ¬ InMem s u v := by
  obtain ⟨c, hc, hok⟩ := h.inside v.maxChnkIdx h.shape.min_le (Nat.le_refl _)
  simp only [chnkToPut, ends_bind, ends_getChnk_of hc, ends_byeIf]
  refine ⟨fun hn => ⟨by simp, trivial, ?_⟩, fun hn => ?_⟩
  · rintro ⟨c', b, hc', hb⟩
    rw [hc, Option.some.injEq] at hc'
    rw [← hc', hn] at hb
    cases hb
  have hlast := hok.numElements_last h.shape
  have hlo := h.shape.lo
  have hhi := h.shape.hi
  rw [Nat.add_mul, Nat.one_mul] at hhi
  by_cases hfull : c.numElements = v.maxNumInChnk
  · have hnum : v.numElements = (v.maxChnkIdx + 1) * v.maxNumInChnk := by
      rw [Nat.add_mul, Nat.one_mul]; omega
    have hlt : v.maxChnkIdx + 1 < lmaIdx := by
      rw [hnum] at hidx
      exact Nat.lt_of_mul_lt_mul_right hidx
    have hu : u32 (v.maxChnkIdx + 1) = v.maxChnkIdx + 1 := by
      unfold lmaIdx at hlt
      exact u32_eq (by omega)
    simp only [hfull, if_true, ends_bind, ends_memalign, ends_setChnk, hu, h.shape.chnkSize_eq]
    refine ends_ignore_incrMem fun n r => (ends_modVctr_of (v := v) ?_).mpr ?_
    · exact h.found
    exact ⟨{ v with maxChnkIdx := v.maxChnkIdx + 1 }, _, _, rfl,
      ⟨rfl, rfl, rfl, rfl, Nat.le_succ _⟩,
      h.openNext hnum hlt List.length_replicate St.setVctr_self rfl rfl,
      by rw [St.setVctr_chnks, St.setChnk_self], rfl, h.shape.max_pos,
      .opens (h.outside _ (by omega)) freshChnk_stamp rfl⟩
  · rw [if_neg hfull, ends_pure]
    cases hb : c.l1Mem with
    | none => exact absurd hb hn
    | some b =>
        have hle : c.numElements ≤ v.maxNumInChnk := by omega
        exact ⟨v, c, b, rfl, ⟨rfl, rfl, rfl, rfl, Nat.le_refl _⟩, h, hc, hb,
          Nat.lt_of_le_of_ne hle hfull, .refl⟩

end QStore.Vctr
