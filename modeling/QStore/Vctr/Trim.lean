import QStore.Vctr.Append

/-!
# QStore.Vctr.Trim

What `chnk_del` and `vctr_memo` do to any vector, in whatever state its chunks are.

A deletion that fails may have freed part of its chunk (`ChnkVal.freed`).
`vctr_memo` goes on after it, and says how the last of its deletions went; its
window moves on in any case. What becomes of the chunks and files does not depend
on the accounts of memory and disk, and is given here as a function of the two
tables (`Tab.dels`).
-/

namespace QStore.Vctr

open Function

/-- The tables of chunks and of files. -/
structure Tab where
  chnks : Nat × Nat → Option ChnkVal
  fs : Fs FileName

def St.tab (s : St) : Tab := ⟨s.chnks, s.fs⟩

/-- What `chnk_free_resources` leaves of a chunk, which is nothing if it succeeds, and
of the files. -/
def ChnkVal.freed (p : Bool) (u i : Nat) (c : ChnkVal) (fs : Fs FileName) :
    Option ChnkVal × Fs FileName :=
  if c.numReaders > 0 ∨ c.numWriters > 0 then (some c, fs)
  else if c.l1Mem ≠ none ∧ (c.size = 0 ∨ c.size > 1024 * 1048576) then (some c, fs)
  else if p = false ∧ c.l2Exists then
    match l2FileName u i with
    | none => (some { c with l1Mem := none }, fs)
    | some f =>
      if fs.read f = none then (some { c with l1Mem := none }, fs)
      else (if c.size = 0 then some { c with l1Mem := none } else none, fs.unlink f)
  else (none, fs)

namespace Tab

/-- The tables after `chnk_del`. -/
def del (p : Bool) (u i : Nat) (T : Tab) : Tab :=
  match T.chnks (u, i) with
  | none => T
  | some c => ⟨update T.chnks (u, i) (c.freed p u i T.fs).1, (c.freed p u i T.fs).2⟩

/-- The tables after the deletions of `vctr_memo`. -/
def dels (p : Bool) (u : Nat) : Nat → Nat → Tab → Tab
  | _, 0, T => T
  | i, n + 1, T => dels p u (i + 1) n (T.del p u i)

/-- Enter a chunk. -/
def set (u i : Nat) (c : ChnkVal) (T : Tab) : Tab := ⟨update T.chnks (u, i) (some c), T.fs⟩

variable {T : Tab} {p : Bool} {u i j m n : Nat} {k : Nat × Nat} {f : FileName} {c : ChnkVal}

theorem del_chnks (hk : k ≠ (u, i)) : (T.del p u i).chnks k = T.chnks k := by
  unfold del
  split
  · rfl
  · exact update_of_ne hk _ _

theorem del_read (hf : l2FileName u i ≠ some f) : (T.del p u i).fs.read f = T.fs.read f := by
  unfold del
  split
  · rfl
  · simp only [ChnkVal.freed]
    split
    · rfl
    split
    · rfl
    split
    · cases hg : l2FileName u i with
      | none => rfl
      | some g =>
          have hne : f ≠ g := fun h => hf (h ▸ hg)
          simp only
          split
          · rfl
          · exact (Fs.same_unlink hne).read
    · rfl

theorem dels_chnks (hk : ∀ j, i ≤ j → j < i + n → k ≠ (u, j)) :
    (T.dels p u i n).chnks k = T.chnks k := by
  induction n generalizing i T with
  | zero => rfl
  | succ n ih =>
      rw [dels, ih fun j hlo hhi => hk j (by omega) (by omega)]
      exact del_chnks (hk i (Nat.le_refl i) (by omega))

theorem dels_read (hf : ∀ j, i ≤ j → j < i + n → l2FileName u j ≠ some f) :
    (T.dels p u i n).fs.read f = T.fs.read f := by
  induction n generalizing i T with
  | zero => rfl
  | succ n ih =>
      rw [dels, ih fun j hlo hhi => hf j (by omega) (by omega)]
      exact del_read (hf i (Nat.le_refl i) (by omega))

/-- A deletion and the entry of another chunk do not meet. -/
theorem del_set (hj : j ≠ i) : (T.set u j c).del p u i = (T.del p u i).set u j c := by
  have hne : (u, i) ≠ (u, j) := by simp [hj.symm]
  have hlook : (T.set u j c).chnks (u, i) = T.chnks (u, i) := update_of_ne hne _ _
  simp only [del, hlook]
  split
  · rfl
  · simp only [set]
    rw [update_comm hne]

theorem dels_set (hj : ¬ (i ≤ j ∧ j < i + n)) :
    (T.set u j c).dels p u i n = (T.dels p u i n).set u j c := by
  induction n generalizing i T with
  | zero => rfl
  | succ n ih =>
      rw [dels, del_set (by omega), ih (by omega), dels]

theorem dels_add : T.dels p u i (m + n) = (T.dels p u i m).dels p u (i + m) n := by
  induction m generalizing i T with
  | zero => rw [Nat.zero_add, dels, Nat.add_zero]
  | succ m ih =>
      rw [Nat.succ_add, dels, ih, dels, show i + 1 + m = i + (m + 1) by omega]

end Tab

variable {s t r : St} {u i j n : Nat} {v : VctrVal} {p : Bool} {T : Tab}

/-- `t` is `s` but for the tables of chunks and files, which are `T`, and the
accounts. -/
structure Leaves (s t : St) (T : Tab) : Prop where
  vctrs : t.vctrs = s.vctrs
  tab : t.tab = T
  brk : t.brk = s.brk
  junk : t.junk = s.junk

namespace Leaves

theorem refl : Leaves s s s.tab := ⟨rfl, rfl, rfl, rfl⟩

theorem trans {T' : Tab} (h : Leaves s t T) (h' : Leaves t r T') : Leaves s r T' :=
  ⟨h'.vctrs.trans h.vctrs, h'.tab, h'.brk.trans h.brk, h'.junk.trans h.junk⟩

theorem chnks (h : Leaves s t T) : t.chnks = T.chnks := congrArg Tab.chnks h.tab

theorem fs (h : Leaves s t T) : t.fs = T.fs := congrArg Tab.fs h.tab

end Leaves

/-- A status below 0. -/
def Err.Negative (e : Err) : Prop := ∃ k, k < 0 ∧ e = .bye k

theorem negative_bye : Err.Negative (.bye (-1)) := ⟨-1, by decide, rfl⟩

/-- A chunk that nobody reads or writes. -/
def FreeChnk (s : St) (u i : Nat) : Prop :=
  ∃ c, s.chnks (u, i) = some c ∧ ¬ c.numReaders > 0 ∧ ¬ c.numWriters > 0

theorem FreeChnk.congr (h : t.chnks (u, i) = s.chnks (u, i)) :
    FreeChnk t u i ↔ FreeChnk s u i := by
  rw [FreeChnk, FreeChnk, h]

/-- `chnk_free_resources`, with the entry still there if it succeeds. -/
theorem ends_chnkFreeResources {c : ChnkVal} (hc : s.chnks (u, i) = some c) :
    Ends (chnkFreeResources u i p) s
      (fun _ t => (c.freed p u i s.fs).1 = none ∧ ∃ c',
        Leaves s t ⟨update s.chnks (u, i) (some c'), (c.freed p u i s.fs).2⟩)
      fun e t => e.Negative ∧ ∃ c', (c.freed p u i s.fs).1 = some c' ∧
        Leaves s t ⟨update s.chnks (u, i) (some c'), (c.freed p u i s.fs).2⟩ := by
  have hself : update s.chnks (u, i) (some c) = s.chnks := by rw [← hc, update_eq_self]
  simp only [chnkFreeResources, ends_bind, ends_getChnk_of hc, ends_byeIf]
  by_cases hrw : c.numReaders > 0 ∨ c.numWriters > 0
  · have hstay : (c.freed p u i s.fs).1 = some c ∧
        Leaves s s ⟨update s.chnks (u, i) (some c), (c.freed p u i s.fs).2⟩ := by
      rw [ChnkVal.freed, if_pos hrw, hself]
      exact ⟨rfl, .refl⟩
    refine ⟨fun _ => ⟨negative_bye, c, hstay⟩, fun hr => ⟨fun _ => ⟨negative_bye, c, hstay⟩,
      fun hw => ?_⟩⟩
    exact absurd (hrw.resolve_left hr) hw
  refine ⟨fun hr => absurd (Or.inl hr) hrw, fun _ => ⟨fun hw => absurd (Or.inr hw) hrw, fun _ => ?_⟩⟩
  -- the memory goes
  have hmem : Ends (onlyIf (c.l1Mem ≠ none) do
      decrMemUsed c.size
      setChnk u i { c with l1Mem := none }) s
      (fun _ t => ¬ (c.l1Mem ≠ none ∧ (c.size = 0 ∨ c.size > 1024 * 1048576)) ∧
        Leaves s t ⟨update s.chnks (u, i) (some { c with l1Mem := none }), s.fs⟩)
      fun e t => e.Negative ∧ (c.l1Mem ≠ none ∧ (c.size = 0 ∨ c.size > 1024 * 1048576)) ∧
        t = s := by
    simp only [ends_onlyIf, ends_bind, ends_setChnk]
    constructor
    · intro hl
      refine ends_decrMemUsed_of_size (fun hz => ⟨negative_bye, ⟨hl, hz⟩, rfl⟩) fun h0 h1 m => ?_
      exact ⟨fun h => by omega, rfl, rfl, rfl, rfl⟩
    · intro hl
      have hnone : c.l1Mem = none := by simpa using hl
      have hsame : ({ c with l1Mem := none } : ChnkVal) = c := by rw [← hnone]
      rw [hsame, hself]
      exact ⟨fun h => hl h.1, .refl⟩
  refine hmem.imp ?_ ?_
  · rintro - t ⟨hsz, ht⟩
    have htc : t.chnks = update s.chnks (u, i) (some { c with l1Mem := none }) := ht.chnks
    have htf : t.fs = s.fs := ht.fs
    rw [ChnkVal.freed, if_neg hrw, if_neg hsz]
    simp only [ends_onlyIf, ends_bind, ends_l2Name, ends_unlinkFile]
    refine ⟨fun hp => ?_, fun hp => ?_⟩
    · rw [if_pos hp]
      cases hf : l2FileName u i with
      | none => exact ⟨fun _ => ⟨negative_bye, _, rfl, ht⟩, fun _ h => by contradiction⟩
      | some f =>
          refine ⟨fun h => by contradiction, fun g hg => ?_⟩
          obtain rfl := Option.some.inj hg
          rw [htf]
          refine ⟨fun hr => ?_, fun bs hr => ?_⟩
          · simp only [if_pos hr]
            exact ⟨negative_bye, _, rfl, ht⟩
          · simp only [if_neg (show ¬ s.fs.read f = none by simp [hr])]
            have hgone : Leaves s (t.setFs (s.fs.unlink f))
                ⟨update s.chnks (u, i) (some { c with l1Mem := none }), s.fs.unlink f⟩ :=
              ⟨ht.vctrs, by simp only [St.tab, St.setFs, htc], ht.brk, ht.junk⟩
            refine ends_decrDskUsed_of_size (fun hz => ?_) fun h0 m => ?_
            · rw [if_pos hz]
              exact ⟨negative_bye, _, rfl, hgone⟩
            · rw [if_neg (Nat.ne_of_gt h0), ends_modChnk_of (c := { c with l1Mem := none })]
              · refine ⟨rfl, { c with l1Mem := none, l2Exists := false }, hgone.vctrs, ?_,
                  hgone.brk, hgone.junk⟩
                simp only [St.tab, St.setChnk, St.setDsk, St.setFs, htc, update_idem]
              · simp only [St.setDsk_chnks, St.setFs_chnks, htc, update_self]
    · rw [if_neg hp]
      exact ⟨rfl, _, ht⟩
  · rintro e t ⟨he, hsz, rfl⟩
    rw [ChnkVal.freed, if_neg hrw, if_pos hsz]
    exact ⟨he, c, rfl, by rw [hself]; exact .refl⟩

/-- **`chnk_del`** of any chunk: it was free and is gone, or the call fails. -/
theorem ends_chnkDel_leaves (hv : s.vctrs u ≠ none) : Ends (chnkDel u i p) s
    (fun _ t => Leaves s t (s.tab.del p u i) ∧ FreeChnk s u i ∧ t.chnks (u, i) = none)
    fun e t => e.Negative ∧ Leaves s t (s.tab.del p u i) := by
  simp only [chnkDel, ends_bind, ends_get, if_neg hv]
  cases hc : s.chnks (u, i) with
  | none =>
      have hdel : s.tab.del p u i = s.tab := by
        simp only [Tab.del, St.tab, hc]
      rw [if_pos rfl, hdel]
      exact ⟨⟨-3, by decide, rfl⟩, .refl⟩
  | some c =>
      have hdel : s.tab.del p u i =
          ⟨update s.chnks (u, i) (c.freed p u i s.fs).1, (c.freed p u i s.fs).2⟩ := by
        simp only [Tab.del, St.tab, hc]
      rw [if_neg (by simp), ends_bind, hdel]
      refine (ends_chnkFreeResources hc).imp ?_ ?_
      · rintro - t ⟨hnone, c', ht⟩
        have hfree : FreeChnk s u i := by
          refine ⟨c, hc, fun hr => ?_, fun hw => ?_⟩
          · rw [ChnkVal.freed, if_pos (Or.inl hr)] at hnone
            contradiction
          · rw [ChnkVal.freed, if_pos (Or.inr hw)] at hnone
            contradiction
        refine ⟨⟨ht.vctrs, ?_, ht.brk, ht.junk⟩, hfree, St.delChnk_self⟩
        rw [hnone]
        simp only [St.tab, St.delChnk, ht.chnks, ht.fs, update_idem]
      · rintro e t ⟨he, c', hsome, ht⟩
        rw [hsome]
        exact ⟨he, ht⟩

/-! ## vctr_memo -/

/-- The deletions of `vctr_memo`. Where the last one succeeds, its chunk was free
and is gone. -/
theorem ends_memoLoop_leaves (hv : s.vctrs u ≠ none) (k : Int) : Ends (memoLoop u p i n k) s
    (fun st t => Leaves s t (s.tab.dels p u i n) ∧ (n = 0 → st = k) ∧
      (0 < n → 0 ≤ st → FreeChnk s u (i + n - 1) ∧ t.chnks (u, i + n - 1) = none))
    fun _ _ => False := by
  induction n generalizing i s k with
  | zero => exact ⟨.refl, fun _ => rfl, fun h => absurd h (Nat.lt_irrefl 0)⟩
  | succ n ih =>
      rw [memoLoop, ends_bind, ends_statusOf]
      -- the rest of the loop, once chunk `i` is dealt with
      have hrest : ∀ (k' : Int) (t : St), Leaves s t (s.tab.del p u i) →
          (0 ≤ k' → FreeChnk s u i ∧ t.chnks (u, i) = none) →
          Ends (memoLoop u p (i + 1) n k') t (fun st t => Leaves s t (s.tab.dels p u i (n + 1)) ∧
            (n + 1 = 0 → st = k) ∧ (0 < n + 1 → 0 ≤ st →
              FreeChnk s u (i + (n + 1) - 1) ∧ t.chnks (u, i + (n + 1) - 1) = none))
            fun _ _ => False := by
        intro k' t ht hk'
        refine (ih (s := t) (i := i + 1) (by rw [ht.vctrs]; exact hv) k').imp ?_ fun _ _ => id
        rintro st r ⟨hr, hzero, hpos⟩
        rw [ht.tab] at hr
        refine ⟨ht.trans hr, fun h => by omega, fun _ hst => ?_⟩
        by_cases h0 : n = 0
        · obtain ⟨hc, hc'⟩ := hk' (by rw [← hzero h0]; exact hst)
          subst h0
          refine ⟨hc, ?_⟩
          rw [← hc', hr.chnks, ht.chnks]
          rfl
        · obtain ⟨hc, hc'⟩ := hpos (Nat.pos_of_ne_zero h0) hst
          rw [show i + (n + 1) - 1 = i + 1 + n - 1 by omega]
          refine ⟨(FreeChnk.congr ?_).mp hc, hc'⟩
          rw [ht.chnks, Tab.del_chnks (by simp; omega)]
          rfl
      refine (ends_chnkDel_leaves hv).imp ?_ ?_
      · rintro - t ⟨ht, hc, hc'⟩
        exact hrest 0 t ht fun _ => ⟨hc, hc'⟩
      · rintro _ t ⟨⟨k', hk', rfl⟩, ht⟩
        exact hrest k' t ht fun h => by omega

/-- `vctr_memo` moves the window when `top` is its last chunk. -/
def VctrVal.Moves (v : VctrVal) (top : Nat) : Prop :=
  v.memoLen ≠ 0 ∧ v.isEov = false ∧ u32 (top + 1 + 2 ^ 32 - v.minChnkIdx) > v.memoLen

instance {top : Nat} : Decidable (v.Moves top) := inferInstanceAs (Decidable (_ ∧ _))

/-- The first chunk of the window after `vctr_memo`, when `top` is its last. -/
def VctrVal.trimTo (v : VctrVal) (top : Nat) : Nat :=
  if v.Moves top then u32 (top + 1 + 2 ^ 32 - v.memoLen) else v.minChnkIdx

/-- Where the indices do not wrap. -/
theorem trimTo_eq {top : Nat} (he : v.isEov = false) (hmin : v.minChnkIdx ≤ top + 1)
    (htop : top < lmaIdx) : v.trimTo top =
      if v.memoLen = 0 then v.minChnkIdx else max v.minChnkIdx (top + 1 - v.memoLen) := by
  unfold lmaIdx at htop
  have hnC : u32 (top + 1 + 2 ^ 32 - v.minChnkIdx) = top + 1 - v.minChnkIdx := by
    unfold u32
    omega
  have hmoves : v.Moves top ↔ v.memoLen ≠ 0 ∧ top + 1 - v.minChnkIdx > v.memoLen := by
    unfold VctrVal.Moves
    rw [hnC, he]
    simp
  unfold VctrVal.trimTo
  by_cases hm : v.memoLen = 0
  · rw [if_pos hm, if_neg fun h => (hmoves.mp h).1 hm]
  · rw [if_neg hm]
    by_cases hgt : top + 1 - v.minChnkIdx > v.memoLen
    · rw [if_pos (hmoves.mpr ⟨hm, hgt⟩)]
      unfold u32
      omega
    · rw [if_neg fun h => hgt (hmoves.mp h).2]
      omega

/-- `vctr_memo` has been through: it tried to delete the chunks below `m`, where the
window now starts. -/
structure Trims (s t : St) (u : Nat) (v : VctrVal) (m : Nat) : Prop where
  vctrs : t.vctrs = update s.vctrs u (some { v with minChnkIdx := m })
  tab : t.tab = s.tab.dels v.isPersist u v.minChnkIdx (m - v.minChnkIdx)
  brk : t.brk = s.brk
  junk : t.junk = s.junk

namespace Trims

variable {m : Nat}

theorem refl (hv : s.vctrs u = some v) : Trims s s u v v.minChnkIdx where
  vctrs := by rw [← hv, update_eq_self]
  tab := by rw [Nat.sub_self]; rfl
  brk := rfl
  junk := rfl

theorem found (h : Trims s t u v m) : t.vctrs u = some { v with minChnkIdx := m } := by
  rw [h.vctrs, update_self]

theorem chnks (h : Trims s t u v m) {k : Nat × Nat}
    (hk : ∀ i, v.minChnkIdx ≤ i → i < m → k ≠ (u, i)) : t.chnks k = s.chnks k := by
  have htab : t.chnks k = _ := congrArg (fun T => T.chnks k) h.tab
  rw [htab, Tab.dels_chnks fun i hlo hhi => hk i hlo (by omega)]
  rfl

theorem files (h : Trims s t u v m) {f : FileName}
    (hf : ∀ i, v.minChnkIdx ≤ i → i < m → l2FileName u i ≠ some f) :
    t.fs.read f = s.fs.read f := by
  have htab : t.fs.read f = _ := congrArg (fun T => T.fs.read f) h.tab
  rw [htab, Tab.dels_read fun i hlo hhi => hf i hlo (by omega)]
  rfl

end Trims

/-- A window that moves starts elsewhere. -/
theorem VctrVal.Moves.trimTo_ne {top : Nat} (h : v.Moves top) : v.trimTo top ≠ v.minChnkIdx := by
  rw [VctrVal.trimTo, if_pos h]
  obtain ⟨-, -, hgt⟩ := h
  unfold u32 at hgt ⊢
  omega

theorem ends_vctrMemo_idle (hv : s.vctrs u = some v) (hm : ¬ v.Moves v.maxChnkIdx) :
    Ends (vctrMemo u) s (fun _ t => t = s) fun _ _ => False := by
  rw [vctrMemo, ends_bind, ends_getVctr_of hv]
  split
  · rfl
  · next hlen =>
    split
    · rfl
    · next he =>
      have hno : ¬ u32 (v.maxChnkIdx + 1 + 2 ^ 32 - v.minChnkIdx) > v.memoLen :=
        fun hgt => hm ⟨hlen, by simpa using he, hgt⟩
      simp only [if_neg hno]
      rfl

/-- **`vctr_memo`** moves the window, deletes the chunks below it that can go, and
fails if the highest of them cannot. -/
theorem ends_vctrMemo_trims (hv : s.vctrs u = some v) :
    Ends (vctrMemo u) s
      (fun _ t => Trims s t u v (v.trimTo v.maxChnkIdx) ∧
        (v.minChnkIdx < v.trimTo v.maxChnkIdx → FreeChnk s u (v.trimTo v.maxChnkIdx - 1) ∧
          t.chnks (u, v.trimTo v.maxChnkIdx - 1) = none))
      fun e t => e.Negative ∧ Trims s t u v (v.trimTo v.maxChnkIdx) ∧
        v.minChnkIdx < v.trimTo v.maxChnkIdx := by
  by_cases hm : v.Moves v.maxChnkIdx
  · obtain ⟨hlen, he, hgt⟩ := hm
    have htrim : v.trimTo v.maxChnkIdx = u32 (v.maxChnkIdx + 1 + 2 ^ 32 - v.memoLen) :=
      if_pos ⟨hlen, he, hgt⟩
    have he' : ¬ v.isEov = true := by simp [he]
    rw [htrim, vctrMemo, ends_bind, ends_getVctr_of hv, if_neg hlen, if_neg he']
    simp only [if_pos hgt, ends_bind]
    refine (ends_memoLoop_leaves (by rw [hv]; simp) 0).imp ?_ fun _ _ => False.elim
    rintro st r ⟨hr, hzero, hlast⟩
    generalize u32 (v.maxChnkIdx + 1 + 2 ^ 32 - v.memoLen) = m at hr hzero hlast ⊢
    have htrims : Trims s (r.setVctr u { v with minChnkIdx := m }) u v m :=
      ⟨by rw [St.setVctr, hr.vctrs], hr.tab, hr.brk, hr.junk⟩
    rw [ends_modVctr_of (by rw [hr.vctrs]; exact hv)]
    split
    · next hst =>
      refine ⟨⟨st, hst, rfl⟩, htrims, ?_⟩
      by_contra hle
      rw [hzero (by omega)] at hst
      exact absurd hst (by decide)
    · next hst =>
      refine ⟨htrims, fun hlt => ?_⟩
      have hgone := hlast (by omega) (by omega)
      rwa [show v.minChnkIdx + (m - v.minChnkIdx) - 1 = m - 1 by omega] at hgone
  · have htrim : v.trimTo v.maxChnkIdx = v.minChnkIdx := if_neg hm
    rw [htrim]
    refine (ends_vctrMemo_idle hv hm).imp ?_ fun _ _ => False.elim
    rintro - t rfl
    exact ⟨.refl hv, fun h => absurd h (Nat.lt_irrefl _)⟩

end QStore.Vctr
