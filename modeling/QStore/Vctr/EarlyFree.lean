import QStore.Vctr.Contract

/-!
# QStore.Vctr.EarlyFree

`vctr_early_free`, which deletes the lowest chunks of a vector while it grows.

A chunk ignores as many calls as its vector was told to, and goes with the next.
Of two chunks the higher is the younger and has been passed over less often, so
the chunks that a call finds without ignores are the lowest of the window. The
loop runs up to its bound and deletes that chunk too, and the last one if the
bound is past it. The window stays in order exactly if the chunk where the loop
comes to its end, in the table or at its bound, still has an ignore left
(`Spared`).
-/

namespace QStore.Vctr

open Function

/-- A round of the loop of `vctr_early_free`. -/
def earlyFreeChnk (u i : Nat) : M Unit := do
  match (← get).chnks (u, i) with
  | none => pure ()
  | some c =>
    if c.numFreeIgnore > 0 then setChnk u i { c with numFreeIgnore := c.numFreeIgnore - 1 }
    else do
      byeIf (c.numReaders ≠ 0)
      byeIf (c.numWriters ≠ 0)
      if c.l1Mem = none ∧ c.l2Exists = false then pure ()
      else do
        chnkDel u i false
        modVctr u fun v => { v with minChnkIdx := i + 1 }

/-- `vctr_early_free`. With the bound `2^32 - 1` its loop does not end, which is
`ub` here. -/
def vctrEarlyFree (u ubChnkIdx : Nat) : M Unit := do
  match (← get).vctrs u with
  | none => pure ()
  | some v =>
    if v.isPersist ∨ v.isEov ∨ v.numElements = 0 ∨ v.isEarlyFreeable = false then pure ()
    else if lmaIdx ≤ ubChnkIdx then ub
    else forUp (earlyFreeChnk u) v.minChnkIdx (ubChnkIdx + 1 - v.minChnkIdx)

variable {a : AddArgs} {s t : St} {u i j k m n : Nat} {v w : VctrVal} {c d : ChnkVal}
  {D x : List UInt8} {L : List (List UInt8)}

/-! ## one chunk -/

/-- A chunk that has ignored one more call. -/
def ChnkVal.passed (c : ChnkVal) : ChnkVal := { c with numFreeIgnore := c.numFreeIgnore - 1 }

theorem ChnkOk.passed {fs : Fs FileName} {sync : Prop} {lma : Bool} {size : Nat}
    {want : List UInt8} (h : ChnkOk fs sync lma u i n size want c) :
    ChnkOk fs sync lma u i n size want c.passed :=
  ⟨h.count, h.size_eq, h.fits, h.writers, h.l1, h.l2, h.kept⟩

theorem ends_earlyFreeChnk_none (hc : s.chnks (u, i) = none) :
    Ends (earlyFreeChnk u i) s (fun _ t => t = s) fun _ _ => False := by
  rw [earlyFreeChnk, ends_bind, ends_get]
  simp only [hc, ends_pure]

theorem ends_earlyFreeChnk_passed (hc : s.chnks (u, i) = some c) (hk : 0 < c.numFreeIgnore) :
    Ends (earlyFreeChnk u i) s (fun _ t => t = s.setChnk u i c.passed) fun _ _ => False := by
  rw [earlyFreeChnk, ends_bind, ends_get]
  simp only [hc, if_pos (show c.numFreeIgnore > 0 from hk)]
  rfl

/-- A chunk without ignores, which nobody reads, goes. -/
theorem Held.ends_earlyFreeChnk (h : Held False s u v D) (hl : v.isLma = false)
    (hsz : v.width * v.maxNumInChnk ≤ 1024 * 1048576) (hc : s.chnks (u, i) = some c)
    (hk : c.numFreeIgnore = 0) (hr : c.numReaders = 0) :
    Ends (earlyFreeChnk u i) s
      (fun _ t => ∃ r, DelsChnk s r u i ∧ t = r.setVctr u { v with minChnkIdx := i + 1 })
      fun _ _ => False := by
  have hok := h.chnkOk hc
  have htier : ¬ (c.l1Mem = none ∧ c.l2Exists = false) := by
    rintro ⟨h1, h2⟩
    have := hok.kept h1 h2
    rw [hl] at this
    contradiction
  rw [earlyFreeChnk, ends_bind, ends_get]
  simp only [hc]
  rw [if_neg (by omega), ends_bind, ends_byeIf_neg (by simp [hr]), ends_bind,
    ends_byeIf_neg (by simp [hok.writers]), if_neg htier, ends_bind]
  refine (ends_chnkDel h.found hc hok hr (Nat.mul_pos h.shape.width_pos h.shape.max_pos) hsz
    false).imp ?_ fun _ _ => False.elim
  rintro - r hr'
  rw [ends_modVctr_of (by rw [hr'.vctrs]; exact h.found)]
  exact ⟨r, hr', rfl⟩

/-- A round leaves the other chunks alone, however it ends. -/
theorem ends_earlyFreeChnk_ne (hj : j ≠ i) :
    Ends (earlyFreeChnk u i) s (fun _ t => t.chnks (u, j) = s.chnks (u, j)) fun _ _ => True := by
  have hne : (u, j) ≠ (u, i) := by simp [hj]
  rw [earlyFreeChnk, ends_bind, ends_get]
  cases hc : s.chnks (u, i) with
  | none => rfl
  | some c =>
      simp only
      rw [ends_ite]
      refine ⟨fun _ => St.setChnk_of_ne hne, fun _ => ?_⟩
      simp only [ends_bind, ends_byeIf, ends_ite, ends_pure, implies_true, true_and]
      intro _ _ _
      refine (ends_chnkDel_removes false).imp (fun _ t ht => ?_) fun _ _ => id
      rw [ends_modVctr]
      refine ⟨fun _ => trivial, fun w _ => ?_⟩
      rw [St.setVctr_chnks, ht.2, update_of_ne hne]

/-! ## the loop -/

/-- The loop has come to chunk `i`, and all chunks below `k` were without ignores, those
from `k` on were not. -/
structure FreedTo (s t : St) (u : Nat) (v : VctrVal) (D : List UInt8) (k i : Nat) : Prop where
  held : Held False t u { v with minChnkIdx := min i k } D
  chnks : ∀ j, min i k ≤ j → t.chnks (u, j) =
    (s.chnks (u, j)).map fun c => if j < i then c.passed else c

namespace FreedTo

/-- Before the first round. -/
theorem start (h : Held False s u v D) (hk : v.minChnkIdx ≤ k) :
    FreedTo s s u v D k v.minChnkIdx := by
  have hmin := Nat.min_eq_left hk
  refine ⟨by rw [hmin]; exact h, fun j hj => ?_⟩
  have hid : ∀ c : ChnkVal, (if j < v.minChnkIdx then c.passed else c) = c :=
    fun c => if_neg (by omega)
  simp only [hid, Option.map_id']

/-- The loop finds a chunk as it was before the call. -/
theorem found (h : FreedTo s t u v D k i) : t.chnks (u, i) = s.chnks (u, i) := by
  rw [h.chnks i (Nat.min_le_left _ _)]
  have hid : ∀ c : ChnkVal, (if i < i then c.passed else c) = c :=
    fun c => if_neg (Nat.lt_irrefl i)
  simp only [hid, Option.map_id']

/-- A chunk without ignores, below the last. -/
theorem step_old (h : FreedTo s t u v D k i) (hl : v.isLma = false)
    (hsz : v.width * v.maxNumInChnk ≤ 1024 * 1048576) (hik : i < k) (hk : k ≤ v.maxChnkIdx)
    (hold : ∀ c, s.chnks (u, i) = some c → c.numFreeIgnore = 0)
    (hidle : ∀ c, s.chnks (u, i) = some c → c.numReaders = 0) :
    Ends (earlyFreeChnk u i) t (fun _ t' => FreedTo s t' u v D k (i + 1)) fun _ _ => False := by
  have hi : min i k = i := Nat.min_eq_left (Nat.le_of_lt hik)
  have hheld := h.held
  rw [hi] at hheld
  obtain ⟨c, hc, -⟩ := hheld.inside i (Nat.le_refl i) (by simp only; omega)
  have hcs : s.chnks (u, i) = some c := h.found ▸ hc
  refine (hheld.ends_earlyFreeChnk hl hsz hc (hold c hcs) (hidle c hcs)).imp ?_ fun _ _ => id
  rintro - t' ⟨r, hr, rfl⟩
  have hi' : min (i + 1) k = i + 1 := Nat.min_eq_left hik
  constructor
  · rw [hi']
    exact hheld.dropLowest (by simp only; omega) hr
  · intro j hj
    rw [hi'] at hj
    rw [St.setVctr_chnks, hr.of_ne (by omega), h.chnks j (by omega)]
    simp only [show ¬ j < i by omega, show ¬ j < i + 1 by omega, if_false]

/-- A chunk with ignores, or none. -/
theorem step_young (h : FreedTo s t u v D k i) (hki : k ≤ i)
    (hyoung : ∀ c, s.chnks (u, i) = some c → 0 < c.numFreeIgnore) :
    Ends (earlyFreeChnk u i) t (fun _ t' => FreedTo s t' u v D k (i + 1)) fun _ _ => False := by
  have hi : min i k = k := Nat.min_eq_right hki
  have hi' : min (i + 1) k = k := Nat.min_eq_right (by omega)
  have hheld := h.held
  rw [hi] at hheld
  cases hc : s.chnks (u, i) with
  | none =>
      refine (ends_earlyFreeChnk_none (h.found.trans hc)).imp ?_ fun _ _ => id
      rintro - t' rfl
      refine ⟨by rw [hi']; exact hheld, fun j hj => ?_⟩
      rw [h.chnks j (by omega)]
      by_cases hj' : j = i
      · rw [hj', hc]
        rfl
      · simp only [show j < i ↔ j < i + 1 by omega]
  | some c =>
      refine (ends_earlyFreeChnk_passed (h.found.trans hc) (hyoung c hc)).imp ?_ fun _ _ => id
      rintro - t' rfl
      have hwin := hheld.mem_window (h.found.trans hc)
      constructor
      · rw [hi']
        exact hheld.setsChnk ⟨rfl, rfl, rfl⟩ hwin (hheld.chnkOk (h.found.trans hc)).passed
      · intro j hj
        by_cases hj' : j = i
        · rw [hj', St.setChnk_self, hc, Option.map_some, if_pos (Nat.lt_succ_self i)]
        · rw [St.setChnk_of_ne (by simp [hj']), h.chnks j (by omega)]
          simp only [show j < i ↔ j < i + 1 by omega]

end FreedTo

/-! ## a call -/

/-- What appending and early freeing keep to: the chunks of the window hold `D`, the
higher ones have as many ignores as the lower ones or more, and nobody reads. -/
structure Tended (s : St) (u : Nat) (v : VctrVal) (D : List UInt8) : Prop where
  filled : Filled s u v D
  isLma : v.isLma = false
  isPersist : v.isPersist = false
  early : v.isEarlyFreeable = true
  memoLen : v.memoLen = 0
  size_le : v.width * v.maxNumInChnk ≤ 1024 * 1048576
  ages : ∀ i j c d, s.chnks (u, i) = some c → s.chnks (u, j) = some d → i ≤ j →
    c.numFreeIgnore ≤ d.numFreeIgnore
  fresh : ∀ i c, s.chnks (u, i) = some c → c.numReaders = 0 ∧ c.numFreeIgnore ≤ v.numFreeIgnore
  inMem : 0 < v.numElements → InMem s u v

/-- The chunk where the loop comes to its end has an ignore left, if the call is not
ignored as a whole. -/
def Spared (s : St) (u : Nat) (v : VctrVal) (ub : Nat) : Prop :=
  v.isEov = true ∨ v.numElements = 0 ∨ (ub < lmaIdx ∧ (ub < v.minChnkIdx ∨
    ∃ c, s.chnks (u, min ub v.maxChnkIdx) = some c ∧ 0 < c.numFreeIgnore))

/-- What `vctr_early_free` may do: delete chunks below its bound and below the last
that have no ignores left, and take one off the others. -/
structure Frees (s t : St) (u : Nat) (v : VctrVal) (ub : Nat) : Prop where
  below : ∀ i c, s.chnks (u, i) = some c → t.chnks (u, i) = none → i < ub ∧ i < v.maxChnkIdx
  spent : ∀ i c, s.chnks (u, i) = some c → t.chnks (u, i) = none → c.numFreeIgnore = 0
  kept : ∀ i d, t.chnks (u, i) = some d → ∃ c, s.chnks (u, i) = some c ∧ (d = c ∨ d = c.passed)

/-- The lowest chunk from `lo` on that satisfies `p`, if there is one up to `hi`. -/
theorem exists_first {p : Nat → Prop} {lo hi : Nat} (hlo : lo ≤ hi) (hp : p hi) :
    ∃ k, lo ≤ k ∧ k ≤ hi ∧ p k ∧ ∀ j, lo ≤ j → j < k → ¬ p j := by
  classical
  have hex : ∃ k, lo ≤ k ∧ p k := ⟨hi, hlo, hp⟩
  refine ⟨Nat.find hex, (Nat.find_spec hex).1, Nat.find_min' hex ⟨hlo, hp⟩, (Nat.find_spec hex).2,
    fun j hj hlt hpj => Nat.find_min hex hlt ⟨hj, hpj⟩⟩

namespace Tended

/-- A call that is ignored. -/
theorem ends_ignored {ub : Nat} (h : Tended s u v D) (hi : v.isEov = true ∨ v.numElements = 0) :
    Ends (vctrEarlyFree u ub) s (fun _ t => t = s) fun _ _ => False := by
  rw [vctrEarlyFree, ends_bind, ends_get]
  simp only [h.filled.found]
  rw [if_pos (hi.elim (fun he => Or.inr (Or.inl he)) fun h0 => Or.inr (Or.inr (Or.inl h0)))]
  rfl

/-- Any other call is heeded. -/
theorem heeded (h : Tended s u v D) (hi : ¬ (v.isEov = true ∨ v.numElements = 0)) :
    ¬ (v.isPersist = true ∨ v.isEov = true ∨ v.numElements = 0 ∨ v.isEarlyFreeable = false) := by
  rintro (hp | he | h0 | hf)
  · rw [h.isPersist] at hp
    contradiction
  · exact hi (Or.inl he)
  · exact hi (Or.inr h0)
  · rw [h.early] at hf
    contradiction

theorem ends_loop {ub : Nat} {Q : Unit → St → Prop} {E : Err → St → Prop} (h : Tended s u v D)
    (hi : ¬ (v.isEov = true ∨ v.numElements = 0)) (hub : ub < lmaIdx) :
    Ends (vctrEarlyFree u ub) s Q E ↔
      Ends (forUp (earlyFreeChnk u) v.minChnkIdx (ub + 1 - v.minChnkIdx)) s Q E := by
  rw [vctrEarlyFree, ends_bind, ends_get]
  simp only [h.filled.found]
  rw [if_neg (h.heeded hi), if_neg (Nat.not_le_of_lt hub)]

/-- With the highest bound there is, it does not return. -/
theorem ends_endless {ub : Nat} (h : Tended s u v D)
    (hi : ¬ (v.isEov = true ∨ v.numElements = 0)) (hub : lmaIdx ≤ ub) :
    Ends (vctrEarlyFree u ub) s (fun _ _ => False) fun _ _ => True := by
  rw [vctrEarlyFree, ends_bind, ends_get]
  simp only [h.filled.found]
  rw [if_neg (h.heeded hi), if_pos hub]
  trivial

end Tended

/-! What is there when the loop has come to its end, above the chunks that went. -/

namespace FreedTo

variable (h : Tended s u v D) (hi : ¬ (v.isEov = true ∨ v.numElements = 0)) (hki : k ≤ i)
  (ht : FreedTo s t u v D k i)
include hki ht

theorem above : Held False t u { v with minChnkIdx := k } D ∧
    ∀ j, k ≤ j → t.chnks (u, j) = (s.chnks (u, j)).map fun c => if j < i then c.passed else c := by
  obtain ⟨hheld, hchnks⟩ := ht
  rw [Nat.min_eq_right hki] at hheld hchnks
  exact ⟨hheld, hchnks⟩

theorem of_found (hd : t.chnks (u, j) = some d) :
    k ≤ j ∧ ∃ c, s.chnks (u, j) = some c ∧ d = if j < i then c.passed else c := by
  obtain ⟨hheld, hchnks⟩ := ht.above hki
  have hkj := (hheld.mem_window hd).1
  rw [hchnks j hkj, Option.map_eq_some_iff] at hd
  obtain ⟨c, hc, rfl⟩ := hd
  exact ⟨hkj, c, hc, rfl⟩

theorem lt_of_gone (hc : s.chnks (u, j) = some c) (hn : t.chnks (u, j) = none) : j < k := by
  by_contra hkj
  rw [(ht.above hki).2 j (by omega), hc] at hn
  contradiction

/-- Only chunks without ignores went, if there are only such below `k`. -/
theorem frees {ub : Nat} (hub : k ≤ ub) (hlast : k ≤ v.maxChnkIdx)
    (hold : ∀ j c, j < k → s.chnks (u, j) = some c → c.numFreeIgnore = 0) : Frees s t u v ub where
  below j c hc hn := by
    have := ht.lt_of_gone hki hc hn
    omega
  spent j c hc hn := hold j c (ht.lt_of_gone hki hc hn) hc
  kept j d hd := by
    obtain ⟨-, c, hc, rfl⟩ := ht.of_found hki hd
    refine ⟨c, hc, ?_⟩
    split
    · exact Or.inr rfl
    · exact Or.inl rfl

include h hi

theorem tended (hlast : k ≤ v.maxChnkIdx) : Tended t u { v with minChnkIdx := k } D := by
  obtain ⟨hheld, hchnks⟩ := ht.above hki
  obtain ⟨-, hnum⟩ := h.filled.held (Nat.pos_of_ne_zero fun h0 => hi (Or.inr h0))
  refine ⟨⟨hheld.found, hheld.shape, fun h0 => absurd (Or.inr h0) hi, fun _ => ⟨hheld, hnum⟩⟩,
    h.isLma, h.isPersist, h.early, h.memoLen, h.size_le, fun i j c d hc hd hij => ?_,
    fun i d hd => ?_, fun hp => ?_⟩
  · obtain ⟨-, c', hc', rfl⟩ := ht.of_found hki hc
    obtain ⟨-, d', hd', rfl⟩ := ht.of_found hki hd
    have hle := h.ages i j c' d' hc' hd' hij
    have hpc : c'.passed.numFreeIgnore = c'.numFreeIgnore - 1 := rfl
    have hpd : d'.passed.numFreeIgnore = d'.numFreeIgnore - 1 := rfl
    split <;> split <;> omega
  · obtain ⟨-, c', hc', rfl⟩ := ht.of_found hki hd
    obtain ⟨hr, hle⟩ := h.fresh i c' hc'
    split
    · exact ⟨hr, Nat.le_trans (Nat.sub_le _ _) hle⟩
    · exact ⟨hr, hle⟩
  · obtain ⟨c', b, hc', hb⟩ := h.inMem hp
    refine ⟨_, b, by rw [hchnks _ hlast, hc', Option.map_some], ?_⟩
    split <;> exact hb

end FreedTo

namespace Tended

/-- **A call that spares** the chunk where it ends deletes nothing that it should not. -/
theorem ends_spared {ub : Nat} (h : Tended s u v D) (hs : Spared s u v ub) :
    Ends (vctrEarlyFree u ub) s
      (fun _ t => Frees s t u v ub ∧ ∃ m, Tended t u { v with minChnkIdx := m } D)
      fun _ _ => False := by
  have hstay : Frees s s u v ub ∧ ∃ m, Tended s u { v with minChnkIdx := m } D :=
    ⟨⟨fun i c hc hn => by rw [hc] at hn; contradiction,
      fun i c hc hn => by rw [hc] at hn; contradiction, fun i d hd => ⟨d, hd, Or.inl rfl⟩⟩,
      v.minChnkIdx, h⟩
  by_cases hi : v.isEov = true ∨ v.numElements = 0
  · refine (h.ends_ignored hi).imp ?_ fun _ _ => id
    rintro - t rfl
    exact hstay
  have hs' : ub < lmaIdx ∧ (ub < v.minChnkIdx ∨
      ∃ c, s.chnks (u, min ub v.maxChnkIdx) = some c ∧ 0 < c.numFreeIgnore) := by
    rw [Spared, ← or_assoc] at hs
    exact hs.resolve_left hi
  obtain ⟨hub, hend⟩ := hs'
  rw [h.ends_loop hi hub]
  by_cases hlt : ub < v.minChnkIdx
  · rw [show ub + 1 - v.minChnkIdx = 0 by omega]
    exact hstay
  obtain ⟨hheld, -⟩ := h.filled.held (Nat.pos_of_ne_zero fun h0 => hi (Or.inr h0))
  obtain ⟨c, hc, hpos⟩ := hend.resolve_left hlt
  have hwin := hheld.mem_window hc
  -- the chunks below `k` are without ignores, those from `k` on are not
  obtain ⟨k, hlo, hhi, ⟨ck, hck, hkpos⟩, hbelow⟩ := exists_first
    (p := fun k => ∃ c, s.chnks (u, k) = some c ∧ 0 < c.numFreeIgnore) hwin.1 ⟨c, hc, hpos⟩
  have hold : ∀ i c, i < k → s.chnks (u, i) = some c → c.numFreeIgnore = 0 :=
    fun i c hik hci => Nat.eq_zero_of_not_pos fun h0 =>
      hbelow i (hheld.mem_window hci).1 hik ⟨c, hci, h0⟩
  have hloop := Ends.forUp (E := fun (_ : Err) (_ : St) => False)
    (fun i t => FreedTo s t u v D k i) (ub + 1 - v.minChnkIdx) v.minChnkIdx s (.start hheld hlo)
    fun i t hi _ ht => by
      by_cases hik : i < k
      · exact ht.step_old h.isLma h.size_le hik (by omega) (fun c => hold i c hik)
          fun c hc => (h.fresh i c hc).1
      · refine ht.step_young (by omega) fun d hd => ?_
        exact Nat.lt_of_lt_of_le hkpos (h.ages k i ck d hck hd (by omega))
  refine hloop.imp ?_ fun _ _ => id
  rintro - t ht
  rw [show v.minChnkIdx + (ub + 1 - v.minChnkIdx) = ub + 1 by omega] at ht
  have hki : k ≤ ub + 1 := by omega
  exact ⟨ht.frees hki (by omega) (by omega) hold, k, FreedTo.tended h hi hki ht (by omega)⟩

/-- A chunk where the loop comes to its end, and which has no ignore left, goes. -/
theorem ends_last_gone {ub e : Nat} (h : Tended s u v D)
    (hi : ¬ (v.isEov = true ∨ v.numElements = 0)) (hub : ub < lmaIdx) (hmin : v.minChnkIdx ≤ ub)
    (he : min ub v.maxChnkIdx = e) (hc : s.chnks (u, e) = some c) (hzero : c.numFreeIgnore = 0) :
    Ends (vctrEarlyFree u ub) s (fun _ t => t.chnks (u, e) = none) fun _ _ => True := by
  obtain ⟨hheld, -⟩ := h.filled.held (Nat.pos_of_ne_zero fun h0 => hi (Or.inr h0))
  have hold : ∀ i d, i ≤ e → s.chnks (u, i) = some d → d.numFreeIgnore = 0 := by
    intro i d hie hd
    have := h.ages i e d c hd hc hie
    omega
  rw [h.ends_loop hi hub]
  refine (Ends.forUp (E := fun (_ : Err) (_ : St) => True)
    (fun i t => (i ≤ e → FreedTo s t u v D e i) ∧ (e < i → t.chnks (u, e) = none))
    (ub + 1 - v.minChnkIdx) v.minChnkIdx s
    ⟨fun h => .start hheld h, fun h => absurd (hheld.mem_window hc).1 (Nat.not_le_of_lt h)⟩
    fun i t hi _ ht => ?_).imp (fun _ t ht => ht.2 (by omega)) fun _ _ => id
  by_cases hie : i < e
  · refine ((ht.1 (Nat.le_of_lt hie)).step_old h.isLma h.size_le hie (by omega)
      (fun d => hold i d (Nat.le_of_lt hie)) fun d hd => (h.fresh i d hd).1).imp ?_
      fun _ _ _ => trivial
    exact fun _ t' ht' => ⟨fun _ => ht', fun h => by omega⟩
  by_cases hie' : i = e
  · subst hie'
    have hfr := ht.1 (Nat.le_refl i)
    refine (hfr.held.ends_earlyFreeChnk h.isLma h.size_le (hfr.found.trans hc) hzero
      (h.fresh i c hc).1).imp ?_ fun _ _ _ => trivial
    rintro - t' ⟨r, hr, rfl⟩
    refine ⟨fun h => by omega, fun _ => ?_⟩
    rw [St.setVctr_chnks, hr.chnks, update_self]
  · refine (ends_earlyFreeChnk_ne (Ne.symm hie')).imp ?_ fun _ _ _ => trivial
    exact fun _ t' ht' => ⟨fun h => by omega, fun _ => ht'.trans (ht.2 (by omega))⟩

/-- Where that chunk has no ignore left, it is deleted, or the call does not return. -/
theorem spared_of_frees {ub : Nat} (h : Tended s u v D) (hrun : vctrEarlyFree u ub s = .ok () t)
    (hf : Frees s t u v ub) : Spared s u v ub := by
  by_contra hns
  rw [Spared, ← or_assoc, not_or] at hns
  obtain ⟨hi, hns⟩ := hns
  by_cases hub : ub < lmaIdx
  swap
  · exact (h.ends_endless hi (Nat.le_of_not_lt hub)).of_ok hrun
  rw [not_and] at hns
  have hns := hns hub
  rw [not_or, not_exists] at hns
  obtain ⟨hmin, hnone⟩ := hns
  obtain ⟨hheld, -⟩ := h.filled.held (Nat.pos_of_ne_zero fun h0 => hi (Or.inr h0))
  have hle := hheld.shape.min_le
  generalize he : min ub v.maxChnkIdx = e at hnone
  obtain ⟨c, hc, -⟩ := hheld.inside e (by omega) (by omega)
  have hzero : c.numFreeIgnore = 0 :=
    Nat.eq_zero_of_not_pos fun hpos => hnone c ⟨hc, hpos⟩
  have hgone := (h.ends_last_gone hi hub (Nat.le_of_not_lt hmin) he hc hzero).of_ok hrun
  have hbelow := hf.below e c hc hgone
  omega

/-- **`vctr_early_free`** keeps what it owes exactly if it spares that chunk. -/
theorem frees_iff {ub : Nat} (h : Tended s u v D) :
    (∃ t, vctrEarlyFree u ub s = .ok () t ∧ Frees s t u v ub) ↔ Spared s u v ub := by
  constructor
  · rintro ⟨t, hrun, hf⟩
    exact h.spared_of_frees hrun hf
  · intro hs
    obtain ⟨⟨⟩, t, hrun, hf, -⟩ := (h.ends_spared hs).returns
    exact ⟨t, hrun, hf⟩

end Tended

/-! ## appending -/

theorem Tended.congr (h : Tended s u v D) (ht : Alike s t) : Tended t u v D where
  filled := h.filled.congr ht
  isLma := h.isLma
  isPersist := h.isPersist
  early := h.early
  memoLen := h.memoLen
  size_le := h.size_le
  ages := by rw [ht.chnks]; exact h.ages
  fresh := by rw [ht.chnks]; exact h.fresh
  inMem hp := by
    rw [InMem, ht.chnks]
    exact h.inMem hp

/-- A chunk that is opened is higher than those that are there, and has as many ignores
as any of them. -/
theorem Grows.tended {D' : List UInt8} (hg : Grows s t u v w D' k) (h : Tended s u v D) (hk : 0 < k) :
    Tended t u w D' := by
  have hst := hg.static
  have hearly : w.isEarlyFreeable = v.isEarlyFreeable := (congrArg VctrVal.isEarlyFreeable hst :)
  have hign : w.numFreeIgnore = v.numFreeIgnore := (congrArg VctrVal.numFreeIgnore hst :)
  have hpers : w.isPersist = v.isPersist := (congrArg VctrVal.isPersist hst :)
  have hnum := hg.num
  obtain ⟨hheld, -⟩ := hg.filled.held (by omega)
  have hstamp : v.stamp = (0, v.numFreeIgnore) := by rw [VctrVal.stamp, h.early, if_pos rfl]
  have hof : ∀ i c, t.chnks (u, i) = some c →
      (∃ c', s.chnks (u, i) = some c' ∧ c'.numReaders = c.numReaders ∧
        c'.numFreeIgnore = c.numFreeIgnore) ∨
      (s.chnks (u, i) = none ∧ c.numReaders = 0 ∧ c.numFreeIgnore = v.numFreeIgnore) := by
    intro i c hc
    cases hg.stamps i with
    | inl hsame =>
        rw [hc, Option.map_some, eq_comm, Option.map_eq_some_iff] at hsame
        obtain ⟨c', hc', hcc⟩ := hsame
        exact Or.inl ⟨c', hc', congrArg Prod.fst hcc, congrArg Prod.snd hcc⟩
    | inr hnew =>
        obtain ⟨hnone, hnew⟩ := hnew
        rw [hc, Option.map_some, Option.some.injEq, hstamp] at hnew
        exact Or.inr ⟨hnone, congrArg Prod.fst hnew, congrArg Prod.snd hnew⟩
  refine ⟨hg.filled, (static_isLma hst).trans h.isLma, hpers.trans h.isPersist,
    hearly.trans h.early, (static_memoLen hst).trans h.memoLen, ?_, fun i j c d hc hd hij => ?_,
    fun i c hc => ?_, fun _ => hg.inMem⟩
  · rw [static_width hst, static_maxNumInChnk hst]
    exact h.size_le
  · obtain ⟨d', hd', -, hdi⟩ | ⟨-, -, hdi⟩ := hof j d hd
    · obtain ⟨c', hc', -, hci⟩ | ⟨hnone, -, -⟩ := hof i c hc
      · rw [← hci, ← hdi]
        exact h.ages i j c' d' hc' hd' hij
      · -- the higher chunk was there, so the lower one was
        have hpos : 0 < v.numElements := by
          refine Nat.pos_of_ne_zero fun h0 => ?_
          rw [h.filled.empty h0] at hd'
          contradiction
        obtain ⟨hheld', -⟩ := h.filled.held hpos
        have hlo := (hheld.mem_window hc).1
        rw [hg.min] at hlo
        obtain ⟨c', hc', -⟩ := hheld'.inside i hlo
          (Nat.le_trans hij (hheld'.mem_window hd').2)
        rw [hnone] at hc'
        contradiction
    · rw [hdi]
      obtain ⟨c', hc', -, hci⟩ | ⟨-, -, hci⟩ := hof i c hc
      · rw [← hci]
        exact (h.fresh i c' hc').2
      · exact Nat.le_of_eq hci
  · rw [hign]
    obtain ⟨c', hc', hr, hci⟩ | ⟨-, hr, hci⟩ := hof i c hc
    · rw [← hr, ← hci]
      exact h.fresh i c' hc'
    · exact ⟨hr, Nat.le_of_eq hci⟩

/-- A vector without a memo window is not trimmed. -/
theorem Filled.ends_vctrMemo_off (h : Filled s u v D) (hm : v.memoLen = 0) :
    Ends (vctrMemo u) s (fun _ t => t = s) fun _ _ => False :=
  ends_vctrMemo_narrow h.found h.shape fun h0 => absurd hm h0

namespace Tended

theorem setEov (h : Tended s u v D) (e : Bool) :
    Tended (s.setVctr u { v with isEov := e }) u { v with isEov := e } D where
  filled := ⟨St.setVctr_self, { h.filled.shape with }, h.filled.empty, fun hp =>
    ⟨(h.filled.held hp).1.setEov e, (h.filled.held hp).2⟩⟩
  isLma := h.isLma
  isPersist := h.isPersist
  early := h.early
  memoLen := h.memoLen
  size_le := h.size_le
  ages := h.ages
  fresh := h.fresh
  inMem := h.inMem

/-- What an append makes of the vector, which is then not ended. -/
def Appends (u : Nat) (v : VctrVal) (D : List UInt8) (w : VctrVal) (t : St) : Prop :=
  Tended t u w D ∧ w.static = v.static

theorem ends_memo {D' : List UInt8} (h : Tended s u v D) (hg : Grows s t u v w D' k) (hk : 0 < k) :
    Ends (vctrMemo u) t (fun _ t => ∃ w, Appends u v D' w t) fun _ _ => False := by
  have ht := hg.tended h hk
  refine (ht.filled.ends_vctrMemo_off ht.memoLen).imp ?_ fun _ _ => id
  rintro - _ rfl
  exact ⟨w, ht, hg.static⟩

/-- `vctr_put1` -/
theorem ends_vctrPut1 (h : Tended s u v D) (hsc : v.qtype = .SC → (cstr x).length ≤ v.width)
    (hidx : v.numElements + 1 ≤ lmaIdx * v.maxNumInChnk) :
    Ends (vctrPut1 u x) s (fun _ t => ∃ w, Appends u v (D ++ v.put1Bytes x) w t)
      fun e t => (v.qtype = .SC ∨ v.width ≤ x.length → e ≠ .ub) ∧
        (e ≠ .ub → Tended t u v D ∧ (u = 0 ∨ v.isEov = true ∨ ¬ InMem s u v)) :=
  (h.filled.ends_vctrPut1 hsc hidx fun _ _ hg => h.ends_memo hg Nat.one_pos).imp (fun _ _ => id)
    fun _ _ ht => ⟨ht.1, fun hub => ⟨h.congr (ht.2 hub).1, (ht.2 hub).2⟩⟩

/-- `vctr_putn` -/
theorem ends_vctrPutn {X : List UInt8} (h : Tended s u v D)
    (hidx : v.numElements + n ≤ lmaIdx * v.maxNumInChnk) :
    Ends (vctrPutn u X n) s (fun _ t => ∃ w, Appends u v (D ++ X.take (v.width * n)) w t)
      fun e t => (v.width * n ≤ X.length → e ≠ .ub) ∧
        (e ≠ .ub → Tended t u v D ∧ (u = 0 ∨ n = 0 ∨ v.isEov = true ∨ ¬ InMem s u v)) := by
  have hQ : ∀ t, (∃ w, Appends u v (D ++ X.take (v.width * n)) w t) →
      Ends (vctrMemo u) t (fun _ t => ∃ w, Appends u v (D ++ X.take (v.width * n)) w t)
        fun _ _ => False := by
    rintro t ⟨w, ht, hst⟩
    refine (ht.filled.ends_vctrMemo_off ht.memoLen).imp ?_ fun _ _ => id
    rintro - _ rfl
    exact ⟨w, ht, hst⟩
  refine (Filled.ends_vctrPutnLoop hQ (n + 1) n s v D X h.filled hidx fun _ _ hn hg =>
    h.ends_memo hg hn).imp (fun _ _ => id) fun e t ht => ?_
  exact ⟨ht.1 (Nat.lt_succ_self n), fun hub => ⟨h.congr (ht.2 hub).1, (ht.2 hub).2⟩⟩

/-- `vctr_put_chunk` -/
theorem ends_vctrPutChunk {cmem : Cmem} (h : Tended s u v D) (hq : v.qtype ≠ .B1)
    (hcm : cmem.Valid) (hidx : v.numElements + n ≤ lmaIdx * v.maxNumInChnk) :
    Ends (vctrPutChunk u cmem n) s
      (fun _ t => (v.cmemBytes cmem n).length = v.width * n ∧
        ∃ w, Appends u v (D ++ v.cmemBytes cmem n) w t)
      fun e t => e ≠ .ub ∧ Tended t u v D := by
  refine (h.filled.ends_vctrPutChunk (Q := Appends u v (D ++ v.cmemBytes cmem n)) hq hcm
    (h.filled.ends_vctrMemo_off h.memoLen) hidx (fun _ _ ht => ht.1.filled.found)
    fun _ _ hn hg => h.ends_memo hg hn).imp ?_ fun e t ht => ⟨ht.1, h.congr ht.2⟩
  rintro - t ⟨hlen, w, r, ⟨hw, hst⟩, rfl⟩
  exact ⟨hlen, _, hw.setEov _, hst⟩

end Tended

/-! ## runs -/

/-- A call on a vector that is made and freed from below. -/
inductive FreeOp
  | put (o : Op)
  | earlyFree (ub : Nat)

namespace FreeOp

def run (u : Nat) : FreeOp → M Unit
  | put o => o.run u
  | earlyFree ub => vctrEarlyFree u ub

/-- The elements it appends. -/
def elems (v : VctrVal) : FreeOp → List (List UInt8)
  | put o => o.elems v
  | earlyFree _ => []

/-- An append that is in order, or a bound of any size. -/
def Fair (s : St) (u : Nat) (v : VctrVal) : FreeOp → Prop
  | put o => o.isPut ∧ o.Fair v ∧ o.Safe s u v
  | earlyFree _ => True

/-- Every early free spares the chunk where it ends. -/
def Sparing (s : St) (u : Nat) (v : VctrVal) : FreeOp → Prop
  | put _ => True
  | earlyFree ub => Spared s u v ub

end FreeOp

/-- A vector made by `vctr_add`, with the elements appended to it by calls that all
satisfied `P`. -/
inductive FreeRun (P : St → VctrVal → FreeOp → Prop) (a : AddArgs) (u : Nat) :
    St → List (List UInt8) → Prop
  | add {s t : St} (hnew : ∀ i, s.chnks (u, i) = none) (ha : vctrAdd a s = .ok u t) :
      FreeRun P a u t []
  | ok {s t : St} {L : List (List UInt8)} {v : VctrVal} {o : FreeOp} (h : FreeRun P a u s L)
      (hv : s.vctrs u = some v) (ho : P s v o) (hr : o.run u s = .ok () t) :
      FreeRun P a u t (L ++ o.elems v)
  | bye {s t : St} {L : List (List UInt8)} {v : VctrVal} {o : FreeOp} {k : Int}
      (h : FreeRun P a u s L) (hv : s.vctrs u = some v) (ho : P s v o)
      (hr : o.run u s = .error (.bye k) t) : FreeRun P a u t L

/-- The vector holds the elements of the log, less those of the chunks that were freed. -/
structure Pruned (a : AddArgs) (s : St) (u : Nat) (v : VctrVal) (L : List (List UInt8)) :
    Prop where
  tended : Tended s u v L.flatten
  static : v.static = a.entry.static
  each : ∀ x ∈ L, x.length = v.width
  zero : u = 0 → L = []

/-- `vctr_add` takes a memo window or early freeing, not both. -/
theorem not_memo_of_vctrAdd (ha : vctrAdd a s = .ok u t) (he : a.isEarlyFreeable = true) :
    a.isMemo = false := by
  have hspec : Ends (vctrAdd a) s (fun _ _ => ¬ (a.isMemo = true ∧ a.isEarlyFreeable = true))
      fun _ _ => True := by
    simp only [vctrAdd, vctrNewUqid, ends_bind, ends_byeIf, ends_get, ends_modify, ends_pure,
      ends_setVctr, implies_true, true_and]
    exact fun _ _ _ _ _ _ _ _ _ _ h _ _ _ => h
  have hnot := hspec.of_ok ha
  rw [he, and_iff_left rfl] at hnot
  simpa using hnot

namespace Pruned

theorem add (ha : vctrAdd a s = .ok u t) (hnew : ∀ i, s.chnks (u, i) = none)
    (he : a.isEarlyFreeable = true) (hq : a.qtype ≠ .B1)
    (hfit : a.widthOf * a.maxOf ≤ 1024 * 1048576) : Pruned a t u a.entry [] := by
  have hg := grown_of_vctrAdd hq (by omega) hnew ha
  have hnone := hg.vec.empty rfl
  refine ⟨⟨hg.vec.filled, rfl, rfl, he, hg.args.memoLen_eq (not_memo_of_vctrAdd ha he), hfit,
    fun i j c d hc => ?_, fun i c hc => ?_, fun hp => absurd hp (Nat.lt_irrefl 0)⟩, rfl, hg.each,
    hg.zero⟩
  · rw [hnone] at hc
    contradiction
  · rw [hnone] at hc
    contradiction

theorem append {xs : List (List UInt8)} (h : Pruned a s u v L) (hx : ∀ x ∈ xs, x.length = v.width)
    (hu : u ≠ 0) (ht : Tended.Appends u v (L.flatten ++ xs.flatten) w t) :
    Pruned a t u w (L ++ xs) where
  tended := by
    rw [List.flatten_append]
    exact ht.1
  static := ht.2.trans h.static
  each x hm := by
    rw [static_width ht.2]
    exact (List.mem_append.mp hm).elim (h.each x) (hx x)
  zero h0 := absurd h0 hu

theorem step_put {o : Op} (h : Pruned a s u v L) (hq : v.qtype ≠ .B1) (ho : o.isPut)
    (hf : o.Fair v) (hs : o.Safe s u v) :
    Ends (o.run u) s (fun _ t => ∃ w, Pruned a t u w (L ++ o.elems v))
      fun e t => e ≠ .ub → Pruned a t u v L := by
  by_cases hu : u = 0
  · subst hu
    rw [Ends, Op.run_zero ho]
    exact fun _ => h
  have hback : ∀ {t}, Tended t u v L.flatten → Pruned a t u v L :=
    fun ht => ⟨ht, h.static, h.each, h.zero⟩
  cases o with
  | put1 x =>
      refine (h.tended.ends_vctrPut1 hs.1 hf).imp ?_ fun e t ht hub => hback (ht.2 hub).1
      rintro - t ⟨w, ht⟩
      refine ⟨w, h.append (fun y hy => ?_) hu (by simpa [Op.elems] using ht)⟩
      rw [List.mem_singleton.mp hy]
      exact length_put1Bytes hs.1
  | putn X n =>
      refine (h.tended.ends_vctrPutn hf.2).imp ?_ fun e t ht hub => hback (ht.2 hub).1
      rintro - t ⟨w, ht⟩
      rw [← flatten_slices] at ht
      exact ⟨w, h.append (fun y hy => length_of_mem_slices hf.1 hy) hu ht⟩
  | putChunk cmem n =>
      rw [Op.run, ends_bind]
      refine (h.tended.ends_vctrPutChunk hq hf.1 hf.2).imp ?_ fun e t ht _ => hback ht.2
      rintro _ t ⟨hlen, w, ht⟩
      rw [VctrVal.cmemBytes, List.length_take] at hlen
      rw [VctrVal.cmemBytes, ← flatten_slices] at ht
      exact ⟨w, h.append (fun y hy => length_of_mem_slices (by omega) hy) hu ht⟩
  | _ => exact ho.elim

/-- A call keeps the invariant if it is in order and, where it frees, sparing. -/
theorem step {o : FreeOp} (h : Pruned a s u v L) (hq : a.qtype ≠ .B1) (hf : o.Fair s u v)
    (hs : o.Sparing s u v) :
    Ends (o.run u) s (fun _ t => ∃ w, Pruned a t u w (L ++ o.elems v))
      fun e t => e ≠ .ub → Pruned a t u v L := by
  cases o with
  | put o =>
      have hq' : v.qtype ≠ .B1 := by
        rw [static_qtype h.static]
        exact hq
      exact h.step_put hq' hf.1 hf.2.1 hf.2.2
  | earlyFree ub =>
      refine (h.tended.ends_spared hs).imp ?_ fun _ _ => False.elim
      rintro - t ⟨-, m, ht⟩
      rw [FreeOp.elems, List.append_nil]
      exact ⟨_, ht, h.static, h.each, h.zero⟩

end Pruned

/-- **The invariant of a run** whose early frees are sparing. -/
theorem run_pruned (h : FreeRun (fun s v o => o.Fair s u v ∧ o.Sparing s u v) a u s L)
    (he : a.isEarlyFreeable = true) (hq : a.qtype ≠ .B1)
    (hfit : a.widthOf * a.maxOf ≤ 1024 * 1048576) : ∃ v, Pruned a s u v L := by
  induction h with
  | add hnew ha => exact ⟨_, .add ha hnew he hq hfit⟩
  | ok _ hv ho hr ih =>
      obtain ⟨v, hp⟩ := ih
      obtain rfl := Option.some.inj (hp.tended.filled.found.symm.trans hv)
      exact (hp.step hq ho.1 ho.2).of_ok hr
  | bye _ hv ho hr ih =>
      obtain ⟨v, hp⟩ := ih
      obtain rfl := Option.some.inj (hp.tended.filled.found.symm.trans hv)
      exact ⟨v, (hp.step hq ho.1 ho.2).of_error hr (by simp)⟩

/-- What a vector that is freed from below owes for the elements `L`: its chunks are those
of its window, what was not freed can be read, and more can be appended. -/
structure FreeContract (s : St) (u : Nat) (v : VctrVal) (L : List (List UInt8)) : Prop where
  found : s.vctrs u = some v
  num : v.numElements = L.length
  ordered : v.minChnkIdx ≤ v.maxChnkIdx
  table : ∀ i, (s.chnks (u, i)).isSome ↔
    0 < L.length ∧ v.minChnkIdx ≤ i ∧ i ≤ v.maxChnkIdx
  get : ∀ i x, (∃ t, vctrGet1 u i s = .ok x t) ↔
    ∃ hi : i < L.length, v.minChnkIdx ≤ i / v.maxNumInChnk ∧ ScOk v L[i] ∧ x = L[i]
  put1 : 0 < L.length → v.isEov = false → ∀ x, (if v.qtype = .SC then (cstr x).length ≤ v.width
    else v.width ≤ x.length) → v.numElements + 1 ≤ lmaIdx * v.maxNumInChnk →
    ∃ t, vctrPut1 u x s = .ok () t
  putn : 0 < L.length → v.isEov = false → ∀ X n, 0 < n → v.width * n ≤ X.length →
    v.numElements + n ≤ lmaIdx * v.maxNumInChnk → ∃ t, vctrPutn u X n s = .ok () t

theorem Pruned.freeContract (h : Pruned a s u v L) (hq : v.qtype ≠ .B1) : FreeContract s u v L := by
  have hnum := h.tended.filled.num h.each
  have hu : 0 < L.length → u ≠ 0 := fun hp h0 => by
    rw [h.zero h0] at hp
    exact absurd hp (Nat.lt_irrefl 0)
  refine ⟨h.tended.filled.found, hnum, h.tended.filled.shape.min_le, fun i => ?_, fun i x =>
    h.tended.filled.vctrGet1_iff h.each h.tended.isLma hq, fun hp he x hx hidx => ?_,
    fun hp he X n hn hX hidx => ?_⟩
  · by_cases hp : 0 < L.length
    · obtain ⟨hh, -⟩ := h.tended.filled.held (by omega)
      refine ⟨fun hs => ?_, fun hi => ?_⟩
      · obtain ⟨c, hc⟩ := Option.isSome_iff_exists.mp hs
        exact ⟨hp, hh.mem_window hc⟩
      · obtain ⟨c, hc, -⟩ := hh.inside i hi.2.1 hi.2.2
        rw [hc]
        rfl
    · rw [h.tended.filled.empty (by omega) i]
      simp [hp]
  · have hsc : v.qtype = .SC → (cstr x).length ≤ v.width := fun h' => by rwa [if_pos h'] at hx
    have hw : v.qtype = .SC ∨ v.width ≤ x.length := by
      by_cases h' : v.qtype = .SC
      · exact Or.inl h'
      · rw [if_neg h'] at hx
        exact Or.inr hx
    obtain ⟨⟨⟩, t, ht, -⟩ := Ends.returns ((h.tended.ends_vctrPut1 hsc hidx).imp (fun _ _ h => h)
      fun e t ht => by
        obtain ⟨-, h0 | h0 | h0⟩ := ht.2 (ht.1 hw)
        · exact hu hp h0
        · rw [he] at h0
          contradiction
        · exact h0 (h.tended.inMem (by omega)))
    exact ⟨t, ht⟩
  · obtain ⟨⟨⟩, t, ht, -⟩ := Ends.returns ((h.tended.ends_vctrPutn hidx).imp (fun _ _ h => h)
      fun e t ht => by
        obtain ⟨-, h0 | h0 | h0 | h0⟩ := ht.2 (ht.1 hX)
        · exact hu hp h0
        · omega
        · rw [he] at h0
          contradiction
        · exact h0 (h.tended.inMem (by omega)))
    exact ⟨t, ht⟩

/-- **Early freeing**: in every run of appends and early frees in which each free spares
the chunk where it ends, and then a further one does what it should exactly if it does so
as well. -/
theorem run_freeContract (h : FreeRun (fun s v o => o.Fair s u v ∧ o.Sparing s u v) a u s L)
    (he : a.isEarlyFreeable = true) (hq : a.qtype ≠ .B1)
    (hfit : a.widthOf * a.maxOf ≤ 1024 * 1048576) : ∃ v, FreeContract s u v L ∧
      ∀ ub, (∃ t, vctrEarlyFree u ub s = .ok () t ∧ Frees s t u v ub) ↔ Spared s u v ub := by
  obtain ⟨v, hp⟩ := run_pruned h he hq hfit
  have hqt : v.qtype = a.qtype := static_qtype hp.static
  exact ⟨v, hp.freeContract (hqt ▸ hq), fun ub => hp.tended.frees_iff⟩

/-- Arguments for a vector of bytes whose chunks ignore `n` calls. -/
def freeArgs (n : Int) : AddArgs :=
  { plainArgs .I1 0 with isEarlyFreeable := true, numFreeIgnore := n }

theorem freeRun_added {P : St → VctrVal → FreeOp → Prop} (h : outcome (vctrAdd a) .start = .ok 1) :
    FreeRun P a 1 (added a) [] :=
  .add (s := .start) (fun _ => rfl) (run_of_outcome_ok h)

/-- Two chunks, the first of which goes with the second call. -/
theorem run_freeContract_two : ∃ s v, (FreeContract s 1 v (slices 1 65 (List.replicate 65 7)) ∧
    ∀ ub, (∃ t, vctrEarlyFree 1 ub s = .ok () t ∧ Frees s t 1 v ub) ↔ Spared s 1 v ub) ∧
    s.chnks (1, 0) = none := by
  have h0 := freeRun_added (a := freeArgs 1)
    (P := fun s v o => o.Fair s 1 v ∧ o.Sparing s 1 v) (by decide)
  have h1 := h0.ok (o := .put (.putn (List.replicate 65 7) 65)) rfl
    ⟨⟨trivial, ⟨Nat.le_refl 65, show 0 + 65 ≤ lmaIdx * 64 by decide⟩, fun h => absurd rfl h⟩,
      trivial⟩ (run_of_outcome_ok (by decide +kernel))
  have h2 := h1.ok (o := .earlyFree 0) rfl
    ⟨trivial, Or.inr (Or.inr ⟨by decide, Or.inr ⟨_, rfl, by decide +kernel⟩⟩)⟩
    (run_of_outcome_ok (by decide +kernel))
  have h3 := h2.ok (o := .earlyFree 1) rfl
    ⟨trivial, Or.inr (Or.inr ⟨by decide, Or.inr ⟨_, rfl, by decide +kernel⟩⟩)⟩
    (run_of_outcome_ok (by decide +kernel))
  obtain ⟨v, hv⟩ := run_freeContract h3 rfl (by decide) (by decide)
  exact ⟨_, v, hv, rfl⟩

/-- Without ignores, a call with bound 0 deletes chunk 0, the only one there is. -/
theorem freeContract_fails : ∃ s L, FreeRun (fun s v o => o.Fair s 1 v) (freeArgs 0) 1 s L ∧
    ¬ ∃ v, FreeContract s 1 v L := by
  have h0 := freeRun_added (a := freeArgs 0) (P := fun s v o => o.Fair s 1 v) (by decide)
  have h1 := h0.ok (o := .put (.put1 [7])) rfl
    ⟨trivial, show 0 + 1 ≤ lmaIdx * 64 by decide, by decide, fun h => absurd rfl h⟩
    (run_of_outcome_ok (by decide +kernel))
  have h2 := h1.ok (o := .earlyFree 0) rfl trivial (run_of_outcome_ok (by decide +kernel))
  refine ⟨_, _, h2, ?_⟩
  rintro ⟨v, hcon⟩
  obtain rfl := Option.some.inj ((show _ = some _ from rfl).symm.trans hcon.found)
  exact absurd hcon.ordered (by decide +kernel)

end QStore.Vctr
