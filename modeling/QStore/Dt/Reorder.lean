import QStore.Dt.Split

/-!
# QStore.Dt.Reorder

`reorder` is a stable partition. Whether a row goes left is read from `to` of the
split feature, which the loop over the features leaves as it is, so every feature
is partitioned by the same predicate on rows, and what was in order stays in order
on both sides: `reordered_spec`.
-/

namespace QStore.Dt

variable {Y Yj tmpYj : Nat → Nat} {lb ub yidx i j sj m : Nat}

/-- The row of word `w` goes left. -/
def goesLeft (place : Nat → Nat) (yidx w : Nat) : Bool := place (getFrom w) < yidx

/-- What partitioning a feature by `goesLeft place yidx` does to it. -/
structure Partitioned (place : Nat → Nat) (lb yidx ub : Nat) (Y tos Y' tos' : Nat → Nat) :
    Prop where
  left : seg Y' lb yidx = (seg Y lb ub).filter (goesLeft place yidx)
  right : seg Y' yidx ub = (seg Y lb ub).filter (fun w => !goesLeft place yidx w)
  placed : ∀ i, lb ≤ i → i < ub → tos' (getFrom (Y' i)) = i
  keepsY : ∀ i, ¬ (lb ≤ i ∧ i < ub) → Y' i = Y i
  keepsTo : ∀ r, r ∉ (seg Y lb ub).map getFrom → tos' r = tos r

/-! ## one feature -/

/-- Invariant of the loop of `reorder` before row `i`. -/
structure Partial (Y : Nat → Nat) (tos : Nat → Nat → Nat) (j sj lb yidx i : Nat)
    (r : Reorder) : Prop where
  left : seg r.tmpY lb r.lidx = (seg Y lb i).filter (goesLeft (tos sj) yidx)
  right : seg r.tmpY yidx r.ridx = (seg Y lb i).filter (fun w => !goesLeft (tos sj) yidx w)
  lb_le : lb ≤ r.lidx
  yidx_le : yidx ≤ r.ridx
  others : ∀ k, k ≠ j → r.tos k = tos k
  keeps : ∀ x, x ∉ (seg Y lb i).map getFrom → r.tos j x = tos j x
  placed : ∀ k, lb ≤ k ∧ k < r.lidx ∨ yidx ≤ k ∧ k < r.ridx → r.tos j (getFrom (r.tmpY k)) = k

variable {tos : Nat → Nat → Nat} {r : Reorder}

theorem Partial.lidx_eq (h : Partial Y tos j sj lb yidx i r) :
    r.lidx = lb + ((seg Y lb i).filter (goesLeft (tos sj) yidx)).length := by
  have := congrArg List.length h.left
  rw [length_seg] at this
  have := h.lb_le
  omega

theorem Partial.ridx_eq (h : Partial Y tos j sj lb yidx i r) :
    r.ridx = yidx + ((seg Y lb i).filter fun w => !goesLeft (tos sj) yidx w).length := by
  have := congrArg List.length h.right
  rw [length_seg] at this
  have := h.yidx_le
  omega

@[simp] theorem setTo_self {row idx : Nat} :
    setTo tos j row idx j = Function.update (tos j) row idx := Function.update_self ..

@[simp] theorem setTo_of_ne {row idx k : Nat} (h : k ≠ j) : setTo tos j row idx k = tos k :=
  Function.update_of_ne h ..

/-- A word is written at `pos`, behind one of the two parts. -/
theorem Partial.placed_write (h : Partial Y tos j sj lb yidx i r) (hi : lb ≤ i)
    (hnd : ((seg Y lb (i + 1)).map getFrom).Nodup) {pos : Nat}
    (hpos : ∀ k, lb ≤ k ∧ k < r.lidx ∨ yidx ≤ k ∧ k < r.ridx → k ≠ pos)
    {k : Nat} (hk : (lb ≤ k ∧ k < r.lidx ∨ yidx ≤ k ∧ k < r.ridx) ∨ k = pos) :
    setTo r.tos j (getFrom (Y i)) pos j (getFrom (Function.update r.tmpY pos (Y i) k)) = k := by
  rw [setTo_self]
  rcases hk with hk | rfl
  · have hmem : r.tmpY k ∈ seg Y lb i := by
      rcases hk with hk | hk
      · have := mem_seg_of (a := r.tmpY) hk.1 hk.2
        rw [h.left] at this
        exact List.mem_of_mem_filter this
      · have := mem_seg_of (a := r.tmpY) hk.1 hk.2
        rw [h.right] at this
        exact List.mem_of_mem_filter this
    rw [seg_succ hi, List.map_append, List.nodup_append] at hnd
    have hne : getFrom (r.tmpY k) ≠ getFrom (Y i) :=
      hnd.2.2 _ (List.mem_map_of_mem hmem) _ (by simp)
    rw [Function.update_of_ne (hpos k hk), Function.update_of_ne hne]
    exact h.placed k hk
  · rw [Function.update_self, Function.update_self]

theorem Partial.step (h : Partial Y tos j sj lb yidx i r) (hne : j ≠ sj) (hi : lb ≤ i)
    (hnd : ((seg Y lb (i + 1)).map getFrom).Nodup)
    (hroom : lb + ((seg Y lb (i + 1)).filter (goesLeft (tos sj) yidx)).length ≤ yidx) :
    Partial Y tos j sj lb yidx (i + 1) (reorderStep Y j sj yidx r i) := by
  have hsj : r.tos sj = tos sj := h.others sj (Ne.symm hne)
  have hl := h.lidx_eq
  have hlb := h.lb_le
  have hyidx := h.yidx_le
  rw [seg_succ hi, List.filter_append, List.length_append] at hroom
  have hothers : ∀ pos k, k ≠ j → setTo r.tos j (getFrom (Y i)) pos k = tos k := fun pos k hk => by
    rw [setTo_of_ne hk, h.others k hk]
  have hkeeps : ∀ pos x, x ∉ (seg Y lb (i + 1)).map getFrom →
      setTo r.tos j (getFrom (Y i)) pos j x = tos j x := by
    intro pos x hx
    rw [seg_succ hi, List.map_append, List.mem_append, not_or, List.map_singleton,
      List.mem_singleton] at hx
    rw [setTo_self, Function.update_of_ne hx.2, h.keeps x hx.1]
  unfold reorderStep
  by_cases hleft : tos sj (getFrom (Y i)) < yidx
  · have hgo : goesLeft (tos sj) yidx (Y i) = true := decide_eq_true hleft
    rw [List.filter_singleton, hgo] at hroom
    have hlt : r.lidx < yidx := by
      simp only [cond_true, List.length_singleton] at hroom
      omega
    simp only [hsj, if_pos hleft]
    refine ⟨?_, ?_, by dsimp only; omega, hyidx, hothers _, hkeeps _, fun k hk => ?_⟩
    · simp only [seg_write hlb, h.left, seg_succ hi, List.filter_append, List.filter_singleton, hgo,
        cond_true]
    · rw [seg_update_of_not_mem (by omega), h.right, seg_succ hi, List.filter_append,
        List.filter_singleton, hgo]
      simp
    · refine h.placed_write hi hnd (fun k hk => by omega) ?_
      dsimp only at hk
      omega
  · have hgo : goesLeft (tos sj) yidx (Y i) = false := decide_eq_false hleft
    rw [List.filter_singleton, hgo] at hroom
    have hle : r.lidx ≤ yidx := by
      rw [hl]
      simpa using hroom
    simp only [hsj, if_neg hleft]
    refine ⟨?_, ?_, hlb, by dsimp only; omega, hothers _, hkeeps _, fun k hk => ?_⟩
    · rw [seg_update_of_not_mem fun hk => absurd (hk.2.trans_le hle) (not_lt.mpr hyidx), h.left,
        seg_succ hi, List.filter_append, List.filter_singleton, hgo]
      simp
    · rw [seg_write hyidx, h.right, seg_succ hi, List.filter_append, List.filter_singleton, hgo]
      simp
    · refine h.placed_write hi hnd (fun k hk => by omega) ?_
      dsimp only at hk
      omega

/-- The loop of `reorder` over all rows. -/
theorem reorder_partial (tmpYj : Nat → Nat) (hne : j ≠ sj) (hends : Yj lb ≠ Yj (ub - 1)) (hle : lb ≤ ub)
    (hnd : ((seg Yj lb ub).map getFrom).Nodup)
    (hcount : lb + ((seg Yj lb ub).filter (goesLeft (tos sj) yidx)).length = yidx) :
    Partial Yj tos j sj lb yidx ub (reorder Yj tmpYj tos j sj lb ub yidx) := by
  have hrun : ∀ k, lb + k ≤ ub → Partial Yj tos j sj lb yidx (lb + k)
      ((List.range' lb k).foldl (reorderStep Yj j sj yidx) ⟨tmpYj, tos, lb, yidx⟩) := by
    intro k hk
    induction k with
    | zero =>
        refine ⟨by simp, by simp, le_rfl, le_rfl, fun _ _ => rfl, fun _ _ => rfl, fun k hk => ?_⟩
        simp only [List.range'_zero, List.foldl_nil] at hk
        omega
    | succ k ih =>
      have hcat : seg Yj lb (lb + k + 1) ++ seg Yj (lb + k + 1) ub = seg Yj lb ub :=
        seg_append (by omega) hk
      rw [← hcat] at hnd hcount
      rw [List.map_append] at hnd
      rw [List.filter_append, List.length_append] at hcount
      rw [List.range'_concat, List.foldl_append, Nat.one_mul]
      exact (ih (by omega)).step hne (Nat.le_add_right ..) hnd.of_append_left (by omega)
  rw [reorder]
  simp only [if_neg hends]
  have := hrun (ub - lb) (by omega)
  rwa [Nat.add_sub_cancel' hle] at this

theorem copyBack_of_mem {a b : Nat → Nat} (h1 : lb ≤ i) (h2 : i < ub) :
    copyBack a b lb ub i = b i := if_pos ⟨h1, h2⟩

/-- `reorder` and the copy back. -/
theorem reorder_partitioned (hne : j ≠ sj) (hends : Yj lb ≠ Yj (ub - 1)) (hlb : lb ≤ yidx)
    (hub : yidx ≤ ub) (hnd : ((seg Yj lb ub).map getFrom).Nodup)
    (hcount : lb + ((seg Yj lb ub).filter (goesLeft (tos sj) yidx)).length = yidx) :
    Partitioned (tos sj) lb yidx ub Yj (tos j)
      (copyBack Yj (reorder Yj tmpYj tos j sj lb ub yidx).tmpY lb ub)
      ((reorder Yj tmpYj tos j sj lb ub yidx).tos j) := by
  have h := reorder_partial tmpYj hne hends (hlb.trans hub) hnd hcount
  have hl : (reorder Yj tmpYj tos j sj lb ub yidx).lidx = yidx := h.lidx_eq.trans hcount
  have hr : (reorder Yj tmpYj tos j sj lb ub yidx).ridx = ub := by
    have hpart := List.length_eq_length_filter_add (l := seg Yj lb ub) (goesLeft (tos sj) yidx)
    rw [length_seg] at hpart
    rw [h.ridx_eq]
    omega
  refine ⟨?_, ?_, fun i h1 h2 => ?_, fun i hi => if_neg hi, h.keeps⟩
  · rw [← h.left, hl]
    exact seg_congr fun i h1 h2 => copyBack_of_mem h1 (by omega)
  · rw [← h.right, hr]
    exact seg_congr fun i h1 h2 => copyBack_of_mem (by omega) h2
  · rw [copyBack_of_mem h1 h2]
    exact h.placed i (by omega)

/-- The split feature is in the right order already. -/
theorem partitioned_self {place : Nat → Nat} (hlb : lb ≤ yidx) (hub : yidx ≤ ub)
    (hplace : ∀ i, lb ≤ i → i < ub → place (getFrom (Y i)) = i) :
    Partitioned place lb yidx ub Y place Y place := by
  have hl : ∀ w ∈ seg Y lb yidx, goesLeft place yidx w = true := by
    intro w hw
    obtain ⟨i, h1, h2, rfl⟩ := mem_seg.mp hw
    exact decide_eq_true (by rw [hplace i h1 (by omega)]; exact h2)
  have hr : ∀ w ∈ seg Y yidx ub, goesLeft place yidx w = false := by
    intro w hw
    obtain ⟨i, h1, h2, rfl⟩ := mem_seg.mp hw
    exact decide_eq_false (by rw [hplace i (by omega) h2]; omega)
  refine ⟨?_, ?_, hplace, fun _ _ => rfl, fun _ _ => rfl⟩
  · rw [← seg_append hlb hub, List.filter_append, List.filter_eq_self.mpr hl,
      List.filter_eq_nil_iff.mpr fun w hw => by simp [hr w hw], List.append_nil]
  · rw [← seg_append hlb hub, List.filter_append,
      List.filter_eq_nil_iff.mpr fun w hw => by simp [hl w hw],
      List.filter_eq_self.mpr fun w hw => by simp [hr w hw], List.nil_append]

/-! ## every feature -/

theorem reorder_tos_of_ne {k : Nat} (h : k ≠ j) :
    (reorder Yj tmpYj tos j sj lb ub yidx).tos k = tos k := by
  have hstep : ∀ (is : List Nat) (r : Reorder),
      (is.foldl (reorderStep Yj j sj yidx) r).tos k = r.tos k := by
    intro is
    induction is with
    | nil => exact fun _ => rfl
    | cons i is ih =>
      intro r
      rw [List.foldl_cons, ih, reorderStep]
      split <;> exact setTo_of_ne h
  rw [reorder]
  split
  · rfl
  · exact hstep _ _

section Features

variable {b : Split} {s s' : St} {k : Nat}

/-- Two states with the same feature `k`. -/
structure SameFeature (s s' : St) (k : Nat) : Prop where
  Y : s'.Y k = s.Y k
  tos : s'.tos k = s.tos k

theorem SameFeature.trans {s'' : St} (h : SameFeature s s' k) (h' : SameFeature s' s'' k) :
    SameFeature s s'' k :=
  ⟨h'.Y.trans h.Y, h'.tos.trans h.tos⟩

/-- The nodes are left alone. -/
def SameTree (s s' : St) : Prop := s'.tree = s.tree ∧ s'.nTree = s.nTree

theorem reorderFeature_tree : SameTree s (reorderFeature b lb ub s j) := by
  unfold reorderFeature
  split
  · exact ⟨rfl, rfl⟩
  · split <;> exact ⟨rfl, rfl⟩

theorem reorderFeature_other (h : k ≠ j) : SameFeature s (reorderFeature b lb ub s j) k := by
  unfold reorderFeature
  split
  · exact ⟨rfl, rfl⟩
  · split
    · exact ⟨rfl, rfl⟩
    · exact ⟨Function.update_of_ne h .., reorder_tos_of_ne h⟩

theorem reorderFeature_split : SameFeature s (reorderFeature b lb ub s j) b.feature := by
  by_cases h : b.feature = j
  · rw [reorderFeature, if_pos h.symm]
    exact ⟨rfl, rfl⟩
  · exact reorderFeature_other h

/-- What the loop over the features needs of feature `j`. -/
structure Ready (place : Nat → Nat) (lb yidx ub : Nat) (Y : Nat → Nat) : Prop where
  ends : Y lb ≠ Y (ub - 1)
  distinct : ((seg Y lb ub).map getFrom).Nodup
  count : lb + ((seg Y lb ub).filter (goesLeft place yidx)).length = yidx

theorem reorderFeature_self (hne : j ≠ b.feature) (hlb : lb ≤ b.yidx) (hub : b.yidx ≤ ub)
    (h : Ready (s.tos b.feature) lb b.yidx ub (s.Y j)) :
    Partitioned (s.tos b.feature) lb b.yidx ub (s.Y j) (s.tos j)
      ((reorderFeature b lb ub s j).Y j) ((reorderFeature b lb ub s j).tos j) := by
  rw [reorderFeature, if_neg hne, if_neg h.ends]
  simp only [Function.update_self]
  exact reorder_partitioned hne h.ends hlb hub h.distinct h.count

theorem foldl_reorderFeature_other {js : List Nat} (h : k ∉ js ∨ k = b.feature) :
    SameFeature s (js.foldl (reorderFeature b lb ub) s) k := by
  induction js generalizing s with
  | nil => exact ⟨rfl, rfl⟩
  | cons j js ih =>
    refine SameFeature.trans ?_ (ih (h.imp_left fun h hk => h (List.mem_cons_of_mem _ hk)))
    rcases h with h | rfl
    · exact reorderFeature_other fun he => h (he ▸ List.mem_cons_self ..)
    · exact reorderFeature_split

theorem foldl_reorderFeature {js : List Nat} (hnd : js.Nodup) (hlb : lb ≤ b.yidx)
    (hub : b.yidx ≤ ub) (hk : k ∈ js) (hne : k ≠ b.feature)
    (h : Ready (s.tos b.feature) lb b.yidx ub (s.Y k)) :
    Partitioned (s.tos b.feature) lb b.yidx ub (s.Y k) (s.tos k)
      ((js.foldl (reorderFeature b lb ub) s).Y k) ((js.foldl (reorderFeature b lb ub) s).tos k) := by
  induction js generalizing s with
  | nil => exact absurd hk List.not_mem_nil
  | cons j js ih =>
    rw [List.nodup_cons] at hnd
    rw [List.foldl_cons]
    rcases List.mem_cons.mp hk with rfl | hk
    · -- the features that follow leave this one alone
      have hrest : SameFeature (reorderFeature b lb ub s k)
          (js.foldl (reorderFeature b lb ub) (reorderFeature b lb ub s k)) k :=
        foldl_reorderFeature_other (.inl hnd.1)
      rw [hrest.Y, hrest.tos]
      exact reorderFeature_self hne hlb hub h
    · have hkj : k ≠ j := fun he => hnd.1 (he ▸ hk)
      have hother : SameFeature s (reorderFeature b lb ub s j) k := reorderFeature_other hkj
      have hplace : SameFeature s (reorderFeature b lb ub s j) b.feature := reorderFeature_split
      have := ih (s := reorderFeature b lb ub s j) hnd.2 hk (by rwa [hplace.tos, hother.Y])
      rwa [hplace.tos, hother.Y, hother.tos] at this

theorem foldl_reorderFeature_tree {js : List Nat} :
    SameTree s (js.foldl (reorderFeature b lb ub) s) := by
  induction js generalizing s with
  | nil => exact ⟨rfl, rfl⟩
  | cons j js ih =>
    have h1 : SameTree s (reorderFeature b lb ub s j) := reorderFeature_tree
    have h2 := ih (s := reorderFeature b lb ub s j)
    exact ⟨h2.1.trans h1.1, h2.2.trans h1.2⟩

end Features

/-! ## the invariant after the loop -/

section SingleSorted

variable {V : Type} [LinearOrder V] {D : DataSet V} {Y tos : Nat → Nat → Nat} {k : Nat}

/-- The rows of two features are the same list up to order. -/
theorem SingleSorted.perm (h : SingleSorted D Y tos lb ub) (hj : j < D.m) (hk : k < D.m) :
    ((seg (Y j) lb ub).map getFrom).Perm ((seg (Y k) lb ub).map getFrom) :=
  (List.perm_ext_iff_of_nodup (h.column j hj).distinct (h.column k hk).distinct).mpr
    (h.froms j hj k hk)

theorem length_filter_goesLeft {place : Nat → Nat} {L : List Nat} :
    (L.filter (goesLeft place yidx)).length = (L.map getFrom).countP (place · < yidx) := by
  rw [← List.countP_eq_length_filter, List.countP_map]
  rfl

/-- As many rows go left as there is room for. -/
theorem SingleSorted.count_left (h : SingleSorted D Y tos lb ub) (hj : j < D.m) (hk : k < D.m)
    (hlb : lb ≤ yidx) (hub : yidx ≤ ub) :
    lb + ((seg (Y j) lb ub).filter (goesLeft (tos k) yidx)).length = yidx := by
  have hself := partitioned_self hlb hub (h.place k hk)
  have hlen := congrArg List.length hself.left
  rw [length_seg] at hlen
  rw [length_filter_goesLeft, (h.perm hj hk).countP_eq, ← length_filter_goesLeft, ← hlen]
  omega

theorem SingleSorted.ready (h : SingleSorted D Y tos lb ub) (hj : j < D.m) (hk : k < D.m)
    (hlb : lb < yidx) (hub : yidx < ub) : Ready (tos k) lb yidx ub (Y j) where
  ends he := by
    have := seg_inj (h.column j hj).distinct le_rfl (hlb.trans hub) (j := ub - 1) (by omega)
      (by omega) (congrArg getFrom he)
    omega
  distinct := (h.column j hj).distinct
  count := h.count_left hj hk hlb.le hub.le

variable {E : Env} {c : Call} {s : St} {b : Split}

/-- After the loop every feature is partitioned by the places in the split feature. -/
theorem reordered_spec (h : SingleSorted D s.Y s.tos c.lb c.ub) (hm : E.m = D.m)
    (hf : b.feature < D.m) (hlb : c.lb < b.yidx) (hub : b.yidx < c.ub) (hj : j < D.m) :
    Partitioned (s.tos b.feature) c.lb b.yidx c.ub (s.Y j) (s.tos j)
      ((E.reordered c s b).Y j) ((E.reordered c s b).tos j) := by
  rw [Env.reordered, hm]
  by_cases hjf : j = b.feature
  · subst hjf
    have hsame : SameFeature s ((List.range D.m).foldl (reorderFeature b c.lb c.ub) s) b.feature :=
      foldl_reorderFeature_other (.inr rfl)
    rw [hsame.Y, hsame.tos]
    exact partitioned_self hlb.le hub.le (h.place _ hf)
  · exact foldl_reorderFeature List.nodup_range hlb.le hub.le (List.mem_range.mpr hj) hjf
      (h.ready hj hf hlb hub)

theorem reordered_tree : SameTree s (E.reordered c s b) := foldl_reorderFeature_tree

/-- A part of the positions in which every feature has the rows of one predicate. -/
theorem SingleSorted.part {Y' tos' : Nat → Nat → Nat} {lo hi : Nat} {q : Nat → Bool}
    (h : SingleSorted D Y tos lb ub) (hlo : lb ≤ lo) (hhi : hi ≤ ub)
    (hseg : ∀ j < D.m, seg (Y' j) lo hi = (seg (Y j) lb ub).filter fun w => q (getFrom w))
    (hplace : ∀ j < D.m, ∀ i, lb ≤ i → i < ub → tos' j (getFrom (Y' j i)) = i) :
    SingleSorted D Y' tos' lo hi where
  column j hj := by
    rw [hseg j hj]
    exact (h.column j hj).sublist List.filter_sublist
  froms j hj k hk r := by
    have hmem : ∀ j < D.m, r ∈ (seg (Y' j) lo hi).map getFrom ↔
        r ∈ (seg (Y j) lb ub).map getFrom ∧ q r = true := by
      intro j hj
      rw [hseg j hj]
      simp only [List.mem_map, List.mem_filter]
      constructor
      · rintro ⟨w, ⟨hw, hq⟩, rfl⟩
        exact ⟨⟨w, hw, rfl⟩, hq⟩
      · rintro ⟨⟨w, hw, rfl⟩, hq⟩
        exact ⟨w, ⟨hw, hq⟩, rfl⟩
    rw [hmem j hj, hmem k hk, h.froms j hj k hk]
  place j hj i h1 h2 := hplace j hj i (hlo.trans h1) (h2.trans_le hhi)

/-- Neither side has to be sorted again. -/
theorem reordered_left (h : SingleSorted D s.Y s.tos c.lb c.ub) (hm : E.m = D.m)
    (hf : b.feature < D.m) (hlb : c.lb < b.yidx) (hub : b.yidx < c.ub) :
    SingleSorted D (E.reordered c s b).Y (E.reordered c s b).tos c.lb b.yidx :=
  h.part (q := fun r => s.tos b.feature r < b.yidx) le_rfl hub.le
    (fun _ hj => (reordered_spec h hm hf hlb hub hj).left)
    fun _ hj => (reordered_spec h hm hf hlb hub hj).placed

theorem reordered_right (h : SingleSorted D s.Y s.tos c.lb c.ub) (hm : E.m = D.m)
    (hf : b.feature < D.m) (hlb : c.lb < b.yidx) (hub : b.yidx < c.ub) :
    SingleSorted D (E.reordered c s b).Y (E.reordered c s b).tos b.yidx c.ub :=
  h.part (q := fun r => !decide (s.tos b.feature r < b.yidx)) hlb.le le_rfl
    (fun _ hj => (reordered_spec h hm hf hlb hub hj).right)
    fun _ hj => (reordered_spec h hm hf hlb hub hj).placed

end SingleSorted

end QStore.Dt
