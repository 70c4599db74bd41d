import QStore.Dt.Reorder
import QStore.Lib.Preorder
import Mathlib.Data.List.Sort

/-!
# QStore.Dt.SingleSort

One sort is enough. Every call of a run finds its rows in order in every feature,
with the places and the class counts that belong to them (`CallInv`): what a call
does to the data stays inside its own positions and its own rows (`Frame`), and
inside it only partitions.

Whether the left child gets exactly the rows up to the split value is another
matter. `accumulate` compares a value with that of the first row of the current
entry, not with the value before, so when an entry has collected
`min_partition_size` rows a new one may begin in the middle of equal values:
`singleSort_iff`.
-/

namespace QStore.Dt

section Inv

variable {V : Type} [LinearOrder V] (D : DataSet V)

/-- A run on a data set. -/
def Env.of (R : Double) (cfg : Config) : Env := ⟨R, cfg, D.g, D.n, D.m⟩

/-- What a call of `split` finds. -/
structure CallInv (c : Call) (s : St) : Prop where
  sorted : SingleSorted D s.Y s.tos c.lb c.ub
  nT_eq : ∀ j < D.m, c.nT = tails (seg (s.Y j) c.lb c.ub)
  nH_eq : ∀ j < D.m, c.nH = heads (seg (s.Y j) c.lb c.ub)
  lb_lt : c.lb < c.ub
  ub_le : c.ub ≤ D.n

/-- What a call leaves alone: other positions, and the places of other rows. -/
structure Frame (lb ub : Nat) (s s' : St) : Prop where
  keepsY : ∀ j < D.m, ∀ i, ¬ (lb ≤ i ∧ i < ub) → s'.Y j i = s.Y j i
  keepsTo : ∀ j < D.m, ∀ r, r ∉ (seg (s.Y j) lb ub).map getFrom → s'.tos j r = s.tos j r
  /-- Its own rows stay where they are as a whole. -/
  rows : ∀ j < D.m, ∀ r, r ∈ (seg (s'.Y j) lb ub).map getFrom → r ∈ (seg (s.Y j) lb ub).map getFrom

end Inv

@[simp] theorem addLeft_Y {s : St} {p : Nat} {c : Call} {b : Split} :
    (s.addLeft p c b).Y = s.Y := rfl
@[simp] theorem addLeft_tos {s : St} {p : Nat} {c : Call} {b : Split} :
    (s.addLeft p c b).tos = s.tos := rfl
@[simp] theorem addRight_Y {s : St} {p : Nat} {c : Call} {b : Split} :
    (s.addRight p c b).Y = s.Y := rfl
@[simp] theorem addRight_tos {s : St} {p : Nat} {c : Call} {b : Split} :
    (s.addRight p c b).tos = s.tos := rfl

section Step

variable {V : Type} [LinearOrder V] {D : DataSet V} {R : Double} {cfg : Config}
variable {c : Call} {s s' s'' : St} {b : Split} {lb mid ub j k : Nat}

/-- The tests that let a call go on. -/
theorem not_stops {E : Env} (h : E.stops c s = false) :
    s.nTree < E.cfg.maxNodesInTree ∧ c.depth < E.cfg.maxDepth ∧ 0 < c.nH ∧ 0 < c.nT := by
  simp only [Env.stops, Env.full, Bool.or_eq_false_iff, decide_eq_false_iff_not,
    beq_eq_false_iff_ne] at h
  omega

theorem CallInv.counted (h : CallInv D c s) (hpos : 0 < c.nT) (hj : j < D.m) :
    Counted (s.Y j) c.lb c.ub c.nT c.nH where
  nT_eq := h.nT_eq j hj
  nH_eq := h.nH_eq j hj
  nT_pos := hpos
  lt := h.ub_le.trans_lt D.n_lt

theorem finds_eq {E : Env} (hd : E.cfg.isDebug = false) (hs : E.stops c s = false) :
    E.finds c s = search E.R E.cfg s.Y c.lb c.ub c.nT c.nH E.n E.m := by
  simp [Env.finds, hs, hd]

theorem stops_of_finds {E : Env} (h : E.finds c s = some (some b)) : E.stops c s = false := by
  rw [Env.finds] at h
  by_contra hs
  rw [if_pos (by simpa using hs)] at h
  cases h

/-- A split that a call finds is well placed. -/
theorem CallInv.placed (h : CallInv D c s) (hd : cfg.isDebug = false)
    (hf : (Env.of D R cfg).finds c s = some (some b)) : b.Placed cfg s.Y c.lb c.ub D.m := by
  have hs := stops_of_finds hf
  rw [finds_eq hd hs] at hf
  exact search_placed hd (fun j hj => h.counted (not_stops hs).2.2.2 hj) h.lb_lt h.ub_le hf

/-- The class counts depend on the rows only. -/
theorem counts_eq_of_perm {L L' : List Nat} (h : Words D j L) (h' : Words D k L')
    (hp : (L.map getFrom).Perm (L'.map getFrom)) : tails L = tails L' ∧ heads L = heads L' := by
  have hof : ∀ {j : Nat} {L : List Nat}, Words D j L →
      tails L = (L.map getFrom).countP (D.g · = 0) ∧
      heads L = (L.map getFrom).countP (D.g · ≠ 0) := by
    intro j L hw
    rw [List.countP_map, List.countP_map]
    constructor
    · exact List.countP_congr fun w hm => by simp [hw.goal w hm]
    · exact List.countP_congr fun w hm => by simp [hw.goal w hm]
  rw [(hof h).1, (hof h).2, (hof h').1, (hof h').2, hp.countP_eq, hp.countP_eq]
  exact ⟨rfl, rfl⟩

theorem reordered_split_Y {E : Env} : (E.reordered c s b).Y b.feature = s.Y b.feature :=
  (foldl_reorderFeature_other (.inr rfl)).Y

/-- The left child starts with the invariant. -/
theorem CallInv.left (h : CallInv D c s) (hb : b.Placed cfg s.Y c.lb c.ub D.m)
    (hY : s'.Y = ((Env.of D R cfg).reordered c s b).Y)
    (ht : s'.tos = ((Env.of D R cfg).reordered c s b).tos) : CallInv D (c.left b) s' := by
  have hsorted : SingleSorted D s'.Y s'.tos c.lb b.yidx := by
    rw [hY, ht]
    exact reordered_left h.sorted rfl hb.feature_lt hb.lb_lt hb.lt_ub
  have hsplit : s'.Y b.feature = s.Y b.feature := by rw [hY, reordered_split_Y]
  have hcounts : ∀ j < D.m, tails (seg (s'.Y j) c.lb b.yidx) = b.nTL ∧
      heads (seg (s'.Y j) c.lb b.yidx) = b.nHL := by
    intro j hj
    rw [hb.nTL, hb.nHL, ← hsplit]
    exact counts_eq_of_perm (hsorted.column j hj).toWords
      (hsorted.column _ hb.feature_lt).toWords (hsorted.perm hj hb.feature_lt)
  exact ⟨hsorted, fun j hj => (hcounts j hj).1.symm, fun j hj => (hcounts j hj).2.symm, hb.lb_lt,
    hb.lt_ub.le.trans h.ub_le⟩

/-- So does the right child, on the data before the left one is built. -/
theorem CallInv.right (h : CallInv D c s) (hb : b.Placed cfg s.Y c.lb c.ub D.m)
    (hY : s'.Y = ((Env.of D R cfg).reordered c s b).Y)
    (ht : s'.tos = ((Env.of D R cfg).reordered c s b).tos) : CallInv D (c.right b) s' := by
  have hsorted : SingleSorted D s'.Y s'.tos b.yidx c.ub := by
    rw [hY, ht]
    exact reordered_right h.sorted rfl hb.feature_lt hb.lb_lt hb.lt_ub
  have hsplit : s'.Y b.feature = s.Y b.feature := by rw [hY, reordered_split_Y]
  have hcounts : ∀ j < D.m, tails (seg (s'.Y j) b.yidx c.ub) = b.nTR ∧
      heads (seg (s'.Y j) b.yidx c.ub) = b.nHR := by
    intro j hj
    rw [hb.nTR, hb.nHR, ← hsplit]
    exact counts_eq_of_perm (hsorted.column j hj).toWords
      (hsorted.column _ hb.feature_lt).toWords (hsorted.perm hj hb.feature_lt)
  exact ⟨hsorted, fun j hj => (hcounts j hj).1.symm, fun j hj => (hcounts j hj).2.symm, hb.lt_ub,
    h.ub_le⟩

/-! ## frames -/

theorem Frame.refl : Frame D lb ub s s :=
  ⟨fun _ _ _ _ => rfl, fun _ _ _ _ => rfl, fun _ _ _ h => h⟩

/-- Only the data matter for a frame. -/
theorem Frame.congr (h : Frame D lb ub s s') (hY : s''.Y = s.Y) (ht : s''.tos = s.tos) :
    Frame D lb ub s'' s' where
  keepsY j hj i hi := by rw [h.keepsY j hj i hi, hY]
  keepsTo j hj r hr := by rw [h.keepsTo j hj r (by rwa [hY] at hr), ht]
  rows j hj r hr := by rw [hY]; exact h.rows j hj r hr

theorem mem_froms_of_sub {Y : Nat → Nat} {r lo hi : Nat} (hlo : lb ≤ lo) (hhi : hi ≤ ub)
    (h : r ∈ (seg Y lo hi).map getFrom) : r ∈ (seg Y lb ub).map getFrom := by
  obtain ⟨w, hw, rfl⟩ := List.mem_map.mp h
  obtain ⟨i, h1, h2, rfl⟩ := mem_seg.mp hw
  exact List.mem_map_of_mem (mem_seg_of (hlo.trans h1) (h2.trans_le hhi))

/-- A frame of a part is a frame of the whole. -/
theorem Frame.widen {lo hi : Nat} (h : Frame D lo hi s s') (hlo : lb ≤ lo) (hhi : hi ≤ ub) :
    Frame D lb ub s s' where
  keepsY j hj i hi' := h.keepsY j hj i fun hin => hi' ⟨hlo.trans hin.1, hin.2.trans_le hhi⟩
  keepsTo j hj r hr := h.keepsTo j hj r fun hin => hr (mem_froms_of_sub hlo hhi hin)
  rows j hj r hr := by
    obtain ⟨w, hw, rfl⟩ := List.mem_map.mp hr
    obtain ⟨i, h1, h2, rfl⟩ := mem_seg.mp hw
    by_cases hin : lo ≤ i ∧ i < hi
    · exact mem_froms_of_sub hlo hhi (h.rows j hj _ (List.mem_map_of_mem (mem_seg_of hin.1 hin.2)))
    · rw [h.keepsY j hj i hin]
      exact List.mem_map_of_mem (mem_seg_of h1 h2)

theorem Frame.trans (h : Frame D lb ub s s') (h' : Frame D lb ub s' s'') : Frame D lb ub s s'' where
  keepsY j hj i hi := (h'.keepsY j hj i hi).trans (h.keepsY j hj i hi)
  keepsTo j hj r hr :=
    (h'.keepsTo j hj r fun hin => hr (h.rows j hj r hin)).trans (h.keepsTo j hj r hr)
  rows j hj r hr := h.rows j hj r (h'.rows j hj r hr)

/-- A reordering is within its frame. -/
theorem frame_reordered (h : CallInv D c s) (hb : b.Placed cfg s.Y c.lb c.ub D.m) :
    Frame D c.lb c.ub s ((Env.of D R cfg).reordered c s b) := by
  have hpart : ∀ j < D.m, _ := fun j hj => reordered_spec (E := Env.of D R cfg) h.sorted rfl
    hb.feature_lt hb.lb_lt hb.lt_ub hj
  refine ⟨fun j hj => (hpart j hj).keepsY, fun j hj => (hpart j hj).keepsTo, fun j hj r hr => ?_⟩
  rw [← seg_append hb.lb_lt.le hb.lt_ub.le, (hpart j hj).left, (hpart j hj).right] at hr
  exact ((List.filter_append_perm _ _).map getFrom).mem_iff.mp hr

/-- A call on other positions is not disturbed. -/
theorem CallInv.keep {lo hi : Nat} (h : CallInv D c s) (hl : SingleSorted D s.Y s.tos lo hi)
    (hle : hi ≤ c.lb) (hf : Frame D lo hi s s') : CallInv D c s' := by
  have hseg : ∀ j < D.m, seg (s'.Y j) c.lb c.ub = seg (s.Y j) c.lb c.ub := fun j hj =>
    seg_congr fun i h1 _ => hf.keepsY j hj i (by omega)
  refine ⟨⟨fun j hj => ?_, fun j hj k hk r => ?_, fun j hj i h1 h2 => ?_⟩, fun j hj => ?_,
    fun j hj => ?_, h.lb_lt, h.ub_le⟩
  · rw [hseg j hj]
    exact h.sorted.column j hj
  · rw [hseg j hj, hseg k hk]
    exact h.sorted.froms j hj k hk r
  · rw [hf.keepsY j hj i (by omega)]
    have hplace := h.sorted.place j hj i h1 h2
    rw [hf.keepsTo j hj _ fun hin => ?_, hplace]
    -- a row has one place
    obtain ⟨w, hw, hfrom⟩ := List.mem_map.mp hin
    obtain ⟨k, h3, h4, rfl⟩ := mem_seg.mp hw
    have := hl.place j hj k h3 h4
    rw [hfrom, hplace] at this
    omega
  · rw [hseg j hj]
    exact h.nT_eq j hj
  · rw [hseg j hj]
    exact h.nH_eq j hj

/-- What a call that found a split has established before it goes on. -/
structure Parted (D : DataSet V) (cfg : Config) (c : Call) (s : St) (b : Split) (s₁ : St) :
    Prop where
  placed : b.Placed cfg s.Y c.lb c.ub D.m
  frame : Frame D c.lb c.ub s s₁
  left : CallInv D (c.left b) s₁
  right : CallInv D (c.right b) s₁

theorem CallInv.parted (h : CallInv D c s) (hd : cfg.isDebug = false)
    (hf : (Env.of D R cfg).finds c s = some (some b)) :
    Parted D cfg c s b ((Env.of D R cfg).reordered c s b) :=
  have hb := h.placed hd hf
  ⟨hb, frame_reordered h hb, h.left hb rfl rfl, h.right hb rfl rfl⟩

theorem CallInv.congr (h : CallInv D c s) (hY : s'.Y = s.Y) (ht : s'.tos = s.tos) :
    CallInv D c s' := by
  obtain ⟨h1, h2, h3, h4, h5⟩ := h
  exact ⟨by rwa [hY, ht], by rwa [hY], by rwa [hY], h4, h5⟩

theorem CallInv.addLeft {c' : Call} {p : Nat} (h : CallInv D c' s) :
    CallInv D c' (s.addLeft p c b) := h.congr rfl rfl

theorem CallInv.addRight {c' : Call} {p : Nat} (h : CallInv D c' s) :
    CallInv D c' (s.addRight p c b) := h.congr rfl rfl

/-! ## runs -/

variable {room : Nat}

/-- The left side of a call stays in its frame, if the calls below do. -/
theorem afterLeft_frame {s₂ : St}
    (ih : ∀ {c s s'}, CallInv D c s → (Env.of D R cfg).split room c s = some s' →
      Frame D c.lb c.ub s s')
    (hp : Parted D cfg c s b ((Env.of D R cfg).reordered c s b))
    (h : (Env.of D R cfg).afterLeft room c s b = some s₂) :
    Frame D c.lb b.yidx ((Env.of D R cfg).reordered c s b) s₂ := by
  unfold Env.afterLeft at h
  split at h
  · exact (ih hp.left.addLeft h).congr rfl rfl
  · rw [← Option.some.inj h]
    exact Frame.refl

/-- A call changes the data of its own positions and rows only. -/
theorem split_frame (hd : cfg.isDebug = false) (h : CallInv D c s)
    (hrun : (Env.of D R cfg).split room c s = some s') : Frame D c.lb c.ub s s' := by
  induction room generalizing c s s' with
  | zero =>
      rw [← Option.some.inj hrun]
      exact Frame.refl
  | succ room ih =>
    rcases split_succ hrun with ⟨-, rfl⟩ | ⟨b, s₂, hf, hs₂, hend⟩
    · exact Frame.refl
    · have hp := h.parted hd hf
      have hleft := afterLeft_frame ih hp hs₂
      have hmid := hp.frame.trans (hleft.widen le_rfl hp.placed.lt_ub.le)
      rcases hend with ⟨-, rfl⟩ | ⟨-, hright⟩
      · exact hmid
      · have hinv := hp.right.keep hp.left.sorted le_rfl hleft
        have hrest : Frame D b.yidx c.ub s₂ s' := (ih hinv.addRight hright).congr rfl rfl
        exact hmid.trans (hrest.widen hp.placed.lb_lt.le le_rfl)

/-- Where the calls of a run come from. -/
theorem mem_calls {E : Env} {x : Call × St} (h : x ∈ preorder (E.calls (room + 1) c s)) :
    x = (c, s) ∨ ∃ b, E.finds c s = some (some b) ∧
      (x ∈ preorder (E.calls room (c.left b) ((E.reordered c s b).addLeft (s.nTree - 1) c b)) ∨
        ∃ s₂, E.afterLeft room c s b = some s₂ ∧
          x ∈ preorder (E.calls room (c.right b) (s₂.addRight (s.nTree - 1) c b))) := by
  rw [Env.calls] at h
  split at h
  · next b hf =>
      rcases mem_preorder_node.mp h with h | h | h
      · exact .inl h
      · split at h
        · exact .inr ⟨b, hf, .inl h⟩
        · simp at h
      · split at h
        · simp at h
        · next s₂ hs₂ =>
            split at h
            · simp at h
            · exact .inr ⟨b, hf, .inr ⟨s₂, hs₂, h⟩⟩
  · left
    simpa using h

/-- Every call of a run finds the invariant. -/
theorem calls_inv (hd : cfg.isDebug = false) (h : CallInv D c s) :
    ∀ x ∈ preorder ((Env.of D R cfg).calls room c s), CallInv D x.1 x.2 := by
  induction room generalizing c s with
  | zero =>
      intro x hx
      obtain rfl : x = (c, s) := by simpa [Env.calls] using hx
      exact h
  | succ room ih =>
    intro x hx
    rcases mem_calls hx with rfl | ⟨b, hf, hx | ⟨s₂, hs₂, hx⟩⟩
    · exact h
    · exact ih (h.parted hd hf).left.addLeft x hx
    · have hp := h.parted hd hf
      have hleft := afterLeft_frame (fun h => split_frame hd h) hp hs₂
      exact ih (hp.right.keep hp.left.sorted le_rfl hleft).addRight x hx

end Step

/-! ## the split value -/

/-- The left child has the rows whose value in the split feature is at most that of
row `split_yidx - 1`, the right child the others. -/
structure Routed (E : Env) (c : Call) (s : St) (b : Split) : Prop where
  left : ∀ j < E.m, ∀ r, r ∈ (seg ((E.reordered c s b).Y j) c.lb b.yidx).map getFrom ↔
    ∃ w ∈ seg (s.Y b.feature) c.lb c.ub, getFrom w = r ∧
      getYval w ≤ getYval (s.Y b.feature (b.yidx - 1))
  right : ∀ j < E.m, ∀ r, r ∈ (seg ((E.reordered c s b).Y j) b.yidx c.ub).map getFrom ↔
    ∃ w ∈ seg (s.Y b.feature) c.lb c.ub, getFrom w = r ∧
      ¬ getYval w ≤ getYval (s.Y b.feature (b.yidx - 1))

/-- The call finds a split between two rows of the same value. -/
def TieCut (E : Env) (c : Call) (s : St) : Prop :=
  ∃ b, E.finds c s = some (some b) ∧
    getYval (s.Y b.feature (b.yidx - 1)) = getYval (s.Y b.feature b.yidx)

section Routed

variable {V : Type} [LinearOrder V] {D : DataSet V} {R : Double} {cfg : Config}
variable {c : Call} {s : St} {b : Split} {i j lb ub : Nat}

theorem Column.yval_le {Y : Nat → Nat} (h : Column D j (seg Y lb ub)) {k : Nat} (h1 : lb ≤ i)
    (h2 : i ≤ k) (h3 : k < ub) : getYval (Y i) ≤ getYval (Y k) := by
  rcases h2.lt_or_eq with hlt | rfl
  · exact pairwise_seg.mp h.sorted i k h1 hlt h3
  · exact le_rfl

/-- The rows of a part of the split feature, by its positions. -/
theorem mem_froms {Y : Nat → Nat} {r lo hi : Nat} :
    r ∈ (seg Y lo hi).map getFrom ↔ ∃ i, lo ≤ i ∧ i < hi ∧ getFrom (Y i) = r := by
  simp only [List.mem_map, mem_seg]
  constructor
  · rintro ⟨w, ⟨i, h1, h2, rfl⟩, hr⟩
    exact ⟨i, h1, h2, hr⟩
  · rintro ⟨i, h1, h2, hr⟩
    exact ⟨Y i, ⟨i, h1, h2, rfl⟩, hr⟩

/-- Away from equal values, the rows up to the split are those up to its value. -/
theorem yval_le_iff (h : Column D j (seg (s.Y b.feature) c.lb c.ub))
    (hb : b.Placed cfg s.Y c.lb c.ub D.m)
    (hne : getYval (s.Y b.feature (b.yidx - 1)) ≠ getYval (s.Y b.feature b.yidx))
    (h1 : c.lb ≤ i) (h2 : i < c.ub) :
    getYval (s.Y b.feature i) ≤ getYval (s.Y b.feature (b.yidx - 1)) ↔ i < b.yidx := by
  have hlb := hb.lb_lt
  have hub := hb.lt_ub
  have hstep := h.yval_le (i := b.yidx - 1) (k := b.yidx) (by omega) (by omega) hub
  constructor
  · intro hle
    by_contra hge
    have := h.yval_le hlb.le (not_lt.mp hge) h2
    omega
  · exact fun hlt => h.yval_le h1 (by omega) (by omega)

/-- A split sends the rows where it should unless it parts equal values. -/
theorem routed_iff (h : CallInv D c s) (hd : cfg.isDebug = false)
    (hf : (Env.of D R cfg).finds c s = some (some b)) :
    Routed (Env.of D R cfg) c s b ↔
      getYval (s.Y b.feature (b.yidx - 1)) ≠ getYval (s.Y b.feature b.yidx) := by
  have hp := h.parted hd hf
  have hb := hp.placed
  have hlb := hb.lb_lt
  have hub := hb.lt_ub
  have hcol := h.sorted.column _ hb.feature_lt
  constructor
  · intro hr htie
    -- the first row on the right has the value of the last one on the left
    have hrow := (hr.left _ hb.feature_lt (getFrom (s.Y b.feature b.yidx))).mpr
      ⟨_, mem_seg_of hlb.le hub, rfl, htie.ge⟩
    rw [reordered_split_Y, mem_froms] at hrow
    obtain ⟨i, h1, h2, he⟩ := hrow
    have := seg_inj hcol.distinct h1 (h2.trans hub) hlb.le hub he
    omega
  · intro hne
    have hmem : ∀ lo hi, c.lb ≤ lo → hi ≤ c.ub →
        SingleSorted D ((Env.of D R cfg).reordered c s b).Y
          ((Env.of D R cfg).reordered c s b).tos lo hi → ∀ j < D.m, ∀ r,
        (r ∈ (seg (((Env.of D R cfg).reordered c s b).Y j) lo hi).map getFrom ↔
          ∃ i, lo ≤ i ∧ i < hi ∧ getFrom (s.Y b.feature i) = r) := by
      intro lo hi _ _ hs j hj r
      rw [hs.froms j hj _ hb.feature_lt, reordered_split_Y, mem_froms]
    refine ⟨fun j hj r => ?_, fun j hj r => ?_⟩
    · rw [hmem _ _ le_rfl hub.le hp.left.sorted j hj]
      constructor
      · rintro ⟨i, h1, h2, rfl⟩
        exact ⟨_, mem_seg_of h1 (h2.trans hub), rfl,
          (yval_le_iff hcol hb hne h1 (h2.trans hub)).mpr h2⟩
      · rintro ⟨w, hw, rfl, hle⟩
        obtain ⟨i, h1, h2, rfl⟩ := mem_seg.mp hw
        exact ⟨i, h1, (yval_le_iff hcol hb hne h1 h2).mp hle, rfl⟩
    · rw [hmem _ _ hlb.le le_rfl hp.right.sorted j hj]
      constructor
      · rintro ⟨i, h1, h2, rfl⟩
        refine ⟨_, mem_seg_of (hlb.le.trans h1) h2, rfl, fun hle => ?_⟩
        have := (yval_le_iff hcol hb hne (hlb.le.trans h1) h2).mp hle
        omega
      · rintro ⟨w, hw, rfl, hle⟩
        obtain ⟨i, h1, h2, rfl⟩ := mem_seg.mp hw
        refine ⟨i, ?_, h2, rfl⟩
        by_contra hlt
        exact hle ((yval_le_iff hcol hb hne h1 h2).mpr (not_le.mp hlt))

end Routed

/-! ## whole runs -/

section Run

variable {V : Type} [LinearOrder V]

/-- The data are prepared, and every call of the run finds them as it needs them and
sends each row to the right side. -/
def SingleSortRun (D : DataSet V) (qs : Qsort V) (R : Double) (cfg : Config)
    (junk tmpY : Nat → Nat → Nat) : Prop :=
  ∃ p, preproc D qs cfg junk = some p ∧ SingleSorted D p.Y p.tos 0 D.n ∧
    ∀ root, (Env.of D R cfg).root p tmpY = some root →
      ∀ x ∈ preorder ((Env.of D R cfg).calls cfg.maxDepth root.1 root.2),
        SingleSorted D x.2.Y x.2.tos x.1.lb x.1.ub ∧
          ∀ b, (Env.of D R cfg).finds x.1 x.2 = some (some b) → Routed (Env.of D R cfg) x.1 x.2 b

variable {D : DataSet V} {qs : Qsort V} {R : Double} {cfg : Config}
variable {junk tmpY : Nat → Nat → Nat}

/-- The first call. -/
theorem root_inv (hd : cfg.isDebug = false) {p : Prepared} {root : Call × St}
    (hp : preproc D qs cfg junk = some p) (hr : (Env.of D R cfg).root p tmpY = some root) :
    CallInv D root.1 root.2 := by
  obtain ⟨p', hp', hsorted, -, hsum, hheads⟩ := preproc_spec D qs hd junk
  obtain rfl := Option.some.inj (hp'.symm.trans hp)
  rw [Env.root] at hr
  split at hr
  · cases hr
  · obtain rfl := Option.some.inj hr
    refine ⟨hsorted, fun j hj => ?_, hheads, D.n_pos, le_rfl⟩
    have hlen := tails_add_heads (L := seg (p'.Y j) 0 D.n)
    rw [length_seg, ← hheads j hj] at hlen
    show p'.nT = tails (seg (p'.Y j) 0 D.n)
    omega

/-- A run that is as it should be parts no equal values. -/
theorem SingleSortRun.no_tieCut (h : SingleSortRun D qs R cfg junk tmpY) {p : Prepared}
    {root : Call × St} (hp : preproc D qs cfg junk = some p)
    (hroot : (Env.of D R cfg).root p tmpY = some root) :
    cfg.isDebug = false ∧
      ∀ x ∈ preorder ((Env.of D R cfg).calls cfg.maxDepth root.1 root.2),
        ¬ TieCut (Env.of D R cfg) x.1 x.2 := by
  obtain ⟨p', hp', -, hrun⟩ := h
  obtain rfl := Option.some.inj (hp'.symm.trans hp)
  have hd := isDebug_of_preproc hp
  refine ⟨hd, fun x hx ⟨b, hf, htie⟩ => ?_⟩
  have hinv := calls_inv hd (root_inv hd hp hroot) x hx
  exact (routed_iff hinv hd hf).mp ((hrun root hroot x hx).2 b hf) htie

/-- The data are always as they should be; the rows are, unless equal values are
parted. -/
theorem singleSort_iff (D : DataSet V) (qs : Qsort V) (R : Double) (cfg : Config)
    (junk tmpY : Nat → Nat → Nat) :
    SingleSortRun D qs R cfg junk tmpY ↔
      cfg.isDebug = false ∧ ∀ p root, preproc D qs cfg junk = some p →
        (Env.of D R cfg).root p tmpY = some root →
        ∀ x ∈ preorder ((Env.of D R cfg).calls cfg.maxDepth root.1 root.2),
          ¬ TieCut (Env.of D R cfg) x.1 x.2 := by
  constructor
  · intro h
    have hd : cfg.isDebug = false := by
      obtain ⟨p, hp, -⟩ := h
      exact isDebug_of_preproc hp
    exact ⟨hd, fun p root hp hroot => (h.no_tieCut hp hroot).2⟩
  · rintro ⟨hd, hno⟩
    obtain ⟨p, hp, hsorted, -⟩ := preproc_spec D qs hd junk
    refine ⟨p, hp, hsorted, fun root hroot x hx => ?_⟩
    have hinv := calls_inv hd (root_inv hd hp hroot) x hx
    exact ⟨hinv.sorted, fun b hf =>
      (routed_iff hinv hd hf).mpr fun htie => hno p root hp hroot x hx ⟨b, hf, htie⟩⟩

/-! ## four rows -/

/-- A sort that `qsort` may be. -/
def Qsort.insertion (V : Type) [LinearOrder V] : Qsort V where
  sort C := C.insertionSort fun a b => a.xval ≤ b.xval
  perm C := List.perm_insertionSort _ C
  sorted C :=
    haveI : Std.Total fun a b : CompKey V => a.xval ≤ b.xval := ⟨fun _ _ => le_total _ _⟩
    haveI : IsTrans (CompKey V) fun a b => a.xval ≤ b.xval := ⟨fun _ _ _ => le_trans⟩
    List.pairwise_insertionSort _ C

/-- The values 1, 2, 2, 2. -/
def tieData : DataSet Nat where
  n := 4
  m := 1
  X _ i := if i = 0 then 1 else 2
  g i := i % 2
  n_pos := by decide
  n_lt := by decide
  m_pos := by decide
  g_le := by decide
  values_lt := by decide

def tieConfig : Config :=
  { isDebug := false, maxDepth := 1, minLeafSize := 1, metricsBufferSize := 8,
    minPartitionSize := 2, maxNodesInTree := 8 }

/-- With partitions of two rows at least, one row with the value 2 goes left and two
go right. -/
theorem singleSort_fails :
    ¬ SingleSortRun tieData (Qsort.insertion Nat) (Rounding.exact 53) tieConfig
      (fun _ _ => 0) (fun _ _ => 0) := by
  intro h
  set E := Env.of tieData (Rounding.exact 53) tieConfig with hE
  have hrun : ((preproc tieData (Qsort.insertion Nat) tieConfig fun _ _ => 0).bind fun p =>
      (E.root p fun _ _ => 0).bind fun root => (E.finds root.1 root.2).bind fun found =>
        found.map fun b =>
          (getYval (root.2.Y b.feature (b.yidx - 1)), getYval (root.2.Y b.feature b.yidx))) =
      some (2, 2) := by decide +kernel
  simp only [Option.bind_eq_some_iff, Option.map_eq_some_iff, Prod.mk.injEq] at hrun
  obtain ⟨p, hp, root, hroot, found, hf, b, rfl, h1, h2⟩ := hrun
  refine (h.no_tieCut hp hroot).2 root ?_ ⟨b, hf, h1.trans h2.symm⟩
  rw [show tieConfig.maxDepth = 0 + 1 from rfl, Env.calls, hf]
  simp

end Run

end QStore.Dt
