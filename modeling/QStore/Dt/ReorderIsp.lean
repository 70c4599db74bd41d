import QStore.Dt.Reorder
import QStore.Lib.Gang

/-!
# QStore.Dt.ReorderIsp

`reorder_isp` against `reorder`. A gang reads where the rows of all its lanes go, then writes
those that go left, then those that go right:

```
lane            0  1  2  3          scalar     L0 R1 L2 L3
goes left       1  0  1  1          gang       L0 L2 L3 R1
```

Each row has a place of its own in `tmpY` and in `to`, so the order of the writes does not
matter (`gangIsp_eq`).
-/

namespace QStore.Dt

open Gang

/-! ## the vector version -/

/-- A branch of `reorder_isp`: what it leaves in `tmpYj` and `to_j`, and where it ends. -/
def branchIsp (w : Nat) (mask : Nat → Bool) (YjI fromI tmpYj toJ : Nat → Nat) (idx : Nat) :
    (Nat → Nat) × (Nat → Nat) × Nat :=
  let pos := exclusiveScanAdd mask fun _ => 1
  let toJ := scatter w mask toJ fromI fun lane => idx + pos lane
  let stored := packedStoreActive w mask tmpYj idx YjI
  (stored.1, toJ, idx + stored.2)

/-- The body of the loop of `reorder_isp` for the gang at row `i`. -/
def gangIsp (w : Nat) (Yj : Nat → Nat) (j sj ub yidx : Nat) (r : Reorder) (i : Nat) : Reorder :=
  let YjI lane := Yj (i + lane)
  let fromI lane := getFrom (YjI lane)
  let toI lane := r.tos sj (fromI lane)
  let left := branchIsp w (fun lane => decide (lane < ub - i) && decide (toI lane < yidx))
    YjI fromI r.tmpY (r.tos j) r.lidx
  let right := branchIsp w (fun lane => decide (lane < ub - i) && !decide (toI lane < yidx))
    YjI fromI left.1 left.2.1 r.ridx
  { tmpY := right.1
    tos := Function.update r.tos j right.2.1
    lidx := left.2.2
    ridx := right.2.2 }

/-- `reorder_isp`, with `*ptr_lidx = lb` and `*ptr_ridx = split_yidx`, on gangs of `w` lanes. -/
def reorderIsp (w : Nat) (Yj tmpYj : Nat → Nat) (tos : Nat → Nat → Nat) (j sj lb ub yidx : Nat) :
    Reorder :=
  (gangs w lb ub).foldl (gangIsp w Yj j sj ub yidx) ⟨tmpYj, tos, lb, yidx⟩

/-! ## some rows at once -/

variable {w j sj lb ub yidx i n : Nat} {Yj : Nat → Nat} {r : Reorder} {go : Nat → Bool}

/-- Row `i + lane` goes left. -/
def goesAt (Yj : Nat → Nat) (sj yidx i : Nat) (r : Reorder) (lane : Nat) : Bool :=
  decide (r.tos sj (getFrom (Yj (i + lane))) < yidx)

/-- Where the row of a lane is written. -/
def dest (r : Reorder) (go : Nat → Bool) (lane : Nat) : Nat :=
  if go lane then r.lidx + (active lane go).length
  else r.ridx + (active lane fun lane => !go lane).length

/-- The state when the rows `i`, .., `i + n - 1` have been written. -/
def Reorder.after (r : Reorder) (Yj : Nat → Nat) (j i : Nat) (go : Nat → Bool) (n : Nat) :
    Reorder where
  tmpY := writes r.tmpY ((List.range n).map fun lane => (dest r go lane, Yj (i + lane)))
  tos := Function.update r.tos j
    (writes (r.tos j) ((List.range n).map fun lane => (getFrom (Yj (i + lane)), dest r go lane)))
  lidx := r.lidx + (active n go).length
  ridx := r.ridx + (active n fun lane => !go lane).length

/-- The rows of the lanes are different ones. -/
def Distinct (Yj : Nat → Nat) (i n : Nat) : Prop :=
  ((List.range n).map fun lane => getFrom (Yj (i + lane))).Nodup

theorem Distinct.of_succ (h : Distinct Yj i (n + 1)) : Distinct Yj i n ∧
    getFrom (Yj (i + n)) ∉ (List.range n).map fun lane => getFrom (Yj (i + lane)) := by
  rw [Distinct, List.range_succ, List.map_append, List.map_singleton,
    List.nodup_append] at h
  refine ⟨h.1, ?_⟩
  intro hmem
  exact h.2.2 _ hmem _ List.mem_cons_self rfl

/-- A row that has not been visited is where it was. -/
theorem after_tos (hrow : getFrom (Yj (i + n)) ∉
    (List.range n).map fun lane => getFrom (Yj (i + lane))) :
    (r.after Yj j i go n).tos sj (getFrom (Yj (i + n))) = r.tos sj (getFrom (Yj (i + n))) := by
  by_cases h : sj = j
  · subst h
    simp only [Reorder.after, Function.update_self]
    apply writes_of_not_mem
    rw [List.map_map]
    exact hrow
  · simp only [Reorder.after, Function.update_of_ne h]

/-- **The rows one after the other.** -/
theorem foldl_reorderStep (j sj yidx : Nat) (r : Reorder) (hnd : Distinct Yj i n) :
    (List.range' i n).foldl (reorderStep Yj j sj yidx) r =
      r.after Yj j i (goesAt Yj sj yidx i r) n := by
  induction n with
  | zero => simp [Reorder.after, active]
  | succ n ih =>
      obtain ⟨hfirst, hrow⟩ := hnd.of_succ
      rw [List.range'_concat, List.foldl_append, Nat.one_mul, ih hfirst, List.foldl_cons,
        List.foldl_nil, reorderStep]
      simp only [after_tos hrow]
      by_cases hgo : r.tos sj (getFrom (Yj (i + n))) < yidx
      · have hleft : goesAt Yj sj yidx i r n = true := decide_eq_true hgo
        simp only [if_pos hgo, Reorder.after, setTo, List.range_succ, List.map_append,
          List.map_singleton, writes_concat, dest, hleft, if_true, active_succ, List.length_append,
          List.length_singleton, Function.update_idem, Function.update_self, Bool.not_true,
          Bool.false_eq_true, if_false, List.length_nil, Nat.add_zero, Nat.add_assoc]
      · have hright : goesAt Yj sj yidx i r n = false := decide_eq_false hgo
        simp only [if_neg hgo, Reorder.after, setTo, List.range_succ, List.map_append,
          List.map_singleton, writes_concat, dest, hright, if_true, active_succ, List.length_append,
          List.length_singleton, Function.update_idem, Function.update_self, Bool.not_false,
          Bool.false_eq_true, if_false, List.length_nil, Nat.add_zero, Nat.add_assoc]

/-! ## a gang -/

/-- A branch numbers its lanes from `idx` on. -/
theorem branchIsp_eq {m idx : Nat} {YjI fromI tmpYj toJ : Nat → Nat} :
    branchIsp w (fun lane => decide (lane < m) && go lane) YjI fromI tmpYj toJ idx =
      (writes tmpYj ((active (min w m) go).map fun lane =>
          (idx + (active lane go).length, YjI lane)),
        writes toJ ((active (min w m) go).map fun lane =>
          (fromI lane, idx + (active lane go).length)),
        idx + (active (min w m) go).length) := by
  have hscan : ∀ lane ∈ active (min w m) go,
      exclusiveScanAdd (fun lane => decide (lane < m) && go lane) (fun _ => 1) lane =
        (active lane go).length := by
    intro lane hlane
    have hlt := (mem_active.mp hlane).1
    rw [exclusiveScanAdd_one, active_and, Nat.min_eq_left (by omega)]
  rw [branchIsp, packedStoreActive_eq, scatter, scatter, active_and]
  simp only [Prod.mk.injEq, and_true]
  constructor
  · congr 1
    apply List.map_congr_left
    intro lane hlane
    rw [hscan lane hlane]
  · congr 1
    apply List.map_congr_left
    intro lane hlane
    rw [hscan lane hlane]

theorem dest_of_left {lane : Nat} (h : lane ∈ active n go) :
    dest r go lane = r.lidx + (active lane go).length :=
  if_pos (mem_active.mp h).2

theorem dest_of_right {lane : Nat} (h : lane ∈ active n fun lane => !go lane) :
    dest r go lane = r.ridx + (active lane fun lane => !go lane).length := by
  have hgo := (mem_active.mp h).2
  rw [Bool.not_eq_true'] at hgo
  rw [dest, hgo, if_neg Bool.false_ne_true]

/-- No two rows are written to the same place. -/
theorem nodup_dest (hroom : r.lidx + (active n go).length ≤ r.ridx) :
    ((List.range n).map (dest r go)).Nodup := by
  have hne : ∀ k l, k < l → l < n → dest r go k ≠ dest r go l := by
    intro k l hkl hln
    have hk := length_active_mono go (show k ≤ n by omega)
    have hl := length_active_mono go hln.le
    by_cases hgk : go k = true <;> by_cases hgl : go l = true
    · have := length_active_lt hkl hgk
      rw [dest, dest, if_pos hgk, if_pos hgl]
      omega
    · have := length_active_lt (show k < n by omega) hgk
      rw [dest, dest, if_pos hgk, if_neg hgl]
      omega
    · have := length_active_lt hln hgl
      rw [dest, dest, if_neg hgk, if_pos hgl]
      omega
    · have hright : (!go k) = true := by simpa using hgk
      have := @length_active_lt (fun lane => !go lane) k l hkl hright
      rw [dest, dest, if_neg hgk, if_neg hgl]
      omega
  rw [List.nodup_iff_pairwise_ne, List.pairwise_map, List.pairwise_iff_getElem]
  simp only [List.length_range, List.getElem_range]
  exact fun k l _ hl hkl => hne k l hkl hl

/-- Left lanes first, then right ones: the same writes. -/
theorem writes_branches {a : Nat → Nat} {f : Nat → Nat × Nat}
    (hnd : (((List.range n).map f).map Prod.fst).Nodup) :
    writes (writes a ((active n go).map f)) ((active n fun lane => !go lane).map f) =
      writes a ((List.range n).map f) := by
  rw [← writes_append, ← List.map_append]
  have hperm : ((active n go ++ active n fun lane => !go lane).map f).Perm
      ((List.range n).map f) := (List.filter_append_perm go (List.range n)).map f
  exact writes_perm hperm ((hperm.map Prod.fst).nodup_iff.mpr hnd)

/-- **A gang does what its rows do one after the other.** -/
theorem gangIsp_eq (hnd : Distinct Yj i (min w (ub - i)))
    (hroom : r.lidx + (active (min w (ub - i)) (goesAt Yj sj yidx i r)).length ≤ r.ridx) :
    gangIsp w Yj j sj ub yidx r i =
      r.after Yj j i (goesAt Yj sj yidx i r) (min w (ub - i)) := by
  have hgo : ∀ lane, decide (r.tos sj (getFrom (Yj (i + lane))) < yidx) =
      goesAt Yj sj yidx i r lane := fun _ => rfl
  simp only [gangIsp, hgo, branchIsp_eq]
  generalize goesAt Yj sj yidx i r = go at *
  generalize min w (ub - i) = n at *
  -- each branch writes where its lanes are to go
  have hleft : ∀ v : Nat → Nat, (active n go).map (fun lane =>
      (r.lidx + (active lane go).length, v lane)) =
      (active n go).map fun lane => (dest r go lane, v lane) :=
    fun v => List.map_congr_left fun lane hlane => by rw [dest_of_left hlane]
  have hright : ∀ v : Nat → Nat, (active n fun lane => !go lane).map (fun lane =>
      (r.ridx + (active lane fun lane => !go lane).length, v lane)) =
      (active n fun lane => !go lane).map fun lane => (dest r go lane, v lane) :=
    fun v => List.map_congr_left fun lane hlane => by rw [dest_of_right hlane]
  have hleft' : ∀ v : Nat → Nat, (active n go).map (fun lane =>
      (v lane, r.lidx + (active lane go).length)) =
      (active n go).map fun lane => (v lane, dest r go lane) :=
    fun v => List.map_congr_left fun lane hlane => by rw [dest_of_left hlane]
  have hright' : ∀ v : Nat → Nat, (active n fun lane => !go lane).map (fun lane =>
      (v lane, r.ridx + (active lane fun lane => !go lane).length)) =
      (active n fun lane => !go lane).map fun lane => (v lane, dest r go lane) :=
    fun v => List.map_congr_left fun lane hlane => by rw [dest_of_right hlane]
  rw [hleft, hright, hleft', hright', writes_branches, writes_branches]
  · rfl
  · rw [List.map_map]
    exact hnd
  · rw [List.map_map]
    exact nodup_dest hroom

/-! ## the whole loop -/

theorem Distinct.of_seg (hnd : ((seg Yj lb ub).map getFrom).Nodup) (hi : lb ≤ i)
    (hn : i + n ≤ ub) : Distinct Yj i n := by
  rw [Distinct, List.nodup_iff_pairwise_ne, List.pairwise_map, List.pairwise_iff_getElem]
  simp only [List.length_range, List.getElem_range]
  intro k l hk hl hkl heq
  have := seg_inj hnd (i := i + k) (j := i + l) (by omega) (by omega) (by omega) (by omega) heq
  omega

/-- The rows that go left, by lane and by word. -/
theorem length_active_goesAt : (active (ub - lb) (goesAt Yj sj yidx lb r)).length =
    ((seg Yj lb ub).filter (goesLeft (r.tos sj) yidx)).length := by
  rw [active, seg, List.range'_eq_map_range, List.map_map, List.filter_map, List.length_map]
  rfl

/-- **All gangs**, when there is room for the rows that go left. -/
theorem foldl_gangIsp {tmpYj : Nat → Nat} {tos : Nat → Nat → Nat} (hw : 0 < w)
    (hnd : ((seg Yj lb ub).map getFrom).Nodup)
    (hroom : lb + ((seg Yj lb ub).filter (goesLeft (tos sj) yidx)).length ≤ yidx) :
    reorderIsp w Yj tmpYj tos j sj lb ub yidx =
      (List.range' lb (ub - lb)).foldl (reorderStep Yj j sj yidx) ⟨tmpYj, tos, lb, yidx⟩ := by
  have hrun : ∀ g, (g - 1) * w < ub - lb ∨ g = 0 →
      ((List.range g).map fun g => lb + g * w).foldl (gangIsp w Yj j sj ub yidx)
          ⟨tmpYj, tos, lb, yidx⟩ =
        (List.range' lb (min (g * w) (ub - lb))).foldl (reorderStep Yj j sj yidx)
          ⟨tmpYj, tos, lb, yidx⟩ := by
    intro g hg
    induction g with
    | zero => simp
    | succ g ih =>
        have hlt : g * w < ub - lb := by simpa using hg
        have hbefore : (g - 1) * w < ub - lb ∨ g = 0 :=
          .inl ((Nat.mul_le_mul_right w (Nat.sub_le g 1)).trans_lt hlt)
        have hmin : min ((g + 1) * w) (ub - lb) = g * w + min w (ub - (lb + g * w)) := by
          rw [Nat.succ_mul]
          omega
        have hle : lb + g * w + min w (ub - (lb + g * w)) ≤ ub := by omega
        rw [List.range_succ, List.map_append, List.foldl_append, ih hbefore, Nat.min_eq_left hlt.le,
          hmin, ← List.range'_append_1, List.foldl_append, List.map_singleton, List.foldl_cons,
          List.foldl_nil]
        generalize hr : (List.range' lb (g * w)).foldl (reorderStep Yj j sj yidx)
          ⟨tmpYj, tos, lb, yidx⟩ = r
        have hrows := foldl_reorderStep j sj yidx r
          (Distinct.of_seg hnd (Nat.le_add_right lb (g * w)) hle)
        have hstart := foldl_reorderStep j sj yidx ⟨tmpYj, tos, lb, yidx⟩
          (Distinct.of_seg hnd (le_refl lb) (show lb + g * w ≤ ub by omega))
        have hthrough := foldl_reorderStep j sj yidx ⟨tmpYj, tos, lb, yidx⟩
          (Distinct.of_seg hnd (le_refl lb) (show lb + (g * w + min w (ub - (lb + g * w))) ≤ ub by
            omega))
        rw [← List.range'_append_1, List.foldl_append, hr, hrows] at hthrough
        rw [hr] at hstart
        -- what goes left in this gang is part of what goes left at all
        have hlidx := congrArg Reorder.lidx hthrough
        have hridx := congrArg Reorder.ridx hstart
        simp only [Reorder.after] at hlidx hridx
        have hall := length_active_mono
          (goesAt Yj sj yidx lb ⟨tmpYj, tos, lb, yidx⟩)
          (show g * w + min w (ub - (lb + g * w)) ≤ ub - lb by omega)
        rw [length_active_goesAt] at hall
        rw [hrows]
        apply gangIsp_eq
        · exact Distinct.of_seg hnd (Nat.le_add_right lb (g * w)) hle
        · simp only at hall
          omega
  obtain ⟨hall, hlast⟩ := gangs_enough hw (ub - lb)
  have hgangs := hrun _ hlast
  rw [Nat.min_eq_right hall] at hgangs
  exact hgangs

/-! ## both versions -/

section Agree

variable {V : Type} [LinearOrder V]

/-- What the re-ordering of feature `j` is called with, on gangs of `w` lanes. `sj` may be `j`:
then `to_j` and `to_split_j` are one array. -/
structure Reordering (D : DataSet V) where
  Y : Nat → Nat → Nat
  tos : Nat → Nat → Nat
  tmpYj : Nat → Nat
  j : Nat
  sj : Nat
  lb : Nat
  ub : Nat
  yidx : Nat
  w : Nat
  w_pos : 0 < w
  j_lt : j < D.m
  sj_lt : sj < D.m
  lb_lt : lb < ub
  ub_le : ub ≤ D.n
  lb_le : lb ≤ yidx
  yidx_le : yidx ≤ ub
  sorted : SingleSorted D Y tos lb ub

namespace Reordering

variable {D : DataSet V} (a : Reordering D)

def scalar : Reorder := reorder (a.Y a.j) a.tmpYj a.tos a.j a.sj a.lb a.ub a.yidx

def vector : Reorder := reorderIsp a.w (a.Y a.j) a.tmpYj a.tos a.j a.sj a.lb a.ub a.yidx

/-- The vector version does what the loop of the scalar one does. -/
theorem vector_eq : a.vector = (List.range' a.lb (a.ub - a.lb)).foldl
    (reorderStep (a.Y a.j) a.j a.sj a.yidx) ⟨a.tmpYj, a.tos, a.lb, a.yidx⟩ :=
  foldl_gangIsp a.w_pos (a.sorted.column a.j a.j_lt).distinct
    (a.sorted.count_left a.j_lt a.sj_lt a.lb_le a.yidx_le).le

/-- Every row moves one of the cursors. -/
theorem vector_moves : a.vector.lidx + a.vector.ridx = a.lb + a.yidx + (a.ub - a.lb) := by
  have hle := a.lb_lt.le
  rw [vector_eq, foldl_reorderStep _ _ _ _ (Distinct.of_seg (a.sorted.column a.j a.j_lt).distinct
    (le_refl _) (by omega))]
  simp only [Reorder.after]
  have := length_active_add (goesAt (a.Y a.j) a.sj a.yidx a.lb ⟨a.tmpYj, a.tos, a.lb, a.yidx⟩)
    (a.ub - a.lb)
  omega

/-- **When the two versions agree**: always, but for the test that the scalar version makes
before its loop. -/
theorem vector_eq_scalar_iff :
    a.vector = a.scalar ↔ a.Y a.j a.lb ≠ a.Y a.j (a.ub - 1) := by
  have hscalar : a.scalar = if a.Y a.j a.lb = a.Y a.j (a.ub - 1) then
      ⟨a.tmpYj, a.tos, a.lb, a.yidx⟩ else a.vector := by
    rw [vector_eq]
    rfl
  constructor
  · intro h hends
    have hlt := a.lb_lt
    have hmoves := a.vector_moves
    rw [h, hscalar, if_pos hends] at hmoves
    simp only at hmoves
    omega
  · intro h
    rw [hscalar, if_neg h]

end Reordering

theorem six_pos : 0 < 6 := by decide

/-- Two features of six rows. -/
def sixRowsOfTwo : DataSet Nat where
  n := 6
  m := 2
  X j i := ([[30, 60, 20, 10, 50, 40], [1, 1, 2, 2, 3, 3]].getD j []).getD i 0
  g i := [0, 1, 0, 1, 1, 0].getD i 0
  n_pos := six_pos
  n_lt := by norm_num
  m_pos := Nat.two_pos
  g_le := by decide
  values_lt _ _ := Finset.card_image_le.trans_lt (by simp)

/-- Their words, each feature in the order of its values. -/
def sixWords (j i : Nat) : Nat :=
  ([[mkCompVal 3 1 0, mkCompVal 2 0 1, mkCompVal 0 0 2, mkCompVal 5 0 3, mkCompVal 4 1 4,
      mkCompVal 1 1 5],
    [mkCompVal 0 0 0, mkCompVal 1 1 0, mkCompVal 2 0 1, mkCompVal 3 1 1, mkCompVal 4 1 2,
      mkCompVal 5 0 2]].getD j []).getD i 0

/-- Where the rows are among them. -/
def sixTos (j r : Nat) : Nat := ([[2, 5, 1, 0, 4, 3], [0, 1, 2, 3, 4, 5]].getD j []).getD r 0

theorem sixRows_sorted : SingleSorted sixRowsOfTwo sixWords sixTos 0 6 where
  column := by
    have hrows : ∀ j < 2, ∀ w ∈ seg (sixWords j) 0 6,
        getFrom w < 6 ∧ getGoal w = sixRowsOfTwo.g (getFrom w) := by decide +kernel
    have hcoding : ∀ j < 2, ∀ w ∈ seg (sixWords j) 0 6, ∀ u ∈ seg (sixWords j) 0 6,
        (getYval w ≤ getYval u ↔ sixRowsOfTwo.X j (getFrom w) ≤ sixRowsOfTwo.X j (getFrom u)) := by
      decide +kernel
    have hsorted : ∀ j < 2, (seg (sixWords j) 0 6).Pairwise fun w u => getYval w ≤ getYval u := by
      decide +kernel
    have hdistinct : ∀ j < 2, ((seg (sixWords j) 0 6).map getFrom).Nodup := by decide +kernel
    exact fun j hj => ⟨⟨fun w hw => (hrows j hj w hw).1, fun w hw => (hrows j hj w hw).2,
      hcoding j hj⟩, hsorted j hj, hdistinct j hj⟩
  froms j hj k hk r := by
    have hperm : ∀ j < 2, ∀ k < 2,
        ((seg (sixWords j) 0 6).map getFrom).Perm ((seg (sixWords k) 0 6).map getFrom) := by
      decide +kernel
    exact (hperm j hj k hk).mem_iff
  place j hj i _ hi := by
    have hplace : ∀ j < 2, ∀ i < 6, sixTos j (getFrom (sixWords j i)) = i := by decide +kernel
    exact hplace j hj i hi

/-- The first feature, on gangs of four lanes, behind a split of feature `sj` in the middle. -/
def splitSix (sj : Nat) (hsj : sj < 2) : Reordering sixRowsOfTwo where
  Y := sixWords
  tos := sixTos
  tmpYj _ := 0
  j := 0
  sj := sj
  lb := 0
  ub := 6
  yidx := 3
  w := 4
  w_pos := Nat.succ_pos 3
  j_lt := Nat.two_pos
  sj_lt := hsj
  lb_lt := six_pos
  ub_le := le_refl 6
  lb_le := Nat.zero_le 3
  yidx_le := Nat.le_add_right 3 3
  sorted := sixRows_sorted

/-- Six rows go left and right in two gangs, as they do one by one, also where `to_j` and
`to_split_j` are one array. -/
theorem splitSix_agree : (splitSix 1 (by decide)).vector = (splitSix 1 (by decide)).scalar ∧
    (splitSix 1 (by decide)).vector.lidx = 3 ∧
      (splitSix 0 (by decide)).vector = (splitSix 0 (by decide)).scalar :=
  ⟨(Reordering.vector_eq_scalar_iff _).mpr (by decide +kernel), by decide +kernel,
    (Reordering.vector_eq_scalar_iff _).mpr (by decide +kernel)⟩

/-- One feature of one row. -/
def oneRow : DataSet Nat where
  n := 1
  m := 1
  X _ _ := 0
  g _ := 0
  n_pos := Nat.zero_lt_one
  n_lt := by norm_num
  m_pos := Nat.zero_lt_one
  g_le _ _ := Nat.zero_le 1
  values_lt := by simp

theorem oneRow_sorted :
    SingleSorted oneRow (fun _ _ => mkCompVal 0 0 1) (fun _ _ => 0) 0 1 := by
  constructor
  · intro j hj
    constructor
    · constructor <;> simp [seg, mkCompVal, getFrom, getGoal, oneRow]
    · simp [seg]
    · simp [seg]
  · exact fun _ _ _ _ _ => Iff.rfl
  · intro j hj i h1 h2
    omega

/-- That row, with a gang of four lanes. -/
def oneRowLeft : Reordering oneRow where
  Y _ _ := mkCompVal 0 0 1
  tos _ _ := 0
  tmpYj _ := 0
  j := 0
  sj := 0
  lb := 0
  ub := 1
  yidx := 1
  w := 4
  w_pos := Nat.succ_pos 3
  j_lt := Nat.zero_lt_one
  sj_lt := Nat.zero_lt_one
  lb_lt := Nat.zero_lt_one
  ub_le := le_refl 1
  lb_le := Nat.zero_le 1
  yidx_le := le_refl 1
  sorted := oneRow_sorted

/-- The scalar version refuses a single row, the vector version counts it. -/
theorem oneRowLeft_differs : oneRowLeft.vector.lidx = 1 ∧ oneRowLeft.scalar.lidx = 0 ∧
    oneRowLeft.vector ≠ oneRowLeft.scalar := by
  have hv : oneRowLeft.vector.lidx = 1 := by decide
  have hs : oneRowLeft.scalar.lidx = 0 := by decide
  refine ⟨hv, hs, ?_⟩
  intro h
  rw [h, hs] at hv
  exact absurd hv Nat.zero_ne_one

end Agree

end QStore.Dt
