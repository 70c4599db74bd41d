import QStore.Operators.JoinEdges
import Mathlib.Order.Bounds.Basic

/-!
# QStore.Operators.JoinGather

What the kernels that move in the source (`join_cnt.tmpl`, `join_sum.tmpl`,
`join_min.tmpl`, `join_max.tmpl`) put at an entry of the destination: the number,
the sum, the least or the greatest of all values of its link.

A match moves them past the row (`TODO P1 THINK!!!!`). The first entry with a link
takes all its rows, and a second one finds none.
-/

namespace QStore.Operators

variable {κ β σ : Type} [LinearOrder κ]

/-! ## what an entry should be -/

section Spec

variable [LinearOrder β] [Zero σ]

/-- The join types that gather all the rows of a link. -/
def JoinType.gathers : JoinType → Bool
  | .cnt | .sum | .min | .max => true
  | .val | .is => false

/-- An entry for the values `vs` of its link. The count needs no mark. -/
def JoinType.Holds (add : σ → β → σ) (vs : List β) : (t : JoinType) → t.Entry β σ → Prop
  | .cnt, c => c = vs.length
  | .sum, c => c.1 = vs.foldl add 0 ∧ (c.2 = true ↔ vs ≠ [])
  | .min, c => (vs ≠ [] → IsLeast {v | v ∈ vs} c.1) ∧ (c.2 = true ↔ vs ≠ [])
  | .max, c => (vs ≠ [] → IsGreatest {v | v ∈ vs} c.1) ∧ (c.2 = true ↔ vs ≠ [])
  | .val, c => (vs ≠ [] → vs.head? = some c.1) ∧ (c.2 = true ↔ vs ≠ [])
  | .is, c => c = true ↔ vs ≠ []

variable [Zero β]

/-- The call of a kernel on the whole of the vectors, with zeroed buffers. -/
def joinOnce (a : JoinInput κ β) (add : σ → β → σ) (t : JoinType) : Option (Joined (t.Entry β σ)) :=
  joinKernel (t.kernel add) a.rows 0 a.dstLnk.elems
    (List.replicate a.dstLnk.elems.length (t.kernel add).zero) 0

/-- Each entry is what the values of its link make, and equal links get equal
entries. -/
structure Gathered (a : JoinInput κ β) (add : σ → β → σ) (t : JoinType) : Prop where
  holds : ∀ (d : Nat) (l : κ), a.dstLnk.elems[d]? = some l → ∃ (r : Joined (t.Entry β σ)) (c : t.Entry β σ),
    joinOnce a add t = some r ∧ r.dstVal[d]? = some c ∧ t.Holds add (valuesAt l a.rows) c
  equal : ∀ (d d' : Nat) (l : κ), a.dstLnk.elems[d]? = some l → a.dstLnk.elems[d']? = some l →
    ∃ r : Joined (t.Entry β σ), joinOnce a add t = some r ∧ r.dstVal[d]? = r.dstVal[d']?

end Spec

/-! ## links that occur twice -/

section Twice

variable {a : JoinInput κ β} {d : Nat} {l : κ}

/-- No link of the source occurs twice in the destination. -/
def JoinInput.OneEach (a : JoinInput κ β) : Prop :=
  ∀ l ∈ a.srcLnk.elems, a.dstLnk.elems.count l ≤ 1

theorem valuesAt_rows_eq_nil : valuesAt l a.rows = [] ↔ l ∉ a.srcLnk.elems := by
  rw [valuesAt_eq_nil_iff_notMem, a.rows_fst]

theorem one_lt_count_of_mem_take {xs : List κ} (hl : xs[d]? = some l) (hmem : l ∈ xs.take d) :
    1 < xs.count l := by
  have htake : 0 < (xs.take d).count l := List.count_pos_iff.mpr hmem
  have hdrop : 0 < (xs.drop d).count l :=
    List.count_pos_iff.mpr (by rw [drop_of_getElem? hl]; exact List.mem_cons_self)
  rw [← List.take_append_drop d xs, List.count_append]
  omega

theorem JoinInput.OneEach.notMem_take (h : a.OneEach) (hsrc : l ∈ a.srcLnk.elems)
    (hl : a.dstLnk.elems[d]? = some l) : l ∉ a.dstLnk.elems.take d := fun hmem =>
  absurd (h l hsrc) (Nat.not_le_of_lt (one_lt_count_of_mem_take hl hmem))

/-- A link that occurs twice has an entry that others come before. -/
theorem exists_mem_take_of_count {xs : List κ} (h : 1 < xs.count l) :
    ∃ d, xs[d]? = some l ∧ l ∈ xs.take d := by
  obtain ⟨i, hi, -⟩ := exists_first_of_mem (List.count_pos_iff.mp (Nat.lt_of_succ_lt h))
  have hlt := (List.getElem?_eq_some_iff.mp hi).1
  by_cases hmem : l ∈ xs.take i
  · exact ⟨i, hi, hmem⟩
  · have hdrop : l ∈ xs.drop (i + 1) := by
      rw [← List.take_append_drop i xs, List.count_append, List.count_eq_zero.mpr hmem,
        drop_of_getElem? hi, List.count_cons_self] at h
      exact List.count_pos_iff.mp (by omega)
    obtain ⟨j, hj⟩ := List.mem_iff_getElem?.mp hdrop
    rw [List.getElem?_drop] at hj
    refine ⟨i + 1 + j, hj, List.mem_iff_getElem?.mpr ⟨i, ?_⟩⟩
    rw [List.getElem?_take_of_lt (by omega), hi]

end Twice

/-! ## what the values of a link make -/

section Fold

theorem foldl_joinSum [Zero σ] (add : σ → β → σ) (vs : List β) (c : σ × Bool) :
    vs.foldl (joinSum add).hit c = (vs.foldl add c.1, c.2 || !vs.isEmpty) := by
  induction vs generalizing c with
  | nil => simp
  | cons v vs ih =>
      rw [List.foldl_cons, ih]
      simp [joinSum]

/-- Of a first value and those after it, a kernel that keeps the better one has
kept the best. -/
theorem foldl_best (better : β → β → Prop) [DecidableRel better]
    (htrans : ∀ x y z, ¬ better y x → ¬ better z y → ¬ better z x)
    (hasymm : ∀ x y, better x y → ¬ better y x) (v : β) (vs : List β) :
    ∃ w, vs.foldl (fun c u => if c.2 = false then (u, true) else if better u c.1 then (u, c.2) else c)
      (v, true) = (w, true) ∧ w ∈ v :: vs ∧ ∀ u ∈ v :: vs, ¬ better u w := by
  induction vs generalizing v with
  | nil =>
      refine ⟨v, rfl, List.mem_cons_self, fun u hu => ?_⟩
      rw [List.mem_singleton.mp hu]
      exact fun h => hasymm v v h h
  | cons x vs ih =>
      rw [List.foldl_cons, if_neg (by simp)]
      by_cases hx : better x v
      · obtain ⟨w, hw, hmem, hbest⟩ := ih x
        rw [if_pos hx]
        refine ⟨w, hw, List.mem_cons_of_mem v hmem, List.forall_mem_cons.mpr ⟨?_, hbest⟩⟩
        exact htrans w x v (hbest x List.mem_cons_self) (hasymm x v hx)
      · obtain ⟨w, hw, hmem, hbest⟩ := ih v
        rw [if_neg hx]
        rw [List.forall_mem_cons] at hbest
        refine ⟨w, hw, ?_, ?_⟩
        · rcases List.mem_cons.mp hmem with h | h
          · exact List.mem_cons.mpr (.inl h)
          · exact List.mem_cons_of_mem v (List.mem_cons_of_mem x h)
        · refine List.forall_mem_cons.mpr ⟨hbest.1, List.forall_mem_cons.mpr ⟨?_, hbest.2⟩⟩
          exact htrans w v x hbest.1 hx

variable [LinearOrder β] [Zero β]

theorem foldl_joinMin (vs : List β) :
    (vs ≠ [] → IsLeast {v | v ∈ vs} (vs.foldl joinMin.hit joinMin.zero).1) ∧
      ((vs.foldl joinMin.hit joinMin.zero).2 = true ↔ vs ≠ []) := by
  cases vs with
  | nil => simp [joinMin, List.foldl_nil]
  | cons v vs =>
      obtain ⟨w, hw, hmem, hbest⟩ := foldl_best (fun x y : β => x < y)
        (fun x y z hyx hzy => not_lt.mpr ((not_lt.mp hyx).trans (not_lt.mp hzy)))
        (fun x y h => not_lt.mpr (le_of_lt h)) v vs
      have hfold : (v :: vs).foldl joinMin.hit joinMin.zero = (w, true) := hw
      rw [hfold]
      exact ⟨fun _ => ⟨hmem, fun u hu => not_lt.mp (hbest u hu)⟩, by simp⟩

theorem foldl_joinMax (vs : List β) :
    (vs ≠ [] → IsGreatest {v | v ∈ vs} (vs.foldl joinMax.hit joinMax.zero).1) ∧
      ((vs.foldl joinMax.hit joinMax.zero).2 = true ↔ vs ≠ []) := by
  cases vs with
  | nil => simp [joinMax, List.foldl_nil]
  | cons v vs =>
      obtain ⟨w, hw, hmem, hbest⟩ := foldl_best (fun x y : β => y < x)
        (fun x y z hyx hzy => not_lt.mpr ((not_lt.mp hzy).trans (not_lt.mp hyx)))
        (fun x y h => not_lt.mpr (le_of_lt h)) v vs
      have hfold : (v :: vs).foldl joinMax.hit joinMax.zero = (w, true) := hw
      rw [hfold]
      exact ⟨fun _ => ⟨hmem, fun u hu => not_lt.mp (hbest u hu)⟩, by simp⟩

end Fold

/-! ## the call -/

section Call

variable [LinearOrder β] [Zero β] [Zero σ] {a : JoinInput κ β} {add : σ → β → σ} {t : JoinType}
  {d d' : Nat} {l : κ}

variable (add t) in
/-- Where there is an entry, the call does not fail and makes what the kernel
finds. -/
theorem joinOnce_some (hl : a.dstLnk.elems[d]? = some l) :
    ∃ r, joinOnce a add t = some r ∧ r.dstVal = joinAlone a (t.kernel add) := by
  have hd := (List.getElem?_eq_some_iff.mp hl).1
  rw [joinOnce, joinKernel, if_neg (by omega)]
  by_cases hsrc : a.rows = []
  · refine ⟨_, if_pos (.inl hsrc), ?_⟩
    have hlen : a.rows.length = 0 := by rw [hsrc, List.length_nil]
    rw [joinAlone_eq]
    apply List.ext_getElem?
    intro i
    rw [List.getElem?_map, List.getElem?_replicate]
    by_cases hi : i < a.dstLnk.elems.length
    · rw [if_pos hi, List.getElem?_range hi, Option.map_some, cellOf, hsrc, hits_nil_src]
      rfl
    · rw [if_neg hi, List.getElem?_eq_none (by rw [List.length_range]; omega)]
      rfl
  · have hpos := List.length_pos_iff.mpr hsrc
    rw [if_neg (by rw [not_or]; exact ⟨hsrc, by omega⟩), Nat.sub_zero, Nat.sub_zero]
    exact ⟨_, rfl, rfl⟩

variable (add t) in
/-- The entry of a link. -/
theorem getElem?_joinOnce (hl : a.dstLnk.elems[d]? = some l) : ∃ r, joinOnce a add t = some r ∧
    r.dstVal[d]? = some (cellOf (t.kernel add) a.rows a.dstLnk.elems d) := by
  obtain ⟨r, hr, hval⟩ := joinOnce_some add t hl
  have hd := (List.getElem?_eq_some_iff.mp hl).1
  refine ⟨r, hr, ?_⟩
  rw [hval, joinAlone_eq, List.getElem?_map, List.getElem?_range hd, Option.map_some]

theorem stepsSrc_of_gathers (ht : t.gathers = true) : (t.kernel add).stepsSrc = true := by
  cases t <;> first | rfl | exact nomatch ht

/-- A second entry with a link finds nothing. -/
theorem cellOf_of_mem_take (ht : t.gathers = true) (hl : a.dstLnk.elems[d]? = some l)
    (hmem : l ∈ a.dstLnk.elems.take d) :
    cellOf (t.kernel add) a.rows a.dstLnk.elems d = (t.kernel add).zero := by
  simp only [cellOf, hits, hl, stepsSrc_of_gathers ht, if_true, if_pos hmem, List.foldl_nil]

/-- The first one finds all. -/
theorem cellOf_of_notMem_take (ht : t.gathers = true) (hl : a.dstLnk.elems[d]? = some l)
    (hmem : l ∉ a.dstLnk.elems.take d) : cellOf (t.kernel add) a.rows a.dstLnk.elems d =
      (valuesAt l a.rows).foldl (t.kernel add).hit (t.kernel add).zero := by
  simp only [cellOf, hits, hl, stepsSrc_of_gathers ht, if_true, if_neg hmem]

/-! ## when all entries are right -/

/-- All values of a link make what its entry should be. -/
theorem holds_foldl (ht : t.gathers = true) (vs : List β) :
    t.Holds add vs (vs.foldl (t.kernel add).hit (t.kernel add).zero) := by
  cases t with
  | val => exact nomatch ht
  | cnt => exact foldl_joinCnt.trans (Nat.zero_add _)
  | sum =>
      refine (foldl_joinSum add vs _).symm ▸ ⟨rfl, ?_⟩
      simp [JoinType.kernel, joinSum]
  | min => exact foldl_joinMin vs
  | max => exact foldl_joinMax vs
  | is => exact nomatch ht

/-- No value makes what the zeroed buffer has. -/
theorem eq_nil_of_holds_zero (ht : t.gathers = true) {vs : List β}
    (h : t.Holds add vs (t.kernel add).zero) : vs = [] := by
  cases t with
  | val => exact nomatch ht
  | cnt => exact List.length_eq_zero_iff.mp h.symm
  | sum | min | max =>
      by_contra hne
      exact Bool.false_ne_true (h.2.mpr hne)
  | is => exact nomatch ht

/-- The entries are right, a link without a row included. -/
theorem JoinInput.OneEach.holds (h : a.OneEach) (ht : t.gathers = true)
    (hl : a.dstLnk.elems[d]? = some l) : cellOf (t.kernel add) a.rows a.dstLnk.elems d =
      (valuesAt l a.rows).foldl (t.kernel add).hit (t.kernel add).zero := by
  by_cases hmem : l ∈ a.dstLnk.elems.take d
  · have hnil : valuesAt l a.rows = [] :=
      valuesAt_rows_eq_nil.mpr fun hsrc => h.notMem_take hsrc hl hmem
    rw [cellOf_of_mem_take ht hl hmem, hnil, List.foldl_nil]
  · exact cellOf_of_notMem_take ht hl hmem

/-- **Every entry is right** exactly where the destination has each link of the
source once at most. -/
theorem gathered_iff (ht : t.gathers = true) : Gathered a add t ↔ a.OneEach := by
  constructor
  · intro h l hsrc
    by_contra hcount
    obtain ⟨d, hl, hmem⟩ := exists_mem_take_of_count (Nat.lt_of_not_le hcount)
    obtain ⟨r, c, hr, hc, hholds⟩ := h.holds d l hl
    obtain ⟨r', hr', hcell⟩ := getElem?_joinOnce add t hl
    cases hr.symm.trans hr'
    rw [cellOf_of_mem_take ht hl hmem] at hcell
    cases hc.symm.trans hcell
    exact valuesAt_rows_eq_nil.mp (eq_nil_of_holds_zero ht hholds) hsrc
  · intro h
    constructor
    · intro d l hl
      obtain ⟨r, hr, hcell⟩ := getElem?_joinOnce add t hl
      refine ⟨r, _, hr, hcell, ?_⟩
      rw [h.holds ht hl]
      exact holds_foldl ht _
    · intro d d' l hl hl'
      obtain ⟨r, hr, hcell⟩ := getElem?_joinOnce add t hl
      obtain ⟨r', hr', hcell'⟩ := getElem?_joinOnce add t hl'
      cases hr.symm.trans hr'
      refine ⟨r, hr, ?_⟩
      rw [hcell, hcell', h.holds ht hl, h.holds ht hl']

end Call

/-- Two rows of one link, and a destination that has it once. -/
def manyToOne : JoinInput Nat Nat where
  srcVal := ⟨[4, 3, 5], 64, sixtyFour_pos⟩
  srcLnk := ⟨[1, 1, 2], 64, sixtyFour_pos⟩
  dstLnk := ⟨[0, 1, 2, 3], 64, sixtyFour_pos⟩
  length_eq := rfl
  srcSorted := by decide
  dstSorted := by decide

theorem gathered_iff_manyToOne : Gathered manyToOne ((· + ·) : Nat → Nat → Nat) .sum :=
  (gathered_iff rfl).mpr (by rw [JoinInput.OneEach]; decide)

/-- One row, and a destination that has its link twice. -/
def oneToMany : JoinInput Nat Nat where
  srcVal := ⟨[4], 64, sixtyFour_pos⟩
  srcLnk := ⟨[1], 64, sixtyFour_pos⟩
  dstLnk := ⟨[1, 1], 64, sixtyFour_pos⟩
  length_eq := rfl
  srcSorted := by decide
  dstSorted := by decide

theorem gathered_fails : ¬ Gathered oneToMany ((· + ·) : Nat → Nat → Nat) .cnt := by
  intro h
  obtain ⟨r, c, hr, hc, hholds⟩ := h.holds 1 1 rfl
  have hrun : joinOnce oneToMany ((· + ·) : Nat → Nat → Nat) .cnt = some ⟨1, 0, ([1, 0] : List Nat)⟩ := rfl
  cases hr.symm.trans hrun
  cases hc
  exact absurd (show (0 : Nat) = 1 from hholds) (by decide)

end QStore.Operators
