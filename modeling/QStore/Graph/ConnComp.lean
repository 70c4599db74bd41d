import Mathlib.Data.List.GetD
import QStore.Lib.Labels

/-!
# QStore.Graph.ConnComp

`conn_comp`: every node takes the least label among its own and those of the nodes it points
to, in place and in index order, sweep after sweep until one changes nothing.

Where it ends, the label of a node is the least node that can be reached from it.  It ends
for every graph of fewer than `2^32` nodes; from there on the counter of the loop that sets
the first labels, an `unsigned int`, comes round to 0 before it has got to the end.
-/

namespace QStore.Graph.ConnComp

open Labels Relation

/-- The three mapped files: node `i` points to `targets[j]` for `lb[i] ≤ j < ub[i]`. -/
structure Csr where
  lb : List Nat
  ub : List Nat
  targets : List Nat
  ub_length : ub.length = lb.length
  rows : ∀ i, ub.getD i 0 ≤ lb.getD i 0 ∨ ub.getD i 0 ≤ targets.length
  nodes : ∀ k ∈ targets, k < lb.length

namespace Csr

variable (a : Csr)

/-- `uint64_t n_nodes = lb_nX / sizeof(NODE_TYPE)` -/
def n_nodes : Nat := a.lb.length

/-- Node `i` points to node `k`. -/
def Edge (i k : Nat) : Prop :=
  i < a.n_nodes ∧ ∃ j, a.lb.getD i 0 ≤ j ∧ j < a.ub.getD i 0 ∧ a.targets[j]? = some k

/-- The least label of `i` and of what it points to. -/
def minval (lbl : List Nat) (i : Nat) : Nat :=
  (List.range' (a.lb.getD i 0) (a.ub.getD i 0 - a.lb.getD i 0)).foldl
    (fun minval j => min minval (lbl.getD (a.targets.getD j 0) 0)) (lbl.getD i 0)

/-- One round of the loop over the nodes, on the labels and `is_any_change`. -/
def visit (s : List Nat × Bool) (i : Nat) : List Nat × Bool :=
  if a.ub.getD i 0 ≤ a.lb.getD i 0 then s
  else if s.1.getD i 0 ≠ a.minval s.1 i then (s.1.set i (a.minval s.1 i), true)
  else s

def sweep (lbl : List Nat) : List Nat × Bool :=
  (List.range a.n_nodes).foldl a.visit (lbl, false)

end Csr

/-- `for (unsigned int i = 0; i < n_nodes; i++) { lbl[i] = i; }` -/
def initLabels (n_nodes : Nat) : Nat → Nat → List Nat → Option (List Nat)
  | 0, _, _ => none
  | fuel + 1, i, lbl =>
    if i < n_nodes then initLabels n_nodes fuel ((i + 1) % 2 ^ 32) (lbl.set i i) else some lbl

/-- `heap` is what `malloc` finds in the memory it gives out. -/
def connComp (a : Csr) (heap : Nat → Nat) (fuel : Nat) : Option (List Nat) :=
  (initLabels a.n_nodes fuel 0 ((List.range a.n_nodes).map heap)).bind
    (passes (fun lbl => some (a.sweep lbl)) fuel)

/-! ## The first labels -/

variable {a : Csr} {n i j k fuel : Nat} {l lbl : List Nat} {s : List Nat × Bool}

theorem initLabels_ends (hn : n < 2 ^ 32) (hfuel : n < fuel + i) (hi : i ≤ n)
    (hlen : lbl.length = n) (hlbl : ∀ j < i, lbl.getD j 0 = j) :
    initLabels n fuel i lbl = some (List.range n) := by
  induction fuel generalizing i lbl with
  | zero => omega
  | succ fuel ih =>
      rw [initLabels]
      by_cases hlt : i < n
      · rw [if_pos hlt, Nat.mod_eq_of_lt (by omega : i + 1 < 2 ^ 32)]
        apply ih (by omega) hlt (by simpa using hlen)
        intro j hj
        rw [List.getD_eq_getElem?_getD, List.getElem?_set]
        by_cases hij : i = j
        · simp [hij, hlen, show j < n by omega]
        · simpa [hij] using hlbl j (by omega)
      · rw [if_neg hlt]
        refine congrArg some (List.ext_getElem (by simpa using hlen) fun j hj _ => ?_)
        have hj' := hlbl j (by omega)
        rw [List.getD_eq_getElem _ _ hj] at hj'
        rw [hj', List.getElem_range]

/-- An `unsigned int` is never `2^32` or more. -/
theorem initLabels_never (hn : 2 ^ 32 ≤ n) (hi : i < 2 ^ 32) : initLabels n fuel i lbl = none := by
  induction fuel generalizing i lbl with
  | zero => rfl
  | succ fuel ih =>
      rw [initLabels, if_pos (by omega)]
      exact ih (Nat.mod_lt _ (Nat.two_pow_pos 32))

/-! ## One node -/

theorem foldl_min_le (f : Nat → Nat) (js : List Nat) (m : Nat) :
    js.foldl (fun m j => min m (f j)) m ≤ m ∧
      ∀ j ∈ js, js.foldl (fun m j => min m (f j)) m ≤ f j := by
  induction js generalizing m with
  | nil => simp
  | cons x js ih =>
      obtain ⟨hm, hjs⟩ := ih (min m (f x))
      simp only [List.foldl_cons, List.forall_mem_cons]
      exact ⟨by omega, by omega, hjs⟩

theorem foldl_min_mem (f : Nat → Nat) (js : List Nat) (m : Nat) :
    js.foldl (fun m j => min m (f j)) m = m ∨
      ∃ j ∈ js, js.foldl (fun m j => min m (f j)) m = f j := by
  induction js generalizing m with
  | nil => simp
  | cons x js ih =>
      rw [List.foldl_cons]
      cases ih (min m (f x)) with
      | inl h =>
          rw [h]
          cases Nat.le_total m (f x) with
          | inl hle => exact Or.inl (Nat.min_eq_left hle)
          | inr hle => exact Or.inr ⟨x, List.mem_cons_self, Nat.min_eq_right hle⟩
      | inr h =>
          obtain ⟨j, hj, h⟩ := h
          exact Or.inr ⟨j, List.mem_cons_of_mem _ hj, h⟩

theorem edge_iff (hi : i < a.n_nodes) :
    a.Edge i k ↔ ∃ j ∈ List.range' (a.lb.getD i 0) (a.ub.getD i 0 - a.lb.getD i 0),
      a.targets.getD j 0 = k := by
  have hrow := a.rows i
  simp only [Csr.Edge, hi, true_and, List.mem_range'_1]
  constructor
  · rintro ⟨j, hlo, hup, hk⟩
    exact ⟨j, by omega, by simp [List.getD_eq_getElem?_getD, hk]⟩
  · rintro ⟨j, hj, hk⟩
    have hin : j < a.targets.length := by omega
    exact ⟨j, by omega, by omega, by simpa [List.getD_eq_getElem?_getD, hin] using hk⟩

theorem minval_le (a : Csr) (lbl : List Nat) (i : Nat) : a.minval lbl i ≤ lbl.getD i 0 :=
  (foldl_min_le _ _ _).1

theorem minval_le_of_edge (lbl : List Nat) (h : a.Edge i k) : a.minval lbl i ≤ lbl.getD k 0 := by
  obtain ⟨j, hj, hk⟩ := (edge_iff h.1).mp h
  have hle := (foldl_min_le (fun j => lbl.getD (a.targets.getD j 0) 0) _ (lbl.getD i 0)).2 j hj
  rwa [hk] at hle

theorem minval_mem (lbl : List Nat) (hi : i < a.n_nodes) :
    a.minval lbl i = lbl.getD i 0 ∨ ∃ k, a.Edge i k ∧ a.minval lbl i = lbl.getD k 0 := by
  cases foldl_min_mem (fun j => lbl.getD (a.targets.getD j 0) 0)
    (List.range' (a.lb.getD i 0) (a.ub.getD i 0 - a.lb.getD i 0)) (lbl.getD i 0) with
  | inl h => exact Or.inl h
  | inr h =>
      obtain ⟨j, hj, h⟩ := h
      exact Or.inr ⟨_, (edge_iff hi).mpr ⟨j, hj, rfl⟩, h⟩

theorem lt_of_edge (h : a.Edge i k) : k < a.n_nodes := by
  obtain ⟨_, j, _, _, hk⟩ := h
  exact a.nodes k (List.mem_of_getElem? hk)

/-! ## One sweep -/

/-- Every label is a node that can be reached, and no later one. -/
abbrev Good (a : Csr) (lbl : List Nat) : Prop := Labelled a.Edge a.n_nodes lbl

/-- No edge out of `i` leads to a smaller label. -/
def Stable (a : Csr) (lbl : List Nat) (i : Nat) : Prop :=
  ∀ k, a.Edge i k → lbl.getD i 0 ≤ lbl.getD k 0

theorem labelled_minval (h : Good a lbl) (hi : i < a.n_nodes) :
    Good a (lbl.set i (a.minval lbl i)) := by
  apply h.set hi ((minval_le a lbl i).trans (h.below i hi))
  cases minval_mem lbl hi with
  | inl hm => exact hm ▸ h.reach i hi
  | inr hm =>
      obtain ⟨k, hk, hm⟩ := hm
      exact hm ▸ (h.reach k (lt_of_edge hk)).head hk

/-- A visit leaves everything as it was where nothing can be improved, or makes a label
smaller. -/
theorem visit_cases (h : Good a s.1) (hi : i < a.n_nodes) :
    (a.visit s i = s ∧ Stable a s.1 i) ∨
      (Good a (a.visit s i).1 ∧ (a.visit s i).2 = true ∧ (a.visit s i).1.sum < s.1.sum) := by
  rw [Csr.visit]
  by_cases hrow : a.ub.getD i 0 ≤ a.lb.getD i 0
  · rw [if_pos hrow]
    refine Or.inl ⟨rfl, fun k hk => ?_⟩
    obtain ⟨_, j, hlo, hup, _⟩ := hk
    omega
  · rw [if_neg hrow]
    by_cases hm : s.1.getD i 0 ≠ a.minval s.1 i
    · rw [if_pos hm]
      have hsum := sum_set (h.length ▸ hi : i < s.1.length) (a.minval s.1 i)
      have hle := minval_le a s.1 i
      exact Or.inr ⟨labelled_minval h hi, rfl, by simp only; omega⟩
    · rw [if_neg hm]
      exact Or.inl ⟨rfl, fun k hk => by have := minval_le_of_edge s.1 hk; omega⟩

theorem visits_cases (is : List Nat) (h : Good a s.1) (his : ∀ i ∈ is, i < a.n_nodes) :
    (is.foldl a.visit s = s ∧ ∀ i ∈ is, Stable a s.1 i) ∨
      (Good a (is.foldl a.visit s).1 ∧ (is.foldl a.visit s).2 = true ∧
        (is.foldl a.visit s).1.sum < s.1.sum) := by
  induction is generalizing s with
  | nil => simp
  | cons i is ih =>
      rw [List.forall_mem_cons] at his
      rw [List.foldl_cons, List.forall_mem_cons]
      cases visit_cases h his.1 with
      | inl hi =>
          rw [hi.1]
          cases ih h his.2 with
          | inl hrest => exact Or.inl ⟨hrest.1, hi.2, hrest.2⟩
          | inr hrest => exact Or.inr hrest
      | inr hi =>
          obtain ⟨hlab, hagain, hlt⟩ := hi
          cases ih hlab his.2 with
          | inl hrest =>
              rw [hrest.1]
              exact Or.inr ⟨hlab, hagain, hlt⟩
          | inr hrest => exact Or.inr ⟨hrest.1, hrest.2.1, hrest.2.2.trans hlt⟩

/-- A sweep that changes nothing has found every node stable. -/
theorem sweep_cases (h : Good a lbl) :
    (a.sweep lbl = (lbl, false) ∧ ∀ i < a.n_nodes, Stable a lbl i) ∨
      (Good a (a.sweep lbl).1 ∧ (a.sweep lbl).2 = true ∧ (a.sweep lbl).1.sum < lbl.sum) := by
  have hcases := visits_cases (s := (lbl, false)) (List.range a.n_nodes) h (by simp)
  simpa [Csr.sweep] using hcases

/-! ## All sweeps -/

theorem sweeps_end (a : Csr) :
    ∃ fuel l, passes (fun lbl => some (a.sweep lbl)) fuel (List.range a.n_nodes) = some l ∧
      Good a l ∧ ∀ i < a.n_nodes, Stable a l i := by
  have hpass : ∀ lbl, Good a lbl → ∃ t again, some (a.sweep lbl) = some (t, again) ∧
      Good a t ∧ (again = true → t.sum < lbl.sum) := by
    intro lbl hlbl
    refine ⟨(a.sweep lbl).1, (a.sweep lbl).2, rfl, ?_⟩
    cases sweep_cases hlbl with
    | inl hs => simp [hs.1, hlbl]
    | inr hs => exact ⟨hs.1, fun _ => hs.2.2⟩
  obtain ⟨fuel, l, last, hrun, hlast, hend⟩ :=
    exists_passes List.sum hpass (labelled_range a.Edge a.n_nodes)
  rw [Option.some.injEq] at hend
  cases sweep_cases hlast with
  | inl hs =>
      have hl : l = last := congrArg Prod.fst (hend.symm.trans hs.1)
      exact ⟨fuel, l, hrun, hl ▸ hlast, hl ▸ hs.2⟩
  | inr hs => simp [hend] at hs

/-- The least node that can be reached from each, and the same for two nodes of a symmetric
graph exactly where they are connected. -/
def Correct (a : Csr) (lbl : List Nat) : Prop :=
  lbl.length = a.n_nodes ∧
    (∀ i < a.n_nodes, IsLeast {k | ReflTransGen a.Edge i k} (lbl.getD i 0)) ∧
      ((∀ i k, a.Edge i k → a.Edge k i) → ∀ i < a.n_nodes, ∀ k < a.n_nodes,
        (lbl.getD i 0 = lbl.getD k 0 ↔ ReflTransGen a.Edge i k))

theorem correct_of_stable (h : Good a lbl) (hstable : ∀ i < a.n_nodes, Stable a lbl i) :
    Correct a lbl := by
  have hleast : ∀ i < a.n_nodes, IsLeast {k | ReflTransGen a.Edge i k} (lbl.getD i 0) :=
    fun i hi => h.isLeast (fun _ _ _ => lt_of_edge) (fun i hi => hstable i hi) hi
  refine ⟨h.length, hleast, fun hsymm i hi k hk => ?_⟩
  have : Std.Symm a.Edge := ⟨hsymm⟩
  exact label_eq_iff (hleast i hi) (hleast k hk)

/-- **Label propagation.** It ends with the right labels exactly for graphs of fewer than
`2^32` nodes. -/
theorem labels_correct_iff (a : Csr) (heap : Nat → Nat) :
    (∃ fuel lbl, connComp a heap fuel = some lbl ∧ Correct a lbl) ↔ a.n_nodes < 2 ^ 32 := by
  constructor
  · intro h
    obtain ⟨fuel, lbl, hrun, _⟩ := h
    by_contra hn
    rw [connComp, initLabels_never (by omega) (Nat.two_pow_pos 32)] at hrun
    simp at hrun
  · intro hn
    obtain ⟨fuel, lbl, hrun, hlab, hstable⟩ := sweeps_end a
    refine ⟨fuel + a.n_nodes + 1, lbl, ?_, correct_of_stable hlab hstable⟩
    rw [connComp, initLabels_ends hn (by omega) (by omega) (by simp) (by simp), Option.bind_some]
    exact passes_of_le hrun (by omega)

/-- A path to node 0 and a pair of nodes that point to each other. -/
def pathAndPair : Csr where
  lb := [0, 0, 1, 2, 3]
  ub := [0, 1, 2, 3, 4]
  targets := [0, 1, 4, 3]
  ub_length := rfl
  rows i := by
    match i with
    | 0 | 1 | 2 | 3 | 4 => decide
    | i + 5 => simp
  nodes := by decide

example : connComp pathAndPair (fun _ => 7) 6 = some [0, 0, 0, 3, 3] := by decide

/-- As many nodes as there are labels, and no edge. -/
def noEdges : Csr where
  lb := List.replicate (2 ^ 32) 0
  ub := List.replicate (2 ^ 32) 0
  targets := []
  ub_length := by simp only [List.length_replicate]
  rows i := by
    left
    exact Nat.le_refl _
  nodes k hk := by simp at hk

/-- The loop that sets their first labels never ends. -/
theorem noEdges_fails :
    ¬ ∃ fuel lbl, connComp noEdges (fun _ => 0) fuel = some lbl ∧ Correct noEdges lbl := by
  intro h
  obtain ⟨fuel, lbl, hrun, _⟩ := h
  have hn : noEdges.n_nodes = 2 ^ 32 := List.length_replicate
  rw [connComp, hn, initLabels_never (Nat.le_refl _) (Nat.two_pow_pos 32)] at hrun
  exact absurd hrun (by simp)

end QStore.Graph.ConnComp
