import Mathlib.Tactic.Ring
import QStore.Lib.Labels

/-!
# QStore.Graph.Conn

The main loop of `conn`: every edge gives the end with the greater representative the lesser
one, and after each block of edges every representative is followed to its end.  Passes are
made until one changes nothing.

`n_blocks` and `block_size` come from integer divisions.  With fewer than four ints for each
vertex there is no block and the division by `n_blocks` has no result; with more than one
block of odd size the second begins in the middle of an edge.  These apart the representatives
come out right.

A pass that has changed few representatives also copies the edges, into as much memory as those
take that changed something.  The last pass changes none, and copies an edge of each component
all the same.
-/

namespace QStore.Graph.Conn

open Labels Relation

/-- The mapped file of edges and the greatest vertex, an argument of the program. -/
structure Input where
  max_id : Nat
  E : List Nat
  pos : 0 < max_id
  word : max_id < 2 ^ 31
  ids : ∀ v ∈ E, v ≤ max_id
  even : E.length % 2 = 0
  two : 2 ≤ E.length

/-- The representatives, the places at which edges were read, and the counts of a pass. -/
structure State where
  rep : List Nat
  pairs : List Nat
  num_changes : Nat
  num_live_edges : Nat
  num_exst_edges : Nat

namespace Input

variable (a : Input)

/-- `uint64_t nE` -/
def nE : Nat := a.E.length

/-- `int nV`, where there is no overflow. -/
def nV : Nat := if (a.max_id + 1) % 2 ≠ 0 then a.max_id + 2 else a.max_id + 1

/-- `int n_blocks = ( nE / nV ) / 4`, a `uint64_t` made an `int`. -/
def n_blocks : Int := Int.bmod (a.nE / a.nV / 4 : Nat) (2 ^ 32)

/-- `n_blocks` made a `uint64_t`. -/
def blocks : Nat := (a.n_blocks % 2 ^ 64).toNat

def block_size : Nat := a.nE / a.blocks

/-- One edge of the first loop. -/
def edge (s : State) (e : Nat) : Option State := do
  let src ← a.E[e]?
  let dst ← a.E[e + 1]?
  let src_rep ← s.rep[src]?
  let dst_rep ← s.rep[dst]?
  let s := { s with pairs := s.pairs ++ [e], num_exst_edges := s.num_exst_edges + 1 }
  if src_rep < dst_rep then
    return { s with
      rep := s.rep.set dst src_rep
      num_changes := s.num_changes + 1
      num_live_edges := s.num_live_edges + 1 }
  else if dst_rep < src_rep then
    return { s with
      rep := s.rep.set src dst_rep
      num_changes := s.num_changes + 1
      num_live_edges := s.num_live_edges + 1 }
  else return s

end Input

/-- `while ( me != parent )`: where it ends, and the parents it has passed, at most 1024. -/
def chase (rep : List Nat) : Nat → Nat → Nat → List Nat → Option (Nat × List Nat)
  | 0, _, _, _ => none
  | fuel + 1, me, parent, chain =>
    if me ≠ parent then
      rep[parent]?.bind fun grandparent =>
        chase rep fuel parent grandparent (if chain.length < 1024 then chain ++ [parent] else chain)
    else some (parent, chain)

/-- One round of the second loop. -/
def jump (steps : Nat) (rep : List Nat) (i : Nat) : Option (List Nat) := do
  let parent ← rep[i]?
  let (parent, chain) ← chase rep steps i parent []
  if parent ≠ i then return chain.foldl (fun rep c => rep.set c parent) (rep.set i parent)
  else return rep

namespace Input

variable (a : Input)

/-- The `e` of block `b`. -/
def blockEdges (b : Nat) : List Nat :=
  let lb := b * a.block_size
  let ub := if b = a.blocks - 1 then a.nE else lb + a.block_size
  List.range' lb ((ub - lb + 1) / 2) 2

/-- Both loops over one block. Outside of a parallel region `nT` is 1, and the second loop has
one block of its own. -/
def block (steps : Nat) (s : State) (b : Nat) : Option State := do
  let s ← (a.blockEdges b).foldlM a.edge s
  let rep ← (List.range a.nV).foldlM (jump steps) s.rep
  return { s with rep := rep }

/-- One iteration up to the copy, and whether there is to be another. There is none without
blocks, by which `nE` is divided, nor with the least `int` of them, from which 1 is taken. -/
def sweep (steps : Nat) (s : State) : Option (State × Bool) :=
  if a.n_blocks = 0 ∨ a.n_blocks = -2 ^ 31 then none
  else do
    let s ← (List.range a.blocks).foldlM (a.block steps)
      { s with num_changes := 0, num_live_edges := 0, num_exst_edges := 0 }
    return (s, s.num_changes ≠ 0)

/-- One round of the loop that copies the edges into `new_E`, on `eidx`. There is nothing to
write to behind the `size` ints that were asked for. -/
def copyEdge (size : Nat) (rep : List Nat) (eidx e : Nat) : Option Nat := do
  let src ← a.E[e]?
  let dst ← a.E[e + 1]?
  let src_rep ← rep[src]?
  let dst_rep ← rep[dst]?
  if src_rep = dst_rep ∧ src_rep ≠ src ∧ dst_rep ≠ dst then return eidx
  else if eidx + 2 ≤ size then return eidx + 2
  else none

/-- The copy, which nothing reads. `belowTenth` compares the quotient of two counts, as doubles,
with 0.1. -/
def condense (belowTenth : Nat → Nat → Bool) (s : State) : Option Unit :=
  if belowTenth s.num_live_edges s.num_exst_edges then do
    let _ ← (List.range' 0 ((a.nE + 1) / 2) 2).foldlM
      (a.copyEdge (s.num_live_edges * 2) s.rep) 0
    return ()
  else some ()

/-- One iteration. -/
def pass (belowTenth : Nat → Nat → Bool) (steps : Nat) (s : State) : Option (State × Bool) := do
  let (s, again) ← a.sweep steps s
  a.condense belowTenth s
  return (s, again)

/-- Before the main loop. -/
def init : State := ⟨List.range a.nV, [], 1, 0, 0⟩

/-- The main loop without its copies, with limits on the passes and on the links followed at
once. -/
def sweeps (fuel steps : Nat) : Option State :=
  if 2 ^ 31 ≤ a.nV then none else passes (a.sweep steps) fuel a.init

/-- The main loop. -/
def conn (belowTenth : Nat → Nat → Bool) (fuel steps : Nat) : Option State :=
  if 2 ^ 31 ≤ a.nV then none else passes (a.pass belowTenth steps) fuel a.init

/-- There is an edge between `u` and `v`. -/
def Edge (u v : Nat) : Prop :=
  ∃ e, e % 2 = 0 ∧
    (a.E[e]? = some u ∧ a.E[e + 1]? = some v ∨ a.E[e]? = some v ∧ a.E[e + 1]? = some u)

end Input

variable {a : Input} {e i x u v steps : Nat} {s t : State} {rep : List Nat}

/-! ## Edges -/

instance : Std.Symm a.Edge where
  symm u v h := by
    obtain ⟨e, he, h⟩ := h
    exact ⟨e, he, h.symm⟩

theorem max_id_lt_nV : a.max_id < a.nV := by
  rw [Input.nV]
  split <;> omega

theorem edge_lt (h : a.Edge u v) : u < a.nV ∧ v < a.nV := by
  have hV := max_id_lt_nV (a := a)
  have hid : ∀ {e w}, a.E[e]? = some w → w < a.nV := fun h => by
    have := a.ids _ (List.mem_of_getElem? h)
    omega
  obtain ⟨e, _, h⟩ := h
  cases h with
  | inl h => exact ⟨hid h.1, hid h.2⟩
  | inr h => exact ⟨hid h.2, hid h.1⟩

/-- `e` is where an edge is. -/
def Pair (a : Input) (e : Nat) : Prop := e % 2 = 0 ∧ e + 1 < a.nE

theorem Pair.exists_edge (h : Pair a e) :
    ∃ u v, a.E[e]? = some u ∧ a.E[e + 1]? = some v ∧ a.Edge u v := by
  have hE : e + 1 < a.E.length := h.2
  have hu := List.getElem?_eq_getElem (by omega : e < a.E.length)
  have hv := List.getElem?_eq_getElem hE
  exact ⟨_, _, hu, hv, e, h.1, Or.inl ⟨hu, hv⟩⟩

/-- The two ends of the edge at `e` have the same representative. -/
def Joined (a : Input) (rep : List Nat) (e : Nat) : Prop :=
  ∀ u v, a.E[e]? = some u → a.E[e + 1]? = some v → rep.getD u 0 = rep.getD v 0

/-- What a run through some edges does: nothing, where all of them join what is joined, or
some representative falls. -/
structure Went (a : Input) (es : List Nat) (s t : State) : Prop where
  labelled : Labelled a.Edge a.nV t.rep
  pairs : t.pairs = s.pairs ++ es
  exst : t.num_exst_edges = s.num_exst_edges + es.length
  moved : (t.rep = s.rep ∧ t.num_changes = s.num_changes ∧ t.num_live_edges = s.num_live_edges ∧
      ∀ e ∈ es, Joined a s.rep e) ∨
    (t.rep.sum < s.rep.sum ∧ s.num_changes < t.num_changes)

theorem getElem?_rep (h : Labelled a.Edge a.nV rep) (hx : x < a.nV) :
    rep[x]? = some (rep.getD x 0) := by
  have hlt : x < rep.length := h.length ▸ hx
  rw [List.getD_eq_getElem _ _ hlt, List.getElem?_eq_getElem hlt]

theorem edge_went (h : Labelled a.Edge a.nV s.rep) (he : Pair a e) :
    ∃ t, a.edge s e = some t ∧ Went a [e] s t := by
  obtain ⟨u, v, hu, hv, huv⟩ := he.exists_edge
  obtain ⟨hlu, hlv⟩ := edge_lt huv
  have hru := h.below u hlu
  have hrv := h.below v hlv
  rw [Input.edge]
  simp only [hu, hv, getElem?_rep h hlu, getElem?_rep h hlv, Option.bind_eq_bind,
    Option.bind_some, Option.pure_def]
  by_cases hlt : s.rep.getD u 0 < s.rep.getD v 0
  · rw [if_pos hlt]
    have hsum := sum_set (h.length ▸ hlv : v < s.rep.length) (s.rep.getD u 0)
    refine ⟨_, rfl, h.set hlv (by omega) ?_, rfl, rfl, Or.inr ⟨?_, Nat.lt_succ_self _⟩⟩
    · exact (h.reach u hlu).head (Std.Symm.symm u v huv)
    · simp only
      omega
  · rw [if_neg hlt]
    by_cases hgt : s.rep.getD v 0 < s.rep.getD u 0
    · rw [if_pos hgt]
      have hsum := sum_set (h.length ▸ hlu : u < s.rep.length) (s.rep.getD v 0)
      refine ⟨_, rfl, h.set hlu (by omega) ?_, rfl, rfl, Or.inr ⟨?_, Nat.lt_succ_self _⟩⟩
      · exact (h.reach v hlv).head huv
      · simp only
        omega
    · rw [if_neg hgt]
      refine ⟨_, rfl, h, rfl, rfl, Or.inl ⟨rfl, rfl, rfl, ?_⟩⟩
      intro e' he' u' v' hu' hv'
      rw [List.mem_singleton] at he'
      subst he'
      cases hu.symm.trans hu'
      cases hv.symm.trans hv'
      omega

theorem Went.trans {es fs : List Nat} {r : State} (h : Went a es s t) (h' : Went a fs t r) :
    Went a (es ++ fs) s r where
  labelled := h'.labelled
  pairs := by rw [h'.pairs, h.pairs, List.append_assoc]
  exst := by rw [h'.exst, h.exst, List.length_append]; omega
  moved := by
    cases h.moved with
    | inl hs =>
        obtain ⟨hrep, hch, hlive, hes⟩ := hs
        cases h'.moved with
        | inl ht =>
            obtain ⟨hrep', hch', hlive', hfs⟩ := ht
            refine Or.inl ⟨hrep'.trans hrep, hch'.trans hch, hlive'.trans hlive, ?_⟩
            intro e he
            cases List.mem_append.mp he with
            | inl he => exact hes e he
            | inr he => exact hrep ▸ hfs e he
        | inr ht => exact Or.inr ⟨hrep ▸ ht.1, hch ▸ ht.2⟩
    | inr hs =>
        cases h'.moved with
        | inl ht => exact Or.inr ⟨ht.1 ▸ hs.1, ht.2.1 ▸ hs.2⟩
        | inr ht => exact Or.inr ⟨ht.1.trans hs.1, hs.2.trans ht.2⟩

theorem Went.refl (h : Labelled a.Edge a.nV s.rep) : Went a [] s s where
  labelled := h
  pairs := by simp
  exst := rfl
  moved := by simp

theorem edges_went {es : List Nat} (h : Labelled a.Edge a.nV s.rep) (hes : ∀ e ∈ es, Pair a e) :
    ∃ t, es.foldlM a.edge s = some t ∧ Went a es s t := by
  induction es generalizing s with
  | nil => exact ⟨s, rfl, Went.refl h⟩
  | cons e es ih =>
      rw [List.forall_mem_cons] at hes
      obtain ⟨t, ht, hst⟩ := edge_went h hes.1
      obtain ⟨r, hr, htr⟩ := ih hst.labelled hes.2
      exact ⟨r, by simp [List.foldlM_cons, ht, hr], hst.trans htr⟩

/-! ## Following the representatives -/

/-- The representatives of the first vertices represent themselves. -/
def Flat (rep : List Nat) (n : Nat) : Prop :=
  ∀ x < n, rep.getD (rep.getD x 0) 0 = rep.getD x 0

/-- With those before it followed to their ends, a vertex is two links away from its own. -/
theorem jump_eq (h : Labelled a.Edge a.nV rep) (hflat : Flat rep i) (hi : i < a.nV)
    (hsteps : 3 ≤ steps) :
    jump steps rep i = some (rep.set i (rep.getD (rep.getD i 0) 0)) := by
  obtain ⟨n, rfl⟩ : ∃ n, steps = n + 3 := ⟨steps - 3, by omega⟩
  have hle := h.below i hi
  have hpar := getElem?_rep h hi
  rw [jump, hpar]
  by_cases hself : rep.getD i 0 = i
  · simp only [hself, set_eq_self hself, chase, Option.bind_eq_bind, Option.bind_some, ne_eq,
      not_true, if_false, Option.pure_def]
  · generalize hp : rep.getD i 0 = p at hle hself
    generalize hr : rep.getD p 0 = r
    have hpi : p < i := by omega
    have hrp : r ≤ p := hr ▸ h.below p (by omega)
    have hroot : rep.getD r 0 = r := hr ▸ hflat p hpi
    have hgrand : rep[p]? = some r := hr ▸ getElem?_rep h (by omega)
    have hend : rep[r]? = some r := by
      rw [getElem?_rep h (by omega), hroot]
    -- what the chain is set to it was before
    have hset : ∀ c, rep.getD c 0 = r → c < i → (rep.set i r).set c r = rep.set i r := by
      intro c hc hci
      apply set_eq_self
      rw [getD_set (h.length ▸ hi), if_neg (by omega), hc]
    by_cases hpr : p = r
    · subst hpr
      have hchase : chase rep (n + 3) i p [] = some (p, [p]) := by
        simp only [chase, ne_eq, Ne.symm hself, hgrand, Option.bind_some]
        simp
      simp only [Option.bind_eq_bind, Option.bind_some, hchase, Option.pure_def, ne_eq, hself,
        not_false_eq_true, if_true, List.foldl_cons, List.foldl_nil, hset p hr hpi]
    · have hchase : chase rep (n + 3) i p [] = some (r, [p, r]) := by
        simp only [chase, ne_eq, Ne.symm hself, hgrand, hend, hpr, Option.bind_some]
        simp
      have hri : r ≠ i := by omega
      simp only [Option.bind_eq_bind, Option.bind_some, hchase, Option.pure_def, ne_eq, hri,
        not_false_eq_true, if_true, List.foldl_cons, List.foldl_nil, hset p hr hpi,
        hset r hroot (by omega)]

theorem jump_flat (h : Labelled a.Edge a.nV rep) (hflat : Flat rep i) (hi : i < a.nV) :
    Flat (rep.set i (rep.getD (rep.getD i 0) 0)) (i + 1) := by
  have hset := fun j => getD_set (v := rep.getD (rep.getD i 0) 0) (h.length ▸ hi : i < rep.length) j
  intro x hx
  by_cases hxi : x = i
  · subst hxi
    have hle := h.below x hi
    simp only [hset, if_true]
    split
    · rfl
    · next hne =>
      -- the vertex that represents `x` comes before it
      have hlt : rep.getD x 0 < x := by
        by_contra hge
        have hself : rep.getD x 0 = x := by omega
        exact hne (by rw [hself, hself])
      exact hflat _ hlt
  · have hle := h.below x (by omega)
    simp only [hset, if_neg (Ne.symm hxi), if_neg (show i ≠ rep.getD x 0 by omega)]
    exact hflat x (by omega)

theorem jumps_flat (h : Labelled a.Edge a.nV rep) (hsteps : 3 ≤ steps) {n : Nat} (hn : n ≤ a.nV) :
    ∃ r, (List.range n).foldlM (jump steps) rep = some r ∧ Labelled a.Edge a.nV r ∧
      r.sum ≤ rep.sum ∧ Flat r n ∧ (Flat rep n → r = rep) := by
  induction n with
  | zero => exact ⟨rep, rfl, h, Nat.le_refl _, by simp [Flat], fun _ => rfl⟩
  | succ n ih =>
      obtain ⟨r, hr, hlab, hsum, hflat, hsame⟩ := ih (by omega)
      have hn' : n < a.nV := hn
      have hb := hlab.below n hn'
      have hbb := hlab.below (r.getD n 0) (by omega)
      have hs := sum_set (hlab.length ▸ hn' : n < r.length) (r.getD (r.getD n 0) 0)
      have hrun : (List.range (n + 1)).foldlM (jump steps) rep =
          some (r.set n (r.getD (r.getD n 0) 0)) := by
        rw [List.range_succ, List.foldlM_append, hr]
        simp [jump_eq hlab hflat hn' hsteps]
      refine ⟨_, hrun, ?_, by omega, jump_flat hlab hflat hn', ?_⟩
      · exact hlab.set hn' (by omega) ((hlab.reach n hn').trans (hlab.reach _ (by omega)))
      · intro hall
        have hrr := hsame fun x hx => hall x (by omega)
        rw [hrr]
        exact set_eq_self (hall n (by omega)).symm

/-! ## Blocks -/

theorem block_went {b : Nat} (h : Labelled a.Edge a.nV s.rep) (hflat : Flat s.rep a.nV)
    (hb : ∀ e ∈ a.blockEdges b, Pair a e) (hsteps : 3 ≤ steps) :
    ∃ t, a.block steps s b = some t ∧ Went a (a.blockEdges b) s t ∧ Flat t.rep a.nV := by
  obtain ⟨t, ht, hst⟩ := edges_went h hb
  obtain ⟨r, hr, hlab, hsum, hf, hsame⟩ := jumps_flat hst.labelled hsteps (Nat.le_refl _)
  refine ⟨{ t with rep := r }, by simp [Input.block, ht, hr], ?_, hf⟩
  refine ⟨hlab, hst.pairs, hst.exst, ?_⟩
  cases hst.moved with
  | inl hm => exact Or.inl ⟨(hsame (hm.1 ▸ hflat)).trans hm.1, hm.2⟩
  | inr hm => exact Or.inr ⟨by simp only; omega, hm.2⟩

theorem blocks_went {bs : List Nat} (h : Labelled a.Edge a.nV s.rep) (hflat : Flat s.rep a.nV)
    (hbs : ∀ b ∈ bs, ∀ e ∈ a.blockEdges b, Pair a e) (hsteps : 3 ≤ steps) :
    ∃ t, bs.foldlM (a.block steps) s = some t ∧ Went a (bs.flatMap a.blockEdges) s t ∧
      Flat t.rep a.nV := by
  induction bs generalizing s with
  | nil => exact ⟨s, rfl, Went.refl h, hflat⟩
  | cons b bs ih =>
      rw [List.forall_mem_cons] at hbs
      obtain ⟨t, ht, hst, hft⟩ := block_went h hflat hbs.1 hsteps
      obtain ⟨r, hr, htr, hfr⟩ := ih hst.labelled hft hbs.2
      exact ⟨r, by simp [List.foldlM_cons, ht, hr], by simpa using hst.trans htr, hfr⟩

/-- Every block begins where an edge does. -/
def Aligned (a : Input) : Prop := a.blocks = 1 ∨ a.block_size % 2 = 0

theorem start_even (h : Aligned a) {b : Nat} (hb : b < a.blocks) :
    b * a.block_size % 2 = 0 := by
  cases h with
  | inl h =>
      obtain rfl : b = 0 := by omega
      simp
  | inr h => rw [Nat.mul_mod, h]; simp

theorem mem_blockEdges {b : Nat} :
    e ∈ a.blockEdges b ↔ ∃ k, e = b * a.block_size + 2 * k ∧
      e < if b = a.blocks - 1 then a.nE else b * a.block_size + a.block_size := by
  simp only [Input.blockEdges, List.mem_range']
  constructor
  · intro h
    obtain ⟨k, hk, rfl⟩ := h
    exact ⟨k, rfl, by omega⟩
  · intro h
    obtain ⟨k, rfl, hk⟩ := h
    exact ⟨k, by omega, rfl⟩

theorem block_le {b : Nat} (hb : b < a.blocks) : b * a.block_size + a.block_size ≤ a.nE := by
  have hmul : (b + 1) * a.block_size ≤ a.blocks * a.block_size := Nat.mul_le_mul_right _ hb
  have hall : a.blocks * a.block_size ≤ a.nE := Nat.mul_div_le _ _
  rw [Nat.add_mul] at hmul
  omega

theorem pair_of_mem (h : Aligned a) {b : Nat} (hb : b < a.blocks) (he : e ∈ a.blockEdges b) :
    Pair a e := by
  have hlb := start_even h hb
  have hle := block_le hb
  have heven : a.nE % 2 = 0 := a.even
  obtain ⟨k, rfl, hlt⟩ := mem_blockEdges.mp he
  constructor
  · omega
  · split at hlt <;> omega

/-- The blocks leave no edge out. -/
theorem exists_block (h : Aligned a) (hpos : 0 < a.blocks) (he : Pair a e) :
    ∃ b < a.blocks, e ∈ a.blockEdges b := by
  have hodd := he.1
  have hlt := he.2
  by_cases hlast : (a.blocks - 1) * a.block_size ≤ e
  · refine ⟨a.blocks - 1, by omega, mem_blockEdges.mpr ?_⟩
    have hlb := start_even h (show a.blocks - 1 < a.blocks by omega)
    exact ⟨(e - (a.blocks - 1) * a.block_size) / 2, by omega, by rw [if_pos rfl]; omega⟩
  · have hbs : 0 < a.block_size := by
      by_contra h0
      simp [show a.block_size = 0 by omega] at hlast
    have hdiv : e / a.block_size < a.blocks - 1 := by
      rw [Nat.div_lt_iff_lt_mul hbs]
      omega
    refine ⟨e / a.block_size, by omega, mem_blockEdges.mpr ?_⟩
    have hlb := start_even h (show e / a.block_size < a.blocks by omega)
    have hmod := Nat.div_add_mod' e a.block_size
    have hmodlt := Nat.mod_lt e hbs
    exact ⟨(e - e / a.block_size * a.block_size) / 2, by omega, by rw [if_neg (by omega)]; omega⟩

/-! ## One sweep -/

/-- What holds between the passes. -/
structure Good (a : Input) (s : State) : Prop where
  labelled : Labelled a.Edge a.nV s.rep
  flat : Flat s.rep a.nV
  pairs : ∀ e ∈ s.pairs, Pair a e

/-- The vertices are counted by an `int`, there are blocks, and they begin with an edge. -/
structure Fits (a : Input) : Prop where
  nV : a.nV < 2 ^ 31
  some : a.n_blocks ≠ 0
  least : a.n_blocks ≠ -2 ^ 31
  aligned : Aligned a

theorem blocks_pos (h : a.n_blocks ≠ 0) : 0 < a.blocks := by
  have hlo : -2 ^ 31 ≤ a.n_blocks := Int.le_bmod (Nat.two_pow_pos 32)
  have hup : a.n_blocks < 2 ^ 31 := Int.bmod_lt (Nat.two_pow_pos 32)
  rw [Input.blocks]
  omega

theorem pair_zero (a : Input) : Pair a 0 := ⟨rfl, a.two⟩

/-- A sweep that asks for no other has left the representatives alone, found every edge joined,
and changed none of them. -/
theorem sweep_ends (h : Fits a) (hs : Good a s) (hsteps : 3 ≤ steps) :
    ∃ t again, a.sweep steps s = some (t, again) ∧ Good a t ∧
      (again = true → t.rep.sum < s.rep.sum) ∧
      (again = false → (∀ e, Pair a e → Joined a t.rep e) ∧ t.num_live_edges = 0 ∧
        0 < t.num_exst_edges) := by
  have hbs : ∀ b ∈ List.range a.blocks, ∀ e ∈ a.blockEdges b, Pair a e := fun b hb e he =>
    pair_of_mem h.aligned (List.mem_range.mp hb) he
  have hall : ∀ e, Pair a e → e ∈ (List.range a.blocks).flatMap a.blockEdges := by
    intro e he
    obtain ⟨b, hb, hmem⟩ := exists_block h.aligned (blocks_pos h.some) he
    exact List.mem_flatMap.mpr ⟨b, List.mem_range.mpr hb, hmem⟩
  obtain ⟨t, ht, hst, hflat⟩ := blocks_went
    (s := { s with num_changes := 0, num_live_edges := 0, num_exst_edges := 0 })
    hs.labelled hs.flat hbs hsteps
  refine ⟨t, decide (t.num_changes ≠ 0), ?_, ?_, ?_, ?_⟩
  · rw [Input.sweep, if_neg (not_or.mpr ⟨h.some, h.least⟩)]
    simp [ht]
  · refine ⟨hst.labelled, hflat, fun e he => ?_⟩
    rw [hst.pairs] at he
    cases List.mem_append.mp he with
    | inl he => exact hs.pairs e he
    | inr he =>
        obtain ⟨b, hb, he⟩ := List.mem_flatMap.mp he
        exact hbs b hb e he
  · intro hagain
    cases hst.moved with
    | inl hm => simp [hm.2.1] at hagain
    | inr hm => exact hm.1
  · intro hlast
    cases hst.moved with
    | inl hm =>
        obtain ⟨hrep, -, hlive, hjoined⟩ := hm
        have hpos := List.length_pos_of_mem (hall 0 (pair_zero a))
        have hexst := hst.exst
        simp only at hexst
        exact ⟨fun e he => hrep ▸ hjoined e (hall e he), hlive, by omega⟩
    | inr hm =>
        have := hm.2
        simp at hlast
        omega

/-! ## Pairs that were read stay read -/

section Pairs

variable {ι : Type} {step : State → ι → Option State} {f : ι → List Nat}

theorem foldlM_pairs (hstep : ∀ s x t, step s x = some t → t.pairs = s.pairs ++ f x)
    {xs : List ι} (h : xs.foldlM step s = some t) : t.pairs = s.pairs ++ xs.flatMap f := by
  induction xs generalizing s with
  | nil =>
      cases h
      simp
  | cons x xs ih =>
      rw [List.foldlM_cons, Option.bind_eq_bind, Option.bind_eq_some_iff] at h
      obtain ⟨r, hr, h⟩ := h
      rw [ih h, hstep s x r hr, List.flatMap_cons, List.append_assoc]

end Pairs

theorem edge_pairs (h : a.edge s e = some t) : t.pairs = s.pairs ++ [e] := by
  simp only [Input.edge, Option.bind_eq_bind, Option.bind_eq_some_iff, Option.pure_def] at h
  obtain ⟨u, _, v, _, ru, _, rv, _, h⟩ := h
  split at h
  · cases h
    rfl
  · split at h <;> (cases h; rfl)

theorem block_pairs {b : Nat} (h : a.block steps s b = some t) :
    t.pairs = s.pairs ++ a.blockEdges b := by
  simp only [Input.block, Option.bind_eq_bind, Option.bind_eq_some_iff, Option.pure_def] at h
  obtain ⟨r, hr, rep, _, h⟩ := h
  cases h
  simpa using foldlM_pairs (f := fun e => [e]) (fun _ _ _ => edge_pairs) hr

theorem sweep_pairs {again : Bool} (h : a.sweep steps s = some (t, again)) :
    t.pairs = s.pairs ++ (List.range a.blocks).flatMap a.blockEdges := by
  rw [Input.sweep] at h
  split at h
  · cases h
  · simp only [Option.bind_eq_bind, Option.bind_eq_some_iff, Option.pure_def] at h
    obtain ⟨r, hr, h⟩ := h
    cases h
    have hread := foldlM_pairs (f := a.blockEdges) (fun _ _ _ h => block_pairs h) hr
    rw [hread]

/-! ## All sweeps -/

/-- The least vertex of its component represents each, two vertices have the same exactly where
they are connected, and what was read as an edge is one. -/
structure Correct (a : Input) (t : State) : Prop where
  least : ∀ v ≤ a.max_id, IsLeast {w | ReflTransGen a.Edge v w} (t.rep.getD v 0)
  connected : ∀ u ≤ a.max_id, ∀ v ≤ a.max_id,
    (t.rep.getD u 0 = t.rep.getD v 0 ↔ ReflTransGen a.Edge u v)
  pairs : ∀ e ∈ t.pairs, Pair a e

theorem isLeast_of_joined (h : Labelled a.Edge a.nV rep) (hjoined : ∀ e, Pair a e → Joined a rep e)
    (hx : x < a.nV) : IsLeast {w | ReflTransGen a.Edge x w} (rep.getD x 0) := by
  apply h.isLeast (fun u _ v huv => (edge_lt huv).2) _ hx
  intro u _ v huv
  obtain ⟨e, he, hends⟩ := huv
  have hpair : Pair a e := by
    have heven : a.nE % 2 = 0 := a.even
    have hlt : e < a.E.length := by
      cases hends with
      | inl h => exact (List.getElem?_eq_some_iff.mp h.1).1
      | inr h => exact (List.getElem?_eq_some_iff.mp h.1).1
    exact ⟨he, by rw [Input.nE] at *; omega⟩
  cases hends with
  | inl h => exact (hjoined e hpair u v h.1 h.2).le
  | inr h => exact (hjoined e hpair v u h.1 h.2).ge

theorem good_init (a : Input) : Good a a.init where
  labelled := labelled_range a.Edge a.nV
  flat x hx := by simp [Input.init, hx]
  pairs e he := by simp [Input.init] at he

theorem correct_of_joined (hs : Good a s) (hjoined : ∀ e, Pair a e → Joined a s.rep e) :
    Correct a s := by
  have hleast : ∀ v ≤ a.max_id, IsLeast {w | ReflTransGen a.Edge v w} (s.rep.getD v 0) :=
    fun v hv => isLeast_of_joined hs.labelled hjoined (by have := max_id_lt_nV (a := a); omega)
  exact ⟨hleast, fun u hu v hv => label_eq_iff (hleast u hu) (hleast v hv), hs.pairs⟩

/-- A second block of odd size begins in the middle of an edge. -/
theorem misaligned (h : ¬ Aligned a) (hpos : 0 < a.blocks) :
    a.block_size ∈ (List.range a.blocks).flatMap a.blockEdges ∧ ¬ Pair a a.block_size := by
  simp only [Aligned, not_or] at h
  have hle := block_le (show 1 < a.blocks by omega)
  refine ⟨List.mem_flatMap.mpr ⟨1, List.mem_range.mpr (by omega), ?_⟩, fun hpair => h.2 hpair.1⟩
  refine mem_blockEdges.mpr ⟨0, by omega, ?_⟩
  split <;> omega

/-- What a sweep has to have got past, to be the last one of some that leave the right
representatives. -/
theorem fits_of_sweep {again : Bool} (hV : a.nV < 2 ^ 31) (h : a.sweep steps s = some (t, again))
    (hcorrect : Correct a t) : Fits a := by
  have hnot : ¬ (a.n_blocks = 0 ∨ a.n_blocks = -2 ^ 31) := fun hno => by
    rw [Input.sweep, if_pos hno] at h
    cases h
  rw [not_or] at hnot
  refine ⟨hV, hnot.1, hnot.2, ?_⟩
  by_contra hal
  obtain ⟨hmem, hpair⟩ := misaligned hal (blocks_pos hnot.1)
  apply hpair (hcorrect.pairs _ _)
  rw [sweep_pairs h]
  exact List.mem_append_right _ hmem

/-- **Connected components.** Without the copies the loop ends with the right representatives
exactly where the vertices are counted by an `int`, the division of the edges into blocks leaves
some, and they begin with an edge. -/
theorem sweeps_correct_iff (a : Input) :
    (∃ fuel steps t, a.sweeps fuel steps = some t ∧ Correct a t) ↔ Fits a := by
  constructor
  · intro h
    obtain ⟨fuel, steps, t, hrun, hcorrect⟩ := h
    rw [Input.sweeps] at hrun
    split at hrun
    · cases hrun
    · next hV =>
      obtain ⟨last, -, hlast⟩ := last_of_passes (P := fun _ => True) (fun _ _ _ _ _ => trivial)
        hrun trivial
      exact fits_of_sweep (by omega) hlast hcorrect
  · intro h
    have hV := h.nV
    have hsweep : ∀ s, Good a s → ∃ t again, a.sweep 3 s = some (t, again) ∧
        Good a t ∧ (again = true → t.rep.sum < s.rep.sum) := by
      intro s hs
      obtain ⟨t, again, ht, hgood, hlt, -⟩ := sweep_ends h hs (Nat.le_refl 3)
      exact ⟨t, again, ht, hgood, hlt⟩
    obtain ⟨fuel, t, last, hrun, hgood, hlast⟩ :=
      exists_passes (fun s => s.rep.sum) hsweep (good_init a)
    obtain ⟨t', again, ht', hgood', -, hend⟩ := sweep_ends h hgood (Nat.le_refl 3)
    rw [hlast] at ht'
    cases ht'
    exact ⟨fuel, 3, t, by rw [Input.sweeps, if_neg (by omega), hrun],
      correct_of_joined hgood' (hend rfl).1⟩

/-! ## A greater limit on the links -/

theorem chase_add {fuel me parent : Nat} {chain : List Nat} {r : Nat × List Nat}
    (h : chase rep fuel me parent chain = some r) (k : Nat) :
    chase rep (fuel + k) me parent chain = some r := by
  induction fuel generalizing me parent chain with
  | zero => simp [chase] at h
  | succ fuel ih =>
      rw [Nat.add_right_comm]
      simp only [chase] at h ⊢
      by_cases hme : me ≠ parent
      · rw [if_pos hme, Option.bind_eq_some_iff] at h ⊢
        obtain ⟨g, hg, h⟩ := h
        exact ⟨g, hg, ih h⟩
      · rw [if_neg hme] at h ⊢
        exact h

theorem jump_add {r : List Nat} (h : jump steps rep i = some r) (k : Nat) :
    jump (steps + k) rep i = some r := by
  simp only [jump, Option.bind_eq_bind, Option.bind_eq_some_iff] at h ⊢
  obtain ⟨parent, hparent, p, hp, h⟩ := h
  exact ⟨parent, hparent, p, chase_add hp k, h⟩

theorem foldlM_mono {σ ι : Type} {f g : σ → ι → Option σ} {s t : σ} {xs : List ι}
    (hfg : ∀ s x t, f s x = some t → g s x = some t) (h : xs.foldlM f s = some t) :
    xs.foldlM g s = some t := by
  induction xs generalizing s with
  | nil => exact h
  | cons x xs ih =>
      rw [List.foldlM_cons, Option.bind_eq_bind, Option.bind_eq_some_iff] at h ⊢
      obtain ⟨r, hr, h⟩ := h
      exact ⟨r, hfg s x r hr, ih h⟩

theorem sweep_add {r : State × Bool} (h : a.sweep steps s = some r) (k : Nat) :
    a.sweep (steps + k) s = some r := by
  have hblock : ∀ s b t, a.block steps s b = some t → a.block (steps + k) s b = some t := by
    intro s b t h
    simp only [Input.block, Option.bind_eq_bind, Option.bind_eq_some_iff] at h ⊢
    obtain ⟨u, hu, rep, hrep, h⟩ := h
    exact ⟨u, hu, rep, foldlM_mono (fun _ _ _ hj => jump_add hj k) hrep, h⟩
  rw [Input.sweep] at h ⊢
  split at h
  · cases h
  · next hno =>
    rw [if_neg hno]
    simp only [Option.bind_eq_bind, Option.bind_eq_some_iff] at h ⊢
    obtain ⟨u, hu, h⟩ := h
    exact ⟨u, foldlM_mono hblock hu, h⟩

/-! ## The copy of the last pass -/

variable {belowTenth : Nat → Nat → Bool}

/-- An edge that is not copied: both ends have the same representative, and neither is it. -/
def Ignored (a : Input) (rep : List Nat) (e : Nat) : Prop :=
  ∃ u v, a.E[e]? = some u ∧ a.E[e + 1]? = some v ∧ rep.getD u 0 = rep.getD v 0 ∧
    rep.getD u 0 ≠ u ∧ rep.getD v 0 ≠ v

/-- Without room there is only ignoring. -/
theorem copyEdge_zero {eidx m : Nat} (h : Labelled a.Edge a.nV rep) (he : Pair a e)
    (hcopy : a.copyEdge 0 rep eidx e = some m) : Ignored a rep e := by
  obtain ⟨u, v, hu, hv, huv⟩ := he.exists_edge
  obtain ⟨hlu, hlv⟩ := edge_lt huv
  simp only [Input.copyEdge, hu, hv, getElem?_rep h hlu, getElem?_rep h hlv, Option.bind_eq_bind,
    Option.bind_some, Option.pure_def] at hcopy
  by_cases hign : rep.getD u 0 = rep.getD v 0 ∧ rep.getD u 0 ≠ u ∧ rep.getD v 0 ≠ v
  · exact ⟨u, v, hu, hv, hign⟩
  · rw [if_neg hign, if_neg (by omega)] at hcopy
    cases hcopy

theorem copyEdges_zero {es : List Nat} {eidx m : Nat} (h : Labelled a.Edge a.nV rep)
    (hes : ∀ e ∈ es, Pair a e) (hcopy : es.foldlM (a.copyEdge 0 rep) eidx = some m) :
    ∀ e ∈ es, Ignored a rep e := by
  induction es generalizing eidx with
  | nil => simp
  | cons e es ih =>
      rw [List.forall_mem_cons] at hes
      rw [List.foldlM_cons, Option.bind_eq_bind, Option.bind_eq_some_iff] at hcopy
      obtain ⟨k, hk, hcopy⟩ := hcopy
      rw [List.forall_mem_cons]
      exact ⟨copyEdge_zero h hes.1 hk, ih hes.2 hcopy⟩

theorem mem_places : e ∈ List.range' 0 ((a.nE + 1) / 2) 2 ↔ Pair a e := by
  have heven : a.nE % 2 = 0 := a.even
  rw [List.mem_range']
  constructor
  · intro h
    obtain ⟨k, hk, rfl⟩ := h
    exact ⟨by omega, by omega⟩
  · intro h
    have hodd := h.1
    have hlt := h.2
    exact ⟨e / 2, by omega, by omega⟩

/-- In every component an edge is at the vertex that represents it. -/
theorem exists_copied (h : Labelled a.Edge a.nV rep) (hjoined : ∀ e, Pair a e → Joined a rep e) :
    ∃ e, Pair a e ∧ ¬ Ignored a rep e := by
  obtain ⟨u, v, hu, hv, huv⟩ := (pair_zero a).exists_edge
  have hlu := (edge_lt huv).1
  have hleast := isLeast_of_joined h hjoined hlu
  cases hleast.1.cases_tail with
  | inl hself =>
      refine ⟨0, pair_zero a, fun hign => ?_⟩
      obtain ⟨u', v', hu', -, -, hne, -⟩ := hign
      cases hu.symm.trans hu'
      exact hne hself
  | inr hlast =>
      obtain ⟨c, hc, hedge⟩ := hlast
      have hroot : rep.getD (rep.getD u 0) 0 = rep.getD u 0 :=
        ((label_eq_iff hleast (isLeast_of_joined h hjoined (edge_lt hedge).2)).mpr hleast.1).symm
      obtain ⟨e, he, hends⟩ := hedge
      have hlen : e + 1 < a.nE := by
        cases hends with
        | inl h => exact (List.getElem?_eq_some_iff.mp h.2).1
        | inr h => exact (List.getElem?_eq_some_iff.mp h.2).1
      refine ⟨e, ⟨he, hlen⟩, fun hign => ?_⟩
      obtain ⟨u', v', hu', hv', -, hne, hne'⟩ := hign
      cases hends with
      | inl h =>
          cases h.2.symm.trans hv'
          exact hne' hroot
      | inr h =>
          cases h.1.symm.trans hu'
          exact hne hroot

/-- There is no copying all edges of which none has changed anything. -/
theorem condense_zero (htenth : ∀ n, 0 < n → belowTenth 0 n = true)
    (h : Labelled a.Edge a.nV s.rep) (hjoined : ∀ e, Pair a e → Joined a s.rep e)
    (hlive : s.num_live_edges = 0) (hexst : 0 < s.num_exst_edges) :
    a.condense belowTenth s = none := by
  rw [Option.eq_none_iff_forall_ne_some]
  intro _ hrun
  rw [Input.condense, hlive, if_pos (htenth _ hexst), Nat.zero_mul] at hrun
  simp only [Option.bind_eq_bind, Option.bind_eq_some_iff] at hrun
  obtain ⟨m, hm, _⟩ := hrun
  obtain ⟨e, he, hcopied⟩ := exists_copied h hjoined
  exact hcopied (copyEdges_zero h (fun e he => mem_places.mp he) hm e (mem_places.mpr he))

theorem sweep_of_pass {again : Bool} (h : a.pass belowTenth steps s = some (t, again)) :
    a.sweep steps s = some (t, again) ∧ a.condense belowTenth t = some () := by
  simp only [Input.pass, Option.bind_eq_bind, Option.bind_eq_some_iff, Option.pure_def] at h
  obtain ⟨⟨r, again'⟩, hr, _, hcond, h⟩ := h
  cases h
  exact ⟨hr, hcond⟩

/-- **The pass that would end the loop** asks for no room at all and copies an edge into it:
there is no result, whatever the edges. -/
theorem conn_eq_none (htenth : ∀ n, 0 < n → belowTenth 0 n = true) (h : Fits a)
    (fuel steps : Nat) : a.conn belowTenth fuel steps = none := by
  rw [Option.eq_none_iff_forall_ne_some]
  intro t hrun
  have hV := h.nV
  rw [Input.conn, if_neg (by omega)] at hrun
  have hkeep : ∀ s t again, Good a s → a.pass belowTenth steps s = some (t, again) → Good a t := by
    intro s t again hs ht
    obtain ⟨t', again', ht', hgood, -⟩ := sweep_ends h hs (Nat.le_add_left 3 steps)
    cases (sweep_add (sweep_of_pass ht).1 3).symm.trans ht'
    exact hgood
  obtain ⟨last, hgood, hlast⟩ := last_of_passes hkeep hrun (good_init a)
  obtain ⟨hsweep, hcond⟩ := sweep_of_pass hlast
  obtain ⟨t', again, ht', hgood', -, hend⟩ := sweep_ends h hgood (Nat.le_add_left 3 steps)
  cases (sweep_add hsweep 3).symm.trans ht'
  obtain ⟨hjoined, hlive, hexst⟩ := hend rfl
  rw [condense_zero htenth hgood'.labelled hjoined hlive hexst] at hcond
  cases hcond

/-- The main loop never ends with the right representatives: the sweeps do not have them, or the
last copy goes behind its memory. -/
theorem conn_never (htenth : ∀ n, 0 < n → belowTenth 0 n = true) (a : Input) :
    ¬ ∃ fuel steps t, a.conn belowTenth fuel steps = some t ∧ Correct a t := by
  intro h
  obtain ⟨fuel, steps, t, hrun, hcorrect⟩ := h
  have hfits : Fits a := by
    have hconn := hrun
    rw [Input.conn] at hconn
    split at hconn
    · cases hconn
    · next hV =>
      obtain ⟨last, -, hlast⟩ := last_of_passes (P := fun _ => True) (fun _ _ _ _ _ => trivial)
        hconn trivial
      exact fits_of_sweep (by omega) (sweep_of_pass hlast).1 hcorrect
  rw [conn_eq_none htenth hfits] at hrun
  cases hrun

/-- Four edges between two vertices. -/
def fourEdges : Input where
  max_id := 1
  E := [0, 1, 1, 0, 0, 1, 1, 0]
  pos := Nat.one_pos
  word := Nat.one_lt_two_pow (Nat.succ_ne_zero 30)
  ids := by simp
  even := rfl
  two := by simp

theorem fits_fourEdges : Fits fourEdges where
  nV := by decide
  some := by decide
  least := by decide
  aligned := Or.inl (by decide)

/-- A tenth of `exst`, in integers. -/
def belowTenthOf (live exst : Nat) : Bool := decide (10 * live < exst)

theorem conn_never_fourEdges :
    ¬ ∃ fuel steps t, fourEdges.conn belowTenthOf fuel steps = some t ∧ Correct fourEdges t :=
  conn_never (fun n hn => by simpa [belowTenthOf] using hn) fourEdges

/-- The representatives of the two are found, and copying the edges goes behind `new_E`. -/
theorem fourEdges_fails :
    (∃ fuel steps t, fourEdges.sweeps fuel steps = some t ∧ Correct fourEdges t) ∧
      ∀ fuel steps, fourEdges.conn belowTenthOf fuel steps = none :=
  ⟨(sweeps_correct_iff fourEdges).mpr fits_fourEdges,
    conn_eq_none (fun n hn => by simpa [belowTenthOf] using hn) fits_fourEdges⟩

end QStore.Graph.Conn
