import QStore.Operators.LVector
import QStore.Lib.Pull
import QStore.Qtype
import Mathlib.Data.List.Nodup
import Mathlib.Data.List.Perm.Basic

/-!
# QStore.Operators.Permute

`permute_to` and `permute_from` (`PERMUTE/lua/expander_permute_to.lua`,
`expander_permute_from.lua`, their specializers and kernels).

```
permute_to     y[p[i]] = x[i], into a file as long as x
permute_from   y[i] = x[p[i]], out of x as one array, by chunks of p
```

Both kernels stop with a status of -1 at an index that is not one of `x`, and
neither expander looks at the status. The generator of `permute_from` ends on a
chunk of `p` without elements by deleting two buffers, and without nulls there
is only one.
-/

namespace QStore.Operators

variable {α β : Type}

/-- A vector and, when it has nulls, its `nn` vector, cut into the same chunks. -/
structure NVector (α : Type) extends LVector α where
  nn : Option (List Bool)
  nn_length : ∀ b ∈ nn, b.length = elems.length

/-- The vector `p`. Both specializers refuse one that has nulls. -/
structure PVector extends LVector Int where
  qtype : Qtype

/-- The element types that both specializers take for `p`. -/
def permQtypes (numElements : Nat) : List Qtype :=
  if numElements ≤ 127 then [.I1, .I2, .I4, .I8]
  else if numElements ≤ 32767 then [.I1, .I2, .I4, .I8]
  else if numElements ≤ 2147483647 then [.I4, .I8]
  else [.I8]

/-! ## permute_to -/

/-- `permute_to`, the kernel: its status and what is in memory from `y` on. -/
def permuteToKernel (ny : Nat) : List (α × Int) → (Nat → α) → Int × (Nat → α)
  | [], y => (0, y)
  | (xval, pos) :: rest, y =>
      if pos < 0 then (-1, y)
      else if pos.toNat ≥ ny then (-1, y)
      else permuteToKernel ny rest (Function.update y pos.toNat xval)

/-- The loop of `expander_permute_to`, for at most `fuel` turns. -/
def permuteToLoop (x : LVector α) (p : LVector Int) (ny : Nat) :
    Nat → Nat → (Nat → α) → Option (Nat → α)
  | 0, _, _ => none
  | fuel + 1, chunkNum, y =>
      let xChunk := x.getChunk chunkNum
      let pChunk := p.getChunk chunkNum
      if xChunk.length ≠ pChunk.length then none
      else if xChunk.length = 0 then some y
      else
        let y := (permuteToKernel ny (xChunk.zip pChunk) y).2
        if xChunk.length < x.maxNumInChunk then some y
        else permuteToLoop x p ny fuel (chunkNum + 1) y

/-- `expander_permute_to`. The new file is mapped to memory that holds `file`; the
chunks of the output are as long as `optargs` or the configuration say. -/
def permuteTo (x : NVector α) (p : PVector) (file : Nat → α) (outMax : Nat) (hout : 0 < outMax) :
    Option (LVector α) :=
  let n := x.elems.length
  if x.nn.isSome then none
  else if n = 0 then none
  else if p.qtype ∉ permQtypes n then none
  else
    (permuteToLoop x.toLVector p.toLVector n (n + 1) 0 file).map fun y =>
      ⟨(List.range n).map y, outMax, hout⟩

/-! ## permute_from -/

/-- `permute_from`, the kernel, from entry `i` on. -/
def permuteFromKernel (x : List β) : List Int → Nat → (Nat → β) → Int × (Nat → β)
  | [], _, y => (0, y)
  | pos :: p, i, y =>
      if pos < 0 then (-1, y)
      else if h : pos.toNat < x.length then
        permuteFromKernel x p (i + 1) (Function.update y i x[pos.toNat])
      else (-1, y)

/-- `gen` of `expander_permute_from`: the elements of a chunk, each with what the
`nn` vector has for it. Its state is `l_chunk_num`. -/
def permuteFromGen (x : NVector α) (p : PVector) (zero : α) : Gen Nat (α × Bool) :=
  fun lChunkNum chunkNum =>
    if chunkNum ≠ lChunkNum then none
    else
      let pChunk := p.getChunk chunkNum
      if pChunk.length = 0 then
        -- `nn_ybuf:delete()`, and without nulls `nn_ybuf` is nil
        if x.nn.isSome then some ([], lChunkNum) else none
      else
        let y := (permuteFromKernel x.elems pChunk 0 fun _ => zero).2
        let nnY : Nat → Bool := match x.nn with
          | some nn => (permuteFromKernel nn pChunk 0 fun _ => false).2
          | none => fun _ => true
        some ((List.range pChunk.length).map fun i => (y i, nnY i), lChunkNum + 1)

/-- `expander_permute_from` gives a vector, and evaluated it is `z`. -/
structure PermutesFrom (x : NVector α) (p : PVector) (zero : α) (z : NVector α) : Prop where
  nonempty : x.elems.length ≠ 0
  qtype : p.qtype ∈ permQtypes x.elems.length
  evals : ∃ outs, Pulls (permuteFromGen x p zero) p.maxNumInChunk 0 0 outs ∧
    z.elems = outs.flatten.map Prod.fst ∧ z.nn = x.nn.map fun _ => outs.flatten.map Prod.snd
  maxNumInChunk : z.maxNumInChunk = p.maxNumInChunk

/-! ## what a permutation is for -/

/-- The entries of `p` are the positions of `n` elements, each once. -/
def PVector.IsPerm (p : PVector) (n : Nat) : Prop :=
  p.elems.Perm ((List.range n).map Int.ofNat)

/-- `pos` is a position of `n` elements. -/
def InRange (n : Nat) (pos : Int) : Prop := 0 ≤ pos ∧ pos.toNat < n

/-- A vector without nulls. -/
def LVector.noNulls (v : LVector α) : NVector α := { v with nn := none, nn_length := by simp }

/-- The two operators undo each other, report an index outside, and write to
nothing but their output. -/
structure Permutes (x : NVector α) (p : PVector) (zero : α) (file : Nat → α) (outMax : Nat)
    (hout : 0 < outMax) : Prop where
  from_to : p.IsPerm x.elems.length → ∃ y z, permuteTo x p file outMax hout = some y ∧
    PermutesFrom y.noNulls p zero z ∧ z.elems = x.elems ∧ z.nn = none
  to_from : p.IsPerm x.elems.length → ∃ z y, PermutesFrom x p zero z ∧
    permuteTo z p file outMax hout = some y ∧ y.elems = x.elems
  reports : (∃ pos ∈ p.elems, ¬ InRange x.elems.length pos) →
    permuteTo x p file outMax hout = none ∧ ∀ z, ¬ PermutesFrom x p zero z
  to_inside : ∀ c {y : Nat → α} {i}, x.elems.length ≤ i →
    (permuteToKernel x.elems.length ((x.getChunk c).zip (p.getChunk c)) y).2 i = y i
  from_inside : ∀ c {y : Nat → α} {i}, p.maxNumInChunk ≤ i →
    (permuteFromKernel x.elems (p.getChunk c) 0 y).2 i = y i

/-! ## the kernels -/

variable {x : LVector α} {p : LVector Int} {L : List (α × Int)} {ps : List Int} {xs : List β}
variable {ny i c : Nat} {y : Nat → α}

/-- Every entry of `L` at the place it names. -/
def scatter (y : Nat → α) (L : List (α × Int)) : Nat → α :=
  L.foldl (fun y e => Function.update y e.2.toNat e.1) y

theorem scatter_append (L' : List (α × Int)) : scatter y (L ++ L') = scatter (scatter y L) L' :=
  List.foldl_append

theorem scatter_of_notMem {k : Nat} (h : k ∉ L.map fun e => e.2.toNat) : scatter y L k = y k := by
  induction L generalizing y with
  | nil => rfl
  | cons e L ih =>
      simp only [List.map_cons, List.mem_cons, not_or] at h
      rw [scatter, List.foldl_cons]
      exact (ih h.2).trans (Function.update_of_ne h.1 ..)

/-- Where no place is named twice, each holds its own entry. -/
theorem scatter_of_mem (hnd : (L.map fun e => e.2.toNat).Nodup) {e : α × Int} (he : e ∈ L) :
    scatter y L e.2.toNat = e.1 := by
  induction L generalizing y with
  | nil => simp at he
  | cons d L ih =>
      rw [List.map_cons, List.nodup_cons] at hnd
      rw [scatter, List.foldl_cons]
      cases List.mem_cons.mp he with
      | inl h =>
          subst h
          exact (scatter_of_notMem hnd.1).trans (Function.update_self ..)
      | inr h => exact ih hnd.2 h

theorem permuteToKernel_eq (h : ∀ e ∈ L, InRange ny e.2) :
    permuteToKernel ny L y = (0, scatter y L) := by
  induction L generalizing y with
  | nil => rfl
  | cons e L ih =>
      have he := h e List.mem_cons_self
      rw [permuteToKernel, if_neg (by have := he.1; omega), if_neg (by have := he.2; omega),
        ih fun d hd => h d (List.mem_cons_of_mem _ hd)]
      rfl

/-- **Nothing outside**: the kernel writes to the first `ny` places only. -/
theorem permuteToKernel_outside (hi : ny ≤ i) : (permuteToKernel ny L y).2 i = y i := by
  induction L generalizing y with
  | nil => rfl
  | cons e L ih =>
      rw [permuteToKernel]
      split
      · rfl
      · split
        · rfl
        · rw [ih, Function.update_of_ne (by omega)]

theorem permuteFromKernel_outside {y : Nat → β} {k : Nat} (hk : k < i ∨ i + ps.length ≤ k) :
    (permuteFromKernel xs ps i y).2 k = y k := by
  induction ps generalizing i y with
  | nil => rfl
  | cons pos ps ih =>
      rw [List.length_cons] at hk
      rw [permuteFromKernel]
      split
      · rfl
      · split
        · rw [ih (by omega), Function.update_of_ne (by omega)]
        · rfl

/-- What the kernel gathers. -/
theorem permuteFromKernel_getElem (z : β) {y : Nat → β} {k : Nat}
    (h : ∀ pos ∈ ps, InRange xs.length pos) (hk : k < ps.length) :
    (permuteFromKernel xs ps i y).2 (i + k) = xs.getD (ps[k]).toNat z := by
  induction ps generalizing i k y with
  | nil => simp at hk
  | cons pos ps ih =>
      have hpos := h pos List.mem_cons_self
      rw [permuteFromKernel, if_neg (by have := hpos.1; omega), dif_pos hpos.2]
      cases k with
      | zero =>
          rw [permuteFromKernel_outside (by omega)]
          simp [List.getD_eq_getElem?_getD, List.getElem?_eq_getElem hpos.2]
      | succ k =>
          have hk' : k < ps.length := Nat.lt_of_succ_lt_succ hk
          have hlt := hpos.2
          have hnext := ih (i := i + 1) (y := Function.update y i xs[pos.toNat]) 
            (fun q hq => h q (List.mem_cons_of_mem _ hq)) hk'
          rw [Nat.add_right_comm, Nat.add_assoc] at hnext
          simpa using hnext

/-! ## the loop of `permute_to` -/

/-- The chunks of `x` up to the first short one are as long as those of `p`. -/
def SameChunks (x : LVector α) (p : LVector Int) : Prop :=
  ∀ c, c * x.maxNumInChunk ≤ x.elems.length → (x.getChunk c).length = (p.getChunk c).length

theorem length_getChunk_of_le (h : c * x.maxNumInChunk ≤ x.elems.length)
    (hfull : x.maxNumInChunk ≤ (x.getChunk c).length) :
    (c + 1) * x.maxNumInChunk ≤ x.elems.length := by
  rw [LVector.length_getChunk] at hfull
  rw [Nat.add_mul, Nat.one_mul]
  omega

/-- From chunk `c` on the loop runs to its end, and with every index in range it
has put the rest of `x` in place. -/
theorem permuteToLoop_eq_some (ny : Nat) {fuel : Nat} (hs : SameChunks x p)
    (hc : c * x.maxNumInChunk ≤ x.elems.length)
    (hfuel : x.elems.length - c * x.maxNumInChunk < fuel) :
    ∃ y', permuteToLoop x p ny fuel c y = some y' ∧ ((∀ pos ∈ p.elems, InRange ny pos) →
      y' = scatter y ((x.elems.drop (c * x.maxNumInChunk)).zip
        (p.elems.drop (c * p.maxNumInChunk)))) := by
  induction fuel generalizing c y with
  | zero => omega
  | succ fuel ih =>
      have hlen := hs c hc
      have hcut : (x.elems.drop (c * x.maxNumInChunk)).zip (p.elems.drop (c * p.maxNumInChunk)) =
          (x.getChunk c).zip (p.getChunk c) ++ (x.elems.drop ((c + 1) * x.maxNumInChunk)).zip
            (p.elems.drop ((c + 1) * p.maxNumInChunk)) := by
        rw [← List.zip_append hlen, LVector.getChunk, LVector.getChunk, page_append_drop,
          page_append_drop]
      rw [permuteToLoop]
      dsimp only
      rw [if_neg (not_not.mpr hlen)]
      by_cases h0 : (x.getChunk c).length = 0
      · refine ⟨y, if_pos h0, fun _ => ?_⟩
        have hend : x.elems.drop (c * x.maxNumInChunk) = [] := by
          rw [LVector.length_getChunk] at h0
          have := x.pos
          exact List.drop_eq_nil_of_le (by omega)
        rw [hend, List.zip_nil_left]
        rfl
      · rw [if_neg h0]
        by_cases hshort : (x.getChunk c).length < x.maxNumInChunk
        · refine ⟨_, if_pos hshort, fun hr => ?_⟩
          have hmem : ∀ e ∈ (x.getChunk c).zip (p.getChunk c), InRange ny e.2 := fun e he =>
            hr _ (List.mem_of_mem_drop (List.mem_of_mem_take (List.of_mem_zip he).2))
          rw [permuteToKernel_eq hmem, hcut, drop_eq_nil_of_short_page hshort, List.zip_nil_left,
            List.append_nil]
        · rw [if_neg hshort]
          have hnext := length_getChunk_of_le hc (not_lt.mp hshort)
          obtain ⟨y', hy', hput⟩ := ih (y := (permuteToKernel ny
            ((x.getChunk c).zip (p.getChunk c)) y).2) hnext
            (by have := x.pos; rw [Nat.add_mul, Nat.one_mul] at hnext ⊢; omega)
          refine ⟨y', hy', fun hr => ?_⟩
          have hmem : ∀ e ∈ (x.getChunk c).zip (p.getChunk c), InRange ny e.2 := fun e he =>
            hr _ (List.mem_of_mem_drop (List.mem_of_mem_take (List.of_mem_zip he).2))
          rw [hput hr, permuteToKernel_eq hmem, hcut, scatter_append]

/-- A chunk that differs in length is reached. -/
theorem permuteToLoop_eq_none {fuel d : Nat} (hcd : c ≤ d)
    (hd : d * x.maxNumInChunk ≤ x.elems.length)
    (hne : (x.getChunk d).length ≠ (p.getChunk d).length) :
    permuteToLoop x p ny fuel c y = none := by
  induction fuel generalizing c y with
  | zero => rfl
  | succ fuel ih =>
      rw [permuteToLoop]
      dsimp only
      by_cases hlen : (x.getChunk c).length = (p.getChunk c).length
      · have hlt : c < d := lt_of_le_of_ne hcd fun h => hne (h ▸ hlen)
        have hnext := (Nat.mul_le_mul_right x.maxNumInChunk (show c + 1 ≤ d from hlt)).trans hd
        have hfull : (x.getChunk c).length = x.maxNumInChunk := by
          rw [Nat.add_mul, Nat.one_mul] at hnext
          rw [LVector.length_getChunk]
          omega
        have := x.pos
        rw [if_neg (not_not.mpr hlen), if_neg (by omega), if_neg (by omega)]
        exact ih hlt
      · rw [if_pos hlen]

/-- **`permute_to`** refuses on what it can see of its input, and on nothing else. -/
structure ToAccepts (x : NVector α) (p : PVector) : Prop where
  nn : x.nn = none
  nonempty : x.elems.length ≠ 0
  qtype : p.qtype ∈ permQtypes x.elems.length
  chunks : SameChunks x.toLVector p.toLVector

section

variable {x : NVector α} {p : PVector} {zero : α} {file : Nat → α} {outMax : Nat}
variable {hout : 0 < outMax} {z : NVector α} {y : LVector α} {c : Nat}

theorem permuteTo_eq_some (file : Nat → α) (hout : 0 < outMax) (h : ToAccepts x p) :
    ∃ y, permuteTo x p file outMax hout = some y ∧
    ((∀ pos ∈ p.elems, InRange x.elems.length pos) → y.elems =
      (List.range x.elems.length).map (scatter file (x.elems.zip p.elems))) := by
  obtain ⟨y', hy', hput⟩ := permuteToLoop_eq_some (y := file) (c := 0) x.elems.length h.chunks
    (by simp) (Nat.lt_succ_of_le (Nat.sub_le ..))
  refine ⟨⟨(List.range x.elems.length).map y', outMax, hout⟩, ?_, fun hr => ?_⟩
  · simp [permuteTo, h.nn, h.nonempty, h.qtype, hy']
  · simpa using congrArg (fun y => (List.range x.elems.length).map y) (hput hr)

theorem permuteTo_eq_none (h : ¬ ToAccepts x p) : permuteTo x p file outMax hout = none := by
  unfold permuteTo
  by_cases hnn : x.nn.isSome
  · simp [hnn]
  · by_cases h0 : x.elems.length = 0
    · simp [hnn, h0]
    · by_cases hq : p.qtype ∈ permQtypes x.elems.length
      · have hs : ¬ SameChunks x.toLVector p.toLVector := fun hs =>
          h ⟨by simpa using hnn, h0, hq, hs⟩
        simp only [SameChunks, not_forall] at hs
        obtain ⟨d, hd, hne⟩ := hs
        simp [hnn, h0, hq, permuteToLoop_eq_none (Nat.zero_le d) hd hne]
      · simp [hnn, h0, hq]

theorem permuteTo_isSome_iff : (permuteTo x p file outMax hout).isSome ↔ ToAccepts x p := by
  by_cases h : ToAccepts x p
  · obtain ⟨y, hy, -⟩ := permuteTo_eq_some file hout h
    simp [hy, h]
  · simp [permuteTo_eq_none h, h]

/-! ## the generator of `permute_from` -/

/-- The element of `x` at `pos`, and what its `nn` vector has there. -/
def gather (x : NVector α) (zero : α) (pos : Int) : α × Bool :=
  (x.elems.getD pos.toNat zero, (x.nn.map fun nn => nn.getD pos.toNat false).getD true)

theorem permuteFromGen_chunk (zero : α) (hne : (p.getChunk c).length ≠ 0) : ∃ out,
    permuteFromGen x p zero c c = some (out, c + 1) ∧ out.length = (p.getChunk c).length ∧
    ((∀ pos ∈ p.elems, InRange x.elems.length pos) → out = (p.getChunk c).map (gather x zero)) := by
  refine ⟨_, by rw [permuteFromGen, if_neg (not_not.mpr rfl)]; exact if_neg hne, by simp,
    fun hr => ?_⟩
  have hin : ∀ pos ∈ p.getChunk c, InRange x.elems.length pos := fun pos hpos =>
    hr pos (List.mem_of_mem_drop (List.mem_of_mem_take hpos))
  refine List.ext_getElem (by simp) fun i h1 h2 => ?_
  rw [List.length_map] at h2
  have hval : (permuteFromKernel x.elems (p.getChunk c) 0 fun _ => zero).2 (0 + i) = _ :=
    permuteFromKernel_getElem zero hin h2
  rw [Nat.zero_add] at hval
  simp only [List.getElem_map, List.getElem_range, gather, hval]
  cases hnn : x.nn with
  | none => rfl
  | some nn =>
      rw [← x.nn_length nn hnn] at hin
      have hbit : (permuteFromKernel nn (p.getChunk c) 0 fun _ => false).2 (0 + i) = _ :=
        permuteFromKernel_getElem false hin h2
      rw [Nat.zero_add] at hbit
      simp [hbit]

/-- From chunk `c` on the generator gives the rest, if it gets past the last. -/
theorem pulls_permuteFromGen (zero : α)
    (hend : x.nn.isSome ∨ ¬ p.maxNumInChunk ∣ p.elems.length)
    (hc : c * p.maxNumInChunk ≤ p.elems.length) :
    ∃ outs, Pulls (permuteFromGen x p zero) p.maxNumInChunk c c outs ∧
      ((∀ pos ∈ p.elems, InRange x.elems.length pos) →
        outs.flatten = (p.elems.drop (c * p.maxNumInChunk)).map (gather x zero)) := by
  have hpos := p.pos
  induction hrest : p.elems.length - c * p.maxNumInChunk using Nat.strongRecOn generalizing c with
  | _ rest ih =>
      subst hrest
      by_cases h0 : (p.getChunk c).length = 0
      · have hlen : p.elems.length = c * p.maxNumInChunk := by
          rw [LVector.length_getChunk] at h0
          omega
        have hnn : x.nn.isSome := hend.resolve_right fun h => h (hlen ▸ Nat.dvd_mul_left ..)
        have hgen : permuteFromGen x p zero c c = some ([], c) :=
          (if_neg (not_not.mpr rfl)).trans ((if_pos h0).trans (if_pos hnn))
        exact ⟨[[]], .last hgen (by simpa using hpos.ne), fun _ => by simp [← hlen]⟩
      · obtain ⟨out, hgen, hout, heq⟩ := permuteFromGen_chunk (x := x) zero h0
        by_cases hfull : (p.getChunk c).length < p.maxNumInChunk
        · refine ⟨[out], .last hgen (by omega), fun hr => ?_⟩
          have hcut := page_append_drop (D := p.elems) (p := p.maxNumInChunk) (i := c)
          rw [drop_eq_nil_of_short_page hfull, List.append_nil] at hcut
          rw [List.flatten_singleton, heq hr, ← hcut]
          rfl
        · have hnext := length_getChunk_of_le hc (not_lt.mp hfull)
          obtain ⟨outs, hp, hflat⟩ := ih (p.elems.length - (c + 1) * p.maxNumInChunk)
            (by rw [Nat.add_mul, Nat.one_mul] at hnext ⊢; omega) hnext rfl
          refine ⟨out :: outs, .more hgen ?_ hp, fun hr => ?_⟩
          · rw [LVector.length_getChunk] at hout hfull
            omega
          · rw [List.flatten_cons, heq hr, hflat hr, ← List.map_append, LVector.getChunk,
              page_append_drop]

/-- Without nulls a whole number of chunks ends on an error. -/
theorem not_pulls_permuteFromGen (hnn : x.nn = none) (hd : p.maxNumInChunk ∣ p.elems.length)
    {outs : List (List (α × Bool))} :
    ¬ Pulls (permuteFromGen x p zero) p.maxNumInChunk 0 0 outs := by
  obtain ⟨m, hm⟩ := hd
  have hlen : ∀ c ≤ m, (p.getChunk c).length = min p.maxNumInChunk ((m - c) * p.maxNumInChunk) := by
    intro c _
    rw [LVector.length_getChunk, hm, Nat.mul_comm p.maxNumInChunk m, Nat.sub_mul]
  refine not_pulls_of_fail (fun s k => s = k) (m := m) (fun s k out s' hs hk hg => ?_)
    (fun s hs => ?_) rfl (Nat.zero_le m)
  · subst hs
    have hfull : (p.getChunk s).length = p.maxNumInChunk := by
      rw [hlen s hk.le, Nat.min_eq_left]
      exact Nat.le_mul_of_pos_left _ (by omega)
    obtain ⟨out', hgen, hout, -⟩ := permuteFromGen_chunk (x := x) (p := p) (c := s) zero
      (by have := p.pos; omega)
    rw [hgen, Option.some.injEq, Prod.mk.injEq] at hg
    obtain ⟨rfl, rfl⟩ := hg
    exact ⟨hout.trans hfull, rfl⟩
  · subst hs
    have hempty : (p.getChunk s).length = 0 := by simp [hlen s le_rfl]
    exact (if_neg (not_not.mpr rfl)).trans ((if_pos hempty).trans (if_neg (by simp [hnn])))

/-- **`permute_from`** refuses on what it can see of its input, and fails where
`p` ends. -/
structure FromAccepts (x : NVector α) (p : PVector) : Prop where
  nonempty : x.elems.length ≠ 0
  qtype : p.qtype ∈ permQtypes x.elems.length
  ends : x.nn.isSome ∨ ¬ p.maxNumInChunk ∣ p.elems.length

theorem PermutesFrom.accepts (h : PermutesFrom x p zero z) : FromAccepts x p := by
  refine ⟨h.nonempty, h.qtype, ?_⟩
  by_contra hno
  rw [not_or, not_not, Option.not_isSome_iff_eq_none] at hno
  obtain ⟨outs, hp, -⟩ := h.evals
  exact not_pulls_permuteFromGen hno.1 hno.2 hp

theorem permutesFrom_of_accepts (zero : α) (h : FromAccepts x p) : ∃ z, PermutesFrom x p zero z ∧
    ((∀ pos ∈ p.elems, InRange x.elems.length pos) →
      z.elems = p.elems.map fun pos => x.elems.getD pos.toNat zero) := by
  obtain ⟨outs, hp, hflat⟩ := pulls_permuteFromGen (c := 0) zero h.ends (by simp)
  let z : NVector α := {
    elems := outs.flatten.map Prod.fst, maxNumInChunk := p.maxNumInChunk, pos := p.pos
    nn := x.nn.map fun _ => outs.flatten.map Prod.snd
    nn_length := by
      intro b hb
      obtain ⟨_, _, rfl⟩ := Option.map_eq_some_iff.mp hb
      rw [List.length_map, List.length_map] }
  refine ⟨z, ⟨h.nonempty, h.qtype, ⟨outs, hp, rfl, rfl⟩, rfl⟩, fun hr => ?_⟩
  have hz : z.elems = outs.flatten.map Prod.fst := rfl
  rw [hz, hflat hr]
  simp [gather, Function.comp_def]

/-! ## there and back -/

theorem PVector.IsPerm.length {n : Nat} (h : p.IsPerm n) : p.elems.length = n := by
  simpa using h.length_eq

theorem PVector.IsPerm.mem_iff {n : Nat} (h : p.IsPerm n) {pos : Int} :
    pos ∈ p.elems ↔ InRange n pos := by
  rw [List.Perm.mem_iff h, List.mem_map]
  constructor
  · intro ⟨j, hj, hpos⟩
    subst hpos
    exact ⟨Int.natCast_nonneg j, List.mem_range.mp hj⟩
  · intro hpos
    exact ⟨pos.toNat, List.mem_range.mpr hpos.2, Int.toNat_of_nonneg hpos.1⟩

theorem PVector.IsPerm.nodup {n : Nat} (h : p.IsPerm n) : (p.elems.map Int.toNat).Nodup := by
  have hperm := List.Perm.map Int.toNat h
  rw [List.map_map, show Int.toNat ∘ Int.ofNat = id from rfl, List.map_id] at hperm
  exact hperm.nodup_iff.mpr List.nodup_range

/-- The places that a permutation names, with any elements. -/
theorem PVector.IsPerm.places {n : Nat} (h : p.IsPerm n) {xs : List α} (hn : xs.length = n) :
    ((xs.zip p.elems).map fun e => e.2.toNat).Nodup := by
  have hmap : (xs.zip p.elems).map (fun e => e.2.toNat) = p.elems.map Int.toNat := by
    have hsnd : (xs.zip p.elems).map Prod.snd = p.elems :=
      List.map_snd_zip (by rw [hn, h.length])
    conv_rhs => rw [← hsnd, List.map_map]
    rfl
  rw [hmap]
  exact h.nodup

/-- What is scattered is found where it was put. -/
theorem PVector.IsPerm.scatter_getElem (file : Nat → α) {n : Nat} (h : p.IsPerm n) {xs : List α}
    (hn : xs.length = n) {i : Nat} (hi : i < xs.length) (hp : i < p.elems.length) :
    scatter file (xs.zip p.elems) (p.elems[i]).toNat = xs[i] := by
  have hi' : i < (xs.zip p.elems).length := by rw [List.length_zip]; omega
  have hmem : (xs[i], p.elems[i]) ∈ xs.zip p.elems := by
    rw [← List.getElem_zip (h := hi')]
    exact List.getElem_mem _
  exact scatter_of_mem (h.places hn) hmem

/-- **Scatter, then gather.** -/
theorem from_permuteTo (h : ToAccepts x p) (hp : p.IsPerm x.elems.length)
    (hend : ¬ p.maxNumInChunk ∣ p.elems.length) : ∃ y z, permuteTo x p file outMax hout = some y ∧
      PermutesFrom y.noNulls p zero z ∧ z.elems = x.elems ∧ z.nn = none := by
  have hr : ∀ pos ∈ p.elems, InRange x.elems.length pos := fun pos => hp.mem_iff.mp
  obtain ⟨y, hy, hval⟩ := permuteTo_eq_some file hout h
  have hlen : y.noNulls.elems.length = x.elems.length := by
    rw [LVector.noNulls, hval hr, List.length_map, List.length_range]
  obtain ⟨z, hz, hzval⟩ := permutesFrom_of_accepts (x := y.noNulls) (p := p) zero
    ⟨hlen ▸ h.nonempty, hlen ▸ h.qtype, .inr hend⟩
  refine ⟨y, z, hy, hz, ?_, ?_⟩
  · rw [hzval (by rwa [hlen])]
    refine List.ext_getElem (by simp [hp.length]) fun i h1 h2 => ?_
    have hi : i < p.elems.length := by rwa [hp.length]
    have hpos := (hr _ (List.getElem_mem hi)).2
    have hmap : y.noNulls.elems =
        (List.range x.elems.length).map (scatter file (x.elems.zip p.elems)) := hval hr
    simp only [List.getElem_map, hmap, List.getD_eq_getElem?_getD, List.getElem?_map,
      List.getElem?_range hpos, Option.map_some, Option.getD_some]
    exact hp.scatter_getElem file rfl h2 hi
  · obtain ⟨outs, -, -, hnn⟩ := hz.evals
    exact hnn

/-- **Gather, then scatter.** -/
theorem to_permutesFrom (h : ToAccepts x p) (hp : p.IsPerm x.elems.length)
    (hend : ¬ p.maxNumInChunk ∣ p.elems.length) : ∃ z y, PermutesFrom x p zero z ∧
      permuteTo z p file outMax hout = some y ∧ y.elems = x.elems := by
  have hr : ∀ pos ∈ p.elems, InRange x.elems.length pos := fun pos => hp.mem_iff.mp
  obtain ⟨z, hz, hzval⟩ := permutesFrom_of_accepts (x := x) (p := p) zero
    ⟨h.nonempty, h.qtype, .inr hend⟩
  have hmap := hzval hr
  have hlen : z.elems.length = x.elems.length := by rw [hmap, List.length_map, hp.length]
  have hnn : z.nn = none := by
    obtain ⟨outs, -, -, hnn⟩ := hz.evals
    rw [hnn, h.nn, Option.map_none]
  have hsame : SameChunks z.toLVector p.toLVector := fun c _ => by
    rw [LVector.length_getChunk, LVector.length_getChunk, hz.maxNumInChunk, hlen, hp.length]
  obtain ⟨y, hy, hval⟩ := permuteTo_eq_some (x := z) (p := p) file hout
    ⟨hnn, hlen ▸ h.nonempty, hlen ▸ h.qtype, hsame⟩
  refine ⟨z, y, hz, hy, ?_⟩
  rw [hval (by rwa [hlen])]
  refine List.ext_getElem (by simp [hlen]) fun j h1 h2 => ?_
  -- place `j` is named by the entry of `p` that is `j`
  have hj : (j : Int) ∈ p.elems := hp.mem_iff.mpr ⟨Int.natCast_nonneg j, h2⟩
  obtain ⟨i, hi, hij⟩ := List.getElem_of_mem hj
  have hiz : i < z.elems.length := by rwa [hlen, ← hp.length]
  have hput := hp.scatter_getElem file hlen hiz hi
  rw [hij, Int.toNat_natCast] at hput
  rw [List.getElem_map, List.getElem_range, hput]
  simp [hmap, hij, List.getElem?_eq_getElem h2]

/-- **When the operators do what they are for.** -/
theorem permutes_iff (x : NVector α) (p : PVector) (zero : α) (file : Nat → α) (outMax : Nat)
    (houtMax : 0 < outMax) : Permutes x p zero file outMax houtMax ↔
      (p.IsPerm x.elems.length → ToAccepts x p ∧ ¬ p.maxNumInChunk ∣ p.elems.length) ∧
      ((∃ pos ∈ p.elems, ¬ InRange x.elems.length pos) → ¬ ToAccepts x p ∧ ¬ FromAccepts x p) := by
  constructor
  · intro h
    refine ⟨fun hp => ?_, fun hout => ?_⟩
    · obtain ⟨y, z, hy, hz, -⟩ := h.from_to hp
      refine ⟨permuteTo_isSome_iff.mp (Option.isSome_of_mem hy), ?_⟩
      exact hz.accepts.ends.resolve_left (by simp [LVector.noNulls])
    · obtain ⟨hto, hfrom⟩ := h.reports hout
      refine ⟨fun ha => ?_, fun ha => ?_⟩
      · obtain ⟨y, hy, -⟩ := permuteTo_eq_some file houtMax ha
        simp [hto] at hy
      · obtain ⟨z, hz, -⟩ := permutesFrom_of_accepts zero ha
        exact hfrom z hz
  · intro ⟨hperm, hbad⟩
    refine ⟨fun hp => ?_, fun hp => ?_, fun hout => ?_, fun c => permuteToKernel_outside,
      fun c y i hi => permuteFromKernel_outside (.inr ?_)⟩
    · exact from_permuteTo (hperm hp).1 hp (hperm hp).2
    · exact to_permutesFrom (hperm hp).1 hp (hperm hp).2
    · exact ⟨permuteTo_eq_none (hbad hout).1, fun z hz => (hbad hout).2 hz.accepts⟩
    · rw [Nat.zero_add]
      exact length_page_le.trans hi

/-- The positions of 70 elements, the last of them first. -/
def lastFirst : PVector where
  elems := (List.range 70).reverse.map Int.ofNat
  maxNumInChunk := 64
  pos := sixtyFour_pos
  qtype := .I4

theorem lastFirst_isPerm : lastFirst.IsPerm 70 := (List.reverse_perm _).map _

/-- Two chunks are turned around. -/
theorem permutes_lastFirst : lastFirst.IsPerm 70 ∧ Permutes
    ({ elems := (List.range 70).map (10 * ·), maxNumInChunk := 64, pos := sixtyFour_pos } :
      LVector Nat).noNulls lastFirst 0 (fun _ => 0) 64 sixtyFour_pos := by
  refine ⟨lastFirst_isPerm, (permutes_iff _ _ _ _ _ sixtyFour_pos).mpr
    ⟨fun _ => ⟨⟨rfl, ?_, ?_, fun c _ => ?_⟩, ?_⟩, ?_⟩⟩
  · simp [LVector.noNulls]
  · simp [permQtypes, LVector.noNulls, lastFirst]
  · simp [LVector.length_getChunk, LVector.noNulls, lastFirst]
  · simp [lastFirst]
  · rintro ⟨pos, hpos, hr⟩
    simp only [lastFirst, List.mem_map, List.mem_reverse, List.mem_range] at hpos
    obtain ⟨i, hi, rfl⟩ := hpos
    exact absurd ⟨Int.natCast_nonneg i, by simpa [LVector.noNulls] using hi⟩ hr

/-- One element, and an index past it: neither operator reports it. -/
theorem permutes_fails : ¬ Permutes
    ({ elems := [10], maxNumInChunk := 64, pos := sixtyFour_pos } : LVector Nat).noNulls
    { elems := [1], maxNumInChunk := 64, pos := sixtyFour_pos, qtype := .I4 }
    0 (fun _ => 0) 64 sixtyFour_pos := by
  intro h
  have hout := (h.reports ⟨1, List.mem_singleton_self 1, fun hr =>
    absurd hr.2 (by simp [LVector.noNulls])⟩).1
  obtain ⟨y, hy, -⟩ := permuteTo_eq_some (fun _ => (0 : Nat)) sixtyFour_pos
    (x := ({ elems := [10], maxNumInChunk := 64, pos := sixtyFour_pos } : LVector Nat).noNulls)
    (p := { elems := [1], maxNumInChunk := 64, pos := sixtyFour_pos, qtype := .I4 })
    ⟨rfl, Nat.one_ne_zero, by simp [permQtypes, LVector.noNulls], fun c _ => by
      rw [LVector.length_getChunk, LVector.length_getChunk]
      rfl⟩
  rw [hout] at hy
  cases hy

end

end QStore.Operators
