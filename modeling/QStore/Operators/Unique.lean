import QStore.Operators.LVector
import QStore.Lib.Pull
import QStore.Lib.RunLength

/-!
# QStore.Operators.Unique

`unique` (`UNIQUE/lua/expander_unique.lua` and `unique.tmpl`): the runs of a
sorted or grouped vector, as two vectors of values and counts.

```
kernel     one input chunk, from in_idx on, into the output buffers
generator  input chunks until the output overflows or the input ends
```

A call that ends for want of input does not count itself: should the buffers be
full just then, the next call finds the wrong chunk number.
-/

namespace QStore.Operators

variable {α : Type}

/-- What the kernel leaves: `val` and `cnt` up to `num_val_buf`, and where it
stopped. -/
structure Kernel (α : Type) where
  inIdx : Nat
  out : List (α × Nat)
  overflow : Bool

/-- The loop of the kernel over what is left of its input. -/
def uniqueLoop [BEq α] (szValBuf : Nat) : List α → Nat → List (α × Nat) → Kernel α
  | [], i, out => ⟨i, out, false⟩
  | inVal :: rest, i, out =>
      match out.getLast? with
      | none => uniqueLoop szValBuf rest (i + 1) [(inVal, 1)]
      | some (currVal, cnt) =>
          if inVal == currVal then
            uniqueLoop szValBuf rest (i + 1) (out.dropLast ++ [(currVal, cnt + 1)])
          else if out.length < szValBuf then
            uniqueLoop szValBuf rest (i + 1) (out ++ [(inVal, 1)])
          else ⟨i, out, true⟩

/-- `unique_…`, the kernel. `none`: a negative status. -/
def uniqueKernel [BEq α] (input : List α) (inIdx : Nat) (out : List (α × Nat))
    (szValBuf : Nat) : Option (Kernel α) :=
  if input.length = 0 then none
  else if out.length > szValBuf then none
  else some (uniqueLoop szValBuf (input.drop inIdx) inIdx out)

/-- What the generators keep between calls. `in_buf` is `nil` where `inBuf` is
empty, and `in_len` is its length. -/
structure UniqueState (α : Type) where
  inBuf : List α
  inIdx : Nat
  inChunkNum : Nat
  lChunkNum : Nat

/-- Before the first call. -/
def uniqueStart : UniqueState α := ⟨[], 0, 0, 0⟩

/-- Get access to input data. -/
def getInput (a : LVector α) (s : UniqueState α) : UniqueState α :=
  if s.inBuf.isEmpty then { s with inBuf := a.getChunk s.inChunkNum, inIdx := 0 }
  else if s.inBuf.length = s.inIdx then
    if s.inBuf.length < a.maxNumInChunk then { s with inBuf := [] }
    else { s with inBuf := a.getChunk (s.inChunkNum + 1), inIdx := 0,
                  inChunkNum := s.inChunkNum + 1 }
  else s

/-- `while ( true )` of the generator, for at most `fuel` turns. -/
def uniqueWhile [BEq α] (a : LVector α) (szValBuf : Nat) :
    Nat → UniqueState α → List (α × Nat) → Option (List (α × Nat) × UniqueState α)
  | 0, _, _ => none
  | fuel + 1, s, out =>
      let s := getInput a s
      if s.inBuf.isEmpty then some (out, s)
      else
        (uniqueKernel s.inBuf s.inIdx out szValBuf).bind fun k =>
          let s := { s with inIdx := k.inIdx }
          if k.overflow then some (k.out, { s with lChunkNum := s.lChunkNum + 1 })
          else uniqueWhile a szValBuf fuel s k.out

/-- `gen`, of the values and the counts together. A turn of its loop takes an
element at least, or is the last. -/
def uniqueGen [BEq α] (a : LVector α) (szValBuf : Nat) : Gen (UniqueState α) (α × Nat) :=
  fun s chunkNum =>
    if chunkNum ≠ s.lChunkNum then none
    else uniqueWhile a szValBuf (a.elems.length + 1) s []

variable {a : LVector α} {s t : UniqueState α} {out : List (α × Nat)} {xs rest : List α}
  {sz i k : Nat}

/-! ## the input that is left -/

/-- The state holds a chunk of the input, with `rest` from the cursor on. -/
structure Holds (a : LVector α) (s : UniqueState α) (rest : List α) : Prop where
  chunk : s.inBuf = a.getChunk s.inChunkNum
  nonempty : s.inBuf ≠ []
  idx : s.inIdx ≤ s.inBuf.length
  rest : rest = s.inBuf.drop s.inIdx ++ a.elems.drop ((s.inChunkNum + 1) * a.maxNumInChunk)

/-- Before the first chunk, or in one. -/
def Left (a : LVector α) (s : UniqueState α) (rest : List α) : Prop :=
  (s.inBuf = [] ∧ s.inChunkNum = 0 ∧ rest = a.elems) ∨ Holds a s rest

theorem getInput_lChunkNum : (getInput a s).lChunkNum = s.lChunkNum := by
  unfold getInput
  split
  · rfl
  · split
    · split <;> rfl
    · rfl

/-- A fetched chunk, with the entries from its start on. -/
theorem holds_getChunk {c l : Nat} (hne : a.elems.drop (c * a.maxNumInChunk) ≠ []) :
    Holds a ⟨a.getChunk c, 0, c, l⟩ (a.elems.drop (c * a.maxNumInChunk)) := by
  constructor
  · rfl
  · intro hnil
    rw [LVector.getChunk, page, List.take_eq_nil_iff] at hnil
    rcases hnil with h | h
    · exact absurd h (Nat.pos_iff_ne_zero.mp a.pos)
    · exact hne h
  · exact Nat.zero_le _
  · rw [List.drop_zero]
    exact page_append_drop.symm

/-- **Access to the input**: a chunk with something left in it, or the end. -/
theorem getInput_left (h : Left a s rest) :
    (rest = [] ∧ (getInput a s).inBuf = []) ∨
      (Holds a (getInput a s) rest ∧ (getInput a s).inIdx < (getInput a s).inBuf.length) := by
  have hfetch : ∀ {c l : Nat}, rest = a.elems.drop (c * a.maxNumInChunk) →
      (rest = [] ∧ a.getChunk c = []) ∨
        (Holds a ⟨a.getChunk c, 0, c, l⟩ rest ∧ 0 < (a.getChunk c).length) := by
    intro c l hr
    by_cases hne : rest = []
    · left
      rw [hr] at hne
      exact ⟨hr ▸ hne, by rw [LVector.getChunk, page, hne, List.take_nil]⟩
    · right
      have hh := holds_getChunk (l := l) (hr ▸ hne)
      rw [← hr] at hh
      exact ⟨hh, List.length_pos_iff.mpr hh.nonempty⟩
  rcases h with ⟨h1, h2, h3⟩ | h
  · have ht : getInput a s = ⟨a.getChunk 0, 0, 0, s.lChunkNum⟩ := by
      rw [getInput, if_pos (by rw [h1]; rfl), h2]
    rw [ht]
    exact hfetch (c := 0) (by rw [h3, Nat.zero_mul, List.drop_zero])
  · have hne := h.nonempty
    have hgo : getInput a s = if s.inBuf.length = s.inIdx then
        if s.inBuf.length < a.maxNumInChunk then { s with inBuf := [] }
        else ⟨a.getChunk (s.inChunkNum + 1), 0, s.inChunkNum + 1, s.lChunkNum⟩
        else s := by
      rw [getInput, if_neg (by simpa using hne)]
    rw [hgo]
    by_cases hend : s.inBuf.length = s.inIdx
    · have hr := h.rest
      rw [← hend, List.drop_length, List.nil_append] at hr
      rw [if_pos hend]
      by_cases hshort : s.inBuf.length < a.maxNumInChunk
      · rw [if_pos hshort]
        left
        rw [h.chunk] at hshort
        exact ⟨hr.trans (drop_eq_nil_of_short_page hshort), rfl⟩
      · rw [if_neg hshort]
        exact hfetch hr
    · rw [if_neg hend]
      exact .inr ⟨h, Nat.lt_of_le_of_ne h.idx (Ne.symm hend)⟩

section Runs

variable [BEq α]

/-! ## the kernel -/

/-- What the kernel does with the entries `xs`: it takes them all, or the buffers
overflow at an entry that starts a run. -/
inductive Kernel.Counted (sz : Nat) (xs : List α) (i : Nat) (out : List (α × Nat)) :
    Kernel α → Prop
  | done (h : (xs.foldl pushRun out).length ≤ sz) :
      Kernel.Counted sz xs i out ⟨i + xs.length, xs.foldl pushRun out, false⟩
  | full {j : Nat} {out' : List (α × Nat)} (hj : j < xs.length) (hlen : out'.length = sz)
      (hrest : xs.foldl pushRun out = out' ++ rle (xs.drop j)) :
      Kernel.Counted sz xs i out ⟨i + j, out', true⟩

theorem Kernel.Counted.cons {x : α} {kern : Kernel α}
    (h : Kernel.Counted sz xs (i + 1) (pushRun out x) kern) : Kernel.Counted sz (x :: xs) i out kern := by
  cases h with
  | done h =>
      have hi : i + 1 + xs.length = i + (x :: xs).length := by rw [List.length_cons]; omega
      rw [hi]
      exact .done h
  | @full j out' hj hlen hrest =>
      rw [Nat.add_assoc, Nat.add_comm 1 j]
      exact .full (by rw [List.length_cons]; omega) hlen hrest

/-- **The kernel** counts the runs of its input, on from those in the buffers. -/
theorem uniqueLoop_counted (hpos : 0 < sz) (hlen : out.length ≤ sz) :
    Kernel.Counted sz xs i out (uniqueLoop sz xs i out) := by
  induction xs generalizing i out with
  | nil => exact .done hlen
  | cons x xs ih =>
      rw [uniqueLoop]
      rcases List.eq_nil_or_concat out with rfl | ⟨out, p, rfl⟩
      · exact Kernel.Counted.cons (ih hpos)
      · obtain ⟨v, c⟩ := p
        rw [List.concat_eq_append] at hlen ⊢
        have hlast : (out ++ [(v, c)]).getLast? = some (v, c) := by simp
        rw [hlast]
        simp only
        cases hv : x == v with
        | true =>
            rw [if_pos rfl]
            have hpush : pushRun (out ++ [(v, c)]) x = out ++ [(v, c + 1)] := by
              rw [pushRun_concat, hv, if_pos rfl]
            rw [List.dropLast_concat]
            refine Kernel.Counted.cons ?_
            rw [hpush]
            exact ih (by simpa using hlen)
        | false =>
            rw [if_neg (by simp)]
            by_cases hroom : (out ++ [(v, c)]).length < sz
            · rw [if_pos hroom]
              have hpush : pushRun (out ++ [(v, c)]) x = out ++ [(v, c)] ++ [(x, 1)] := by
                rw [pushRun_concat, hv]
                simp
              refine Kernel.Counted.cons ?_
              rw [hpush]
              exact ih (by rw [List.length_append, List.length_singleton]; omega)
            · rw [if_neg hroom]
              exact .full (j := 0) (Nat.succ_pos _) (by omega) (foldl_pushRun_cons hv)

/-! ## one call -/

/-- **The loop of the generator**: it gives the runs of what is left, if the
buffers hold them; or it fills the buffers and stands at the next run. -/
theorem uniqueWhile_eq (hpos : 0 < sz) {fuel : Nat} (hfuel : rest.length < fuel)
    (hs : Left a s rest) (hlen : out.length ≤ sz) :
    ((rest.foldl pushRun out).length ≤ sz ∧ ∃ t, t.lChunkNum = s.lChunkNum ∧
      uniqueWhile a sz fuel s out = some (rest.foldl pushRun out, t)) ∨
    ∃ t rest' out', uniqueWhile a sz fuel s out = some (out', t) ∧
      t.lChunkNum = s.lChunkNum + 1 ∧ Left a t rest' ∧ rest' ≠ [] ∧
      rest'.length ≤ rest.length ∧ out'.length = sz ∧
      rest.foldl pushRun out = out' ++ rle rest' := by
  induction fuel generalizing s rest out with
  | zero => omega
  | succ fuel ih =>
      rw [uniqueWhile]
      have hl : (getInput a s).lChunkNum = s.lChunkNum := getInput_lChunkNum
      rcases getInput_left hs with ⟨rfl, hnil⟩ | ⟨hh, hidx⟩
      · left
        simp only
        rw [if_pos (by rw [hnil]; rfl)]
        exact ⟨hlen, _, hl, rfl⟩
      · obtain ⟨u, hu⟩ : ∃ u, u = getInput a s := ⟨_, rfl⟩
        rw [← hu] at hh hidx hl ⊢
        have hkern : Kernel.Counted sz (u.inBuf.drop u.inIdx) u.inIdx out
            (uniqueLoop sz (u.inBuf.drop u.inIdx) u.inIdx out) := uniqueLoop_counted hpos hlen
        have hcall : uniqueKernel u.inBuf u.inIdx out sz =
            some (uniqueLoop sz (u.inBuf.drop u.inIdx) u.inIdx out) := by
          rw [uniqueKernel, if_neg (by omega), if_neg (by omega)]
        simp only
        rw [if_neg (by simpa using hh.nonempty), hcall, Option.bind_some]
        generalize uniqueLoop sz (u.inBuf.drop u.inIdx) u.inIdx out = kern at hkern
        have hrest := hh.rest
        have hdrop : u.inIdx + (u.inBuf.drop u.inIdx).length = u.inBuf.length := by
          rw [List.length_drop]
          omega
        cases hkern with
        | done hfit =>
            -- the chunk is consumed: on with what comes after it
            rw [if_neg (by simp)]
            have hnext : Holds a { u with inIdx := u.inIdx + (u.inBuf.drop u.inIdx).length }
                (a.elems.drop ((u.inChunkNum + 1) * a.maxNumInChunk)) := by
              constructor
              · exact hh.chunk
              · exact hh.nonempty
              · simp only [hdrop, Nat.le_refl]
              · simp only [hdrop, List.drop_length, List.nil_append]
            have hfold : rest.foldl pushRun out =
                (a.elems.drop ((u.inChunkNum + 1) * a.maxNumInChunk)).foldl pushRun
                  ((u.inBuf.drop u.inIdx).foldl pushRun out) := by
              rw [hrest, List.foldl_append]
            have hless : (a.elems.drop ((u.inChunkNum + 1) * a.maxNumInChunk)).length <
                rest.length := by
              rw [hrest, List.length_append, List.length_drop (l := u.inBuf)]
              omega
            rw [hfold]
            rcases ih (by omega) (.inr hnext) hfit with ⟨h1, t, h2, h3⟩ | h
            · exact .inl ⟨h1, t, h2.trans hl, h3⟩
            · obtain ⟨t, rest', out', h1, h2, h3, h4, h5, h6, h7⟩ := h
              exact .inr ⟨t, rest', out', h1, by rw [h2, ← hl], h3, h4, by omega, h6, h7⟩
        | @full j out' hj hfull hruns =>
            rw [if_pos rfl]
            right
            have hne : (u.inBuf.drop u.inIdx).drop j ≠ [] := by
              rw [Ne, List.drop_eq_nil_iff]
              omega
            refine ⟨_, (u.inBuf.drop u.inIdx).drop j ++
              a.elems.drop ((u.inChunkNum + 1) * a.maxNumInChunk), out', rfl, by simp only [hl],
              .inr ?_, List.append_ne_nil_of_left_ne_nil hne _, ?_, hfull, ?_⟩
            · constructor
              · exact hh.chunk
              · exact hh.nonempty
              · simp only
                omega
              · simp only [List.drop_drop]
            · rw [hrest, List.length_append, List.length_append, List.length_drop (i := j)]
              omega
            · rw [hrest, List.foldl_append, hruns, foldl_pushRun_append (rle_ne_nil hne), rle, rle,
                List.foldl_append]

/-- The generator is good for a call with number `k`, and `runs` are left. -/
structure GoodFor (a : LVector α) (runs : List (α × Nat)) (s : UniqueState α) (k : Nat) : Prop where
  num : s.lChunkNum = k
  left : ∃ rest, Left a s rest ∧ rest ≠ [] ∧ rest.length ≤ a.elems.length ∧ rle rest = runs

/-- **One call**: the next runs, as many as the buffers hold. It is good for
another call if there are more, and not if there are none. -/
theorem uniqueGen_eq (hpos : 0 < sz) {runs : List (α × Nat)} (h : GoodFor a runs s k) :
    runs ≠ [] ∧ ∃ t, uniqueGen a sz s k = some (runs.take sz, t) ∧
      (sz < runs.length → GoodFor a (runs.drop sz) t (k + 1)) ∧
      (runs.length ≤ sz → uniqueGen a sz t (k + 1) = none) := by
  obtain ⟨rest, hleft, hne, hle, rfl⟩ := h.left
  refine ⟨rle_ne_nil hne, ?_⟩
  have hcall : uniqueGen a sz s k = uniqueWhile a sz (a.elems.length + 1) s [] := by
    rw [uniqueGen, if_neg (by simp [h.num])]
  rw [hcall]
  rcases uniqueWhile_eq hpos (Nat.lt_succ_of_le hle) hleft (List.length_nil ▸ Nat.zero_le sz) with
    ⟨h1, t, h2, h3⟩ | ⟨t, rest', out', h1, h2, h3, h4, h5, h6, h7⟩
  · refine ⟨t, ?_, fun hlt => absurd h1 (Nat.not_le.mpr hlt), fun _ => ?_⟩
    · rw [h3]
      exact congrArg (fun runs => some (runs, t)) (List.take_of_length_le h1).symm
    · rw [uniqueGen, if_pos]
      have := h.num
      omega
  · have hruns : rle rest = out' ++ rle rest' := h7
    have hmore := List.length_pos_iff.mpr (rle_ne_nil h4)
    rw [hruns, List.take_left' h6, List.drop_left' h6]
    refine ⟨t, h1, fun _ => ⟨by rw [h2, h.num], rest', h3, h4, by omega, rfl⟩, fun hfew => ?_⟩
    rw [List.length_append] at hfew
    omega

/-! ## what was asked for -/

/-- `unique` gives the run-length encoding of its input, and no call fails. -/
def UniqueEncodes (a : LVector α) (sz : Nat) : Prop :=
  ∃ outs, Pulls (uniqueGen a sz) sz uniqueStart 0 outs ∧ IsRle outs.flatten a.elems ∧
    (outs.flatten.map Prod.snd).sum = a.elems.length

theorem goodFor_start (hne : a.elems ≠ []) : GoodFor a (rle a.elems) uniqueStart 0 :=
  ⟨rfl, a.elems, .inl ⟨rfl, rfl, rfl⟩, hne, Nat.le_refl _, rfl⟩

theorem uniqueEncodes_of (hne : a.elems ≠ []) (hpos : 0 < sz)
    (h : ¬ sz ∣ (rle a.elems).length) : UniqueEncodes a sz := by
  obtain ⟨outs, ho, hflat⟩ : ∃ outs, Pulls (uniqueGen a sz) sz uniqueStart 0 outs ∧
      outs.flatten = rle a.elems := by
    refine Pulls.of_pieces (fun s k runs => GoodFor a runs s k ∧ ¬ sz ∣ runs.length) hpos ?_
      ⟨goodFor_start hne, h⟩
    intro s k runs hs
    obtain ⟨-, t, hg, hmore, -⟩ := uniqueGen_eq hpos hs.1
    refine ⟨t, hg, fun hle => ?_⟩
    have hlt : sz < runs.length := by
      rcases Nat.lt_or_eq_of_le hle with h | h
      · exact h
      · exact absurd ⟨1, by omega⟩ hs.2
    refine ⟨hmore hlt, fun hdvd => hs.2 ?_⟩
    rw [List.length_drop] at hdvd
    have hsum := Nat.dvd_add hdvd (Nat.dvd_refl sz)
    rwa [Nat.sub_add_cancel hle] at hsum
  have hrle := isRle_rle a.elems
  rw [← hflat] at hrle
  exact ⟨outs, ho, hrle, hrle.sum⟩

theorem not_uniqueEncodes (hne : a.elems ≠ []) (hpos : 0 < sz)
    (h : sz ∣ (rle a.elems).length) : ¬ UniqueEncodes a sz := by
  rintro ⟨outs, ho, -, -⟩
  refine not_pulls (fun s k => ∃ runs, GoodFor a runs s k ∧ sz ∣ runs.length) ?_
    ⟨_, goodFor_start hne, h⟩ ho
  rintro s k ⟨runs, hs, hdvd⟩
  obtain ⟨hruns, t, hg, hmore, hstop⟩ := uniqueGen_eq hpos hs
  have hle : sz ≤ runs.length := Nat.le_of_dvd (List.length_pos_iff.mpr hruns) hdvd
  refine ⟨_, t, hg, by rw [List.length_take]; omega, ?_⟩
  by_cases hlt : sz < runs.length
  · refine .inl ⟨_, hmore hlt, ?_⟩
    rw [List.length_drop]
    exact Nat.dvd_sub hdvd (Nat.dvd_refl sz)
  · exact .inr (hstop (by omega))

/-- **When `unique` is run-length encoding**: exactly when the number of runs is
no multiple of the size of an output chunk. -/
theorem uniqueEncodes_iff (hne : a.elems ≠ []) (hpos : 0 < sz) :
    UniqueEncodes a sz ↔ ¬ sz ∣ (rle a.elems).length :=
  ⟨fun h hdvd => not_uniqueEncodes hne hpos hdvd h, uniqueEncodes_of hne hpos⟩

end Runs

/-- The numbers below `n`, each three times, in chunks of 64. -/
def threeEach (n : Nat) : LVector Nat :=
  ⟨(List.range n).flatMap fun i => [i, i, i], 64, sixtyFour_pos⟩

/-- 43 runs over three chunks. -/
theorem uniqueEncodes_43 : UniqueEncodes (threeEach 43) 64 :=
  (uniqueEncodes_iff (by decide) (by decide)).mpr (by decide +kernel)

/-- 64 runs fill an output chunk, and the call for the next fails. -/
theorem uniqueEncodes_fails : ¬ UniqueEncodes (threeEach 64) 64 :=
  not_uniqueEncodes (by decide) (by decide) (by decide +kernel)

end QStore.Operators
