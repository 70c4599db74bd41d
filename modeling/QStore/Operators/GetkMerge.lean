import QStore.Lib.Smallest
import Mathlib.Algebra.Ring.Nat

/-!
# QStore.Operators.GetkMerge

`merge_min` (`GETK/src/merge.c`, `merge1.tmpl`): two sorted arrays into one, as far
as there is room. With it the `k` smallest of a vector come from those of its
chunks (`getk_gen` of `expander_getk.lua`), in whatever order.

```
Z[0 .. zidx)        what has been written
X[xidx ..), Y[yidx ..)   what is left;  zidx = xidx + yidx
```

The counters are `int`, the sizes are not. There are no drags. `merge_max` is the
same in the order turned around.
-/

namespace QStore.Operators

section Merge

variable {β : Type} [LinearOrder β]

/-- `++` of an `int`; past `INT_MAX` it has no meaning. -/
def intSucc (i : Nat) : Option Nat := if i + 1 < 2 ^ 31 then some (i + 1) else none

/-- `Z[zidx] = ..`, `none` outside of `Z`. -/
def writeAt (Z : List β) (zidx : Nat) (v : β) : Option (List β) :=
  if zidx < Z.length then some (Z.set zidx v) else none

/-- "copy whatever is needed from" `src`. Of `nZ - zidx` rounds at most. -/
def copyRest (src : List β) (n nZ : Nat) : Nat → Nat → Nat → List β → Option (List β × Nat)
  | 0, _, zidx, Z => some (Z, zidx)
  | fuel + 1, idx, zidx, Z =>
      if idx < n ∧ zidx < nZ then do
        let v ← src[idx]?
        let Z ← writeAt Z zidx v
        copyRest src n nZ fuel (← intSucc idx) (← intSucc zidx) Z
      else some (Z, zidx)

/-- `for ( ; zidx < nZ; )`. A round writes one element or is the last one. -/
def mergeLoop (X : List β) (nX : Nat) (Y : List β) (nY nZ : Nat) :
    Nat → Nat → Nat → Nat → List β → Option (List β × Nat)
  | 0, _, _, zidx, Z => some (Z, zidx)
  | fuel + 1, xidx, yidx, zidx, Z =>
      if zidx < nZ then
        if nX ≤ xidx then copyRest Y nY nZ (nZ - zidx) yidx zidx Z
        else if nY ≤ yidx then copyRest X nX nZ (nZ - zidx) xidx zidx Z
        else do
          let x ← X[xidx]?
          let y ← Y[yidx]?
          if y < x then
            let Z ← writeAt Z zidx y
            mergeLoop X nX Y nY nZ fuel xidx (← intSucc yidx) (← intSucc zidx) Z
          else
            let Z ← writeAt Z zidx x
            mergeLoop X nX Y nY nZ fuel (← intSucc xidx) yidx (← intSucc zidx) Z
      else some (Z, zidx)

/-- `merge_min`: `Z` as it is left, and `num_in_Z`. An array is `none` where its
pointer is `NULL`; `none` as a result is a negative status. -/
def mergeMin (X : Option (List β)) (nX : Nat) (Y : Option (List β)) (nY : Nat)
    (Z : Option (List β)) (nZ : Nat) : Option (List β × Nat) :=
  if X = none ∧ 0 < nX then none
  else if Y = none ∧ 0 < nY then none
  else
    match Z with
    | none => none
    | some Z =>
        if nZ = 0 then none
        else mergeLoop (X.getD []) nX (Y.getD []) nY nZ nZ 0 0 0 Z

/-! ## the loops -/

variable {want P src X Y Z : List β} {nZ idx xidx yidx : Nat}

/-- What a loop that is to write `want` leaves of `Z`. -/
def mergedInto (want : List β) (nZ : Nat) (Z : List β) : List β × Nat :=
  (want.take nZ ++ Z.drop (min nZ want.length), min nZ want.length)

omit [LinearOrder β] in
theorem mergedInto_of_full (h : P.length = nZ) (rest : List β) :
    mergedInto (P ++ rest) nZ Z = (P ++ Z.drop P.length, P.length) := by
  subst h
  rw [mergedInto, List.length_append, Nat.min_eq_left (Nat.le_add_right ..), List.take_left]

omit [LinearOrder β] in
theorem mergedInto_of_short (h : P.length ≤ nZ) :
    mergedInto P nZ Z = (P ++ Z.drop P.length, P.length) := by
  rw [mergedInto, Nat.min_eq_right h, List.take_of_length_le h]

omit [LinearOrder β] in
/-- The next element is written behind those that are there. -/
theorem writeAt_append {v : β} (h : P.length < Z.length) :
    writeAt (P ++ Z.drop P.length) P.length v = some ((P ++ [v]) ++ Z.drop (P.length + 1)) := by
  rw [writeAt, if_pos (by rw [List.length_append, List.length_drop]; omega),
    List.set_append_right _ _ (Nat.le_refl _), Nat.sub_self, List.drop_eq_getElem_cons h,
    List.set_cons_zero, List.append_assoc, List.singleton_append]

omit [LinearOrder β] in
theorem length_snoc (P : List β) (v : β) : (P ++ [v]).length = P.length + 1 := by
  rw [List.length_append, List.length_singleton]

theorem intSucc_of_lt {i : Nat} (h : i + 1 < 2 ^ 31) : intSucc i = some (i + 1) := if_pos h

omit [LinearOrder β] in
theorem copyRest_eq (hZ : nZ ≤ Z.length) (hsmall : min nZ want.length < 2 ^ 31) :
    ∀ (fuel idx : Nat) (P : List β), P ++ src.drop idx = want → idx ≤ P.length → P.length ≤ nZ →
      nZ - P.length ≤ fuel →
      copyRest src src.length nZ fuel idx P.length (P ++ Z.drop P.length) =
        some (mergedInto want nZ Z) := by
  intro fuel
  induction fuel with
  | zero =>
      rintro idx P rfl hidx hle hfuel
      rw [copyRest, mergedInto_of_full (by omega)]
  | succ fuel ih =>
      rintro idx P rfl hidx hle hfuel
      rw [copyRest]
      by_cases hgo : idx < src.length ∧ P.length < nZ
      · rw [List.length_append, List.length_drop] at hsmall
        have hi : intSucc idx = some (idx + 1) := intSucc_of_lt (by omega)
        have hz : intSucc P.length = some (P.length + 1) := intSucc_of_lt (by omega)
        rw [if_pos hgo]
        simp only [List.getElem?_eq_getElem hgo.1, Option.bind_eq_bind, Option.bind_some, hi, hz,
          writeAt_append (show P.length < Z.length by omega)]
        have hnext := ih (idx + 1) (P ++ [src[idx]])
          (by rw [List.append_assoc, List.singleton_append, ← List.drop_eq_getElem_cons hgo.1])
          (by rw [length_snoc]; omega) (by rw [length_snoc]; omega) (by rw [length_snoc]; omega)
        rwa [length_snoc] at hnext
      · rw [if_neg hgo]
        by_cases hfull : P.length = nZ
        · rw [mergedInto_of_full hfull]
        · have hend : src.length ≤ idx := by
            by_contra hno
            exact hgo ⟨by omega, by omega⟩
          rw [List.drop_of_length_le hend, List.append_nil, mergedInto_of_short hle]

/-- **The loop** writes the merge of the two arrays as far as it fits. -/
theorem mergeLoop_eq (hZ : nZ ≤ Z.length) (hsmall : min nZ (mergeLe X Y).length < 2 ^ 31) :
    ∀ (fuel xidx yidx : Nat) (P : List β), P ++ mergeLe (X.drop xidx) (Y.drop yidx) = mergeLe X Y →
      xidx + yidx = P.length → P.length ≤ nZ → nZ - P.length ≤ fuel →
      mergeLoop X X.length Y Y.length nZ fuel xidx yidx P.length (P ++ Z.drop P.length) =
        some (mergedInto (mergeLe X Y) nZ Z) := by
  intro fuel
  induction fuel with
  | zero =>
      intro xidx yidx P hP _ hle hfuel
      rw [mergeLoop, ← hP, mergedInto_of_full (by omega)]
  | succ fuel ih =>
      intro xidx yidx P hP hidx hle hfuel
      rw [mergeLoop]
      by_cases hfull : P.length < nZ
      · rw [if_pos hfull]
        by_cases hx : X.length ≤ xidx
        · rw [List.drop_of_length_le hx, mergeLe, List.nil_merge] at hP
          rw [if_pos hx, copyRest_eq hZ hsmall _ _ _ hP (by omega) hle (Nat.le_refl _)]
        · by_cases hy : Y.length ≤ yidx
          · rw [List.drop_of_length_le hy, mergeLe, List.merge_right] at hP
            rw [if_neg hx, if_pos hy, copyRest_eq hZ hsmall _ _ _ hP (by omega) hle (Nat.le_refl _)]
          · have hxlt : xidx < X.length := by omega
            have hylt : yidx < Y.length := by omega
            have hlen : P.length < (mergeLe X Y).length := by
              rw [← hP, List.length_append, List.length_merge, List.length_drop, List.length_drop]
              omega
            have hi : intSucc xidx = some (xidx + 1) := intSucc_of_lt (by omega)
            have hj : intSucc yidx = some (yidx + 1) := intSucc_of_lt (by omega)
            have hz : intSucc P.length = some (P.length + 1) := intSucc_of_lt (by omega)
            rw [if_neg hx, if_neg hy]
            simp only [List.getElem?_eq_getElem hxlt, List.getElem?_eq_getElem hylt,
              Option.bind_eq_bind, Option.bind_some, hi, hj, hz,
              writeAt_append (show P.length < Z.length by omega)]
            rw [List.drop_eq_getElem_cons hxlt, List.drop_eq_getElem_cons hylt] at hP
            by_cases hlt : Y[yidx] < X[xidx]
            · rw [mergeLe, List.cons_merge_cons_neg _ _ _ (by simpa using hlt),
                ← List.drop_eq_getElem_cons hxlt] at hP
              rw [if_pos hlt]
              have hnext := ih xidx (yidx + 1) (P ++ [Y[yidx]])
                (by rw [List.append_assoc, List.singleton_append]; exact hP)
                (by rw [length_snoc]; omega) (by rw [length_snoc]; omega) (by rw [length_snoc]; omega)
              rwa [length_snoc] at hnext
            · rw [mergeLe, List.cons_merge_cons_pos _ _ _ (by simpa using hlt),
                ← List.drop_eq_getElem_cons hylt] at hP
              rw [if_neg hlt]
              have hnext := ih (xidx + 1) yidx (P ++ [X[xidx]])
                (by rw [List.append_assoc, List.singleton_append]; exact hP)
                (by rw [length_snoc]; omega) (by rw [length_snoc]; omega) (by rw [length_snoc]; omega)
              rwa [length_snoc] at hnext
      · rw [if_neg hfull, ← hP, mergedInto_of_full (by omega)]

/-- **The call**, with `NULL` for an array that has nothing. -/
theorem mergeMin_eq {p q : Option (List β)} (hp : p.getD [] = X) (hq : q.getD [] = Y) (hpos : 0 < nZ)
    (hZ : nZ ≤ Z.length) (hsmall : min nZ (X.length + Y.length) < 2 ^ 31) :
    mergeMin p X.length q Y.length (some Z) nZ = some (mergedInto (mergeLe X Y) nZ Z) := by
  have hX : ¬ (p = none ∧ 0 < X.length) := by
    rintro ⟨rfl, hlen⟩
    rw [← hp] at hlen
    exact Nat.lt_irrefl 0 hlen
  have hY : ¬ (q = none ∧ 0 < Y.length) := by
    rintro ⟨rfl, hlen⟩
    rw [← hq] at hlen
    exact Nat.lt_irrefl 0 hlen
  have hrun := mergeLoop_eq (X := X) (Y := Y) hZ (by rwa [List.length_merge]) nZ 0 0 [] rfl rfl
    (Nat.zero_le nZ) (Nat.sub_le ..)
  rw [mergeMin, if_neg hX, if_neg hY]
  simp only [hp, hq]
  rw [if_neg (Nat.ne_of_gt hpos)]
  exact hrun

/-- Of sorted arrays the smallest are written. -/
theorem mergedInto_of_sorted (hX : X.Pairwise (· ≤ ·)) (hY : Y.Pairwise (· ≤ ·)) :
    mergedInto (mergeLe X Y) nZ Z = (smallest nZ (X ++ Y) ++ Z.drop (min nZ (X.length + Y.length)),
      min nZ (X.length + Y.length)) := by
  rw [mergedInto, take_mergeLe_of_sorted hX hY, List.length_merge]

/-! ## the chunks of a vector -/

/-- Another chunk: its `k` smallest, sorted, are merged with those so far, and
`bufZ` is copied back to `bufX`. The state is what `bufX` holds, and `bufZ`. -/
def mergeChunk (k : Nat) (s : List β × List β) (chunk : List β) : Option (List β × List β) :=
  let Y := smallest k chunk
  (mergeMin (some s.1) s.1.length (some Y) Y.length (some s.2) k).map fun r => (r.1.take r.2, r.1)

/-- `merge` folded over the chunks, from the `k` smallest of the first. -/
def mergeChunks (k : Nat) (bufZ : List β) : List (List β) → Option (List β)
  | [] => some []
  | chunk :: chunks => (chunks.foldlM (mergeChunk k) (smallest k chunk, bufZ)).map Prod.fst

variable {k : Nat} {bufZ seen chunk : List β}

theorem mergeChunk_some (seen chunk : List β) (hk : 0 < k) (hsmall : k < 2 ^ 31)
    (hbuf : bufZ.length = k) :
    ∃ bufZ' : List β, bufZ'.length = k ∧ mergeChunk k (smallest k seen, bufZ) chunk =
      some (smallest k (seen ++ chunk), bufZ') := by
  have hmerge : mergeMin (some (smallest k seen)) (smallest k seen).length (some (smallest k chunk))
      (smallest k chunk).length (some bufZ) k =
        some (mergedInto (mergeLe (smallest k seen) (smallest k chunk)) k bufZ) :=
    mergeMin_eq rfl rfl hk (Nat.le_of_eq hbuf.symm)
      (Nat.lt_of_le_of_lt (Nat.min_le_left ..) hsmall)
  have hlen : (mergeLe (smallest k seen) (smallest k chunk)).length =
      (smallest k seen).length + (smallest k chunk).length := List.length_merge ..
  refine ⟨(mergedInto (mergeLe (smallest k seen) (smallest k chunk)) k bufZ).1, ?_, ?_⟩
  · simp only [mergedInto, List.length_append, List.length_take, List.length_drop]
    omega
  · simp only [mergeChunk, hmerge, Option.map_some, smallest_append]
    simp only [mergedInto]
    rw [← List.length_take, List.take_left]

/-- **The chunks** may be any, in any order. -/
theorem mergeChunks_eq (hk : 0 < k) (hsmall : k < 2 ^ 31) (hbuf : bufZ.length = k)
    {chunks : List (List β)} {vec : List β} (hvec : chunks.flatten.Perm vec) :
    mergeChunks k bufZ chunks = some (smallest k vec) := by
  rw [← smallest_of_perm hvec]
  have hfold : ∀ (chunks : List (List β)) (seen bufZ : List β), bufZ.length = k →
      (chunks.foldlM (mergeChunk k) (smallest k seen, bufZ)).map Prod.fst =
        some (smallest k (seen ++ chunks.flatten)) := by
    intro chunks
    induction chunks with
    | nil =>
        intro seen bufZ _
        rw [List.flatten_nil, List.append_nil]
        rfl
    | cons chunk chunks ih =>
        intro seen bufZ hbuf
        obtain ⟨bufZ', hbuf', hstep⟩ := mergeChunk_some seen chunk hk hsmall hbuf
        rw [List.foldlM_cons, hstep, List.flatten_cons, ← List.append_assoc]
        exact ih (seen ++ chunk) bufZ' hbuf'
  cases chunks with
  | nil =>
      rw [mergeChunks, List.flatten_nil, smallest_of_sorted List.Pairwise.nil, List.take_nil]
  | cons chunk chunks => exact hfold chunks chunk bufZ hbuf

/-- **Merging partial results**: a merge writes as many of the smallest as there is
room for and says how many, and the merges of the chunks of a vector leave its `k`
smallest. -/
theorem mergeMin_smallest (X Y Z : List β) (p q : Option (List β)) (nZ : Nat) (hp : p.getD [] = X)
    (hq : q.getD [] = Y) (hX : X.Pairwise (· ≤ ·)) (hY : Y.Pairwise (· ≤ ·)) (hpos : 0 < nZ)
    (hZ : nZ ≤ Z.length) (hsmall : min nZ (X.length + Y.length) < 2 ^ 31) :
    mergeMin p X.length q Y.length (some Z) nZ =
        some (smallest nZ (X ++ Y) ++ Z.drop (min nZ (X.length + Y.length)),
          min nZ (X.length + Y.length)) ∧
      ∀ (k : Nat) (chunks : List (List β)) (vec bufZ : List β), 0 < k → k < 2 ^ 31 →
        bufZ.length = k → chunks.flatten.Perm vec →
        mergeChunks k bufZ chunks = some (smallest k vec) := by
  refine ⟨?_, fun k chunks vec bufZ hk hsmall hbuf hvec => mergeChunks_eq hk hsmall hbuf hvec⟩
  rw [mergeMin_eq hp hq hpos hZ hsmall, mergedInto_of_sorted hX hY]

end Merge

theorem mergeMin_smallest_three :
    mergeMin (some [1, 4]) 2 (some [2]) 1 (some [0, 0]) 2 = some ([1, 2], 2) ∧
      mergeChunks 2 [0, 0] [[5, 1, 3], [4, 2]] = some (smallest 2 [1, 2, 3, 4, 5]) := by
  have h := mergeMin_smallest [1, 4] [2] [0, 0] (some [1, 4]) (some [2]) 2 rfl rfl (by decide)
    (by decide) (by decide) (by decide) (by decide)
  exact ⟨h.1, h.2 2 [[5, 1, 3], [4, 2]] [1, 2, 3, 4, 5] [0, 0] (by decide) (by decide) rfl (by decide)⟩

/-- The drags of the rows are not in what a merge leaves, and no room is an error. -/
theorem mergeMin_drags_fail :
    (¬ ∃ drags : Option (List Nat × Nat) → List Nat, ∀ X Y : List (Nat × Nat),
      drags (mergeMin (some (X.map Prod.fst)) X.length (some (Y.map Prod.fst)) Y.length
        (some [0]) 1) = ((X.merge Y fun a b => decide (a.1 ≤ b.1)).take 1).map Prod.snd) ∧
      mergeMin (some [1]) 1 (some [2]) 1 (some ([] : List Nat)) 0 = none := by
  refine ⟨?_, rfl⟩
  rintro ⟨drags, h⟩
  have h₁ := h [(1, 10)] []
  have h₂ := h [(1, 20)] []
  have h := h₁.symm.trans h₂
  rw [List.merge_right, List.merge_right] at h
  exact absurd h (by decide)

end QStore.Operators
