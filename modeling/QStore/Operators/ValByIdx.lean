import QStore.Lib.Paged
import QStore.Operators.LVector

/-!
# QStore.Operators.ValByIdx

`get_val_by_idx` (`GET/lua/get_val_by_idx.lua` with `get_val_by_idx.tmpl`): for each index the value
there, or null.

```
val   a  b  c          idx   2  0  7  -1       max_num_in_chunk 2
                       out   c  a  -   -
```

The kernel compares `(uint32_t)l_idx` with the length but reads at `l_idx`, so an index from `2 ^ 32`
on may pass the check and be read past the end.

The generator holds the linear file of `val` open for writing from before it asks for a chunk of
indices until the kernel is through. The call that finds no more indices returns in between.
-/

namespace QStore.Operators

section Model

variable {α : Type} (zero : α) (val : LVector α)

/-- One round of the kernel: the value and its `nn`. `none`: it is read past the end. -/
def getValOne (lIdx : Int) : Option (α × Bool) :=
  if lIdx < 0 ∨ (lIdx % 2 ^ 32).toNat ≥ val.elems.length then some (zero, false)
  else (val.elems[lIdx.toNat]?).map fun v => (v, true)

/-- `get_val_by_idx.tmpl`. `none` also where it fails. -/
def getValKernel (idx : List Int) : Option (List (α × Bool)) :=
  if val.elems.length = 0 then none
  else if idx.length = 0 then none
  else idx.mapM (getValOne zero val)

/-- What the generator keeps, `l_chunk_num`, and `num_writers` of `val`. -/
structure ValState where
  lChunkNum : Nat
  numWriters : Nat

/-- `gen`. `none`: an assertion fails, or the kernel reads past the end. -/
def getValGen (idx : LVector Int) : Gen ValState (α × Bool) := fun s chunkNum =>
  if chunkNum ≠ s.lChunkNum then none
  else if s.numWriters ≠ 0 then none -- `val:get_lma_write()`
  else if val.elems.length = 0 then none
  else
    let idxChunk := idx.getChunk chunkNum
    if idxChunk.length = 0 then some ([], ⟨s.lChunkNum, 1⟩)
    else (getValKernel zero val idxChunk).map fun out => (out, ⟨s.lChunkNum + 1, 0⟩)

/-- The value at an index, or null. -/
def valueAt (i : Int) : α × Bool :=
  if i < 0 then (zero, false)
  else (val.elems[i.toNat]?).elim (zero, false) fun v => (v, true)

/-- What passes the check is inside. -/
def Checked (i : Int) : Prop := val.elems.length ≤ i → val.elems.length ≤ i % 2 ^ 32

end Model

variable {α : Type} {zero : α} {val : LVector α} {idx : LVector Int} {i : Int} {xs : List Int}
  {w k : Nat} {outs : List (List (α × Bool))}

instance : Decidable (Checked val i) := inferInstanceAs (Decidable (_ → _))

/-! ## the kernel -/

/-- One round is right where what passes the check is inside, and else it reads past the end. -/
theorem getValOne_eq : getValOne zero val i =
    if Checked val i then some (valueAt zero val i) else none := by
  by_cases hneg : i < 0
  · have hc : Checked val i := fun h => absurd h (by omega)
    simp [getValOne, valueAt, hneg, hc]
  · obtain ⟨j, rfl⟩ := Int.eq_ofNat_of_zero_le (Int.not_lt.mp hneg)
    have hmod : ((j : Int) % 2 ^ 32).toNat = j % 2 ^ 32 := by omega
    have hc : Checked val j ↔ (val.elems.length ≤ j → val.elems.length ≤ j % 2 ^ 32) := by
      rw [Checked]
      omega
    rw [getValOne, valueAt, if_neg hneg, hmod, Int.toNat_natCast]
    by_cases hin : j < val.elems.length
    · have hle := Nat.mod_le j (2 ^ 32)
      rw [if_neg (by omega), if_pos (hc.mpr (by omega)), List.getElem?_eq_getElem hin]
      rfl
    · rw [List.getElem?_eq_none (by omega)]
      by_cases hpass : val.elems.length ≤ j % 2 ^ 32
      · rw [if_pos (.inr hpass), if_pos (hc.mpr fun _ => hpass)]
        rfl
      · rw [if_neg (by omega), if_neg fun h => hpass (hc.mp h (by omega))]
        rfl

theorem getValKernel_eq (hval : val.elems ≠ []) (hne : xs ≠ []) (hall : ∀ i ∈ xs, Checked val i) :
    getValKernel zero val xs = some (xs.map (valueAt zero val)) := by
  have hmap : xs.mapM (getValOne zero val) = some (xs.map (valueAt zero val)) :=
    mapM_eq_map fun i hi => by rw [getValOne_eq, if_pos (hall i hi)]
  simp [getValKernel, hval, hne, hmap]

theorem getValKernel_eq_some {out : List (α × Bool)} (h : getValKernel zero val xs = some out) :
    val.elems ≠ [] ∧ (∀ i ∈ xs, Checked val i) ∧ out = xs.map (valueAt zero val) := by
  have hall : ∀ i ∈ xs, Checked val i := by
    by_contra hno
    push Not at hno
    obtain ⟨i, hi, hc⟩ := hno
    rw [getValKernel, mapM_eq_none hi (by rw [getValOne_eq, if_neg hc])] at h
    simp at h
  have hval : val.elems ≠ [] := fun hnil => by simp [getValKernel, hnil] at h
  have hne : xs ≠ [] := fun hnil => by simp [getValKernel, hnil] at h
  rw [getValKernel_eq hval hne hall, Option.some.injEq] at h
  exact ⟨hval, hall, h.symm⟩

/-! ## whole vectors -/

/-- The values, and whether `val` is still open. -/
theorem getValGen_pullsTo (zero : α) (hval : val.elems ≠ []) (hall : ∀ i ∈ idx.elems, Checked val i) :
    ∃ outs s', PullsTo (getValGen zero val idx) idx.maxNumInChunk ⟨0, 0⟩ 0 outs s' ∧
      outs.flatten = idx.elems.map (valueAt zero val) ∧
      s'.numWriters = if idx.maxNumInChunk ∣ idx.elems.length then 1 else 0 := by
  refine PullsTo.of_pages (fun s k => s = ⟨k, 0⟩) _ idx.pos ?_ rfl
  rintro _ k rfl hk
  have hchunk : page idx.maxNumInChunk (idx.elems.map (valueAt zero val)) k =
      (idx.getChunk k).map (valueAt zero val) := page_map ..
  have hpos := idx.pos
  rw [List.length_map] at hk
  rw [hchunk, List.length_map]
  by_cases hzero : (idx.getChunk k).length = 0
  · have hnil := List.length_eq_zero_iff.mp hzero
    have hdvd : idx.maxNumInChunk ∣ idx.elems.length :=
      (dvd_length_iff hk (by rw [← LVector.getChunk]; omega)).mpr hzero
    exact ⟨⟨k, 1⟩, by simp [getValGen, hval, hnil], by omega, fun _ => by simp [hdvd]⟩
  · have hne : idx.getChunk k ≠ [] := fun h => hzero (by rw [h]; rfl)
    have hkern : _ = some ((idx.getChunk k).map (valueAt zero val)) := getValKernel_eq hval hne fun i hi =>
      hall i (List.mem_of_mem_drop (List.mem_of_mem_take hi))
    refine ⟨⟨k + 1, 0⟩, by simp [getValGen, hval, hne, hkern], fun _ => rfl, fun hshort => ?_⟩
    have hdvd : ¬ idx.maxNumInChunk ∣ idx.elems.length :=
      fun h => hzero ((dvd_length_iff hk hshort).mp h)
    simp [hdvd]

/-- What a call that does not fail says of its chunk. -/
theorem getValGen_eq_some {s s' : ValState} {out : List (α × Bool)}
    (h : getValGen zero val idx s k = some (out, s')) : s.numWriters = 0 ∧ val.elems ≠ [] ∧
      (∀ i ∈ idx.getChunk k, Checked val i) ∧ out = (idx.getChunk k).map (valueAt zero val) := by
  rw [getValGen] at h
  by_cases hk : k = s.lChunkNum
  · by_cases hw : s.numWriters = 0
    · by_cases hval : val.elems = []
      · simp [hk, hw, hval] at h
      · cases hchunk : idx.getChunk k with
        | nil =>
            simp [← hk, hw, hval, hchunk] at h
            simp [hw, hval, h.1]
        | cons i rest =>
            have hkern : getValKernel zero val (i :: rest) = some out := by
              simp [← hk, hw, hval, hchunk] at h
              exact h.1
            obtain ⟨-, hall, hout⟩ := getValKernel_eq_some hkern
            exact ⟨hw, hval, hall, hout⟩
    · simp [hk, hw] at h
  · simp [hk] at h

/-- What is pulled without a failure: the values, and that all indices pass as they should. -/
theorem getValGen_pulled {s : ValState}
    (h : Pulls (getValGen zero val idx) idx.maxNumInChunk s 0 outs) :
    (s.numWriters = 0 ∧ val.elems ≠ [] ∧ ∀ i ∈ idx.elems, Checked val i) ∧
      outs.flatten = idx.elems.map (valueAt zero val) := by
  have hfirst : s.numWriters = 0 ∧ val.elems ≠ [] := by
    cases h with
    | last hgen _ => exact ⟨(getValGen_eq_some hgen).1, (getValGen_eq_some hgen).2.1⟩
    | more hgen _ _ => exact ⟨(getValGen_eq_some hgen).1, (getValGen_eq_some hgen).2.1⟩
  obtain ⟨hflat, hgood⟩ := h.forall_pages (idx.elems.map (valueAt zero val))
    (fun m => ∀ i, idx.elems[m]? = some i → Checked val i) fun s k out s' hgen => by
      obtain ⟨-, -, hall, rfl⟩ := getValGen_eq_some hgen
      refine ⟨(page_map ..).symm, fun m hm i hi => hall i ?_⟩
      rw [page_map, List.length_map] at hm
      have hlt : m < idx.maxNumInChunk := Nat.lt_of_lt_of_le hm length_page_le
      exact List.mem_of_getElem? (getElem?_page.mpr ⟨hlt, hi⟩)
  refine ⟨⟨hfirst.1, hfirst.2, fun i hi => ?_⟩, by simpa using hflat⟩
  obtain ⟨m, hm⟩ := List.getElem?_of_mem hi
  exact hgood m (by simpa using (List.getElem?_eq_some_iff.mp hm).1) (by simp) i hm

/-- **`get_val_by_idx`** is pulled empty where each index that passes the check is inside, and only
there; then it gives the value at each index, or null. -/
theorem getValGen_pulls_iff (zero : α) (val : LVector α) (idx : LVector Int) :
    ((∃ outs, Pulls (getValGen zero val idx) idx.maxNumInChunk ⟨0, 0⟩ 0 outs) ↔
      val.elems ≠ [] ∧ ∀ i ∈ idx.elems, Checked val i) ∧
    ∀ outs, Pulls (getValGen zero val idx) idx.maxNumInChunk ⟨0, 0⟩ 0 outs →
      outs.flatten = idx.elems.map (valueAt zero val) := by
  refine ⟨⟨?_, ?_⟩, fun outs h => (getValGen_pulled h).2⟩
  · rintro ⟨outs, h⟩
    exact (getValGen_pulled h).1.2
  · rintro ⟨hval, hall⟩
    obtain ⟨outs, s', hpulls, -⟩ := getValGen_pullsTo zero hval hall
    exact ⟨outs, hpulls.pulls⟩

/-- The lowest 32 bits of this index are 0. -/
example : getValOne 0 (⟨[10, 20], 2, by decide⟩ : LVector Nat) (2 ^ 32) = none := by decide

/-- **A second time**: the values can be asked for again, by indices that pass, only where the chunk
size does not divide the number of indices that came before. -/
theorem getValGen_again {idx' : LVector Int} {s' : ValState}
    (h : PullsTo (getValGen zero val idx) idx.maxNumInChunk ⟨0, 0⟩ 0 outs s') :
    (∃ outs', Pulls (getValGen zero val idx') idx'.maxNumInChunk ⟨0, s'.numWriters⟩ 0 outs') ↔
      ¬ idx.maxNumInChunk ∣ idx.elems.length ∧ ∀ i ∈ idx'.elems, Checked val i := by
  obtain ⟨⟨-, hval, hall⟩, -⟩ := getValGen_pulled h.pulls
  obtain ⟨outs₀, s₀, hpulls, -, hwriters⟩ := getValGen_pullsTo zero hval hall
  obtain ⟨rfl, rfl⟩ := h.unique hpulls
  constructor
  · rintro ⟨outs', h'⟩
    obtain ⟨hw, -, hall'⟩ := (getValGen_pulled h').1
    refine ⟨fun hd => ?_, hall'⟩
    rw [hwriters, if_pos hd] at hw
    contradiction
  · rintro ⟨hd, hall'⟩
    rw [hwriters, if_neg hd]
    exact (getValGen_pulls_iff zero val idx').1.mpr ⟨hval, hall'⟩

/-- Two indices, two a chunk: `val` stays open. -/
theorem getValGen_again_two : ∃ outs s', PullsTo (getValGen 0 ⟨[10, 20, 30], 2, by decide⟩
      ⟨[2, 0], 2, by decide⟩) 2 ⟨0, 0⟩ 0 outs s' ∧
    ¬ ∃ outs', Pulls (getValGen 0 (⟨[10, 20, 30], 2, by decide⟩ : LVector Nat)
      ⟨[1], 2, by decide⟩) 2 ⟨0, s'.numWriters⟩ 0 outs' := by
  have hall : ∀ i ∈ (⟨[2, 0], 2, by decide⟩ : LVector Int).elems, Checked (⟨[10, 20, 30], 2, by decide⟩ : LVector Nat) i := by decide
  obtain ⟨outs, s', h, -⟩ := getValGen_pullsTo 0 (by simp) hall
  refine ⟨outs, s', h, fun hagain => ?_⟩
  exact ((getValGen_again h).mp hagain).1 (by decide)

end QStore.Operators
