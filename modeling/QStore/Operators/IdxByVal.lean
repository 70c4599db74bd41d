import Mathlib.Data.List.Sort
import Mathlib.Data.Int.Basic
import QStore.Operators.LVector

/-!
# QStore.Operators.IdxByVal

`get_idx_by_val` (`OPERATORS/AINB`): where in `y` each element of `x` is.  A `y` whose
`sort_order` is "asc" is searched by halving, any other from its start.

```
linear    the first j with a[i] == b[j]
binary    the first middle with a[i] == b[pos];  absent when a middle comes twice in a row
```

The halving ends and stays below `nB` on every ascending `y`, and finds what is there; which of
several equal elements it finds depends on where they lie (`sameResult_iff`).
-/

namespace QStore.Operators.IdxByVal

variable {α : Type} [LinearOrder α]

/-! ## The kernels -/

/-- `a[i] == b[j]`. A key that is a NaN, `none`, equals nothing and is below nothing. -/
def keyEq (key : Option α) (y : α) : Bool := key = some y

/-- `a[i] < b[j]` -/
def keyLt (key : Option α) (y : α) : Bool := key.any fun k => k < y

/-- The loop over `j` of the linear search. -/
def linearSearch (b : List α) (key : Option α) : Option Nat := b.findIdx? (keyEq key)

/-- What the binary search keeps from one turn to the next. -/
structure Halving where
  prevPos : Int
  lb : Nat
  ub : Nat

/-- The loop of the binary search, at most `fuel` turns of it: what it finds. `none`: it is not
over, or reads `b` at `nB` or beyond. `lb` and `ub` are `uint32_t`. -/
def binaryLoop (b : List α) (key : Option α) : Nat → Halving → Option (Option Nat)
  | 0, _ => none
  | fuel + 1, h =>
      let pos := (h.lb + h.ub) % 2 ^ 32 / 2
      let pos := if b.length ≤ pos then b.length else pos
      match b[pos]? with
      | none => none
      | some cmp =>
          if keyEq key cmp then some (some pos)
          else if h.prevPos = pos then some none
          else if keyLt key cmp then binaryLoop b key fuel ⟨pos, h.lb, pos⟩
          else binaryLoop b key fuel ⟨pos, pos, h.ub⟩

/-- The binary search; more turns than elements are never needed. -/
def binarySearch (b : List α) (key : Option α) : Option (Option Nat) :=
  binaryLoop b key (b.length + 1) ⟨-1, 0, b.length⟩

/-- The bits of `out_qtype`. `none`: "You should not be using this function". -/
def outBits (n : Nat) : Option Nat :=
  if n < 127 then some 8
  else if n < 32767 then some 16
  else none

/-- What a kernel writes for an element: `c[i]`, and `nn_c[i]` unless `nn_c` is `NULL`. -/
def cell (bits : Nat) (allXInY : Bool) (pos : Option Nat) : Int × Option Bool :=
  (Int.bmod (pos.getD 0) (2 ^ bits), if allXInY then none else some pos.isSome)

/-! ## The operator -/

/-- What `get_idx_by_val` is called with. -/
structure Args (α : Type) [LinearOrder α] where
  x : LVector (Option α)
  y : List α
  allXInY : Bool
  nonempty : y ≠ []
  ascending : y.Pairwise (· ≤ ·)
  small : y.length < 32767

/-- The search for one element: by halving if `y` is marked as sorted. -/
def searchFor (marked : Bool) (b : List α) (key : Option α) : Option (Option Nat) :=
  if marked then binarySearch b key else some (linearSearch b key)

/-- The kernel on a chunk of `x`. -/
def kernel (a : Args α) (marked : Bool) (chunk : List (Option α)) :
    Option (List (Int × Option Bool)) := do
  let bits ← outBits a.y.length
  chunk.mapM fun key => (searchFor marked a.y key).map (cell bits a.allXInY)

/-- The generator is called for chunk `k`, `k + 1`, … until `x` has no more. -/
def chunksFrom (a : Args α) (marked : Bool) : Nat → Nat → Option (List (Int × Option Bool))
  | 0, _ => none
  | fuel + 1, k =>
      let chunk := a.x.getChunk k
      if chunk.length = 0 then some []
      else do
        let out ← kernel a marked chunk
        let rest ← chunksFrom a marked fuel (k + 1)
        some (out ++ rest)

/-- `get_idx_by_val`, evaluated. `marked`: `y:get_meta("sort_order")` is "asc". -/
def getIdxByVal (a : Args α) (marked : Bool) : Option (List (Int × Option Bool)) :=
  chunksFrom a marked (a.x.elems.length + 1) 0

/-- Marking `y` as sorted changes nothing: both searches give a result, the same one. -/
def SameResult (a : Args α) : Prop :=
  ∃ out, getIdxByVal a true = some out ∧ getIdxByVal a false = some out

/-! ## The equal elements of an ascending list -/

/-- The first index of `b` at which an element is `key` or more. -/
def firstAt (b : List α) (key : α) : Nat := b.findIdx (key ≤ ·)

/-- The first index of `b` at which an element is more than `key`. -/
def endAt (b : List α) (key : α) : Nat := b.findIdx (key < ·)

section Run

variable {b : List α} {key : α} {i : Nat}

/-- In an ascending list the elements that a monotone test does not hold of come first. -/
theorem findIdx_le_iff (hb : b.Pairwise (· ≤ ·)) {p : α → Bool}
    (hp : ∀ x y, x ≤ y → p x = true → p y = true) (hi : i < b.length) :
    b.findIdx p ≤ i ↔ p b[i] = true := by
  constructor
  · intro hle
    have hlt : b.findIdx p < b.length := by omega
    have hfirst : p b[b.findIdx p] = true := List.findIdx_getElem
    cases Nat.eq_or_lt_of_le hle with
    | inl heq => simpa only [heq] using hfirst
    | inr hlt' => exact hp _ _ (List.pairwise_iff_getElem.mp hb _ i hlt hi hlt') hfirst
  · intro h
    by_contra hgt
    have hnot := List.not_of_lt_findIdx (show i < b.findIdx p by omega)
    rw [h] at hnot
    contradiction

theorem firstAt_le_iff (hb : b.Pairwise (· ≤ ·)) (hi : i < b.length) :
    firstAt b key ≤ i ↔ key ≤ b[i] := by
  have h := findIdx_le_iff hb (p := fun y => decide (key ≤ y))
    (fun x y hxy hx => by simpa using le_trans (by simpa using hx) hxy) hi
  simpa [firstAt] using h

theorem endAt_le_iff (hb : b.Pairwise (· ≤ ·)) (hi : i < b.length) :
    endAt b key ≤ i ↔ key < b[i] := by
  have h := findIdx_le_iff hb (p := fun y => decide (key < y))
    (fun x y hxy hx => by simpa using lt_of_lt_of_le (by simpa using hx) hxy) hi
  simpa [endAt] using h

/-- The elements equal to the key are those from `firstAt` up to `endAt`. -/
theorem eq_iff_between (hb : b.Pairwise (· ≤ ·)) (hi : i < b.length) :
    key = b[i] ↔ firstAt b key ≤ i ∧ i < endAt b key := by
  have h1 : firstAt b key ≤ i ↔ key ≤ b[i] := firstAt_le_iff hb hi
  have h2 : endAt b key ≤ i ↔ key < b[i] := endAt_le_iff hb hi
  constructor
  · intro h
    refine ⟨h1.mpr h.le, ?_⟩
    by_contra hge
    exact absurd (h2.mp (Nat.le_of_not_lt hge)) (not_lt.mpr h.ge)
  · rintro ⟨hle, hlt⟩
    refine le_antisymm (h1.mp hle) ?_
    by_contra hgt
    exact absurd (h2.mpr (not_le.mp hgt)) (by omega)

/-- An element that the list has is first at `firstAt`. -/
theorem firstAt_lt_endAt (hb : b.Pairwise (· ≤ ·)) (hk : key ∈ b) :
    firstAt b key < endAt b key ∧ endAt b key ≤ b.length := by
  obtain ⟨i, hi, rfl⟩ := List.getElem_of_mem hk
  have := (eq_iff_between hb hi).mp rfl
  exact ⟨by omega, List.findIdx_le_length⟩

end Run

/-! ## The linear search -/

section Search

variable {b : List α} {key : α}

theorem linearSearch_nan : linearSearch b none = none := by
  simp [linearSearch, keyEq]

theorem linearSearch_absent (hk : key ∉ b) : linearSearch b (some key) = none := by
  rw [linearSearch, List.findIdx?_eq_none_iff]
  intro y hy
  have : key ≠ y := fun h => hk (h ▸ hy)
  simpa [keyEq] using this

theorem linearSearch_eq (hb : b.Pairwise (· ≤ ·)) (hk : key ∈ b) :
    linearSearch b (some key) = some (firstAt b key) := by
  obtain ⟨hlt, hle⟩ := firstAt_lt_endAt hb hk
  rw [linearSearch, List.findIdx?_eq_some_iff_getElem]
  refine ⟨by omega, ?_, ?_⟩
  · have h : firstAt b key < b.length := by omega
    simpa [keyEq] using (eq_iff_between hb h).mpr ⟨le_rfl, hlt⟩
  · intro j hj
    have hjlen : j < b.length := by omega
    have hne : ¬ key = b[j] := fun h => by
      have := (eq_iff_between hb hjlen).mp h
      omega
    simpa [keyEq] using hne

/-! ## The binary search -/

/-- Where halving the interval from `l` to `u` first meets the indices from `s` to `e`. -/
def landing (s e : Nat) : Nat → Nat → Nat → Nat
  | 0, l, _ => l
  | fuel + 1, l, u =>
      let m := (l + u) / 2
      if m < s then landing s e fuel m u
      else if e ≤ m then landing s e fuel l m
      else m

/-- The turn at an interval within the list. -/
theorem binaryLoop_succ {k : Option α} {fuel l u : Nat} {prev : Int} (hm : (l + u) / 2 < b.length)
    (hsmall : l + u < 2 ^ 32) :
    binaryLoop b k (fuel + 1) ⟨prev, l, u⟩ =
      if keyEq k b[(l + u) / 2] then some (some ((l + u) / 2))
      else if prev = ((l + u) / 2 : Nat) then some none
      else if keyLt k b[(l + u) / 2] then binaryLoop b k fuel ⟨((l + u) / 2 : Nat), l, (l + u) / 2⟩
      else binaryLoop b k fuel ⟨((l + u) / 2 : Nat), (l + u) / 2, u⟩ := by
  simp only [binaryLoop, Nat.mod_eq_of_lt hsmall, if_neg (Nat.not_le.mpr hm),
    List.getElem?_eq_getElem hm]

/-- A key that the list has is found where the halving lands. The middle before is outside of
the interval, or is its lower end and not where the key is. -/
theorem binaryLoop_present (hb : b.Pairwise (· ≤ ·)) (hk : key ∈ b) (hsmall : b.length < 2 ^ 31)
    {fuel l u : Nat} {prev : Int} (hl : l ≤ firstAt b key) (hu : endAt b key ≤ u)
    (hub : u ≤ b.length) (hfuel : u - l ≤ fuel) (hprev : prev < l ∨ u ≤ prev ∨ prev = l ∧ l + 1 < u) :
    binaryLoop b (some key) fuel ⟨prev, l, u⟩ =
      some (some (landing (firstAt b key) (endAt b key) fuel l u)) := by
  obtain ⟨hrun, -⟩ := firstAt_lt_endAt hb hk
  induction fuel generalizing l u prev with
  | zero => omega
  | succ fuel ih =>
      have hm : (l + u) / 2 < b.length := by omega
      have heq : key = b[(l + u) / 2] ↔ _ := eq_iff_between hb hm
      rw [binaryLoop_succ hm (by omega), landing]
      by_cases hin : firstAt b key ≤ (l + u) / 2 ∧ (l + u) / 2 < endAt b key
      · rw [if_pos (by simpa [keyEq] using heq.mpr hin)]
        rw [if_neg (by omega), if_neg (by omega)]
      · rw [if_neg (by simpa [keyEq] using fun h => hin (heq.mp h)), if_neg (by omega)]
        by_cases hlow : (l + u) / 2 < firstAt b key
        · have hge : b[(l + u) / 2] ≤ key := by
            by_contra hgt
            exact absurd ((firstAt_le_iff hb hm).mpr (not_le.mp hgt).le) (by omega)
          rw [if_pos hlow, if_neg (by simpa [keyLt] using hge)]
          apply ih <;> omega
        · have hlt : key < b[(l + u) / 2] := (endAt_le_iff hb hm).mp (by omega)
          rw [if_neg hlow, if_pos (show endAt b key ≤ (l + u) / 2 by omega),
            if_pos (by simpa [keyLt] using hlt)]
          apply ih <;> omega

/-- A key that the list does not have is reported absent, once a middle repeats: then the
interval has shrunk to one index, or to none. -/
theorem binaryLoop_absent {k : Option α} (hk : ∀ y ∈ b, keyEq k y = false)
    (hsmall : b.length < 2 ^ 31) {fuel l u : Nat} {prev : Int} (hlb : l < b.length)
    (hub : u ≤ b.length)
    (hfuel : l < u ∧ u - l < fuel ∨ prev = ((l + u) / 2 : Nat) ∧ 0 < fuel) :
    binaryLoop b k fuel ⟨prev, l, u⟩ = some none := by
  induction fuel generalizing l u prev with
  | zero => omega
  | succ fuel ih =>
      have hm : (l + u) / 2 < b.length := by omega
      rw [binaryLoop_succ hm (by omega), if_neg (by simp [hk _ (List.getElem_mem hm)])]
      by_cases hrep : prev = ((l + u) / 2 : Nat)
      · rw [if_pos hrep]
      · rw [if_neg hrep]
        split
        · apply ih <;> omega
        · apply ih <;> omega

/-- What the binary search finds: the key where the halving lands. -/
theorem binarySearch_eq (hb : b.Pairwise (· ≤ ·)) (hne : b ≠ []) (hsmall : b.length < 2 ^ 31)
    (k : Option α) :
    ∃ r, binarySearch b k = some r ∧ (r = linearSearch b k ∨
      ∃ key, k = some key ∧ key ∈ b ∧ r = some (landing (firstAt b key) (endAt b key)
        (b.length + 1) 0 b.length)) := by
  have hpos : 0 < b.length := List.length_pos_of_ne_nil hne
  by_cases hk : ∃ key, k = some key ∧ key ∈ b
  · obtain ⟨key, rfl, hmem⟩ := hk
    have h : binarySearch b (some key) = _ := binaryLoop_present hb hmem hsmall (Nat.zero_le _)
      (firstAt_lt_endAt hb hmem).2 le_rfl (by omega) (by omega)
    exact ⟨_, h, .inr ⟨key, rfl, hmem, rfl⟩⟩
  · have hno : ∀ y ∈ b, keyEq k y = false := by
      intro y hy
      have : k ≠ some y := fun h => hk ⟨y, h, hy⟩
      simpa [keyEq] using this
    refine ⟨none, binaryLoop_absent hno hsmall hpos le_rfl (by omega), .inl ?_⟩
    rw [linearSearch, eq_comm, List.findIdx?_eq_none_iff]
    exact hno

/-- The halving lands among the indices it is sent to. -/
theorem landing_between (fuel : Nat) {s e l u : Nat} (hse : s < e) (hl : l ≤ s) (hu : e ≤ u)
    (hfuel : u - l ≤ fuel) : s ≤ landing s e fuel l u ∧ landing s e fuel l u < e := by
  induction fuel generalizing l u with
  | zero => omega
  | succ fuel ih =>
      rw [landing]
      split
      · apply ih <;> omega
      · split
        · apply ih <;> omega
        · omega

end Search

/-! ## The operator -/

section Operator

variable {a : Args α}

/-- Every element of `x` that `y` has is met by the halving at its first occurrence. -/
def MetFirst (a : Args α) : Prop :=
  ∀ key, some key ∈ a.x.elems → key ∈ a.y →
    landing (firstAt a.y key) (endAt a.y key) (a.y.length + 1) 0 a.y.length = firstAt a.y key

theorem outBits_eq (a : Args α) :
    ∃ bits, outBits a.y.length = some bits ∧ a.y.length < 2 ^ (bits - 1) ∧ 0 < bits := by
  have := a.small
  unfold outBits
  split
  · exact ⟨8, rfl, by omega, by omega⟩
  · exact ⟨16, rfl, by omega, by omega⟩

/-- The out type holds every index of `y`. -/
theorem cell_inj {bits p q : Nat} (hbits : 0 < bits) (hp : p < 2 ^ (bits - 1))
    (hq : q < 2 ^ (bits - 1)) (h : cell bits a.allXInY (some p) = cell bits a.allXInY (some q)) :
    p = q := by
  have hpow : 2 ^ bits = 2 * 2 ^ (bits - 1) := by
    rw [← Nat.pow_succ', Nat.succ_eq_add_one, Nat.sub_add_cancel hbits]
  have hfit : ∀ n : Nat, n < 2 ^ (bits - 1) → Int.bmod n (2 ^ bits) = n := by
    intro n hn
    rw [Int.bmod_eq_of_le] <;> omega
  simp only [cell, Prod.mk.injEq, Option.getD_some, hfit p hp, hfit q hq] at h
  omega

/-- A search that ends for every element: the kernels write its results one behind the other. -/
theorem getIdxByVal_eq {marked : Bool} {f : Option α → Option Nat} {bits : Nat}
    (hbits : outBits a.y.length = some bits) (hf : ∀ key, searchFor marked a.y key = some (f key)) :
    getIdxByVal a marked = some (a.x.elems.map fun key => cell bits a.allXInY (f key)) := by
  have hkernel : ∀ chunk, kernel a marked chunk =
      some (chunk.map fun key => cell bits a.allXInY (f key)) := by
    intro chunk
    have hmap : ∀ c : List (Option α), (c.mapM fun key => (searchFor marked a.y key).map
        (cell bits a.allXInY)) = some (c.map fun key => cell bits a.allXInY (f key)) := by
      intro c
      induction c with
      | nil => rfl
      | cons key c ih =>
          rw [List.mapM_cons, ih, hf]
          rfl
    simp [kernel, hbits, hmap]
  have hfrom : ∀ fuel k, a.x.elems.length - k * a.x.maxNumInChunk < fuel →
      chunksFrom a marked fuel k = some ((a.x.elems.drop (k * a.x.maxNumInChunk)).map
        fun key => cell bits a.allXInY (f key)) := by
    intro fuel
    induction fuel with
    | zero => omega
    | succ fuel ih =>
        intro k hfuel
        have hlen := LVector.length_getChunk (v := a.x) (i := k)
        have hpos := a.x.pos
        rw [chunksFrom]
        by_cases hempty : (a.x.getChunk k).length = 0
        · have hend : a.x.elems.drop (k * a.x.maxNumInChunk) = [] := by
            apply List.drop_eq_nil_of_le
            omega
          simp [hempty, hend]
        · have hnext : (k + 1) * a.x.maxNumInChunk =
              k * a.x.maxNumInChunk + a.x.maxNumInChunk := by
            rw [Nat.add_mul, Nat.one_mul]
          simp only [if_neg hempty, hkernel, ih (k + 1) (by omega), Option.bind_eq_bind,
            Option.bind_some]
          rw [← List.map_append, LVector.getChunk, page_append_drop]
  rw [getIdxByVal, hfrom _ 0 (by omega), Nat.zero_mul, List.drop_zero]

/-- **Marking `y` as sorted changes nothing exactly where the halving meets the first of equal
elements.** -/
theorem sameResult_iff (a : Args α) : SameResult a ↔ MetFirst a := by
  have hsmall := a.small
  obtain ⟨bits, hbits, hfit, hbpos⟩ := outBits_eq a
  choose found hfound hcase using binarySearch_eq a.ascending a.nonempty (by omega)
  have hbin : getIdxByVal a true = _ := getIdxByVal_eq hbits hfound
  have hlin : getIdxByVal a false = _ := getIdxByVal_eq (f := linearSearch a.y) hbits fun _ => rfl
  have hsame : SameResult a ↔ ∀ key ∈ a.x.elems,
      cell bits a.allXInY (found key) = cell bits a.allXInY (linearSearch a.y key) := by
    rw [SameResult, hbin, hlin, ← List.map_inj_left]
    constructor
    · rintro ⟨out, h1, h2⟩
      rw [← h2] at h1
      exact Option.some.inj h1
    · intro h
      exact ⟨_, rfl, by rw [h]⟩
  rw [hsame]
  constructor
  · intro hall key hx hy
    have hrun := firstAt_lt_endAt a.ascending hy
    have hland := landing_between (a.y.length + 1) hrun.1 (Nat.zero_le _) hrun.2 (by omega)
    have hcell := hall (some key) hx
    cases hcase (some key) with
    | inl h =>
        have hb : binarySearch a.y (some key) = _ := binaryLoop_present a.ascending hy (by omega)
          (Nat.zero_le _) hrun.2 le_rfl (by omega) (by omega)
        rw [hfound, h, linearSearch_eq a.ascending hy, Option.some.injEq,
          Option.some.injEq] at hb
        exact hb.symm
    | inr h =>
        obtain ⟨key', hkey, -, hpos⟩ := h
        obtain rfl := Option.some.inj hkey
        rw [hpos, linearSearch_eq a.ascending hy] at hcell
        exact cell_inj hbpos (by omega) (by omega) hcell
  · intro hmet key hx
    cases hcase key with
    | inl h => rw [h]
    | inr h =>
        obtain ⟨key', rfl, hy, hpos⟩ := h
        rw [hpos, hmet key' hx hy, linearSearch_eq a.ascending hy]

/-- An ascending list without repetitions is searched alike both ways. -/
theorem metFirst_of_nodup (hnodup : a.y.Nodup) : MetFirst a := by
  intro key _ hy
  have hsmall := a.small
  have hrun := firstAt_lt_endAt a.ascending hy
  have hland := landing_between (a.y.length + 1) hrun.1 (Nat.zero_le _) hrun.2 (by omega)
  have hfirst : key = a.y[firstAt a.y key] :=
    (eq_iff_between a.ascending (by omega)).mpr ⟨le_rfl, hrun.1⟩
  have hlast := (eq_iff_between a.ascending (by omega)).mpr hland
  exact ((List.Nodup.getElem_inj_iff hnodup).mp (hfirst.symm.trans hlast)).symm

/-- Three equal elements, and one to look for. -/
def repeated : Args Nat where
  x := ⟨[some 5], 64, sixtyFour_pos⟩
  y := [5, 5, 5]
  allXInY := false
  nonempty := List.cons_ne_nil 5 [5, 5]
  ascending := List.pairwise_replicate (n := 3).mpr (.inr (Nat.le_refl 5))
  small := Nat.le_of_ble_eq_true rfl

/-- The halving lands in the middle of equal elements. -/
theorem repeated_differs : ¬ SameResult repeated := by
  rintro ⟨out, h1, h2⟩
  rw [show getIdxByVal repeated true = some [(1, some true)] by decide] at h1
  rw [show getIdxByVal repeated false = some [(0, some true)] by decide, ← h1] at h2
  exact absurd h2 (by decide)

end Operator

end QStore.Operators.IdxByVal
