import QStore.Lib.Smallest
import Mathlib.Algebra.Ring.Nat

/-!
# QStore.Operators.Getk

`mink` (`GETK/src/mink.c`) and the kernels made of `getk.tmpl`: the `k` smallest
values of a stream, each with the drag of its row, in a table that is kept sorted.

```
val   v0 ≤ v1 ≤ … ≤ v(n-1)  ⊤ … ⊤      n of k are taken
drag  d0   d1   …   d(n-1)  …
```

A new row moves the values behind it on by one. The drags stay where they are. And
a value that is the one the table starts with gets in as the first row only.
`maxk` is the same in the order turned around.
-/

namespace QStore.Operators

/-! ## the kernel -/

/-- `REDUCE_mink_ARGS`; `k` is an `int` to the kernel. -/
structure GetkArgs (β δ : Type) where
  val : List β
  drag : List δ
  n : Nat
  k : Nat
  length_val : val.length = k
  length_drag : drag.length = k
  k_lt : k < 2 ^ 31

section Kernel

variable {β δ : Type} [LinearOrder β]

/-- `for ( int j = args->k - 2; j >= pos; j-- )`, for the `c` entries from `pos` on. -/
def moveRight (pos : Nat) : Nat → List β → List β
  | 0, val => val
  | c + 1, val =>
      match val[pos + c]? with
      | none => val
      | some x => moveRight pos c (val.set (pos + c + 1) x)

omit [LinearOrder β] in
@[simp] theorem length_moveRight (pos c : Nat) (val : List β) :
    (moveRight pos c val).length = val.length := by
  induction c generalizing val with
  | zero => rfl
  | succ c ih =>
      rw [moveRight]
      split
      · rfl
      · rw [ih, List.length_set]

/-- "put yourself in": the values make room, `drag[pos]` is overwritten. -/
def GetkArgs.putIn (args : GetkArgs β δ) (pos : Nat) (val : β) (drag : δ) : GetkArgs β δ where
  val := (moveRight pos (args.k - 1 - pos) args.val).set pos val
  drag := args.drag.set pos drag
  n := if args.n < args.k then args.n + 1 else args.n
  k := args.k
  length_val := by rw [List.length_set, length_moveRight, args.length_val]
  length_drag := by rw [List.length_set, args.length_drag]
  k_lt := args.k_lt

/-- "first guy in gets a free pass" -/
def GetkArgs.putFirst (args : GetkArgs β δ) (val : β) (drag : δ) : GetkArgs β δ where
  val := args.val.set 0 val
  drag := args.drag.set 0 drag
  n := args.n + 1
  k := args.k
  length_val := by rw [List.length_set, args.length_val]
  length_drag := by rw [List.length_set, args.length_drag]
  k_lt := args.k_lt

/-- One row. `none`: a negative status, or `val[k-1]` is not there. -/
def getkRow (args : GetkArgs β δ) (row : β × δ) : Option (GetkArgs β δ) :=
  if args.n = 0 then some (args.putFirst row.1 row.2)
  else
    match args.val[args.k - 1]? with
    | none => none
    | some last =>
        if row.1 < last then
          match args.val.findIdx? (row.1 < ·) with
          | none => none
          | some pos => some (args.putIn pos row.1 row.2)
        else some args

/-- `getk`, on the `n` rows of a chunk. -/
def getk (args : GetkArgs β δ) (rows : List (β × δ)) : Option (GetkArgs β δ) :=
  if rows.length = 0 then none
  else if args.k < 1 then none
  else rows.foldlM getkRow args

/-- The table at the start: the greatest value everywhere, any drags. -/
def GetkArgs.start [OrderTop β] {k : Nat} (hk : k < 2 ^ 31) (junk : δ) : GetkArgs β δ where
  val := List.replicate k ⊤
  drag := List.replicate k junk
  n := 0
  k := k
  length_val := List.length_replicate
  length_drag := List.length_replicate
  k_lt := hk

end Kernel

/-! ## what the table should hold -/

section Spec

variable {β δ : Type} [LinearOrder β]

/-- The `k` smallest values, or all, in order, each with the drag of a row that has
it. -/
structure GetkArgs.Holds (args : GetkArgs β δ) (rows : List (β × δ)) : Prop where
  count : args.n = min args.k rows.length
  vals : args.val.take args.n = smallest args.k (rows.map Prod.fst)
  drags : ∀ j < args.n, ∃ r ∈ rows, args.val[j]? = some r.1 ∧ args.drag[j]? = some r.2

variable [OrderTop β]

/-- Whatever chunks the rows come in. -/
def GetkRight {k : Nat} (hk : k < 2 ^ 31) (junk : δ) (rows : List (β × δ)) : Prop :=
  ∀ chunks : List (List (β × δ)), chunks.flatten = rows → (∀ c ∈ chunks, c ≠ []) →
    ∃ args, chunks.foldlM getk (GetkArgs.start hk junk) = some args ∧ args.Holds rows

/-- Of rows, the last one first: does this one get in at `j`, if `j` is an entry of
the table? -/
def Lands (j : Nat) (row : β × δ) (earlier : List (β × δ)) : Prop :=
  earlier.countP (·.1 ≤ row.1) = j ∧ (earlier = [] ∨ row.1 < ⊤)

instance (j : Nat) (row : β × δ) (earlier : List (β × δ)) : Decidable (Lands j row earlier) :=
  inferInstanceAs (Decidable (_ ∧ (_ ∨ _)))

/-- The drag of the last row that comes when `j` rows are not above it. -/
def lastDrag (junk : δ) (j : Nat) : List (β × δ) → δ
  | [] => junk
  | row :: earlier => if Lands j row earlier then row.2 else lastDrag junk j earlier

/-- How many rows get in, if there is room. -/
def entrants (rows : List (β × δ)) : Nat :=
  (rows.take 1).length + (rows.drop 1).countP (·.1 < ⊤)

/-- When nothing goes wrong: enough rows are below the greatest value, and the last
row to come when `j` rows are not above it has the drag of a row with the value that
is `j`th in the end. -/
structure KeepsDrags (k : Nat) (junk : δ) (rows : List (β × δ)) : Prop where
  enough : min k rows.length ≤ entrants rows
  own : ∀ j < min k rows.length, ∃ r ∈ rows,
    (smallest k (rows.map Prod.fst))[j]? = some r.1 ∧ lastDrag junk j rows.reverse = r.2

end Spec

/-! ## one row -/

section Row

variable {β δ : Type} [LinearOrder β]

omit [LinearOrder β] in
theorem getElem?_moveRight {pos c : Nat} {val : List β} (h : pos + c < val.length) (i : Nat) :
    (moveRight pos c val)[i]? = if pos < i ∧ i ≤ pos + c then val[i - 1]? else val[i]? := by
  induction c generalizing val with
  | zero => rw [moveRight, if_neg (by omega)]
  | succ c ih =>
      obtain ⟨x, hx⟩ : ∃ x, val[pos + c]? = some x := ⟨_, List.getElem?_eq_getElem (by omega)⟩
      simp only [moveRight, hx]
      rw [ih (by rw [List.length_set]; omega)]
      by_cases hi : i = pos + c + 1
      · subst hi
        rw [if_neg (by omega), if_pos (by omega), List.getElem?_set_self (by omega),
          show pos + c + 1 - 1 = pos + c by omega, hx]
      · by_cases hin : pos < i ∧ i ≤ pos + c
        · rw [if_pos hin, if_pos (by omega), List.getElem?_set_ne (by omega)]
        · rw [if_neg hin, if_neg (by omega), List.getElem?_set_ne (by omega)]

omit [LinearOrder β] in
/-- A value put in moves the others on, and the last one out. -/
theorem GetkArgs.val_putIn {args : GetkArgs β δ} {pos : Nat} (h : pos < args.k) (val : β) (drag : δ) :
    (args.putIn pos val drag).val = (args.val.insertIdx pos val).take args.k := by
  have hlen := args.length_val
  apply List.ext_getElem?
  intro i
  rw [putIn]
  simp only
  by_cases hi : i < args.k
  · rw [List.getElem?_take_of_lt hi, List.getElem?_insertIdx]
    rcases Nat.lt_trichotomy i pos with hlt | rfl | hgt
    · rw [if_pos hlt, List.getElem?_set_ne (by omega), getElem?_moveRight (by omega),
        if_neg (by omega)]
    · rw [if_neg (Nat.lt_irrefl i), if_pos rfl, if_pos (by omega),
        List.getElem?_set_self (by rw [length_moveRight]; omega)]
    · rw [if_neg (by omega), if_neg (by omega), List.getElem?_set_ne (by omega),
        getElem?_moveRight (by omega), if_pos (by omega)]
  · rw [List.getElem?_take_eq_none (by omega),
      List.getElem?_eq_none (by rw [List.length_set, length_moveRight]; omega)]

/-- The first entry above `v` is behind those that are not. -/
theorem findIdx?_of_sorted {xs : List β} {v : β} (hs : xs.Pairwise (· ≤ ·))
    (h : xs.countP (· ≤ v) < xs.length) : xs.findIdx? (v < ·) = some (xs.countP (· ≤ v)) := by
  rw [List.findIdx?_eq_some_iff_getElem]
  refine ⟨h, ?_, fun j hj => ?_⟩
  · have hlast := lt_countP_iff (v := v) hs (List.getElem?_eq_getElem h)
    simpa using not_le.mp (mt hlast.mpr (Nat.lt_irrefl _))
  · have hfront := (lt_countP_iff (v := v) hs (List.getElem?_eq_getElem (by omega))).mp hj
    simpa using hfront

variable [OrderTop β] {k : Nat} {junk : δ} {args : GetkArgs β δ} {seen : List (β × δ)} {row : β × δ}

/-- What a table holds after the rows `seen`. -/
structure Filled (junk : δ) (args : GetkArgs β δ) (seen : List (β × δ)) : Prop where
  val : args.val = smallest args.k (seen.map Prod.fst ++ List.replicate args.k ⊤)
  n : args.n = min args.k (entrants seen)
  drag : ∀ j < args.k, args.drag[j]? = some (lastDrag junk j seen.reverse)

theorem entrants_pos (h : seen ≠ []) : 0 < entrants seen := by
  cases seen with
  | nil => exact absurd rfl h
  | cons r seen =>
      rw [entrants]
      simp only [List.take_succ_cons, List.take_zero, List.length_singleton]
      omega

theorem entrants_le_length : entrants seen ≤ seen.length := by
  cases seen with
  | nil => exact Nat.le_refl 0
  | cons r seen =>
      have hle : seen.countP (·.1 < ⊤) ≤ seen.length := List.countP_le_length
      rw [entrants, List.length_cons]
      simp only [List.take_succ_cons, List.take_zero, List.length_singleton, List.drop_succ_cons,
        List.drop_zero]
      omega

theorem entrants_append (h : seen ≠ []) :
    entrants (seen ++ [row]) = entrants seen + if row.1 < ⊤ then 1 else 0 := by
  cases seen with
  | nil => exact absurd rfl h
  | cons r seen => simp [entrants, List.countP_append, List.countP_singleton, Nat.add_assoc]

/-- The rows that are not above a value below the greatest have all got in. -/
theorem countP_le_entrants {v : β} (hv : v < ⊤) : seen.countP (·.1 ≤ v) ≤ entrants seen := by
  cases seen with
  | nil => exact Nat.le_refl 0
  | cons r seen =>
      have hle : seen.countP (·.1 ≤ v) ≤ seen.countP (·.1 < ⊤) :=
        List.countP_mono_left fun x _ hx => by
          simpa using lt_of_le_of_lt (by simpa using hx) hv
      rw [List.countP_cons, entrants]
      simp only [List.take_succ_cons, List.take_zero, List.length_singleton, List.drop_succ_cons,
        List.drop_zero]
      split <;> omega

/-- How many of the table are not above `v`. -/
theorem Filled.countP_val (h : Filled junk args seen) (v : β) : args.val.countP (· ≤ v) =
    min args.k (seen.countP (·.1 ≤ v) + if v < ⊤ then 0 else args.k) := by
  rw [h.val, countP_smallest, List.countP_append, List.countP_map, List.countP_replicate]
  congr 2
  by_cases hv : v < ⊤
  · rw [if_pos hv, if_neg (by simpa using hv.ne)]
  · rw [if_neg hv, if_pos (by simpa using hv)]

theorem Filled.sorted (h : Filled junk args seen) : args.val.Pairwise (· ≤ ·) :=
  h.val ▸ sorted_smallest

/-- The values, with one more row. -/
theorem Filled.val_append (h : Filled junk args seen) :
    smallest args.k ((seen ++ [row]).map Prod.fst ++ List.replicate args.k ⊤) =
      (args.val.insertIdx (args.val.countP (· ≤ row.1)) row.1).take args.k := by
  have hperm : ((seen ++ [row]).map Prod.fst ++ List.replicate args.k ⊤).Perm
      (row.1 :: (seen.map Prod.fst ++ List.replicate args.k ⊤)) := by
    rw [List.map_append, List.append_assoc]
    exact List.perm_middle
  rw [smallest_of_perm hperm, smallest_cons, ← h.val]

theorem lastDrag_append (junk : δ) (j : Nat) (row : β × δ) (seen : List (β × δ)) :
    lastDrag junk j (seen ++ [row]).reverse =
      if Lands j row seen.reverse then row.2 else lastDrag junk j seen.reverse := by
  rw [List.reverse_append]
  rfl

theorem lands_iff {j : Nat} (h : seen ≠ []) :
    Lands j row seen.reverse ↔ seen.countP (·.1 ≤ row.1) = j ∧ row.1 < ⊤ := by
  rw [Lands, List.countP_reverse, List.reverse_eq_nil_iff]
  simp only [h, false_or]

/-- The first row. -/
theorem Filled.first (hk : 0 < args.k) (h : Filled junk args []) (row : β × δ) :
    Filled junk (args.putFirst row.1 row.2) [row] where
  val := by
    have hval : args.val = List.replicate args.k ⊤ := by
      rw [h.val, List.map_nil, List.nil_append,
        smallest_of_sorted (List.pairwise_replicate.mpr (.inr le_rfl)), List.take_replicate,
        Nat.min_self]
    have hone : smallest args.k [row.1] = [row.1] := by
      rw [smallest_of_sorted (List.pairwise_singleton ..), List.take_of_length_le (by rw [List.length_singleton]; exact hk)]
    obtain ⟨m, hm⟩ : ∃ m, args.k = m + 1 := ⟨args.k - 1, by omega⟩
    simp only [GetkArgs.putFirst, List.map_cons, List.map_nil]
    rw [smallest_append_top, hone, hval, hm, List.replicate_succ, List.set_cons_zero,
      List.singleton_append, List.take_succ_cons]
    congr 1
    rw [← List.replicate_succ, List.take_replicate, Nat.min_eq_left (Nat.le_succ m)]
  n := by
    have hn : entrants [row] = 1 := rfl
    rw [hn]
    simp only [GetkArgs.putFirst, h.n]
    rw [show entrants ([] : List (β × δ)) = 0 from rfl]
    omega
  drag := by
    intro j hj
    have hlen := args.length_drag
    simp only [GetkArgs.putFirst] at hj ⊢
    cases j with
    | zero =>
        rw [List.getElem?_set_self (by omega)]
        simp [lastDrag, Lands]
    | succ j =>
        rw [List.getElem?_set_ne (by omega), h.drag (j + 1) hj]
        simp [lastDrag, Lands]

/-- A row that gets in. -/
theorem Filled.putIn (h : Filled junk args seen) (hne : seen ≠ [])
    (hlt : args.val.countP (· ≤ row.1) < args.k) :
    Filled junk (args.putIn (args.val.countP (· ≤ row.1)) row.1 row.2) (seen ++ [row]) := by
  have hcount := h.countP_val row.1
  have htop : row.1 < ⊤ := by
    by_contra hno
    rw [if_neg hno] at hcount
    omega
  rw [if_pos htop, Nat.add_zero] at hcount
  have hplace : seen.countP (·.1 ≤ row.1) = args.val.countP (· ≤ row.1) := by omega
  constructor
  · rw [GetkArgs.val_putIn hlt]
    exact h.val_append.symm
  · simp only [GetkArgs.putIn]
    rw [entrants_append hne, if_pos htop, h.n]
    split <;> omega
  · intro j hj
    have hlen := args.length_drag
    simp only [GetkArgs.putIn] at hj ⊢
    rw [lastDrag_append]
    simp only [lands_iff hne, hplace]
    by_cases hjc : args.val.countP (· ≤ row.1) = j
    · rw [if_pos ⟨hjc, htop⟩, hjc, List.getElem?_set_self (by omega)]
    · rw [if_neg (fun hno => hjc hno.1), List.getElem?_set_ne hjc, h.drag j hj]

/-- A row that does not. -/
theorem Filled.skip (h : Filled junk args seen) (hne : seen ≠ [])
    (hge : args.k ≤ args.val.countP (· ≤ row.1)) : Filled junk args (seen ++ [row]) := by
  have hcount := h.countP_val row.1
  have hlen : args.val.countP (· ≤ row.1) ≤ args.val.length := List.countP_le_length
  rw [args.length_val] at hlen
  have hfull : args.val.countP (· ≤ row.1) = args.val.length := by rw [args.length_val]; omega
  constructor
  · rw [h.val_append, hfull, List.insertIdx_length_self, List.take_append_of_le_length
      (by rw [args.length_val]), List.take_of_length_le (by rw [args.length_val])]
  · rw [entrants_append hne, h.n]
    by_cases htop : row.1 < ⊤
    · have hle : seen.countP (·.1 ≤ row.1) ≤ entrants seen := countP_le_entrants htop
      rw [if_pos htop] at hcount ⊢
      omega
    · rw [if_neg htop, Nat.add_zero]
  · intro j hj
    rw [lastDrag_append, h.drag j hj]
    simp only [lands_iff hne]
    rw [if_neg]
    rintro ⟨hplace, htop⟩
    rw [if_pos htop] at hcount
    omega

/-- **A row** is taken or not, and the table holds what it should of one more. -/
theorem getkRow_some (hk : 0 < args.k) (h : Filled junk args seen) (row : β × δ) :
    ∃ args', getkRow args row = some args' ∧ args'.k = args.k ∧ Filled junk args' (seen ++ [row]) := by
  by_cases hne : seen = []
  · subst hne
    have hn : args.n = 0 := by rw [h.n]; exact Nat.min_zero _
    exact ⟨_, if_pos hn, rfl, h.first hk row⟩
  · have hn : args.n ≠ 0 := by
      have := entrants_pos hne
      rw [h.n]
      omega
    have hlen := args.length_val
    obtain ⟨last, hlast⟩ : ∃ last, args.val[args.k - 1]? = some last :=
      ⟨_, List.getElem?_eq_getElem (by omega)⟩
    have hin := lt_countP_iff (v := row.1) h.sorted hlast
    simp only [getkRow, if_neg hn, hlast]
    by_cases hlt : row.1 < last
    · have hc : args.val.countP (· ≤ row.1) < args.k := by
        have := mt hin.mp (not_le.mpr hlt)
        omega
      rw [if_pos hlt, findIdx?_of_sorted h.sorted (by omega)]
      exact ⟨_, rfl, rfl, h.putIn hne hc⟩
    · rw [if_neg hlt]
      have hc := hin.mpr (not_lt.mp hlt)
      exact ⟨_, rfl, rfl, h.skip hne (by omega)⟩

/-! ## the stream -/

theorem foldlM_getkRow (hk : 0 < args.k) (h : Filled junk args seen) (rows : List (β × δ)) :
    ∃ args', rows.foldlM getkRow args = some args' ∧ args'.k = args.k ∧
      Filled junk args' (seen ++ rows) := by
  induction rows generalizing args seen with
  | nil => exact ⟨args, rfl, rfl, by rwa [List.append_nil]⟩
  | cons row rows ih =>
      obtain ⟨args₁, hrow, hk₁, h₁⟩ := getkRow_some hk h row
      obtain ⟨args₂, hrows, hk₂, h₂⟩ := ih (hk₁ ▸ hk) h₁
      refine ⟨args₂, ?_, hk₂.trans hk₁, ?_⟩
      · rw [List.foldlM_cons, hrow]
        exact hrows
      · rwa [List.append_assoc, List.singleton_append] at h₂

/-- The chunks do not show. -/
theorem foldlM_getk (hk : 0 < args.k) (h : Filled junk args seen) {chunks : List (List (β × δ))}
    (hne : ∀ c ∈ chunks, c ≠ []) : ∃ args', chunks.foldlM getk args = some args' ∧
      args'.k = args.k ∧ Filled junk args' (seen ++ chunks.flatten) := by
  induction chunks generalizing args seen with
  | nil => exact ⟨args, rfl, rfl, by rwa [List.flatten_nil, List.append_nil]⟩
  | cons c chunks ih =>
      rw [List.forall_mem_cons] at hne
      obtain ⟨args₁, hrows, hk₁, h₁⟩ := foldlM_getkRow hk h c
      obtain ⟨args₂, hrest, hk₂, h₂⟩ := ih (hk₁ ▸ hk) h₁ hne.2
      refine ⟨args₂, ?_, hk₂.trans hk₁, ?_⟩
      · rw [List.foldlM_cons, getk, if_neg (by simpa using hne.1), if_neg (by omega), hrows]
        exact hrest
      · rwa [List.flatten_cons, ← List.append_assoc]

theorem filled_start (hk : k < 2 ^ 31) (junk : δ) : Filled junk (GetkArgs.start (β := β) hk junk) [] where
  val := by
    simp only [GetkArgs.start, List.map_nil, List.nil_append]
    rw [smallest_of_sorted (List.pairwise_replicate.mpr (.inr le_rfl)), List.take_replicate,
      Nat.min_self]
  n := (Nat.min_zero k).symm
  drag := by
    intro j hj
    simp only [GetkArgs.start] at hj ⊢
    rw [List.getElem?_replicate, if_pos hj]
    rfl

/-- What the table holds at its front, in the end. -/
theorem Filled.take_val (h : Filled junk args seen) :
    args.val.take (min args.k seen.length) = smallest args.k (seen.map Prod.fst) := by
  have hlen : (smallest args.k (seen.map Prod.fst)).length = min args.k seen.length := by
    rw [length_smallest, List.length_map]
  rw [h.val, smallest_append_top, List.take_take, Nat.min_eq_left (Nat.min_le_left ..), ← hlen,
    List.take_left]

theorem Filled.holds_iff (h : Filled junk args seen) :
    args.Holds seen ↔ KeepsDrags args.k junk seen := by
  have hn := h.n
  have hle : entrants seen ≤ seen.length := entrants_le_length
  have hval : ∀ j < min args.k seen.length,
      (smallest args.k (seen.map Prod.fst))[j]? = args.val[j]? := by
    intro j hj
    rw [← h.take_val, List.getElem?_take_of_lt hj]
  constructor
  · intro hh
    have hcount := hh.count
    refine ⟨by omega, fun j hj => ?_⟩
    obtain ⟨r, hr, hv, hd⟩ := hh.drags j (by omega)
    rw [h.drag j (by omega)] at hd
    exact ⟨r, hr, (hval j hj).trans hv, Option.some.inj hd⟩
  · intro hkeep
    have henough := hkeep.enough
    have hcount : args.n = min args.k seen.length := by omega
    refine ⟨hcount, hcount ▸ h.take_val, fun j hj => ?_⟩
    obtain ⟨r, hr, hv, hd⟩ := hkeep.own j (by omega)
    refine ⟨r, hr, (hval j (by omega)).symm.trans hv, ?_⟩
    rw [h.drag j (by omega), hd]

/-- **The `k` smallest, with their drags**: the table holds them after any stream, in
any chunks, exactly where the last row to come to each place has a drag that goes
with the value that ends there. -/
theorem getk_iff (hk : k < 2 ^ 31) (hpos : 0 < k) (junk : δ) (rows : List (β × δ)) :
    GetkRight hk junk rows ↔ KeepsDrags k junk rows := by
  constructor
  · intro h
    obtain ⟨chunks, hflat, hne⟩ : ∃ chunks : List (List (β × δ)), chunks.flatten = rows ∧
        ∀ c ∈ chunks, c ≠ [] := by
      by_cases hrows : rows = []
      · exact ⟨[], hrows.symm, by simp⟩
      · exact ⟨[rows], by simp, by simpa using hrows⟩
    obtain ⟨args, hrun, hholds⟩ := h chunks hflat hne
    obtain ⟨args', hrun', hk', hfill⟩ := foldlM_getk hpos (filled_start hk junk) hne
    cases hrun.symm.trans hrun'
    rw [List.nil_append, hflat] at hfill
    rw [hfill.holds_iff, hk'] at hholds
    exact hholds
  · intro h chunks hflat hne
    obtain ⟨args, hrun, hk', hfill⟩ := foldlM_getk hpos (filled_start hk junk) hne
    rw [List.nil_append, hflat] at hfill
    refine ⟨args, hrun, hfill.holds_iff.mpr ?_⟩
    rw [hk']
    exact h

end Row

/-- Rows that come in the order of their values. -/
def ascending : List (Fin 256 × Nat) := [(1, 10), (2, 20), (3, 30)]

theorem getk_iff_ascending : GetkRight (k := 2) (by decide) 0 ascending :=
  (getk_iff (by decide) (by decide) 0 ascending).mpr ⟨by decide, by decide⟩

/-- A smaller value that comes second. -/
def descending : List (Fin 256 × Nat) := [(2, 20), (1, 10)]

theorem getk_fails : ¬ GetkRight (k := 2) (by decide) 0 descending := by
  intro h
  obtain ⟨args, hrun, hholds⟩ := h [descending] rfl (by decide)
  cases hrun
  obtain ⟨r, hr, hv, hd⟩ := hholds.drags 1 (by decide)
  have hzero : r.2 = 0 := (Option.some.inj hd).symm
  have hall : ∀ r ∈ descending, r.2 ≠ 0 := by decide
  exact hall r hr hzero

end QStore.Operators
