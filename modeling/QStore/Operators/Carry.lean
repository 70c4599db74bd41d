import Mathlib.Algebra.BigOperators.Group.List.Basic
import QStore.Lib.Scan
import QStore.Operators.FToS

/-!
# QStore.Operators.Carry

`prefix_sums` and `is_prev` (`F1S1OPF2/lua/prefix_sums.lua` with `prefix_sums.tmpl`, `is_prev.lua`
with `is_prev_BL.tmpl`): the kernel works on one chunk, and the generator keeps, from one chunk to
the next, what the first element of the next one needs.

```
chunk       5  3 |  8  1 |  2
carried           8     17
prefix sums 5  8 | 16 17 | 19
```

The chunks together are what one pass over the whole vector gives.
-/

namespace QStore.Operators

section Model

variable {α β σ : Type}

/-- What `f2_gen` keeps: `chunk_idx`, and what its kernel reads and writes. -/
structure CarryState (σ : Type) where
  chunkIdx : Nat
  carry : σ

/-- `f2_gen`, of `prefix_sums.lua` and of `is_prev.lua`. `none`: the assertion fails, or what the
kernel does is undefined. -/
def carryGen (f1 : LVector α) (kernel : List α → σ → Option (List β × σ)) :
    Gen (CarryState σ) β := fun s chunkNum =>
  if chunkNum ≠ s.chunkIdx then none
  else
    let f1Buf := f1.getChunk s.chunkIdx
    if f1Buf.length = 0 then some ([], s)
    else (kernel f1Buf s.carry).map fun r => (r.1, ⟨s.chunkIdx + 1, r.2⟩)

/-- `out[i] = in[i] + out[i-1]`, from `out[i-1]` on. -/
def prefixLoop (plus : α → α → Option α) : List α → α → Option (List α)
  | [], _ => some []
  | x :: inp, prev => do
      let y ← plus x prev
      let ys ← prefixLoop plus inp y
      pure (y :: ys)

/-- `out[0]` of `prefix_sums`. -/
def prefixFirst (plus : α → α → Option α) (s : Bool × α) (x : α) : Option α :=
  if s.1 then some x else plus x s.2

/-- `prefix_sums.tmpl`, where the type of the output is that of the input. It carries `is_first` and
`*ptr_last_out_prev_chunk`. -/
def prefixSums (plus : α → α → Option α) (inp : List α) (s : Bool × α) :
    Option (List α × (Bool × α)) :=
  match inp with
  | [] => some ([], s)
  | x :: inp => do
      let out ← prefixFirst plus s x
      let outs ← prefixLoop plus inp out
      pure (out :: outs, (false, outs.getLastD out))

/-- `is_prev_BL.tmpl`. It carries `is_first` and `*ptr_last_val_prev_chunk`. -/
def isPrev (cmpOp : α → α → Bool) (defaultVal : Bool) (inp : List α) (s : Bool × α) :
    Option (List Bool × (Bool × α)) :=
  match inp with
  | [] => some ([], s)
  | x :: inp =>
      some ((if s.1 then defaultVal else cmpOp s.2 x) :: (x :: inp).zipWith cmpOp inp,
        (false, inp.getLastD x))

end Model

variable {α β σ : Type} {f1 : LVector α} {kernel : List α → σ → Option (List β × σ)}
  {f : σ → α → Option (β × σ)} {s t : σ} {ys : List β}

/-- **A generator that carries** gives what a machine gives for the whole vector, where its kernel
gives what the machine gives for a chunk. -/
theorem carryGen_pulls (hk : ∀ c s, c ≠ [] → kernel c s = scan f s c)
    (h : scan f s f1.elems = some (ys, t)) :
    ∃ outs, Pulls (carryGen f1 kernel) f1.maxNumInChunk ⟨0, s⟩ 0 outs ∧ outs.flatten = ys := by
  refine Pulls.of_scan (fun u k s => u = ⟨k, s⟩) f1.pos ?_ rfl h
  rintro u k s ys t rfl hpage
  by_cases hzero : (f1.getChunk k).length = 0
  · have hnil : page f1.maxNumInChunk f1.elems k = [] := List.length_eq_zero_iff.mp hzero
    rw [hnil, scan_nil, Option.some.injEq, Prod.mk.injEq] at hpage
    obtain ⟨rfl, rfl⟩ := hpage
    have hpos := f1.pos
    exact ⟨⟨k, s⟩, by simp [carryGen, hzero], fun hfull => by simp at hfull; omega⟩
  · have hne : f1.getChunk k ≠ [] := fun h0 => hzero (by rw [h0]; rfl)
    refine ⟨⟨k + 1, t⟩, ?_, fun _ => rfl⟩
    have hkern : kernel (f1.getChunk k) s = some (ys, t) := (hk _ s hne).trans hpage
    simp [carryGen, hzero, hkern]

/-! ## prefix_sums -/

section PrefixSums

variable {plus : α → α → Option α}

/-- One element of `prefix_sums`. -/
def prefixStep (plus : α → α → Option α) (s : Bool × α) (x : α) : Option (α × (Bool × α)) :=
  (prefixFirst plus s x).map fun y => (y, (false, y))

theorem scan_prefixStep (inp : List α) (prev : α) : scan (prefixStep plus) (false, prev) inp =
    (prefixLoop plus inp prev).map fun ys => (ys, (false, ys.getLastD prev)) := by
  induction inp generalizing prev with
  | nil => rfl
  | cons x inp ih =>
      cases hy : plus x prev with
      | none => simp [scan_cons, prefixStep, prefixFirst, prefixLoop, hy]
      | some y =>
          simp only [scan_cons, prefixStep, prefixFirst, prefixLoop, hy, Bool.false_eq_true, if_false,
            Option.map_some, Option.bind_some, ih, Option.bind_eq_bind, Option.pure_def]
          cases prefixLoop plus inp y with
          | none => rfl
          | some ys => cases ys <;> rfl

/-- The kernel is the machine on a chunk. -/
theorem prefixSums_eq_scan (inp : List α) (s : Bool × α) :
    prefixSums plus inp s = scan (prefixStep plus) s inp := by
  cases inp with
  | nil => rfl
  | cons x inp =>
      rw [scan_cons, prefixStep, prefixSums]
      cases prefixFirst plus s x with
      | none => rfl
      | some y =>
          simp only [Option.bind_eq_bind, Option.bind_some, Option.map_some, scan_prefixStep]
          cases prefixLoop plus inp y <;> rfl

/-- The machine adds up what it has read. -/
theorem scan_prefixStep_sum [AddMonoid α] (junk : α) {first : Bool} {xs rest : List α}
    (hfirst : first = true ↔ xs = [])
    (hplus : ∀ (ys : List α) (x : α), ys ≠ [] → ys ++ [x] <+: xs ++ rest →
      plus x ys.sum = some (ys ++ [x]).sum) :
    ∃ ys t, scan (prefixStep plus) (first, if first then junk else xs.sum) rest = some (ys, t) ∧
      ∀ i < rest.length, ys[i]? = some ((xs ++ rest).take (xs.length + i + 1)).sum := by
  induction rest generalizing first xs with
  | nil => exact ⟨[], _, rfl, by simp⟩
  | cons x rest ih =>
      have hpre : xs ++ [x] <+: xs ++ x :: rest := ⟨rest, by simp⟩
      have hstep : prefixStep plus (first, if first then junk else xs.sum) x =
          some ((xs ++ [x]).sum, (false, (xs ++ [x]).sum)) := by
        cases first with
        | true => simp [prefixStep, prefixFirst, hfirst.mp rfl]
        | false =>
            have hne : xs ≠ [] := fun h0 => absurd (hfirst.mpr h0) (by simp)
            simp [prefixStep, prefixFirst, hplus xs x hne hpre]
      obtain ⟨ys, t, hrest, hys⟩ := ih
        (show false = true ↔ xs ++ [x] = [] by simp) (by simpa using hplus)
      refine ⟨(xs ++ [x]).sum :: ys, t, ?_, ?_⟩
      · rw [scan_cons, hstep, Option.bind_some]
        simp only [Bool.false_eq_true, if_false] at hrest
        rw [hrest]
        rfl
      · intro i hi
        cases i with
        | zero => simp [List.take_append, List.take_of_length_le]
        | succ i =>
            rw [List.getElem?_cons_succ, hys i (by simpa using hi)]
            congr 2
            simp only [List.append_assoc, List.singleton_append, List.length_append,
              List.length_singleton]
            congr 1
            omega

/-- `prefix_sums`, where no addition it makes fails. What is in `last_cnt` before the first call does
not matter. -/
theorem prefixSums_pulls [AddMonoid α] (f1 : LVector α) (junk : α)
    (hplus : ∀ (ys : List α) (x : α), ys ≠ [] → ys ++ [x] <+: f1.elems →
      plus x ys.sum = some (ys ++ [x]).sum) :
    ∃ outs, Pulls (carryGen f1 (prefixSums plus)) f1.maxNumInChunk ⟨0, (true, junk)⟩ 0 outs ∧
      outs.flatten.length = f1.elems.length ∧
      ∀ i < f1.elems.length, outs.flatten[i]? = some (f1.elems.take (i + 1)).sum := by
  obtain ⟨ys, t, hscan, hys⟩ := scan_prefixStep_sum junk
    (show true = true ↔ ([] : List α) = [] by simp) hplus
  obtain ⟨outs, hpulls, hflat⟩ := carryGen_pulls (fun c s _ => prefixSums_eq_scan c s) hscan
  refine ⟨outs, hpulls, by rw [hflat, length_scan hscan], fun i hi => ?_⟩
  rw [hflat, hys i hi]
  simp

/-- **`prefix_sums`** of `int64_t`, whatever the size of a chunk: element `i` is the sum of the first
`i + 1`, where no sum of the elements can leave 64 bits. -/
theorem prefixSums_I8 (f1 : LVector Int) (junk : Int)
    (hf : (f1.elems.map Int.natAbs).sum < 2 ^ 63) :
    ∃ outs, Pulls (carryGen f1 (prefixSums addI8)) f1.maxNumInChunk ⟨0, (true, junk)⟩ 0 outs ∧
      outs.flatten.length = f1.elems.length ∧
      ∀ i < f1.elems.length, outs.flatten[i]? = some (f1.elems.take (i + 1)).sum := by
  refine prefixSums_pulls f1 junk ?_
  rintro ys x - ⟨rest, hrest⟩
  have hle := natAbs_sum_le ys
  have hparts : (ys.map Int.natAbs).sum + x.natAbs + (rest.map Int.natAbs).sum =
      (f1.elems.map Int.natAbs).sum := by
    rw [← hrest]
    simp [Nat.add_assoc]
  rw [addI8_eq (by omega)]
  simp [Int.add_comm]

/-- Five elements in chunks of two. -/
theorem prefixSums_I8_five : ∃ outs, Pulls (carryGen ⟨[5, 3, 8, -1, 2], 2, by decide⟩
      (prefixSums addI8)) 2 ⟨0, (true, 99)⟩ 0 outs ∧ outs.flatten.length = 5 ∧
    ∀ i < 5, outs.flatten[i]? = some (([5, 3, 8, -1, 2] : List Int).take (i + 1)).sum :=
  prefixSums_I8 ⟨[5, 3, 8, -1, 2], 2, by decide⟩ 99 (by decide)

end PrefixSums

/-! ## is_prev -/

section IsPrev

variable {cmpOp : α → α → Bool} {defaultVal : Bool}

/-- One element of `is_prev`. -/
def prevStep (cmpOp : α → α → Bool) (defaultVal : Bool) (s : Bool × α) (x : α) :
    Option (Bool × (Bool × α)) :=
  some (if s.1 then defaultVal else cmpOp s.2 x, (false, x))

/-- The machine gives the first answer, and compares each element with the one before it. -/
theorem scan_prevStep (s : Bool × α) (x : α) (inp : List α) :
    scan (prevStep cmpOp defaultVal) s (x :: inp) =
      some ((if s.1 then defaultVal else cmpOp s.2 x) :: (x :: inp).zipWith cmpOp inp,
        (false, inp.getLastD x)) := by
  induction inp generalizing s x with
  | nil => rfl
  | cons y inp ih =>
      rw [scan_cons, prevStep, Option.bind_some, ih]
      cases inp <;> rfl

/-- The kernel, whose loop may run in parallel, is the machine on a chunk. -/
theorem isPrev_eq_scan (inp : List α) (s : Bool × α) :
    isPrev cmpOp defaultVal inp s = scan (prevStep cmpOp defaultVal) s inp := by
  cases inp with
  | nil => rfl
  | cons x inp => rw [scan_prevStep, isPrev]

/-- **`is_prev`**, whatever the size of a chunk: the default first, and then whether each element
compares as asked with the one before it, also where that one is in another chunk. -/
theorem isPrev_pulls (cmpOp : α → α → Bool) (defaultVal : Bool) (f1 : LVector α) (junk : α) :
    ∃ outs, Pulls (carryGen f1 (isPrev cmpOp defaultVal)) f1.maxNumInChunk ⟨0, (true, junk)⟩ 0
        outs ∧
      outs.flatten.length = f1.elems.length ∧
      (f1.elems ≠ [] → outs.flatten[0]? = some defaultVal) ∧
      ∀ i x y, f1.elems[i]? = some x → f1.elems[i + 1]? = some y →
        outs.flatten[i + 1]? = some (cmpOp x y) := by
  obtain ⟨ys, t, hscan, hys⟩ : ∃ ys t, scan (prevStep cmpOp defaultVal) (true, junk) f1.elems =
      some (ys, t) ∧ ys = match f1.elems with
        | [] => []
        | x :: inp => defaultVal :: (x :: inp).zipWith cmpOp inp := by
    cases f1.elems with
    | nil => exact ⟨[], _, rfl, rfl⟩
    | cons x inp => exact ⟨_, _, scan_prevStep _ x inp, rfl⟩
  obtain ⟨outs, hpulls, hflat⟩ := carryGen_pulls (fun c s _ => isPrev_eq_scan c s) hscan
  refine ⟨outs, hpulls, by rw [hflat, length_scan hscan], ?_, ?_⟩
  · intro hne
    rw [hflat, hys]
    cases he : f1.elems with
    | nil => exact absurd he hne
    | cons z inp => rfl
  · intro i x y hx hy
    rw [hflat, hys]
    cases he : f1.elems with
    | nil => simp [he] at hx
    | cons z inp =>
        rw [he] at hx hy
        simp only [List.getElem?_cons_succ] at hy ⊢
        simp [List.getElem?_zipWith, hx, hy]

end IsPrev

end QStore.Operators
