import QStore.Lib.MapM
import QStore.Operators.FToS

/-!
# QStore.Operators.Fold

`fold` (`QTILS/lua/fold.lua`): several reducers of one vector go forward together, so that the
vector is read once.

```
sum   next  next  next        chunk 0 | chunk 1 | chunk 2
min   next  next  next
```

The loop ends when the last reducer says so. That is when all of them do: how far a reducer is
depends on the vector only, and not on what it adds up (`Reducer.next_stage`). Only where the vector
remembers the result of the last one, and not those of all, the others have seen one chunk then.
-/

namespace QStore.Operators

section Model

variable {ι α A : Type} (qc : ι → List α → A → Nat → Option A) (x : LVector α)

/-- `expander_f_to_s`: what the vector remembers of an earlier call is returned as it is. -/
def fToS (cache : ι → Option A) (acc : ι → A) (v : ι) : Reducer A :=
  match cache v with
  | some rslt => .ofValue rslt
  | none => .new (acc v)

/-- The loop of `fold`, for at most `fuel` rounds. -/
def foldLoop : Nat → List (ι × Reducer A) → Option (List (ι × Reducer A))
  | 0, _ => none
  | fuel + 1, gens => do
      let nexts ← gens.mapM fun g => (g.2.next (qc g.1) x).map fun r => (r.1, (g.1, r.2))
      let status := (nexts.getLast?.map Prod.fst).getD true
      if status then foldLoop fuel (nexts.map Prod.snd) else pure (nexts.map Prod.snd)

/-- `fold`, up to the getters: the accumulator for each function. What the vector remembers in its
meta data is what a getter has made of an accumulator, which stands for it in `cache`. `none`: an
assertion fails, or a reducer does. -/
def fold [DecidableEq ι] (cache : ι → Option A) (acc : ι → A) (fns : List ι) :
    Option (List (ι × A)) :=
  if ¬ fns.Nodup then none
  else if fns.length = 0 then none
  else do
    let gens ← foldLoop qc x (x.elems.length + 1) (fns.map fun v => (v, fToS cache acc v))
    pure (gens.map fun g => (g.1, g.2.value))

end Model

section FToSFn

/-- The functions in the table of `f_to_s.lua`. -/
inductive FToSFn
  | min
  | max
  | sum
  deriving DecidableEq

/-- What they add up in. -/
inductive FToSArgs
  | minmax (a : MinmaxArgs Int)
  | sum (a : SumArgs)
  deriving DecidableEq

/-- The C functions for integers, with `nT` threads that merge in the order `team`. -/
def FToSFn.qc (nT : Nat) (team : Nat → List Nat) :
    FToSFn → List Int → FToSArgs → Nat → Option FToSArgs
  | .min, inp, .minmax a, off =>
      (minmax MinmaxOp.min.comparator MinmaxOp.min.altComparator (team off) inp a off).map .minmax
  | .max, inp, .minmax a, off =>
      (minmax MinmaxOp.max.comparator MinmaxOp.max.altComparator (team off) inp a off).map .minmax
  | .sum, inp, .sum a, off => (sumI nT inp a off).map .sum
  | _, _, _, _ => none

/-- `accumulator:zero()` -/
def FToSFn.acc : FToSFn → FToSArgs
  | .min => .minmax ⟨0, 0, 0⟩
  | .max => .minmax ⟨0, 0, 0⟩
  | .sum => .sum ⟨0, 0⟩

end FToSFn

variable {ι α A β γ : Type} {qc : ι → List α → A → Nat → Option A} {x : LVector α} {r r' : Reducer A}
  {fuel : Nat} {b : Bool} {cache : ι → Option A} {acc : ι → A}

/-! ## how far a reducer is -/

/-- How far a reducer is. -/
structure Stage where
  hasGen : Bool
  isEor : Bool
  index : Nat
  lChunkNum : Nat

def Reducer.stage (r : Reducer A) : Stage := ⟨r.hasGen, r.isEor, r.index, r.lChunkNum⟩

/-- What `next` returns, and how far the reducer is then. -/
def Stage.next (x : LVector α) (t : Stage) : Bool × Stage :=
  if t.isEor then (false, t)
  else if !t.hasGen then (false, t)
  else if (x.getChunk t.lChunkNum).length = 0 then
    (false, ⟨false, true, t.index + 1, t.lChunkNum⟩)
  else
    (true, ⟨t.hasGen, decide ((x.getChunk t.lChunkNum).length < x.maxNumInChunk), t.index + 1,
      t.lChunkNum + 1⟩)

/-- The accumulator does not matter. -/
theorem Reducer.next_stage {q : List α → A → Nat → Option A} (h : r.next q x = some (b, r')) :
    (b, r'.stage) = r.stage.next x := by
  rw [Reducer.next] at h
  rw [Stage.next]
  cases heor : r.isEor with
  | true => simp_all [Reducer.stage]
  | false =>
      cases hgen : r.hasGen with
      | false => simp_all [Reducer.stage]
      | true =>
          simp only [heor, hgen, Bool.false_eq_true, if_false, Bool.not_true] at h
          obtain ⟨⟨o, l⟩, hgen', hr'⟩ := Option.map_eq_some_iff.mp h
          rw [lgen] at hgen'
          by_cases hidx : r.index = r.lChunkNum
          · by_cases hzero : (x.getChunk r.lChunkNum).length = 0
            · simp [hidx, hzero] at hgen'
              obtain ⟨rfl, rfl⟩ := hgen'
              obtain ⟨rfl, rfl⟩ := Prod.mk.inj hr'
              simp [Reducer.stage, heor, hgen, hzero]
            · simp [hidx, hzero] at hgen'
              obtain ⟨a, -, rfl, rfl⟩ := hgen'
              obtain ⟨rfl, rfl⟩ := Prod.mk.inj hr'
              simp [Reducer.stage, heor, hgen, hzero]
          · simp [hidx] at hgen'

/-! ## one after the other -/

/-- **The loop** of reducers of which those that are not through are as far as the last one is the
loop of each of them. -/
theorem foldLoop_eq {gens : List (ι × Reducer A)} {t : Stage} {g₀ : ι × Reducer A}
    (hg₀ : gens.getLast? = some g₀) (ht₀ : g₀.2.stage = t)
    (ht : ∀ g ∈ gens, g.2.stage = t ∨ g.2.isEor = true) : foldLoop qc x fuel gens =
      gens.mapM fun g => (g.2.evalLoop (qc g.1) x fuel).map fun r => (g.1, r) := by
  induction fuel generalizing gens t g₀ with
  | zero => exact (mapM_eq_none (List.mem_of_getLast? hg₀) rfl).symm
  | succ fuel ih =>
      -- a round of the loop, and what is left to do for each
      let one (g : ι × Reducer A) : Option (Bool × ι × Reducer A) :=
        (g.2.next (qc g.1) x).map fun r => (r.1, (g.1, r.2))
      let rest (q : Bool × ι × Reducer A) : Option (ι × Reducer A) :=
        (if q.1 then q.2.2.evalLoop (qc q.2.1) x fuel else some q.2.2).map fun r => (q.2.1, r)
      have hsplit : (gens.mapM fun g =>
          (g.2.evalLoop (qc g.1) x (fuel + 1)).map fun r => (g.1, r)) =
          (gens.mapM one).bind fun nexts => nexts.mapM rest := by
        rw [← mapM_bind]
        refine mapM_congr fun g _ => ?_
        simp only [Reducer.evalLoop, one, rest]
        cases g.2.next (qc g.1) x with
        | none => rfl
        | some r => rfl
      rw [hsplit, foldLoop]
      cases hnexts : gens.mapM one with
      | none => simp
      | some nexts =>
          -- each that is not through goes on, or none of these does
          have hstage : ∀ g q, g.2.stage = t → one g = some q → (q.1, q.2.2.stage) = t.next x := by
            intro g q hg hq
            obtain ⟨r, hr, rfl⟩ := Option.map_eq_some_iff.mp hq
            rw [← hg]
            exact Reducer.next_stage hr
          obtain ⟨-, hall⟩ : nexts.length = gens.length ∧ ∀ q ∈ nexts,
              (q.1, q.2.2.stage) = t.next x ∨ (q.1 = false ∧ q.2.2.isEor = true) :=
            forall_of_mapM hnexts fun g hg q hq => (ht g hg).imp (fun h => hstage g q h hq) fun heor => by
              simp only [one, Reducer.next_of_isEor heor, Option.map_some, Option.some.injEq] at hq
              rw [← hq]
              exact ⟨rfl, heor⟩
          obtain ⟨q₀, hone, hlast⟩ := getLast?_mapM hg₀ hnexts
          have hq₀ : q₀.1 = (t.next x).1 := congrArg Prod.fst (hstage g₀ q₀ ht₀ hone)
          have hq₀' : q₀.2.2.stage = (t.next x).2 := congrArg Prod.snd (hstage g₀ q₀ ht₀ hone)
          simp only [hlast, Option.map_some, Option.getD_some, Option.bind_eq_bind,
            Option.bind_some, Option.pure_def, hq₀]
          cases hb : (t.next x).1 with
          | false =>
              refine (mapM_eq_map fun q hq => ?_).symm
              have hq1 : q.1 = false := (hall q hq).elim
                (fun h => (congrArg Prod.fst h).trans hb) fun h => h.1
              simp [rest, hq1]
          | true =>
              have hlast' : (nexts.map Prod.snd).getLast? = some q₀.2 := by simp [hlast]
              have hnext : ∀ g ∈ nexts.map Prod.snd,
                  g.2.stage = (t.next x).2 ∨ g.2.isEor = true :=
                List.forall_mem_map.mpr fun q hq => (hall q hq).imp (congrArg Prod.snd) fun h => h.2
              rw [if_pos rfl, ih hlast' hq₀' hnext, List.mapM_map]
              cases fuel with
              | zero =>
                  have hrest : rest q₀ = none := by simp [rest, hq₀, hb, Reducer.evalLoop]
                  rw [mapM_eq_none (List.mem_of_getLast? hlast) hrest,
                    mapM_eq_none (List.mem_of_getLast? hlast) rfl]
              | succ fuel =>
                  refine mapM_congr fun q hq => ?_
                  cases hall q hq with
                  | inl h =>
                      have hq1 : q.1 = true := (congrArg Prod.fst h).trans hb
                      simp [rest, hq1]
                  | inr h => simp [rest, h.1, Reducer.evalLoop_of_isEor h.2]

/-- **`fold`** of any functions gives for each of them what its reducer gives when it is evaluated
alone, and fails if one of these does, unless it is only the last of which the vector remembers the
result. -/
theorem fold_eq_eval [DecidableEq ι] (qc : ι → List α → A → Nat → Option A) (x : LVector α)
    (cache : ι → Option A) (acc : ι → A) {fns : List ι} (hnodup : fns.Nodup) {v₀ : ι}
    (hv₀ : fns.getLast? = some v₀) (hcache : cache v₀ = none ∨ ∀ v ∈ fns, (cache v).isSome) :
    fold qc x cache acc fns =
      fns.mapM fun v => ((fToS cache acc v).eval (qc v) x).map fun r => (v, r.value) := by
  have hne : fns ≠ [] := by
    rintro rfl
    simp at hv₀
  have hlast : (fns.map fun v => (v, fToS cache acc v)).getLast? = some (v₀, fToS cache acc v₀) := by
    simp [hv₀]
  have hstage : ∀ g ∈ fns.map fun v => (v, fToS cache acc v),
      g.2.stage = (fToS cache acc v₀).stage ∨ g.2.isEor = true := by
    refine List.forall_mem_map.mpr fun v hv => ?_
    cases hc : cache v with
    | some a => exact .inr (by simp [fToS, hc, Reducer.ofValue])
    | none =>
        have h0 : cache v₀ = none := hcache.resolve_right fun h => by simpa [hc] using h v hv
        exact .inl (by simp [fToS, hc, h0, Reducer.new, Reducer.stage])
  have hvalues : ∀ gens : List (ι × Reducer A),
      gens.mapM (fun g => some (g.1, g.2.value)) = some (gens.map fun g => (g.1, g.2.value)) :=
    fun gens => mapM_eq_map fun _ _ => rfl
  rw [fold, if_neg (not_not_intro hnodup), if_neg (by simpa using hne),
    foldLoop_eq hlast rfl hstage, List.mapM_map]
  simp only [Option.bind_eq_bind, Option.pure_def, ← hvalues]
  rw [← mapM_bind]
  refine mapM_congr fun v _ => ?_
  have heval : (fToS cache acc v).eval (qc v) x =
      (fToS cache acc v).evalLoop (qc v) x (x.elems.length + 1) := by
    cases hc : cache v with
    | none => simp [Reducer.eval, fToS, hc, Reducer.new]
    | some a =>
        have heor : (fToS cache acc v).isEor = true := by simp [fToS, hc, Reducer.ofValue]
        rw [Reducer.evalLoop_of_isEor heor, Reducer.eval, if_pos heor]
  simp only [heval, Function.comp_apply]
  cases (fToS cache acc v).evalLoop (qc v) x (x.elems.length + 1) with
  | none => rfl
  | some r => rfl

/-- Where the vector remembers the result of the last function, there is one round. -/
theorem fold_eq_next [DecidableEq ι] (qc : ι → List α → A → Nat → Option A) (x : LVector α)
    (cache : ι → Option A) (acc : ι → A) {fns : List ι} (hnodup : fns.Nodup) {v₀ : ι}
    (hv₀ : fns.getLast? = some v₀) (hcache : (cache v₀).isSome) :
    fold qc x cache acc fns =
      fns.mapM fun v => ((fToS cache acc v).next (qc v) x).map fun g => (v, g.2.value) := by
  have hne : fns ≠ [] := by
    rintro rfl
    simp at hv₀
  obtain ⟨a, ha⟩ := Option.isSome_iff_exists.mp hcache
  have heor : (fToS cache acc v₀).isEor = true := by simp [fToS, ha, Reducer.ofValue]
  rw [fold, if_neg (not_not_intro hnodup), if_neg (by simpa using hne), foldLoop, List.mapM_map]
  let one (v : ι) : Option (Bool × ι × Reducer A) :=
    ((fToS cache acc v).next (qc v) x).map fun r => (r.1, (v, r.2))
  have hone : ((fun g : ι × Reducer A => (g.2.next (qc g.1) x).map fun r => (r.1, (g.1, r.2))) ∘
      fun v => (v, fToS cache acc v)) = one := rfl
  have hsplit : (fns.mapM fun v => ((fToS cache acc v).next (qc v) x).map fun g => (v, g.2.value)) =
      (fns.mapM one).bind fun nexts =>
        nexts.mapM fun q => some (q.2.1, q.2.2.value) := by
    rw [← mapM_bind]
    refine mapM_congr fun v _ => ?_
    cases h : (fToS cache acc v).next (qc v) x <;> simp [one, h]
  rw [hone, hsplit]
  cases hnexts : fns.mapM one with
  | none => rfl
  | some nexts =>
      obtain ⟨q₀, hq₀, hlast⟩ := getLast?_mapM hv₀ hnexts
      have hstatus : q₀.1 = false := by
        simp only [one, Reducer.next_of_isEor heor, Option.map_some, Option.some.injEq] at hq₀
        rw [← hq₀]
      have hvalues : nexts.mapM (fun q => some (q.2.1, q.2.2.value)) =
          some (nexts.map fun q => (q.2.1, q.2.2.value)) := mapM_eq_map fun _ _ => rfl
      simp [hlast, hstatus, hvalues]

/-! ## the functions of `f_to_s` -/

/-- What the accumulator of a function says of the elements seen. -/
def FToSFn.Tells (xs : List Int) (acc : FToSArgs) : FToSFn → Prop
  | .min => ∃ a, acc = .minmax a ∧ IsMinmax (· ≤ ·) ⟨0, 0, 0⟩ xs a
  | .max => ∃ a, acc = .minmax a ∧ IsMinmax (· ≥ ·) ⟨0, 0, 0⟩ xs a
  | .sum => acc = .sum ⟨xs.sum, xs.length⟩

/-- How many elements an accumulator has seen. -/
def FToSArgs.num : FToSArgs → Nat
  | .minmax a => a.num
  | .sum a => a.num

/-- The first value in an order is one only. -/
theorem IsFirst.unique {le : Int → Int → Prop} (hle : ∀ {u v}, le u v → le v u → u = v)
    {xs : List Int} {a b : MinmaxArgs Int} (ha : IsFirst le xs a) (hb : IsFirst le xs b) : a = b := by
  have hval : a.val = b.val :=
    hle (ha.le _ (List.mem_of_getElem? hb.mem)) (hb.le _ (List.mem_of_getElem? ha.mem))
  have hidx : a.idx = b.idx := by
    have hab : ¬ a.idx < b.idx := fun h => hb.first _ h (hval ▸ ha.mem)
    have hba : ¬ b.idx < a.idx := fun h => ha.first _ h (hval ▸ hb.mem)
    omega
  have hnum : a.num = b.num := ha.num.trans hb.num.symm
  cases a
  cases b
  simp_all

theorem IsMinmax.unique {le : Int → Int → Prop} (hle : ∀ {u v}, le u v → le v u → u = v)
    {xs : List Int} {a₀ a b : MinmaxArgs Int} (ha : IsMinmax le a₀ xs a) (hb : IsMinmax le a₀ xs b) :
    a = b := by
  by_cases hnil : xs = []
  · rw [ha.1 hnil, hb.1 hnil]
  · exact (ha.2 hnil).unique hle (hb.2 hnil)

theorem FToSFn.Tells.unique {v : FToSFn} {xs : List Int} {a b : FToSArgs} (ha : v.Tells xs a)
    (hb : v.Tells xs b) : a = b := by
  cases v with
  | min =>
      obtain ⟨a, rfl, ha⟩ := ha
      obtain ⟨b, rfl, hb⟩ := hb
      rw [ha.unique Int.le_antisymm hb]
  | max =>
      obtain ⟨a, rfl, ha⟩ := ha
      obtain ⟨b, rfl, hb⟩ := hb
      rw [ha.unique (fun h h' => Int.le_antisymm h' h) hb]
  | sum => exact ha.trans hb.symm

theorem FToSFn.Tells.num {v : FToSFn} {xs : List Int} {a : FToSArgs} (h : v.Tells xs a) :
    a.num = xs.length := by
  have hminmax : ∀ {le : Int → Int → Prop} {a : MinmaxArgs Int}, IsMinmax le ⟨0, 0, 0⟩ xs a →
      a.num = xs.length := by
    intro le a h
    by_cases hnil : xs = []
    · rw [h.1 hnil, hnil, List.length_nil]
    · exact (h.2 hnil).num
  cases v with
  | min =>
      obtain ⟨a, rfl, ha⟩ := h
      exact hminmax ha
  | max =>
      obtain ⟨a, rfl, ha⟩ := h
      exact hminmax ha
  | sum => rw [h, FToSArgs.num]

/-- One more chunk, in a function that keeps its accumulator in another type. -/
theorem Folds.lift {B : Type} {q : List α → A → Nat → Option A} {q' : List α → B → Nat → Option B}
    {Reduces : List α → A → Prop} (c : A → B) (hq : ∀ inp a off, q' inp (c a) off = (q inp a off).map c)
    (h : Folds q x Reduces) : Folds q' x fun xs b => ∃ a, b = c a ∧ Reduces xs a := by
  rintro xs chunk _ hne hpre ⟨a, rfl, ha⟩
  obtain ⟨a', hrun, ha'⟩ := h xs chunk a hne hpre ha
  exact ⟨c a', by rw [hq, hrun, Option.map_some], a', rfl, ha'⟩

section FToSFn

variable {nT : Nat} {team : Nat → List Nat} {x : LVector Int}

theorem FToSFn.folds (hnT : 0 < nT) (hteam : ∀ off, (team off).Perm (List.range nT))
    (hx : (x.elems.map Int.natAbs).sum < 2 ^ 63) (v : FToSFn) :
    Folds (v.qc nT team) x fun xs acc => v.Tells xs acc := by
  cases v with
  | min => exact (minmax_folds .min rfl hnT hteam).lift FToSArgs.minmax fun _ _ _ => rfl
  | max => exact (minmax_folds .max rfl hnT hteam).lift FToSArgs.minmax fun _ _ _ => rfl
  | sum =>
      have h : Folds (FToSFn.sum.qc nT team) x fun xs acc => ∃ a, acc = .sum a ∧
          a = ⟨xs.sum, xs.length⟩ := (sum_folds hnT hx).lift FToSArgs.sum fun _ _ _ => rfl
      intro xs chunk a hne hpre ha
      obtain ⟨b, hrun, a', rfl, rfl⟩ := h xs chunk a hne hpre ⟨_, ha, rfl⟩
      exact ⟨_, hrun, rfl⟩

theorem FToSFn.tells_nil (v : FToSFn) : v.Tells [] v.acc := by
  cases v with
  | min => exact ⟨_, rfl, fun _ => rfl, fun h => absurd rfl h⟩
  | max => exact ⟨_, rfl, fun _ => rfl, fun h => absurd rfl h⟩
  | sum => rfl

variable {cache : FToSFn → Option FToSArgs} {fns : List FToSFn} {v₀ : FToSFn}

/-- A reducer that is evaluated tells of the whole vector. -/
theorem fToS_eval (hnT : 0 < nT) (hteam : ∀ off, (team off).Perm (List.range nT))
    (hx : (x.elems.map Int.natAbs).sum < 2 ^ 63)
    (hcache : ∀ v a, cache v = some a → v.Tells x.elems a) (v : FToSFn) :
    ∃ r, (fToS cache FToSFn.acc v).eval (v.qc nT team) x = some r ∧ v.Tells x.elems r.value ∧
      ∀ a, cache v = some a → r.value = a := by
  cases hc : cache v with
  | some a =>
      refine ⟨.ofValue a, by simp [fToS, hc, Reducer.eval, Reducer.ofValue], hcache v a hc, ?_⟩
      simp [Reducer.ofValue]
  | none =>
      have hnew : Seen x (fun xs acc => v.Tells xs acc) (.new v.acc) 0 := .new v.tells_nil
      obtain ⟨r, hr, hseen, -⟩ := hnew.eval (v.folds hnT hteam hx)
      exact ⟨r, by simpa [fToS, hc] using hr, by simpa using hseen.value, by simp⟩

/-- One that has made a step tells of the first chunk. -/
theorem fToS_next (cache : FToSFn → Option FToSArgs) (hnT : 0 < nT) (hteam : ∀ off, (team off).Perm (List.range nT))
    (hx : (x.elems.map Int.natAbs).sum < 2 ^ 63) (v : FToSFn) :
    ∃ g, (fToS cache FToSFn.acc v).next (v.qc nT team) x = some g ∧
      (cache v = none → v.Tells (x.elems.take x.maxNumInChunk) g.2.value) ∧
      ∀ a, cache v = some a → g.2.value = a := by
  cases hc : cache v with
  | some a =>
      refine ⟨(false, .ofValue a), by simp [fToS, hc, Reducer.next, Reducer.ofValue], by simp, ?_⟩
      simp [Reducer.ofValue]
  | none =>
      have hnew : Seen x (fun xs acc => v.Tells xs acc) (.new v.acc) 0 := .new v.tells_nil
      obtain ⟨b, r, hr, hseen, -⟩ := hnew.next (v.folds hnT hteam hx)
      have htake : x.elems.take (min x.elems.length (0 + x.maxNumInChunk)) =
          x.elems.take x.maxNumInChunk := by
        rw [List.take_eq_take_iff]
        omega
      exact ⟨(b, r), by simpa [fToS, hc] using hr, fun _ => htake ▸ hseen.value, by simp⟩

/-- **`fold` of any of `min`, `max` and `sum`**, each at most once, gives for each of them its value
for the whole vector, as their reducers do one by one, unless it is the last and not all of which the
vector remembers the result: the others have then seen one chunk. -/
theorem fold_fToS (hnT : 0 < nT) (hteam : ∀ off, (team off).Perm (List.range nT))
    (hx : (x.elems.map Int.natAbs).sum < 2 ^ 63)
    (hcache : ∀ v a, cache v = some a → v.Tells x.elems a) (hnodup : fns.Nodup)
    (hv₀ : fns.getLast? = some v₀) :
    ∃ rvals evals, fold (FToSFn.qc nT team) x cache FToSFn.acc fns = some rvals ∧
      (fns.mapM fun v => ((fToS cache FToSFn.acc v).eval (v.qc nT team) x).map
        fun r => (v, r.value)) = some evals ∧
      evals.map Prod.fst = fns ∧ (∀ p ∈ evals, p.1.Tells x.elems p.2) ∧
      (rvals = evals ↔ ((cache v₀).isSome → (∀ v ∈ fns, (cache v).isSome) ∨
        x.elems.length ≤ x.maxNumInChunk)) := by
  choose r hr htells hrem using fToS_eval hnT hteam hx hcache
  have hmap : fns.mapM (fun v => ((fToS cache FToSFn.acc v).eval (v.qc nT team) x).map
      fun r => (v, r.value)) = some (fns.map fun v => (v, (r v).value)) :=
    mapM_eq_map fun v _ => by rw [hr, Option.map_some]
  have hwhole : ∀ p ∈ fns.map fun v => (v, (r v).value), p.1.Tells x.elems p.2 :=
    List.forall_mem_map.mpr fun v _ => htells v
  by_cases hgo : cache v₀ = none ∨ ∀ v ∈ fns, (cache v).isSome
  · refine ⟨_, _, (fold_eq_eval _ x _ _ hnodup hv₀ hgo).trans hmap, hmap, by simp [Function.comp_def],
      hwhole, iff_of_true rfl fun hsome => ?_⟩
    exact .inl (hgo.resolve_left fun h0 => by simp [h0] at hsome)
  · rw [not_or] at hgo
    have hsome : (cache v₀).isSome := Option.isSome_iff_ne_none.mpr hgo.1
    obtain ⟨v₁, hv₁, hnone⟩ : ∃ v ∈ fns, cache v = none := by
      simpa using hgo.2
    choose g hg hchunk hrem' using fToS_next cache hnT hteam hx
    have hstep : fns.mapM (fun v => ((fToS cache FToSFn.acc v).next (v.qc nT team) x).map
        fun g => (v, g.2.value)) = some (fns.map fun v => (v, (g v).2.value)) :=
      mapM_eq_map fun v _ => by rw [hg, Option.map_some]
    refine ⟨_, _, (fold_eq_next _ x _ _ hnodup hv₀ hsome).trans hstep, hmap,
      by simp [Function.comp_def], hwhole, ?_⟩
    rw [List.map_inj_left]
    constructor
    · intro hsame _
      -- a function that has seen one chunk counts its elements
      have hval := (Prod.mk.inj (hsame v₁ hv₁)).2
      have hnum := (hchunk v₁ hnone).num
      rw [hval, (htells v₁).num, List.length_take] at hnum
      exact .inr (by omega)
    · intro h v _
      have hle : x.elems.length ≤ x.maxNumInChunk := (h hsome).resolve_left hgo.2
      cases hc : cache v with
      | some a => rw [hrem' v a hc, hrem v a hc]
      | none =>
          have htells' := hchunk v hc
          rw [List.take_of_length_le hle] at htells'
          rw [htells'.unique (htells v)]

/-- Three elements, two a chunk, of which the sum is known: asked for first, it does no harm. -/
theorem fold_fToS_three : ∃ rvals, fold (FToSFn.qc 2 fun _ => [1, 0]) ⟨[5, -3, 8], 2, by decide⟩
      (fun v => if v = .sum then some (.sum ⟨10, 3⟩) else none) FToSFn.acc [.sum, .min] = some rvals ∧
    ∀ p ∈ rvals, p.1.Tells [5, -3, 8] p.2 := by
  have hteam : [1, 0].Perm (List.range 2) := by decide
  have hx : (([5, -3, 8] : List Int).map Int.natAbs).sum < 2 ^ 63 := by decide
  have hcache : ∀ v a, (if v = FToSFn.sum then some (FToSArgs.sum ⟨10, 3⟩) else none) = some a →
      v.Tells [5, -3, 8] a := by
    intro v a h
    obtain ⟨rfl, h⟩ := Option.ite_none_right_eq_some.mp h
    obtain rfl := Option.some.inj h
    rfl
  have hnodup : [FToSFn.sum, .min].Nodup := by decide
  obtain ⟨rvals, evals, hrun, -, -, htells, hsame⟩ := fold_fToS (x := ⟨[5, -3, 8], 2, by decide⟩)
    (show 0 < 2 by decide) (fun _ => hteam) hx hcache hnodup rfl
  exact ⟨rvals, hrun, hsame.mpr (by simp) ▸ htells⟩

end FToSFn

end QStore.Operators
