import QStore.Magg.Run

/-!
# QStore.Magg.Values

Runs of an aggregator's map, and what they keep of keys and values.

A resize loses how often a key was put, and so `QStore.Magg.Run` asks that it meets no key that was
put twice. The keys and the values it does not lose: they are kept in every run whose tables can
still grow and are not crowded, however often its keys are put.
-/

namespace QStore.Magg

open QStore.Ring QStore.RobinHood Function

section Model

variable {K V : Type} [DecidableEq K] [Zero K] [Zero V]

/-- The value of a key, from those put for it. -/
def valueOf (codeForUpdate : V → V → V) : List V → Option V
  | [] => none
  | v :: vs => some (vs.foldl codeForUpdate v)

variable (murmurhash3 : K → UInt64 → UInt32) (codeForUpdate : V → V → V)

/-- What a call has to find: a next size for a table that grows, and keys that do not crowd the
table it writes to. -/
def Call.Fits (h : HMap K V) : Call K V → Prop
  | .put rnd key _ => Puttable murmurhash3 rnd h key
  | .del rnd key => Deletable murmurhash3 rnd h key
  | .get _ => True

/-- Every call of a run finds what it has to. -/
def RunFits : HMap K V → List (Call K V) → Prop
  | _, [] => True
  | h, c :: cs => c.Fits murmurhash3 h ∧
      ∀ h', c.step murmurhash3 codeForUpdate h = some h' → RunFits h' cs

/-- What a map keeps of the values put. -/
structure Kept (h : HMap K V) (l : K → List V) : Prop where
  good : Good murmurhash3 h
  rep : ∃ m, Rep h m ∧ ∀ k, (m k).map Cell.val = valueOf codeForUpdate (l k)

end Model

variable {K V : Type} [DecidableEq K] [Zero K] [Zero V] {murmurhash3 : K → UInt64 → UInt32}
  {codeForUpdate : V → V → V} {h h₀ : HMap K V} {m : K → Option (Cell V)} {l : K → List V}
  {key k : K} {val : V} {rnd : UInt64} {calls more : List (Call K V)} {c : Call K V}
  {minsize n : Nat}

/-! ## one call -/

omit [DecidableEq K] [Zero K] [Zero V] in
@[simp] theorem val_putCell (d : Option (Cell V)) : (putCell codeForUpdate val d).val =
    ((d.map Cell.val).map fun v => codeForUpdate v val).getD val := by
  cases d <;> rfl

omit [DecidableEq K] [Zero K] [Zero V] in
theorem valueOf_concat (vs : List V) : valueOf codeForUpdate (vs ++ [val]) =
    some (((valueOf codeForUpdate vs).map fun v => codeForUpdate v val).getD val) := by
  cases vs with
  | nil => rfl
  | cons v vs => simp [valueOf, List.foldl_append]

omit [DecidableEq K] [Zero K] [Zero V] in
/-- A resize leaves the values. -/
@[simp] theorem val_comp_once : Cell.val ∘ once (V := V) = Cell.val := rfl

omit [DecidableEq K] [Zero K] [Zero V] in
theorem map_val_found : (found h m k).map Cell.val = (m k).map Cell.val := by
  rw [found]
  split <;> simp

omit [Zero K] [Zero V] in
theorem map_val_afterDel :
    (afterDel h m key k).map Cell.val = ((update m key none) k).map Cell.val := by
  rw [afterDel]
  split
  · next hnone => rw [update_eq_self_iff.mpr hnone.symm]
  · rw [leftOver]
    split <;> simp

/-- **One call** keeps the map and the values together. -/
theorem Kept.step (hk : Kept murmurhash3 codeForUpdate h l) (hkey : c.key ≠ 0)
    (hf : c.Fits murmurhash3 h) : ∃ h', c.step murmurhash3 codeForUpdate h = some h' ∧
      Kept murmurhash3 codeForUpdate h' (c.log l) := by
  obtain ⟨hg, m, hrep, hval⟩ := hk
  cases c with
  | put rnd key val =>
      obtain ⟨r, hr, hdone⟩ : ∃ r, hmapPut murmurhash3 codeForUpdate rnd h key val = some r ∧
          PutDone murmurhash3 codeForUpdate rnd h m key val r := hmapPut_spec hg hrep hkey hf
      refine ⟨r.hmap, by simp [Call.step, hr], hdone.good, _, hdone.rep, fun k => ?_⟩
      simp only [Call.log]
      by_cases hkk : k = key
      · subst hkk
        simp [valueOf_concat, map_val_found, hval]
      · simp [hkk, map_val_found, hval]
  | del rnd key =>
      obtain ⟨r, hr, -, hgood, hrep'⟩ : ∃ r, hmapDel murmurhash3 codeForUpdate rnd h key =
          some r ∧ r.status = 0 ∧ Good murmurhash3 r.hmap ∧ Rep r.hmap (afterDel h m key) :=
        hmapDel_spec hg hrep hf
      refine ⟨r.hmap, by simp [Call.step, hr], hgood, _, hrep', fun k => ?_⟩
      simp only [Call.log, map_val_afterDel]
      by_cases hkk : k = key
      · subst hkk
        simp [valueOf]
      · simp [hkk, hval]
  | get key => exact ⟨h, rfl, hg, m, hrep, hval⟩

theorem Kept.hmapPut (hk : Kept murmurhash3 codeForUpdate h l) (hkey : key ≠ 0)
    (hp : Puttable murmurhash3 rnd h key) :
    ∃ r, Magg.hmapPut murmurhash3 codeForUpdate rnd h key val = some r ∧ r.status = 0 := by
  obtain ⟨hg, m, hrep, -⟩ := hk
  obtain ⟨r, hr, hdone⟩ : ∃ r, Magg.hmapPut murmurhash3 codeForUpdate rnd h key val = some r ∧
      PutDone murmurhash3 codeForUpdate rnd h m key val r := hmapPut_spec hg hrep hkey hp
  exact ⟨r, hr, hdone.status⟩

omit [Zero V] in
/-- Of a key in a bucket some value was put. -/
theorem Kept.ne_nil (hk : Kept murmurhash3 codeForUpdate h l) {q : Nat} (hq : q < h.size)
    (hkey : (h.bkts q).key = key) (hne : key ≠ 0) : l key ≠ [] := by
  obtain ⟨hg, m, hrep, hval⟩ := hk
  intro hnil
  have hfresh : Fresh h.size h.view key := by
    rw [hrep.fresh_iff, ← Option.map_eq_none_iff (f := Cell.val), hval, hnil]
    rfl
  exact hfresh q _ hq (HMap.view_eq_some.mpr ⟨rfl, by rw [hkey]; exact hne⟩) hkey

omit [DecidableEq K] [Zero K] in
@[simp] theorem answer_val (d : Option (Cell V)) : (answer d).val = (d.map Cell.val).getD 0 := by
  cases d <;> rfl

omit [DecidableEq K] [Zero K] in
@[simp] theorem answer_isFound (d : Option (Cell V)) :
    (answer d).isFound = (d.map Cell.val).isSome := by
  cases d <;> rfl

/-! ## runs -/

theorem hmapCreate_kept (hc : hmapCreate minsize rnd = some h₀)
    (hmin : hashInitSize ≤ max minsize hashInitSize % 2 ^ 32) :
    Kept murmurhash3 codeForUpdate h₀ fun _ => [] := by
  obtain ⟨hg, hrep, -⟩ : Good murmurhash3 h₀ ∧ Rep h₀ (fun _ => none) ∧
      h₀.size = max minsize hashInitSize % 2 ^ 32 := hmapCreate_good hc hmin
  exact ⟨hg, _, hrep, fun _ => rfl⟩

/-- **A run** keeps the map and the values together. -/
theorem Kept.run (hk : Kept murmurhash3 codeForUpdate h l) (hkeys : ∀ c ∈ calls, c.key ≠ 0)
    (hf : RunFits murmurhash3 codeForUpdate h calls) :
    ∃ h', run murmurhash3 codeForUpdate h calls = some h' ∧
      Kept murmurhash3 codeForUpdate h' (calls.foldl Call.log l) := by
  induction calls generalizing h l with
  | nil => exact ⟨h, rfl, hk⟩
  | cons c cs ih =>
      obtain ⟨hc, hcs⟩ := hf
      obtain ⟨h₁, hstep, hk₁⟩ := hk.step (hkeys c List.mem_cons_self) hc
      obtain ⟨h₂, hrun, hk₂⟩ := ih hk₁ (fun d hd => hkeys d (.tail _ hd)) (hcs h₁ hstep)
      refine ⟨h₂, ?_, hk₂⟩
      rw [run_cons, hstep]
      exact hrun

/-- A run that goes on: so far, and from there. -/
theorem runFits_append : RunFits murmurhash3 codeForUpdate h (calls ++ more) ↔
    RunFits murmurhash3 codeForUpdate h calls ∧
      ∀ h', Magg.run murmurhash3 codeForUpdate h calls = some h' →
        RunFits murmurhash3 codeForUpdate h' more := by
  induction calls generalizing h with
  | nil => simp [RunFits, run_nil]
  | cons c cs ih =>
      simp only [List.cons_append, RunFits, ih, run_cons]
      cases c.step murmurhash3 codeForUpdate h <;> simp [and_assoc]

/-- What a lookup finds: the value of the key, but not how often it was put. -/
theorem Kept.hmapGet (hk : Kept murmurhash3 codeForUpdate h l) (hkey : key ≠ 0) :
    ∃ cnt, Magg.hmapGet murmurhash3 h key = ⟨0, (valueOf codeForUpdate (l key)).getD 0, cnt,
      (valueOf codeForUpdate (l key)).isSome⟩ := by
  obtain ⟨hg, m, hrep, hval⟩ := hk
  refine ⟨(answer (m key)).cnt, ?_⟩
  rw [hmapGet_spec hg.toWellFormed hrep hg.room hkey, ← hval]
  cases m key <;> rfl

omit [Zero V] in
/-- There is one item for each key that was put. -/
theorem Kept.nitems (hk : Kept murmurhash3 codeForUpdate h l) :
    ∃ ks : Finset K, (∀ k, k ∈ ks ↔ l k ≠ []) ∧ ks.card = h.nitems := by
  obtain ⟨hg, m, hrep, hval⟩ := hk
  obtain ⟨ks, hks, hcard⟩ := exists_keys hg.toWellFormed hrep
  refine ⟨ks, fun k => ?_, hcard⟩
  rw [hks, ne_eq, ← Option.map_eq_none_iff (f := Cell.val), hval]
  cases l k <;> simp [valueOf]

/-- **The values are right** after every call of a run, however often its keys are put and whatever
resizes meet them, and so is the number of items. -/
theorem run_values (murmurhash3 : K → UInt64 → UInt32) (codeForUpdate : V → V → V)
    (hc : hmapCreate minsize rnd = some h₀)
    (hmin : hashInitSize ≤ max minsize hashInitSize % 2 ^ 32) (hkeys : ∀ c ∈ calls, c.key ≠ 0)
    (hf : RunFits murmurhash3 codeForUpdate h₀ calls) {sofar : List (Call K V)}
    (hs : sofar <+: calls) :
    ∃ h, Magg.run murmurhash3 codeForUpdate h₀ sofar = some h ∧
      (∀ key, key ≠ 0 → ∃ cnt, Magg.hmapGet murmurhash3 h key =
        ⟨0, (valueOf codeForUpdate (logOf sofar key)).getD 0, cnt,
          (valueOf codeForUpdate (logOf sofar key)).isSome⟩) ∧
      ∃ ks : Finset K, (∀ k, k ∈ ks ↔ logOf sofar k ≠ []) ∧ ks.card = h.nitems := by
  have hkept₀ : Kept murmurhash3 codeForUpdate h₀ fun _ => [] := hmapCreate_kept hc hmin
  obtain ⟨more, rfl⟩ := hs
  obtain ⟨h, hrun, hkept⟩ := hkept₀.run (fun c hc => hkeys c (List.mem_append_left more hc))
    (runFits_append.mp hf).1
  exact ⟨h, hrun, fun key hkey => hkept.hmapGet hkey, hkept.nitems⟩

/-! ## a run whose table grows -/

/-- A call of a run of few keys finds a table that can take it. -/
theorem Kept.fits_put (hk : Kept murmurhash3 codeForUpdate h l) (hs : h.size = 65536)
    (hn : h.nitems + 1 < 2 ^ 16) : (Call.put rnd key val).Fits murmurhash3 h := by
  obtain ⟨hg, m, hrep, -⟩ := hk
  exact puttable_of_nitems hg.toWellFormed hrep (by omega) hn rnd key

theorem Filled.kept {h : HMap UInt32 UInt64} (hf : Filled n h) :
    Kept keepKey (· + ·) h (logOf (lostCalls n)) :=
  ⟨hf.good, _, hf.rep, fun k => by cases logOf (lostCalls n) k <;> rfl⟩

/-- A call that meets what it has to fits. -/
theorem RunMeets.fits (hm : RunMeets murmurhash3 codeForUpdate h calls) :
    RunFits murmurhash3 codeForUpdate h calls := by
  induction calls generalizing h with
  | nil => trivial
  | cons c cs ih =>
      refine ⟨?_, fun h' hstep => ih (hm.2 h' hstep)⟩
      cases c with
      | put rnd key val => exact hm.1.1
      | del rnd key => exact hm.1.1
      | get key => trivial

/-- The run that loses the count of key 1 fits, and the put that makes the table larger too. -/
theorem runFits_lostCalls (hn : n ≤ 55706) : RunFits keepKey (· + ·) newMap (lostCalls n) := by
  cases hn.lt_or_eq with
  | inl hlt => exact (runMeets_lostCalls (by omega)).fits
  | inr heq =>
      subst heq
      rw [lostCalls_succ, runFits_append]
      refine ⟨(runMeets_lostCalls le_rfl).fits, fun h hrun => ⟨?_, fun _ _ => trivial⟩⟩
      obtain ⟨h', hf⟩ := exists_filled (n := 55705) le_rfl
      obtain rfl : h' = h := Option.some.inj (hf.run.symm.trans hrun)
      exact hf.kept.fits_put hf.size (by rw [hf.nitems (by omega)]; omega)

/-- Key 1 put twice, and 55706 others: its count is lost when the table grows, and not its value. -/
theorem run_values_grown : ∃ h, Magg.run keepKey (· + ·) newMap (lostCalls 55706) = some h ∧
    ∃ cnt, hmapGet keepKey h 1 = ⟨0, 10, cnt, true⟩ := by
  obtain ⟨h, hrun, hget, -⟩ := run_values keepKey (· + ·) hmapCreate_zero (by decide)
    (key_lostCalls le_rfl) (runFits_lostCalls le_rfl) (List.prefix_refl _)
  have hone := hget 1 (by decide)
  rw [logOf_lostCalls le_rfl, if_pos rfl] at hone
  exact ⟨h, hrun, hone⟩

end QStore.Magg
