import QStore.Magg.Values

/-!
# QStore.Magg.Chk

`hmap_chk_no_holes` (`hmap_chk_no_holes.tmpl.lua`), with which the tests look over a table: its
`nitems` must be the number of full buckets, and from where the probing of a key starts to where the
key is no bucket may be empty:

```
ploc <= loc        . . p f f l . .
ploc >  loc        f l . . . p f f
```

Its `int n` is negative from `2^31` items on, and then it looks at nothing. It does not look at the
first of the records it sorts either. Every map passes it after every call (`run_hmapChkNoHoles`).
-/

namespace QStore.Magg

open QStore.Ring QStore.RobinHood

section Model

variable {K V : Type} [DecidableEq K] [Zero K]

/-- `CHK_REC_TYPE` -/
structure ChkRec (K : Type) where
  key : K
  loc : Nat
  ploc : Nat
  hsh : UInt32

/-- The loop that makes the records, at bucket `i`. `none`: more than `n` of them. -/
def chkStep (murmurhash3 : K → UInt64 → UInt32) (h : HMap K V) (n : Int) (chks : List (ChkRec K))
    (i : Nat) : Option (List (ChkRec K)) :=
  if (h.bkts i).key = 0 then some chks
  else if (chks.length : Int) ≥ n then none
  else some (chks ++ [⟨(h.bkts i).key, i, h.home murmurhash3 (h.bkts i).key,
    murmurhash3 (h.bkts i).key h.hashkey⟩])

/-- The buckets from `lo` on and below `hi` are full. -/
def fullFrom (h : HMap K V) (lo hi : Nat) : Bool :=
  (List.range' lo (hi - lo)).all fun j => decide ((h.bkts j).key ≠ 0)

/-- The check of one record. -/
def noHoles (h : HMap K V) (c : ChkRec K) : Bool :=
  if c.loc = c.ploc then true
  else if c.ploc < c.loc then fullFrom h c.ploc (c.loc + 1)
  else fullFrom h c.ploc h.size && fullFrom h 0 c.loc

/-- A `uint32_t` in an `int`. -/
def toInt32 (x : Nat) : Int := (x : Int).bmod (2 ^ 32)

/-- `hmap_chk_no_holes`, with its `n`. -/
def chkNoHoles (murmurhash3 : K → UInt64 → UInt32) (h : HMap K V) (n : Int) : Int :=
  if n ≤ 1 then 0
  else match (List.range h.size).foldlM (chkStep murmurhash3 h n) [] with
    | none => -1
    | some chks =>
        if n ≠ chks.length then -1
        else if ((chks.mergeSort fun x y => decide (x.loc ≤ y.loc)).drop 1).all (noHoles h) then 0
        else -1

/-- `hmap_chk_no_holes` -/
def hmapChkNoHoles (murmurhash3 : K → UInt64 → UInt32) (h : HMap K V) : Int :=
  chkNoHoles murmurhash3 h (toInt32 h.nitems)

end Model

variable {K V : Type} [DecidableEq K] [Zero K] {murmurhash3 : K → UInt64 → UInt32} {h : HMap K V}
  {lo hi i p : Nat} {n : Int} {c : ChkRec K} {e : Bkt K V}

omit [DecidableEq K] in
theorem fullFrom_eq_true [DecidableEq K] :
    fullFrom h lo hi = true ↔ ∀ j, lo ≤ j → j < hi → (h.view j).isSome = true := by
  simp only [fullFrom, List.all_eq_true, List.mem_range'_1, decide_eq_true_eq, HMap.view]
  constructor
  · intro hall j hlo hhi
    simp [hall j ⟨hlo, by omega⟩]
  · intro hall j hj
    have := hall j hj.1 (by omega)
    by_contra h0
    simp [h0] at this

/-- A step back on the ring from a slot before the home of a key, or at or after it. -/
theorem exists_add_mod (hp : p < i) {s d : Nat} (hs : s < i) (hd : d < i) (hloc : (s + d) % i = p) :
    (s ≤ p ∧ p = s + d) ∨ (p < s ∧ p + i = s + d) := by
  by_cases hlt : s + d < i
  · rw [Nat.mod_eq_of_lt hlt] at hloc
    omega
  · rw [Nat.mod_eq_sub_mod (by omega), Nat.mod_eq_of_lt (by omega)] at hloc
    omega

/-- From the home of a key to its bucket there is no empty one. -/
theorem WellFormed.noHoles [Zero V] (hg : WellFormed murmurhash3 h) (hp : p < h.size)
    (he : h.view p = some e) {hsh : UInt32} :
    noHoles h ⟨e.key, p, h.home murmurhash3 e.key, hsh⟩ = true := by
  have hwalk : ∀ j ≤ e.psl, (h.view ((h.home murmurhash3 e.key + j) % h.size)).isSome = true := by
    intro j hj
    obtain ⟨f, hf, -⟩ := hg.inv.walk hp he hj
    simp [hf]
  have hhome := hg.home_lt e.key
  have hpsl := hg.inv.psl_lt p e hp he
  rw [Magg.noHoles]
  cases exists_add_mod hp hhome hpsl (hg.inv.loc p e hp he) with
  | inl hle =>
      split
      · rfl
      · rw [if_pos (by simp only at *; omega), fullFrom_eq_true]
        intro j hlo hhi
        simp only at hlo hhi
        have := hwalk (j - h.home murmurhash3 e.key) (by omega)
        rwa [Nat.add_sub_cancel' hlo, Nat.mod_eq_of_lt (by omega)] at this
  | inr hlt =>
      rw [if_neg (by simp only; omega), if_neg (by simp only; omega), Bool.and_eq_true,
        fullFrom_eq_true, fullFrom_eq_true]
      constructor
      · intro j hlo hhi
        simp only at hlo
        have := hwalk (j - h.home murmurhash3 e.key) (by omega)
        rwa [Nat.add_sub_cancel' hlo, Nat.mod_eq_of_lt hhi] at this
      · intro j _ hhi
        simp only at hhi
        have := hwalk (j + h.size - h.home murmurhash3 e.key) (by omega)
        rwa [Nat.add_sub_cancel' (by omega), Nat.add_mod_right, Nat.mod_eq_of_lt (by omega)] at this

/-- The records of the buckets before `i` are as many as are full, and each passes. -/
theorem WellFormed.foldlM_chkStep [Zero V] (hg : WellFormed murmurhash3 h) (hi : i ≤ h.size)
    (hn : n = h.nitems) :
    ∃ chks, (List.range i).foldlM (chkStep murmurhash3 h n) [] = some chks ∧
      chks.length = count i h.view ∧ ∀ c ∈ chks, Magg.noHoles h c = true := by
  induction i with
  | zero => exact ⟨[], rfl, by simp [count], by simp⟩
  | succ i ih =>
      obtain ⟨chks, hrun, hlen, hall⟩ := ih (by omega)
      rw [List.range_succ, List.foldlM_append, hrun]
      simp only [Option.bind_eq_bind, Option.bind_some, List.foldlM_cons, List.foldlM_nil,
        Option.pure_def, Option.bind_fun_some]
      cases hv : h.view i with
      | none =>
          refine ⟨chks, ?_, by rw [count_succ_of_none hv, hlen], hall⟩
          rw [chkStep, if_pos (HMap.view_eq_none.mp hv)]
      | some e =>
          obtain ⟨hb, h0⟩ := HMap.view_eq_some.mp hv
          have hcount : count (i + 1) h.view = count i h.view + 1 := count_succ_of_some hv
          have hmono : count (i + 1) h.view ≤ count h.size h.view := count_mono hi
          have hnit := hg.nitems_eq
          refine ⟨_, by rw [chkStep, hb, if_neg h0, if_neg (by omega)], by simp [hlen, hcount], ?_⟩
          intro c hc
          cases List.mem_append.mp hc with
          | inl hc => exact hall c hc
          | inr hc =>
              rw [List.mem_singleton.mp hc]
              exact hg.noHoles hi hv

theorem toInt32_eq {x : Nat} (hlt : x < 2 ^ 32) (hpos : 0 ≤ toInt32 x) : toInt32 x = x := by
  have hdef : toInt32 x = _ := Int.bmod_def x (2 ^ 32)
  split at hdef <;> omega

/-- **A table that keeps its invariant** passes. -/
theorem WellFormed.hmapChkNoHoles [Zero V] (hg : WellFormed murmurhash3 h) :
    hmapChkNoHoles murmurhash3 h = 0 := by
  obtain ⟨n, hn⟩ : ∃ n, n = toInt32 h.nitems := ⟨_, rfl⟩
  rw [Magg.hmapChkNoHoles, ← hn, chkNoHoles]
  by_cases hsmall : n ≤ 1
  · exact if_pos hsmall
  · have hle : h.nitems ≤ h.size := hg.nitems_eq ▸ count_le ..
    have hlt := hg.size_lt
    have hnit : n = h.nitems := by
      rw [hn]
      exact toInt32_eq (by omega) (by omega)
    obtain ⟨chks, hrun, hlen, hall⟩ := hg.foldlM_chkStep le_rfl hnit
    have hnum : n = chks.length := by rw [hnit, hlen, hg.nitems_eq]
    have hpass : ((chks.mergeSort fun x y => decide (x.loc ≤ y.loc)).drop 1).all
        (Magg.noHoles h) = true := by
      rw [List.all_eq_true]
      exact fun c hc => hall c (List.mem_mergeSort.mp (List.mem_of_mem_drop hc))
    simp only [if_neg hsmall, hrun, hpass, if_true, ← hnum, ne_eq, not_true_eq_false, if_false]

variable [Zero V] {codeForUpdate : V → V → V} {h₀ : HMap K V} {minsize : Nat} {rnd : UInt64}
  {calls sofar : List (Call K V)}

/-- **Every map** passes after every call of a run, however often its keys are put. -/
theorem run_hmapChkNoHoles (murmurhash3 : K → UInt64 → UInt32) (codeForUpdate : V → V → V)
    (hc : hmapCreate minsize rnd = some h₀)
    (hmin : hashInitSize ≤ max minsize hashInitSize % 2 ^ 32) (hkeys : ∀ c ∈ calls, c.key ≠ 0)
    (hf : RunFits murmurhash3 codeForUpdate h₀ calls) (hs : sofar <+: calls) :
    ∃ h, run murmurhash3 codeForUpdate h₀ sofar = some h ∧ hmapChkNoHoles murmurhash3 h = 0 := by
  have hkept₀ : Kept murmurhash3 codeForUpdate h₀ fun _ => [] := hmapCreate_kept hc hmin
  obtain ⟨more, rfl⟩ := hs
  obtain ⟨h, hrun, hkept⟩ := hkept₀.run (fun c hc => hkeys c (List.mem_append_left more hc))
    (runFits_append.mp hf).1
  exact ⟨h, hrun, hkept.good.toWellFormed.hmapChkNoHoles⟩

/-- Key 1 put twice, and 55706 others; the last of them makes the table larger. -/
theorem run_hmapChkNoHoles_grown : ∃ h, run keepKey (· + ·) newMap (lostCalls 55706) = some h ∧
    hmapChkNoHoles keepKey h = 0 :=
  run_hmapChkNoHoles keepKey (· + ·) hmapCreate_zero (by decide) (key_lostCalls le_rfl)
    (runFits_lostCalls le_rfl) (List.prefix_refl _)

end QStore.Magg
