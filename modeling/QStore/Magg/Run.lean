import Mathlib.Data.UInt
import Mathlib.Order.Interval.Finset.Nat
import QStore.Magg.Get

/-!
# QStore.Magg.Run

Runs of an aggregator's map: any sequence of `hmap_put`, `hmap_del` and `hmap_get`, for any hash
function and any random numbers the resizes draw.

What a map owes its callers is said of the values put, key by key (`logOf`). It holds after
every call of a run in which no resize meets a key that was put more than once: a resize puts each
key once.
-/

namespace QStore.Magg

open QStore.Ring QStore.RobinHood Function

section Model

variable {K V : Type} [DecidableEq K] [Zero K] [Zero V]

/-- A call, with the random number a resize in it draws. -/
inductive Call (K V : Type)
  | put (rnd : UInt64) (key : K) (val : V)
  | del (rnd : UInt64) (key : K)
  | get (key : K)

/-- The key of a call. -/
def Call.key : Call K V → K
  | .put _ key _ => key
  | .del _ key => key
  | .get key => key

variable (murmurhash3 : K → UInt64 → UInt32) (codeForUpdate : V → V → V)

/-- The map after a call. -/
def Call.step (h : HMap K V) : Call K V → Option (HMap K V)
  | .put rnd key val => (hmapPut murmurhash3 codeForUpdate rnd h key val).map PutResult.hmap
  | .del rnd key => (hmapDel murmurhash3 codeForUpdate rnd h key).map DelResult.hmap
  | .get _ => some h

/-- The map after the calls of a run. -/
def run (h : HMap K V) (calls : List (Call K V)) : Option (HMap K V) :=
  calls.foldlM (fun h c => c.step murmurhash3 codeForUpdate h) h

omit [Zero K] [Zero V] in
/-- The values put since the last deletion, key by key. -/
def Call.log (l : K → List V) : Call K V → K → List V
  | .put _ key val => update l key (l key ++ [val])
  | .del _ key => update l key []
  | .get _ => l

/-- The values a run has put and not deleted since. -/
def logOf (calls : List (Call K V)) : K → List V := calls.foldl Call.log fun _ => []

/-- The aggregate of the values put for a key, and how many they are. -/
def aggregate : List V → Option (Cell V)
  | [] => none
  | v :: vs => some ⟨vs.foldl codeForUpdate v, vs.length + 1⟩

/-- What a map owes its callers. -/
structure Right (h : HMap K V) (l : K → List V) : Prop where
  get : ∀ key, key ≠ 0 → hmapGet murmurhash3 h key = answer (aggregate codeForUpdate (l key))
  nitems : ∃ ks : Finset K, (∀ k, k ∈ ks ↔ l k ≠ []) ∧ ks.card = h.nitems

/-- What a call has to find. A resize: no key put more than once, a next size, and keys that do not
crowd the new table. Another put: keys that do not crowd, and a count that does not wrap. -/
def Call.Meets (h : HMap K V) : Call K V → Prop
  | .put rnd key _ => Puttable murmurhash3 rnd h key ∧
      (Grows h → ∀ k c, Holds h.size h.view k c → c.cnt = 1) ∧
      ∀ c, Holds h.size h.view key c → c.cnt + 1 < 2 ^ 32
  | .del rnd key => Deletable murmurhash3 rnd h key ∧
      ((∃ c, Holds h.size h.view key c) → Shrinks { h with nitems := h.nitems - 1 } →
        ∀ k c, Holds h.size h.view k c → k ≠ key → c.cnt = 1)
  | .get _ => True

/-- Every call of a run meets what it has to. -/
def RunMeets : HMap K V → List (Call K V) → Prop
  | _, [] => True
  | h, c :: cs => c.Meets murmurhash3 h ∧
      ∀ h', c.step murmurhash3 codeForUpdate h = some h' → RunMeets h' cs

end Model

variable {K V : Type} [DecidableEq K] [Zero K] [Zero V] {murmurhash3 : K → UInt64 → UInt32}
  {codeForUpdate : V → V → V} {h h₀ : HMap K V} {m : K → Option (Cell V)} {l : K → List V}
  {key : K} {val : V} {rnd : UInt64} {calls : List (Call K V)} {minsize : Nat}

/-! ## one call -/

omit [DecidableEq K] [Zero K] [Zero V] in
/-- One more value. -/
theorem aggregate_concat (vs : List V) (v : V)
    (hlt : ∀ c, aggregate codeForUpdate vs = some c → c.cnt + 1 < 2 ^ 32) :
    aggregate codeForUpdate (vs ++ [v]) =
      some (putCell codeForUpdate v (aggregate codeForUpdate vs)) := by
  cases vs with
  | nil => rfl
  | cons w ws =>
      have := hlt _ rfl
      simp only at this
      simp only [List.cons_append, aggregate, putCell, List.foldl_append, List.foldl_cons,
        List.foldl_nil, List.length_append, List.length_singleton, Nat.mod_eq_of_lt this]

omit [DecidableEq K] [Zero K] [Zero V] in
/-- Where every key was put once a resize loses nothing. -/
theorem map_once (hone : ∀ c, m key = some c → c.cnt = 1) : (m key).map once = m key := by
  cases hm : m key with
  | none => rfl
  | some c =>
      obtain ⟨v, n⟩ := c
      have hn : n = 1 := hone _ hm
      rw [hn]
      rfl

/-- **One call** that meets what it has to keeps the map and its log together. -/
theorem step_good {c : Call K V} (hg : Good murmurhash3 h)
    (hrep : Rep h fun k => aggregate codeForUpdate (l k)) (hk : c.key ≠ 0)
    (hm : c.Meets murmurhash3 h) :
    ∃ h', c.step murmurhash3 codeForUpdate h = some h' ∧ Good murmurhash3 h' ∧
      Rep h' fun k => aggregate codeForUpdate (c.log l k) := by
  cases c with
  | put rnd key val =>
      obtain ⟨hput, hone, hlt⟩ := hm
      obtain ⟨r, hr, hdone⟩ : ∃ r, hmapPut murmurhash3 codeForUpdate rnd h key val = some r ∧
          PutDone murmurhash3 codeForUpdate rnd h (fun k => aggregate codeForUpdate (l k)) key val
            r := hmapPut_spec hg hrep hk hput
      have hrep' := hdone.rep
      refine ⟨r.hmap, by rw [Call.step, hr]; rfl, hdone.good, ?_⟩
      have hfound : found h (fun k => aggregate codeForUpdate (l k)) =
          fun k => aggregate codeForUpdate (l k) := by
        funext k
        rw [found]
        split
        · next hgrows => exact map_once fun c hc => hone hgrows k c ((hrep k c).mp hc)
        · rfl
      rw [hfound] at hrep'
      have hlog : (fun k => aggregate codeForUpdate ((Call.put rnd key val).log l k)) =
          update (fun k => aggregate codeForUpdate (l k)) key
            (some (putCell codeForUpdate val (aggregate codeForUpdate (l key)))) := by
        funext k
        simp only [Call.log]
        by_cases hkk : k = key
        · rw [hkk, update_self, update_self]
          exact aggregate_concat _ _ fun c hc => hlt c ((hrep key c).mp hc)
        · rw [update_of_ne hkk, update_of_ne hkk]
      rw [hlog]
      exact hrep'
  | del rnd key =>
      obtain ⟨hdel, hone⟩ := hm
      obtain ⟨r, hr, -, hgood, hrep'⟩ : ∃ r, hmapDel murmurhash3 codeForUpdate rnd h key =
          some r ∧ r.status = 0 ∧ Good murmurhash3 r.hmap ∧
          Rep r.hmap (afterDel h (fun k => aggregate codeForUpdate (l k)) key) :=
        hmapDel_spec hg hrep hdel
      refine ⟨r.hmap, by rw [Call.step, hr]; rfl, hgood, ?_⟩
      have hlog : (fun k => aggregate codeForUpdate ((Call.del rnd key).log l k)) =
          update (fun k => aggregate codeForUpdate (l k)) key none := by
        funext k
        simp only [Call.log]
        by_cases hkk : k = key
        · rw [hkk, update_self, update_self]
          rfl
        · rw [update_of_ne hkk, update_of_ne hkk]
      have hafter : afterDel h (fun k => aggregate codeForUpdate (l k)) key =
          update (fun k => aggregate codeForUpdate (l k)) key none := by
        rw [afterDel]
        split
        · next hnone => exact (update_eq_self_iff.mpr hnone.symm).symm
        · next hsome =>
          have hheld := hrep.has_iff.mpr (Option.ne_none_iff_exists'.mp hsome)
          funext k
          rw [leftOver]
          split
          · next hshrinks =>
            refine map_once fun c hc => ?_
            by_cases hkk : k = key
            · rw [hkk, update_self] at hc
              contradiction
            · rw [update_of_ne hkk] at hc
              exact hone hheld hshrinks k c ((hrep k c).mp hc) hkk
          · rfl
      rw [hlog, ← hafter]
      exact hrep'
  | get key => exact ⟨h, rfl, hg, hrep⟩

/-! ## runs -/

theorem run_nil : run murmurhash3 codeForUpdate h [] = some h := rfl

theorem run_cons (c : Call K V) (cs : List (Call K V)) :
    run murmurhash3 codeForUpdate h (c :: cs) =
      (c.step murmurhash3 codeForUpdate h).bind fun g => run murmurhash3 codeForUpdate g cs := by
  rw [run, List.foldlM_cons]
  rfl

theorem run_append (cs ds : List (Call K V)) :
    run murmurhash3 codeForUpdate h (cs ++ ds) =
      (run murmurhash3 codeForUpdate h cs).bind fun g => run murmurhash3 codeForUpdate g ds := by
  rw [run, List.foldlM_append]
  rfl

theorem hmapCreate_good (hc : hmapCreate minsize rnd = some h₀)
    (hmin : hashInitSize ≤ max minsize hashInitSize % 2 ^ 32) :
    Good murmurhash3 h₀ ∧ Rep h₀ (fun _ => none) ∧
      h₀.size = max minsize hashInitSize % 2 ^ 32 := by
  simp only [hmapCreate] at hc
  split at hc
  · contradiction
  · next hpos =>
    rw [← Option.some.inj hc]
    refine ⟨⟨wellFormed_blank (Nat.pos_of_ne_zero hpos) (Nat.mod_lt _ (Nat.two_pow_pos 32)), ?_,
      hmin, hmin, Nat.zero_le _⟩, fun k c => iff_of_false (by simp) holds_blank, rfl⟩
    refine not_crowded_of_card (S := ∅) (fun k hk => ?_) (by simp)
    obtain ⟨c, hk⟩ := hk
    exact absurd hk holds_blank

/-- **A run** whose calls meet what they have to keeps the map and its log together. -/
theorem run_good (hg : Good murmurhash3 h) (hrep : Rep h fun k => aggregate codeForUpdate (l k))
    (hkeys : ∀ c ∈ calls, c.key ≠ 0) (hm : RunMeets murmurhash3 codeForUpdate h calls) :
    ∃ h', run murmurhash3 codeForUpdate h calls = some h' ∧ Good murmurhash3 h' ∧
      Rep h' fun k => aggregate codeForUpdate (calls.foldl Call.log l k) := by
  induction calls generalizing h l with
  | nil => exact ⟨h, rfl, hg, hrep⟩
  | cons c cs ih =>
      obtain ⟨hc, hcs⟩ := hm
      obtain ⟨h', hstep, hg', hrep'⟩ := step_good hg hrep (hkeys c List.mem_cons_self) hc
      obtain ⟨h'', hrun, hg'', hrep''⟩ := ih hg' hrep' (fun d hd => hkeys d (.tail _ hd))
        (hcs h' hstep)
      refine ⟨h'', ?_, hg'', hrep''⟩
      rw [run_cons, hstep]
      exact hrun

/-- A run that goes on meets what it has to so far. -/
theorem RunMeets.of_append {more : List (Call K V)}
    (hm : RunMeets murmurhash3 codeForUpdate h (calls ++ more)) :
    RunMeets murmurhash3 codeForUpdate h calls := by
  induction calls generalizing h with
  | nil => trivial
  | cons c cs ih => exact ⟨hm.1, fun h' hstep => ih (hm.2 h' hstep)⟩

/-- What is right of a table that has its log. -/
theorem Good.right (hg : Good murmurhash3 h)
    (hrep : Rep h fun k => aggregate codeForUpdate (l k)) :
    Right murmurhash3 codeForUpdate h l where
  get key hk := hmapGet_spec hg.toWellFormed hrep hg.room hk
  nitems := by
    obtain ⟨ks, hks, hcard⟩ := exists_keys hg.toWellFormed hrep
    refine ⟨ks, fun k => (hks k).trans (not_congr ?_), hcard⟩
    cases l k <;> simp [aggregate]

/-- **When the map is right**: after every call of a run whose resizes meet no key that was put
more than once, whose tables can still grow and are not crowded, and whose counts do not wrap. -/
theorem run_right (murmurhash3 : K → UInt64 → UInt32) (codeForUpdate : V → V → V)
    (hc : hmapCreate minsize rnd = some h₀)
    (hmin : hashInitSize ≤ max minsize hashInitSize % 2 ^ 32)
    (hkeys : ∀ c ∈ calls, c.key ≠ 0) (hm : RunMeets murmurhash3 codeForUpdate h₀ calls)
    {sofar : List (Call K V)} (hs : sofar <+: calls) :
    ∃ h, run murmurhash3 codeForUpdate h₀ sofar = some h ∧
      Right murmurhash3 codeForUpdate h (logOf sofar) := by
  obtain ⟨hg, hrep, -⟩ : Good murmurhash3 h₀ ∧ Rep h₀ (fun _ => none) ∧
      h₀.size = max minsize hashInitSize % 2 ^ 32 := hmapCreate_good hc hmin
  obtain ⟨more, rfl⟩ := hs
  obtain ⟨h, hrun, hg', hrep'⟩ := run_good (l := fun _ => []) hg hrep
    (fun c hc => hkeys c (List.mem_append_left more hc)) hm.of_append
  exact ⟨h, hrun, hg'.right hrep'⟩

/-! ## one key put twice, and 55706 others -/

/-- A hash function that keeps the key. -/
def keepKey (key : UInt32) (_ : UInt64) : UInt32 := key

/-- A new map of sums. -/
def newMap : HMap UInt32 UInt64 := blank 65536 0 65536

theorem hmapCreate_zero : hmapCreate 0 0 = some newMap := rfl

/-- The key 1 twice, then `n` keys from 2 on. -/
def lostCalls (n : Nat) : List (Call UInt32 UInt64) :=
  .put 0 1 5 :: .put 0 1 5 :: (List.range n).map fun i => .put 0 (UInt32.ofNat (i + 2)) 5

theorem lostCalls_succ (n : Nat) :
    lostCalls (n + 1) = lostCalls n ++ [.put 0 (UInt32.ofNat (n + 2)) 5] := by
  simp [lostCalls, List.range_succ]

omit [Zero K] [Zero V] in
theorem logOf_concat (cs : List (Call K V)) (c : Call K V) :
    logOf (cs ++ [c]) = c.log (logOf cs) := by
  simp [logOf, List.foldl_append]

theorem toNat_ofNat_of_lt {n : Nat} (hn : n < 2 ^ 32) : (UInt32.ofNat n).toNat = n := by
  rw [UInt32.toNat_ofNat', Nat.mod_eq_of_lt hn]

/-- What has been put. -/
theorem logOf_lostCalls {n : Nat} (hn : n ≤ 55706) (k : UInt32) :
    logOf (lostCalls n) k =
      if k = 1 then [5, 5] else if 1 ≤ k.toNat ∧ k.toNat ≤ n + 1 then [5] else [] := by
  induction n generalizing k with
  | zero =>
      have hone : (1 : UInt32).toNat = 1 := rfl
      simp only [lostCalls, List.range_zero, List.map_nil, logOf, List.foldl_cons, List.foldl_nil,
        Call.log]
      by_cases hk : k = 1
      · rw [hk, update_self, update_self, if_pos rfl]
        rfl
      · rw [update_of_ne hk, update_of_ne hk, if_neg hk, if_neg]
        rintro ⟨h1, h2⟩
        exact hk (UInt32.toNat_inj.mp (by rw [hone]; omega))
  | succ n ih =>
      have hkey := toNat_ofNat_of_lt (show n + 2 < 2 ^ 32 by omega)
      have hone : (1 : UInt32).toNat = 1 := rfl
      have hne : UInt32.ofNat (n + 2) ≠ 1 := by
        intro h
        have := congrArg UInt32.toNat h
        omega
      rw [lostCalls_succ, logOf_concat, Call.log]
      by_cases hk : k = UInt32.ofNat (n + 2)
      · rw [hk, update_self, ih (by omega), if_neg hne, if_neg hne, if_neg (by omega),
          if_pos (by omega)]
        rfl
      · have hk' : k.toNat ≠ n + 2 := fun h => hk (UInt32.toNat_inj.mp (h.trans hkey.symm))
        rw [update_of_ne hk, ih (by omega)]
        congr 2
        exact propext (by omega)

/-- The map after these calls: the table has not grown. -/
structure Filled (n : Nat) (h : HMap UInt32 UInt64) : Prop where
  run : run keepKey (· + ·) newMap (lostCalls n) = some h
  good : Good keepKey h
  rep : Rep h fun k => aggregate (· + ·) (logOf (lostCalls n) k)
  size : h.size = 65536

/-- A table of this size grows from 55706 keys on. -/
theorem grows_iff_gt {h : HMap UInt32 UInt64} (hs : h.size = 65536) :
    Grows h ↔ 55706 ≤ h.nitems := by
  have hthr : Hmap.highThreshold 65536 = 55705 := Hmap.highThreshold_eq (by norm_num)
  rw [Grows, hs, hthr]
  exact Iff.rfl

/-- Keys that are `n` numbers are `n`. -/
theorem card_of_range {ks : Finset UInt32} {n : Nat} (hn : n < 2 ^ 32)
    (hks : ∀ k, k ∈ ks ↔ 1 ≤ k.toNat ∧ k.toNat ≤ n) : ks.card = n := by
  have himage : ks.image UInt32.toNat = Finset.Icc 1 n := by
    ext j
    simp only [Finset.mem_image, Finset.mem_Icc, hks]
    constructor
    · rintro ⟨k, hk, rfl⟩
      exact hk
    · intro hj
      have hkey := toNat_ofNat_of_lt (show j < 2 ^ 32 by omega)
      exact ⟨UInt32.ofNat j, by omega, hkey⟩
  rw [← Finset.card_image_of_injective ks fun a b h => UInt32.toNat_inj.mp h, himage,
    Nat.card_Icc, Nat.add_sub_cancel]

theorem Filled.nitems {n : Nat} {h : HMap UInt32 UInt64} (hf : Filled n h) (hn : n ≤ 55706) :
    h.nitems = n + 1 := by
  obtain ⟨ks, hks, hcard⟩ := exists_keys hf.good.toWellFormed hf.rep
  rw [← hcard]
  refine card_of_range (by omega) fun k => (hks k).trans ?_
  have hone : (1 : UInt32).toNat = 1 := rfl
  rw [logOf_lostCalls hn]
  split
  · next hk =>
    rw [hk, hone]
    simp [aggregate]
  · split
    · next hk => simp [aggregate, hk]
    · next hk => simp [aggregate, hk]

/-- Few keys can be put into every table. -/
theorem puttable_of_nitems (hg : WellFormed murmurhash3 h) (hrep : Rep h m) (hlt : h.size < 2 ^ 31)
    (hn : h.nitems + 1 < 2 ^ 16) (rnd : UInt64) (key : K) : Puttable murmurhash3 rnd h key := by
  obtain ⟨ks, hks, hcard⟩ := exists_keys hg hrep
  refine ⟨fun _ => hlt, not_crowded_of_card (S := insert key ks) (fun x hx => ?_) ?_⟩
  · rw [Finset.mem_insert]
    refine hx.imp_right fun hx => (hks x).mpr ?_
    rw [hrep.has_iff] at hx
    exact Option.ne_none_iff_exists'.mpr hx
  · have := Finset.card_insert_le key ks
    omega

/-- A put into the map while it has room meets what it has to. -/
theorem put_meets {h : HMap UInt32 UInt64} (l : UInt32 → List UInt64) (key : UInt32)
    (hg : Good keepKey h) (hrep : Rep h fun k => aggregate (· + ·) (l k)) (hs : h.size = 65536)
    (hn : h.nitems ≤ 55705) (hl : (l key).length ≤ 1) :
    (Call.put (V := UInt64) 0 key 5).Meets keepKey h := by
  have hno : ¬ Grows h := by
    rw [grows_iff_gt hs]
    omega
  refine ⟨puttable_of_nitems hg.toWellFormed hrep (by omega) (by omega) 0 key,
    fun hgrows => absurd hgrows hno, fun c hc => ?_⟩
  have hc' : aggregate (· + ·) (l key) = some c := (hrep key c).mpr hc
  cases hlk : l key with
  | nil => rw [hlk] at hc'; contradiction
  | cons v vs =>
      rw [hlk] at hc' hl
      rw [← Option.some.inj hc']
      simp only [List.length_cons] at hl ⊢
      omega

/-- A put into the map while it has room. -/
theorem put_room {h : HMap UInt32 UInt64} (l : UInt32 → List UInt64) (key : UInt32)
    (hg : Good keepKey h) (hrep : Rep h fun k => aggregate (· + ·) (l k)) (hs : h.size = 65536)
    (hn : h.nitems ≤ 55705) (hk : key ≠ 0) (hl : (l key).length ≤ 1) :
    ∃ h', (Call.put 0 key 5).step keepKey (· + ·) h = some h' ∧ Good keepKey h' ∧
      (Rep h' fun k => aggregate (· + ·) ((Call.put 0 key 5).log l k)) ∧ h'.size = 65536 ∧
      h'.nitems ≤ h.nitems + 1 := by
  have hno : ¬ Grows h := by
    rw [grows_iff_gt hs]
    omega
  have hmeets : (Call.put (V := UInt64) 0 key 5).Meets keepKey h := put_meets l key hg hrep hs hn hl
  obtain ⟨h', hstep, hg', hrep'⟩ := step_good (c := .put 0 key 5) hg hrep hk hmeets
  obtain ⟨r, hr, hdone⟩ : ∃ r, hmapPut keepKey (· + ·) 0 h key 5 = some r ∧
      PutDone keepKey (· + ·) 0 h (fun k => aggregate (· + ·) (l k)) key 5 r :=
    hmapPut_spec hg hrep hk hmeets.1
  rw [Call.step, hr] at hstep
  have hsame : r.hmap = h' := Option.some.inj hstep
  have hframe := hdone.frame
  rw [grown, if_neg hno, hsame] at hframe
  exact ⟨h', by rw [Call.step, hr, ← hsame]; rfl, hg', hrep', hframe.size.trans hs,
    hsame ▸ hdone.nitems⟩

theorem key_ne_of_lt {i j : Nat} (hij : i ≠ j) (hi : i < 2 ^ 32) (hj : j < 2 ^ 32) :
    UInt32.ofNat i ≠ UInt32.ofNat j := by
  intro h
  have := congrArg UInt32.toNat h
  rw [toNat_ofNat_of_lt hi, toNat_ofNat_of_lt hj] at this
  exact hij this

theorem exists_filled_zero : ∃ h, Filled 0 h := by
  obtain ⟨hg, hrep, -⟩ : Good keepKey newMap ∧ Rep newMap (fun _ => none) ∧
      newMap.size = max 0 hashInitSize % 2 ^ 32 := hmapCreate_good hmapCreate_zero (by decide)
  have hsize : newMap.size = 65536 := rfl
  have hzero : newMap.nitems = 0 := rfl
  obtain ⟨h₁, hstep₁, hg₁, hrep₁, hs₁, hn₁⟩ := put_room (logOf []) 1 hg hrep hsize
    (by omega) (by decide) (by decide)
  obtain ⟨h₂, hstep₂, hg₂, hrep₂, hs₂, -⟩ := put_room _ 1 hg₁ hrep₁ hs₁ (by omega)
    (by decide) (by decide)
  refine ⟨h₂, ?_, hg₂, hrep₂, hs₂⟩
  rw [lostCalls, List.range_zero, List.map_nil, run_cons, hstep₁, Option.bind_some, run_cons,
    hstep₂, Option.bind_some, run_nil]

theorem Filled.succ {n : Nat} {h : HMap UInt32 UInt64} (hf : Filled n h) (hn : n < 55705) :
    ∃ h', Filled (n + 1) h' := by
  have hkey := toNat_ofNat_of_lt (show n + 2 < 2 ^ 32 by omega)
  have hne0 : UInt32.ofNat (n + 2) ≠ 0 :=
    key_ne_of_lt (i := n + 2) (j := 0) (by omega) (by omega) (by omega)
  have hne1 : UInt32.ofNat (n + 2) ≠ 1 :=
    key_ne_of_lt (i := n + 2) (j := 1) (by omega) (by omega) (by omega)
  have hnil : logOf (lostCalls n) (UInt32.ofNat (n + 2)) = [] := by
    rw [logOf_lostCalls (by omega), if_neg hne1, if_neg (by omega)]
  obtain ⟨h', hstep, hg', hrep', hs', -⟩ := put_room _ _ hf.good hf.rep hf.size
    (by rw [hf.nitems (by omega)]; omega) hne0 (by rw [hnil]; exact Nat.zero_le 1)
  refine ⟨h', ?_, hg', ?_, hs'⟩
  · rw [lostCalls_succ, run_append, hf.run, Option.bind_some, run_cons, hstep, Option.bind_some,
      run_nil]
  · rw [lostCalls_succ, logOf_concat]
    exact hrep'

theorem exists_filled {n : Nat} (hn : n ≤ 55705) : ∃ h, Filled n h := by
  induction n with
  | zero => exact exists_filled_zero
  | succ n ih =>
      obtain ⟨h, hf⟩ := ih (by omega)
      exact hf.succ hn

theorem key_lostCalls {n : Nat} (hn : n ≤ 55706) : ∀ c ∈ lostCalls n, c.key ≠ 0 := by
  intro c hc
  simp only [lostCalls, List.mem_cons, List.mem_map, List.mem_range] at hc
  rcases hc with rfl | rfl | ⟨i, hi, rfl⟩
  · decide
  · decide
  · exact key_ne_of_lt (i := i + 2) (j := 0) (by omega) (by omega) (by omega)

/-- One more call. -/
theorem RunMeets.concat {c : Call K V} (hm : RunMeets murmurhash3 codeForUpdate h calls)
    (hc : ∀ h', run murmurhash3 codeForUpdate h calls = some h' → c.Meets murmurhash3 h') :
    RunMeets murmurhash3 codeForUpdate h (calls ++ [c]) := by
  induction calls generalizing h with
  | nil => exact ⟨hc h rfl, fun _ _ => trivial⟩
  | cons d ds ih =>
      refine ⟨hm.1, fun h' hstep => ih (hm.2 h' hstep) fun h'' hrun => hc h'' ?_⟩
      rw [run_cons, hstep]
      exact hrun

/-- As long as the table does not grow these calls meet what they have to. -/
theorem runMeets_lostCalls {n : Nat} (hn : n ≤ 55705) :
    RunMeets keepKey (· + ·) newMap (lostCalls n) := by
  induction n with
  | zero =>
      obtain ⟨hg, hrep, -⟩ : Good keepKey newMap ∧ Rep newMap (fun _ => none) ∧
          newMap.size = max 0 hashInitSize % 2 ^ 32 := hmapCreate_good hmapCreate_zero (by decide)
      obtain ⟨h₁, hstep₁, hg₁, hrep₁, hs₁, hn₁⟩ := put_room (logOf []) 1 hg hrep rfl (by decide)
        (by decide) (by decide)
      have hzero : newMap.nitems = 0 := rfl
      refine ⟨put_meets (logOf []) 1 hg hrep rfl (by decide) (by decide), fun h' hstep =>
        ⟨?_, fun _ _ => trivial⟩⟩
      obtain rfl : h₁ = h' := Option.some.inj (hstep₁.symm.trans hstep)
      exact put_meets _ 1 hg₁ hrep₁ hs₁ (by omega) (by decide)
  | succ n ih =>
      rw [lostCalls_succ]
      refine (ih (by omega)).concat fun h hrun => ?_
      obtain ⟨h', hf⟩ := exists_filled (show n ≤ 55705 by omega)
      obtain rfl : h' = h := Option.some.inj (hf.run.symm.trans hrun)
      refine put_meets _ _ hf.good hf.rep hf.size (by rw [hf.nitems (by omega)]; omega) ?_
      have hkey := toNat_ofNat_of_lt (show n + 2 < 2 ^ 32 by omega)
      have hne : UInt32.ofNat (n + 2) ≠ 1 := key_ne_of_lt (j := 1) (by omega) (by omega) (by omega)
      rw [logOf_lostCalls (by omega), if_neg hne, if_neg (by omega)]
      exact Nat.zero_le 1

/-- Key 1 put twice, keys 2, 3 and 4 once, and key 3 deleted. -/
theorem run_right_deleted :
    ∃ h, run keepKey (· + ·) newMap (lostCalls 3 ++ [.del 0 3]) = some h ∧
      Right keepKey (· + ·) h (logOf (lostCalls 3 ++ [.del 0 3])) := by
  have hkeys : ∀ c ∈ lostCalls 3 ++ [Call.del 0 3], c.key ≠ 0 := by decide
  have hmeets : RunMeets keepKey (· + ·) newMap (lostCalls 3 ++ [.del 0 3]) := by
    refine (runMeets_lostCalls (by decide)).concat fun h hrun => ?_
    obtain ⟨h', hf⟩ := exists_filled (show 3 ≤ 55705 by decide)
    obtain rfl : h' = h := Option.some.inj (hf.run.symm.trans hrun)
    have hno : ¬ Shrinks { h' with nitems := h'.nitems - 1 } := by
      have hmin : 65536 ≤ h'.minsize := hf.good.minsize_ge
      have hnit := hf.nitems (by omega)
      simp only [Shrinks]
      omega
    exact ⟨fun _ hs => absurd hs hno, fun _ hs => absurd hs hno⟩
  exact run_right keepKey (· + ·) hmapCreate_zero (by decide) hkeys hmeets (List.prefix_refl _)

/-- **The count of key 1 is lost** when the table grows for the last of the keys. -/
theorem run_right_fails : hmapCreate 0 0 = some newMap ∧ (∀ c ∈ lostCalls 55706, c.key ≠ 0) ∧
    ∃ h, run keepKey (· + ·) newMap (lostCalls 55706) = some h ∧
      ¬ Right keepKey (· + ·) h (logOf (lostCalls 55706)) := by
  obtain ⟨h, hf⟩ := exists_filled (n := 55705) le_rfl
  have hn := hf.nitems (by omega)
  have hgrows : Grows h := (grows_iff_gt hf.size).mpr (by omega)
  have hs := hf.size
  have hput : Puttable keepKey 0 h (UInt32.ofNat 55707) :=
    puttable_of_nitems hf.good.toWellFormed hf.rep (by omega) (by omega) 0 _
  obtain ⟨r, hr, hdone⟩ : ∃ r, hmapPut keepKey (· + ·) 0 h (UInt32.ofNat 55707) 5 = some r ∧
      PutDone keepKey (· + ·) 0 h (fun k => aggregate (· + ·) (logOf (lostCalls 55705) k))
        (UInt32.ofNat 55707) 5 r :=
    hmapPut_spec hf.good hf.rep
      (key_ne_of_lt (j := 0) (by omega) (by omega) (by omega)) hput
  refine ⟨hmapCreate_zero, key_lostCalls le_rfl, r.hmap, ?_, fun hright => ?_⟩
  · rw [lostCalls_succ, run_append, hf.run, Option.bind_some, run_cons, Call.step, hr,
      Option.map_some, Option.bind_some, run_nil]
  · have hget := hmapGet_spec hdone.good.toWellFormed hdone.rep hdone.good.room
      (show (1 : UInt32) ≠ 0 by decide)
    have hne : (1 : UInt32) ≠ UInt32.ofNat 55707 :=
      key_ne_of_lt (i := 1) (by omega) (by omega) (by omega)
    rw [update_of_ne hne, found, if_pos hgrows, logOf_lostCalls (by omega), if_pos rfl,
      hright.get 1 (by decide), logOf_lostCalls le_rfl, if_pos rfl] at hget
    exact absurd (congrArg GetResult.cnt hget) (by decide)

end QStore.Magg
