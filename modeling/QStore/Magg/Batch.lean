import QStore.Lib.Blocks
import QStore.Magg.Values

/-!
# QStore.Magg.Batch

The batch calls of an aggregator (`agg.tmpl.lua`): `putn` and `getn` of a whole chunk of keys.

```
hmap_mk_hsh   hash of each key
hmap_mk_loc   where its probing starts
hmap_mk_tid   which thread looks for it
hmap_putn     each thread looks for its keys; what is not found is put, one by one
hmap_getn     the keys in blocks, one for each thread
```

An array is a function of the place, and only its first `nkeys` places are in use. The threads of
`hmap_putn` write to places of their own, so that the order in which they come does not matter: it
is any order here. How many they are is for OpenMP to say: the region does not ask for `nT` of them.
With fewer some keys are nobody's, and one more writes behind the `nT` entries of `all_num_probes`.

`hmap_putn` does nothing to a key that it finds: between its comments on the update there is no
code. A thread never resets its `num_probes` either, so that some keys the map has are not found;
these are put, and `hmap_put` updates them. What holds for every batch is that its puts are those of
the keys it did not find (`hmapPutn_spec`), and these are all keys that the map did not have.
-/

namespace QStore.Magg

open QStore.Ring QStore.RobinHood Function

section Model

variable {K V : Type} [DecidableEq K] [Zero K] [Zero V]

/-- `hmap_mk_hsh` -/
def hmapMkHsh (murmurhash3 : K → UInt64 → UInt32) (keys : Nat → K) (nkeys : Nat)
    (hmapHashkey : UInt64) (hashes : Nat → UInt32) : Nat → UInt32 :=
  fun i => if i < nkeys then murmurhash3 (keys i) hmapHashkey else hashes i

/-- `hmap_mk_loc` -/
def hmapMkLoc (hashes : Nat → UInt32) (nkeys hmapSize : Nat) (locs : Nat → Nat) : Nat → Nat :=
  fun i =>
    if i < nkeys then Hmap.fastRem32 (hashes i).toNat hmapSize (Hmap.fastDiv32Init hmapSize)
    else locs i

/-- `hmap_mk_tid`, into an array of `uint8_t`. -/
def hmapMkTid (hashes : Nat → UInt32) (nkeys nT : Nat) (tids : Nat → Nat) : Nat → Nat :=
  fun i =>
    if i < nkeys then Hmap.fastRem32 (hashes i).toNat nT (Hmap.fastDiv32Init nT) % 2 ^ 8
    else tids i

/-- The probing of `hmap_getn` and `hmap_putn`: the bucket of the key, if it is found, and
`num_probes`. The source has no bound; `none` is a probing that has come round the table. -/
def probe (h : HMap K V) (key : K) : Nat → Nat → Nat → Option (Option Nat × Nat)
  | 0, _, _ => none
  | left + 1, numProbes, p =>
      if (h.bkts p).key = key then some (some p, numProbes)
      else if (h.bkts p).key = 0 ∨ numProbes > (h.bkts p).psl then some (none, numProbes)
      else probe h key left ((numProbes + 1) % 2 ^ 32) (next h.size p)

/-! ### hmap_getn -/

/-- What `hmap_getn` writes. -/
structure GetnOut (V : Type) where
  vals : Nat → V
  fnds : Nat → Bool

/-- `hmap_getn` on the key at place `j`. -/
def getnStep (h : HMap K V) (keys : Nat → K) (locs : Nat → Nat) (o : GetnOut V) (j : Nat) :
    Option (GetnOut V) :=
  (probe h (keys j) h.size 0 (locs j)).map fun r =>
    match r.1 with
    | some p => ⟨update o.vals j (h.bkts p).val.val, update o.fnds j true⟩
    | none => ⟨update o.vals j 0, update o.fnds j false⟩

/-- `hmap_getn`. `none`: a division by zero, or a probing that does not end. -/
def hmapGetn (h : HMap K V) (nT : Nat) (keys : Nat → K) (locs : Nat → Nat) (nkeys : Nat)
    (o : GetnOut V) : Option (GetnOut V) :=
  if nT = 0 then none
  else (List.range nT).foldlM
    (fun o tid => (Blocks.block nkeys nT tid).foldlM (getnStep h keys locs) o) o

/-! ### hmap_putn -/

/-- What the threads of `hmap_putn` write. -/
structure Search where
  fnds : Nat → Bool
  isNew : Nat → Bool

/-- The thread `mytid` at the key at place `j`, with its `num_probes`. -/
def putnStep (h : HMap K V) (keys : Nat → K) (locs tids : Nat → Nat) (mytid : Nat)
    (o : Search × Nat) (j : Nat) : Option (Search × Nat) :=
  if tids j ≠ mytid then some o
  else (probe h (keys j) h.size o.2 (locs j)).map fun r =>
    match r.1 with
    | some _ => (⟨update o.1.fnds j true, o.1.isNew⟩, r.2)
    | none => (⟨update o.1.fnds j false, update o.1.isNew mytid true⟩, r.2)

/-- The thread `mytid`, which writes its `num_probes` to its entry of `nT`. `none`: there is none. -/
def putnThread (h : HMap K V) (keys : Nat → K) (locs tids : Nat → Nat) (nT nkeys : Nat) (o : Search)
    (mytid : Nat) : Option Search :=
  if mytid ≥ nT then none
  else ((List.range nkeys).foldlM (putnStep h keys locs tids mytid) (o, 0)).map Prod.fst

/-- What `hmap_putn` returns and writes. -/
structure PutnResult (K V : Type) where
  status : Int
  fnds : Nat → Bool
  numNew : Nat
  hmap : HMap K V

/-- The loop that puts what was not found. It stops at a put that fails. -/
def putNew (murmurhash3 : K → UInt64 → UInt32) (codeForUpdate : V → V → V) (rnds : Nat → UInt64)
    (keys : Nat → K) (vals : Nat → V) (fnds : Nat → Bool) :
    List Nat → Nat → HMap K V → Option (Int × Nat × HMap K V)
  | [], numNew, h => some (0, numNew, h)
  | i :: is, numNew, h =>
      if fnds i then putNew murmurhash3 codeForUpdate rnds keys vals fnds is numNew h
      else (hmapPut murmurhash3 codeForUpdate (rnds i) h (keys i) (vals i)).bind fun r =>
        if r.status < 0 then some (r.status, numNew, r.hmap)
        else putNew murmurhash3 codeForUpdate rnds keys vals fnds is (numNew + 1) r.hmap

/-- `hmap_putn`, with the threads that OpenMP gives in the order in which they come. `rnds i` is the
random number that a resize draws where the key at place `i` is put. -/
def hmapPutn (murmurhash3 : K → UInt64 → UInt32) (codeForUpdate : V → V → V) (rnds : Nat → UInt64)
    (h : HMap K V) (keys : Nat → K) (locs tids : Nat → Nat) (nT : Nat) (threads : List Nat)
    (vals : Nat → V) (nkeys : Nat) (fnds : Nat → Bool) : Option (PutnResult K V) :=
  (threads.foldlM (putnThread h keys locs tids nT nkeys) ⟨fnds, fun _ => false⟩).bind fun s =>
    if (List.range nT).any s.isNew then
      (putNew murmurhash3 codeForUpdate rnds keys vals s.fnds (List.range nkeys) 0 h).map
        fun r => ⟨if r.1 < 0 then r.1 else if r.2.1 = 0 then -1 else 0, s.fnds, r.2.1, r.2.2⟩
    else some ⟨0, s.fnds, 0, h⟩

/-! ### the calls -/

/-- The buffers of an aggregator. -/
structure Bufs where
  hshs : Nat → UInt32
  locs : Nat → Nat
  tids : Nat → Nat
  fnds : Nat → Bool

/-- `l_agg_getn`, from the keys to `mvals` and `fnds`. -/
def lAggGetn (murmurhash3 : K → UInt64 → UInt32) (h : HMap K V) (bufs : Bufs) (mvals : Nat → V)
    (keys : Nat → K) (numKeys numThreads : Nat) : Option (GetnOut V) :=
  let hshs := hmapMkHsh murmurhash3 keys numKeys h.hashkey bufs.hshs
  hmapGetn h numThreads keys (hmapMkLoc hshs numKeys h.size bufs.locs) numKeys ⟨mvals, bufs.fnds⟩

/-- `l_agg_putn`, from the keys and `mvals` on. `none` also for a division by zero in `hmap_mk_tid`. -/
def lAggPutn (murmurhash3 : K → UInt64 → UInt32) (codeForUpdate : V → V → V)
    (rnds : Nat → UInt64) (threads : List Nat) (h : HMap K V) (bufs : Bufs) (mvals : Nat → V)
    (keys : Nat → K) (numKeys numThreads : Nat) : Option (PutnResult K V) :=
  let hshs := hmapMkHsh murmurhash3 keys numKeys h.hashkey bufs.hshs
  if numThreads = 0 then none
  else
    hmapPutn murmurhash3 codeForUpdate rnds h keys (hmapMkLoc hshs numKeys h.size bufs.locs)
      (hmapMkTid hshs numKeys numThreads bufs.tids) numThreads threads mvals numKeys bufs.fnds

end Model

variable {K V : Type} [DecidableEq K] [Zero K] [Zero V] {murmurhash3 : K → UInt64 → UInt32}
  {codeForUpdate : V → V → V} {h h₀ : HMap K V} {m : K → Option (Cell V)} {key : K}

/-! ## probing -/

/-- What a probing tells `hmap_get`. -/
def GetResult.ofProbe (h : HMap K V) : Option (Option Nat × Nat) → GetResult V
  | none => ⟨-1, 0, 0, false⟩
  | some (none, _) => ⟨0, 0, 0, false⟩
  | some (some p, _) => ⟨0, (h.bkts p).val.val, (h.bkts p).val.cnt, true⟩

/-- The probing without a bound is the one of `hmap_get`. -/
theorem getLoop_eq_probe {left n p : Nat} (hlt : n + left < 2 ^ 32) :
    getLoop h key left n p = .ofProbe h (probe h key left n p) := by
  induction left generalizing n p with
  | zero => rfl
  | succ left ih =>
      rw [getLoop, probe, Nat.mod_eq_of_lt (by omega), ih (by omega)]
      split
      · rfl
      · split <;> rfl

omit [Zero V] in
/-- With an empty bucket ahead a probing ends, whatever `num_probes` is at its start. -/
theorem probe_ends {left n p j : Nat} (hp : p < h.size) (hj : j < left)
    (hnone : h.view ((p + j) % h.size) = none) :
    ∃ r n', probe h key left n p = some (r, n') ∧
      ∀ q, r = some q → q < h.size ∧ (h.bkts q).key = key := by
  induction left generalizing n p j with
  | zero => omega
  | succ left ih =>
      rw [probe]
      split
      · next hkey =>
        exact ⟨some p, n, rfl, fun q hq => by cases hq; exact ⟨hp, hkey⟩⟩
      · split
        · exact ⟨none, n, rfl, fun q hq => by contradiction⟩
        · next hgo =>
          cases j with
          | zero =>
              rw [Nat.add_zero, Nat.mod_eq_of_lt hp, HMap.view_eq_none] at hnone
              exact absurd (.inl hnone) hgo
          | succ j =>
              rw [succ_add_mod hp] at hnone
              exact ih (next_lt hp) (by omega) hnone

omit [Zero V] in
theorem WellFormed.probe_ends (hg : WellFormed murmurhash3 h) (hroom : h.nitems < h.size)
    (key : K) (n : Nat) {p : Nat} (hp : p < h.size) : ∃ r n', probe h key h.size n p = some (r, n') ∧
      ∀ q, r = some q → q < h.size ∧ (h.bkts q).key = key := by
  obtain ⟨z, hz, hnone⟩ := hg.exists_empty hroom
  obtain ⟨j, hj, hjz⟩ := exists_add_mod_eq p hz
  exact Magg.probe_ends hp hj (by rw [hjz]; exact hnone)

/-- The probing of a key from its home finds what the map has. -/
theorem WellFormed.ofProbe_home (hg : WellFormed murmurhash3 h) (hrep : Rep h m)
    (hroom : h.nitems < h.size) (hk : key ≠ 0) :
    GetResult.ofProbe h (probe h key h.size 0 (h.home murmurhash3 key)) = answer (m key) := by
  have hlt := hg.size_lt
  rw [← getLoop_eq_probe (by omega), ← hmapGet_spec hg hrep hroom hk, hmapGet,
    if_neg (Nat.not_le.mpr (hg.home_lt key))]

/-! ## hmap_mk_loc and hmap_mk_tid -/

section Buffers

variable {nkeys nT j : Nat}

omit [DecidableEq K] [Zero K] [Zero V] in
/-- Where the probing of a key starts is its home. -/
theorem hmapMkLoc_eq (keys : Nat → K) (hashes : Nat → UInt32) (locs : Nat → Nat)
    (hdiv : h.divinfo = Hmap.fastDiv32Init h.size) (hj : j < nkeys) :
    hmapMkLoc (hmapMkHsh murmurhash3 keys nkeys h.hashkey hashes) nkeys h.size locs j =
      h.home murmurhash3 (keys j) := by
  simp [hmapMkLoc, hmapMkHsh, hj, HMap.home, hdiv]

/-- There is a thread for every key. -/
theorem hmapMkTid_lt (hashes : Nat → UInt32) (tids : Nat → Nat) (hnT : 0 < nT) (hlt : nT < 2 ^ 32) (hj : j < nkeys) :
    hmapMkTid hashes nkeys nT tids j < nT := by
  have heq : Hmap.fastRem32 (hashes j).toNat nT (Hmap.fastDiv32Init nT) =
      (hashes j).toNat % nT :=
    Hmap.setProbeLoc_eq hnT hlt (UInt32.toNat_lt _)
  rw [hmapMkTid, if_pos hj, heq]
  exact (Nat.mod_le _ _).trans_lt (Nat.mod_lt _ hnT)

end Buffers

/-! ## hmap_getn -/

section Getn

variable {keys : Nat → K} {locs : Nat → Nat} {nkeys nT j : Nat} {o : GetnOut V}

/-- The place of one key. -/
theorem getnStep_eq (hg : WellFormed murmurhash3 h) (hrep : Rep h m) (hroom : h.nitems < h.size)
    (hk : keys j ≠ 0) (hloc : locs j = h.home murmurhash3 (keys j)) :
    getnStep h keys locs o j = some ⟨update o.vals j (answer (m (keys j))).val,
      update o.fnds j (answer (m (keys j))).isFound⟩ := by
  have hend := hg.probe_ends hroom (keys j) 0 (hg.home_lt (keys j))
  obtain ⟨r, n', hprobe, -⟩ := hend
  have hans := hg.ofProbe_home hrep hroom hk
  rw [hprobe] at hans
  rw [getnStep, hloc, hprobe, Option.map_some, ← hans]
  cases r <;> rfl

/-- **A batch of lookups**, in however many blocks, is one lookup for each key. -/
theorem hmapGetn_eq (hg : WellFormed murmurhash3 h) (hrep : Rep h m) (hroom : h.nitems < h.size)
    (hk : ∀ j < nkeys, keys j ≠ 0) (hloc : ∀ j < nkeys, locs j = h.home murmurhash3 (keys j))
    (hnT : 0 < nT) :
    hmapGetn h nT keys locs nkeys o =
      some ⟨fun j => if j < nkeys then (answer (m (keys j))).val else o.vals j,
        fun j => if j < nkeys then (answer (m (keys j))).isFound else o.fnds j⟩ := by
  rw [hmapGetn, if_neg (by omega), Blocks.foldlM_block hnT]
  induction nkeys with
  | zero => simp
  | succ n ih =>
      rw [List.range_succ, List.foldlM_append, ih (fun j hj => hk j (by omega))
        (fun j hj => hloc j (by omega))]
      simp only [Option.bind_eq_bind, Option.bind_some, List.foldlM_cons, List.foldlM_nil,
        getnStep_eq hg hrep hroom (hk n (Nat.lt_succ_self n)) (hloc n (Nat.lt_succ_self n)),
        Option.pure_def, Option.some.injEq, GetnOut.mk.injEq]
      constructor <;> funext j <;> grind [update_apply]

end Getn

/-! ## hmap_putn -/

section Putn

variable {keys : Nat → K} {locs tids : Nat → Nat} {nkeys nT j n mytid : Nat} {s : Search}
  {fnds : Nat → Bool} {done : Nat → Prop} {threads : List Nat} {rnds : Nat → UInt64}
  {vals : Nat → V}

/-- What the threads have written once the places of `done` have had their turn. -/
structure Searched (h : HMap K V) (keys : Nat → K) (tids : Nat → Nat) (fnds : Nat → Bool)
    (done : Nat → Prop) (s : Search) : Prop where
  found : ∀ j, done j → s.fnds j = true → ∃ q < h.size, (h.bkts q).key = keys j
  new : ∀ j, done j → s.fnds j = false → s.isNew (tids j) = true
  some_new : ∀ t, s.isNew t = true → ∃ j, done j ∧ s.fnds j = false
  rest : ∀ j, ¬ done j → s.fnds j = fnds j

omit [DecidableEq K] [Zero K] [Zero V] in
theorem Searched.congr {done' : Nat → Prop} (hs : Searched h keys tids fnds done s)
    (hiff : ∀ j, done j ↔ done' j) : Searched h keys tids fnds done' s := by
  have : done = done' := funext fun j => propext (hiff j)
  exact this ▸ hs

omit [DecidableEq K] [Zero K] [Zero V] in
/-- One more place is written. -/
theorem Searched.write (hs : Searched h keys tids fnds done s) (hj : ¬ done j) (b : Bool)
    (hb : b = true → ∃ q < h.size, (h.bkts q).key = keys j) :
    Searched h keys tids fnds (fun i => done i ∨ i = j)
      ⟨update s.fnds j b, if b then s.isNew else update s.isNew (tids j) true⟩ where
  found i hi hf := by
    by_cases hij : i = j
    · subst hij
      exact hb (by simpa using hf)
    · exact hs.found i (hi.resolve_right hij) (by simpa [hij] using hf)
  new i hi hf := by
    by_cases hij : i = j
    · subst hij
      have : b = false := by simpa using hf
      simp [this]
    · have hnew := hs.new i (hi.resolve_right hij) (by simpa [hij] using hf)
      cases b <;> simp [hnew, update_apply]
  some_new t ht := by
    have hkept : s.isNew t = true →
        ∃ i, (done i ∨ i = j) ∧ update s.fnds j b i = false := by
      intro ht
      obtain ⟨i, hi, hf⟩ := hs.some_new t ht
      have hij : i ≠ j := fun hij => hj (hij ▸ hi)
      exact ⟨i, .inl hi, by simp [hij, hf]⟩
    cases b with
    | true => exact hkept (by simpa using ht)
    | false => exact ⟨j, .inr rfl, by simp⟩
  rest i hi := by
    obtain ⟨hdone, hij⟩ := not_or.mp hi
    simpa [hij] using hs.rest i hdone

omit [Zero V] in
/-- One key of a thread. -/
theorem Searched.putnStep (hs : Searched h keys tids fnds done s) (mytid n : Nat)
    (hg : WellFormed murmurhash3 h) (hroom : h.nitems < h.size) (hloc : locs j < h.size)
    (hj : ¬ done j) : ∃ s' n', putnStep h keys locs tids mytid (s, n) j = some (s', n') ∧
      Searched h keys tids fnds (fun i => done i ∨ (i = j ∧ tids i = mytid)) s' := by
  rw [Magg.putnStep]
  by_cases htid : tids j = mytid
  · have hiff : ∀ i, (done i ∨ i = j) ↔ (done i ∨ (i = j ∧ tids i = mytid)) := by
      intro i
      constructor <;> rintro (hi | hi) <;> grind
    obtain ⟨r, n', hprobe, hfound⟩ := hg.probe_ends hroom (keys j) n hloc
    rw [if_neg (not_not.mpr htid), hprobe, Option.map_some]
    cases r with
    | some q =>
        exact ⟨_, n', rfl, (hs.write hj true fun _ => ⟨q, hfound q rfl⟩).congr hiff⟩
    | none =>
        refine ⟨_, n', rfl, ?_⟩
        have := (hs.write hj false (by simp)).congr hiff
        simpa [htid] using this
  · exact ⟨s, n, if_pos htid, hs.congr fun i => by grind⟩

omit [Zero V] in
/-- The keys of a thread. -/
theorem Searched.putnThread (hs : Searched h keys tids fnds done s)
    (hg : WellFormed murmurhash3 h) (hroom : h.nitems < h.size)
    (hloc : ∀ j < nkeys, locs j < h.size) (hlt : mytid < nT)
    (hdone : ∀ j, tids j = mytid → ¬ done j) :
    ∃ s', putnThread h keys locs tids nT nkeys s mytid = some s' ∧
      Searched h keys tids fnds (fun i => done i ∨ (i < nkeys ∧ tids i = mytid)) s' := by
  have hloop : ∃ s' n', (List.range nkeys).foldlM (Magg.putnStep h keys locs tids mytid) (s, 0) =
      some (s', n') ∧
      Searched h keys tids fnds (fun i => done i ∨ (i < nkeys ∧ tids i = mytid)) s' := by
    induction nkeys with
    | zero => exact ⟨s, 0, rfl, hs.congr fun i => by simp⟩
    | succ k ih =>
        obtain ⟨s₁, n₁, hrun, hs₁⟩ := ih fun j hj => hloc j (by omega)
        by_cases htid : tids k = mytid
        · obtain ⟨s₂, n₂, hstep, hs₂⟩ := hs₁.putnStep mytid n₁ hg hroom
            (hloc k (Nat.lt_succ_self k)) (by grind)
          refine ⟨s₂, n₂, ?_, hs₂.congr fun i => by grind⟩
          rw [List.range_succ, List.foldlM_append, hrun]
          simp [hstep]
        · refine ⟨s₁, n₁, ?_, hs₁.congr fun i => by grind⟩
          rw [List.range_succ, List.foldlM_append, hrun]
          simp [Magg.putnStep, htid]
  obtain ⟨s', n', hrun, hs'⟩ := hloop
  exact ⟨s', by rw [Magg.putnThread, if_neg (not_le.mpr hlt), hrun, Option.map_some], hs'⟩

omit [Zero V] in
/-- **The threads**, in any order, find only keys of the map, and leave no place out. -/
theorem exists_searched (hg : WellFormed murmurhash3 h) (hroom : h.nitems < h.size)
    (hloc : ∀ j < nkeys, locs j < h.size) (htids : ∀ j < nkeys, tids j < nT)
    (hthreads : threads.Perm (List.range nT)) :
    ∃ s, threads.foldlM (Magg.putnThread h keys locs tids nT nkeys) ⟨fnds, fun _ => false⟩ =
        some s ∧
      Searched h keys tids fnds (· < nkeys) s := by
  have hrun : ∀ (ts : List Nat) (done : Nat → Prop) (s : Search), ts.Nodup → (∀ t ∈ ts, t < nT) →
      (∀ t ∈ ts, ∀ j, tids j = t → ¬ done j) → Searched h keys tids fnds done s →
      ∃ s', ts.foldlM (Magg.putnThread h keys locs tids nT nkeys) s = some s' ∧
        Searched h keys tids fnds (fun i => done i ∨ (i < nkeys ∧ tids i ∈ ts)) s' := by
    intro ts
    induction ts with
    | nil => exact fun done s _ _ _ hs => ⟨s, rfl, hs.congr fun i => by simp⟩
    | cons t ts ih =>
        intro done s hnd hlt hdone hs
        rw [List.nodup_cons] at hnd
        obtain ⟨s₁, hstep, hs₁⟩ := hs.putnThread hg hroom hloc (hlt t List.mem_cons_self)
          (hdone t List.mem_cons_self)
        obtain ⟨s₂, hrest, hs₂⟩ := ih _ s₁ hnd.2 (by grind) (by grind) hs₁
        refine ⟨s₂, ?_, hs₂.congr fun i => by grind⟩
        rw [List.foldlM_cons, hstep]
        exact hrest
  obtain ⟨s, hs, hsearched⟩ := hrun threads (fun _ => False) ⟨fnds, fun _ => false⟩
    (hthreads.nodup_iff.mpr List.nodup_range)
    (fun t ht => List.mem_range.mp (hthreads.mem_iff.mp ht)) (by simp)
    ⟨by simp, by simp, by simp, by simp⟩
  refine ⟨s, hs, hsearched.congr fun i => ?_⟩
  rw [hthreads.mem_iff, List.mem_range]
  grind

/-- The calls that put the keys at some places. -/
def putCalls (rnds : Nat → UInt64) (keys : Nat → K) (vals : Nat → V) (is : List Nat) :
    List (Call K V) :=
  is.map fun i => .put (rnds i) (keys i) (vals i)

/-- The loop that puts what was not found is a run of `hmap_put`. -/
theorem putNew_eq {l : K → List V} {is : List Nat} (hkept : Kept murmurhash3 codeForUpdate h l)
    (hk : ∀ i ∈ is, keys i ≠ 0)
    (hf : RunFits murmurhash3 codeForUpdate h (putCalls rnds keys vals (is.filter (!fnds ·)))) :
    ∃ h', run murmurhash3 codeForUpdate h (putCalls rnds keys vals (is.filter (!fnds ·))) =
        some h' ∧
      putNew murmurhash3 codeForUpdate rnds keys vals fnds is n h =
        some (0, n + (is.filter (!fnds ·)).length, h') := by
  induction is generalizing h n l with
  | nil => exact ⟨h, rfl, rfl⟩
  | cons i is ih =>
      cases hi : fnds i with
      | true =>
          rw [List.filter_cons_of_neg (by simp [hi])] at hf ⊢
          rw [putNew, if_pos hi]
          exact ih hkept (fun j hj => hk j (.tail _ hj)) hf
      | false =>
          rw [List.filter_cons_of_pos (by simp [hi])] at hf ⊢
          obtain ⟨hput, hrest⟩ := hf
          have hk0 := hk i List.mem_cons_self
          obtain ⟨h₁, hstep, hkept₁⟩ := hkept.step (c := .put (rnds i) (keys i) (vals i)) hk0 hput
          obtain ⟨r, hr, hstatus⟩ : ∃ r, hmapPut murmurhash3 codeForUpdate (rnds i) h (keys i)
              (vals i) = some r ∧ r.status = 0 := hkept.hmapPut hk0 hput
          have hsame : r.hmap = h₁ := by
            rw [Call.step, hr] at hstep
            exact Option.some.inj hstep
          obtain ⟨h', hrun, hputs⟩ := ih (n := n + 1) hkept₁ (fun j hj => hk j (.tail _ hj))
            (hrest h₁ hstep)
          refine ⟨h', ?_, ?_⟩
          · rw [putCalls, List.map_cons, run_cons, hstep]
            exact hrun
          · rw [putNew, if_neg (by simp [hi]), hr, Option.bind_some, hstatus,
              if_neg (lt_irrefl _), hsame, hputs, List.length_cons]
            congr 3
            omega

/-- **A batch of puts** finds only keys of the map, and then puts those it did not find. -/
theorem hmapPutn_spec {l : K → List V} (rnds : Nat → UInt64) (vals : Nat → V)
    (fnds : Nat → Bool) (hkept : Kept murmurhash3 codeForUpdate h l) (hk : ∀ j < nkeys, keys j ≠ 0)
    (hloc : ∀ j < nkeys, locs j < h.size) (htids : ∀ j < nkeys, tids j < nT)
    (hthreads : threads.Perm (List.range nT)) :
    ∃ found : Nat → Bool, (∀ j < nkeys, found j = true → l (keys j) ≠ []) ∧
      (∀ j, nkeys ≤ j → found j = fnds j) ∧
      (RunFits murmurhash3 codeForUpdate h
          (putCalls rnds keys vals ((List.range nkeys).filter (!found ·))) →
        ∃ h', run murmurhash3 codeForUpdate h
            (putCalls rnds keys vals ((List.range nkeys).filter (!found ·))) = some h' ∧
          hmapPutn murmurhash3 codeForUpdate rnds h keys locs tids nT threads vals nkeys fnds =
            some ⟨0, found, ((List.range nkeys).filter (!found ·)).length, h'⟩) := by
  obtain ⟨s, hsearch, hs⟩ : ∃ s, threads.foldlM (putnThread h keys locs tids nT nkeys)
      ⟨fnds, fun _ => false⟩ = some s ∧ Searched h keys tids fnds (· < nkeys) s :=
    exists_searched hkept.good.toWellFormed hkept.good.room hloc htids hthreads
  refine ⟨s.fnds, fun j hj hf => ?_, fun j hj => hs.rest j (not_lt.mpr hj), fun hf => ?_⟩
  · obtain ⟨q, hq, hkey⟩ := hs.found j hj hf
    exact hkept.ne_nil hq hkey (hk j hj)
  · obtain ⟨h', hrun, hput⟩ := putNew_eq (n := 0) hkept
      (fun i hi => hk i (List.mem_range.mp hi)) hf
    refine ⟨h', hrun, ?_⟩
    rw [hmapPutn, hsearch, Option.bind_some]
    split
    · next hany =>
      obtain ⟨t, -, ht⟩ := List.any_eq_true.mp hany
      obtain ⟨j, hj, hf⟩ := hs.some_new t ht
      have hmem : j ∈ (List.range nkeys).filter (!s.fnds ·) := by simp [hj, hf]
      have hne := (List.length_pos_of_mem hmem).ne'
      simp only [hput, Option.map_some, lt_irrefl, if_false, Nat.zero_add, hne]
    · next hany =>
      have hnil : (List.range nkeys).filter (!s.fnds ·) = [] := by
        rw [List.filter_eq_nil_iff]
        intro j hj hf
        rw [List.mem_range] at hj
        exact hany (List.any_eq_true.mpr ⟨tids j, List.mem_range.mpr (htids j hj),
          hs.new j hj (by simpa using hf)⟩)
      rw [hnil] at hrun ⊢
      rw [← Option.some.inj hrun]
      rfl

omit [Zero V] in
/-- A thread too many has no entry to write to. -/
theorem foldlM_putnThread_eq_none {t : Nat} (ht : t ∈ threads) (hge : nT ≤ t) :
    threads.foldlM (putnThread h keys locs tids nT nkeys) s = none := by
  induction threads generalizing s with
  | nil => simp at ht
  | cons u ts ih =>
      rw [List.foldlM_cons]
      cases List.mem_cons.mp ht with
      | inl htu => simp [putnThread, ← htu, hge]
      | inr hts => cases putnThread h keys locs tids nT nkeys s u <;> simp [ih hts]

end Putn

/-! ## a batch put and a batch lookup -/

section RoundTrip

variable {keys : Nat → K} {nkeys nT : Nat} {bufs : Bufs} {threads : List Nat} {rnds : Nat → UInt64}
  {vals mvals : Nat → V} {calls more : List (Call K V)} {l : K → List V} {minsize : Nat}
  {rnd : UInt64} {val : V}

/-- `l_agg_getn` gives for each key its value. -/
theorem lAggGetn_eq (hkept : Kept murmurhash3 codeForUpdate h l) (hk : ∀ j < nkeys, keys j ≠ 0)
    (hnT : 0 < nT) :
    lAggGetn murmurhash3 h bufs mvals keys nkeys nT =
      some ⟨fun j => if j < nkeys then (valueOf codeForUpdate (l (keys j))).getD 0 else mvals j,
        fun j => if j < nkeys then (valueOf codeForUpdate (l (keys j))).isSome
          else bufs.fnds j⟩ := by
  obtain ⟨hg, m, hrep, hval⟩ := hkept
  have hget : lAggGetn murmurhash3 h bufs mvals keys nkeys nT =
      some ⟨fun j => if j < nkeys then (answer (m (keys j))).val else mvals j,
        fun j => if j < nkeys then (answer (m (keys j))).isFound else bufs.fnds j⟩ :=
    hmapGetn_eq hg.toWellFormed hrep hg.room hk
      (fun _ hj => hmapMkLoc_eq _ _ _ hg.divinfo_eq hj) hnT
  simp only [hget, ← hval, answer_val, answer_isFound]

/-- `l_agg_putn` with keys that the map does not have is a run of `hmap_put`. -/
theorem lAggPutn_eq (bufs : Bufs) (hkept : Kept murmurhash3 codeForUpdate h l)
    (hk : ∀ j < nkeys, keys j ≠ 0) (hnil : ∀ j < nkeys, l (keys j) = []) (hnT : 0 < nT)
    (hlt : nT < 2 ^ 32) (hthreads : threads.Perm (List.range nT))
    (hf : RunFits murmurhash3 codeForUpdate h (putCalls rnds keys mvals (List.range nkeys))) :
    ∃ h' r, run murmurhash3 codeForUpdate h (putCalls rnds keys mvals (List.range nkeys)) =
        some h' ∧
      lAggPutn murmurhash3 codeForUpdate rnds threads h bufs mvals keys nkeys nT = some r ∧
      r.status = 0 ∧ r.numNew = nkeys ∧ r.hmap = h' ∧
      ∀ j, r.fnds j = if j < nkeys then false else bufs.fnds j := by
  have hg := hkept.good
  obtain ⟨found, hfound, hrest, hput⟩ := hmapPutn_spec rnds mvals bufs.fnds hkept hk
    (fun j hj => (hmapMkLoc_eq keys bufs.hshs bufs.locs hg.divinfo_eq hj).trans_lt (hg.home_lt _))
    (fun j hj => hmapMkTid_lt (hmapMkHsh murmurhash3 keys nkeys h.hashkey bufs.hshs) bufs.tids
      hnT hlt hj) hthreads
  have hnone : ∀ j < nkeys, found j = false := fun j hj =>
    Bool.eq_false_iff.mpr fun hf => hfound j hj hf (hnil j hj)
  have hall : (List.range nkeys).filter (!found ·) = List.range nkeys := by
    rw [List.filter_eq_self]
    intro j hj
    simp [hnone j (List.mem_range.mp hj)]
  rw [hall] at hput
  obtain ⟨h', hrun, hres⟩ := hput hf
  refine ⟨h', _, hrun, (if_neg hnT.ne').trans hres, rfl, List.length_range, rfl, fun j => ?_⟩
  by_cases hj : j < nkeys
  · simpa [hj] using hnone j hj
  · simpa [hj] using hrest j (not_lt.mp hj)

/-- What a batch of lookups owes its caller. -/
structure Looked (codeForUpdate : V → V → V) (l : K → List V) (keys : Nat → K) (nkeys : Nat)
    (o₀ o : GetnOut V) : Prop where
  vals : ∀ j < nkeys, o.vals j = (valueOf codeForUpdate (l (keys j))).getD 0
  fnds : ∀ j < nkeys, o.fnds j = (valueOf codeForUpdate (l (keys j))).isSome
  rest : ∀ j, nkeys ≤ j → o.vals j = o₀.vals j ∧ o.fnds j = o₀.fnds j

/-- **A chunk of new keys** that is put and then looked up, with any numbers of threads, in any
order: `putn` finds no key and puts them all, and `getn` gives for each key, of this chunk or
not, what the values put for it come to. -/
theorem putn_getn (murmurhash3 : K → UInt64 → UInt32) (codeForUpdate : V → V → V) (bufs : Bufs)
    (hc : hmapCreate minsize rnd = some h₀)
    (hmin : hashInitSize ≤ max minsize hashInitSize % 2 ^ 32)
    (hcalls : ∀ c ∈ calls, c.key ≠ 0) (hk : ∀ j < nkeys, keys j ≠ 0)
    (hnew : ∀ j < nkeys, logOf calls (keys j) = []) (hnT : 0 < nT) (hlt : nT < 2 ^ 32)
    (hthreads : threads.Perm (List.range nT))
    (hf : RunFits murmurhash3 codeForUpdate h₀
      (calls ++ putCalls rnds keys mvals (List.range nkeys))) :
    ∃ h r, run murmurhash3 codeForUpdate h₀ calls = some h ∧
      lAggPutn murmurhash3 codeForUpdate rnds threads h bufs mvals keys nkeys nT = some r ∧
      r.status = 0 ∧ r.numNew = nkeys ∧ (∀ j < nkeys, r.fnds j = false) ∧
      ∀ (bufs' : Bufs) (mvals' : Nat → V) (keys' : Nat → K) (nkeys' nT' : Nat), 0 < nT' →
        (∀ j < nkeys', keys' j ≠ 0) →
        ∃ o, lAggGetn murmurhash3 r.hmap bufs' mvals' keys' nkeys' nT' = some o ∧
          Looked codeForUpdate (logOf (calls ++ putCalls rnds keys mvals (List.range nkeys)))
            keys' nkeys' ⟨mvals', bufs'.fnds⟩ o := by
  obtain ⟨hcallsFit, hputsFit⟩ := runFits_append.mp hf
  have hempty : Kept murmurhash3 codeForUpdate h₀ fun _ => [] := hmapCreate_kept hc hmin
  obtain ⟨h, hrun, hkept⟩ := hempty.run hcalls hcallsFit
  obtain ⟨h', r, hputs, hr, hstatus, hnum, rfl, hfnds⟩ := lAggPutn_eq bufs hkept hk hnew hnT hlt
    hthreads (hputsFit h hrun)
  obtain ⟨h'', hputs', hkept'⟩ := hkept.run
    (fun c hc => by
      obtain ⟨i, hi, rfl⟩ := List.mem_map.mp hc
      exact hk i (List.mem_range.mp hi)) (hputsFit h hrun)
  obtain rfl := Option.some.inj (hputs.symm.trans hputs')
  rw [← List.foldl_append] at hkept'
  refine ⟨h, r, hrun, hr, hstatus, hnum, fun j hj => by rw [hfnds, if_pos hj], ?_⟩
  intro bufs' mvals' keys' nkeys' nT' hnT' hk'
  exact ⟨_, lAggGetn_eq hkept' hk' hnT', fun j hj => by simp [hj, logOf],
    fun j hj => by simp [hj, logOf], fun j hj => by simp [Nat.not_lt.mpr hj]⟩

/-- Two more of the puts that make the table larger, as a chunk. -/
theorem lostCalls_chunk (n : Nat) : lostCalls n ++ putCalls (fun _ => 0)
    (fun j => UInt32.ofNat (n + 2 + j)) (fun _ => 5) (List.range 2) = lostCalls (n + 2) := by
  simp [lostCalls_succ, putCalls, List.range_succ, Nat.add_right_comm]

/-- Key 1 put twice and then 55704 others. A chunk of two more keys makes the table larger; three
threads put these, the last one first, and then two look them up and key 1. -/
theorem putn_getn_two : ∃ h r, run keepKey (· + ·) newMap (lostCalls 55704) = some h ∧
    lAggPutn keepKey (· + ·) (fun _ => 0) [2, 0, 1] h
      ⟨fun _ => 0, fun _ => 0, fun _ => 0, fun _ => true⟩ (fun _ => 5)
      (fun j => UInt32.ofNat (55704 + 2 + j)) 2 3 = some r ∧ r.status = 0 ∧ r.numNew = 2 ∧
    (∀ j < 2, r.fnds j = false) ∧
    ∃ o, lAggGetn keepKey r.hmap ⟨fun _ => 0, fun _ => 0, fun _ => 0, fun _ => true⟩ (fun _ => 9)
      (fun j => if j = 2 then 1 else UInt32.ofNat (55704 + 2 + j)) 3 2 = some o ∧
      (o.vals 0 = 5 ∧ o.fnds 0 = true) ∧ (o.vals 2 = 10 ∧ o.fnds 2 = true) ∧
      (o.vals 3 = 9 ∧ o.fnds 3 = true) := by
  have hlog := fun k => logOf_lostCalls (n := 55706) le_rfl k
  have hkeys : ∀ j < 2, UInt32.ofNat (55704 + 2 + j) ≠ 0 := by decide
  have hnew : ∀ j < 2, logOf (lostCalls 55704) (UInt32.ofNat (55704 + 2 + j)) = [] := by
    intro j hj
    have hkey := toNat_ofNat_of_lt (show 55704 + 2 + j < 2 ^ 32 by omega)
    have hne : UInt32.ofNat (55704 + 2 + j) ≠ 1 :=
      key_ne_of_lt (j := 1) (by omega) (by omega) (by omega)
    rw [logOf_lostCalls (by omega), if_neg hne, if_neg (by omega)]
  have hthreads : [2, 0, 1].Perm (List.range 3) := by decide
  have hchunk := lostCalls_chunk 55704
  obtain ⟨h, r, hrun, hput, hstatus, hnum, hfnds, hget⟩ := putn_getn keepKey (· + ·)
    ⟨fun _ => 0, fun _ => 0, fun _ => 0, fun _ => true⟩ hmapCreate_zero (by decide)
    (key_lostCalls (n := 55704) (by omega)) hkeys hnew (by decide) (by decide) hthreads
    (hchunk ▸ runFits_lostCalls le_rfl)
  rw [hchunk] at hget
  obtain ⟨o, ho, hlooked⟩ := hget ⟨fun _ => 0, fun _ => 0, fun _ => 0, fun _ => true⟩ (fun _ => 9)
    (fun j => if j = 2 then 1 else UInt32.ofNat (55704 + 2 + j)) 3 2 (by decide) (by decide)
  have hfirst := hlooked.vals 0 (by decide)
  have hone := hlooked.vals 2 (by decide)
  have hfirst' := hlooked.fnds 0 (by decide)
  have hone' := hlooked.fnds 2 (by decide)
  simp only [hlog] at hfirst hone hfirst' hone'
  exact ⟨h, r, hrun, hput, hstatus, hnum, hfnds, o, ho, ⟨hfirst, hfirst'⟩, ⟨hone, hone'⟩,
    hlooked.rest 3 le_rfl⟩

end RoundTrip

end QStore.Magg
