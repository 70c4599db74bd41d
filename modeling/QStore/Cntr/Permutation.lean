import QStore.Cntr.Count
import Mathlib.Algebra.BigOperators.Group.Finset.Basic
import Mathlib.Algebra.Order.BigOperators.Group.Finset

/-!
# QStore.Cntr.Permutation

`make_permutation` over the rows that were counted. The block of a key starts
at the rows of the buckets before its own, so the blocks lie apart and fill
`0 … n - 1`: `QStore.Grouping.placed` is what the kernel computes.

It gets there only if `run_count`, which has one entry for each *item*, has one
for every *bucket* that holds one, and if the generator is never asked for a
chunk after the last: `grouped_iff`.
-/

namespace QStore.Cntr

open QStore.Hmap QStore.Operators QStore.RobinHood QStore.Grouping Function

variable {K : Type} [DecidableEq K] [Zero K] {setHash : K → UInt64 → UInt32}
variable {h : RsHmap K Val} {rows ks : List K} {k x : K} {run : K → Nat} {runCount : Nat → Nat}

/-! ## buckets -/

/-- The bucket where the kernels find a key. -/
def bucket (setHash : K → UInt64 → UInt32) (h : RsHmap K Val) (k : K) : Nat :=
  (rsHmapGet (kcFns setHash) h k).whereFound

/-- A key of the rows is found, with what was counted. -/
theorem Counted.get (hc : Counted setHash rows h) (hk : k ∈ rows) :
    rsHmapGet (kcFns setHash) h k =
      ⟨0, true, some ⟨rows.count k % 2 ^ 32, rank rows k⟩, bucket setHash h k⟩ ∧
    bucket setHash h k < h.size ∧ h.bktFull (bucket setHash h k) = true ∧
    (h.bkts (bucket setHash h k)).key = k := by
  obtain ⟨hst, hfound, hval⟩ := getCorrect_held hc.wf hc.rep (tally_of_mem hk)
  have hf := hfound.mpr ⟨_, tally_of_mem hk⟩
  obtain ⟨hv, hlt, hfull, hkey⟩ := hval hf
  rw [tally_of_mem hk] at hv
  refine ⟨?_, hlt, hfull, hkey⟩
  rw [bucket, ← hst, ← hf, ← hv]

theorem Counted.bucket_inj (hc : Counted setHash rows h) (hk : k ∈ rows) (hx : x ∈ rows)
    (hb : bucket setHash h k = bucket setHash h x) : k = x := by
  rw [← (hc.get hk).2.2.2, ← (hc.get hx).2.2.2, hb]

/-- A full bucket is that of its key, and its key is one of the rows. -/
theorem Counted.bucket_key (hc : Counted setHash rows h) {p : Nat} (hp : p < h.size)
    (hf : h.bktFull p = true) :
    (h.bkts p).key ∈ rows ∧ bucket setHash h (h.bkts p).key = p := by
  have hmem : (h.bkts p).key ∈ rows := by
    rw [← List.mem_toFinset, ← hc.image_key]
    exact Finset.mem_image.mpr ⟨p, by simp [hp, hf], rfl⟩
  obtain ⟨-, hlt, hfull, hkey⟩ := hc.get hmem
  exact ⟨hmem, hc.wf.inv.inj _ _ _ _ hlt hp (RsHmap.view_of_full hfull)
    (RsHmap.view_of_full hf) hkey⟩

/-! ## make_cum_count -/

/-- The full buckets before `n`. -/
def fullBefore (h : RsHmap K Val) (n : Nat) : Finset Nat :=
  (Finset.range n).filter fun p => h.bktFull p = true

/-- The rows of the buckets before `n`. -/
def rowsBefore (rows : List K) (h : RsHmap K Val) (n : Nat) : Nat :=
  ∑ p ∈ fullBefore h n, rows.count (h.bkts p).key

omit [DecidableEq K] [Zero K] in
theorem fullBefore_succ_of_full {n : Nat} (hf : h.bktFull n = true) :
    fullBefore h (n + 1) = insert n (fullBefore h n) := by
  simp [fullBefore, Finset.range_add_one, Finset.filter_insert, hf]

omit [DecidableEq K] [Zero K] in
theorem fullBefore_succ_of_empty {n : Nat} (hf : h.bktFull n = false) :
    fullBefore h (n + 1) = fullBefore h n := by
  simp [fullBefore, Finset.range_add_one, Finset.filter_insert, hf]

omit [Zero K] in
theorem rowsBefore_succ_of_full {n : Nat} (hf : h.bktFull n = true) :
    rowsBefore rows h (n + 1) = rowsBefore rows h n + rows.count (h.bkts n).key := by
  rw [rowsBefore, fullBefore_succ_of_full hf, Finset.sum_insert (by simp [fullBefore]),
    Nat.add_comm]
  rfl

omit [Zero K] in
theorem rowsBefore_mono {m n : Nat} (hmn : m ≤ n) : rowsBefore rows h m ≤ rowsBefore rows h n :=
  Finset.sum_le_sum_of_subset (Finset.filter_subset_filter _ (Finset.range_mono hmn))

/-- Every row is in a bucket. -/
theorem Counted.rowsBefore_size (hc : Counted setHash rows h) :
    rowsBefore rows h h.size = rows.length := by
  rw [rowsBefore, fullBefore, ← List.sum_toFinset_count_eq_length rows, ← hc.image_key,
    Finset.sum_image hc.injOn_key]

/-- The count of a bucket, while no key has `2 ^ 32` rows. -/
theorem Counted.count_eq (hc : Counted setHash rows h) (hlt : ∀ k, rows.count k < 2 ^ 32)
    {p : Nat} (hp : p < h.size) (hf : h.bktFull p = true) :
    (h.bkts p).val.count = rows.count (h.bkts p).key := by
  obtain ⟨hmem, hb⟩ := hc.bucket_key hp hf
  have hholds := (hc.rep _ _).mpr ⟨p, _, hp, RsHmap.view_of_full hf, rfl, rfl⟩
  rw [tally_of_mem hmem, Option.some.injEq] at hholds
  rw [← hholds]
  exact Nat.mod_eq_of_lt (hlt _)

/-- Below `2 ^ 32` keys with fewer than `2 ^ 32` rows each. -/
theorem Counted.length_lt (hc : Counted setHash rows h) (hlt : ∀ k, rows.count k < 2 ^ 32) :
    rows.length < 2 ^ 64 := by
  have hsum : rowsBefore rows h h.size ≤ (fullBefore h h.size).card • (2 ^ 32 - 1) :=
    Finset.sum_le_card_nsmul _ _ _ fun p _ => Nat.le_sub_one_of_lt (hlt _)
  have hcard : (fullBefore h h.size).card ≤ h.size := by
    simpa [fullBefore] using Finset.card_filter_le (Finset.range h.size) _
  have hsize := hc.wf.size_lt
  rw [hc.rowsBefore_size, Nat.nsmul_eq_mul] at hsum
  calc rows.length ≤ (fullBefore h h.size).card * (2 ^ 32 - 1) := hsum
    _ ≤ 2 ^ 32 * (2 ^ 32 - 1) := Nat.mul_le_mul_right _ (by omega)
    _ < 2 ^ 64 := by norm_num

theorem Counted.cumCount (hc : Counted setHash rows h) (hlt : ∀ k, rows.count k < 2 ^ 32)
    {n : Nat} (hle : n ≤ h.size) :
    (rsxKcCumCount h n).2 = rowsBefore rows h n ∧ ∀ p < n, h.bktFull p = true →
      (rsxKcCumCount h n).1 p = rowsBefore rows h p := by
  have hn := hc.length_lt hlt
  induction n with
  | zero => simp [rsxKcCumCount, rowsBefore, fullBefore]
  | succ n ih =>
      obtain ⟨hsum, hcum⟩ := ih (by omega)
      rw [rsxKcCumCount]
      cases hf : h.bktFull n with
      | false =>
          rw [if_pos rfl, rowsBefore, fullBefore_succ_of_empty hf]
          refine ⟨hsum, fun p hp hpf => ?_⟩
          have hne : p ≠ n := fun he => by rw [he, hf] at hpf; contradiction
          simp only [update_of_ne hne]
          exact hcum p (by omega) hpf
      | true =>
          have hle' : rowsBefore rows h (n + 1) ≤ rowsBefore rows h h.size := rowsBefore_mono hle
          rw [hc.rowsBefore_size, rowsBefore_succ_of_full hf] at hle'
          rw [if_neg (by decide), hsum, hc.count_eq hlt (by omega) hf, rowsBefore_succ_of_full hf,
            Nat.mod_eq_of_lt (by omega)]
          refine ⟨rfl, fun p hp hpf => ?_⟩
          by_cases hpn : p = n
          · simp only [hpn, update_self]
          · simp only [update_of_ne hpn]
            exact hcum p (by omega) hpf

/-! ## the blocks -/

/-- Where the block of a key starts. -/
def base (setHash : K → UInt64 → UInt32) (rows : List K) (h : RsHmap K Val) (k : K) : Nat :=
  rowsBefore rows h (bucket setHash h k)

/-- A block ends where the next bucket starts. -/
theorem Counted.base_add (hc : Counted setHash rows h) (hk : k ∈ rows) :
    base setHash rows h k + rows.count k = rowsBefore rows h (bucket setHash h k + 1) := by
  obtain ⟨-, -, hfull, hkey⟩ := hc.get hk
  rw [rowsBefore_succ_of_full hfull, hkey]
  rfl

theorem Counted.base_le (hc : Counted setHash rows h) (hk : k ∈ rows) :
    base setHash rows h k + rows.count k ≤ rows.length := by
  rw [hc.base_add hk, ← hc.rowsBefore_size]
  exact rowsBefore_mono (hc.get hk).2.1

theorem Counted.apart (hc : Counted setHash rows h) :
    Apart (base setHash rows h) (fun _ => 0) rows := by
  intro k hk x hx hne
  simp only [Nat.add_zero]
  rcases Nat.lt_trichotomy (bucket setHash h k) (bucket setHash h x) with hlt | heq | hgt
  · left
    rw [hc.base_add hk]
    exact rowsBefore_mono hlt
  · exact absurd (hc.bucket_inj hk hx heq) hne
  · right
    rw [hc.base_add hx]
    exact rowsBefore_mono hgt

/-! ## the kernel -/

/-- `run_count` has the counts of `run`, each in the bucket of its key. -/
def Runs (setHash : K → UInt64 → UInt32) (rows : List K) (h : RsHmap K Val) (run : K → Nat)
    (runCount : Nat → Nat) : Prop := ∀ k ∈ rows, runCount (bucket setHash h k) = run k

/-- The kernel over rows of the table that was counted. -/
abbrev permute (setHash : K → UInt64 → UInt32) (h : RsHmap K Val) (runCount : Nat → Nat)
    (ks : List K) : Option (List Nat × (Nat → Nat)) :=
  rsxKcMakePermutation (kcFns setHash) h (rsxKcCumCount h h.size).2 h.nitems
    (rsxKcCumCount h h.size).1 runCount ks

/-- **One row**: the next place of its block. -/
theorem Counted.permuteRow (hc : Counted setHash rows h) (hlt : ∀ k, rows.count k < 2 ^ 32)
    (hr : Runs setHash rows h run runCount) (hk : k ∈ rows) (hrun : run k < rows.count k)
    (hb : bucket setHash h k < h.nitems) :
    permuteRow (kcFns setHash) h (rsxKcCumCount h h.size).2 h.nitems (rsxKcCumCount h h.size).1
        runCount k =
      some (base setHash rows h k + run k,
        update runCount (bucket setHash h k) (run k + 1)) := by
  obtain ⟨hget, hsize, hfull, -⟩ := hc.get hk
  obtain ⟨hsum, hcum⟩ := hc.cumCount hlt le_rfl
  have hn := hc.length_lt hlt
  have hle := hc.base_le hk
  have hguid := rank_pos hk
  have hguid' := rank_le hk
  have hcount := hlt k
  rw [← hc.nitems] at hguid'
  have hbase : (rsxKcCumCount h h.size).1 (bucket setHash h k) = base setHash rows h k :=
    hcum _ hsize hfull
  have hmod : rows.count k % 2 ^ 32 = rows.count k := Nat.mod_eq_of_lt hcount
  have hpos : (base setHash rows h k + run k) % 2 ^ 64 = base setHash rows h k + run k :=
    Nat.mod_eq_of_lt (by omega)
  have hnext : (run k + 1) % 2 ^ 32 = run k + 1 := Nat.mod_eq_of_lt (by omega)
  rw [Cntr.permuteRow, hget]
  simp only [hsum, hc.rowsBefore_size, hbase, hr k hk, hmod, hpos, hnext, Option.bind_some]
  rw [if_neg (Int.lt_irrefl 0), if_neg (by decide), if_neg (not_le.mpr hsize),
    if_neg hguid.ne', if_neg (not_lt.mpr hguid'), if_neg (by omega), if_neg (not_le.mpr hb),
    if_neg (not_le.mpr hrun), if_neg (by omega)]

/-- **A chunk of rows** is placed, if `run_count` reaches to their buckets. -/
theorem Counted.permute_eq_some (hc : Counted setHash rows h)
    (hlt : ∀ k, rows.count k < 2 ^ 32) (hr : Runs setHash rows h run runCount)
    (hks : ∀ k ∈ ks, k ∈ rows ∧ bucket setHash h k < h.nitems)
    (hrun : ∀ k, run k + ks.count k ≤ rows.count k) :
    ∃ runCount', permute setHash h runCount ks =
        some (placed (base setHash rows h) run ks, runCount') ∧
      Runs setHash rows h (runAfter run ks) runCount' := by
  induction ks generalizing run runCount with
  | nil => exact ⟨runCount, rfl, by simpa using hr⟩
  | cons k ks ih =>
      obtain ⟨hk, hb⟩ := hks k List.mem_cons_self
      have hcount := hrun k
      rw [List.count_cons_self] at hcount
      have hone := hc.permuteRow hlt hr hk (by omega) hb
      have hnext : Runs setHash rows h (update run k (run k + 1))
          (update runCount (bucket setHash h k) (run k + 1)) := by
        intro x hx
        by_cases hxk : x = k
        · simp [hxk]
        · rw [update_of_ne hxk, update_of_ne fun hbx => hxk (hc.bucket_inj hx hk hbx)]
          exact hr x hx
      have hrest : ∀ x, update run k (run k + 1) x + ks.count x ≤ rows.count x := by
        intro x
        have := hrun x
        by_cases hxk : x = k
        · subst hxk
          rw [update_self]
          omega
        · rwa [update_of_ne hxk, ← List.count_cons_of_ne (Ne.symm hxk)]
      obtain ⟨rc, hperm, hrc⟩ := ih hnext (fun x hx => hks x (List.mem_cons_of_mem _ hx)) hrest
      have hstep : permute setHash h runCount (k :: ks) =
          (permute setHash h (update runCount (bucket setHash h k) (run k + 1)) ks).map fun s =>
            ((base setHash rows h k + run k) :: s.1, s.2) := by
        rw [permute, rsxKcMakePermutation, hone]
        rfl
      refine ⟨rc, ?_, ?_⟩
      · rw [hstep, hperm]
        rfl
      · rw [runAfter_cons]
        exact hrc

omit [Zero K] in
/-- What the kernel places it has a count for. -/
theorem bucket_lt_of_permuteRow {sumCount runSize : Nat} {cumCount : Nat → Nat}
    {r : Nat × (Nat → Nat)}
    (hp : permuteRow (kcFns setHash) h sumCount runSize cumCount runCount k = some r) :
    bucket setHash h k < runSize := by
  by_contra hge
  rw [not_lt, bucket] at hge
  rw [permuteRow] at hp
  dsimp only at hp
  split at hp
  · cases hp
  · split at hp
    · cases hp
    · split at hp
      · cases hp
      · obtain ⟨val, -, hp⟩ := Option.bind_eq_some_iff.mp hp
        split at hp
        · cases hp
        · split at hp
          · cases hp
          · split at hp
            · cases hp
            · cases hp

omit [Zero K] in
theorem bucket_lt_of_permute {r : List Nat × (Nat → Nat)}
    (hp : permute setHash h runCount ks = some r) :
    r.1.length = ks.length ∧ ∀ k ∈ ks, bucket setHash h k < h.nitems := by
  induction ks generalizing runCount r with
  | nil =>
      cases hp
      simp
  | cons k ks ih =>
      rw [permute, rsxKcMakePermutation, Option.bind_eq_some_iff] at hp
      obtain ⟨one, hone, hp⟩ := hp
      obtain ⟨rest, hrest, hp⟩ := Option.map_eq_some_iff.mp hp
      obtain ⟨hlen, hall⟩ := ih hrest
      rw [← hp]
      refine ⟨by simp [hlen], fun x hx => ?_⟩
      cases List.mem_cons.mp hx with
      | inl hxk => exact hxk ▸ bucket_lt_of_permuteRow hone
      | inr hx => exact hall x hx

/-! ## the generator -/

variable {vecs : LVector K} {bufsz c : Nat} {s : PermState} {outs : List (List Nat)}

/-- The chunks of the rows fit the buffers, and the last is not full. -/
def Chunked (vecs : LVector K) (bufsz : Nat) : Prop :=
  (0 < vecs.elems.length ∧ vecs.elems.length ≤ vecs.maxNumInChunk ∧ vecs.elems.length < bufsz) ∨
    (vecs.maxNumInChunk = bufsz ∧ ¬ bufsz ∣ vecs.elems.length)

omit [Zero K] in
theorem permGen_eq (hs : s.lChunkNum = c) (hne : (vecs.getChunk c).length ≠ 0)
    (hle : (vecs.getChunk c).length ≤ bufsz) :
    permGen (kcFns setHash) h vecs bufsz s c =
      (permute setHash h s.runCount (vecs.getChunk c)).map fun r =>
        (r.1, ⟨s.lChunkNum + 1, r.2⟩) := by
  rw [permGen, if_neg (by simp [hs])]
  dsimp only
  rw [if_neg hne, if_neg (not_lt.mpr hle)]

/-- What is left when the generator is asked for chunk `c`. -/
structure AtChunk (setHash : K → UInt64 → UInt32) (vecs : LVector K) (h : RsHmap K Val)
    (s : PermState) (c : Nat) (rest : List Nat) : Prop where
  lChunkNum : s.lChunkNum = c
  lt : c * vecs.maxNumInChunk < vecs.elems.length
  runs : Runs setHash vecs.elems h
    (runAfter (fun _ => 0) (vecs.elems.take (c * vecs.maxNumInChunk))) s.runCount
  rest_eq : rest = placed (base setHash vecs.elems h)
    (runAfter (fun _ => 0) (vecs.elems.take (c * vecs.maxNumInChunk)))
    (vecs.elems.drop (c * vecs.maxNumInChunk))

/-- One chunk: the rows it holds are placed. -/
theorem Counted.permGen (hc : Counted setHash vecs.elems h)
    (hlt : ∀ k, vecs.elems.count k < 2 ^ 32)
    (hb : ∀ k ∈ vecs.elems, bucket setHash h k < h.nitems) {rest : List Nat}
    (ha : AtChunk setHash vecs h s c rest) (hbuf : (vecs.getChunk c).length ≤ bufsz) :
    ∃ s', permGen (kcFns setHash) h vecs bufsz s c =
        some (rest.take vecs.maxNumInChunk, s') ∧ s'.lChunkNum = c + 1 ∧
      Runs setHash vecs.elems h
        (runAfter (fun _ => 0) (vecs.elems.take ((c + 1) * vecs.maxNumInChunk))) s'.runCount := by
  have hne : (vecs.getChunk c).length ≠ 0 := by
    have := ha.lt
    have := vecs.pos
    rw [LVector.length_getChunk]
    omega
  have hcut : vecs.elems.take (c * vecs.maxNumInChunk) ++ vecs.getChunk c =
      vecs.elems.take ((c + 1) * vecs.maxNumInChunk) := take_append_page
  have hafter : runAfter (runAfter (fun _ => 0) (vecs.elems.take (c * vecs.maxNumInChunk)))
      (vecs.getChunk c) =
      runAfter (fun _ => 0) (vecs.elems.take ((c + 1) * vecs.maxNumInChunk)) := by
    funext k
    simp only [runAfter, ← hcut, List.count_append, Nat.add_assoc]
  have hks : ∀ k ∈ vecs.getChunk c,
      k ∈ vecs.elems ∧ bucket setHash h k < h.nitems := fun k hk => by
    have hmem : k ∈ vecs.elems := List.mem_of_mem_drop (List.mem_of_mem_take hk)
    exact ⟨hmem, hb k hmem⟩
  obtain ⟨rc, hperm, hrc⟩ := hc.permute_eq_some hlt ha.runs hks fun k => by
    have hsub := List.take_sublist ((c + 1) * vecs.maxNumInChunk) vecs.elems
    simpa [runAfter, ← List.count_append, hcut] using hsub.count_le k
  refine ⟨⟨s.lChunkNum + 1, rc⟩, ?_, by rw [ha.lChunkNum], hafter ▸ hrc⟩
  rw [permGen_eq ha.lChunkNum hne hbuf, hperm, ha.rest_eq, take_placed]
  rfl

/-- **The whole permutation** is generated. -/
theorem Counted.pulls (hc : Counted setHash vecs.elems h)
    (hlt : ∀ k, vecs.elems.count k < 2 ^ 32)
    (hb : ∀ k ∈ vecs.elems, bucket setHash h k < h.nitems) (hch : Chunked vecs bufsz) :
    ∃ outs, Pulls (Cntr.permGen (kcFns setHash) h vecs bufsz) bufsz permStart 0 outs ∧
      outs.flatten = placed (base setHash vecs.elems h) (fun _ => 0) vecs.elems := by
  have hpos : 0 < vecs.elems.length := by
    rcases hch with hone | ⟨-, hd⟩
    · exact hone.1
    · exact Nat.pos_of_ne_zero fun h0 => hd (h0 ▸ Nat.dvd_zero _)
  have hstart : AtChunk setHash vecs h permStart 0
      (placed (base setHash vecs.elems h) (fun _ => 0) vecs.elems) :=
    ⟨rfl, by simpa using hpos, by simp [Runs, permStart], by simp⟩
  rcases hch with ⟨-, hle, hlt'⟩ | ⟨hmax, hd⟩
  · -- one chunk
    have hlen : (vecs.getChunk 0).length = vecs.elems.length := by
      rw [LVector.length_getChunk]
      omega
    have hbuf : (vecs.getChunk 0).length ≤ bufsz := by omega
    obtain ⟨s', hgen, -⟩ := hc.permGen hlt hb hstart hbuf
    refine ⟨_, .last hgen ?_, ?_⟩
    · simp only [List.length_take, length_placed]
      omega
    · rw [List.flatten_singleton, List.take_of_length_le (by simpa using hle)]
  · subst hmax
    refine Pulls.of_pieces (AtChunk setHash vecs h) vecs.pos (fun s c rest ha => ?_) hstart
    obtain ⟨s', hgen, hnum, hrc⟩ := hc.permGen hlt hb ha length_page_le
    refine ⟨s', hgen, fun hfull => ⟨hnum, ?_, hrc, ?_⟩⟩
    · -- the rows do not end with a chunk
      have hlen := ha.lt
      rw [ha.rest_eq, length_placed, List.length_drop] at hfull
      refine lt_of_le_of_ne (by rw [Nat.add_mul, Nat.one_mul]; omega) fun heq => hd ?_
      exact heq ▸ Nat.dvd_mul_left ..
    · have hcut : vecs.elems.take (c * vecs.maxNumInChunk) ++
          (vecs.elems.drop (c * vecs.maxNumInChunk)).take vecs.maxNumInChunk =
          vecs.elems.take ((c + 1) * vecs.maxNumInChunk) := take_append_page
      rw [ha.rest_eq, drop_placed, List.drop_drop, Nat.add_mul, Nat.one_mul]
      congr 1
      funext k
      rw [Nat.add_mul, Nat.one_mul] at hcut
      simp only [runAfter, ← hcut, List.count_append, Nat.add_assoc]

/-! ## what a permutation shows -/

omit [Zero K] in
theorem permGen_eq_some {out : List Nat} {s' : PermState}
    (hg : permGen (kcFns setHash) h vecs bufsz s c = some (out, s')) :
    (vecs.getChunk c).length ≠ 0 ∧ (vecs.getChunk c).length ≤ bufsz ∧
      out.length = (vecs.getChunk c).length ∧
      ∀ k ∈ vecs.getChunk c, bucket setHash h k < h.nitems := by
  rw [permGen] at hg
  dsimp only at hg
  split at hg
  · cases hg
  · split at hg
    · cases hg
    · next hne =>
        split at hg
        · cases hg
        · next hle =>
            obtain ⟨r, hr, hout⟩ := Option.map_eq_some_iff.mp hg
            obtain ⟨hlen, hall⟩ := bucket_lt_of_permute hr
            cases hout
            exact ⟨hne, not_lt.mp hle, hlen, hall⟩

/-- The chunks that were asked for: up to number `j`, and only that one is short. -/
structure Asked (setHash : K → UInt64 → UInt32) (h : RsHmap K Val) (vecs : LVector K)
    (bufsz c j : Nat) : Prop where
  le : c ≤ j
  each : ∀ d, c ≤ d → d ≤ j →
    (vecs.getChunk d).length ≠ 0 ∧ ∀ k ∈ vecs.getChunk d, bucket setHash h k < h.nitems
  full : ∀ d, c ≤ d → d < j → (vecs.getChunk d).length = bufsz
  short : (vecs.getChunk j).length < bufsz

omit [Zero K] in
theorem asked_of_pulls (hp : Pulls (permGen (kcFns setHash) h vecs bufsz) bufsz s c outs) :
    ∃ j, Asked setHash h vecs bufsz c j ∧
      outs.flatten.length = (j - c) * bufsz + (vecs.getChunk j).length := by
  induction hp with
  | @last s s' c out hg hn =>
      obtain ⟨hne, hle, hout, hall⟩ := permGen_eq_some hg
      refine ⟨c, ⟨le_rfl, fun d h1 h2 => ?_, fun d h1 h2 => by omega, by omega⟩, by simpa using hout⟩
      rw [show d = c by omega]
      exact ⟨hne, hall⟩
  | @more s s' c out outs hg hn _ ih =>
      obtain ⟨hne, hle, hout, hall⟩ := permGen_eq_some hg
      obtain ⟨j, ha, hlen⟩ := ih
      have hcj := ha.le
      refine ⟨j, ⟨by omega, fun d h1 h2 => ?_, fun d h1 h2 => ?_, ha.short⟩, ?_⟩
      · by_cases hd : d = c
        · rw [hd]
          exact ⟨hne, hall⟩
        · exact ha.each d (by omega) h2
      · by_cases hd : d = c
        · rw [hd]
          omega
        · exact ha.full d (by omega) h2
      · have hstep : (j - c) * bufsz = bufsz + (j - (c + 1)) * bufsz := by
          rw [show j - c = (j - (c + 1)) + 1 by omega, Nat.add_mul, Nat.one_mul, Nat.add_comm]
        rw [List.flatten_cons, List.length_append, hlen, hstep]
        omega

omit [Zero K] in
/-- With the whole permutation every chunk was asked for. -/
theorem Asked.chunked {j : Nat} (ha : Asked setHash h vecs bufsz 0 j)
    (hlen : j * bufsz + (vecs.getChunk j).length = vecs.elems.length) :
    Chunked vecs bufsz ∧ ∀ k ∈ vecs.elems, bucket setHash h k < h.nitems := by
  have hpos := vecs.pos
  have hshort := ha.short
  have hlast := (ha.each j (Nat.zero_le j) le_rfl).1
  -- the full chunks have the length of the buffer
  have hsame : 0 < j → vecs.maxNumInChunk = bufsz := by
    intro hj
    have h0 := ha.full 0 le_rfl hj
    have h1 := (ha.each 1 (Nat.zero_le 1) hj).1
    rw [LVector.length_getChunk] at h0 h1
    omega
  have hend : vecs.elems.length ≤ (j + 1) * vecs.maxNumInChunk ∧
      j * vecs.maxNumInChunk < vecs.elems.length := by
    rw [LVector.length_getChunk] at hlen hlast
    rw [Nat.add_mul, Nat.one_mul]
    by_cases hj : j = 0
    · subst hj
      omega
    · rw [← hsame (Nat.pos_of_ne_zero hj)] at hlen
      omega
  constructor
  · by_cases hj : j = 0
    · subst hj
      left
      omega
    · right
      have hmax := hsame (Nat.pos_of_ne_zero hj)
      refine ⟨hmax, fun hd => ?_⟩
      obtain ⟨q, hq⟩ := hd
      rw [hmax, hq] at hend
      have hshort' : vecs.elems.length < (j + 1) * bufsz := by
        rw [Nat.add_mul, Nat.one_mul]
        omega
      rw [hq, Nat.mul_comm bufsz q] at hshort'
      rw [Nat.mul_comm bufsz q] at hend
      have h1 := Nat.lt_of_mul_lt_mul_right hend.2
      have h2 := Nat.lt_of_mul_lt_mul_right hshort'
      omega
  · intro k hk
    obtain ⟨i, hi, hik⟩ := List.getElem_of_mem hk
    have hdiv : i / vecs.maxNumInChunk ≤ j :=
      Nat.lt_succ_iff.mp (Nat.div_lt_of_lt_mul (by rw [Nat.mul_comm]; exact hi.trans_le hend.1))
    refine (ha.each _ (Nat.zero_le _) hdiv).2 k ?_
    refine List.mem_of_getElem? (i := i % vecs.maxNumInChunk) (getElem?_page.mpr
      ⟨Nat.mod_lt _ hpos, ?_⟩)
    rw [Nat.div_add_mod', List.getElem?_eq_getElem hi, hik]

/-! ## both -/

/-- What a key counter owes its rows: of each key the count and the rank, and a
permutation that keeps the rows of a key together and in order. That the kernel
stays inside `run_count` is part of the generator. -/
structure Grouped (setHash : K → UInt64 → UInt32) (vecs : LVector K) (h : RsHmap K Val)
    (bufsz : Nat) : Prop where
  counts : ∀ k c g, Holds h.size h.view k ⟨c, g⟩ ↔
    k ∈ vecs.elems ∧ c = vecs.elems.count k ∧ g = rank vecs.elems k
  guids : Set.BijOn (rank vecs.elems) {k | k ∈ vecs.elems} (Set.Icc 1 h.nitems)
  permutes : ∃ outs, Pulls (permGen (kcFns setHash) h vecs bufsz) bufsz permStart 0 outs ∧
    outs.flatten.Perm (List.range vecs.elems.length) ∧ ∀ k ∈ vecs.elems, ∃ first,
      ((vecs.elems.zip outs.flatten).filter fun e => e.1 = k).map Prod.snd =
        List.range' first (vecs.elems.count k)

theorem Counted.counts (hc : Counted setHash rows h) (hlt : ∀ k, rows.count k < 2 ^ 32)
    (k : K) (c g : Nat) : Holds h.size h.view k ⟨c, g⟩ ↔
      k ∈ rows ∧ c = rows.count k ∧ g = rank rows k := by
  rw [← hc.rep k ⟨c, g⟩]
  by_cases hk : k ∈ rows
  · simp only [tally_of_mem hk, Nat.mod_eq_of_lt (hlt k), Option.some.injEq, Val.mk.injEq, hk,
      true_and, eq_comm]
  · simp [tally_of_notMem hk, hk]

theorem Counted.grouped (hc : Counted setHash vecs.elems h)
    (hlt : ∀ k, vecs.elems.count k < 2 ^ 32)
    (hb : ∀ k ∈ vecs.elems, bucket setHash h k < h.nitems) (hch : Chunked vecs bufsz) :
    Grouped setHash vecs h bufsz := by
  obtain ⟨outs, hp, hflat⟩ := hc.pulls hlt hb hch
  refine ⟨hc.counts hlt, hc.nitems ▸ bijOn_rank _, outs, hp, ?_,
    fun k _ => ⟨base setHash vecs.elems h k + 0, ?_⟩⟩
  · rw [hflat]
    exact placed_perm hc.apart fun k hk => hc.base_le hk
  · rw [hflat]
    exact placed_filter k

theorem Grouped.needs (hc : Counted setHash vecs.elems h) (hg : Grouped setHash vecs h bufsz) :
    (∀ k, vecs.elems.count k < 2 ^ 32) ∧ Chunked vecs bufsz ∧
      ∀ k ∈ vecs.elems, bucket setHash h k < h.nitems := by
  constructor
  · intro k
    by_cases hk : k ∈ vecs.elems
    · have hval := (hg.counts k _ _).mp ((hc.rep k _).mp (tally_of_mem hk))
      rw [← hval.2.1]
      exact Nat.mod_lt _ (by norm_num)
    · rw [List.count_eq_zero_of_not_mem hk]
      norm_num
  · obtain ⟨outs, hp, hperm, -⟩ := hg.permutes
    obtain ⟨j, ha, hlen⟩ := asked_of_pulls hp
    refine ha.chunked ?_
    rw [← List.length_range (n := vecs.elems.length), ← hperm.length_eq, hlen, Nat.sub_zero]

/-- **When a key counter groups its rows.** -/
theorem grouped_iff {hc : HmapConfig} {hashkey : UInt64} {loads : Bool} {h₀ : RsHmap K Val}
    {draw : Nat → UInt64} {kc : KeyCounter K} {bufsz : Nat}
    (hi : instantiate hc hashkey loads = some (.ok h₀))
    (he : Evals (kcFns setHash) draw vecs (KeyCounter.new h₀) kc)
    (hw : kc.H.pslWrapped = false) :
    Grouped setHash vecs kc.H bufsz ↔ (∀ k, vecs.elems.count k < 2 ^ 32) ∧ Chunked vecs bufsz ∧
      ∀ p < kc.H.size, kc.H.bktFull p = true → p < kc.H.nitems := by
  have hcount := (consumed_new hi).evals he hw
  constructor
  · intro hg
    obtain ⟨hlt, hch, hb⟩ := hg.needs hcount
    refine ⟨hlt, hch, fun p hp hf => ?_⟩
    obtain ⟨hmem, hbp⟩ := hcount.bucket_key hp hf
    exact hbp ▸ hb _ hmem
  · rintro ⟨hlt, hch, hfull⟩
    refine hcount.grouped hlt (fun k hk => ?_) hch
    obtain ⟨-, hsize, hf, -⟩ := hcount.get hk
    exact hfull _ hsize hf

/-! ## one row -/

/-- A table of one row. -/
def oneRow : LVector Nat := ⟨[5], 64, sixtyFour_pos⟩

/-- The configuration that `make_HC` makes without options. -/
def defaultConfig : HmapConfig := ⟨0, 0, 0, 0, some "libkc.so"⟩

/-- The map `rs_hmap_instantiate` makes for it: 1031 is the first prime from 1024 on. -/
def emptyMap : RsHmap Nat Val :=
  blank 1031 0 { configOf defaultConfig with soFile := defaultConfig.soFile } false

theorem primeGeq_hashMinSize : primeGeq 1024 = 1031 := by
  have hstep : ∀ m, trial m 3 = false → m + 2 < 2 ^ 32 → primeLoop m = primeLoop (m + 2) := by
    intro m hcomp hlt
    rw [primeLoop, hcomp, if_neg (by decide), if_pos hlt]
  have hstart : (1024 + 1) % 2 ^ 32 = 1025 := rfl
  rw [primeGeq, if_neg (by decide), hstart, hstep 1025 (by simp [trial]) (by decide),
    hstep 1027 (by simp [trial]) (by decide), hstep 1029 (by simp [trial]) (by decide), primeLoop,
    if_pos (by simp [trial])]

theorem instantiate_emptyMap : instantiate defaultConfig 0 true = some (.ok emptyMap) := by
  have hmarks : marksOk (configOf defaultConfig) = true := by decide +kernel
  have hprime : primeGeq (configOf defaultConfig).minSize = 1031 := primeGeq_hashMinSize
  rw [instantiate, hmarks, hprime, if_neg (by decide), if_neg (by decide), if_neg (by decide),
    if_neg (by decide)]
  rfl

/-- The map after the row, if its key hashes to `c`. -/
def oneRowMap (c : UInt32) : RsHmap Nat Val :=
  let p := emptyMap.home (kcFns fun _ _ => c) 5
  { (emptyMap.setBkt p ⟨5, 0, ⟨1, 1⟩⟩).setFull p true with nitems := 1 }

theorem insert_emptyMap (c : UInt32) :
    rsHmapInsert (kcFns fun _ _ => c) emptyMap 5 ⟨1, 1⟩ = (0, oneRowMap c) := by
  have hsize : emptyMap.size = 1030 + 1 := rfl
  rw [rsHmapInsert, hsize, insertLoop, if_neg (by simp [emptyMap, blank])]
  rfl

theorem evals_oneRow (c : UInt32) : Evals (kcFns fun _ _ => c) (fun _ => 0) oneRow
    (KeyCounter.new emptyMap) ⟨oneRowMap c, 0, true⟩ := by
  have hput : rsHmapPut (kcFns fun _ _ => c) 0 emptyMap 5 ⟨1, 1⟩ = some (0, oneRowMap c) := by
    have hn : ¬ emptyMap.nitems > highThreshold emptyMap.size := Nat.not_lt_zero _
    rw [rsHmapPut, growIfFull, if_neg hn, Option.map_some, if_neg (Int.lt_irrefl 0),
      insert_emptyMap]
  have hkc : rsxKcPut (kcFns fun _ _ => c) (fun _ => 0) 0 [5] emptyMap = some (0, oneRowMap c) := by
    have hguid : (emptyMap.nitems + 1) % 2 ^ 32 = 1 := rfl
    rw [rsxKcPut, hguid, hput]
    rfl
  have hchunk : oneRow.getChunk 0 = [5] := rfl
  refine .last ?_
  rw [KeyCounter.next, if_neg (by simp [KeyCounter.new])]
  simp only [KeyCounter.new, hchunk, Nat.zero_mul, hkc, List.length_singleton, Option.bind_some]
  rfl

/-- One row whose key hashes to bucket 7: `run_count` has one entry. -/
theorem grouped_fails : ∃ h₀ kc, instantiate defaultConfig 0 true = some (.ok h₀) ∧
    Evals (kcFns fun _ _ => 7) (fun _ => 0) oneRow (KeyCounter.new h₀) kc ∧
    kc.H.pslWrapped = false ∧ ¬ Grouped (fun _ _ => 7) oneRow kc.H 64 := by
  refine ⟨emptyMap, _, instantiate_emptyMap, evals_oneRow 7, rfl, fun hg => ?_⟩
  have hcount := (consumed_new instantiate_emptyMap).evals (evals_oneRow 7) rfl
  obtain ⟨-, -, hb⟩ := hg.needs hcount
  have hhome : emptyMap.home (kcFns fun _ _ => 7) 5 = 7 := by decide +kernel
  have hfull : (oneRowMap 7).bktFull 7 = true := by
    simp [oneRowMap, hhome, RsHmap.setFull, RsHmap.setBkt]
  have hkey : ((oneRowMap 7).bkts 7).key = 5 := by
    simp [oneRowMap, hhome, RsHmap.setFull, RsHmap.setBkt]
  have hseven := (hcount.bucket_key (p := 7) (by decide) hfull).2
  rw [hkey] at hseven
  have hlt : bucket (fun _ _ => 7) (oneRowMap 7) 5 < 1 := hb 5 (List.mem_singleton_self 5)
  rw [hseven] at hlt
  omega

/-! ## four rows -/

omit [DecidableEq K] in
/-- Rows that fill one chunk in part are counted in one call of `next`. -/
theorem evals_of_put {F : FnPtrs K Val} {draw : Nat → UInt64} {r : Int × RsHmap K Val}
    (hne : vecs.elems ≠ []) (hlt : vecs.elems.length < vecs.maxNumInChunk)
    (hput : rsxKcPut F draw 0 vecs.elems h = some r) (hst : r.1 = 0) :
    Evals F draw vecs (KeyCounter.new h) ⟨r.2, 0, true⟩ := by
  have hchunk : vecs.getChunk 0 = vecs.elems := by
    simp [LVector.getChunk, page, List.take_of_length_le hlt.le]
  refine .last ?_
  simp [KeyCounter.next, KeyCounter.new, hchunk, hne, hput, hst, hlt]

/-- Two keys, one of them three times. -/
def fourRows : LVector Nat := ⟨[5, 7, 5, 5], 64, sixtyFour_pos⟩

theorem isSome_fourRows :
    (rsxKcPut (kcFns fun _ _ => 0) (fun _ => 0) 0 fourRows.elems emptyMap).isSome = true := by
  decide +kernel

/-- Both keys hash to bucket 0, and the second goes to bucket 1. -/
theorem evals_fourRows : ∃ kc, Evals (kcFns fun _ _ => 0) (fun _ => 0) fourRows
    (KeyCounter.new emptyMap) kc ∧ kc.H.pslWrapped = false ∧ kc.H.nitems = 2 ∧
      ∀ p < kc.H.size, kc.H.bktFull p = true → p < 2 :=
  ⟨_, evals_of_put (by decide) (by decide) (Option.some_get isSome_fourRows).symm
    (by decide +kernel), by decide +kernel, by decide +kernel, by decide +kernel⟩

theorem grouped_iff_fourRows : ∃ kc, Evals (kcFns fun _ _ => 0) (fun _ => 0) fourRows
    (KeyCounter.new emptyMap) kc ∧ Grouped (fun _ _ => 0) fourRows kc.H 64 := by
  obtain ⟨kc, he, hw, hn, hfull⟩ := evals_fourRows
  refine ⟨kc, he, (grouped_iff instantiate_emptyMap he hw).mpr ⟨fun k => ?_, ?_, ?_⟩⟩
  · exact List.count_le_length.trans_lt (by decide)
  · exact .inl ⟨by decide, by decide, by decide⟩
  · rw [hn]
    exact hfull

end QStore.Cntr
