import QStore.Hmap.Run

/-!
# QStore.Hmap.Chk

`rs_hmap_chk` (`src/rs_hmap_chk.c`), with which the tests look over a table: `nitems` counts the full
buckets, no two keys are the same, every key is found, and from the bucket of a key back to where its
probing starts no bucket is empty.

That two keys are the same it concludes from a hash of 64 bits under a random seed, and in a table of
fewer than 1024 items it takes a hash of zero for an error. So a table that nothing is wrong with
passes exactly when the hashes of its keys differ and, if it is small, none is zero
(`reaches_rsHmapChk_iff`).
-/

namespace QStore.Hmap

open QStore.Ring QStore.RobinHood

section Model

variable {K V : Type}

/-- `chk_t` -/
structure ChkHash where
  idx : Nat
  hash : UInt64

/-- The loop that fills `hashes`, at bucket `i`. `none`: more than `chkNitems` of them. -/
def hashStep (spookyHash64 : K → UInt64) (h : RsHmap K V) (chkNitems : Nat)
    (hashes : List ChkHash) (i : Nat) : Option (List ChkHash) :=
  if h.bktFull i then
    if hashes.length ≥ chkNitems then none
    else some (hashes ++ [⟨i, spookyHash64 (h.bkts i).key⟩])
  else some hashes

/-- Fewer than 1024 hashes are compared each with each. -/
def allDiffer : List ChkHash → Bool
  | [] => true
  | c :: cs => decide (c.hash ≠ 0) && cs.all (fun d => decide (c.hash ≠ d.hash)) && allDiffer cs

/-- Sorted hashes are compared with their neighbours. -/
def neighboursDiffer : List ChkHash → Bool
  | c :: d :: cs => decide (d.hash ≠ c.hash) && neighboursDiffer (d :: cs)
  | _ => true

/-- `qsort` with `sortcompare`, which never calls two hashes equal: which of them comes first is not
looked at. -/
def sortHashes (hashes : List ChkHash) : List ChkHash :=
  hashes.mergeSort fun x y => decide (x.hash ≤ y.hash)

/-- The check that each key is unique. -/
def hashesDiffer (hashes : List ChkHash) : Bool :=
  if hashes.length < 1024 then allDiffer hashes else neighboursDiffer (sortHashes hashes)

/-- The steps back from bucket `startFrom`, with `size - num_searches` turns left. -/
def walkBack (h : RsHmap K V) (probeLoc : Nat) : Nat → Nat → Bool
  | 0, _ => false
  | left + 1, startFrom =>
      if h.bktFull startFrom then
        let startFrom := if startFrom = 0 then h.size - 1 else startFrom - 1
        if startFrom = probeLoc then true else walkBack h probeLoc left startFrom
      else false

/-- The last loop, at bucket `i`. -/
def chkBkt (F : FnPtrs K V) (h : RsHmap K V) (i : Nat) : Int :=
  if h.bktFull i then
    let r := rsHmapGet F h (h.bkts i).key
    if r.status < 0 then r.status
    else if !r.isFound then -1
    else
      let probeLoc := h.home F (h.bkts i).key
      if probeLoc = i then 0
      else if walkBack h probeLoc h.size i then 0 else -1
  else 0

/-- The first error among the statuses of a loop. -/
def firstError (statuses : List Int) : Int := (statuses.find? (· < 0)).getD 0

/-- `rs_hmap_chk`. `spookyHash64` is the hash under the seed it draws. -/
def rsHmapChk (spookyHash64 : K → UInt64) (F : FnPtrs K V) (h : RsHmap K V) : Int :=
  let chkNitems := (List.range h.size).countP h.bktFull
  if h.nitems ≠ chkNitems then -1
  else match (List.range h.size).foldlM (hashStep spookyHash64 h chkNitems) [] with
    | none => -1
    | some hashes =>
        if hashes.length ≠ chkNitems then -1
        else if !hashesDiffer hashes then -1
        else firstError ((List.range h.size).map (chkBkt F h))

end Model

variable {K V : Type} {spookyHash64 : K → UInt64} {F : FnPtrs K V} {h : RsHmap K V}
  {m : K → Option V} {hashes : List ChkHash} {i p s d : Nat}

/-! ## the hashes -/

theorem allDiffer_eq_true :
    allDiffer hashes = true ↔ (hashes.map ChkHash.hash).Nodup ∧ ∀ c ∈ hashes, c.hash ≠ 0 := by
  induction hashes with
  | nil => simp [allDiffer]
  | cons c cs ih =>
      simp only [allDiffer, Bool.and_eq_true, decide_eq_true_eq, List.all_eq_true, ih,
        List.map_cons, List.nodup_cons, List.mem_map, List.forall_mem_cons, not_exists, not_and]
      grind

/-- Of sorted hashes neighbours differ exactly when all do. -/
theorem neighboursDiffer_eq_true (hs : hashes.Pairwise fun x y => x.hash ≤ y.hash) :
    neighboursDiffer hashes = true ↔ (hashes.map ChkHash.hash).Nodup := by
  induction hashes with
  | nil => simp [neighboursDiffer]
  | cons c cs ih =>
      obtain ⟨hle, hcs⟩ := List.pairwise_cons.mp hs
      have ih := ih hcs
      cases cs with
      | nil => simp [neighboursDiffer]
      | cons d cs =>
          -- the first hash is at most the second, and that at most every later one
          have hfirst : d.hash ≠ c.hash ↔ c.hash ∉ (d :: cs).map ChkHash.hash := by
            constructor
            · intro hne hmem
              obtain ⟨e, he, hec⟩ := List.mem_map.mp hmem
              have hcd : c.hash ≤ d.hash := hle d (List.mem_cons_self ..)
              have hde : d.hash ≤ e.hash := by
                cases List.mem_cons.mp he with
                | inl heq => rw [heq]; exact UInt64.le_refl _
                | inr hmem => exact (List.pairwise_cons.mp hcs).1 e hmem
              exact hne (UInt64.le_antisymm (hec ▸ hde) hcd)
            · intro hnot heq
              exact hnot (by simp [heq])
          rw [neighboursDiffer, Bool.and_eq_true, decide_eq_true_eq, ih, hfirst]
          exact List.nodup_cons.symm

theorem hashesDiffer_eq_true :
    hashesDiffer hashes = true ↔ (hashes.map ChkHash.hash).Nodup ∧
      (hashes.length < 1024 → ∀ c ∈ hashes, c.hash ≠ 0) := by
  rw [hashesDiffer]
  split
  · next hlt => simp only [allDiffer_eq_true, hlt, forall_const]
  · next hge =>
    have hsorted : (sortHashes hashes).Pairwise fun x y => decide (x.hash ≤ y.hash) = true :=
      List.pairwise_mergeSort (fun a b c => by simpa using UInt64.le_trans)
        (fun a b => by simpa using UInt64.le_total a.hash b.hash) hashes
    simp only [decide_eq_true_eq] at hsorted
    have hperm : (sortHashes hashes).Perm hashes := List.mergeSort_perm ..
    rw [neighboursDiffer_eq_true hsorted, (hperm.map ChkHash.hash).nodup_iff]
    exact (and_iff_left fun hlt => absurd hlt hge).symm

/-- The hashes of the full buckets before `i`. -/
def hashesTo (spookyHash64 : K → UInt64) (h : RsHmap K V) (i : Nat) : List ChkHash :=
  ((List.range i).filter h.bktFull).map fun j => ⟨j, spookyHash64 (h.bkts j).key⟩

theorem length_hashesTo (spookyHash64 : K → UInt64) (h : RsHmap K V) (i : Nat) :
    (hashesTo spookyHash64 h i).length = (List.range i).countP h.bktFull := by
  rw [hashesTo, List.length_map, List.countP_eq_length_filter]

/-- `hashes` has room for as many as there are full buckets. -/
theorem foldlM_hashStep (spookyHash64 : K → UInt64) {n : Nat}
    (hn : (List.range i).countP h.bktFull ≤ n) :
    (List.range i).foldlM (hashStep spookyHash64 h n) [] = some (hashesTo spookyHash64 h i) := by
  induction i with
  | zero => rfl
  | succ i ih =>
      have hcount : (List.range (i + 1)).countP h.bktFull =
          (List.range i).countP h.bktFull + if h.bktFull i then 1 else 0 := by
        simp [List.range_succ, List.countP_append]
      rw [List.range_succ, List.foldlM_append, ih (by omega)]
      cases hfull : h.bktFull i with
      | false => simp [hashStep, hashesTo, List.range_succ, hfull]
      | true =>
          have hroom : ¬ (hashesTo spookyHash64 h i).length ≥ n := by
            rw [hfull, if_pos rfl] at hcount
            rw [length_hashesTo]
            omega
          simpa [hashStep, hashesTo, List.range_succ, hfull] using hroom

/-! ## the steps back -/

/-- The slot before slot `d + 1` of a walk. -/
theorem pred_add_mod (hs : 0 < h.size) :
    (if (s + (d + 1)) % h.size = 0 then h.size - 1 else (s + (d + 1)) % h.size - 1) =
      (s + d) % h.size := by
  have hlt : (s + d) % h.size < h.size := Nat.mod_lt _ hs
  rw [add_succ_mod hs, next]
  grind

/-- The steps back from `d + 1` steps after a slot come to it if all the buckets are full. -/
theorem walkBack_of_full {left : Nat} (hd : d < h.size) (hs : s < h.size) (hleft : d < left)
    (hfull : ∀ j ≤ d + 1, h.bktFull ((s + j) % h.size) = true) :
    walkBack h s left ((s + (d + 1)) % h.size) = true := by
  induction d generalizing left with
  | zero =>
      obtain ⟨left, rfl⟩ : ∃ l, left = l + 1 := ⟨left - 1, by omega⟩
      rw [walkBack, if_pos (hfull 1 le_rfl), pred_add_mod (by omega), Nat.add_zero,
        Nat.mod_eq_of_lt hs]
      exact if_pos rfl
  | succ d ih =>
      obtain ⟨left, rfl⟩ : ∃ l, left = l + 1 := ⟨left - 1, by omega⟩
      have hback := ih (by omega) (by omega : d < left) fun j hj => hfull j (by omega)
      rw [walkBack, if_pos (hfull (d + 1 + 1) le_rfl), pred_add_mod (by omega)]
      simp only [hback, ite_self]

variable [Zero K] [Zero V]

/-- Every bucket of a well-formed table passes the last loop. -/
theorem WellFormed.chkBkt (hwf : WellFormed F h) (hrep : Rep h m) (hp : p < h.size) :
    chkBkt F h p = 0 := by
  rw [Hmap.chkBkt]
  split
  · next hfull =>
    have he := RsHmap.view_of_full hfull
    obtain ⟨e, heq⟩ : ∃ e, e = h.bkts p := ⟨_, rfl⟩
    rw [← heq] at he ⊢
    have hval : m e.key = some e.val := (hrep _ _).mpr ⟨p, e, hp, he, rfl, rfl⟩
    obtain ⟨hst, hfound, -⟩ := getCorrect_held hwf hrep hval
    rw [if_neg (by omega), hfound.mpr ⟨_, hval⟩]
    simp only [Bool.not_true, Bool.false_eq_true, if_false]
    split
    · rfl
    · next hne =>
      have hloc := hwf.inv.loc p e hp he
      have hpsl := hwf.inv.psl_lt p e hp he
      obtain ⟨d, hd⟩ : ∃ d, e.psl = d + 1 := by
        refine ⟨e.psl - 1, (Nat.succ_pred_eq_of_ne_zero fun h0 => hne ?_).symm⟩
        rw [h0, Nat.add_zero, Nat.mod_eq_of_lt (hwf.home_lt _)] at hloc
        exact hloc
      have hback : walkBack h (h.home F e.key) h.size p = true := by
        rw [hd] at hloc
        rw [← hloc]
        refine walkBack_of_full (by omega) (hwf.home_lt _) (by omega) fun j hj => ?_
        obtain ⟨f, hf, -⟩ := hwf.inv.walk hp he (i := j) (by omega)
        exact (RsHmap.view_eq_some.mp hf).1
      rw [if_pos hback]
  · rfl

/-! ## the check -/

/-- What the check takes for a table without a key twice: the hashes of the keys differ, and those of
fewer than 1024 keys are not zero. -/
def HashesApart (spookyHash64 : K → UInt64) (m : K → Option V) (nitems : Nat) : Prop :=
  (∀ k l, m k ≠ none → m l ≠ none → spookyHash64 k = spookyHash64 l → k = l) ∧
    (nitems < 1024 → ∀ k, m k ≠ none → spookyHash64 k ≠ 0)

omit [Zero K] [Zero V] in
/-- The keys of the map are those of the full buckets. -/
theorem Rep.ne_none_iff (hrep : Rep h m) {k : K} :
    m k ≠ none ↔ ∃ p, p < h.size ∧ h.bktFull p = true ∧ (h.bkts p).key = k := by
  rw [Option.ne_none_iff_exists']
  constructor
  · rintro ⟨v, hv⟩
    obtain ⟨p, e, hp, he, hk, -⟩ := (hrep k v).mp hv
    obtain ⟨hfull, rfl⟩ := RsHmap.view_eq_some.mp he
    exact ⟨p, hp, hfull, hk⟩
  · rintro ⟨p, hp, hfull, hk⟩
    exact ⟨_, (hrep k _).mpr ⟨p, _, hp, RsHmap.view_of_full hfull, hk, rfl⟩⟩

theorem hashesDiffer_hashesTo (hwf : WellFormed F h) (hrep : Rep h m)
    (hn : h.nitems = (List.range h.size).countP h.bktFull) :
    hashesDiffer (hashesTo spookyHash64 h h.size) = true ↔
      HashesApart spookyHash64 m h.nitems := by
  have hmem : ∀ j, j ∈ (List.range h.size).filter h.bktFull ↔ j < h.size ∧ h.bktFull j = true := by
    simp
  rw [hashesDiffer_eq_true, length_hashesTo, ← hn, HashesApart, hashesTo, List.map_map,
    List.nodup_map_iff_inj_on (List.nodup_range.filter _)]
  refine and_congr ⟨fun hinj k l hk hl heq => ?_, fun hinj x hx y hy heq => ?_⟩
    (forall_congr' fun _ => ⟨fun hall k hk => ?_, fun hall c hc => ?_⟩)
  · obtain ⟨p, hp, hpf, rfl⟩ := hrep.ne_none_iff.mp hk
    obtain ⟨q, hq, hqf, rfl⟩ := hrep.ne_none_iff.mp hl
    rw [hinj p ((hmem p).mpr ⟨hp, hpf⟩) q ((hmem q).mpr ⟨hq, hqf⟩) heq]
  · obtain ⟨hxs, hxf⟩ := (hmem x).mp hx
    obtain ⟨hys, hyf⟩ := (hmem y).mp hy
    exact hwf.inv.inj x y _ _ hxs hys (RsHmap.view_of_full hxf) (RsHmap.view_of_full hyf)
      (hinj _ _ (hrep.ne_none_iff.mpr ⟨x, hxs, hxf, rfl⟩) (hrep.ne_none_iff.mpr ⟨y, hys, hyf, rfl⟩)
        heq)
  · obtain ⟨p, hp, hpf, rfl⟩ := hrep.ne_none_iff.mp hk
    exact hall ⟨p, _⟩ (List.mem_map.mpr ⟨p, (hmem p).mpr ⟨hp, hpf⟩, rfl⟩)
  · obtain ⟨p, hp, rfl⟩ := List.mem_map.mp hc
    obtain ⟨hps, hpf⟩ := (hmem p).mp hp
    exact hall _ (hrep.ne_none_iff.mpr ⟨p, hps, hpf, rfl⟩)

theorem WellFormed.rsHmapChk_iff (hwf : WellFormed F h) (hrep : Rep h m) :
    rsHmapChk spookyHash64 F h = 0 ↔ HashesApart spookyHash64 m h.nitems := by
  have hn : h.nitems = (List.range h.size).countP h.bktFull := by
    rw [(hwf.tableCorrect hrep).nitems, List.countP_eq_length_filter]
  have hlast : firstError ((List.range h.size).map (Hmap.chkBkt F h)) = 0 := by
    have hnone : ((List.range h.size).map (Hmap.chkBkt F h)).find? (· < 0) = none := by
      rw [List.find?_eq_none]
      intro st hst
      obtain ⟨p, hp, rfl⟩ := List.mem_map.mp hst
      simp [hwf.chkBkt hrep (List.mem_range.mp hp)]
    rw [firstError, hnone, Option.getD_none]
  rw [← hashesDiffer_hashesTo hwf hrep hn, rsHmapChk]
  simp only [← hn, ne_eq, not_true_eq_false, if_false,
    foldlM_hashStep spookyHash64 hn.ge, length_hashesTo, hlast]
  cases hashesDiffer (hashesTo spookyHash64 h h.size) <;> simp

/-- **Every table a run reaches** passes exactly when the hashes drawn for its keys are apart. -/
theorem reaches_rsHmapChk_iff [DecidableEq K] (hr : Reaches F h m) (hw : h.pslWrapped = false)
    (spookyHash64 : K → UInt64) :
    rsHmapChk spookyHash64 F h = 0 ↔ HashesApart spookyHash64 m h.nitems := by
  obtain ⟨hwf, -, hrep⟩ := reaches_wellFormed hr hw
  exact hwf.rsHmapChk_iff hrep

/-- Two keys pass where the numbers are their hashes, and fail where they have one hash. -/
theorem reaches_rsHmapChk_iff_two : ∃ m, Reaches replaceFns twoItemMap m ∧ m 1 = some 10 ∧
    m 2 = some 20 ∧ HashesApart UInt64.ofNat m twoItemMap.nitems ∧
      rsHmapChk (fun _ => 1) replaceFns twoItemMap ≠ 0 := by
  obtain ⟨m, hr, h1, h2⟩ := reaches_twoItem
  have hpass : rsHmapChk UInt64.ofNat replaceFns twoItemMap = 0 := by decide +kernel
  refine ⟨m, hr, h1, h2, (reaches_rsHmapChk_iff hr twoItem_noWrap _).mp hpass, fun hone => ?_⟩
  obtain ⟨hapart, -⟩ := (reaches_rsHmapChk_iff hr twoItem_noWrap _).mp hone
  exact absurd (hapart 1 2 (by simp [h1]) (by simp [h2]) rfl) (by decide)

end QStore.Hmap
