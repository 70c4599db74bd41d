import QStore.Cntr.KeyCounter
import QStore.Lib.Grouping

/-!
# QStore.Cntr.Count

What a key counter holds when `next` has returned false: for each key of the
rows the number of its rows, modulo `2 ^ 32`, and its rank.
-/

namespace QStore.Cntr

open QStore.Hmap QStore.Operators QStore.RobinHood QStore.Grouping Function

variable {K : Type} [DecidableEq K] {setHash : K → UInt64 → UInt32}
variable {h h' : RsHmap K Val} {rows keys : List K} {k x : K} {draw : Nat → UInt64}

/-- The map that some rows amount to. -/
def tally (rows : List K) (k : K) : Option Val :=
  if k ∈ rows then some ⟨rows.count k % 2 ^ 32, rank rows k⟩ else none

theorem tally_of_mem (h : k ∈ rows) :
    tally rows k = some ⟨rows.count k % 2 ^ 32, rank rows k⟩ := if_pos h

theorem tally_of_notMem (h : k ∉ rows) : tally rows k = none := if_neg h

theorem rank_pos (h : k ∈ rows) : 0 < rank rows k := ((bijOn_rank rows).1 h).1

theorem rank_le (h : k ∈ rows) : rank rows k ≤ rows.toFinset.card := ((bijOn_rank rows).1 h).2

/-- One more row. -/
theorem insertOrUpdate_tally {g : Nat} (hnew : x ∉ rows → g = rows.toFinset.card + 1)
    (hold : x ∈ rows → rows.count x % 2 ^ 32 ≠ 0) :
    insertOrUpdate (kcFns setHash) (tally rows) x ⟨1, g⟩ = tally (rows ++ [x]) := by
  funext k
  by_cases hk : k = x
  · subst hk
    have hmem : k ∈ rows ++ [k] := by simp
    by_cases hx : k ∈ rows
    · have hcount := hold hx
      have hrank := (rank_pos hx).ne'
      simp only [insertOrUpdate, update_self, tally_of_mem hx, tally_of_mem hmem, kcFns,
        rsxValUpdate, hrank, hcount, if_false, rank_append_of_mem hx, List.count_append,
        List.count_singleton_self, Nat.mod_add_mod]
    · have hcount := List.count_eq_zero_of_not_mem hx
      simp only [insertOrUpdate, update_self, tally_of_notMem hx, tally_of_mem hmem, hnew hx,
        rank_append_self hx, List.count_append, hcount, List.count_singleton_self, Nat.zero_add]
      rfl
  · rw [insertOrUpdate, update_of_ne hk]
    by_cases hx : k ∈ rows
    · have hmem : k ∈ rows ++ [x] := List.mem_append_left _ hx
      rw [tally_of_mem hx, tally_of_mem hmem, rank_append_of_mem hx, List.count_append,
        List.count_singleton, beq_false_of_ne (Ne.symm hk)]
      rfl
    · have hmem : k ∉ rows ++ [x] := by simp [hx, hk]
      rw [tally_of_notMem hx, tally_of_notMem hmem]

variable [Zero K]

/-- The counter after some rows. -/
structure Counted (setHash : K → UInt64 → UInt32) (rows : List K) (h : RsHmap K Val) : Prop where
  wf : WellFormed (kcFns setHash) h
  loaded : Loaded h
  rep : Rep h (tally rows)

/-- The full buckets, by their keys. -/
theorem Counted.image_key (hc : Counted setHash rows h) :
    ((Finset.range h.size).filter fun p => h.bktFull p = true).image (fun p => (h.bkts p).key) =
      rows.toFinset := by
  ext k
  simp only [Finset.mem_image, Finset.mem_filter, Finset.mem_range, List.mem_toFinset]
  constructor
  · rintro ⟨p, ⟨hp, hf⟩, rfl⟩
    by_contra hno
    have := (hc.rep _ _).mpr ⟨p, _, hp, RsHmap.view_of_full hf, rfl, rfl⟩
    rw [tally_of_notMem hno] at this
    cases this
  · intro hk
    obtain ⟨p, e, hp, he, hkey, -⟩ := (hc.rep k _).mp (tally_of_mem hk)
    obtain ⟨hf, rfl⟩ := RsHmap.view_eq_some.mp he
    exact ⟨p, ⟨hp, hf⟩, hkey⟩

theorem Counted.injOn_key (hc : Counted setHash rows h) :
    Set.InjOn (fun p => (h.bkts p).key)
      ((Finset.range h.size).filter fun p => h.bktFull p = true : Finset Nat) := by
  intro p hp q hq hk
  simp only [Finset.coe_filter, Finset.mem_range, Set.mem_ofPred_eq] at hp hq
  exact hc.wf.inv.inj p q _ _ hp.1 hq.1 (RsHmap.view_of_full hp.2) (RsHmap.view_of_full hq.2) hk

/-- There is one item for each key. -/
theorem Counted.nitems (hc : Counted setHash rows h) : h.nitems = rows.toFinset.card := by
  rw [hc.wf.nitems_eq, ← hc.image_key, Finset.card_image_of_injOn hc.injOn_key, RobinHood.count]
  congr 1
  refine Finset.filter_congr fun p _ => ?_
  cases hf : h.bktFull p <;> simp [RsHmap.view, hf]

/-- **One row.** -/
theorem Counted.put (hc : Counted setHash rows h) {hashkey : UInt64} {r : Int × RsHmap K Val}
    (hp : rsHmapPut (kcFns setHash) hashkey h x ⟨1, (h.nitems + 1) % 2 ^ 32⟩ = some r)
    (hst : 0 ≤ r.1) (hw : r.2.pslWrapped = false) : Counted setHash (rows ++ [x]) r.2 := by
  obtain ⟨hwf, hl, hrep⟩ := rsHmapPut_spec hc.wf hc.loaded hc.rep hp hw
  obtain ⟨href, hupd⟩ := rsHmapPut_status hc.wf hc.rep hp hw hst
  have hlt : h.nitems + 1 < 2 ^ 32 := by
    have hload := hc.loaded
    have h1 := hc.wf.size_lt
    have h2 := hc.wf.size_pos
    rw [Loaded, highThreshold_eq (by omega)] at hload
    omega
  have hold : x ∈ rows → rows.count x % 2 ^ 32 ≠ 0 := by
    intro hx h0
    have := hupd _ (tally_of_mem hx)
    simp only [kcFns, rsxValUpdate, h0, (rank_pos hx).ne', if_true, if_false] at this
    omega
  refine ⟨hwf, hl, ?_⟩
  rw [href, if_neg (by decide), insertOrUpdate_tally (fun _ => ?_) hold] at hrep
  · exact hrep
  · rw [Nat.mod_eq_of_lt hlt, hc.nitems]

theorem rsxKcPut_pslWrapped {i : Nat} {r : Int × RsHmap K Val}
    (hp : rsxKcPut (kcFns setHash) draw i keys h = some r) (hw : r.2.pslWrapped = false) :
    h.pslWrapped = false := by
  induction keys generalizing i h with
  | nil =>
      cases hp
      exact hw
  | cons key keys ih =>
      rw [rsxKcPut, Option.bind_eq_some_iff] at hp
      obtain ⟨g, hg, hp⟩ := hp
      split at hp
      · cases hp
        exact rsHmapPut_pslWrapped hg hw
      · exact rsHmapPut_pslWrapped hg (ih hp)

/-- **A chunk of rows.** -/
theorem Counted.kcPut (hc : Counted setHash rows h) {i : Nat} {r : Int × RsHmap K Val}
    (hp : rsxKcPut (kcFns setHash) draw i keys h = some r) (hst : r.1 = 0)
    (hw : r.2.pslWrapped = false) : Counted setHash (rows ++ keys) r.2 := by
  induction keys generalizing i h rows with
  | nil =>
      cases hp
      simpa using hc
  | cons key keys ih =>
      rw [rsxKcPut, Option.bind_eq_some_iff] at hp
      obtain ⟨g, hg, hp⟩ := hp
      split at hp
      · next hneg =>
          cases hp
          omega
      · next hpos =>
          have hone := hc.put hg (not_lt.mp hpos) (rsxKcPut_pslWrapped hp hw)
          have hrest := ih hone hp
          rwa [List.append_assoc, List.singleton_append] at hrest

/-! ## all chunks -/

variable {vecs : LVector K} {kc kc' : KeyCounter K}

/-- The counter between two calls of `next`: it has counted the chunks so far. -/
structure Consumed (setHash : K → UInt64 → UInt32) (vecs : LVector K) (kc : KeyCounter K) :
    Prop where
  open_ : kc.isEor = false
  counted : Counted setHash (vecs.elems.take (kc.chunkNum * vecs.maxNumInChunk)) kc.H

theorem next_pslWrapped {b : Bool} (hn : kc.next (kcFns setHash) draw vecs = some (b, kc'))
    (hw : kc'.H.pslWrapped = false) : kc.H.pslWrapped = false := by
  rw [KeyCounter.next] at hn
  split at hn
  · cases hn
    exact hw
  · dsimp only at hn
    split at hn
    · cases hn
      exact hw
    · rw [Option.bind_eq_some_iff] at hn
      obtain ⟨r, hr, hn⟩ := hn
      split at hn
      · cases hn
      · split at hn
        · cases hn
          exact rsxKcPut_pslWrapped hr hw
        · cases hn
          exact rsxKcPut_pslWrapped hr hw

/-- A call of `next` counts one more chunk, or there is none. -/
theorem Consumed.next {b : Bool} (hc : Consumed setHash vecs kc)
    (hn : kc.next (kcFns setHash) draw vecs = some (b, kc')) (hw : kc'.H.pslWrapped = false) :
    (b = true → Consumed setHash vecs kc') ∧ (b = false → Counted setHash vecs.elems kc'.H) := by
  rw [KeyCounter.next, hc.open_, if_neg (by decide)] at hn
  have hcut := take_append_page (D := vecs.elems) (p := vecs.maxNumInChunk) (i := kc.chunkNum)
  dsimp only at hn
  split at hn
  · next h0 =>
      cases hn
      refine ⟨by simp, fun _ => ?_⟩
      have hlen : vecs.elems.length ≤ kc.chunkNum * vecs.maxNumInChunk := by
        have := vecs.pos
        rw [LVector.length_getChunk] at h0
        omega
      simpa [List.take_of_length_le hlen] using hc.counted
  · rw [Option.bind_eq_some_iff] at hn
    obtain ⟨r, hr, hn⟩ := hn
    split at hn
    · cases hn
    · next hst =>
        rw [not_not] at hst
        split at hn
        · next hshort =>
            cases hn
            refine ⟨by simp, fun _ => ?_⟩
            have hall := hc.counted.kcPut hr hst hw
            have hlen : vecs.elems.length ≤ (kc.chunkNum + 1) * vecs.maxNumInChunk := by
              rw [Nat.add_mul, Nat.one_mul]
              rw [LVector.length_getChunk] at hshort
              omega
            rwa [LVector.getChunk, hcut, List.take_of_length_le hlen] at hall
        · cases hn
          refine ⟨fun _ => ⟨rfl, ?_⟩, by simp⟩
          have hall := hc.counted.kcPut hr hst hw
          rwa [LVector.getChunk, hcut] at hall

/-- **When `next` has returned false**, all rows have been counted. -/
theorem Consumed.evals (hc : Consumed setHash vecs kc)
    (he : Evals (kcFns setHash) draw vecs kc kc') (hw : kc'.H.pslWrapped = false) :
    Counted setHash vecs.elems kc'.H := by
  induction he with
  | last hn => exact (hc.next hn hw).2 rfl
  | more hn hrest ih =>
      have hmid : ∀ {a b : KeyCounter K}, Evals (kcFns setHash) draw vecs a b →
          b.H.pslWrapped = false → a.H.pslWrapped = false := by
        intro a b hab hb
        induction hab with
        | last hn => exact next_pslWrapped hn hb
        | more hn _ ih => exact next_pslWrapped hn (ih hb)
      exact ih ((hc.next hn (hmid hrest hw)).1 rfl) hw

/-- A new counter has counted nothing. -/
theorem consumed_new {hc : HmapConfig} {hashkey : UInt64} {loads : Bool}
    (hi : instantiate hc hashkey loads = some (.ok h)) :
    Consumed setHash vecs (KeyCounter.new h) := by
  obtain ⟨size, config, hpos, hlt, rfl⟩ := instantiate_eq_blank hi
  refine ⟨rfl, wellFormed_blank hpos hlt _ _ _, Nat.zero_le _, ?_⟩
  have hnil : tally (vecs.elems.take ((KeyCounter.new
      (blank (K := K) (V := Val) size hashkey config false)).chunkNum * vecs.maxNumInChunk)) =
      fun _ => none := by
    funext k
    simp [KeyCounter.new, tally]
  rw [hnil]
  exact rep_blank _ _ _ _

end QStore.Cntr
