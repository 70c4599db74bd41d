import QStore.Vctr.Run

/-!
# QStore.Vctr.Contract

What a vector owes to those who append to it.

* Without a memo window (`AppendContract`): the chunk table holds the chunks
  from the first to the last, all but the last full, and every element appended
  can be read.
* Under changes of tier (`TierContract`): no element is lost, and no read returns
  another one.
* With a memo window (`MemoContract`): the table holds the last `memo_len` chunks,
  and deleting the vector leaves none of them.

Each holds in every run, of any length and in any order of calls, that keeps
away from one defect, and fails in a run that does not.
-/

namespace QStore.Vctr

open Function

variable {a : AddArgs} {s t : St} {u i n : Nat} {L : List (List UInt8)} {v : VctrVal} {D : List UInt8}

/-! ## appending -/

/-- The number of elements the table gives chunk `i`. -/
def chnkCount (s : St) (u i : Nat) : Nat := ((s.chnks (u, i)).map ChnkVal.numElements).getD 0

/-- What a vector without a memo window owes for the elements `L`. -/
structure AppendContract (s : St) (u : Nat) (v : VctrVal) (L : List (List UInt8)) : Prop where
  found : s.vctrs u = some v
  num : v.numElements = L.length
  table : ∀ i, (s.chnks (u, i)).isSome ↔ 0 < L.length ∧ i ≤ v.maxChnkIdx
  full : ∀ i c, i < v.maxChnkIdx → s.chnks (u, i) = some c → c.numElements = v.maxNumInChnk
  sum : ∑ i ∈ Finset.range (v.maxChnkIdx + 1), chnkCount s u i = v.numElements
  get : ∀ i (hi : i < L.length), ∃ t, vctrGet1 u i s = .ok L[i] t
  past : ∀ i, L.length ≤ i → vctrGet1 u i s = .error (.bye (-1)) s

theorem AddArgs.Ok.memoLen_eq (h : a.Ok) (hm : a.isMemo = false) : a.entry.memoLen = 0 := by
  obtain ⟨ht, -⟩ | ⟨-, h0⟩ := h.memo
  · rw [hm] at ht
    cases ht
  · show a.memoLen.toNat = 0
    rw [h0]
    rfl

theorem Grown.appendContract (h : Grown a s u v L) (hm : a.isMemo = false) (hq : v.qtype ≠ .B1)
    (hsc : v.qtype ≠ .SC) : AppendContract s u v L := by
  have hmemo : v.memoLen = 0 := (static_memoLen h.static).trans (h.args.memoLen_eq hm)
  have hmin : v.minChnkIdx = 0 := by
    rw [h.narrow, VctrVal.lowest, if_pos hmemo]
  refine ⟨h.vec.found, h.num, fun i => ?_, fun i c hi hc => ?_, ?_, fun i hi => ?_, fun i =>
    h.past⟩
  · by_cases hp : 0 < L.length
    · have hh := h.held hp
      refine ⟨fun hs => ?_, fun hi => ?_⟩
      · obtain ⟨c, hc⟩ := Option.isSome_iff_exists.mp hs
        exact ⟨hp, (hh.mem_window hc).2⟩
      · obtain ⟨c, hc, -⟩ := hh.inside i (by omega) hi.2
        rw [hc]
        rfl
    · rw [h.vec.empty (by rw [h.num]; omega) i]
      simp [hp]
  · have hp : 0 < L.length := by
      by_contra h0
      rw [h.vec.empty (by rw [h.num]; omega) i] at hc
      cases hc
    exact ((h.held hp).chnkOk hc).numElements_full h.vec.shape hi
  · by_cases hp : 0 < L.length
    · have hh := h.held hp
      have hcount : ∀ i ∈ Finset.range (v.maxChnkIdx + 1), chnkCount s u i =
          min v.maxNumInChnk (v.numElements - i * v.maxNumInChnk) := by
        intro i hi
        rw [Finset.mem_range] at hi
        obtain ⟨c, hc, hok⟩ := hh.inside i (by omega) (by omega)
        rw [chnkCount, hc, Option.map_some, Option.getD_some, hok.numElements_eq h.vec.shape]
      rw [Finset.sum_congr rfl hcount, sum_min_page]
      exact Nat.min_eq_left h.vec.shape.hi
    · have h0 : v.numElements = 0 := by rw [h.num]; omega
      rw [h0]
      refine Finset.sum_eq_zero fun i _ => ?_
      rw [chnkCount, h.vec.empty h0 i]
      rfl
  · exact h.vctrGet1_ok hq hi (hmin ▸ Nat.zero_le _) fun hq' => absurd hq' hsc

/-- A run of appends keeps the elements. -/
theorem run_grown_puts (h : Run (fun _ v o => o.isPut ∧ o.Fair v) a u s L)
    (hm : a.isMemo = false) (hq : a.qtype ≠ .B1) (hsc : a.qtype ≠ .SC)
    (hfit : a.widthOf * a.maxOf < 2 ^ 32) : ∃ v, Grown a s u v L := by
  refine run_grown h hq hfit fun s v o hok hst ho => ?_
  obtain ⟨hput, hf⟩ := ho
  have hmemo : v.memoLen = 0 := (static_memoLen hst).trans (hok.memoLen_eq hm)
  have hfree : ∀ n, Op.MemoFree s u v n := fun n h0 => absurd hmemo h0
  refine ⟨hf, ?_⟩
  cases o with
  | put1 x => exact ⟨fun hq' => absurd ((static_qtype hst).symm.trans hq') hsc, hfree _⟩
  | putn X n => exact hfree _
  | putChunk cmem n => exact hfree _
  | _ => exact hput.elim

/-- **Append and read**: in every run of appends, as long as the bytes of a chunk
can be counted in 32 bits. -/
theorem run_appendContract (h : Run (fun _ v o => o.isPut ∧ o.Fair v) a u s L)
    (hm : a.isMemo = false) (hq : a.qtype ≠ .B1) (hsc : a.qtype ≠ .SC)
    (hfit : a.widthOf * a.maxOf < 2 ^ 32) : ∃ v, AppendContract s u v L := by
  obtain ⟨v, hg⟩ := run_grown_puts h hm hq hsc hfit
  have hqt : v.qtype = a.qtype := static_qtype hg.static
  exact ⟨v, hg.appendContract hm (hqt ▸ hq) (hqt ▸ hsc)⟩

/-- The state once a vector has been made for them. -/
def added (a : AddArgs) : St := final (vctrAdd a) .start

theorem run_added {P : St → VctrVal → Op → Prop} (h : outcome (vctrAdd a) .start = .ok 1) :
    Run P a 1 (added a) [] :=
  .add (s := .start) (fun _ => rfl) (run_of_outcome_ok h)

/-- One byte more than a chunk holds. -/
def sixtyFive : List UInt8 := (List.range 65).map UInt8.ofNat

/-- They are appended at once. -/
theorem run_sixtyFive : Run (fun _ v o => o.isPut ∧ o.Fair v) (plainArgs .I1 0) 1
    (final (vctrPutn 1 sixtyFive 65) (added (plainArgs .I1 0))) (slices 1 65 sixtyFive) :=
  (run_added (a := plainArgs .I1 0) (by decide)).ok (o := .putn sixtyFive 65) rfl
    ⟨trivial, by decide, show 0 + 65 ≤ lmaIdx * 64 by decide⟩ (run_of_outcome_ok (by decide +kernel))

/-- A vector of bytes with two chunks. -/
theorem run_appendContract_sixtyFive : ∃ s v, AppendContract s 1 v (slices 1 65 sixtyFive) :=
  ⟨_, run_appendContract run_sixtyFive rfl (by decide) (by decide) (by decide)⟩

/-- A `vctr_putn` of `n` elements, `n * width` being a multiple of `2^32`, enters a
first chunk that is said to have `n` elements and has none. -/
theorem ends_vctrPutn_wraps (hv : s.vctrs u = some v) (hu : u ≠ 0) (hn : 0 < n)
    (h0 : v.numElements = 0) (hm0 : v.maxChnkIdx = 0) (he : v.isEov = false) (hm : v.memoLen = 0)
    (hle : n ≤ v.maxNumInChnk) (hlt : v.maxNumInChnk < 2 ^ 32) (hz : u32 (n * v.width) = 0)
    (hsz : v.chnkSize ≠ 0) (hsz' : v.chnkSize ≤ 1024 * 1048576) (X : List UInt8) :
    Ends (vctrPutn u X n) s (fun _ t => ∃ w c b, t.vctrs u = some w ∧ w.static = v.static ∧
      w.numElements = n ∧ t.chnks (u, 0) = some c ∧ c.numWriters = 0 ∧ c.numElements = n ∧
      c.l1Mem = some b ∧ b.bytes = List.replicate v.chnkSize s.junk) fun _ _ => False := by
  have hn0 : ¬ n = 0 := Nat.ne_of_gt hn
  have hempty : ¬ v.numElements ≠ 0 := by rw [h0]; simp
  have he' : ¬ v.isEov = true := by rw [he]; decide
  have hspace : u32 (v.maxNumInChnk + 2 ^ 32 - 0) = v.maxNumInChnk := by
    unfold u32
    omega
  have hk : ¬ n > v.maxNumInChnk := by omega
  have hroom : ¬ 0 = v.maxNumInChnk := by omega
  have hbig : ¬ (v.chnkSize = 0 ∨ v.chnkSize > 1024 * 1048576) := by omega
  rw [vctrPutn, vctrPutnLoop, ends_bind, putnRound]
  simp only [ends_bind, ends_byeIf_neg hu, ends_byeIf_neg hn0, ends_getVctr_of hv,
    ends_byeIf_neg he', chnkFirst, if_neg hempty, ends_memalign]
  refine ends_incrMem (fun h _ => hbig h) fun k r => ?_
  rw [ends_setChnk]
  -- the first chunk, as it was opened
  generalize hs' : ((s.bump.setMem k).setRefused r).setChnk u 0
    (freshChnk v v.chnkSize ⟨s.brk, List.replicate v.chnkSize s.junk⟩) = s'
  have hv' : s'.vctrs u = some v := by rw [← hs']; exact hv
  have hc : s'.chnks (u, 0) =
      some (freshChnk v v.chnkSize ⟨s.brk, List.replicate v.chnkSize s.junk⟩) := by
    rw [← hs']
    exact St.setChnk_self
  generalize hcd : freshChnk v v.chnkSize ⟨s.brk, List.replicate v.chnkSize s.junk⟩ = c at hc
  have hl : c.l1Mem = some ⟨s.brk, List.replicate v.chnkSize s.junk⟩ := by rw [← hcd, freshChnk]
  have hnum : c.numElements = 0 := by rw [← hcd, freshChnk]
  have hl' : ¬ c.l1Mem = none := by rw [hl]; simp
  rw [chnkToPut, hm0, ends_bind, ends_getChnk_of hc, ends_bind, ends_byeIf_neg hl', hnum,
    if_neg hroom, ends_pure, ends_getChnk_of hc, hl, hnum]
  simp only [hspace, if_neg hk, hz, Nat.zero_mul, ends_bind, ends_takeN, ends_poke, ends_modVctr_of hv',
    ends_setChnk, ends_pure, List.take_zero]
  refine ⟨fun _ => ⟨fun _ => ?_, fun hno => hno (Nat.zero_le _)⟩, fun hno => hno (Nat.zero_le _)⟩
  rw [onlyIf, if_neg (Nat.lt_irrefl n), ends_pure, vctrMemo, ends_bind,
    ends_getVctr_of (by rw [St.setChnk_vctrs, St.setVctr_self]), if_pos hm, ends_pure]
  refine ⟨{ v with numElements := v.numElements + n }, _, _, by rw [St.setChnk_vctrs, St.setVctr_self],
    rfl, ?_, St.setChnk_self, ?_, ?_, rfl, ?_⟩
  · show v.numElements + n = n
    rw [h0, Nat.zero_add]
  · show c.numWriters = 0
    rw [← hcd, freshChnk]
  · exact Nat.zero_add n
  · show splice (List.replicate v.chnkSize s.junk) (u32 0) [] = _
    simp [splice, u32]

/-- The first element of such a chunk is what its memory happened to hold. -/
theorem vctrGet1_junk {c : ChnkVal} {b : Buf} {x : List UInt8} {m : Nat} {j : UInt8}
    (hv : s.vctrs u = some v) (hl : v.isLma = false) (hn : 0 < v.numElements)
    (hm : v.maxNumInChnk ≠ 0) (hq : v.qtype ≠ .SC ∧ v.qtype ≠ .B1) (hc : s.chnks (u, 0) = some c)
    (hw : c.numWriters = 0) (hcn : 0 < c.numElements) (hb : c.l1Mem = some b)
    (hj : b.bytes = List.replicate m j) (hr : vctrGet1 u 0 s = .ok x t) :
    ∃ k, x = List.replicate k j := by
  have hspec : Ends (vctrGet1 u 0) s (fun x _ => ∃ k, x = List.replicate k j) fun _ _ => True := by
    have h0 : ¬ 0 ≥ v.numElements := by omega
    have hw' : ¬ c.numWriters > 0 := by rw [hw]; decide
    have hoff : ¬ 0 + 1 > c.numElements := by omega
    simp only [vctrGet1, ends_bind, ends_getVctr_of hv, ends_byeIf_neg h0, hl, Bool.false_eq_true,
      if_false, hm, Nat.zero_div, Nat.zero_mod, ends_getChnk_of hc, chnkGetData, hw', ends_setChnk, hb,
      ends_pure, u32]
    rw [ends_getChnk_of (by exact St.setChnk_self)]
    simp only [elemAt, hoff, hq.1, hq.2, if_false, ends_bind, ends_slice, ends_pure, hj,
      List.drop_replicate, List.take_replicate, implies_true, and_true]
    intro _
    rw [ends_modChnk_of (by exact St.setChnk_self)]
    exact ⟨_, rfl⟩
  exact hspec.of_ok hr

/-- Such a `vctr_putn` breaks the contract, unless its first element is what the
memory happened to hold. -/
theorem run_putn_wraps (h : Run (fun _ v o => o.isPut ∧ o.Fair v) a u s [])
    (hv : s.vctrs u = some a.entry) (hu : u ≠ 0) (hm : a.memoLen = 0) (hn : 0 < n)
    (hle : n ≤ a.maxOf) (hlt : a.maxOf < 2 ^ 32) (hz : u32 (n * a.widthOf) = 0)
    (hsz : a.entry.chnkSize ≠ 0) (hsz' : a.entry.chnkSize ≤ 1024 * 1048576)
    (hq : a.qtype ≠ .SC ∧ a.qtype ≠ .B1) {X : List UInt8} (hX : a.widthOf * n ≤ X.length)
    (hidx : n ≤ lmaIdx * a.maxOf) (hj : ∀ k, X.take a.widthOf ≠ List.replicate k s.junk) :
    ∃ t, Run (fun _ v o => o.isPut ∧ o.Fair v) a u t (slices a.widthOf n X) ∧
      ¬ ∃ v, AppendContract t u v (slices a.widthOf n X) := by
  have hspec := ends_vctrPutn_wraps hv hu hn rfl rfl rfl (by simp [AddArgs.entry, hm]) hle hlt hz
    hsz hsz' X
  obtain ⟨⟨⟩, t, ht, w, c, b, hw, hst, hnum, hc, hcw, hcn, hb, hbj⟩ := Ends.returns hspec
  have hfair : (Op.putn X n).Fair a.entry := ⟨hX, by simpa [AddArgs.entry] using hidx⟩
  refine ⟨t, h.ok (o := .putn X n) hv ⟨trivial, hfair⟩ ht, ?_⟩
  rintro ⟨v, hcon⟩
  obtain ⟨t', hget⟩ := hcon.get 0 (by rwa [length_slices])
  have hmax : w.maxNumInChnk ≠ 0 := by
    rw [static_maxNumInChnk hst]
    exact Nat.ne_of_gt (Nat.lt_of_lt_of_le hn hle)
  obtain ⟨k, hk⟩ := vctrGet1_junk hw (static_isLma hst) (by omega) hmax
    (by rw [static_qtype hst]; exact hq) hc hcw (by omega) hb hbj hget
  exact hj k (by simpa [slices] using hk)

/-- The elements that `vctr_putn` was to append and did not: 2^29 of them, of 8
bytes each, in chunks of 2^29 + 2^20. -/
theorem appendContract_fails : ∃ t L, Run (fun _ v o => o.isPut ∧ o.Fair v)
    (plainArgs .I8 (2 ^ 29 + 2 ^ 20)) 1 t L ∧ ¬ ∃ v, AppendContract t 1 v L := by
  have hlen : (List.replicate (2 ^ 32) (1 : UInt8)).length = 2 ^ 32 := List.length_replicate
  have hwidth : min (plainArgs .I8 (2 ^ 29 + 2 ^ 20)).widthOf (2 ^ 32) = 8 := by decide
  have hjunk : ∀ k, (List.replicate (2 ^ 32) 1).take (plainArgs .I8 (2 ^ 29 + 2 ^ 20)).widthOf ≠
      List.replicate k (added (plainArgs .I8 (2 ^ 29 + 2 ^ 20))).junk := by
    intro k hk
    rw [List.take_replicate, hwidth] at hk
    have h1 : (1 : UInt8) ∈ List.replicate k (added (plainArgs .I8 (2 ^ 29 + 2 ^ 20))).junk := by
      rw [← hk]
      simp
    exact absurd (List.mem_replicate.mp h1).2 (by decide)
  obtain ⟨t, ht⟩ := run_putn_wraps (n := 2 ^ 29) (X := List.replicate (2 ^ 32) 1)
    (run_added (a := plainArgs .I8 (2 ^ 29 + 2 ^ 20)) (by decide +kernel)) rfl (by decide) rfl
    (by decide) (by decide) (by decide) (by decide +kernel) (by decide +kernel) (by decide +kernel)
    (by decide) (by rw [hlen]; decide) (by decide) hjunk
  exact ⟨t, _, ht⟩

/-! ## moving between tiers -/

/-- The calls on a vector that is not finished: appends of elements, reads, and
levels 1 and 2. -/
def Op.isTier : Op → Prop
  | putChunk _ _ => False
  | makeMem level | dropMem level => level = 1 ∨ level = 2
  | _ => True

/-- Element `i` is `x` in the memory of its chunk or in the file of its chunk. -/
def InSomeTier (s : St) (u : Nat) (v : VctrVal) (i : Nat) (x : List UInt8) : Prop :=
  ∃ c, s.chnks (u, i / v.maxNumInChnk) = some c ∧
    ((∃ b, c.l1Mem = some b ∧ (b.bytes.drop (v.width * (i % v.maxNumInChnk))).take v.width = x) ∨
      (c.l2Exists = true ∧ ∃ f bs, l2FileName u (i / v.maxNumInChnk) = some f ∧
        s.fs.read f = some bs ∧ (bs.drop (v.width * (i % v.maxNumInChnk))).take v.width = x))

/-- What a vector owes for the elements `L` whatever its tiers. A memo window
lets go of the elements below it. -/
structure TierContract (s : St) (u : Nat) (v : VctrVal) (L : List (List UInt8)) : Prop where
  found : s.vctrs u = some v
  get : ∀ i x t, vctrGet1 u i s = .ok x t → ∃ hi : i < L.length, x = L[i]
  kept : ∀ i (hi : i < L.length), v.memoLen = 0 ∨ v.minChnkIdx ≤ i / v.maxNumInChnk →
    InSomeTier s u v i L[i]

theorem Grown.tierContract (h : Grown a s u v L) (hq : v.qtype ≠ .B1) : TierContract s u v L := by
  refine ⟨h.vec.found, fun i x t hr => ?_, fun i hi hmin => ?_⟩
  · obtain ⟨hi, -, -, hx⟩ := h.of_vctrGet1_ok hq hr
    exact ⟨hi, hx⟩
  · have hh := h.held (Nat.lt_of_le_of_lt (Nat.zero_le i) hi)
    have hi' : i < v.numElements := h.num ▸ hi
    have hlow : v.minChnkIdx ≤ i / v.maxNumInChnk := by
      refine hmin.elim (fun h0 => ?_) id
      rw [h.narrow, VctrVal.lowest, if_pos h0]
      exact Nat.zero_le _
    obtain ⟨hmax, -, hoff⟩ := h.vec.shape.chnk_of_elem hi'
    obtain ⟨c, hc, hok⟩ := hh.inside _ hlow hmax
    -- the element, in whatever holds the chunk
    have hread : ∀ bs, v.page L.flatten (i / v.maxNumInChnk) <+: bs →
        (bs.drop (v.width * (i % v.maxNumInChnk))).take v.width = L[i] := by
      intro bs hbs
      have hin : v.width * (i % v.maxNumInChnk) + v.width ≤
          (v.page L.flatten (i / v.maxNumInChnk)).length := by
        rw [h.vec.shape.page_length]
        exact Nat.mul_le_mul_left v.width hoff
      rw [take_drop_within hbs hin, h.vec.shape.elem_page, h.elem hi]
    refine ⟨c, hc, ?_⟩
    cases hl : c.l1Mem with
    | some b => exact Or.inl ⟨b, rfl, hread _ (hok.l1 b hl).2⟩
    | none =>
        have he := hh.backed h.isLma _ c hc hl
        obtain ⟨f, bs, hf, hr, -, hw⟩ := hok.l2 he
        exact Or.inr ⟨he, f, bs, hf, hr, hread bs (hw (Or.inr hl))⟩

/-- **Nothing appended is lost** by moving a vector between tiers, as long as
memory is dropped only when the files agree with it. -/
theorem run_tierContract (h : Run (fun s v o => o.isTier ∧ o.Fair v ∧ o.Safe s u v) a u s L)
    (hq : a.qtype ≠ .B1) (hfit : a.widthOf * a.maxOf < 2 ^ 32) : ∃ v, TierContract s u v L := by
  obtain ⟨v, hg⟩ := run_grown h hq hfit fun s v o _ _ ho => ho.2
  have hqt : v.qtype = a.qtype := static_qtype hg.static
  exact ⟨v, hg.tierContract (hqt ▸ hq)⟩

/-- A vector of one chunk whose file, if it has one, agrees with its memory. -/
theorem Grown.allAgree_single {w : VctrVal} {c : ChnkVal} (h : Grown a s u v L)
    (hw : s.vctrs u = some w) (hmax : w.maxChnkIdx = 0) (hc : s.chnks (u, 0) = some c)
    (hac : Agrees s.fs u 0 n c) : AllAgree s u n := by
  obtain rfl := Option.some.inj (h.vec.found.symm.trans hw)
  intro i d hd
  have hp : 0 < v.numElements := by
    by_contra h0
    rw [h.vec.empty (by omega) i] at hd
    cases hd
  have hi : i = 0 := by
    have := ((h.vec.held hp).1.mem_window hd).2
    omega
  subst hi
  obtain rfl := Option.some.inj (hc.symm.trans hd)
  exact hac

/-- An element is backed up and its memory dropped. -/
theorem run_tierContract_backup : ∃ s v, TierContract s 1 v [[7]] := by
  have h0 := run_added (a := plainArgs .I1 0)
    (P := fun s v o => o.isTier ∧ o.Fair v ∧ o.Safe s 1 v) (by decide)
  have h1 := h0.ok (o := .put1 [7]) rfl
    ⟨trivial, show 0 + 1 ≤ lmaIdx * 64 by decide, by decide, fun hm => absurd rfl hm⟩
    (run_of_outcome_ok (by decide +kernel))
  have h2 := h1.ok (o := .makeMem 2) rfl ⟨Or.inr rfl, trivial, trivial⟩
    (run_of_outcome_ok (by decide +kernel))
  obtain ⟨v, hg⟩ := run_grown h2 (by decide) (by decide) fun s v o _ _ ho => ho.2
  have h3 := h2.ok (o := .dropMem 1) rfl
    ⟨Or.inl rfl, trivial, fun _ => hg.allAgree_single rfl rfl rfl fun b hb _ => ⟨_, _, rfl, rfl, by
      rw [← Option.some.inj hb]
      decide +kernel⟩⟩
    (run_of_outcome_ok (by decide +kernel))
  exact ⟨_, run_tierContract h3 (by decide) (by decide)⟩

/-- The second element is appended after the backup, and lost when the memory is
dropped in favour of it. -/
theorem tierContract_fails : ∃ s, Run (fun _ v o => o.isTier ∧ o.Fair v) (plainArgs .I1 0) 1 s
    [[1], [2]] ∧ ¬ ∃ v, TierContract s 1 v [[1], [2]] := by
  have h0 := run_added (a := plainArgs .I1 0) (P := fun _ v o => o.isTier ∧ o.Fair v) (by decide)
  have h1 := h0.ok (o := .put1 [1]) rfl ⟨trivial, show 0 + 1 ≤ lmaIdx * 64 by decide⟩
    (run_of_outcome_ok (by decide +kernel))
  have h2 := h1.ok (o := .makeMem 2) rfl ⟨Or.inr rfl, trivial⟩
    (run_of_outcome_ok (by decide +kernel))
  have h3 := h2.ok (o := .put1 [2]) rfl ⟨trivial, show 1 + 1 ≤ lmaIdx * 64 by decide⟩
    (run_of_outcome_ok (by decide +kernel))
  have h4 := h3.ok (o := .dropMem 1) rfl ⟨Or.inl rfl, trivial⟩
    (run_of_outcome_ok (by decide +kernel))
  refine ⟨_, h4, ?_⟩
  rintro ⟨v, hcon⟩
  obtain ⟨_, hx⟩ := hcon.get 1 [0] _ (run_of_outcome_ok (by decide +kernel))
  exact absurd (show [(0 : UInt8)] = [2] from hx) (by decide)

/-! ## memo windows -/

/-- The calls on a vector with a memo window. -/
def Op.isMemo : Op → Prop
  | makeMem _ | dropMem _ => False
  | _ => True

/-- What a vector with a memo window owes for the elements `L`. -/
structure MemoContract (s : St) (u : Nat) (v : VctrVal) (L : List (List UInt8)) : Prop where
  found : s.vctrs u = some v
  num : v.numElements = L.length
  window : v.minChnkIdx = v.maxChnkIdx + 1 - v.memoLen
  table : 0 < L.length → ∀ i, (s.chnks (u, i)).isSome ↔ v.minChnkIdx ≤ i ∧ i ≤ v.maxChnkIdx
  get : ∀ i x, (∃ t, vctrGet1 u i s = .ok x t) ↔
    ∃ hi : i < L.length, v.minChnkIdx ≤ i / v.maxNumInChnk ∧ ScOk v L[i] ∧ x = L[i]
  del : ∀ b r t, vctrDel u b s = .ok r t → ∀ i, t.chnks (u, i) = none

theorem AddArgs.Ok.memoLen_pos (h : a.Ok) (hm : a.isMemo = true) : 0 < a.entry.memoLen := by
  obtain ⟨-, hpos⟩ | ⟨hf, -⟩ := h.memo
  · show 0 < a.memoLen.toNat
    omega
  · rw [hm] at hf
    cases hf

theorem Grown.memoContract (h : Grown a s u v L) (hm : a.isMemo = true) (hq : v.qtype ≠ .B1) :
    MemoContract s u v L := by
  have hmemo : v.memoLen ≠ 0 := by
    have := static_memoLen h.static
    have := h.args.memoLen_pos hm
    omega
  have hwin : v.minChnkIdx = v.maxChnkIdx + 1 - v.memoLen := by
    rw [h.narrow, VctrVal.lowest, if_neg hmemo]
  refine ⟨h.vec.found, h.num, hwin, fun hp i => ?_,
    fun i x => h.vec.filled.vctrGet1_iff h.each h.isLma hq, fun b r t hr => ?_⟩
  · have hh := h.held hp
    refine ⟨fun hs => ?_, fun hin => ?_⟩
    · obtain ⟨c, hc⟩ := Option.isSome_iff_exists.mp hs
      exact hh.mem_window hc
    · obtain ⟨c, hc, -⟩ := hh.inside i hin.1 hin.2
      rw [hc]
      rfl
  · have hnone : ∀ i, v.numElements = 0 ∨ i < v.minChnkIdx ∨ v.maxChnkIdx < i →
        s.chnks (u, i) = none := by
      intro i hi
      by_cases h0 : v.numElements = 0
      · exact h.vec.empty h0 i
      · exact ((h.vec.held (Nat.pos_of_ne_zero h0)).1).outside i (by omega)
    by_cases hu : u = 0
    · have h0 : v.numElements = 0 := by rw [h.num, h.zero hu, List.length_nil]
      rw [vctrDel, if_pos hu] at hr
      cases hr
      exact h.vec.empty h0
    · have hst := h.static
      exact ((ends_vctrDel_chnks hu h.vec.found (congrArg VctrVal.hasNn hst :)
        (congrArg VctrVal.hasParent hst :) h.isLma hnone b).of_ok hr).2.2

/-- **A memo window** is exactly what the table holds, as long as nobody reads a
chunk that an append pushes out of it. -/
theorem run_memoContract (h : Run (fun s v o => o.isMemo ∧ o.Fair v ∧ o.Safe s u v) a u s L)
    (hm : a.isMemo = true) (hq : a.qtype ≠ .B1) (hfit : a.widthOf * a.maxOf < 2 ^ 32) :
    ∃ v, MemoContract s u v L := by
  obtain ⟨v, hg⟩ := run_grown h hq hfit fun s v o _ _ ho => ho.2
  have hqt : v.qtype = a.qtype := static_qtype hg.static
  exact ⟨v, hg.memoContract hm (hqt ▸ hq)⟩

/-- Arguments for a memo window of one chunk. -/
def memoArgs : AddArgs := { plainArgs .I1 0 with isMemo := true, memoLen := 1 }

/-- Two chunks, the first of which is pushed out by the second. -/
theorem run_memoContract_two : ∃ s v, MemoContract s 1 v (slices 1 65 (List.replicate 65 7)) := by
  have h0 := run_added (a := memoArgs) (P := fun s v o => o.isMemo ∧ o.Fair v ∧ o.Safe s 1 v)
    (by decide)
  have h1 := h0.ok (o := .putn (List.replicate 65 7) 65) rfl ⟨trivial, by
    constructor
    · exact Nat.le_refl 65
    · exact show 0 + 65 ≤ lmaIdx * 64 by decide, fun _ => ⟨by decide, fun i c hc => by cases hc⟩⟩
    (run_of_outcome_ok (by decide +kernel))
  exact ⟨_, run_memoContract h1 rfl (by decide) (by decide)⟩

/-- A chunk is being read when it falls out of the window. The append says it
failed, and the chunk outlives the vector. -/
theorem memoContract_fails : ∃ s L, Run (fun _ v o => o.isMemo ∧ o.Fair v) memoArgs 1 s L ∧
    ¬ ∃ v, MemoContract s 1 v L := by
  have h0 := run_added (a := memoArgs) (P := fun _ v o => o.isMemo ∧ o.Fair v) (by decide)
  have h1 := h0.ok (o := .putn (List.replicate 64 7) 64) rfl ⟨trivial, Nat.le_refl 64,
    show 0 + 64 ≤ lmaIdx * 64 by decide⟩ (run_of_outcome_ok (by decide +kernel))
  have h2 := h1.ok (o := .getChunk 0) rfl ⟨trivial, trivial⟩
    (run_of_outcome_ok (by decide +kernel))
  have h3 := h2.bye (o := .put1 [8]) (k := -1) rfl
    ⟨trivial, show 64 + 1 ≤ lmaIdx * 64 by decide⟩ (run_of_outcome_error (by decide +kernel))
  refine ⟨_, _, h3, ?_⟩
  rintro ⟨v, hcon⟩
  have hleft := hcon.del false true _ (run_of_outcome_ok (by decide +kernel)) 0
  exact absurd hleft (by decide +kernel)

end QStore.Vctr
