import QStore.Operators.JoinChunks

/-!
# QStore.Operators.JoinEdges

When the chunks of a `join` do show.

```
the destination ends with a full chunk    the generator is asked once more
the source does, or is empty              a chunk is given back that is not there
a matched link lies on a chunk's edge     cnt, asked for before is, is wrong
```
-/

namespace QStore.Operators

variable {κ β σ γ : Type} [LinearOrder κ] {a : JoinInput κ β} {K : JoinKernel β γ}
  {st st' : JoinState} {k j s q d i n m x : Nat} {l : κ}

/-! ## what a kernel and a turn can do -/

theorem length_joinLoop {src : List (κ × β)} {dl : List κ} : ∀ (fuel s q : Nat) (dv : List γ),
    (joinLoop K src dl fuel s q dv).dstVal.length = dv.length := by
  intro fuel
  induction fuel with
  | zero => exact fun _ _ _ => rfl
  | succ fuel ih =>
      intro s q dv
      rw [joinLoop]
      split
      · split
        · exact ih _ _ _
        · split
          · exact ih _ _ _
          · split <;> exact (ih _ _ _).trans (List.length_modify ..)
      · rfl

/-- A kernel that does not fail has nothing to do, or runs its loop. -/
theorem joinKernel_cases {src : List (κ × β)} {dl : List κ} {dv : List γ} {r : Joined γ}
    (hs : (src.map Prod.fst).Pairwise (· ≤ ·)) (hd : dl.Pairwise (· ≤ ·))
    (h : joinKernel K src s dl dv q = some r) :
    q < dl.length ∧ (src.length ≤ s ∧ r = ⟨s, dl.length, dv⟩ ∨
      s < src.length ∧ LoopDone K src dl s q dv r) := by
  rw [joinKernel] at h
  split at h
  · contradiction
  · next hq =>
    refine ⟨by omega, ?_⟩
    split at h
    · next hs' =>
      refine .inl ⟨?_, (Option.some.inj h).symm⟩
      rcases hs' with rfl | hs'
      · exact Nat.zero_le _
      · exact hs'
    · next hs' =>
      rw [not_or] at hs'
      refine .inr ⟨by omega, ?_⟩
      rw [← Option.some.inj h]
      exact joinLoop_done hs hd _ _ _ _ (by omega) (by omega) (Nat.le_refl _)

theorem moveTo_lt (h : i ≤ m) (hm : m ≤ n) (hn : 0 < n) : (st.moveTo i m n).srcStart < n := by
  rw [JoinState.moveTo]
  split
  · exact hn
  · simp only
    omega

/-- A destination chunk before one that holds something is full. -/
theorem JoinInput.length_dst (hdst : a.dstLnk.maxNumInChunk = a.size)
    (hk : (k + 1) * a.size ≤ a.dstLnk.elems.length) : (a.dstLnk.getChunk k).length = a.size := by
  rw [Nat.add_mul, Nat.one_mul] at hk
  rw [a.dst_eq hdst, length_page]
  omega

/-- Entry `i` of the destination, in its chunk. -/
theorem JoinInput.dst_at (hdst : a.dstLnk.maxNumInChunk = a.size) (hi : a.dstLnk.elems[i]? = some l) :
    (a.dstLnk.getChunk (i / a.size))[i % a.size]? = some l := by
  rw [a.dst_eq hdst, getElem?_page, Nat.div_add_mod']
  exact ⟨Nat.mod_lt _ a.size_pos, hi⟩

/-- Where the source ends with a full chunk, every chunk is full. -/
theorem JoinInput.length_chunk_of_full (hlnk : a.srcLnk.maxNumInChunk = a.size)
    (hfull : a.size ∣ a.srcLnk.elems.length) (hj : 0 < (a.srcLnk.getChunk j).length) :
    (a.chunk j).length = a.size := by
  obtain ⟨c, hc⟩ := hfull
  rw [(a.length_getChunk hlnk).1] at hj
  have hlen := a.length_chunk (j := j) hlnk
  rw [a.length_rows, hc, Nat.mul_comm] at hlen
  have hlt : j < c := by
    by_contra hno
    have := Nat.mul_le_mul_right a.size (Nat.le_of_not_lt hno)
    omega
  have := Nat.mul_le_mul_right a.size (show j + 1 ≤ c from hlt)
  rw [Nat.add_mul, Nat.one_mul] at this
  omega

/-- A link on the edge of a chunk has rows in two chunks. -/
theorem JoinInput.length_valuesAt_chunk_lt (hlnk : a.srcLnk.maxNumInChunk = a.size)
    (h : Spans a.srcLnk.elems (i * a.size) l) :
    (valuesAt l (a.chunk j)).length < (valuesAt l a.rows).length := by
  obtain ⟨hpos, hbelow, habove⟩ := h
  have hsplit : a.rows = a.rows.take (j * a.size) ++ (a.chunk j ++ a.rows.drop ((j + 1) * a.size)) := by
    rw [a.chunk_eq hlnk, page_append_drop, List.take_append_drop]
  have hsum : (valuesAt l a.rows).length = (valuesAt l (a.rows.take (j * a.size))).length +
      ((valuesAt l (a.chunk j)).length + (valuesAt l (a.rows.drop ((j + 1) * a.size))).length) := by
    rw [← List.length_append, ← List.length_append, ← valuesAt_append, ← valuesAt_append, ← hsplit]
  rw [← a.rows_fst] at hbelow habove
  rcases Nat.lt_or_ge j i with hji | hij
  · have hle := Nat.mul_le_mul_right a.size (show j + 1 ≤ i from hji)
    have hne : valuesAt l ((a.rows.take a.rows.length).drop ((j + 1) * a.size)) ≠ [] := fun hnil =>
      valuesAt_drop_take_eq_nil_iff.mp hnil _ hle
        (by simpa using (List.getElem?_eq_some_iff.mp habove).1) habove
    rw [List.take_length] at hne
    have := List.length_pos_iff.mpr hne
    omega
  · have hle := Nat.mul_le_mul_right a.size hij
    have hne : valuesAt l ((a.rows.take (j * a.size)).drop 0) ≠ [] := fun hnil =>
      valuesAt_drop_take_eq_nil_iff.mp hnil _ (Nat.zero_le _) (by omega) hbelow
    rw [List.drop_zero] at hne
    have := List.length_pos_iff.mpr hne
    omega

theorem foldl_joinCnt {vs : List β} {c : Nat} : vs.foldl joinCnt.hit c = c + vs.length := by
  induction vs generalizing c with
  | nil => rfl
  | cons v vs ih =>
      rw [List.foldl_cons, ih, List.length_cons]
      simp only [joinCnt]
      omega

/-- A kernel finds at most the values of the link. -/
theorem length_hits_le {src : List (κ × β)} {dl : List κ} (hl : dl[d]? = some l) :
    (hits K src dl d).length ≤ (valuesAt l src).length := by
  simp only [hits, hl]
  split
  · split
    · exact Nat.zero_le _
    · exact Nat.le_refl _
  · exact List.length_take_le' _ _

theorem length_valuesAt_drop_le {src : List (κ × β)} :
    (valuesAt l (src.drop s)).length ≤ (valuesAt l src).length := by
  nth_rewrite 2 [← List.take_append_drop s src]
  rw [valuesAt_append, List.length_append]
  exact Nat.le_add_left _ _

/-- `cnt` adds what it finds. -/
theorem LoopDone.cnt {src : List (κ × β)} {dl : List κ} {dv : List Nat} {r : Joined Nat}
    (h : LoopDone joinCnt src dl s q dv r) (hd : q ≤ d) (hx : dv[d]? = some x) :
    r.dstVal[d]? = some (x + (hits joinCnt (src.drop s) (dl.drop q) (d - q)).length) := by
  have hafter := h.after (d - q)
  rw [Nat.add_sub_cancel' hd, hx, Option.map_some, foldl_joinCnt] at hafter
  exact hafter

/-- `is` does not stop at an entry that it has found a row for. -/
theorem LoopDone.is_passes {src : List (κ × β)} {dl : List κ} {dv : List Bool} {r : Joined Bool}
    (hd : dl.Pairwise (· ≤ ·)) (h : LoopDone joinIs src dl s q dv r) (hl : dl[d]? = some l)
    (hfound : valuesAt l (src.drop s) ≠ []) : d < r.dstStart := by
  rw [ne_eq, valuesAt_eq_nil_iff] at hfound
  obtain ⟨b, hb, hbl⟩ : ∃ b ∈ src.drop s, b.1 = l := by
    by_contra hno
    exact hfound fun b hb hbl => hno ⟨b, hb, hbl⟩
  obtain ⟨z, hz⟩ := List.mem_iff_getElem?.mp hb
  rw [List.getElem?_drop] at hz
  have hdl := (List.getElem?_eq_some_iff.mp hl).1
  have hzl := (List.getElem?_eq_some_iff.mp hz).1
  rcases h.ended with hend | hend
  · obtain ⟨d', l', hd', hl', hpass⟩ := h.srcPassed (s + z) b (by omega) (by omega) hz
    have hlt : l < l' := by
      rw [← hbl]
      simpa [JoinKernel.Passes, joinIs] using hpass
    by_contra hno
    exact absurd hlt (not_lt.mpr (le_of_sorted hd hl' hl (by omega)))
  · omega

/-- What `cnt` makes of an entry, given the whole of the vectors. -/
theorem getElem?_joinAlone_cnt (hl : a.dstLnk.elems[i]? = some l) :
    (joinAlone a joinCnt)[i]? =
      some (if l ∈ a.dstLnk.elems.take i then 0 else (valuesAt l a.rows).length) := by
  have hi := (List.getElem?_eq_some_iff.mp hl).1
  rw [joinAlone_eq, List.getElem?_map, List.getElem?_range hi, Option.map_some, cellOf,
    foldl_joinCnt]
  simp only [hits, hl, joinCnt, if_true, Nat.zero_add]
  split <;> rfl

/-- Where an entry of an output chunk is. -/
theorem div_mod_of_chunk (hd : d < n) (h : k * n + d = i) : k = i / n ∧ d = i % n := by
  subst h
  rw [Nat.mul_comm, Nat.mul_add_div (by omega), Nat.mul_add_mod, Nat.div_eq_of_lt hd,
    Nat.mod_eq_of_lt hd, Nat.add_zero]
  exact ⟨rfl, rfl⟩

section Driver

variable [Zero β] [Zero σ] [LT β] [DecidableLT β] {add : σ → β → σ} {ts : List JoinType}
  {bufs bufs' : JoinBufs β σ} {t : JoinType} {final final' : Nat × Nat}

/-- The turns keep what one turn keeps. -/
theorem joinWhile_rule {dl : List κ} {I : JoinState → Nat → JoinBufs β σ → Prop}
    (hstep : ∀ st q bufs final bufs', I st q bufs → 0 < (a.srcLnk.getChunk st.srcChunkNum).length →
      joinAll add (a.chunk st.srcChunkNum) dl st.srcStart q ts (0, 0) bufs = some (final, bufs') →
      I (st.moveTo final.1 (a.srcLnk.getChunk st.srcChunkNum).length a.size) final.2 bufs') :
    ∀ (fuel : Nat) (st : JoinState) (q : Nat) (bufs : JoinBufs β σ), I st q bufs →
      joinWhile a add ts dl fuel st q bufs = some (bufs', st') → I st' dl.length bufs' := by
  intro fuel
  induction fuel with
  | zero => exact fun _ _ _ _ h => nomatch h
  | succ fuel ih =>
      intro st q bufs hI h
      simp only [joinWhile] at h
      split at h
      · contradiction
      · obtain ⟨⟨final, bufs''⟩, hall, h⟩ := Option.bind_eq_some_iff.mp h
        split at h
        · contradiction
        · next hne =>
          have hnext := hstep st q bufs final bufs'' hI (by omega) hall
          split at h
          · next hend =>
            rw [Option.some.injEq, Prod.mk.injEq] at h
            rw [← h.1, ← h.2, ← hend]
            exact hnext
          · exact ih _ _ _ hnext h

/-- What a call of the generator has done. -/
theorem joinGen_some {out : List (t.Entry β σ)} (h : joinGen a add ts t st k = some (out, st')) :
    st.lChunkNum = k ∧ 0 < (a.dstLnk.getChunk k).length ∧ st'.lChunkNum = k + 1 ∧
      ∃ bufs' st'', joinWhile a add ts (a.dstLnk.getChunk k) (a.srcLnk.elems.length + 2) st 0
        (fun t => List.replicate (a.dstLnk.getChunk k).length (t.kernel add).zero) =
          some (bufs', st'') ∧ out = bufs' t ∧ st'.srcChunkNum = st''.srcChunkNum ∧
        st'.srcStart = st''.srcStart := by
  rw [joinGen] at h
  split at h
  · contradiction
  · next hk =>
    have hk' : st.lChunkNum = k := (not_not.mp hk).symm
    subst hk'
    simp only at h
    split at h
    · contradiction
    · next hpos =>
      obtain ⟨⟨bufs', st''⟩, hrun, h⟩ := Option.bind_eq_some_iff.mp h
      rw [Option.some.injEq, Prod.mk.injEq] at h
      obtain ⟨rfl, rfl⟩ := h
      exact ⟨rfl, by omega, rfl, bufs', st'', hrun, rfl, rfl, rfl⟩

theorem length_joinAll {src : List (κ × β)} {dl : List κ} : ∀ {ts : List JoinType}
    {final final' : Nat × Nat} {bufs bufs' : JoinBufs β σ},
    joinAll add src dl s q ts final bufs = some (final', bufs') →
      ∀ t, (bufs' t).length = (bufs t).length
  | [], _, _, _, _, h, t => by cases h; rfl
  | u :: ts, _, _, bufs, bufs', h, t => by
      obtain ⟨r, hr, h⟩ := Option.bind_eq_some_iff.mp h
      rw [length_joinAll h t]
      by_cases htu : t = u
      · subst htu
        rw [Function.update_self]
        rw [joinKernel] at hr
        split at hr
        · contradiction
        · split at hr
          · cases hr; rfl
          · cases hr; exact length_joinLoop ..
      · rw [Function.update_of_ne htu]

/-- An output chunk is as long as the destination chunk. -/
theorem length_joinGen {out : List (t.Entry β σ)} (h : joinGen a add ts t st k = some (out, st')) :
    out.length = (a.dstLnk.getChunk k).length := by
  obtain ⟨-, -, -, bufs', st'', hrun, rfl, -⟩ := joinGen_some h
  refine joinWhile_rule (I := fun _ _ bufs => ∀ t, (bufs t).length = (a.dstLnk.getChunk k).length)
    (fun st q bufs final bufs' hI _ hall t => ?_) _ _ _ _ (fun t => List.length_replicate) hrun t
  rw [length_joinAll hall t, hI t]

/-! ## the ends of the vectors -/

theorem not_pulls_of_dstFull (hdst : a.dstLnk.maxNumInChunk = a.size)
    (h : a.size ∣ a.dstLnk.elems.length) {outs : List (List (t.Entry β σ))} :
    ¬ Pulls (joinGen a add ts t) a.size ⟨0, 0, 0⟩ 0 outs := by
  have hpos := a.size_pos
  obtain ⟨m, hm⟩ := h
  rw [Nat.mul_comm] at hm
  refine not_pulls_of_fail (fun _ _ => True) (m := m) (fun st k out st' _ hk hg => ⟨?_, trivial⟩)
    (fun st _ => ?_) trivial (Nat.zero_le m)
  · rw [length_joinGen hg]
    exact a.length_dst hdst (hm ▸ Nat.mul_le_mul_right _ hk)
  · cases hg : joinGen a add ts t st m with
    | none => rfl
    | some r =>
        have hdl := (joinGen_some hg).2.1
        rw [a.dst_eq hdst, length_page] at hdl
        omega

theorem not_pulls_of_srcEmpty (h : a.srcLnk.elems = []) {outs : List (List (t.Entry β σ))} :
    ¬ Pulls (joinGen a add ts t) a.size ⟨0, 0, 0⟩ 0 outs := by
  have hfail : ∀ r, joinGen a add ts t ⟨0, 0, 0⟩ 0 ≠ some r := by
    rintro ⟨out, st'⟩ hg
    obtain ⟨-, hdl, -, bufs', st'', hrun, -⟩ := joinGen_some hg
    have hq := joinWhile_rule (I := fun _ q _ => q = 0) (fun st q bufs final bufs' _ hpos _ => by
      rw [LVector.length_getChunk, h] at hpos
      simp at hpos) _ _ _ _ rfl hrun
    omega
  rintro (⟨hg, -⟩ | ⟨hg, -, -⟩)
  · exact hfail _ hg
  · exact hfail _ hg

/-- The turns of `cnt` alone. -/
theorem joinAll_cnt {src : List (κ × β)} {dl : List κ}
    (h : joinAll add src dl s q [.cnt] final bufs = some (final', bufs')) :
    ∃ r, joinKernel joinCnt src s dl (bufs .cnt) q = some r ∧ final' = (r.srcStart, r.dstStart) ∧
      bufs' .cnt = r.dstVal := by
  obtain ⟨r, hr, h⟩ := Option.bind_eq_some_iff.mp h
  cases h
  exact ⟨r, hr, rfl, Function.update_self ..⟩

/-- The turns of `cnt` and `is`, in this order. -/
theorem joinAll_cnt_is {src : List (κ × β)} {dl : List κ}
    (h : joinAll add src dl s q [.cnt, .is] final bufs = some (final', bufs')) :
    ∃ r r', joinKernel joinCnt src s dl (bufs .cnt) q = some r ∧
      joinKernel joinIs src s dl (bufs .is) q = some r' ∧ final' = (r'.srcStart, r'.dstStart) ∧
      bufs' .cnt = r.dstVal := by
  obtain ⟨r, hr, h⟩ := Option.bind_eq_some_iff.mp h
  obtain ⟨r', hr', h⟩ := Option.bind_eq_some_iff.mp h
  cases h
  refine ⟨r, r', hr, hr', rfl, ?_⟩
  rw [Function.update_of_ne (by decide), Function.update_self]

/-- With every source chunk full, a turn of `cnt` ends with its chunk, at an entry
that no row is above. -/
theorem joinAll_cnt_top (hlnk : a.srcLnk.maxNumInChunk = a.size)
    (hfull : a.size ∣ a.srcLnk.elems.length) (htop : ∀ b ∈ a.srcLnk.elems, b ≤ l)
    (hs : st.srcStart < a.size) (hj : 0 < (a.srcLnk.getChunk st.srcChunkNum).length)
    (hall : joinAll add (a.chunk st.srcChunkNum) (a.dstLnk.getChunk k) st.srcStart q [.cnt] (0, 0)
      bufs = some (final, bufs')) :
    (st.moveTo final.1 (a.srcLnk.getChunk st.srcChunkNum).length a.size).srcStart < a.size ∧
      ∀ d, q ≤ d → (a.dstLnk.getChunk k)[d]? = some l → final.2 ≤ d := by
  obtain ⟨r, hr, rfl, -⟩ := joinAll_cnt hall
  have hlen := a.length_chunk_of_full hlnk hfull hj
  obtain ⟨-, ⟨hs', -⟩ | ⟨-, hdone⟩⟩ := joinKernel_cases (a.chunk_sorted hlnk) a.dst_sorted hr
  · omega
  · rw [(a.length_getChunk hlnk).1]
    refine ⟨moveTo_lt hdone.src_le.2 (by omega) a.size_pos, fun d hd hdl => ?_⟩
    by_contra hpast
    obtain ⟨x, b, -, hx, hleave⟩ := hdone.dstPassed d l hd (by omega) hdl
    have hlt : l < b.1 := by simpa [JoinKernel.Leaves, joinCnt] using hleave
    exact absurd (htop b.1 (List.mem_of_getElem? (a.lnk_of_chunk hlnk hx).2)) (not_le.mpr hlt)

/-- So `cnt` does not get past that entry, and asks for one chunk too many. -/
theorem not_pulls_of_srcFull (hlnk : a.srcLnk.maxNumInChunk = a.size)
    (hdst : a.dstLnk.maxNumInChunk = a.size) (hfull : a.size ∣ a.srcLnk.elems.length)
    (hl : a.dstLnk.elems[i]? = some l) (htop : ∀ b ∈ a.srcLnk.elems, b ≤ l)
    {outs : List (List Nat)} :
    ¬ Pulls (joinGen a add [.cnt] .cnt) a.size ⟨0, 0, 0⟩ 0 outs := by
  refine not_pulls_of_fail (fun st _ => st.srcStart < a.size) (m := i / a.size)
    (fun st k out st' hs hk hg => ?_) (fun st hs => ?_) a.size_pos (Nat.zero_le _)
  · have hi := (List.getElem?_eq_some_iff.mp hl).1
    have hk' : (k + 1) * a.size ≤ i :=
      (Nat.mul_le_mul_right _ hk).trans (Nat.div_mul_le_self i a.size)
    obtain ⟨-, -, -, bufs', st'', hrun, -, -, hstart⟩ := joinGen_some hg
    refine ⟨(length_joinGen hg).trans (a.length_dst hdst (by omega)), ?_⟩
    rw [hstart]
    exact joinWhile_rule (I := fun st _ _ => st.srcStart < a.size)
      (fun st q bufs final bufs' hI hj hall => (joinAll_cnt_top hlnk hfull htop hI hj hall).1)
      _ _ _ _ hs hrun
  · cases hg : joinGen a add [.cnt] .cnt st (i / a.size) with
    | none => rfl
    | some r =>
        obtain ⟨-, -, -, bufs', st'', hrun, -⟩ := joinGen_some hg
        have hat := a.dst_at hdst hl
        have hq := (joinWhile_rule (I := fun st q _ => st.srcStart < a.size ∧ q ≤ i % a.size)
          (fun st q bufs final bufs' hI hj hall => ?_) _ _ _ _ ⟨hs, Nat.zero_le _⟩ hrun).2
        · have := (List.getElem?_eq_some_iff.mp hat).1
          omega
        · obtain ⟨h1, h2⟩ := joinAll_cnt_top hlnk hfull htop hI.1 hj hall
          exact ⟨h1, h2 _ hI.2 hat⟩

/-! ## the edges of the source -/

/-- The count of an entry is taken in one turn: with it, `is` passes the entry. -/
theorem joinAll_cnt_once (hlnk : a.srcLnk.maxNumInChunk = a.size)
    (hl : (a.dstLnk.getChunk k)[d]? = some l) {c : Nat}
    (hlt : ∀ j, (valuesAt l (a.chunk j)).length < c)
    (hall : joinAll add (a.chunk j) (a.dstLnk.getChunk k) s q [.cnt, .is] (0, 0) bufs =
      some (final, bufs'))
    (h : ∃ x, (show List Nat from bufs .cnt)[d]? = some x ∧ x < c ∧ (q ≤ d → x = 0)) :
    ∃ x, (show List Nat from bufs' .cnt)[d]? = some x ∧ x < c ∧ (final.2 ≤ d → x = 0) := by
  obtain ⟨x, hx, hxc, hx0⟩ := h
  obtain ⟨r, r', hr, hr', rfl, hbuf⟩ := joinAll_cnt_is hall
  have hdl := (List.getElem?_eq_some_iff.mp hl).1
  obtain ⟨-, hcnt⟩ := joinKernel_cases (a.chunk_sorted hlnk) a.dst_sorted hr
  obtain ⟨-, his⟩ := joinKernel_cases (a.chunk_sorted hlnk) a.dst_sorted hr'
  rcases hcnt with ⟨hs, rfl⟩ | ⟨hs, hcnt⟩
  · rcases his with ⟨-, rfl⟩ | ⟨hs', -⟩
    · exact ⟨x, by rw [hbuf]; exact hx, hxc, fun hd => by simp only at hd; omega⟩
    · omega
  · rcases his with ⟨hs', -⟩ | ⟨-, his⟩
    · omega
    · rw [hbuf]
      by_cases hqd : q ≤ d
      · have hafter := hcnt.cnt hqd hx
        rw [hx0 hqd, Nat.zero_add] at hafter
        have hl' : ((a.dstLnk.getChunk k).drop q)[d - q]? = some l := by
          rw [List.getElem?_drop, Nat.add_sub_cancel' hqd, hl]
        have hle : (hits joinCnt ((a.chunk j).drop s) ((a.dstLnk.getChunk k).drop q) (d - q)).length ≤
            (valuesAt l ((a.chunk j).drop s)).length := length_hits_le hl'
        have hdrop : (valuesAt l ((a.chunk j).drop s)).length ≤ (valuesAt l (a.chunk j)).length :=
          length_valuesAt_drop_le
        have hchunk := hlt j
        refine ⟨_, hafter, by omega, fun hd => ?_⟩
        · by_contra hne
          have hpast := his.is_passes a.dst_sorted hl (List.length_pos_iff.mp (by omega))
          simp only at hd
          omega
      · have hbefore := hcnt.before d (by omega)
        refine ⟨x, hbefore.trans hx, hxc, fun hd => ?_⟩
        have := his.dst_le.1
        simp only at hd
        omega

/-- A link on the edge of a source chunk: with `is` after it, `cnt` does not count
the rows of both chunks. -/
theorem joinAlone_ne_of_srcEdge (hlnk : a.srcLnk.maxNumInChunk = a.size)
    (hdst : a.dstLnk.maxNumInChunk = a.size) (hspan : Spans a.srcLnk.elems (n * a.size) l)
    (hl : l ∈ a.dstLnk.elems) {outs : List (List Nat)}
    (h : Pulls (joinGen a add [.cnt, .is] .cnt) a.size ⟨0, 0, 0⟩ 0 outs) :
    outs.flatten ≠ joinAlone a joinCnt := by
  obtain ⟨i, hi, hfirst⟩ := exists_first_of_mem hl
  have hlt : ∀ j, (valuesAt l (a.chunk j)).length < (valuesAt l a.rows).length :=
    fun j => a.length_valuesAt_chunk_lt hlnk hspan
  have hall := h.forall_getElem? (fun _ _ => True)
    (fun d x => d = i → x < (valuesAt l a.rows).length) (fun st k out st' _ hg => ⟨?_, fun _ => trivial⟩)
    trivial
  · intro heq
    have hcell := getElem?_joinAlone_cnt (a := a) hi
    rw [if_neg hfirst, ← heq] at hcell
    exact absurd (hall i _ hcell (by omega)) (Nat.lt_irrefl _)
  · intro d x hx hd
    have hlen := (length_joinGen hg).symm ▸ (List.getElem?_eq_some_iff.mp hx).1
    obtain ⟨-, -, -, bufs', st'', hrun, rfl, -⟩ := joinGen_some hg
    rw [a.dst_eq hdst, length_page] at hlen
    obtain ⟨rfl, rfl⟩ := div_mod_of_chunk (by omega) hd
    have hat := a.dst_at hdst hi
    have hpos := (List.getElem?_eq_some_iff.mp hat).1
    obtain ⟨y, hy, hyc, -⟩ := joinWhile_rule (I := fun st q bufs =>
      ∃ x, (show List Nat from bufs .cnt)[i % a.size]? = some x ∧
        x < (valuesAt l a.rows).length ∧ (q ≤ i % a.size → x = 0))
      (fun st q bufs final bufs' hI _ hall => joinAll_cnt_once hlnk hat hlt hall hI) _ _ _ _
      ⟨0, (List.getElem?_replicate ..).trans (if_pos hpos), by have := hlt 0; omega, fun _ => rfl⟩ hrun
    cases hx.symm.trans hy
    exact hyc

/-! ## the edges of the destination -/

/-- `is` does not get past the first row of a link that no entry is above. -/
theorem joinAll_before (hlnk : a.srcLnk.maxNumInChunk = a.size)
    (htop : ∀ b ∈ a.dstLnk.getChunk k, b ≤ l) (hx : a.srcLnk.elems[x]? = some l)
    (hall : joinAll add (a.chunk st.srcChunkNum) (a.dstLnk.getChunk k) st.srcStart q [.cnt, .is] (0, 0)
      bufs = some (final, bufs'))
    (h : st.srcStart < a.size ∧ st.srcChunkNum * a.size + st.srcStart ≤ x) :
    (st.moveTo final.1 (a.srcLnk.getChunk st.srcChunkNum).length a.size).srcStart < a.size ∧
      (st.moveTo final.1 (a.srcLnk.getChunk st.srcChunkNum).length a.size).srcChunkNum * a.size +
        (st.moveTo final.1 (a.srcLnk.getChunk st.srcChunkNum).length a.size).srcStart ≤ x := by
  obtain ⟨-, r, -, hr, rfl, -⟩ := joinAll_cnt_is hall
  have hlen := a.length_chunk (j := st.srcChunkNum) hlnk
  rw [moveTo_pos, (a.length_getChunk hlnk).1]
  obtain ⟨-, ⟨-, rfl⟩ | ⟨-, hdone⟩⟩ := joinKernel_cases (a.chunk_sorted hlnk) a.dst_sorted hr
  · refine ⟨?_, h.2⟩
    rw [JoinState.moveTo]
    split
    · exact a.size_pos
    · exact h.1
  · refine ⟨moveTo_lt hdone.src_le.2 (by omega) a.size_pos, ?_⟩
    by_contra hpast
    obtain ⟨z, rfl⟩ := Nat.exists_eq_add_of_le (show st.srcChunkNum * a.size ≤ x by omega)
    have hsrc := hdone.src_le.2
    simp only at hpast
    obtain ⟨b, hb, hbl⟩ := a.chunk_of_lnk hlnk (by omega) hx
    obtain ⟨d, l', -, hl', hpass⟩ := hdone.srcPassed z b (by omega) (by omega) hb
    have hlt : l < l' := by
      rw [← hbl]
      simpa [JoinKernel.Passes, joinIs] using hpass
    exact absurd hlt (not_lt.mpr (htop l' (List.mem_of_getElem? hl')))

/-- At an entry of that link, `cnt` finds the row. -/
theorem joinAll_cnt_again (hlnk : a.srcLnk.maxNumInChunk = a.size)
    (hl : (a.dstLnk.getChunk k)[0]? = some l) (hx : a.srcLnk.elems[x]? = some l)
    (hfirst : l ∉ a.srcLnk.elems.take x) (hj : 0 < (a.srcLnk.getChunk st.srcChunkNum).length)
    (hall : joinAll add (a.chunk st.srcChunkNum) (a.dstLnk.getChunk k) st.srcStart q [.cnt, .is] (0, 0)
      bufs = some (final, bufs'))
    (h : ∃ c, (show List Nat from bufs .cnt)[0]? = some c ∧ (0 < c ∨ q = 0 ∧ st.srcStart < a.size ∧
      st.srcChunkNum * a.size + st.srcStart ≤ x)) :
    ∃ c, (show List Nat from bufs' .cnt)[0]? = some c ∧ (0 < c ∨ final.2 = 0 ∧
      (st.moveTo final.1 (a.srcLnk.getChunk st.srcChunkNum).length a.size).srcStart < a.size ∧
      (st.moveTo final.1 (a.srcLnk.getChunk st.srcChunkNum).length a.size).srcChunkNum * a.size +
        (st.moveTo final.1 (a.srcLnk.getChunk st.srcChunkNum).length a.size).srcStart ≤ x) := by
  obtain ⟨c, hc, hcase⟩ := h
  obtain ⟨r, r', hr, hr', rfl, hbuf⟩ := joinAll_cnt_is hall
  have hlen := a.length_chunk (j := st.srcChunkNum) hlnk
  have hrows := (List.getElem?_eq_some_iff.mp hx).1
  rw [← a.length_rows] at hrows
  have hdl := (List.getElem?_eq_some_iff.mp hl).1
  rw [(a.length_getChunk hlnk).1] at hj ⊢
  rw [hbuf]
  obtain ⟨-, ⟨hs, rfl⟩ | ⟨hs, hcnt⟩⟩ := joinKernel_cases (a.chunk_sorted hlnk) a.dst_sorted hr
  · exact ⟨c, hc, hcase.elim .inl fun h => by omega⟩
  · rcases Nat.eq_zero_or_pos q with rfl | hq
    · have hcell := hcnt.cnt (Nat.zero_le _) hc
      refine ⟨_, hcell, ?_⟩
      by_cases hpos : 0 < c
      · exact .inl (by omega)
      · obtain ⟨-, hstart, hle⟩ := hcase.resolve_left hpos
        by_cases hin : x < st.srcChunkNum * a.size + (a.chunk st.srcChunkNum).length
        · -- the row is in this chunk
          left
          obtain ⟨z, rfl⟩ := Nat.exists_eq_add_of_le (show st.srcChunkNum * a.size ≤ x by omega)
          obtain ⟨b, hb, hbl⟩ := a.chunk_of_lnk hlnk (by omega) hx
          have hmem : b ∈ (a.chunk st.srcChunkNum).drop st.srcStart := by
            refine List.mem_of_getElem? (i := z - st.srcStart) ?_
            rw [List.getElem?_drop, Nat.add_sub_cancel' (by omega), hb]
          have hne : valuesAt l ((a.chunk st.srcChunkNum).drop st.srcStart) ≠ [] := fun hnil =>
            valuesAt_eq_nil_iff.mp hnil b hmem hbl
          have hhits : hits joinCnt ((a.chunk st.srcChunkNum).drop st.srcStart)
              ((a.dstLnk.getChunk k).drop 0) 0 =
                valuesAt l ((a.chunk st.srcChunkNum).drop st.srcStart) := by
            simp [hits, hl, joinCnt]
          rw [hhits]
          have := List.length_pos_iff.mpr hne
          omega
        · -- no row of this chunk is as high as the entry
          right
          obtain ⟨-, ⟨hs', -⟩ | ⟨-, his⟩⟩ :=
            joinKernel_cases (a.chunk_sorted hlnk) a.dst_sorted hr'
          · omega
          have hstay : r'.dstStart = 0 := by
            by_contra hmove
            obtain ⟨z, b, -, hb, hleave⟩ := his.dstPassed 0 l (Nat.le_refl 0) (by omega) hl
            have hlb : l ≤ b.1 := by simpa [JoinKernel.Leaves, joinIs] using hleave
            have hz := (List.getElem?_eq_some_iff.mp hb).1
            have hbx := (a.lnk_of_chunk hlnk hb).2
            have hbl : b.1 = l := le_antisymm (le_of_sorted a.srcSorted hbx hx (by omega)) hlb
            rw [hbl] at hbx
            refine hfirst (List.mem_of_getElem? (i := st.srcChunkNum * a.size + z) ?_)
            rw [List.getElem?_take_of_lt (by omega), hbx]
          have hend : r'.srcStart = (a.chunk st.srcChunkNum).length :=
            his.ended.resolve_right (by omega)
          refine ⟨hstay, moveTo_lt his.src_le.2 (by omega) a.size_pos, ?_⟩
          rw [moveTo_pos]
          simp only
          omega
    · refine ⟨c, (hcnt.before 0 hq).trans hc, .inl ?_⟩
      exact hcase.resolve_right fun h => by omega

/-- A link on the edge of a destination chunk: with `is` after it, `cnt` counts the
rows again for the entries of the second chunk. -/
theorem joinAlone_ne_of_dstEdge (hlnk : a.srcLnk.maxNumInChunk = a.size)
    (hdst : a.dstLnk.maxNumInChunk = a.size) (hspan : Spans a.dstLnk.elems (m * a.size) l)
    (hl : l ∈ a.srcLnk.elems) {outs : List (List Nat)}
    (h : Pulls (joinGen a add [.cnt, .is] .cnt) a.size ⟨0, 0, 0⟩ 0 outs) :
    outs.flatten ≠ joinAlone a joinCnt := by
  obtain ⟨hpos, hbelow, hat⟩ := hspan
  obtain ⟨x, hx, hfirst⟩ := exists_first_of_mem hl
  have hall := h.forall_getElem? (fun st k => k ≤ m → st.srcStart < a.size ∧
      st.srcChunkNum * a.size + st.srcStart ≤ x) (fun d c => d = m * a.size → (0 : Nat) < c)
    (fun st k out st' hI hg => ⟨?_, fun hfull hk => ?_⟩) fun _ => ⟨a.size_pos, by simp⟩
  · intro heq
    have hmem : l ∈ a.dstLnk.elems.take (m * a.size) := by
      refine List.mem_of_getElem? (i := m * a.size - 1) ?_
      rw [List.getElem?_take_of_lt (by omega), hbelow]
    have hcell := getElem?_joinAlone_cnt (a := a) hat
    rw [if_pos hmem, ← heq] at hcell
    exact absurd (hall _ _ hcell (by omega)) (Nat.lt_irrefl 0)
  · intro d c hc hd
    have hlen := (length_joinGen hg).symm ▸ (List.getElem?_eq_some_iff.mp hc).1
    obtain ⟨-, -, -, bufs', st'', hrun, rfl, -⟩ := joinGen_some hg
    rw [a.dst_eq hdst, length_page] at hlen
    obtain ⟨rfl, rfl⟩ := div_mod_of_chunk (by omega) hd
    rw [Nat.mul_div_cancel _ a.size_pos] at hI hrun
    rw [Nat.mul_mod_left] at hc
    have hl0 : (a.dstLnk.getChunk m)[0]? = some l := by
      rw [a.dst_eq hdst, getElem?_page]
      exact ⟨a.size_pos, hat⟩
    have hdl := (List.getElem?_eq_some_iff.mp hl0).1
    obtain ⟨y, hy, hcase⟩ := joinWhile_rule (I := fun st q bufs =>
      ∃ c, (show List Nat from bufs .cnt)[0]? = some c ∧ (0 < c ∨ q = 0 ∧ st.srcStart < a.size ∧
        st.srcChunkNum * a.size + st.srcStart ≤ x))
      (fun st q bufs final bufs' hI hj hall => joinAll_cnt_again hlnk hl0 hx hfirst hj hall hI) _ _ _ _
      ⟨0, (List.getElem?_replicate ..).trans (if_pos hdl), .inr ⟨rfl, hI (Nat.le_refl m)⟩⟩ hrun
    cases hc.symm.trans hy
    exact hcase.resolve_right fun h => by omega
  · obtain ⟨-, -, -, bufs', st'', hrun, -, hnum, hstart⟩ := joinGen_some hg
    have htop : ∀ b ∈ a.dstLnk.getChunk k, b ≤ l := by
      intro b hb
      obtain ⟨d, hd⟩ := List.mem_iff_getElem?.mp hb
      rw [a.dst_eq hdst, getElem?_page] at hd
      refine le_of_sorted a.dstSorted hd.2 hat ?_
      have := Nat.mul_le_mul_right a.size hk
      rw [Nat.add_mul, Nat.one_mul] at this
      omega
    rw [hnum, hstart]
    exact joinWhile_rule (I := fun st _ _ => st.srcStart < a.size ∧
      st.srcChunkNum * a.size + st.srcStart ≤ x)
      (fun st q bufs final bufs' hI _ hall => joinAll_before hlnk htop hx hall hI) _ _ _ _
      (hI (by omega)) hrun

theorem JoinsWell.clean (h : JoinsWell a add) : JoinClean a := by
  obtain ⟨st, hst, hall⟩ := h
  rw [expanderJoin] at hst
  split at hst
  case isFalse => contradiction
  case isTrue hsize =>
    have hlnk : a.srcLnk.maxNumInChunk = a.size := hsize.1.symm
    have hdst : a.dstLnk.maxNumInChunk = a.size := hsize.2.symm
    cases hst
    obtain ⟨outs, hpull, -⟩ := hall [.cnt] (by simp) (by simp) .cnt (by simp)
    obtain ⟨outs', hpull', heq⟩ := hall [.cnt, .is] (by simp) (by simp) .cnt (by simp)
    constructor
    · exact hlnk
    · exact hdst
    · exact fun hdvd => not_pulls_of_dstFull hdst hdvd hpull
    · exact fun hnil => not_pulls_of_srcEmpty hnil hpull
    · intro hdvd l hl
      obtain ⟨i, hi⟩ := List.mem_iff_getElem?.mp hl
      by_contra hno
      refine not_pulls_of_srcFull hlnk hdst hdvd hi (fun b hb => ?_) hpull
      exact not_lt.mp fun hlt => hno ⟨b, hb, hlt⟩
    · exact fun i l hspan hl => joinAlone_ne_of_srcEdge hlnk hdst hspan hl hpull' heq
    · exact fun i l hspan hl => joinAlone_ne_of_dstEdge hlnk hdst hspan hl hpull' heq

/-- **The chunks of a join** do not show, whatever join types are asked for
together, exactly where no chunk ends in the wrong place. -/
theorem joinsWell_iff : JoinsWell a add ↔ JoinClean a := ⟨JoinsWell.clean, JoinClean.joinsWell⟩

end Driver

/-- 65 rows of one link, in chunks of 64, and one entry to join them to. -/
def crowded : JoinInput Nat Nat where
  srcVal := ⟨List.replicate 65 5, 64, sixtyFour_pos⟩
  srcLnk := ⟨List.replicate 65 5, 64, sixtyFour_pos⟩
  dstLnk := ⟨[5], 64, sixtyFour_pos⟩
  length_eq := rfl
  srcSorted := List.pairwise_replicate.mpr (.inr (Nat.le_refl 5))
  dstSorted := List.pairwise_singleton ..

theorem joinsWell_fails : ¬ JoinsWell crowded ((· + ·) : Nat → Nat → Nat) := by
  intro h
  have hspan : Spans crowded.srcLnk.elems (1 * crowded.size) 5 := by
    refine ⟨by decide, ?_, ?_⟩ <;> rfl
  exact h.clean.srcEdge 1 5 hspan (List.mem_singleton.mpr rfl)

end QStore.Operators
