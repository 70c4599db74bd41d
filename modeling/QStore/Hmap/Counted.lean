import QStore.Hmap.Run

/-!
# QStore.Hmap.Counted

What holds of every table a run reaches, also after a probe length has wrapped: `nitems` counts
the full buckets. Each loop that stores or removes an entry keeps it, whichever entries the
comparison of probe lengths exchanges.
-/

namespace QStore.Hmap

open QStore.Ring QStore.RobinHood Function

variable {K V : Type} [Zero K] [Zero V]

/-- The size is one of a table, and `nitems` counts the full buckets. -/
structure Counted (h : RsHmap K V) : Prop where
  size_pos : 0 < h.size
  size_lt : h.size < 2 ^ 32
  divinfo_eq : h.divinfo = fastDiv32Init h.size
  nitems_eq : h.nitems = count h.size h.view

variable {F : FnPtrs K V} {h g : RsHmap K V} {hashkey : UInt64} {k : K} {v : V} {entry : Bkt K V}
  {left p : Nat}

omit [Zero K] [Zero V] in
theorem Counted.home_lt (hc : Counted h) (k : K) : h.home F k < h.size := by
  rw [home_eq hc.size_pos hc.size_lt hc.divinfo_eq]
  exact Nat.mod_lt _ hc.size_pos

omit [Zero K] [Zero V] in
theorem Counted.nitems_le (hc : Counted h) : h.nitems ≤ h.size := by
  rw [hc.nitems_eq]
  exact count_le _ _

omit [Zero K] [Zero V] in
theorem Counted.of_frame (hc : Counted h) (hf : SameFrame h g)
    (hn : g.nitems = count h.size g.view) : Counted g where
  size_pos := by rw [hf.size]; exact hc.size_pos
  size_lt := by rw [hf.size]; exact hc.size_lt
  divinfo_eq := by rw [hf.divinfo, hf.size]; exact hc.divinfo_eq
  nitems_eq := by rw [hf.size]; exact hn

theorem counted_blank {size : Nat} (hpos : 0 < size) (hlt : size < 2 ^ 32) (hashkey : UInt64)
    (config : HmapConfig) (wrapped : Bool) :
    Counted (blank (K := K) (V := V) size hashkey config wrapped) where
  size_pos := hpos
  size_lt := hlt
  divinfo_eq := rfl
  nitems_eq := by simp [blank, count, RsHmap.view]

/-! ## insertion -/

omit [Zero K] [Zero V] in
/-- Overwriting a full bucket keeps the count. -/
theorem count_setBkt (hfull : h.bktFull p = true) (b : Bkt K V) :
    count h.size (h.setBkt p b).view = count h.size h.view := by
  rw [RsHmap.view_setBkt hfull]
  exact count_update_some (RsHmap.view_of_full hfull) b

omit [Zero K] [Zero V] in
/-- An insertion, whatever it compares, keeps the frame and the count. -/
theorem insertLoop_counted (hc : Counted h) (hp : p < h.size) :
    Counted (insertLoop F left h entry p).2 ∧ SameFrame h (insertLoop F left h entry p).2 := by
  induction left generalizing h entry p with
  | zero => exact ⟨hc, .rfl⟩
  | succ left ih =>
      rw [insertLoop]
      split
      · next hfull =>
        split
        · refine ⟨hc.of_frame ⟨rfl, rfl, rfl, rfl⟩ ?_, ⟨rfl, rfl, rfl, rfl⟩⟩
          exact hc.nitems_eq.trans (count_setBkt hfull _).symm
        · split
          · have hset : Counted ((h.setBkt p entry).noteWrap (h.bkts p)) :=
              hc.of_frame ⟨rfl, rfl, rfl, rfl⟩ (hc.nitems_eq.trans (count_setBkt hfull _).symm)
            obtain ⟨hcount, hframe⟩ := @ih _ (bumpPsl (h.bkts p)) _ hset (next_lt hp)
            exact ⟨hcount, ⟨hframe.size, hframe.divinfo, hframe.hashkey, hframe.config⟩⟩
          · have hset : Counted (h.noteWrap entry) :=
              hc.of_frame ⟨rfl, rfl, rfl, rfl⟩ hc.nitems_eq
            obtain ⟨hcount, hframe⟩ := @ih _ (bumpPsl entry) _ hset (next_lt hp)
            exact ⟨hcount, ⟨hframe.size, hframe.divinfo, hframe.hashkey, hframe.config⟩⟩
      · next hfull =>
        have hnone := RsHmap.view_eq_none.mpr (by simpa using hfull)
        refine ⟨hc.of_frame ⟨rfl, rfl, rfl, rfl⟩ ?_, ⟨rfl, rfl, rfl, rfl⟩⟩
        have hview := h.view_setBkt_setFull p entry
        change h.nitems + 1 = count h.size ((h.setBkt p entry).setFull p true).view
        rw [hview, count_fill hp hnone, hc.nitems_eq]

omit [Zero K] [Zero V] in
theorem rsHmapInsert_counted (hc : Counted h) :
    Counted (rsHmapInsert F h k v).2 ∧ SameFrame h (rsHmapInsert F h k v).2 :=
  insertLoop_counted hc (hc.home_lt k)

omit [Zero K] [Zero V] in
theorem reinsert_counted {bkts : Nat → Bkt K V} {bktFull : Nat → Bool} {i : Nat} {st : Int}
    (hc : Counted g) : Counted (reinsert F bkts bktFull left i st g).2 ∧
      SameFrame g (reinsert F bkts bktFull left i st g).2 := by
  induction left generalizing i st g with
  | zero => exact ⟨hc, .rfl⟩
  | succ left ih =>
      simp only [reinsert]
      split
      · exact ih hc
      · obtain ⟨hins, hframe⟩ := rsHmapInsert_counted (F := F) (k := (bkts i).key)
          (v := (bkts i).val) hc
        split
        · exact ⟨hins, hframe⟩
        · exact ⟨(ih hins).1, hframe.trans (ih hins).2⟩

theorem rsHmapResize_counted {newsize : Nat} (hc : Counted h) :
    Counted (rsHmapResize F hashkey h newsize).2 := by
  simp only [rsHmapResize]
  split
  · exact hc
  · next hsize =>
    split
    · exact hc
    · have hblank : Counted (blank (K := K) (V := V) newsize hashkey h.config h.pslWrapped) :=
        counted_blank (by omega) (by unfold uintMax at hsize; omega) _ _ _
      split
      · exact (reinsert_counted hblank).1
      · split <;> exact (reinsert_counted hblank).1

theorem growIfFull_counted {r : Int × RsHmap K V} (hc : Counted h)
    (hr : growIfFull F hashkey h = some r) : Counted r.2 := by
  rw [growIfFull] at hr
  split at hr
  · rw [Option.map_eq_some_iff] at hr
    obtain ⟨c, -, hcr⟩ := hr
    rw [← hcr]
    split
    · exact hc
    · split
      · exact rsHmapResize_counted hc
      · exact hc
  · rw [← Option.some.inj hr]
    exact hc

theorem rsHmapPut_counted {r : Int × RsHmap K V} (hc : Counted h)
    (hr : rsHmapPut F hashkey h k v = some r) : Counted r.2 := by
  rw [rsHmapPut, Option.map_eq_some_iff] at hr
  obtain ⟨g, hg, hgr⟩ := hr
  have hgc := growIfFull_counted hc hg
  rw [← hgr]
  split
  · exact hgc
  · exact (rsHmapInsert_counted hgc).1

/-! ## deletion -/

omit [Zero K] [Zero V] in
/-- A search that finds ends at a full bucket. -/
theorem delFind_full {i q : Nat} {st : Int} (hp : p < h.size)
    (hf : delFind F h k left i p = (st, some q)) : q < h.size ∧ h.bktFull q = true := by
  induction left generalizing i p with
  | zero => simp [delFind] at hf
  | succ left ih =>
      rw [delFind] at hf
      split at hf
      · simp at hf
      · next hfull =>
        split at hf
        · simp at hf
        · split at hf
          · simp only [Prod.mk.injEq, Option.some.injEq] at hf
            rw [← hf.2]
            exact ⟨hp, by simpa using hfull⟩
          · exact ih (next_lt hp) hf

/-- Closing the hole at a full bucket takes one off the full buckets. -/
theorem shiftLoop_counted {x : Nat} (hx : x < h.size) (hfull : h.bktFull x = true)
    (hg : shiftLoop left h x = some g) :
    SameFrame h g ∧ g.nitems = h.nitems ∧ count g.size g.view + 1 = count h.size h.view := by
  induction left generalizing h x with
  | zero => simp [shiftLoop] at hg
  | succ left ih =>
      have hempty := h.view_setBkt_setEmpty x zeroBkt
      have hremoved := count_remove hx (RsHmap.view_of_full hfull)
      simp only [shiftLoop] at hg
      split at hg
      · rw [← Option.some.inj hg]
        refine ⟨⟨rfl, rfl, rfl, rfl⟩, rfl, ?_⟩
        rw [hempty]
        exact hremoved
      · next hgo =>
        rw [not_or] at hgo
        obtain ⟨c, hc⟩ : ∃ c, c = (h.setBkt x zeroBkt).setFull x false := ⟨_, rfl⟩
        rw [← hc] at hg hempty hgo
        have hcsize : c.size = h.size := by rw [hc]; rfl
        have hyfull : c.bktFull (next c.size x) = true := by simpa using hgo.1
        have hy : next c.size x < c.size := next_lt (by rw [hcsize]; exact hx)
        obtain ⟨b, hb⟩ : ∃ b : Bkt K V, b = { c.bkts (next c.size x) with
          psl := (c.bkts (next c.size x)).psl - 1 } := ⟨_, rfl⟩
        rw [← hb, hyfull] at hg
        have hbcount := count_setBkt hyfull b
        have hcx : (c.setBkt (next c.size x) b).view x = none := by
          rw [RsHmap.view_eq_none, hc]
          simp [RsHmap.setBkt, RsHmap.setFull]
        obtain ⟨d, hd⟩ : ∃ d, d = ((c.setBkt (next c.size x) b).setBkt x b).setFull x true :=
          ⟨_, rfl⟩
        have hdview := (c.setBkt (next c.size x) b).view_setBkt_setFull x b
        have hdcount := count_fill (n := c.size) (by rw [hcsize]; exact hx) hcx b
        rw [← hd] at hg hdview
        rw [← hdview, hbcount] at hdcount
        have hdsize : d.size = c.size := by rw [hd]; rfl
        have hdfull : d.bktFull (next c.size x) = true := by
          simp only [hd, RsHmap.setFull, RsHmap.setBkt]
          by_cases hyx : next c.size x = x
          · rw [hyx, update_self]
          · rw [update_of_ne hyx]
            exact hyfull
        obtain ⟨hframe, hn, hcount⟩ := ih (h := d) (by rw [hdsize]; exact hy) hdfull hg
        refine ⟨⟨?_, ?_, ?_, ?_⟩, ?_, ?_⟩
        · exact hframe.size.trans (hdsize.trans hcsize)
        · exact hframe.divinfo.trans (by rw [hd, hc]; rfl)
        · exact hframe.hashkey.trans (by rw [hd, hc]; rfl)
        · exact hframe.config.trans (by rw [hd, hc]; rfl)
        · exact hn.trans (by rw [hd, hc]; rfl)
        · rw [hcount, hdsize, hdcount, hempty, hcsize]
          exact hremoved

theorem rsHmapDel_counted {r : DelResult K V} (hc : Counted h)
    (hr : rsHmapDel F hashkey h k = some r) : Counted r.hmap := by
  rw [rsHmapDel] at hr
  split at hr
  · rw [← Option.some.inj hr]
    exact hc
  · next st q hfind =>
    obtain ⟨hq, hfull⟩ := delFind_full (hc.home_lt k) hfind
    rw [Option.map_eq_some_iff] at hr
    obtain ⟨g, hg, hgr⟩ := hr
    obtain ⟨hframe, hn, hcount⟩ :=
      shiftLoop_counted (h := { h with nitems := h.nitems - 1 }) hq hfull hg
    have hgc : Counted g := by
      refine hc.of_frame ⟨hframe.size, hframe.divinfo, hframe.hashkey, hframe.config⟩ ?_
      have hcount' : count h.size g.view + 1 = count h.size h.view := by
        have hsize : g.size = h.size := hframe.size
        rw [hsize] at hcount
        exact hcount
      have hn' : g.nitems = h.nitems - 1 := hn
      have := hc.nitems_eq
      omega
    rw [← hgr]
    simp only [shrinkIfSparse]
    split
    · exact rsHmapResize_counted hgc
    · exact hgc

/-- **Every table a run reaches counts its full buckets.** -/
theorem reaches_counted [DecidableEq K] {m : K → Option V} (hr : Reaches F h m) : Counted h := by
  induction hr with
  | instantiate hi =>
      obtain ⟨size, config, hpos, hlt, rfl⟩ := instantiate_eq_blank hi
      exact counted_blank hpos hlt _ _ _
  | put _ hp ih => exact rsHmapPut_counted ih hp
  | del _ hd ih => exact rsHmapDel_counted ih hd

end QStore.Hmap
