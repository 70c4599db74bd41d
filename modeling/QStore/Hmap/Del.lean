import QStore.Hmap.Put

/-!
# QStore.Hmap.Del

`rs_hmap_del` (`src/rs_hmap_del.c`): find the bucket of the key, close the gap
by shifting the rest of the cluster back, and shrink a table that has become
too empty.

The shift loop of the source has no bound of its own; that it stops is what
`shiftBack_remove` says of the slots, and `shiftLoop_shiftBack` carries it over
to the buckets.
-/

namespace QStore.Hmap

open QStore.Ring QStore.RobinHood Function

variable {K V : Type}

/-- The search loop of `rs_hmap_del` at `probe_loc = p`, with
`size - num_probes` turns left: the status, and the slot of the key. -/
def delFind (F : FnPtrs K V) (h : RsHmap K V) (key : K) : Nat → Nat → Nat → Int × Option Nat
  | 0, _, _ => (-1, none)
  | left + 1, myPsl, p =>
      if h.bktFull p = false then (0, none)
      else if myPsl > (h.bkts p).psl then (0, none)
      else if F.keyCmp (h.bkts p).key key then (0, some p)
      else delFind F h key left (myPsl + 1) (next h.size p)

/-- The backward shift with its hole at `prev`. `none`: more than `left`
buckets in a row were shifted. -/
def shiftLoop [Zero K] [Zero V] : Nat → RsHmap K V → Nat → Option (RsHmap K V)
  | 0, _, _ => none
  | left + 1, h, prev =>
      let h := (h.setBkt prev zeroBkt).setFull prev false
      let p := next h.size prev
      if h.bktFull p = false ∨ (h.bkts p).psl = 0 then some h
      else
        let b : Bkt K V := { h.bkts p with psl := (h.bkts p).psl - 1 }
        shiftLoop left (((h.setBkt p b).setBkt prev b).setFull prev (h.bktFull p)) p

/-- What `rs_hmap_del` returns and writes through its pointers. -/
structure DelResult (K V : Type) where
  status : Int
  isFound : Bool
  val : V
  hmap : RsHmap K V

/-- The size `rs_hmap_del` shrinks a table of `nitems` items to. -/
def shrinkSize (nitems minSize : Nat) : Nat :=
  if idealSize nitems < minSize then minSize else idealSize nitems

/-- The end of `rs_hmap_del`: shrink a table that is too empty. -/
def shrinkIfSparse [Zero K] [Zero V] (F : FnPtrs K V) (hashkey : UInt64) (h : RsHmap K V) :
    Int × RsHmap K V :=
  if h.nitems > h.config.minSize ∧ h.nitems < lowThreshold h.size then
    rsHmapResize F hashkey h (shrinkSize h.nitems h.config.minSize)
  else (0, h)

/-- `rs_hmap_del`, asked for the value. `none`: the shift loop never ends. -/
def rsHmapDel [Zero K] [Zero V] (F : FnPtrs K V) (hashkey : UInt64) (h : RsHmap K V) (key : K) :
    Option (DelResult K V) :=
  match delFind F h key h.size 0 (h.home F key) with
  | (status, none) => some ⟨status, false, 0, h⟩
  | (_, some p) =>
      (shiftLoop h.size { h with nitems := h.nitems - 1 } p).map fun g =>
        let r := shrinkIfSparse F hashkey g
        ⟨r.1, true, (h.bkts p).val, r.2⟩

/-! ## the search -/

section Find

variable {F : FnPtrs K V} {h : RsHmap K V} {home : K → Nat} {k : K}

/-- The search reaches the bucket of a held key. -/
theorem delFind_held {e : Bkt K V} {q i : Nat} (hinv : Inv h.size home h.view) (hq : q < h.size)
    (he : h.view q = some e) (hi : i ≤ e.psl) :
    delFind F h e.key (h.size - i) i ((home e.key + i) % h.size) = (0, some q) := by
  have hlt := hinv.psl_lt q e hq he
  obtain ⟨j, hj⟩ : ∃ j, i + j = e.psl := ⟨e.psl - i, by omega⟩
  induction j generalizing i with
  | zero =>
      obtain rfl : i = e.psl := by omega
      obtain ⟨left, hleft⟩ : ∃ left, h.size - e.psl = left + 1 := ⟨h.size - e.psl - 1, by omega⟩
      obtain ⟨hfull, hb⟩ := RsHmap.view_eq_some.mp he
      rw [hinv.loc q e hq he, hleft, delFind, if_neg (by simp [hfull]), hb, if_neg (by omega),
        if_pos ((F.keyCmp_iff _ _).mpr rfl)]
  | succ j ih =>
      obtain ⟨left, hleft⟩ : ∃ left, h.size - i = left + 1 := ⟨h.size - i - 1, by omega⟩
      obtain ⟨f, hf, hif⟩ := hinv.walk hq he hi
      have hne := hinv.walk_ne hq he (by omega) hf
      obtain ⟨hfull, hb⟩ := RsHmap.view_eq_some.mp hf
      rw [hleft, delFind, if_neg (by simp [hfull]), hb, if_neg (by omega),
        if_neg (by rw [F.keyCmp_iff]; exact hne), ← add_succ_mod (by omega),
        show left = h.size - (i + 1) by omega]
      exact ih (by omega) (by omega)

/-- The search for a key in no bucket finds none. -/
theorem delFind_fresh (left i : Nat) {p : Nat} (hp : p < h.size)
    (hfresh : Fresh h.size h.view k) : (delFind F h k left i p).2 = none := by
  induction left generalizing i p with
  | zero => rfl
  | succ left ih =>
      rw [delFind]
      split
      · rfl
      · next hfull =>
        split
        · rfl
        · have hv := RsHmap.view_of_full (by simpa using hfull : h.bktFull p = true)
          rw [if_neg (by rw [F.keyCmp_iff]; exact hfresh p _ hp hv)]
          exact ih _ (next_lt hp)

end Find

/-! ## the backward shift -/

section Shift

variable [Zero K] [Zero V] {F : FnPtrs K V} {h : RsHmap K V}

/-- What closing a hole leaves: the slots `t`, and buckets that are zero where
they are empty. -/
structure Shifted (h : RsHmap K V) (t : Nat → Option (Bkt K V)) (g : RsHmap K V) : Prop where
  frame : SameFrame h g
  nitems : g.nitems = h.nitems
  view : g.view = t
  zero : ZeroEmpty g

/-- The shift loop does to the buckets what `shiftBack` does to the slots with
the hole emptied. -/
theorem shiftLoop_shiftBack {left x : Nat} {t : Nat → Option (Bkt K V)} (hx : x < h.size)
    (ht : shiftBack h.size left (update h.view x none) x = some t)
    (hzero : ∀ p, p < h.size → p ≠ x → h.bktFull p = false → h.bkts p = zeroBkt) :
    ∃ g, shiftLoop left h x = some g ∧ Shifted h t g := by
  induction left generalizing h x with
  | zero => contradiction
  | succ left ih =>
      -- the table with the hole emptied
      obtain ⟨c, hc⟩ : ∃ c, c = (h.setBkt x zeroBkt).setFull x false := ⟨_, rfl⟩
      have hcview : c.view = update h.view x none := by
        rw [hc]; exact h.view_setBkt_setEmpty x zeroBkt
      have hczero : ZeroEmpty c := by
        intro p hp hempty
        by_cases hpx : p = x
        · simp [hc, RsHmap.setFull, RsHmap.setBkt, hpx]
        · simp only [hc, RsHmap.setFull, RsHmap.setBkt, update_of_ne hpx] at hp hempty ⊢
          exact hzero p hp hpx hempty
      have hcsize : c.size = h.size := by rw [hc]; rfl
      simp only [shiftLoop]
      rw [← hc, hcsize]
      have hstopped : ∀ t', some c.view = some t' → Shifted h t' c := by
        intro t' ht'
        exact ⟨by rw [hc]; exact ⟨rfl, rfl, rfl, rfl⟩, by rw [hc]; rfl, Option.some.inj ht', hczero⟩
      rw [← hcview] at ht
      cases hv : c.view (next h.size x) with
      | none =>
          rw [shiftBack, hv] at ht
          exact ⟨c, by rw [if_pos (.inl (RsHmap.view_eq_none.mp hv))], hstopped t ht⟩
      | some e =>
          obtain ⟨hfull, he⟩ := RsHmap.view_eq_some.mp hv
          rw [shiftBack, hv] at ht
          rw [he, hfull]
          by_cases hpsl : e.psl = 0
          · simp only [if_pos hpsl] at ht
            exact ⟨c, by rw [if_pos (.inr hpsl)], hstopped t ht⟩
          · simp only [if_neg hpsl] at ht
            rw [if_neg (by simp [hpsl])]
            have hxy : next h.size x ≠ x := by
              intro hxx
              rw [hcview, hxx, update_self] at hv
              contradiction
            obtain ⟨b, hb⟩ : ∃ b : Bkt K V, b = { e with psl := e.psl - 1 } := ⟨_, rfl⟩
            obtain ⟨d, hd⟩ : ∃ d, d = ((c.setBkt (next h.size x) b).setBkt x b).setFull x true :=
              ⟨_, rfl⟩
            have hdsize : d.size = h.size := by rw [hd]; exact hcsize
            -- the shifted table, seen with its own hole
            have hdview : update d.view (next h.size x) none =
                update (update c.view x (some b)) (next h.size x) none := by
              funext p
              by_cases hpy : p = next h.size x
              · simp [hpy]
              · rw [update_of_ne hpy, update_of_ne hpy, hd, RsHmap.view_setBkt_setFull]
                by_cases hpx : p = x
                · simp [hpx]
                · rw [update_of_ne hpx, update_of_ne hpx]
                  simp [RsHmap.view, RsHmap.setBkt, hpy]
            have hdzero : ∀ p, p < d.size → p ≠ next h.size x → d.bktFull p = false →
                d.bkts p = zeroBkt := by
              intro p hp hpy hempty
              by_cases hpx : p = x
              · simp [hd, RsHmap.setFull, RsHmap.setBkt, hpx] at hempty
              · simp only [hd, RsHmap.setFull, RsHmap.setBkt, update_of_ne hpx, update_of_ne hpy]
                  at hempty ⊢
                exact hczero p (by omega) hempty
            obtain ⟨g, hg, hs⟩ := ih (h := d) (x := next h.size x)
              (by rw [hdsize]; exact next_lt hx)
              (by rw [hdsize, hdview, hb]; exact ht) hdzero
            rw [hd, hb] at hg
            refine ⟨g, hg, ⟨?_, ?_, ?_, ?_⟩, ?_, hs.view, hs.zero⟩
            · exact hs.frame.size.trans hdsize
            · exact hs.frame.divinfo.trans (by rw [hd, hc]; rfl)
            · exact hs.frame.hashkey.trans (by rw [hd, hc]; rfl)
            · exact hs.frame.config.trans (by rw [hd, hc]; rfl)
            · exact hs.nitems.trans (by rw [hd, hc]; rfl)

theorem shiftLoop_pslWrapped {left x : Nat} {g : RsHmap K V} (hg : shiftLoop left h x = some g) :
    g.pslWrapped = h.pslWrapped := by
  induction left generalizing h x with
  | zero => simp [shiftLoop] at hg
  | succ left ih =>
      simp only [shiftLoop] at hg
      split at hg
      · rw [← Option.some.inj hg]; rfl
      · have := ih hg
        exact this

/-- **Deleting a full bucket** succeeds and takes away its pair only. -/
theorem shiftLoop_del {q : Nat} {e : Bkt K V} (hwf : WellFormed F h) (hq : q < h.size)
    (he : h.view q = some e) :
    ∃ g, shiftLoop h.size { h with nitems := h.nitems - 1 } q = some g ∧ WellFormed F g ∧
      SameFrame h g ∧ g.pslWrapped = h.pslWrapped ∧ g.nitems + 1 = h.nitems ∧
      ∀ k v, Holds g.size g.view k v ↔ k ≠ e.key ∧ Holds h.size h.view k v := by
  obtain ⟨t, ht, hinv, hcount, hholds⟩ := shiftBack_remove hwf.inv hq he
  obtain ⟨g, hg, hs⟩ := shiftLoop_shiftBack (h := { h with nitems := h.nitems - 1 }) hq ht
    (fun p hp _ hempty => hwf.zero p hp hempty)
  have hframe : SameFrame h g :=
    ⟨hs.frame.size, hs.frame.divinfo, hs.frame.hashkey, hs.frame.config⟩
  have hsn : g.nitems = h.nitems - 1 := hs.nitems
  rw [← hs.view] at hinv hcount hholds
  rw [← hwf.nitems_eq] at hcount
  have hw := shiftLoop_pslWrapped hg
  refine ⟨g, hg, ⟨?_, ?_, ?_, ?_, ?_, hs.zero⟩, hframe, hw, by omega, ?_⟩
  · rw [hframe.size]; exact hwf.size_pos
  · rw [hframe.size]; exact hwf.size_lt
  · rw [hframe.divinfo, hframe.size]; exact hwf.divinfo_eq
  · rw [hframe.size, hframe.home]; exact hinv
  · rw [hframe.size]; omega
  · intro k v
    rw [hframe.size]
    exact hholds k v

end Shift

/-! ## the call -/

section Call

variable [Zero K] [Zero V] {F : FnPtrs K V} {h : RsHmap K V} {hashkey : UInt64} {k : K}
  {m : K → Option V}

theorem shrinkIfSparse_pslWrapped (hw : (shrinkIfSparse F hashkey h).2.pslWrapped = false) :
    h.pslWrapped = false := by
  unfold shrinkIfSparse at hw
  split at hw
  · exact rsHmapResize_pslWrapped hw
  · exact hw

/-- Shrinking always succeeds and keeps the pairs. -/
theorem shrinkIfSparse_spec (hwf : WellFormed F h) (hl : Loaded h)
    (hw : (shrinkIfSparse F hashkey h).2.pslWrapped = false) :
    ∃ g, shrinkIfSparse F hashkey h = (0, g) ∧ WellFormed F g ∧ Loaded g ∧
      ∀ k v, Holds g.size g.view k v ↔ Holds h.size h.view k v := by
  have hlt := hwf.size_lt
  unfold shrinkIfSparse at hw ⊢
  split
  · next hsparse =>
    rw [if_pos hsparse] at hw
    rw [lowThreshold_eq hlt] at hsparse
    have hideal : shrinkSize h.nitems h.config.minSize = 5 * h.nitems / 3 := by
      rw [shrinkSize, idealSize_eq (by omega), if_neg (by omega)]
    rw [hideal] at hw ⊢
    obtain ⟨g, hg, hgwf, hframe, hn, hholds⟩ :=
      rsHmapResize_spec hwf.keyed (by omega) (by unfold uintMax; omega) (by omega) hw
    have hsize : g.size = 5 * h.nitems / 3 := hframe.size
    refine ⟨g, hg, hgwf, ?_, hholds⟩
    rw [Loaded, hn, hsize, highThreshold_eq (by omega)]
    omega
  · exact ⟨h, rfl, hwf, hl, fun _ _ => Iff.rfl⟩

/-- What `rs_hmap_del` did: it found nothing and changed nothing, or it found
the key and took it out. -/
inductive Deleted (F : FnPtrs K V) (h : RsHmap K V) (k : K) : DelResult K V → Prop
  | absent (st : Int) (hk : Fresh h.size h.view k) : Deleted F h k ⟨st, false, 0, h⟩
  | found (v : V) (g : RsHmap K V) (hv : Holds h.size h.view k v) (hg : WellFormed F g)
      (hl : Loaded g)
      (hh : ∀ x w, Holds g.size g.view x w ↔ x ≠ k ∧ Holds h.size h.view x w) :
      Deleted F h k ⟨0, true, v, g⟩

/-- `rs_hmap_del` returns on every well-formed table. -/
theorem rsHmapDel_isSome (hwf : WellFormed F h) :
    ∃ r, rsHmapDel F hashkey h k = some r := by
  unfold rsHmapDel
  by_cases hk : ∃ v, Holds h.size h.view k v
  · obtain ⟨v, q, e, hq, he, rfl, rfl⟩ := hk
    have hfind := delFind_held (F := F) (i := 0) hwf.inv hq he (Nat.zero_le _)
    rw [Nat.sub_zero, Nat.add_zero, Nat.mod_eq_of_lt (hwf.home_lt _)] at hfind
    obtain ⟨g, hg, -⟩ := shiftLoop_del hwf hq he
    rw [hfind]
    simp only [hg]
    exact ⟨_, rfl⟩
  · have hfresh := fresh_iff_not_holds.mpr (not_exists.mp hk)
    have hfind := delFind_fresh (F := F) h.size 0 (hwf.home_lt k) hfresh
    cases hf : delFind F h k h.size 0 (h.home F k) with
    | mk st o =>
        rw [hf] at hfind
        obtain rfl : o = none := hfind
        exact ⟨_, rfl⟩

theorem rsHmapDel_pslWrapped {r : DelResult K V} (hr : rsHmapDel F hashkey h k = some r)
    (hw : r.hmap.pslWrapped = false) : h.pslWrapped = false := by
  unfold rsHmapDel at hr
  split at hr
  · rw [← Option.some.inj hr] at hw
    exact hw
  · rw [Option.map_eq_some_iff] at hr
    obtain ⟨g, hg, hgr⟩ := hr
    rw [← hgr] at hw
    have := shiftLoop_pslWrapped hg
    rw [shrinkIfSparse_pslWrapped hw] at this
    exact this.symm

theorem rsHmapDel_spec (hwf : WellFormed F h) (hl : Loaded h) {r : DelResult K V}
    (hr : rsHmapDel F hashkey h k = some r) (hw : r.hmap.pslWrapped = false) :
    Deleted F h k r := by
  unfold rsHmapDel at hr
  by_cases hk : ∃ v, Holds h.size h.view k v
  · obtain ⟨v, q, e, hq, he, rfl, rfl⟩ := hk
    have hfind := delFind_held (F := F) (i := 0) hwf.inv hq he (Nat.zero_le _)
    rw [Nat.sub_zero, Nat.add_zero, Nat.mod_eq_of_lt (hwf.home_lt _)] at hfind
    obtain ⟨g, hg, hwf', hframe, -, hn, hholds⟩ := shiftLoop_del hwf hq he
    rw [hfind] at hr
    simp only [hg, Option.map_some, Option.some.injEq, (RsHmap.view_eq_some.mp he).2] at hr
    rw [← hr] at hw ⊢
    have hlg : Loaded g := by
      unfold Loaded at hl ⊢
      rw [hframe.size]
      omega
    obtain ⟨g', hg', hwf'', hl', hholds'⟩ := shrinkIfSparse_spec hwf' hlg hw
    rw [hg']
    exact .found e.val g' ⟨q, e, hq, he, rfl, rfl⟩ hwf'' hl'
      fun x w => (hholds' x w).trans (hholds x w)
  · have hfresh := fresh_iff_not_holds.mpr (not_exists.mp hk)
    have hfind := delFind_fresh (F := F) h.size 0 (hwf.home_lt k) hfresh
    cases hf : delFind F h k h.size 0 (h.home F k) with
    | mk st o =>
        rw [hf] at hfind hr
        obtain rfl : o = none := hfind
        rw [← Option.some.inj hr]
        exact .absent st hfresh

end Call

end QStore.Hmap
