import QStore.Hmap.Run
import QStore.Lib.Text

/-!
# QStore.Hmap.Freeze

`rs_hmap_freeze` and `rs_hmap_unfreeze`: a table goes to a text file of its
fields and two binary files of its arrays, and comes back from them.

```
size,1031
nitems,4
divinfo,…
hashkey,…
min_size,1024
max_size,0
low_water_mark,0.200000
high_water_mark,0.850000
so_file,libhmap.so
```

`Sound` is what every call keeps of the fields and of the memory past the
arrays, whether or not a probe length has wrapped. A sound table with the
default water marks comes back as it was exactly if the name of its shared
object is a word of at most 127 characters.
-/

namespace QStore.Hmap

open QStore.Ring QStore.Text Function

variable {K V : Type}

/-- The files of a frozen table. The record of a wrapped `psl` goes with them. -/
structure Frozen (K V : Type) where
  metaFile : List Char
  bktsFile : List (Bkt K V)
  fullFile : List Bool
  pslWrapped : Bool

/-- A line of the text file. -/
def fieldLine (name : String) (value : List Char) : List Char :=
  name.toList ++ ',' :: (value ++ ['\n'])

/-- The text file. -/
def metaOf (h : RsHmap K V) : List Char :=
  fieldLine "size" (printNat h.size) ++
  (fieldLine "nitems" (printNat h.nitems) ++
  (fieldLine "divinfo" (printNat h.divinfo) ++
  (fieldLine "hashkey" (printNat h.hashkey.toNat) ++
  (fieldLine "min_size" (printNat h.config.minSize) ++
  (fieldLine "max_size" (printNat h.config.maxSize) ++
  (fieldLine "low_water_mark" (printFixed h.config.lowWaterMark) ++
  (fieldLine "high_water_mark" (printFixed h.config.highWaterMark) ++
  fieldLine "so_file" (h.config.soFile.getD "(null)").toList)))))))

/-- `rs_hmap_freeze` -/
def freeze (h : RsHmap K V) : Frozen K V where
  metaFile := metaOf h
  bktsFile := (List.range h.size).map h.bkts
  fullFile := (List.range h.size).map h.bktFull
  pslWrapped := h.pslWrapped

/-- `fscanf` of a line of the text file. -/
def scanField {α : Type} (name : String) (conv : Scan α) : Scan α := fun t =>
  (scanLit (name.toList ++ [',']) t).bind fun t =>
    (conv t).map fun r => (r.1, skipSpace r.2)

/-- What the text file holds. -/
structure MetaData where
  size : Nat
  nitems : Nat
  divinfo : Nat
  hashkey : Nat
  config : HmapConfig

/-- The `fscanf`s of `rs_hmap_unfreeze`. -/
def scanMeta (t : List Char) : Option MetaData := do
  let size ← scanField "size" (scanNat 32) t
  let nitems ← scanField "nitems" (scanNat 32) size.2
  let divinfo ← scanField "divinfo" (scanNat 64) nitems.2
  let hashkey ← scanField "hashkey" (scanNat 64) divinfo.2
  let minSize ← scanField "min_size" (scanNat 32) hashkey.2
  let maxSize ← scanField "max_size" (scanNat 32) minSize.2
  let low ← scanField "low_water_mark" scanFixed maxSize.2
  let high ← scanField "high_water_mark" scanFixed low.2
  let soFile ← scanField "so_file" (scanWord 127) high.2
  some ⟨size.1, nitems.1, divinfo.1, hashkey.1,
    ⟨minSize.1, maxSize.1, low.1, high.1, some (String.ofList soFile.1)⟩⟩

/-- `rs_hmap_unfreeze`, where `loads` says which shared objects `dlopen` finds.
The memory past the arrays is taken to be zero, as `blank` takes it. -/
def unfreeze [Zero K] [Zero V] (loads : String → Bool) (f : Frozen K V) :
    Except Int (RsHmap K V) :=
  match scanMeta f.metaFile with
  | none => .error (-1)
  | some m =>
      if !loads (m.config.soFile.getD "") then .error (-1)
      else .ok {
        size := m.size
        nitems := m.nitems
        divinfo := m.divinfo
        bkts := fun p => f.bktsFile.getD p zeroBkt
        bktFull := fun p => f.fullFile.getD p false
        hashkey := UInt64.ofNat m.hashkey
        config := m.config
        pslWrapped := f.pslWrapped }

/-! ## what every call keeps -/

section Sound

variable [Zero K] [Zero V]

/-- The memory past the arrays is zero. -/
def Bounded (h : RsHmap K V) : Prop :=
  ∀ p, h.size ≤ p → h.bkts p = zeroBkt ∧ h.bktFull p = false

/-- The fields are what their types hold, and belong together. -/
structure Sound (h : RsHmap K V) : Prop where
  size_pos : 0 < h.size
  size_lt : h.size < 2 ^ 32
  divinfo_eq : h.divinfo = fastDiv32Init h.size
  nitems_lt : h.nitems < 2 ^ 32
  bounded : Bounded h

/-- What storing or removing at most `n` pairs leaves of a table. -/
structure Stays (n : Nat) (h g : RsHmap K V) : Prop where
  frame : SameFrame h g
  nitems : g.nitems ≤ h.nitems + n
  bounded : Bounded h → Bounded g

variable {F : FnPtrs K V} {h g t : RsHmap K V} {hashkey : UInt64} {k : K} {v : V} {n p : Nat}

theorem Stays.rfl : Stays n h h := ⟨.rfl, Nat.le_add_right _ _, id⟩

theorem Stays.trans {i j : Nat} (h1 : Stays i h g) (h2 : Stays j g t) : Stays (i + j) h t where
  frame := h1.frame.trans h2.frame
  nitems := by
    have := h1.nitems
    have := h2.nitems
    omega
  bounded := fun hb => h2.bounded (h1.bounded hb)

theorem Stays.mono {i : Nat} (h1 : Stays i h g) (hi : i ≤ n) : Stays n h g :=
  ⟨h1.frame, by have := h1.nitems; omega, h1.bounded⟩

theorem Stays.sound (hs : Sound h) (hst : Stays n h g) (hn : h.nitems + n < 2 ^ 32) :
    Sound g where
  size_pos := by rw [hst.frame.size]; exact hs.size_pos
  size_lt := by rw [hst.frame.size]; exact hs.size_lt
  divinfo_eq := by rw [hst.frame.divinfo, hst.frame.size]; exact hs.divinfo_eq
  nitems_lt := by have := hst.nitems; omega
  bounded := hst.bounded hs.bounded

/-- A write inside the arrays. -/
theorem stays_setBkt (hp : p < h.size) (b : Bkt K V) : Stays 0 h (h.setBkt p b) := by
  refine ⟨⟨.refl _, .refl _, .refl _, .refl _⟩, Nat.le_refl _, fun hb q hq => ?_⟩
  have hqp : q ≠ p := by
    have : h.size ≤ q := hq
    omega
  simp only [RsHmap.setBkt, update_of_ne hqp]
  exact hb q hq

theorem stays_setFull (hp : p < h.size) (b : Bool) : Stays 0 h (h.setFull p b) := by
  refine ⟨⟨.refl _, .refl _, .refl _, .refl _⟩, Nat.le_refl _, fun hb q hq => ?_⟩
  have hqp : q ≠ p := by
    have : h.size ≤ q := hq
    omega
  simp only [RsHmap.setFull, update_of_ne hqp]
  exact hb q hq

theorem stays_noteWrap (b : Bkt K V) : Stays 0 h (h.noteWrap b) :=
  ⟨⟨.refl _, .refl _, .refl _, .refl _⟩, Nat.le_refl _, id⟩

theorem stays_insertLoop {left : Nat} {entry : Bkt K V} (hp : p < h.size) :
    Stays 1 h (insertLoop F left h entry p).2 := by
  induction left generalizing h entry p with
  | zero => exact .rfl
  | succ left ih =>
      have hnext : next h.size p < h.size := next_lt hp
      rw [insertLoop]
      split
      · split
        · exact (stays_setBkt hp _).mono (Nat.zero_le 1)
        · split
          · have hstep := (stays_setBkt hp entry).trans (stays_noteWrap (h.bkts p))
            exact hstep.trans (ih hnext)
          · exact (stays_noteWrap entry).trans (ih hnext)
      · have hstep := (stays_setBkt hp entry).trans (stays_setFull (h := h.setBkt p entry) hp true)
        exact ⟨⟨.refl _, .refl _, .refl _, .refl _⟩, Nat.le_refl _, hstep.bounded⟩

omit [Zero K] [Zero V] in
theorem home_lt_size (hpos : 0 < h.size) (hlt : h.size < 2 ^ 32)
    (hdiv : h.divinfo = fastDiv32Init h.size) : h.home F k < h.size := by
  rw [home_eq hpos hlt hdiv]
  exact Nat.mod_lt _ hpos

theorem stays_reinsert (F : FnPtrs K V) (bkts : Nat → Bkt K V) (bktFull : Nat → Bool)
    (left i : Nat) (st : Int) (hpos : 0 < g.size) (hlt : g.size < 2 ^ 32) (hdiv : g.divinfo = fastDiv32Init g.size) :
    Stays left g (reinsert F bkts bktFull left i st g).2 := by
  induction left generalizing i st g with
  | zero => exact .rfl
  | succ left ih =>
      rw [reinsert]
      split
      · exact (ih _ _ hpos hlt hdiv).mono (Nat.le_succ left)
      · have hins : Stays 1 g (rsHmapInsert F g (bkts i).key (bkts i).val).2 :=
          stays_insertLoop (home_lt_size hpos hlt hdiv)
        simp only
        split
        · exact hins.mono (by omega)
        · have hrest := ih (i + 1) (rsHmapInsert F g (bkts i).key (bkts i).val).1
            (by rw [hins.frame.size]; exact hpos) (by rw [hins.frame.size]; exact hlt)
            (by rw [hins.frame.divinfo, hins.frame.size]; exact hdiv)
          exact (hins.trans hrest).mono (by omega)

theorem sound_blank {size : Nat} (hashkey : UInt64) (config : HmapConfig) (wrapped : Bool)
    (hpos : 0 < size)
    (hlt : size < 2 ^ 32) : Sound (blank size hashkey config wrapped : RsHmap K V) :=
  ⟨hpos, hlt, rfl, Nat.two_pow_pos 32, fun _ _ => ⟨rfl, rfl⟩⟩

/-- A resize that succeeds keeps the number of items. -/
theorem sound_rsHmapResize (F : FnPtrs K V) (hashkey : UInt64) (newsize : Nat) (hs : Sound h) :
    Sound (rsHmapResize F hashkey h newsize).2 ∧
      (rsHmapResize F hashkey h newsize).2.config = h.config ∧
      (0 ≤ (rsHmapResize F hashkey h newsize).1 →
        (rsHmapResize F hashkey h newsize).2.nitems = h.nitems) := by
  unfold rsHmapResize
  split
  · exact ⟨hs, rfl, fun _ => rfl⟩
  · next hsize =>
    split
    · exact ⟨hs, rfl, fun _ => rfl⟩
    · unfold uintMax at hsize
      have hlt := hs.size_lt
      have hb := sound_blank (K := K) (V := V) hashkey h.config h.pslWrapped
        (show 0 < newsize by omega) (by omega)
      have hst := stays_reinsert F h.bkts h.bktFull h.size 0 0 hb.size_pos hb.size_lt
        hb.divinfo_eq
      have hg := hst.sound hb (by simpa [blank] using hlt)
      have hc := hst.frame.config
      simp only
      split
      · exact ⟨hg, hc, fun h0 => by omega⟩
      · split
        · exact ⟨hg, hc, fun h0 => by simp at h0⟩
        · next hn => exact ⟨hg, hc, fun _ => not_not.mp hn⟩

/-- The start of a put leaves room to count one item more. -/
theorem sound_growIfFull {r : Int × RsHmap K V} (hs : Sound h)
    (hr : growIfFull F hashkey h = some r) :
    Sound r.2 ∧ r.2.config = h.config ∧ (0 ≤ r.1 → r.2.nitems + 1 < 2 ^ 32) := by
  have hlt := hs.size_lt
  unfold growIfFull at hr
  split at hr
  · next hgt =>
    rw [Option.map_eq_some_iff] at hr
    obtain ⟨c, hc, hcr⟩ := hr
    simp only [calcNewSize, hgt, decide_true, if_true, growSize] at hc
    split at hc
    · contradiction
    · next hfew =>
      rw [Option.map_some, Option.some.injEq] at hc
      split at hc
      · rw [← hc] at hcr
        simp only [Int.reduceNeg, Int.neg_lt_zero_iff] at hcr
        rw [← hcr]
        exact ⟨hs, rfl, fun h0 => by simp at h0⟩
      · next hcap =>
        rw [highThreshold_eq (by omega)] at hfew
        split at hc
        · rw [← hc] at hcr
          simp only [Int.reduceNeg, Int.neg_lt_zero_iff] at hcr
          rw [← hcr]
          exact ⟨hs, rfl, fun h0 => by simp at h0⟩
        · rw [← hc] at hcr
          simp only [Int.lt_irrefl, if_false, if_true] at hcr
          obtain ⟨h1, h2, h3⟩ := sound_rsHmapResize F hashkey
            (primeGeq (min (2 * h.size) (h.size + maxGrowthStep))) hs
          rw [← hcr]
          refine ⟨h1, h2, fun h0 => ?_⟩
          rw [h3 h0]
          omega
  · next hgt =>
    rw [highThreshold_eq (by omega)] at hgt
    rw [← Option.some.inj hr]
    exact ⟨hs, rfl, fun _ => by simp only; omega⟩

theorem sound_rsHmapPut {r : Int × RsHmap K V} (hs : Sound h)
    (hr : rsHmapPut F hashkey h k v = some r) : Sound r.2 ∧ r.2.config = h.config := by
  rw [rsHmapPut, Option.map_eq_some_iff] at hr
  obtain ⟨g, hg, hgr⟩ := hr
  obtain ⟨h1, h2, h3⟩ := sound_growIfFull hs hg
  split at hgr
  · rw [← hgr]
    exact ⟨h1, h2⟩
  · next hst =>
    have hins : Stays 1 g.2 (rsHmapInsert F g.2 k v).2 :=
      stays_insertLoop (home_lt_size h1.size_pos h1.size_lt h1.divinfo_eq)
    rw [← hgr]
    exact ⟨hins.sound h1 (h3 (by omega)), hins.frame.config.trans h2⟩

theorem stays_shiftLoop {left : Nat} (hp : p < h.size) (hg : shiftLoop left h p = some g) :
    Stays 0 h g := by
  induction left generalizing h p with
  | zero => contradiction
  | succ left ih =>
      have hhole := (stays_setBkt hp zeroBkt).trans
        (stays_setFull (h := h.setBkt p zeroBkt) hp false)
      rw [shiftLoop] at hg
      simp only at hg
      generalize (h.setBkt p zeroBkt).setFull p false = c at hg hhole
      have hpc : p < c.size := by rw [hhole.frame.size]; exact hp
      have hnext : next c.size p < c.size := next_lt hpc
      split at hg
      · rw [← Option.some.inj hg]
        exact hhole
      · generalize ({ c.bkts (next c.size p) with psl := (c.bkts (next c.size p)).psl - 1 } :
          Bkt K V) = b at hg
        have h1 := stays_setBkt hnext b
        have h2 := stays_setBkt (h := c.setBkt (next c.size p) b) hpc b
        have h3 := stays_setFull (h := (c.setBkt (next c.size p) b).setBkt p b) hpc
          (c.bktFull (next c.size p))
        exact hhole.trans ((h1.trans (h2.trans h3)).trans (ih hnext hg))

omit [Zero K] [Zero V] in
theorem delFind_lt {left psl q : Nat} (hp : p < h.size)
    (hf : (delFind F h k left psl p).2 = some q) : q < h.size := by
  induction left generalizing psl p with
  | zero => contradiction
  | succ left ih =>
      rw [delFind] at hf
      split at hf
      · contradiction
      · split at hf
        · contradiction
        · split at hf
          · rw [← Option.some.inj hf]
            exact hp
          · exact ih (next_lt hp) hf

theorem sound_shrinkIfSparse (F : FnPtrs K V) (hashkey : UInt64) (hs : Sound h) :
    Sound (shrinkIfSparse F hashkey h).2 ∧ (shrinkIfSparse F hashkey h).2.config = h.config := by
  unfold shrinkIfSparse
  split
  · obtain ⟨h1, h2, -⟩ := sound_rsHmapResize F hashkey (shrinkSize h.nitems h.config.minSize) hs
    exact ⟨h1, h2⟩
  · exact ⟨hs, rfl⟩

theorem Sound.dropItem (hs : Sound h) : Sound ({ h with nitems := h.nitems - 1 } : RsHmap K V) :=
  ⟨hs.size_pos, hs.size_lt, hs.divinfo_eq, Nat.lt_of_le_of_lt (Nat.sub_le _ _) hs.nitems_lt,
    hs.bounded⟩

theorem sound_rsHmapDel {r : DelResult K V} (hs : Sound h)
    (hr : rsHmapDel F hashkey h k = some r) : Sound r.hmap ∧ r.hmap.config = h.config := by
  have hhome := home_lt_size (F := F) (k := k) hs.size_pos hs.size_lt hs.divinfo_eq
  unfold rsHmapDel at hr
  split at hr
  · rw [← Option.some.inj hr]
    exact ⟨hs, rfl⟩
  · next p hf =>
    rw [Option.map_eq_some_iff] at hr
    obtain ⟨g, hg, hgr⟩ := hr
    have hp : p < h.size := delFind_lt hhome (by rw [hf])
    have hst := stays_shiftLoop (h := { h with nitems := h.nitems - 1 }) hp hg
    have hgs := hst.sound hs.dropItem (by rw [Nat.add_zero]; exact hs.dropItem.nitems_lt)
    obtain ⟨h1, h2⟩ := sound_shrinkIfSparse F hashkey hgs
    rw [← hgr]
    exact ⟨h1, h2.trans hst.frame.config⟩

/-- **Every table a run reaches is sound**, and its water marks are the
defaults: `rs_hmap_instantiate` accepts no others. -/
theorem reaches_sound [DecidableEq K] {m : K → Option V} (hr : Reaches F h m) :
    Sound h ∧ h.config.lowWaterMark = lowWaterMark ∧ h.config.highWaterMark = highWaterMark ∧
      ∃ so, h.config.soFile = some so ∧ so ≠ "" := by
  induction hr with
  | @instantiate hc hashkey loads h hi =>
      obtain ⟨size, config, hpos, hlt, rfl⟩ := instantiate_eq_blank hi
      refine ⟨sound_blank _ _ _ hpos hlt, ?_⟩
      unfold instantiate at hi
      split at hi
      · simp at hi
      · next hmarks =>
        split at hi
        · contradiction
        · split at hi
          · simp at hi
          · next hso =>
            split at hi
            · simp at hi
            · rw [Option.some.injEq, Except.ok.injEq] at hi
              have hconfig := congrArg RsHmap.config hi
              change { configOf hc with soFile := hc.soFile } = config at hconfig
              change config.lowWaterMark = _ ∧ config.highWaterMark = _ ∧ _
              rw [← hconfig]
              rw [not_or] at hso
              obtain ⟨so, hsome⟩ := Option.ne_none_iff_exists'.mp hso.1
              simp only [marksOk, configOf] at hmarks
              have hlow : hc.lowWaterMark = 0 := by
                by_contra h0
                simp [h0] at hmarks
              have hhigh : hc.highWaterMark = 0 := by
                by_contra h0
                simp [h0] at hmarks
              refine ⟨by simp [configOf, hlow], by simp [configOf, hhigh], so, hsome, ?_⟩
              intro hempty
              rw [hempty] at hsome
              exact hso.2 hsome
  | put _ hp ih =>
      obtain ⟨h1, h2⟩ := ih
      obtain ⟨h3, h4⟩ := sound_rsHmapPut h1 hp
      rw [h4]
      exact ⟨h3, h2⟩
  | del _ hd ih =>
      obtain ⟨h1, h2⟩ := ih
      obtain ⟨h3, h4⟩ := sound_rsHmapDel h1 hd
      rw [h4]
      exact ⟨h3, h2⟩

end Sound

/-! ## reading the files back -/

variable {t rest value : List Char} {name : String}

/-- A line does not start with white space. -/
theorem skipSpace_fieldLine (name : String) (value rest : List Char)
    (hname : name.toList.head?.all isSpace = false) :
    skipSpace (fieldLine name value ++ rest) = fieldLine name value ++ rest := by
  rw [fieldLine]
  cases hn : name.toList with
  | nil =>
      rw [hn] at hname
      contradiction
  | cons c cs =>
      rw [hn, List.head?_cons, Option.all_some] at hname
      exact skipSpace_cons hname

theorem scanLit_fieldLine (name : String) (value rest : List Char) :
    scanLit (name.toList ++ [',']) (fieldLine name value ++ rest) =
      some (value ++ '\n' :: rest) := by
  have hsplit : fieldLine name value ++ rest =
      (name.toList ++ [',']) ++ (value ++ '\n' :: rest) := by
    simp [fieldLine]
  rw [hsplit, scanLit_append]

/-- A line is read back if its value is. -/
theorem scanField_fieldLine (name : String) {α : Type} {conv : Scan α} {x : α}
    (hconv : conv (value ++ '\n' :: rest) = some (x, '\n' :: rest))
    (hrest : skipSpace rest = rest) :
    scanField name conv (fieldLine name value ++ rest) = some (x, rest) := by
  have hskip : skipSpace ('\n' :: rest) = rest := hrest
  rw [scanField, scanLit_fieldLine, Option.bind_some, hconv, Option.map_some, hskip]

theorem scanField_nat {w n : Nat} (hn : n < 2 ^ w) (hw : w ≤ 64) (hrest : skipSpace rest = rest) :
    scanField name (scanNat w) (fieldLine name (printNat n) ++ rest) = some (n, rest) :=
  scanField_fieldLine name (scanNat_printNat hn hw rfl) hrest

/-- The float comes back from its six digits. -/
def SixDigits (q : Rat) : Prop := float32 (Binary64.rne (q.num.toNat * 10 ^ 6) q.den) (10 ^ 6) = q

theorem scanField_mark {q : Rat} (hq : SixDigits q) (hrest : skipSpace rest = rest) :
    scanField name scanFixed (fieldLine name (printFixed q) ++ rest) = some (q, rest) := by
  have hscan := scanFixed_printFixed (q := q) (c := '\n') (t := rest) rfl
  rw [hq] at hscan
  exact scanField_fieldLine name hscan hrest

theorem sixDigits_marks : SixDigits lowWaterMark ∧ SixDigits highWaterMark := by
  unfold SixDigits
  decide +kernel

/-- The sizes of a configuration are `uint32_t`. -/
structure HmapConfig.InRange (c : HmapConfig) : Prop where
  minSize : c.minSize < 2 ^ 32
  maxSize : c.maxSize < 2 ^ 32

section RoundTrip

variable [Zero K] [Zero V] {h : RsHmap K V} {so : String} {loads : String → Bool}

/-- Every line but the last is read back. -/
theorem scanMeta_metaOf (hs : Sound h) (hc : h.config.InRange)
    (hlow : SixDigits h.config.lowWaterMark) (hhigh : SixDigits h.config.highWaterMark)
    (hso : h.config.soFile = some so) :
    scanMeta (metaOf h) =
      (scanField "so_file" (scanWord 127) (fieldLine "so_file" so.toList)).map fun w =>
        ⟨h.size, h.nitems, h.divinfo, h.hashkey.toNat,
          { h.config with soFile := some (String.ofList w.1) }⟩ := by
  have hdiv : h.divinfo < 2 ^ 64 := by
    rw [hs.divinfo_eq]
    exact fastDiv32Init_lt hs.size_lt
  have hlast : skipSpace (fieldLine "so_file" so.toList) = fieldLine "so_file" so.toList := by
    have hline := skipSpace_fieldLine "so_file" so.toList [] rfl
    rwa [List.append_nil] at hline
  simp only [scanMeta, metaOf, hso, Option.getD_some]
  rw [scanField_nat hs.size_lt (by decide) (skipSpace_fieldLine _ _ _ rfl)]
  simp only [Option.bind_eq_bind, Option.bind_some]
  rw [scanField_nat hs.nitems_lt (by decide) (skipSpace_fieldLine _ _ _ rfl), Option.bind_some,
    scanField_nat hdiv (by decide) (skipSpace_fieldLine _ _ _ rfl), Option.bind_some,
    scanField_nat h.hashkey.toNat_lt (by decide) (skipSpace_fieldLine _ _ _ rfl), Option.bind_some,
    scanField_nat hc.minSize (by decide) (skipSpace_fieldLine _ _ _ rfl), Option.bind_some,
    scanField_nat hc.maxSize (by decide) (skipSpace_fieldLine _ _ _ rfl), Option.bind_some,
    scanField_mark hlow (skipSpace_fieldLine _ _ _ rfl), Option.bind_some,
    scanField_mark hhigh hlast, Option.bind_some]
  cases scanField "so_file" (scanWord 127) (fieldLine "so_file" so.toList) with
  | none => rfl
  | some w => rfl

/-- The arrays are read back. -/
theorem getD_range_map {β : Type} {f : Nat → β} {n : Nat} {d : β} (hd : ∀ p, n ≤ p → f p = d) :
    (fun p => ((List.range n).map f).getD p d) = f := by
  funext p
  rw [List.getD_eq_getElem?_getD, List.getElem?_map]
  by_cases hp : p < n
  · rw [List.getElem?_range hp]
    rfl
  · rw [List.getElem?_eq_none (by rw [List.length_range]; omega), hd p (by omega)]
    rfl

/-- A frozen table comes back as it was. -/
def RoundTrips (loads : String → Bool) (h : RsHmap K V) : Prop := unfreeze loads (freeze h) = .ok h

theorem roundTrips_of (hs : Sound h) (hc : h.config.InRange)
    (hlow : SixDigits h.config.lowWaterMark) (hhigh : SixDigits h.config.highWaterMark)
    (hso : h.config.soFile = some so) (hne : so ≠ "") (hl : loads so = true)
    (hlen : so.toList.length ≤ 127) (hword : ∀ c ∈ so.toList, isSpace c = false) :
    RoundTrips loads h := by
  have hmeta := scanMeta_metaOf hs hc hlow hhigh hso
  have hnil : so.toList ≠ [] := fun hnil => hne (String.toList_eq_nil_iff.mp hnil)
  have hline := scanField_fieldLine "so_file"
    (scanWord_append (c := '\n') (t := []) hword hnil hlen rfl) rfl
  rw [List.append_nil] at hline
  rw [hline, Option.map_some] at hmeta
  have hb := getD_range_map fun p hp => (hs.bounded p hp).1
  have hf := getD_range_map fun p hp => (hs.bounded p hp).2
  rw [RoundTrips, unfreeze, freeze]
  simp only [hmeta, String.ofList_toList, Option.getD_some, hl, hb, hf]
  rw [← hso]
  simp

theorem word_of_roundTrips (hs : Sound h) (hc : h.config.InRange)
    (hlow : SixDigits h.config.lowWaterMark) (hhigh : SixDigits h.config.highWaterMark)
    (hso : h.config.soFile = some so) (hr : RoundTrips loads h) :
    so.toList.length ≤ 127 ∧ ∀ c ∈ so.toList, isSpace c = false := by
  have hmeta := scanMeta_metaOf hs hc hlow hhigh hso
  rw [scanField] at hmeta
  have hlit := scanLit_fieldLine "so_file" so.toList []
  rw [List.append_nil] at hlit
  rw [hlit, Option.bind_some] at hmeta
  rw [RoundTrips, unfreeze, freeze] at hr
  cases hw : scanWord 127 (so.toList ++ ['\n']) with
  | none =>
      rw [hw] at hmeta
      simp only [Option.map_none] at hmeta
      rw [hmeta] at hr
      contradiction
  | some w =>
      rw [hw] at hmeta
      simp only [Option.map_some] at hmeta
      rw [hmeta] at hr
      simp only at hr
      split at hr
      · contradiction
      · rw [Except.ok.injEq] at hr
        have hconfig := congrArg (fun t : RsHmap K V => t.config.soFile) hr
        simp only [hso, Option.some.injEq] at hconfig
        rw [← hconfig, String.toList_ofList]
        exact scanWord_word hw

variable [DecidableEq K] {F : FnPtrs K V} {m : K → Option V}

/-- **When a frozen table comes back**: exactly when the name of its shared object
is a word of at most 127 characters. -/
theorem roundTrips_iff (hr : Reaches F h m) (hc : h.config.InRange)
    (hso : h.config.soFile = some so) (hl : loads so = true) :
    RoundTrips loads h ↔ so.toList.length ≤ 127 ∧ ∀ c ∈ so.toList, isSpace c = false := by
  obtain ⟨hs, h1, h2, so', h3, h4⟩ := reaches_sound hr
  rw [hso, Option.some.injEq] at h3
  have hlow : SixDigits h.config.lowWaterMark := h1 ▸ sixDigits_marks.1
  have hhigh : SixDigits h.config.highWaterMark := h2 ▸ sixDigits_marks.2
  constructor
  · exact word_of_roundTrips hs hc hlow hhigh hso
  · intro hword
    exact roundTrips_of hs hc hlow hhigh hso (h3 ▸ h4) hl hword.1 hword.2

end RoundTrip

/-- `dlopen` finds one shared object. -/
def finds (so : String) : String → Bool := fun name => name == so

/-- The map of two items comes back. -/
theorem roundTrips_two : ∃ m, Reaches replaceFns twoItemMap m ∧ m 1 = some 10 ∧ m 2 = some 20 ∧
    RoundTrips (finds "libhmap.so") twoItemMap := by
  obtain ⟨m, hr, h1, h2⟩ := reaches_twoItem
  exact ⟨m, hr, h1, h2, (roundTrips_iff hr ⟨by decide +kernel, by decide +kernel⟩ rfl rfl).mpr
    ⟨by decide, by simp [isSpace]⟩⟩

/-- The configuration of a map whose shared object has a space in its name. -/
def spacedConfig : HmapConfig := { smallConfig with soFile := some "my libhmap.so" }

/-- The table `rs_hmap_instantiate` makes for it. -/
def spacedMap : RsHmap Nat Nat :=
  blank 1 0 { configOf spacedConfig with soFile := spacedConfig.soFile } false

theorem reaches_spaced : Reaches replaceFns spacedMap (fun _ => none) := by
  have hmarks : marksOk (configOf spacedConfig) = true := by decide +kernel
  have hprime : primeGeq (configOf spacedConfig).minSize = 1 := rfl
  have hi : instantiate spacedConfig 0 true = some (.ok spacedMap) := by
    rw [instantiate, hmarks, hprime, if_neg (by decide), if_neg (by decide),
      if_neg (by decide), if_neg (by decide)]
    rfl
  exact .instantiate hi

/-- A map whose shared object has a space in its name never comes back. -/
theorem roundTrips_spaced_fails :
    Reaches replaceFns spacedMap (fun _ => none) ∧ ∀ loads, ¬ RoundTrips loads spacedMap := by
  refine ⟨reaches_spaced, fun loads hr => ?_⟩
  obtain ⟨hs, h1, h2, -⟩ := reaches_sound reaches_spaced
  have hso : spacedMap.config.soFile = some "my libhmap.so" := rfl
  have hword := word_of_roundTrips hs ⟨by decide, by decide⟩ (h1 ▸ sixDigits_marks.1)
    (h2 ▸ sixDigits_marks.2) hso hr
  exact absurd (hword.2 ' ' (by simp)) (by decide)

end QStore.Hmap
