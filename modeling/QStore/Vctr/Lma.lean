import QStore.Vctr.Append

/-!
# QStore.Vctr.Lma

The linear file of a vector (`vctr_chnks_to_lma.c`), and chunks read from it.

`vctr_chnks_to_lma` lays the chunks of a finished vector out one after the other
in one file. What a chunk read finds there is cut out of the file by arithmetic:
`vctr_get_chunk_lma` looks at no chunk.

What `mk_file` fills a file with is `blank`: the function is not in this
repository.
-/

namespace QStore.Vctr

open Function

/-- `memcpy` of `xs` to the mapping of a file, `off` bytes into it. -/
def storeFile (f : FileName) (off : Nat) (xs : List UInt8) : M Unit := do
  match (← get).fs.dir f with
  | none => ub
  | some ino => do
    let bs := (← get).fs.data ino
    if off + xs.length ≤ bs.length then
      modify fun s => s.setFs (s.fs.store ino (splice bs off xs))
    else ub

/-- The data of a chunk to copy. If it is in memory it is counted as read for the
time, else its file is read past `chnk_get_data`. -/
def lmaSource (u i : Nat) (c : ChnkVal) : M (Option (List UInt8)) :=
  match c.l1Mem with
  | some _ => do
    let data ← chnkGetData u i false
    let c' ← getChnk u i
    byeIf (c.numReaders.toNat + 1 ≠ c'.numReaders.toNat)
    setChnk u i { c' with numReaders := c'.numReaders - 1 }
    pure (data.map Buf.bytes)
  | none => do
    byeIf (c.l2Exists = false)
    let f ← l2Name u i
    let bs ← mmapBytes f
    pure (if bs = [] then none else some bs)

/-- Copy chunk `i` to the file, `off` bytes into it, and say how many bytes. -/
def copyChnk (u : Nat) (v : VctrVal) (filesz i off : Nat) : M Nat := do
  let c ← getChnk u i
  byeIf (c.numElements = 0)
  byeIf (c.numWriters ≠ 0)
  let data ← lmaSource u i c
  let bytesToCopy := u32 (c.numElements * v.width)
  byeIf (bytesToCopy > filesz - off)
  match data with
  | none => goBYE
  | some bs => do
    let xs ← takeN bs bytesToCopy
    storeFile (lmaFile u) off xs
    pure bytesToCopy

/-- Copy `n` chunks from `i` on. -/
def copyChnks (u : Nat) (v : VctrVal) (filesz : Nat) : Nat → Nat → Nat → M Unit
  | _, _, 0 => pure ()
  | i, off, n + 1 => do
    let bytesToCopy ← copyChnk u v filesz i off
    copyChnks u v filesz (i + 1) (off + bytesToCopy) n

/-- `vctr_chnks_to_lma`. The disk is asked for before the file is made, and not
given back if a chunk cannot be copied. (No chunk has the index `2^32 - 1`, which
its loop would not get past.) -/
def vctrChnksToLma (blank : Nat → List UInt8) (u : Nat) : M Unit := do
  byeIf (u = 0)
  let v ← getVctr u
  if v.isLma then pure ()
  else do
    byeIf (v.isEov = false)
    byeIf v.isMemo
    byeIf v.isEarlyFreeable
    byeIf v.isKillable
    byeIf (v.numElements = 0)
    byeIf (v.width = 0)
    byeIf (v.numReaders ≠ 0)
    byeIf (v.numWriters ≠ 0)
    byeIf (v.x ≠ none)
    let filesz := u64 (v.numElements * v.width)
    byeIf (filesz = 0)
    let s ← get
    byeIf (s.dskAllowed < s.dskUsed)
    byeIf (s.dskAllowed - s.dskUsed < filesz)
    incrDsk filesz
    writeFile (lmaFile u) (blank filesz)
    if lmaIdx ≤ v.maxChnkIdx then ub
    else do
      copyChnks u v filesz 0 0 (v.maxChnkIdx + 1)
      modVctr u fun v => { v with isLma := true }

/-! ## the file -/

variable {s t : St} {u i k n : Nat} {v : VctrVal} {c : ChnkVal} {D : List UInt8}
  {blank : Nat → List UInt8}

/-- The file of a chunk is not the linear file, unless it is that of chunk
`2^24 - 1`. -/
theorem l2FileName_ne_lmaFile (hi : i + 1 < 2 ^ 24) {f : FileName}
    (hf : l2FileName u i = some f) : f ≠ lmaFile u := by
  obtain ⟨-, -, rfl⟩ := l2FileName_eq_some (by unfold lmaIdx; omega) hf
  rw [lmaFile, ne_eq, FileName.l2.injEq]
  omega

/-- The first `k` chunks are in the file; nothing else has changed since `s`. -/
structure Laid (s t : St) (u : Nat) (v : VctrVal) (D : List UInt8) (k : Nat) : Prop where
  vctrs : t.vctrs = s.vctrs
  chnks : t.chnks = s.chnks
  others : ∀ f, f ≠ lmaFile u → t.fs.read f = s.fs.read f
  started : ∀ j, j < k → j * v.maxNumInChnk < v.numElements
  file : ∃ bs, t.fs.read (lmaFile u) = some bs ∧ bs.length = D.length ∧
    D.take (k * (v.width * v.maxNumInChnk)) <+: bs

theorem ends_storeFile {f : FileName} {bs xs : List UInt8} {off : Nat}
    (hf : s.fs.read f = some bs) (hfit : off + xs.length ≤ bs.length) :
    Ends (storeFile f off xs) s (fun _ t => t.vctrs = s.vctrs ∧ t.chnks = s.chnks ∧
      t.fs.read f = some (splice bs off xs) ∧ ∀ g, g ≠ f → t.fs.read g = s.fs.read g)
      fun _ _ => False := by
  rw [Fs.read, Option.map_eq_some_iff] at hf
  obtain ⟨ino, hino, hbs⟩ := hf
  simp only [storeFile, ends_bind, ends_get, hino, hbs, if_pos hfit, ends_modify]
  exact ⟨rfl, rfl, Fs.read_store_self _ hino, fun g hg => Fs.read_store_of_ne _ hino hg⟩

/-- Whatever holds the chunk, its page is found. -/
theorem ends_lmaSource {w size : Nat} {want : List UInt8} {lma : Bool}
    (hc : s.chnks (u, i) = some c) (hok : ChnkOk s.fs False lma u i w size want c)
    (hpos : want ≠ []) :
    Ends (lmaSource u i c) s (fun r t => t.vctrs = s.vctrs ∧ t.chnks = s.chnks ∧ t.fs = s.fs ∧
      ∃ bs, r = some bs ∧ want <+: bs) fun e _ => e ≠ .ub := by
  rw [lmaSource]
  cases hm : c.l1Mem with
  | some b =>
      have hw : ¬ c.numWriters > 0 := by
        rw [hok.writers]
        decide
      have hback : ({ c with numReaders := c.numReaders + 1 - 1, l1Mem := some b } : ChnkVal) = c := by
        rw [← hm, UInt16.add_sub_cancel]
      simp only [chnkGetData, Bool.false_eq_true, if_false, ends_bind, ends_getChnk_of hc, if_neg hw,
        ends_setChnk, hm, ends_pure]
      rw [ends_getChnk_of St.setChnk_self, ends_byeIf]
      refine ⟨fun _ => by simp, fun _ => ⟨rfl, ?_, rfl, b.bytes, rfl, (hok.l1 b hm).2⟩⟩
      show update (update s.chnks (u, i) _) (u, i)
        (some { c with numReaders := c.numReaders + 1 - 1, l1Mem := some b }) = _
      rw [hback, update_idem, ← hc, update_eq_self]
  | none =>
      simp only [ends_bind, ends_byeIf, ends_l2Name, ends_mmapBytes, ends_pure]
      refine ⟨fun _ => by simp, fun he => ⟨fun _ => by simp, fun f hf => ⟨fun _ => by simp,
        fun bs hbs => ⟨trivial, trivial, trivial, bs, ?_, ?_⟩⟩⟩⟩
      · obtain ⟨f', bs', hf', hr, -, hw⟩ := hok.l2 (by simpa using he)
        cases hf.symm.trans hf'
        cases hbs.symm.trans hr
        have hne : bs ≠ [] := by
          rintro rfl
          exact hpos (List.prefix_nil.mp (hw (.inr hm)))
        rw [if_neg hne]
      · obtain ⟨f', bs', hf', hr, -, hw⟩ := hok.l2 (by simpa using he)
        cases hf.symm.trans hf'
        cases hbs.symm.trans hr
        exact hw (.inr hm)

section Copy

variable (h : Held False s u v D) (hnames : v.maxChnkIdx + 1 < 2 ^ 24)
include h hnames

/-- A round lays the next page down behind those before it. -/
theorem Held.ends_copyChnk (ht : Laid s t u v D i) (hi : i ≤ v.maxChnkIdx) :
    Ends (copyChnk u v D.length i (min (i * (v.width * v.maxNumInChnk)) D.length)) t
      (fun r t' => min (i * (v.width * v.maxNumInChnk)) D.length + r =
        min ((i + 1) * (v.width * v.maxNumInChnk)) D.length ∧ Laid s t' u v D (i + 1))
      fun _ _ => True := by
  rw [copyChnk, ends_bind, ends_getChnk]
  refine ⟨fun _ => trivial, fun c hc => ?_⟩
  have hc' := hc
  rw [ht.chnks] at hc'
  have hok := (h.chnkOk hc').of_read fun f hf => ht.others f (l2FileName_ne_lmaFile (by omega) hf)
  have hn := hok.numElements_eq h.shape
  have hbytes : u32 (c.numElements * v.width) = (v.page D i).length := by
    rw [h.shape.u32_width (by rw [hn]; exact Nat.min_le_left _ _), hok.count]
  have hoff : min (i * (v.width * v.maxNumInChnk)) D.length =
      (D.take (i * (v.width * v.maxNumInChnk))).length := List.length_take.symm
  have hnext : min (i * (v.width * v.maxNumInChnk)) D.length + (v.page D i).length =
      min ((i + 1) * (v.width * v.maxNumInChnk)) D.length := by
    rw [hoff, ← List.length_append, take_append_page, List.length_take]
  simp only [ends_bind, ends_byeIf, implies_true, true_and]
  intro h0 _
  have hne : v.page D i ≠ [] := by
    refine List.ne_nil_of_length_pos ?_
    rw [hok.count]
    exact Nat.mul_pos h.shape.width_pos (Nat.pos_of_ne_zero h0)
  refine (ends_lmaSource hc hok hne).imp ?_ fun _ _ _ => trivial
  rintro _ t1 ⟨hv1, hc1, hf1, bs, rfl, hbs⟩ _
  obtain ⟨file, hfile, hlen, hpre⟩ := ht.file
  simp only [hbytes, ends_bind, ends_takeN, implies_true, and_true]
  intro _
  rw [← List.prefix_iff_eq_take.mp hbs]
  have hfit : min (i * (v.width * v.maxNumInChnk)) D.length + (v.page D i).length ≤ file.length := by
    rw [hnext, hlen]
    exact Nat.min_le_right _ _
  refine (ends_storeFile (by rw [hf1]; exact hfile) hfit).imp ?_ fun _ _ => False.elim
  rintro - t2 ⟨hv2, hc2, hr2, ho2⟩
  refine ⟨hnext, (hv2.trans hv1).trans ht.vctrs, (hc2.trans hc1).trans ht.chnks, fun f hf => ?_,
    fun j hj => ?_, _, hr2, ?_, ?_⟩
  · rw [ho2 f hf, hf1, ht.others f hf]
  · by_cases hji : j = i
    · rw [hji]
      omega
    · exact ht.started j (by omega)
  · rw [length_splice hfit, hlen]
  · rw [← take_append_page, hoff]
    rw [hoff] at hfit
    exact prefix_splice hpre hfit

/-- The rounds lay down the whole. -/
theorem Held.ends_copyChnks (ht : Laid s t u v D i) (hn : i + n = v.maxChnkIdx + 1) :
    Ends (copyChnks u v D.length i (min (i * (v.width * v.maxNumInChnk)) D.length) n) t
      (fun _ t' => Laid s t' u v D (v.maxChnkIdx + 1)) fun _ _ => True := by
  induction n generalizing i t with
  | zero =>
      obtain rfl : i = v.maxChnkIdx + 1 := by omega
      exact ht
  | succ n ih =>
      rw [copyChnks]
      refine (h.ends_copyChnk hnames ht (by omega)).bind fun r t1 h1 => ?_
      rw [h1.1]
      exact ih h1.2 (by omega)

end Copy

/-- Without the first chunk, the copying comes to nothing. -/
theorem ends_copyChnks_none {filesz off : Nat} (hc : s.chnks (u, i) = none) :
    Ends (copyChnks u v filesz i off (n + 1)) s (fun _ _ => False) fun _ _ => True := by
  rw [copyChnks, ends_bind, copyChnk, ends_bind, ends_getChnk]
  refine ⟨fun _ => trivial, fun c hc' => ?_⟩
  rw [hc] at hc'
  contradiction

/-- The vector is held in one file. -/
structure Linear (t : St) (u : Nat) (v : VctrVal) (D : List UInt8) : Prop where
  first : v.minChnkIdx = 0
  last : v.maxChnkIdx * v.maxNumInChnk < v.numElements
  found : t.vctrs u = some { v with isLma := true }
  readers : v.numReaders = 0
  writers : v.numWriters = 0
  x : v.x = none
  file : t.fs.read (lmaFile u) = some D

/-- **`vctr_chnks_to_lma`** writes what the chunks hold to the linear file. -/
theorem Held.ends_vctrChnksToLma (h : Held False s u v D) (hl : v.isLma = false)
    (hnames : v.maxChnkIdx + 1 < 2 ^ 24) (hblank : ∀ n, (blank n).length = n) :
    Ends (vctrChnksToLma blank u) s (fun _ t => Linear t u v D) fun _ _ => True := by
  have hbytes : u64 (v.numElements * v.width) = D.length := by
    rw [h.shape.len, Nat.mul_comm]
    have h1 : v.width * v.numElements ≤ v.width * ((v.maxChnkIdx + 1) * v.maxNumInChnk) :=
      Nat.mul_le_mul_left _ h.shape.hi
    have h2 : (v.maxChnkIdx + 1) * (v.width * v.maxNumInChnk) ≤ 2 ^ 24 * 2 ^ 32 :=
      Nat.mul_le_mul (by omega) h.shape.size_lt.le
    rw [Nat.mul_left_comm] at h1
    exact u64_eq (by omega)
  have hidx : ¬ lmaIdx ≤ v.maxChnkIdx := by
    unfold lmaIdx
    omega
  rw [vctrChnksToLma]
  simp only [ends_bind, ends_byeIf, ends_getVctr_of h.found, hl, Bool.false_eq_true, if_false,
    hbytes, ends_get, ends_writeFile, if_neg hidx, implies_true, true_and]
  intro _ _ _ _ _ _ _ hr hw hx _ _ _
  refine ends_incrDsk (fun _ _ => trivial) fun m r => ?_
  -- the file is there, and blank
  have hstart : Laid s (((s.setDsk m).setRefused r).setFs
      (((s.setDsk m).setRefused r).fs.write (lmaFile u) (blank D.length))) u v D 0 := by
    refine ⟨rfl, rfl, fun f hf => ?_, fun j hj => by omega, _, Fs.read_write_self _, hblank _, ?_⟩
    · exact (Fs.same_write hf).read
    · rw [Nat.zero_mul, List.take_zero]
      exact List.nil_prefix
  by_cases hmin : v.minChnkIdx = 0
  · have hcopy := h.ends_copyChnks hnames hstart (n := v.maxChnkIdx + 1) (Nat.zero_add _)
    rw [Nat.zero_mul, Nat.zero_min] at hcopy
    refine hcopy.imp ?_ fun _ _ _ => trivial
    rintro - t ht
    rw [ends_modVctr_of (by rw [ht.vctrs]; exact h.found)]
    obtain ⟨bs, hbs, hlen, hpre⟩ := ht.file
    rw [List.take_of_length_le (h.shape.len_le h.shape.hi)] at hpre
    rw [← hpre.eq_of_length hlen.symm] at hbs
    exact ⟨hmin, ht.started _ (Nat.lt_succ_self _), St.setVctr_self, by simpa using hr,
      by simpa using hw, by simpa using hx, hbs⟩
  · have hnone : s.chnks (u, 0) = none := h.outside 0 (by omega)
    rw [← hstart.chnks] at hnone
    exact (ends_copyChnks_none hnone).imp (fun _ _ => False.elim) fun _ _ _ => trivial

/-! ## its chunks -/

/-- The size of a chunk in the linear file. -/
def VctrVal.lmaSize (v : VctrVal) : Nat := if v.qtype = .B1 then v.maxNumInChnk / 8 else v.chnkSize

/-- The first reader maps the file. -/
theorem ends_vctrGetLmaXnX {w : VctrVal} (hv : t.vctrs u = some w) (hr : w.numReaders = 0)
    (hfile : t.fs.read (lmaFile u) = some D) (hD : D ≠ []) :
    Ends (vctrGetLmaXnX u) t
      (fun x t' => ∃ m, x = some m ∧ m.len = D.length ∧ m.live = true ∧
        (t'.fs.data m.ino).take m.len = D ∧ ∃ w', t'.vctrs u = some w' ∧ w'.numReaders ≠ 0)
      fun _ _ => False := by
  rw [Fs.read, Option.map_eq_some_iff] at hfile
  obtain ⟨ino, hino, hdata⟩ := hfile
  have hno : ¬ w.numReaders > 0 := by
    rw [hr]
    exact Nat.lt_irrefl 0
  have hone : w.numReaders + 1 < 2 ^ 31 := by
    rw [hr]
    decide
  rw [vctrGetLmaXnX, ends_bind, ends_getVctr_of hv, if_neg hno, ends_bind, ends_rsMmap]
  refine ⟨fun hnone => ?_, fun ino' hino' => ⟨fun hnil => ?_, fun _ => ?_⟩⟩
  · rw [hino] at hnone
    contradiction
  · cases hino.symm.trans hino'
    exact absurd (hdata.symm.trans hnil) hD
  · cases hino.symm.trans hino'
    rw [ends_bind, ends_setVctr, incrNumReaders, ends_bind, ends_bind,
      ends_getVctr_of St.setVctr_self, if_pos hone, ends_setVctr, ends_pure]
    refine ⟨_, rfl, by rw [hdata], rfl, ?_, _, St.setVctr_self, Nat.succ_ne_zero _⟩
    show (t.fs.data ino).take (t.fs.data ino).length = D
    rw [List.take_length, hdata]

/-- What `vctr_get_chunk` cuts out of the file, and where it refuses to. -/
theorem Linear.ends_vctrGetChunk (h : Linear t u v D) (hD : D ≠ []) (hw : 0 < v.width) :
    Ends (vctrGetChunk u i) t
      (fun r _ => v.lmaSize * i ≤ D.length ∧
        r.num = min (D.length - v.lmaSize * i) v.lmaSize / v.width ∧
        r.bytes = (D.drop (v.lmaSize * i)).take (min (D.length - v.lmaSize * i) v.lmaSize))
      fun e _ => e = .bye (-1) ∧ D.length < v.lmaSize * i := by
  have hw0 : ¬ v.width = 0 := Nat.ne_of_gt hw
  rw [vctrGetChunk, ends_bind, ends_getVctr_of h.found, if_pos rfl, vctrGetChunkLma, ends_bind,
    ends_getVctr_of h.found, ends_bind, ends_byeIf_neg (by simp), ends_bind,
    ends_byeIf_neg (by simp [h.writers]), ends_bind]
  refine (ends_vctrGetLmaXnX h.found h.readers h.file hD).imp ?_ fun _ _ => False.elim
  rintro _ t' ⟨m, rfl, hlen, -, hdata, -⟩
  have hnX : nX (some m) = D.length := hlen
  simp only [ends_bind, ends_byeIf, ends_get, hnX, if_neg hw0, ends_pure, mappedFrom, hdata]
  constructor
  · intro hgt
    exact ⟨trivial, hgt⟩
  · intro hle
    refine ⟨Nat.le_of_not_lt hle, rfl, ?_⟩
    rw [show (if v.qtype = .B1 then v.maxNumInChnk / 8
      else VctrVal.chnkSize { v with isLma := true }) = v.lmaSize from rfl]

end QStore.Vctr
