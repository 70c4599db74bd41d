import QStore.Vctr.Synced

/-!
# QStore.Vctr.LmaSynced

A vector whose copies all agree, laid out in its linear file and brought back from it.

The linear file is written from the chunks and the chunks from the linear file. Whichever is
written holds what the other held, and what was there before stays. A call that fails on its
way leaves a vector that is as good.
-/

namespace QStore.Vctr

open Function

variable {s t : St} {u i n off level : Nat} {v : VctrVal} {c : ChnkVal} {D : List UInt8}
  {blank : Nat → List UInt8} {m : Mapping}

/-- A store to a mapped file leaves all others alone. -/
theorem ends_storeFile_same {f : FileName} {bs xs : List UInt8} (hf : s.fs.read f = some bs)
    (hfit : off + xs.length ≤ bs.length) :
    Ends (storeFile f off xs) s (fun _ t => t.vctrs = s.vctrs ∧ t.chnks = s.chnks ∧
      t.fs.read f = some (splice bs off xs) ∧ ∀ g, g ≠ f → s.fs.Same t.fs g)
      fun _ _ => False := by
  rw [Fs.read, Option.map_eq_some_iff] at hf
  obtain ⟨ino, hino, hbs⟩ := hf
  simp only [storeFile, ends_bind, ends_get, hino, hbs, if_pos hfit, ends_modify]
  exact ⟨rfl, rfl, Fs.read_store_self _ hino, fun g hg => Fs.same_store hino hg⟩

/-- A file that is not empty can be mapped. -/
theorem ends_rsMmap_of {f : FileName} {bs : List UInt8} (hf : s.fs.read f = some bs) (hbs : bs ≠ []) :
    Ends (rsMmap f) s (fun x t => t = s.bump ∧ ∃ m, x = some m ∧ m.live = true ∧
      m.len = bs.length ∧ s.fs.dir f = some m.ino) fun _ _ => False := by
  rw [Fs.read, Option.map_eq_some_iff] at hf
  obtain ⟨ino, hino, rfl⟩ := hf
  rw [ends_rsMmap]
  refine ⟨fun hnone => by simp [hino] at hnone, fun ino' hino' => ?_⟩
  obtain rfl := Option.some.inj (hino.symm.trans hino')
  exact ⟨fun hnil => absurd hnil hbs, fun _ => ⟨rfl, _, rfl, rfl, rfl, hino⟩⟩

/-! ## from the chunks to the linear file -/

namespace Synced

/-- A vector without a linear file does not depend on what is at its name. -/
theorem relay (h : Synced s u v D) (hl : v.isLma = false) (hv : t.vctrs = s.vctrs)
    (hc : t.chnks = s.chnks) (hf : ∀ f, f ≠ lmaFile u → t.fs.read f = s.fs.read f) :
    Synced t u v D := by
  have hsame : ({ v with isLma := false } : VctrVal) = v := by rw [← hl]
  have hnew := h.relinear false v.numReaders v.x
    (by rw [hv, h.held.found]; exact congrArg some hsame.symm) hc hf
    h.unmapped (fun _ => h.held.backed hl) fun h => by contradiction
  rwa [show ({ v with isLma := false, numReaders := v.numReaders, x := v.x } : VctrVal) = v from
    hsame] at hnew

/-- A chunk to copy is read, or counted as read where the copy fails. -/
theorem ends_lmaSource (h : Synced s u v D) (hc : s.chnks (u, i) = some c) :
    Ends (lmaSource u i c) s (fun _ _ => True) fun _ t => Synced t u v D := by
  rw [lmaSource]
  cases hm : c.l1Mem with
  | some b =>
      have hw : ¬ c.numWriters > 0 := by simp [(h.held.chnkOk hc).writers]
      simp only [chnkGetData, Bool.false_eq_true, if_false, ends_bind, ends_getChnk_of hc, if_neg hw,
        ends_setChnk, hm, ends_pure]
      rw [ends_getChnk_of St.setChnk_self, ends_byeIf]
      refine ⟨fun _ => ?_, fun _ => trivial⟩
      rw [← hm]
      exact h.reread hc _
  | none =>
      simp only [ends_bind, ends_byeIf, ends_l2Name, ends_mmapBytes, ends_pure]
      exact ⟨fun _ => h, fun _ => ⟨fun _ => h, fun _ _ => ⟨fun _ => h, fun _ _ => trivial⟩⟩⟩

/-- One round of the copy. -/
theorem ends_copyChnk (h : Synced s u v D) (hl : v.isLma = false) (hi : i ≤ v.maxChnkIdx)
    (hfile : ∃ bs, s.fs.read (lmaFile u) = some bs ∧ bs.length = D.length) :
    Ends (copyChnk u v D.length i off) s
      (fun _ t => Synced t u v D ∧ ∃ bs, t.fs.read (lmaFile u) = some bs ∧ bs.length = D.length)
      fun e t => e ≠ .ub ∧ Synced t u v D := by
  obtain ⟨c, hc, hok⟩ := h.inside hi
  have hn := hok.numElements_eq h.held.shape
  have hbytes : u32 (c.numElements * v.width) = (v.page D i).length := by
    rw [h.held.shape.u32_width (by rw [hn]; exact Nat.min_le_left _ _), hok.count]
  simp only [copyChnk, ends_bind, ends_getChnk_of hc, ends_byeIf]
  refine ⟨fun _ => ⟨by simp, h⟩, fun h0 => ⟨fun _ => ⟨by simp, h⟩, fun _ => ?_⟩⟩
  have hpos : 0 < (v.page D i).length := by
    rw [hok.count]
    exact Nat.mul_pos h.held.shape.width_pos (Nat.pos_of_ne_zero h0)
  refine ((QStore.Vctr.ends_lmaSource hc hok.loosen (List.ne_nil_of_length_pos hpos)).and
    (h.ends_lmaSource hc)).imp ?_ fun e t he => he
  rintro _ t ⟨⟨hv, hc', hf, bs, rfl, hbs⟩, -⟩
  have ht : Synced t u v D := h.relay hl hv hc' fun f _ => by rw [hf]
  obtain ⟨file, hread, hlen⟩ := hfile
  refine ⟨fun _ => ⟨by simp, ht⟩, fun hfit => ?_⟩
  rw [hbytes] at hfit
  simp only [ends_bind, hbytes, ends_takeN]
  refine ⟨fun _ => ?_, fun hlong => absurd hbs.length_le hlong⟩
  rw [← List.prefix_iff_eq_take.mp hbs]
  have hin : off + (v.page D i).length ≤ file.length := by omega
  refine (ends_storeFile (by rw [hf]; exact hread) hin).imp ?_ fun _ _ => False.elim
  rintro - t' ⟨hv', hc'', hr', ho'⟩
  exact ⟨ht.relay hl hv' hc'' ho', _, hr', by rw [length_splice hin, hlen]⟩

/-- All rounds of the copy. -/
theorem ends_copyChnks (h : Synced s u v D) (hl : v.isLma = false) (hn : i + n = v.maxChnkIdx + 1)
    (hfile : ∃ bs, s.fs.read (lmaFile u) = some bs ∧ bs.length = D.length) :
    Ends (copyChnks u v D.length i off n) s (fun _ _ => True)
      fun e t => e ≠ .ub ∧ Synced t u v D := by
  induction n generalizing i off s with
  | zero => trivial
  | succ n ih =>
      rw [copyChnks]
      refine (h.ends_copyChnk hl (by omega) hfile).bind fun r t ht => ?_
      exact ih ht.1 (by omega) ht.2

/-- **`vctr_chnks_to_lma`** -/
theorem ends_vctrChnksToLma (h : Synced s u v D) (hblank : ∀ n, (blank n).length = n) :
    Ends (vctrChnksToLma blank u) s (fun _ t => ∃ b, Synced t u { v with isLma := b } D)
      fun e t => e ≠ .ub ∧ Synced t u v D := by
  have hbye : Err.bye (-1) ≠ .ub ∧ Synced s u v D := ⟨by simp, h⟩
  have hnames := h.names
  have hshape := h.held.shape
  have hbytes : u64 (v.numElements * v.width) = D.length := by
    rw [hshape.len, Nat.mul_comm]
    have h1 : v.width * v.numElements ≤ v.width * ((v.maxChnkIdx + 1) * v.maxNumInChnk) :=
      Nat.mul_le_mul_left _ hshape.hi
    have h2 : (v.maxChnkIdx + 1) * (v.width * v.maxNumInChnk) ≤ 2 ^ 24 * 2 ^ 32 :=
      Nat.mul_le_mul (by omega) hshape.size_lt.le
    rw [Nat.mul_left_comm] at h1
    exact u64_eq (by omega)
  have hidx : ¬ lmaIdx ≤ v.maxChnkIdx := by
    unfold lmaIdx
    omega
  simp only [vctrChnksToLma, ends_bind, ends_byeIf, ends_getVctr_of h.held.found, ends_ite,
    ends_pure, hbytes, ends_get, ends_writeFile]
  refine ⟨fun _ => hbye, fun _ => ⟨fun _ => ⟨v.isLma, h⟩, fun hl => ?_⟩⟩
  rw [Bool.not_eq_true] at hl
  -- the checks
  iterate 6 refine ⟨fun _ => hbye, fun _ => ?_⟩
  refine ⟨fun _ => hbye, fun hr => ⟨fun _ => hbye, fun _ => ⟨fun _ => hbye, fun hx => ?_⟩⟩⟩
  iterate 3 refine ⟨fun _ => hbye, fun _ => ?_⟩
  refine ends_incrDsk (fun _ b => ⟨by simp, h.relay hl rfl rfl fun _ _ => rfl⟩) fun k b => ?_
  -- the file is there, and blank
  have hwrite : ∀ f, f ≠ lmaFile u →
      (s.fs.write (lmaFile u) (blank D.length)).read f = s.fs.read f :=
    fun f hf => (Fs.same_write hf).read
  have hstart : Laid s (((s.setDsk k).setRefused b).setFs
      (((s.setDsk k).setRefused b).fs.write (lmaFile u) (blank D.length))) u v D 0 := by
    refine ⟨rfl, rfl, hwrite, fun j hj => by omega, _, Fs.read_write_self _, hblank _, ?_⟩
    rw [Nat.zero_mul, List.take_zero]
    exact List.nil_prefix
  have hcopy := h.held.loosen.ends_copyChnks hnames hstart (n := v.maxChnkIdx + 1) (Nat.zero_add _)
  rw [Nat.zero_mul, Nat.zero_min] at hcopy
  refine ⟨fun hge => absurd hge hidx, fun _ => ?_⟩
  refine (hcopy.and ((h.relay hl hstart.vctrs hstart.chnks hstart.others).ends_copyChnks hl
    (Nat.zero_add _) ⟨_, Fs.read_write_self _, hblank _⟩)).imp ?_ fun e t he => he.2
  rintro - t ⟨ht, -⟩
  rw [ends_modVctr_of (by rw [ht.vctrs]; exact h.held.found)]
  obtain ⟨bs, hbs, hlen, hpre⟩ := ht.file
  rw [List.take_of_length_le (hshape.len_le hshape.hi)] at hpre
  rw [← hpre.eq_of_length hlen.symm] at hbs
  refine ⟨true, h.relinear true v.numReaders v.x St.setVctr_self ht.chnks ht.others
    h.unmapped (fun h => by contradiction) fun _ => ⟨hbs, fun h => ?_⟩⟩
  exact absurd (by simpa using hr) h

/-! ## from the linear file to the chunks -/

/-- Where page `i` is in the linear file. -/
theorem page_of_lma (h : Synced s u v D) (hi : i ≤ v.maxChnkIdx)
    (hwide : v.width * v.maxChnkIdx < 2 ^ 32) :
    u64 (u32 (v.width * i) * v.maxNumInChnk) + (v.page D i).length ≤ D.length ∧
      (D.drop (u64 (u32 (v.width * i) * v.maxNumInChnk))).take (v.page D i).length =
        v.page D i := by
  have hshape := h.held.shape
  have hnames := h.names
  have hwi : v.width * i ≤ v.width * v.maxChnkIdx := Nat.mul_le_mul_left _ hi
  have hoff : u64 (u32 (v.width * i) * v.maxNumInChnk) = i * (v.width * v.maxNumInChnk) := by
    rw [u32_eq (by omega), Nat.mul_comm v.width i, Nat.mul_assoc]
    refine u64_eq (Nat.lt_of_lt_of_le (Nat.mul_lt_mul_of_le_of_lt (c := 2 ^ 24) ?_ hshape.size_lt ?_) ?_)
    all_goals omega
  have hin : i * (v.width * v.maxNumInChnk) ≤ D.length :=
    hshape.le_len ((Nat.mul_le_mul_right _ hi).trans hshape.lo)
  have hlen : (v.page D i).length =
      min (v.width * v.maxNumInChnk) (D.length - i * (v.width * v.maxNumInChnk)) := length_page
  rw [hoff]
  refine ⟨by omega, ?_⟩
  rw [hlen, ← List.length_drop]
  exact List.take_eq_take_min.symm

/-- What is copied from the linear file is the chunk's page. -/
theorem ends_copyFromLma (h : Synced s u v D) (hl : v.isLma = true) (hc : s.chnks (u, i) = some c)
    (hl2 : c.l2Exists = false)
    (hlive : m.live = true) (hlen : m.len = D.length) (hdir : s.fs.dir (lmaFile u) = some m.ino)
    (hwide : v.width * v.maxChnkIdx < 2 ^ 32) (hblank : ∀ n, (blank n).length = n) :
    Ends (copyFromLma blank u v (some m) level i) s
      (fun _ t => Synced t u v D ∧ t.fs.dir (lmaFile u) = some m.ino ∧ ∃ c', t.chnks (u, i) = some c')
      fun e t => e ≠ .ub ∧ Synced t u v D := by
  have hi := h.mem_window hc
  have hok := h.held.chnkOk hc
  have hnames := h.names
  have hsize := hok.size_eq
  have hfits := hok.fits
  obtain ⟨hfit, hpage⟩ := h.page_of_lma hi hwide
  have hdata : (s.fs.data m.ino).take m.len = D := by
    rw [(h.line hl).data hdir, hlen, List.take_length]
  have hbytes : u32 (v.width * c.numElements) = (v.page D i).length := by
    rw [hok.count, u32_eq]
    exact Nat.lt_of_le_of_lt (hok.count ▸ hok.fits) h.held.shape.size_lt
  rw [copyFromLma, ends_bind, ends_getChnk_of hc, hbytes]
  split
  · -- into memory
    simp only [ends_bind, ends_memalign, ends_readMapping, hlive, if_true, ends_slice, St.bump_fs,
      hdata, hpage, ends_poke, ends_setChnk]
    refine ⟨fun _ => ⟨fun hpoke => ends_ignore_incrMem fun k r => ⟨?_, hdir, _, St.setChnk_self⟩,
      fun hlong => absurd (by simp; omega) hlong⟩, fun hlong => absurd hfit hlong⟩
    refine h.retier hi ⟨rfl, rfl, fun _ _ => Fs.Same.refl⟩ (hok.setL1 ?_ ?_) ?_
    · rw [length_splice (by exact hpoke), List.length_replicate, hsize]
    · exact prefix_splice List.nil_prefix (by exact hpoke)
    · intro d f _ _ hf
      exact h.tidy i c f hc hl2 hf
  · -- into a file
    simp only [ends_bind, ends_byeIf, hl2, Bool.false_eq_true, false_implies, not_false_eq_true,
      true_implies, true_and, ends_l2Name, ends_writeFile]
    refine ⟨fun _ => ⟨by simp, h⟩, fun f hf => ?_⟩
    have hne : lmaFile u ≠ f := (l2FileName_ne_lmaFile (by omega) hf).symm
    have hsame : s.fs.Same (s.fs.write f (blank c.size)) (lmaFile u) := Fs.same_write hne
    have hnil : blank c.size ≠ [] := by
      refine List.ne_nil_of_length_pos ?_
      rw [hblank, hsize]
      exact h.size_pos
    refine (ends_rsMmap_of (Fs.read_write_self s.fs) hnil).imp ?_ fun _ _ => False.elim
    rintro _ _ ⟨rfl, -⟩
    have hdata' : ((s.fs.write f (blank c.size)).data m.ino).take m.len = D := by
      rw [hsame.data _ hdir, hdata]
    simp only [ends_readMapping, hlive, if_true, ends_slice, St.bump_fs, St.setFs_fs, hdata', hpage]
    refine ⟨fun _ => ?_, fun hlong => absurd hfit hlong⟩
    have hstore : 0 + (v.page D i).length ≤ (blank c.size).length := by
      rw [hblank, hsize]
      omega
    refine (ends_storeFile_same (Fs.read_write_self s.fs) hstore).imp ?_ fun _ _ => False.elim
    rintro - t ⟨hv, hc', hr, ho⟩
    rw [ends_setChnk, ends_ignoreStatus]
    have hfiles : ∀ g, g ≠ f → s.fs.Same t.fs g := fun g hg => (Fs.same_write hg).trans (ho g hg)
    have hkept : ∀ k r, Synced (((t.setChnk u i { c with l2Exists := true }).setDsk k).setRefused r)
        u v D := by
      intro k r
      have hset : ((((t.setChnk u i { c with l2Exists := true }).setDsk k).setRefused r)).chnks =
          update s.chnks (u, i) (some { c with l2Exists := true }) := by
        show update t.chnks (u, i) _ = _
        rw [hc']
        rfl
      refine h.retier hi ⟨hv, hset, fun g hg => hfiles g ?_⟩ ?_ ?_
      · exact fun e => hg (by rw [e, hf])
      · refine { hok with l1 := hok.l1, l2 := fun _ => ⟨f, _, hf, hr, ?_, fun _ => ?_⟩, kept := ?_ }
        · rw [length_splice hstore, hblank, hsize]
        · exact prefix_splice List.nil_prefix hstore
        · exact fun _ he => by contradiction
      · intro d g hd he
        obtain rfl := Option.some.inj (St.setChnk_self.symm.trans hd)
        contradiction
    have hend : ∀ k r, Synced (((t.setChnk u i { c with l2Exists := true }).setDsk k).setRefused r)
        u v D ∧ t.fs.dir (lmaFile u) = some m.ino ∧ ∃ c', (t.setChnk u i { c with l2Exists := true }).chnks
          (u, i) = some c' :=
      fun k r => ⟨hkept k r, by rw [(hfiles _ hne).dir, hdir], _, St.setChnk_self⟩
    exact ends_incrDsk (fun _ r => hend t.dskUsed r) fun k r => hend k r

/-- **One round** leaves a chunk with a tier of its own. -/
theorem ends_resurrectChnk (h : Synced s u v D) (hl : v.isLma = true)
    (hlive : m.live = true) (hlen : m.len = D.length) (hdir : s.fs.dir (lmaFile u) = some m.ino)
    (hwide : v.width * v.maxChnkIdx < 2 ^ 32) (hblank : ∀ n, (blank n).length = n) :
    Ends (resurrectChnk blank u v (some m) level i) s
      (fun _ t => Synced t u v D ∧ t.fs.dir (lmaFile u) = some m.ino)
      fun e t => e ≠ .ub ∧ Synced t u v D := by
  rw [resurrectChnk, ends_bind, ends_getChnk]
  refine ⟨fun _ => ⟨by simp, h⟩, fun c hc => ?_⟩
  have hok := h.held.chnkOk hc
  rw [ends_bind]
  by_cases hm : c.l1Mem = none → c.l2Exists = true
  · refine (ends_chnkGetData hc hok hm).imp ?_ fun _ _ => False.elim
    rintro _ t ⟨b, rfl, hb, hw, ht⟩
    rw [ends_modChnk_of ht.self]
    exact ⟨(h.reload hc ht hb hw).reread ht.self _, by rw [St.setChnk_fs, ht.fs, hdir]⟩
  · obtain ⟨hl1, hl2⟩ := Classical.not_imp.mp hm
    rw [Bool.not_eq_true] at hl2
    have hw : ¬ c.numWriters > 0 := by simp [hok.writers]
    have hread := h.reread hc (c.numReaders + 1)
    simp only [chnkGetData, Bool.false_eq_true, if_false, ends_bind, ends_getChnk_of hc, if_neg hw,
      ends_setChnk, hl1, if_pos hl2, ends_pure]
    rw [hl1] at hread
    refine (hread.ends_copyFromLma hl St.setChnk_self hl2 hlive hlen hdir hwide hblank).imp ?_
      fun _ _ => id
    rintro - t ⟨ht, hdir', c', hc'⟩
    rw [ends_modChnk_of hc']
    exact ⟨ht.reread hc' _, hdir'⟩

/-- **`vctr_lma_to_chnks`** -/
theorem ends_vctrLmaToChnks (h : Synced s u v D) (hwide : v.width * v.maxChnkIdx < 2 ^ 32)
    (hblank : ∀ n, (blank n).length = n) :
    Ends (vctrLmaToChnks blank u level) s (fun _ t => Synced t u v D)
      fun e t => e ≠ .ub ∧ Synced t u v D := by
  have hbye : Err.bye (-1) ≠ .ub ∧ Synced s u v D := ⟨by simp, h⟩
  simp only [vctrLmaToChnks, ends_bind, ends_byeIf, ends_getVctr_of h.held.found]
  refine ⟨fun _ => hbye, fun _ => ⟨fun _ => hbye, fun _ => ⟨fun _ => hbye, fun hl => ?_⟩⟩⟩
  iterate 4 refine ⟨fun _ => hbye, fun _ => ?_⟩
  refine ⟨fun _ => hbye, fun hr => ⟨fun _ => hbye, fun _ => ?_⟩⟩
  have hlma : v.isLma = true := by simpa using hl
  have hline := h.line hlma
  have hx : v.x = none := h.unmapped (by simpa using hr)
  rw [ends_mmapBytes]
  refine ⟨fun _ => hbye, fun bs _ => ⟨fun _ => hbye, fun _ => ?_⟩⟩
  simp only [hx, ends_bind]
  refine (ends_rsMmap_of hline.file h.ne_nil).imp ?_ fun _ _ => False.elim
  rintro _ _ ⟨rfl, m, rfl, hlive, hlen, hdir⟩
  have hbump : Synced s.bump u v D := h.congr rfl rfl rfl
  rw [ends_byeIf, ends_byeIf]
  refine ⟨fun _ => ⟨by simp, hbump⟩, fun _ => ⟨fun _ => ⟨by simp, hbump⟩, fun _ => ?_⟩⟩
  refine (Ends.forUp (fun _ t => Synced t u v D ∧ t.fs.dir (lmaFile u) = some m.ino) _ _ _
    ⟨hbump, hdir⟩ fun i t _ _ ht =>
      ht.1.ends_resurrectChnk hlma hlive hlen ht.2 hwide hblank).imp ?_ fun _ _ => id
  rintro - t ⟨ht, -⟩
  rw [ends_modVctr_of ht.held.found]
  refine ht.congr ?_ rfl rfl
  show update t.vctrs u (some { v with x := v.x.map _ }) = t.vctrs
  rw [hx, Option.map_none, ← hx, ← ht.held.found, update_eq_self]

end Synced

end QStore.Vctr
