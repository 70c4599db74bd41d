import QStore.Cntr.Permutation

/-!
# QStore.Cntr.Condense

`KeyCounter:condense`: a field of the full buckets, in the order of the buckets, as a vector.

Its generator goes through the buckets up to and including number `size`, one more than there
are.  So it always reads `bkt_full` behind its end, and as long as what it finds there is zero
the vector is the right one: a buffer that the last full bucket fills is noticed in the round
after it, of which there always is one.
-/

namespace QStore.Cntr

open QStore.Hmap QStore.Operators

/-- The fields of a bucket that can be condensed; the others come from `auxvals`. -/
inductive Fld
  | count
  | guid
  | idx

section Condense

variable {K : Type} (h : RsHmap K Val) (fld : Fld) (bufsz limit : Nat)

/-- What is put into the buffer for bucket `i`. -/
def Fld.value : Fld → Nat → Nat
  | .count, i => (h.bkts i).val.count
  | .guid, i => (h.bkts i).val.guid
  | .idx, i => i

/-- The loop over so many buckets, from `i` on: the buffer, and where to start from the next
time if it says so. `none`: it reads `bkt_full` or `bkts` at `limit` or behind. -/
def condenseLoop : Nat → Nat → List Nat → Option (List Nat × Option Nat)
  | 0, _, buf => some (buf, none)
  | n + 1, i, buf =>
    if buf.length = bufsz then some (buf, some i)
    else if limit ≤ i then none
    else condenseLoop n (i + 1) (if h.bktFull i then buf ++ [fld.value h i] else buf)

/-- What the generator keeps between calls. -/
structure CondenseState where
  offset : Nat
  isEov : Bool

/-- `for i = start, self._H[0].size do` goes to `size` itself. -/
def condenseGen : Gen CondenseState Nat := fun s _ =>
  if s.isEov then none
  else
    (condenseLoop h fld bufsz limit (h.size + 1 - s.offset) s.offset []).map fun r =>
      (r.1, ⟨r.2.getD s.offset, decide (r.1.length < bufsz)⟩)

def condenseStart : CondenseState := ⟨0, false⟩

/-- The field, of the full ones among so many buckets. -/
def fullFrom (i n : Nat) : List Nat := ((List.range' i n).filter h.bktFull).map (fld.value h)

/-- The vector is the field of all full buckets, one entry for each item, without a read at
`limit` or behind. -/
def Condensed : Prop :=
  ∃ outs, Pulls (condenseGen h fld bufsz limit) bufsz condenseStart 0 outs ∧
    outs.flatten = fullFrom h fld 0 h.size ∧ outs.flatten.length = h.nitems

end Condense

variable {K : Type} {h : RsHmap K Val} {fld : Fld} {bufsz limit i j n o : Nat} {buf : List Nat}

/-! ## One call -/

theorem fullFrom_succ : fullFrom h fld i (n + 1) =
    (if h.bktFull i then [fld.value h i] else []) ++ fullFrom h fld (i + 1) n := by
  rw [fullFrom, fullFrom, List.range'_succ, List.filter_cons]
  split <;> rfl

theorem fullFrom_add (m : Nat) :
    fullFrom h fld i (m + n) = fullFrom h fld i m ++ fullFrom h fld (i + m) n := by
  rw [fullFrom, fullFrom, fullFrom, List.range'_append_1.symm, List.filter_append, List.map_append]

/-- The last of the buckets makes the difference. -/
theorem fullFrom_last : fullFrom h fld i (n + 1) =
    fullFrom h fld i n ++ if h.bktFull (i + n) then [fld.value h (i + n)] else [] := by
  rw [fullFrom_add, fullFrom_succ]
  simp [fullFrom]

/-- The loop takes all it is to take, or stops with the buffer full. -/
theorem condenseLoop_ends (h : RsHmap K Val) (fld : Fld) (buf : List Nat)
    (hlim : i + n ≤ limit) (hbuf : buf.length ≤ bufsz) :
    (condenseLoop h fld bufsz limit n i buf = some (buf ++ fullFrom h fld i n, none) ∧
      (buf ++ fullFrom h fld i n).length ≤ bufsz) ∨
    ∃ m < n, condenseLoop h fld bufsz limit n i buf =
        some (buf ++ fullFrom h fld i m, some (i + m)) ∧
      (buf ++ fullFrom h fld i m).length = bufsz := by
  induction n generalizing i buf with
  | zero => simp [condenseLoop, fullFrom, hbuf]
  | succ n ih =>
      rw [condenseLoop]
      by_cases hfull : buf.length = bufsz
      · exact Or.inr ⟨0, by omega, by simp [hfull, fullFrom], by simpa [fullFrom] using hfull⟩
      · rw [if_neg hfull, if_neg (by omega)]
        have happ : (if h.bktFull i then buf ++ [fld.value h i] else buf) =
            buf ++ if h.bktFull i then [fld.value h i] else [] := by
          split <;> simp
        have hone : (buf ++ if h.bktFull i then [fld.value h i] else []).length ≤ bufsz := by
          rw [List.length_append]
          split <;> simp <;> omega
        rw [happ]
        cases ih (i := i + 1) _ (by omega) hone with
        | inl hall =>
            rw [List.append_assoc, ← fullFrom_succ] at hall
            exact Or.inl hall
        | inr hstop =>
            obtain ⟨m, hm, hrun, hlen⟩ := hstop
            rw [List.append_assoc, ← fullFrom_succ] at hrun hlen
            exact Or.inr ⟨m + 1, by omega, by rw [hrun, Nat.add_assoc, Nat.add_comm 1 m], hlen⟩

/-- A loop that would read behind the limit stops before, with the buffer full. -/
theorem stops_of_limit {r : List Nat × Option Nat} (hlim : limit < i + n)
    (hrun : condenseLoop h fld bufsz limit n i buf = some r) (hi : i ≤ limit) :
    r.1.length = bufsz ∧ ∃ o, r.2 = some o ∧ o ≤ limit := by
  induction n generalizing i buf with
  | zero => omega
  | succ n ih =>
      rw [condenseLoop] at hrun
      by_cases hfull : buf.length = bufsz
      · rw [if_pos hfull] at hrun
        cases hrun
        exact ⟨hfull, i, rfl, hi⟩
      · rw [if_neg hfull] at hrun
        by_cases hle : limit ≤ i
        · rw [if_pos hle] at hrun
          cases hrun
        · rw [if_neg hle] at hrun
          exact ih (by omega) hrun (by omega)

/-! ## All calls -/

variable {s t : CondenseState} {k : Nat} {out : List Nat} {outs : List (List Nat)}

theorem condenseGen_eq_some (hgen : condenseGen h fld bufsz limit s k = some (out, t)) :
    ∃ o, condenseLoop h fld bufsz limit (h.size + 1 - s.offset) s.offset [] = some (out, o) ∧
      t.offset = o.getD s.offset := by
  rw [condenseGen] at hgen
  split at hgen
  · cases hgen
  · rw [Option.map_eq_some_iff] at hgen
    obtain ⟨r, hr, heq⟩ := hgen
    cases heq
    exact ⟨r.2, hr, rfl⟩

/-- Where bucket number `size` must not be read, no call gives less than a full buffer. -/
theorem not_pulls_of_limit (hlim : limit ≤ h.size) (hs : s.offset ≤ limit) :
    ¬ Pulls (condenseGen h fld bufsz limit) bufsz s k outs := by
  have hcall : ∀ {s t : CondenseState} {k : Nat} {out : List Nat}, s.offset ≤ limit →
      condenseGen h fld bufsz limit s k = some (out, t) →
        out.length = bufsz ∧ t.offset ≤ limit := by
    intro s t k out hs hgen
    obtain ⟨o, hrun, ht⟩ := condenseGen_eq_some hgen
    obtain ⟨hlen, o', ho, hle⟩ := stops_of_limit (by omega) hrun hs
    refine ⟨hlen, ?_⟩
    rw [ht, show o = some o' from ho]
    exact hle
  intro hp
  induction hp with
  | last hgen hn => exact hn (hcall hs hgen).1
  | more hgen _ _ ih => exact ih (hcall hs hgen).2

/-- What is left to come from a bucket on. -/
def leftFrom (h : RsHmap K Val) (fld : Fld) (o : Nat) : List Nat :=
  fullFrom h fld o (h.size + 1 - o)

theorem leftFrom_split (fld : Fld) {m : Nat} (hm : o + m ≤ h.size + 1) :
    leftFrom h fld o = fullFrom h fld o m ++ leftFrom h fld (o + m) := by
  rw [leftFrom, leftFrom, ← fullFrom_add]
  congr 1
  omega

theorem leftFrom_zero : leftFrom h fld 0 = fullFrom h fld 0 h.size ++
    if h.bktFull h.size then [fld.value h h.size] else [] := by
  rw [leftFrom, Nat.sub_zero, fullFrom_last, Nat.zero_add]

/-- If what is behind the end is not full, a call that takes all there is has room left. -/
theorem length_lt_of_empty (hempty : h.bktFull h.size = false) (hpos : 0 < bufsz)
    (ho : o ≤ h.size) {r : List Nat}
    (hrun : condenseLoop h fld bufsz limit (h.size + 1 - o) o [] = some (r, none)) :
    r.length < bufsz := by
  have hlast : ∀ n i buf r, i + n = h.size → buf.length < bufsz →
      condenseLoop h fld bufsz limit (n + 1) i buf = some (r, none) → r.length < bufsz := by
    intro n
    induction n with
    | zero =>
        intro i buf r hi hbuf hrun
        rw [Nat.add_zero] at hi
        rw [condenseLoop, if_neg (Nat.ne_of_lt hbuf)] at hrun
        split at hrun
        · cases hrun
        · rw [hi, hempty, if_neg (by simp), condenseLoop] at hrun
          cases hrun
          exact hbuf
    | succ n ih =>
        intro i buf r hi hbuf hrun
        rw [condenseLoop, if_neg (Nat.ne_of_lt hbuf)] at hrun
        split at hrun
        · cases hrun
        · generalize hnext : (if h.bktFull i then buf ++ [fld.value h i] else buf) = b at hrun
          -- a full buffer is noticed in the next round
          have hb : b.length < bufsz := by
            refine Nat.lt_of_le_of_ne ?_ fun hfull => ?_
            · rw [← hnext]
              split
              · rw [List.length_append, List.length_singleton]
                omega
              · exact Nat.le_of_lt hbuf
            · rw [condenseLoop, if_pos hfull] at hrun
              cases hrun
          exact ih (i + 1) b r (by omega) hb hrun
  have hn : h.size + 1 - o = h.size - o + 1 := by omega
  rw [hn] at hrun
  exact hlast (h.size - o) o [] r (by omega) hpos hrun

theorem pulls_of_empty (fld : Fld) (hlim : h.size < limit) (hempty : h.bktFull h.size = false)
    (hpos : 0 < bufsz) :
    ∃ outs, Pulls (condenseGen h fld bufsz limit) bufsz condenseStart 0 outs ∧
      outs.flatten = fullFrom h fld 0 h.size := by
  apply Pulls.of_pieces (fun s _ rest =>
    s.isEov = false ∧ s.offset ≤ h.size ∧ rest = leftFrom h fld s.offset) hpos
  · intro s k rest hI
    obtain ⟨heov, ho, rfl⟩ := hI
    have hgen : ∀ r, condenseLoop h fld bufsz limit (h.size + 1 - s.offset) s.offset [] = some r →
        condenseGen h fld bufsz limit s k =
          some (r.1, ⟨r.2.getD s.offset, decide (r.1.length < bufsz)⟩) := by
      intro r hr
      rw [condenseGen, heov, if_neg (by simp), hr, Option.map_some]
    have hin : s.offset + (h.size + 1 - s.offset) ≤ limit := by omega
    cases condenseLoop_ends h fld [] hin (Nat.zero_le bufsz) with
    | inl hall =>
        obtain ⟨hrun, -⟩ := hall
        have hlt := length_lt_of_empty hempty hpos ho hrun
        rw [List.nil_append, ← leftFrom] at hrun hlt
        rw [List.take_of_length_le (Nat.le_of_lt hlt)]
        exact ⟨_, hgen _ hrun, fun hmore => absurd hmore (Nat.not_le_of_lt hlt)⟩
    | inr hstop =>
        obtain ⟨m, hm, hrun, hlen⟩ := hstop
        rw [List.nil_append] at hrun hlen
        have hsplit := leftFrom_split fld (show s.offset + m ≤ h.size + 1 by omega)
        rw [hsplit, List.take_left' hlen, List.drop_left' hlen]
        refine ⟨_, hgen _ hrun, fun _ => ⟨?_, ?_, rfl⟩⟩
        · simp [hlen]
        · simp only [Option.getD_some]
          omega
  · refine ⟨rfl, Nat.zero_le _, ?_⟩
    rw [condenseStart, leftFrom_zero, hempty, if_neg (by simp), List.append_nil]

/-- Never less comes out than there is up to and including what is behind the end. -/
theorem length_le_of_pulls (hlim : h.size < limit) (ho : s.offset ≤ h.size)
    (hp : Pulls (condenseGen h fld bufsz limit) bufsz s k outs) :
    (leftFrom h fld s.offset).length ≤ outs.flatten.length := by
  have hcall : ∀ {s t : CondenseState} {k : Nat} {out : List Nat}, s.offset ≤ h.size →
      condenseGen h fld bufsz limit s k = some (out, t) →
        (out = leftFrom h fld s.offset ∨ out.length = bufsz) ∧ t.offset ≤ h.size ∧
          (leftFrom h fld s.offset).length ≤ out.length + (leftFrom h fld t.offset).length := by
    intro s t k out ho hgen
    obtain ⟨o, hrun, ht⟩ := condenseGen_eq_some hgen
    have hin : s.offset + (h.size + 1 - s.offset) ≤ limit := by omega
    cases condenseLoop_ends h fld [] hin (Nat.zero_le bufsz) with
    | inl hall =>
        rw [List.nil_append, ← leftFrom] at hall
        cases hrun.symm.trans hall.1
        rw [Option.getD_none] at ht
        exact ⟨Or.inl rfl, ht ▸ ho, Nat.le_add_right _ _⟩
    | inr hstop =>
        obtain ⟨m, hm, hstop, hlen⟩ := hstop
        rw [List.nil_append] at hstop hlen
        cases hrun.symm.trans hstop
        rw [Option.getD_some] at ht
        refine ⟨Or.inr hlen, by omega, ?_⟩
        rw [leftFrom_split fld (show s.offset + m ≤ h.size + 1 by omega), List.length_append, ht]
  induction hp with
  | last hgen hn =>
      cases (hcall ho hgen).1 with
      | inl heq => simp [heq]
      | inr hlen => exact absurd hlen hn
  | more hgen _ _ ih =>
      obtain ⟨-, hnext, hle⟩ := hcall ho hgen
      have hrest := ih hnext
      rw [List.flatten_cons, List.length_append]
      omega

/-- The vector is the right one exactly where what is read behind the end may be read and is
not full. -/
theorem condensed_iff (fld : Fld) (hpos : 0 < bufsz)
    (hn : h.nitems = (fullFrom h fld 0 h.size).length) :
    Condensed h fld bufsz limit ↔ h.size < limit ∧ h.bktFull h.size = false := by
  constructor
  · intro hc
    obtain ⟨outs, hp, hflat, -⟩ := hc
    have hlim : h.size < limit := by
      by_contra hle
      exact not_pulls_of_limit (by omega) (Nat.zero_le limit) hp
    refine ⟨hlim, ?_⟩
    by_contra hfull
    have hlen := length_le_of_pulls hlim (Nat.zero_le _) hp
    rw [hflat, condenseStart, leftFrom_zero, if_pos (by simpa using hfull), List.length_append,
      List.length_singleton] at hlen
    omega
  · intro hc
    obtain ⟨outs, hp, hflat⟩ := pulls_of_empty fld hc.1 hc.2 hpos
    exact ⟨outs, hp, hflat, by rw [hflat, hn]⟩

theorem Counted.condensed_iff [Zero K] [DecidableEq K] {setHash : K → UInt64 → UInt32}
    {rows : List K} (hc : Counted setHash rows h) (fld : Fld) (hpos : 0 < bufsz) :
    Condensed h fld bufsz limit ↔ h.size < limit ∧ h.bktFull h.size = false := by
  apply QStore.Cntr.condensed_iff fld hpos
  have hview : ∀ p, decide ((h.view p).isSome = true) = h.bktFull p := by
    intro p
    cases hf : h.bktFull p <;> simp [RsHmap.view, hf]
  have hcard : h.nitems = ((List.range h.size).filter fun p => decide (h.view p).isSome).length :=
    hc.wf.nitems_eq
  rw [hcard, fullFrom, List.length_map, List.range_eq_range']
  simp only [hview]


/-- **condense** never keeps its reads below the size of the table. -/
theorem condense_reads_behind (kc : KeyCounter K) (fld : Fld) (bufsz : Nat) :
    ¬ Condensed kc.H fld bufsz kc.H.size := by
  intro hc
  obtain ⟨outs, hp, -⟩ := hc
  exact not_pulls_of_limit (Nat.le_refl _) (Nat.zero_le _) hp

/-- The counter of one row. -/
theorem condense_fails : ∃ h₀ kc, instantiate defaultConfig 0 true = some (.ok h₀) ∧
    Evals (kcFns fun _ _ => 7) (fun _ => 0) oneRow (KeyCounter.new h₀) kc ∧ kc.isEor = true ∧
      ¬ Condensed kc.H .count 64 kc.H.size := by
  refine ⟨emptyMap, _, instantiate_emptyMap, evals_oneRow 7, rfl, fun hc => ?_⟩
  obtain ⟨outs, hp, -⟩ := hc
  exact not_pulls_of_limit (Nat.le_refl _) (Nat.zero_le _) hp

end QStore.Cntr
