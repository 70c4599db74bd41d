import QStore.Operators.BinSearch

/-!
# QStore.Operators.BinProbe

The loop of `bin_count` and `bin_place` that looks for the bin of a value, turn by turn, on any
list of bins.  The bins need not touch: a value can lie between two of them.

Nothing but finding the bin ends the loop: a status below zero does not, and an interval of one
bin is halved to itself.  The indices are `int`s and `nb` is a `uint32_t`.
-/

namespace QStore.Operators.BinProbe

variable {α : Type} [LinearOrder α]

/-- Bins one behind the other: bin `b` has the values from `lb[b]` up to `ub[b]`. -/
structure BinList (α : Type) [LinearOrder α] where
  nb : Nat
  lb : Nat → α
  ub : Nat → α
  pos : 1 ≤ nb
  fits : nb < 2 ^ 32
  nonempty : ∀ b, b < nb → lb b < ub b
  apart : ∀ b, b + 1 < nb → ub b ≤ lb (b + 1)

/-- The checks of the value against the first and the last bound. -/
def InRange (B : BinList α) (v : α) : Prop := B.lb 0 ≤ v ∧ v ≤ B.ub (B.nb - 1)

/-- The value lies in bin `b`. -/
def InBin (B : BinList α) (v : α) (b : Nat) : Prop := b < B.nb ∧ B.lb b ≤ v ∧ v < B.ub b

/-- What the loop keeps from one turn to the next. -/
structure Probe where
  numProbes : Nat
  lbIdx : Int
  ubIdx : Int
  status : Int

/-- Where the loop is after a turn. `fault`: the sum of the indices is no `int`, or the turn
reads `lb` and `ub` outside of their `nb` elements. -/
inductive Turn where
  | found (binIdx : Nat) (status : Int)
  | again (s : Probe)
  | fault

/-- One turn. `debug`: the build has `DEBUG`. -/
def turn (debug : Bool) (B : BinList α) (inval : α) (s : Probe) : Turn :=
  let status := if debug ∧ s.numProbes > maxNumProbes B.nb then -1 else s.status
  if s.lbIdx + s.ubIdx < -2 ^ 31 ∨ 2 ^ 31 ≤ s.lbIdx + s.ubIdx then .fault
  else
    let binIdx := (s.lbIdx + s.ubIdx).tdiv 2
    if binIdx < 0 ∨ B.nb ≤ binIdx.toNat then .fault
    else
      let b := binIdx.toNat
      if B.lb b ≤ inval ∧ inval < B.ub b then .found b status
      else if inval < B.lb b then .again ⟨s.numProbes + 1, s.lbIdx, binIdx, status⟩
      else .again ⟨s.numProbes + 1, binIdx, s.ubIdx, status⟩

/-- `(int)nb` -/
def intOf (n : Nat) : Int := if n < 2 ^ 31 then n else n - 2 ^ 32

/-- Where the loop starts, for a value that has passed the check of its range. -/
def start (B : BinList α) : Probe := ⟨0, 0, intOf B.nb, 0⟩

/-- At most `n` turns from `s`. -/
def after (debug : Bool) (B : BinList α) (inval : α) : Nat → Probe → Turn
  | 0, s => .again s
  | n + 1, s =>
      match turn debug B inval s with
      | .again s => after debug B inval n s
      | t => t

/-- What the search owes its caller: it ends, has read within the bounds, and yields the bin of
the value or reports that there is none. -/
def SearchRight (debug : Bool) (B : BinList α) (v : α) : Prop :=
  ∃ n b status, after debug B v n (start B) = .found b status ∧
    (status = 0 ∧ InBin B v b ∨ status < 0 ∧ ∀ c, ¬ InBin B v c)

/-! ## Bins and their bounds -/

variable {B : BinList α} {v : α} {b c : Nat} {debug : Bool}

theorem ub_le_lb (hbc : b < c) (hc : c < B.nb) : B.ub b ≤ B.lb c := by
  induction c with
  | zero => omega
  | succ c ih =>
      cases Nat.lt_succ_iff_lt_or_eq.mp hbc with
      | inl h =>
          calc
            B.ub b ≤ B.lb c := ih h (by omega)
            _ ≤ B.ub c := (B.nonempty c (by omega)).le
            _ ≤ B.lb (c + 1) := B.apart c hc
      | inr h => exact h ▸ B.apart c hc

/-- A value of a bin lies below the bins behind it. -/
theorem InBin.lt_lb (h : InBin B v b) (hc : c < B.nb) : v < B.lb c ↔ b < c := by
  constructor
  · intro hv
    by_contra hle
    cases Nat.eq_or_lt_of_le (Nat.le_of_not_lt hle) with
    | inl heq => exact absurd hv (not_lt.mpr (heq ▸ h.2.1))
    | inr hlt =>
        have hbelow := (B.nonempty c hc).le.trans ((ub_le_lb hlt h.1).trans h.2.1)
        exact absurd hv (not_lt.mpr hbelow)
  · intro hbc
    exact h.2.2.trans_le (ub_le_lb hbc hc)

/-- A value of a bin lies at or above the end of the bins before it. -/
theorem InBin.ub_le (h : InBin B v b) (hcb : c < b) : B.ub c ≤ v :=
  (ub_le_lb hcb h.1).trans h.2.1

theorem InBin.unique (hb : InBin B v b) (hc : InBin B v c) : b = c := by
  by_contra hne
  cases Nat.lt_or_gt_of_ne hne with
  | inl hlt => exact absurd hb.2.2 (not_lt.mpr (hc.ub_le hlt))
  | inr hgt => exact absurd hc.2.2 (not_lt.mpr (hb.ub_le hgt))

/-! ## Runs -/

/-- A search that is over stays over. -/
theorem after_add {n : Nat} {s : Probe} {t : Turn} (h : after debug B v n s = t)
    (ht : ∀ s', t ≠ .again s') (k : Nat) : after debug B v (n + k) s = t := by
  induction n generalizing s with
  | zero => exact absurd h.symm (ht s)
  | succ n ih =>
      rw [Nat.succ_add, after]
      rw [after] at h
      cases hturn : turn debug B v s with
      | again s' =>
          simp only [hturn] at h ⊢
          exact ih h
      | found b st => simpa only [hturn] using h
      | fault => simpa only [hturn] using h

/-- Two ends of one search are the same. -/
theorem after_unique {m n : Nat} {s : Probe} {t t' : Turn} (h : after debug B v m s = t)
    (h' : after debug B v n s = t') (ht : ∀ s', t ≠ .again s') (ht' : ∀ s', t' ≠ .again s') :
    t = t' := by
  have h1 := after_add h ht n
  have h2 := after_add h' ht' m
  rw [Nat.add_comm] at h2
  exact h1.symm.trans h2

theorem inBin_of_turn {s : Probe} {status : Int} (h : turn debug B v s = .found b status) :
    InBin B v b := by
  simp only [turn] at h
  split at h
  · contradiction
  · split at h
    · contradiction
    · next hin =>
      split at h
      · next hv =>
        simp only [Turn.found.injEq] at h
        rw [← h.1]
        exact ⟨by omega, hv⟩
      · split at h <;> contradiction

/-- What is found is the bin of the value. -/
theorem inBin_of_found {n : Nat} {s : Probe} {status : Int}
    (h : after debug B v n s = .found b status) : InBin B v b := by
  induction n generalizing s with
  | zero => simp [after] at h
  | succ n ih =>
      rw [after] at h
      cases hturn : turn debug B v s with
      | again s' =>
          simp only [hturn] at h
          exact ih h
      | found b' st =>
          simp only [hturn, Turn.found.injEq] at h
          obtain ⟨rfl, rfl⟩ := h
          exact inBin_of_turn hturn
      | fault => simp [hturn] at h

/-! ## Halving towards a bin -/

/-- The middles on the way from the interval of `l` and `u` to bin `b`. -/
def middles (b : Nat) : Nat → Nat → Nat → List Nat
  | 0, _, _ => []
  | fuel + 1, l, u =>
      let m := (l + u) / 2
      if b = m then [m]
      else if b < m then m :: middles b fuel l m
      else m :: middles b fuel m u

/-- The indices stay `int`s on the way to bin `b`. An `nb` of `2^32 - 1` is `-1` as an `int`,
half of which is 0. -/
def Reaches (nb b : Nat) : Prop :=
  nb < 2 ^ 31 ∧ (∀ m ∈ middles b nb 0 nb, m < 2 ^ 30) ∨ nb = 2 ^ 32 - 1 ∧ b = 0

/-- The turn at an interval of small indices. -/
theorem turn_eq {np l u : Nat} {st : Int} (hmid : (l + u) / 2 < B.nb) :
    turn debug B v ⟨np, l, u, st⟩ =
      if 2 ^ 30 ≤ (l + u) / 2 then .fault
      else if B.lb ((l + u) / 2) ≤ v ∧ v < B.ub ((l + u) / 2) then
        .found ((l + u) / 2) (if debug ∧ np > maxNumProbes B.nb then -1 else st)
      else if v < B.lb ((l + u) / 2) then
        .again ⟨np + 1, l, ((l + u) / 2 : Nat),
          if debug ∧ np > maxNumProbes B.nb then -1 else st⟩
      else .again ⟨np + 1, ((l + u) / 2 : Nat), u,
          if debug ∧ np > maxNumProbes B.nb then -1 else st⟩ := by
  have hsum : ((l : Int) + u) = ((l + u : Nat) : Int) := by omega
  have hhalf : ((l + u : Nat) : Int).tdiv 2 = ((l + u) / 2 : Nat) := by
    rw [Int.tdiv_eq_ediv_of_nonneg (by omega)]
    omega
  simp only [turn, hsum, hhalf, Int.toNat_natCast]
  by_cases hbig : 2 ^ 30 ≤ (l + u) / 2
  · rw [if_pos (.inr (by omega)), if_pos hbig]
  · rw [if_neg (by omega), if_neg (by omega), if_neg hbig]

/-- From an interval around the bin of the value the search gets there, unless a middle on the
way is too large. Each turn halves the interval, so there are not too many of them. -/
theorem search_towards (hv : InBin B v b) {fuel np l u : Nat} (hl : l ≤ b) (hu : b < u)
    (hnb : u ≤ B.nb) (hfuel : u - l ≤ fuel) (hnp : np ≤ maxNumProbes B.nb)
    (hhalf : (u - l - 1) * 2 ^ np < B.nb) :
    ∃ n, after debug B v n ⟨np, l, u, 0⟩ =
      if ∀ m ∈ middles b fuel l u, m < 2 ^ 30 then .found b 0 else .fault := by
  induction fuel generalizing np l u with
  | zero => omega
  | succ fuel ih =>
      have hmid : (l + u) / 2 < B.nb := by omega
      have hstatus : (if debug ∧ np > maxNumProbes B.nb then (-1 : Int) else 0) = 0 :=
        if_neg fun h => absurd h.2 (by omega)
      have hturn := @turn_eq _ _ B v debug np l u 0 hmid
      rw [hstatus] at hturn
      -- after the last probe but one there is only one bin left
      have hlast : np = maxNumProbes B.nb → u - l - 1 = 0 := by
        intro h
        have hpow := BinSort.lt_two_pow_maxNumProbes B.nb
        rw [← h] at hpow
        by_contra hne
        have : 1 * 2 ^ np ≤ (u - l - 1) * 2 ^ np := Nat.mul_le_mul_right _ (by omega)
        omega
      have hdouble : ∀ d, 2 * d ≤ u - l - 1 → d * 2 ^ (np + 1) < B.nb := by
        intro d hd
        have : 2 * d * 2 ^ np ≤ (u - l - 1) * 2 ^ np := Nat.mul_le_mul_right _ hd
        have heq : d * 2 ^ (np + 1) = 2 * d * 2 ^ np := by
          rw [Nat.pow_succ, Nat.mul_comm (2 ^ np) 2, ← Nat.mul_assoc, Nat.mul_comm d 2]
        omega
      by_cases hbig : 2 ^ 30 ≤ (l + u) / 2
      · refine ⟨1, ?_⟩
        rw [if_pos hbig] at hturn
        have hno : ¬ ∀ m ∈ middles b (fuel + 1) l u, m < 2 ^ 30 := by
          intro hall
          have : (l + u) / 2 ∈ middles b (fuel + 1) l u := by
            rw [middles]
            split
            · simp
            · split <;> simp
          exact absurd (hall _ this) (by omega)
        rw [if_neg hno, after, hturn]
      · rw [if_neg hbig] at hturn
        by_cases hb : b = (l + u) / 2
        · refine ⟨1, ?_⟩
          rw [← hb, if_pos hv.2] at hturn
          have hall : ∀ m ∈ middles b (fuel + 1) l u, m < 2 ^ 30 := by
            intro m hm
            rw [middles] at hm
            simp only [← hb, if_true, List.mem_singleton] at hm
            omega
          rw [if_pos hall, after, hturn]
        · have hout : ¬ (B.lb ((l + u) / 2) ≤ v ∧ v < B.ub ((l + u) / 2)) := fun h =>
            hb (hv.unique ⟨hmid, h⟩)
          rw [if_neg hout] at hturn
          have hmem : ∀ rest, (∀ m ∈ (l + u) / 2 :: rest, m < 2 ^ 30) ↔ ∀ m ∈ rest, m < 2 ^ 30 := by
            intro rest
            rw [List.forall_mem_cons]
            exact and_iff_right (by omega)
          by_cases hlt : b < (l + u) / 2
          · rw [if_pos ((hv.lt_lb hmid).mpr hlt)] at hturn
            have := hdouble ((l + u) / 2 - l - 1) (by omega)
            obtain ⟨n, hn⟩ := @ih (np + 1) l ((l + u) / 2) hl hlt hmid.le
              (by omega) (by omega) this
            refine ⟨n + 1, ?_⟩
            rw [after, hturn, middles]
            simp only [if_neg hb, if_pos hlt, hmem]
            exact hn
          · rw [if_neg fun h => hlt ((hv.lt_lb hmid).mp h)] at hturn
            have := hdouble (u - (l + u) / 2 - 1) (by omega)
            obtain ⟨n, hn⟩ := @ih (np + 1) ((l + u) / 2) u (by omega) hu hnb
              (by omega) (by omega) this
            refine ⟨n + 1, ?_⟩
            rw [after, hturn, middles]
            simp only [if_neg hb, if_neg hlt, hmem]
            exact hn

/-! ## Lists of too many bins -/

/-- An `nb` that is negative as an `int` makes the first middle negative, or 0 again and again. -/
theorem after_negative (hnb : 2 ^ 31 ≤ B.nb) (hno : B.nb = 2 ^ 32 - 1 → ¬ InBin B v 0)
    (hv : B.lb 0 ≤ v) (n : Nat) {b : Nat} {st : Int} :
    after debug B v n (start B) ≠ .found b st := by
  have hfits := B.fits
  have hidx : intOf B.nb = (B.nb : Int) - 2 ^ 32 := if_neg (by omega)
  rw [start, hidx]
  by_cases hlast : B.nb = 2 ^ 32 - 1
  · have hub : (B.nb : Int) - 2 ^ 32 = -1 := by omega
    rw [hub]
    have hout : ¬ (B.lb 0 ≤ v ∧ v < B.ub 0) := fun h => hno hlast ⟨by omega, h⟩
    have hturn : ∀ np st, ∃ st', turn debug B v ⟨np, 0, -1, st⟩ = .again ⟨np + 1, 0, -1, st'⟩ := by
      intro np st
      have hzero : ((0 : Int) + -1).tdiv 2 = 0 := rfl
      refine ⟨if debug ∧ np > maxNumProbes B.nb then -1 else st, ?_⟩
      simp only [turn, hzero, Int.toNat_zero]
      rw [if_neg (by omega), if_neg (by omega), if_neg hout, if_neg (not_lt.mpr hv)]
    have hloop : ∀ n np st, ∃ s, after debug B v n ⟨np, 0, -1, st⟩ = .again s := by
      intro n
      induction n with
      | zero => exact fun np st => ⟨_, rfl⟩
      | succ n ih =>
          intro np st
          obtain ⟨st', hst'⟩ := hturn np st
          obtain ⟨s, hs⟩ := ih (np + 1) st'
          exact ⟨s, by rw [after, hst']; exact hs⟩
    obtain ⟨s, hs⟩ := hloop n 0 0
    rw [hs]
    exact fun h => by contradiction
  · have hneg : ((0 : Int) + ((B.nb : Int) - 2 ^ 32)).tdiv 2 < 0 := by
      rw [Int.zero_add, show (B.nb : Int) - 2 ^ 32 = -((2 ^ 32 - B.nb : Nat) : Int) by omega,
        Int.neg_tdiv, Int.tdiv_eq_ediv_of_nonneg (by omega)]
      omega
    have hturn : turn debug B v ⟨0, 0, (B.nb : Int) - 2 ^ 32, 0⟩ = .fault := by
      simp only [turn]
      by_cases hsum : (0 : Int) + ((B.nb : Int) - 2 ^ 32) < -2 ^ 31 ∨
          2 ^ 31 ≤ (0 : Int) + ((B.nb : Int) - 2 ^ 32)
      · rw [if_pos hsum]
      · rw [if_neg hsum, if_pos (.inl hneg)]
    cases n with
    | zero => simp [after]
    | succ n =>
        rw [after, hturn]
        exact fun h => by contradiction

/-! ## When the search is right -/

/-- **The search is right exactly where the value lies in a bin** that the indices can reach. -/
theorem searchRight_iff (debug : Bool) (B : BinList α) (v : α) (hv : InRange B v) :
    SearchRight debug B v ↔ ∃ b, InBin B v b ∧ Reaches B.nb b := by
  have hfits := B.fits
  have hpos := B.pos
  -- the search for a bin, where `nb` is positive as an `int`
  have hsmall : B.nb < 2 ^ 31 → ∀ b, InBin B v b → ∃ n, after debug B v n (start B) =
      if ∀ m ∈ middles b B.nb 0 B.nb, m < 2 ^ 30 then .found b 0 else .fault := by
    intro hnb b hb
    have hidx : intOf B.nb = (B.nb : Int) := if_pos hnb
    rw [start, hidx]
    exact search_towards hb (Nat.zero_le b) hb.1 le_rfl (by omega) (Nat.zero_le _) (by omega)
  constructor
  · rintro ⟨n, b, st, hfound, hright⟩
    have hb := inBin_of_found hfound
    refine ⟨b, hb, ?_⟩
    by_cases hnb : B.nb < 2 ^ 31
    · refine .inl ⟨hnb, ?_⟩
      by_contra hbig
      obtain ⟨m, hm⟩ := hsmall hnb b hb
      rw [if_neg hbig] at hm
      have := after_unique hfound hm (by simp) (by simp)
      contradiction
    · by_cases hend : B.nb = 2 ^ 32 - 1 ∧ InBin B v 0
      · exact .inr ⟨hend.1, hb.unique hend.2⟩
      · exact absurd hfound (after_negative (by omega) (fun h1 h2 => hend ⟨h1, h2⟩) hv.1 n)
  · rintro ⟨b, hb, hreach⟩
    cases hreach with
    | inl h =>
        obtain ⟨n, hn⟩ := hsmall h.1 b hb
        rw [if_pos h.2] at hn
        exact ⟨n, b, 0, hn, .inl ⟨rfl, hb⟩⟩
    | inr h =>
        obtain ⟨hnb, rfl⟩ := h
        have hidx : intOf B.nb = -1 := by
          rw [intOf, if_neg (by omega)]
          omega
        have hzero : ((0 : Int) + -1).tdiv 2 = 0 := rfl
        refine ⟨1, 0, 0, ?_, .inl ⟨rfl, hb⟩⟩
        simp only [start, hidx, after, turn, hzero, Int.toNat_zero]
        rw [if_neg (by omega), if_neg (by omega), if_pos hb.2]
        simp

/-- Lists of up to `2^30` bins are short enough for all of them to be reached. -/
theorem reaches_of_le {nb : Nat} (hnb : nb ≤ 2 ^ 30) (hb : b < nb) : Reaches nb b := by
  refine .inl ⟨by omega, ?_⟩
  have hall : ∀ fuel l u, l ≤ b → b < u → ∀ m ∈ middles b fuel l u, m < u := by
    intro fuel
    induction fuel with
    | zero => simp [middles]
    | succ fuel ih =>
        intro l u hl hu m hm
        simp only [middles] at hm
        split at hm
        · rw [List.mem_singleton] at hm
          omega
        · split at hm
          · next hlt =>
            cases List.mem_cons.mp hm with
            | inl h => omega
            | inr h =>
                have := ih l ((l + u) / 2) hl hlt m h
                omega
          · next hne hge =>
            cases List.mem_cons.mp hm with
            | inl h => omega
            | inr h => exact ih ((l + u) / 2) u (by omega) hu m h
  intro m hm
  exact (hall nb 0 nb (Nat.zero_le b) hb m hm).trans_le hnb

/-- Two bins that touch, from 0 to 20. -/
def twoBins : BinList Nat where
  nb := 2
  lb := fun b => 10 * b
  ub := fun b => 10 * b + 10
  pos := Nat.succ_le_succ (Nat.zero_le 1)
  fits := Nat.le_of_ble_eq_true rfl
  nonempty := fun _ _ => Nat.lt_add_of_pos_right (Nat.zero_lt_succ 9)
  apart := fun _ _ => Nat.le_refl _

/-- A value of the second bin. -/
theorem searchRight_iff_fifteen :
    SearchRight true twoBins 15 ↔ ∃ b, InBin twoBins 15 b ∧ Reaches 2 b :=
  searchRight_iff true twoBins 15 (by simp [InRange, twoBins])

/-- The last upper bound passes the check of the range, and the search for it never ends. -/
theorem search_runs_on : InRange twoBins 20 ∧ ¬ SearchRight true twoBins 20 := by
  have hout : ∀ b, ¬ InBin twoBins 20 b := by
    intro b h
    have h1 : b < 2 := h.1
    have h2 : 20 < 10 * b + 10 := h.2.2
    omega
  refine ⟨by simp [InRange, twoBins], ?_⟩
  rintro ⟨n, b, st, hfound, -⟩
  exact hout b (inBin_of_found hfound)

end QStore.Operators.BinProbe
