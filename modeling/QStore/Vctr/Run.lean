import QStore.Vctr.AddDel
import QStore.Vctr.Grow
import QStore.Vctr.Mem

/-!
# QStore.Vctr.Run

The life of a vector from `vctr_add` on, while it is appended to, read, and moved
between tiers.

`Run` keeps a log of the elements appended: a call that succeeds adds its own,
a call that fails adds nothing. It is indexed by what is asked of each step, so
that a result can say which calls it is about and under which condition.
`run_grown` is the invariant of all of them, and the results about appending,
about tiers and about memo windows are read off it.
-/

namespace QStore.Vctr

open Function

/-- A call on a vector that is being made. -/
inductive Op
  | put1 (sclr : List UInt8)
  | putn (X : List UInt8) (n : Nat)
  | putChunk (cmem : Cmem) (n : Nat)
  | get1 (i : Nat)
  | getChunk (i : Nat)
  | ungetChunk (i : Nat)
  | makeMem (level : Nat)
  | dropMem (level : Nat)

namespace Op

/-- The call, on vector `u`. -/
def run (u : Nat) : Op → M Unit
  | put1 sclr => vctrPut1 u sclr
  | putn X n => vctrPutn u X n
  | putChunk cmem n => do let _ ← vctrPutChunk u cmem n
  | get1 i => do let _ ← vctrGet1 u i
  | getChunk i => do let _ ← vctrGetChunk u i
  | ungetChunk i => vctrUngetChunk u i
  | makeMem level => vctrMakeMem u level
  | dropMem level => vctrDropMem u level

/-- The elements it appends. -/
def elems (v : VctrVal) : Op → List (List UInt8)
  | put1 sclr => [v.put1Bytes sclr]
  | putn X n => slices v.width n X
  | putChunk cmem n => slices v.width n ((cmem.data.map Buf.bytes).getD [])
  | _ => []

def isPut : Op → Prop
  | put1 _ | putn _ _ | putChunk _ _ => True
  | _ => False

/-- What a caller owes: arguments that hold as many elements as they say, and no
more chunks than `uint32_t` can number (nor a hash map hold). -/
def Fair (v : VctrVal) : Op → Prop
  | put1 _ => v.numElements + 1 ≤ lmaIdx * v.maxNumInChnk
  | putn X n => v.width * n ≤ X.length ∧ v.numElements + n ≤ lmaIdx * v.maxNumInChnk
  | putChunk cmem n => cmem.Valid ∧ v.numElements + n ≤ lmaIdx * v.maxNumInChnk
  | _ => True

/-- The chunks that `n` more elements push out of the memo window are deletable:
nobody reads them, and `decr_mem_used` takes their size. -/
def MemoFree (s : St) (u : Nat) (v : VctrVal) (n : Nat) : Prop :=
  v.memoLen ≠ 0 → v.width * v.maxNumInChnk ≤ 1024 * 1048576 ∧
    Idle s u ((v.numElements + n - 1) / v.maxNumInChnk + 1 - v.memoLen)

/-- When the call does what it should: a string fits its slot, the chunks that
leave the window can go, and memory is not dropped for a file out of date. -/
def Safe (s : St) (u : Nat) (v : VctrVal) : Op → Prop
  | put1 sclr => (v.qtype = .SC → (cstr sclr).length ≤ v.width) ∧ MemoFree s u v 1
  | putn _ n => MemoFree s u v n
  | putChunk _ n => MemoFree s u v n
  | dropMem level => level = 1 → AllAgree s u v.width
  | _ => True

end Op

/-- A vector made by `vctr_add`, with the elements appended to it by calls that
all satisfied `P`. No chunk is left over from an earlier vector of its id. -/
inductive Run (P : St → VctrVal → Op → Prop) (a : AddArgs) (u : Nat) :
    St → List (List UInt8) → Prop
  | add {s t : St} (hnew : ∀ i, s.chnks (u, i) = none) (ha : vctrAdd a s = .ok u t) : Run P a u t []
  | ok {s t : St} {L : List (List UInt8)} {v : VctrVal} {o : Op} (h : Run P a u s L)
      (hv : s.vctrs u = some v) (ho : P s v o) (hr : o.run u s = .ok () t) :
      Run P a u t (L ++ o.elems v)
  | bye {s t : St} {L : List (List UInt8)} {v : VctrVal} {o : Op} {k : Int} (h : Run P a u s L)
      (hv : s.vctrs u = some v) (ho : P s v o) (hr : o.run u s = .error (.bye k) t) : Run P a u t L

variable {P : St → VctrVal → Op → Prop} {a : AddArgs} {s t : St} {u i n : Nat}
  {L : List (List UInt8)} {v : VctrVal} {o : Op} {D : List UInt8}

/-- The vector holds the elements of the log. -/
structure Grown (a : AddArgs) (s : St) (u : Nat) (v : VctrVal) (L : List (List UInt8)) : Prop where
  args : a.Ok
  vec : Vec s u v L.flatten
  narrow : v.Narrow
  static : v.static = a.entry.static
  each : ∀ x ∈ L, x.length = v.width
  zero : u = 0 → L = []

/-- What was appended does not depend on how the vector is held. -/
theorem Vec.of_held (h : Vec s u v D) (hp : 0 < v.numElements) (ht : Held False t u v D) :
    Vec t u v D :=
  ⟨ht.found, h.shape, h.window, fun h0 => absurd h0 (Nat.ne_of_gt hp), fun _ =>
    ⟨ht, (h.held hp).2⟩⟩

theorem Op.elems_of_not_put (ho : ¬ o.isPut) : o.elems v = [] := by
  cases o <;> first | rfl | exact (ho trivial).elim

theorem Op.run_zero (ho : o.isPut) : o.run 0 s = .error (.bye (-1)) s := by
  cases o with
  | put1 x => rfl
  | putn X n => rfl
  | putChunk cmem n => rfl
  | _ => exact ho.elim

/-! ## one step -/

/-- A vector that does not change keeps its log. -/
theorem Grown.of_vec (h : Grown a s u v L) (ht : Vec t u v L.flatten) : Grown a t u v L :=
  ⟨h.args, ht, h.narrow, h.static, h.each, h.zero⟩

theorem Grown.of_held (h : Grown a s u v L) (hp : 0 < v.numElements)
    (ht : Held False t u v L.flatten) : Grown a t u v L :=
  h.of_vec (h.vec.of_held hp ht)

/-- A vector that took in the elements of a call has them in its log. -/
theorem Grown.append {v' : VctrVal} {xs : List (List UInt8)} (h : Grown a s u v L)
    (hx : ∀ x ∈ xs, x.length = v.width) (hu : u ≠ 0)
    (ht : Vec t u v' (L.flatten ++ xs.flatten)) (hnar : v'.Narrow) (hst : v'.static = v.static) :
    Grown a t u v' (L ++ xs) where
  args := h.args
  vec := by rwa [List.flatten_append]
  narrow := hnar
  static := hst.trans h.static
  each x hm := by
    rw [static_width hst]
    exact (List.mem_append.mp hm).elim (h.each x) (hx x)
  zero h0 := absurd h0 hu

/-- The ways to append. -/
theorem Grown.step_put (h : Grown a s u v L) (hq : v.qtype ≠ .B1) (ho : o.isPut) (hf : o.Fair v)
    (hs : o.Safe s u v) :
    Ends (o.run u) s (fun _ t => ∃ v', Grown a t u v' (L ++ o.elems v))
      fun e t => e ≠ .ub → Grown a t u v L := by
  by_cases hu : u = 0
  · subst hu
    rw [Ends, Op.run_zero ho]
    exact fun _ => h
  cases o with
  | put1 x =>
      refine (h.vec.ends_vctrPut1 hs.1 ⟨hf, hs.2⟩).imp ?_ fun e t ht hne => h.of_vec (ht hne)
      rintro - t ⟨v', ht, hnar, hst, -⟩
      refine ⟨v', h.append (fun y hy => ?_) hu (by simpa [Op.elems] using ht) hnar hst⟩
      rw [List.mem_singleton.mp hy]
      exact length_put1Bytes hs.1
  | putn X n =>
      refine (h.vec.ends_vctrPutnLoop (n + 1) ⟨hf.2, hs⟩).imp ?_
        fun e t ht hne => h.of_vec (ht.2 hne).1
      rintro - t ⟨v', ht, hnar, hst, -⟩
      rw [← flatten_slices] at ht
      exact ⟨v', h.append (fun y hy => length_of_mem_slices hf.1 hy) hu ht hnar hst⟩
  | putChunk cmem n =>
      rw [Op.run, ends_bind]
      refine (h.vec.ends_vctrPutChunk h.narrow hq hf.1 ⟨hf.2, hs⟩).imp ?_
        fun e t ht _ => h.of_vec ht.2
      rintro _ t ⟨hlen, v', ht, hnar, hst, -⟩
      rw [VctrVal.cmemBytes, List.length_take] at hlen
      rw [VctrVal.cmemBytes, ← flatten_slices] at ht
      exact ⟨v', h.append (fun y hy => length_of_mem_slices (by omega) hy) hu ht hnar hst⟩
  | _ => exact ho.elim

/-- The calls that do not append find nothing to do on an empty vector. -/
theorem Vec.ends_other_empty (h : Vec s u v D) (hl : v.isLma = false) (h0 : v.numElements = 0)
    (ho : ¬ o.isPut) : Ends (o.run u) s (fun _ t => t = s) fun _ t => t = s := by
  obtain ⟨hmax, hmin⟩ := h.shape.maxChnkIdx_of_empty h0
  have hnone := h.empty h0
  cases o with
  | get1 i =>
      simp only [Op.run, vctrGet1, ends_bind, ends_getVctr_of h.found, ends_byeIf, h0, ge_iff_le,
        Nat.zero_le, true_implies, not_true_eq_false, false_implies, and_true]
  | getChunk i => simp [Op.run, vctrGetChunk, h.found, hl, hnone]
  | ungetChunk i => simp [Op.run, vctrUngetChunk, h.found, hl, hnone]
  | makeMem level =>
      simp [Op.run, vctrMakeMem, h.found, hmax, hmin, forUp, chnkMakeMem, hnone]
  | dropMem level =>
      by_cases h3 : level = 3
      · simp [Op.run, vctrDropMem, h.found, h3, hl]
      · simp [Op.run, vctrDropMem, h.found, h3, hmax, hmin, forUp, chnkDropMem, hnone, ends_ite]
  | _ => exact (ho trivial).elim

/-- The calls that do not append. -/
theorem Grown.step_other (h : Grown a s u v L) (hl : v.isLma = false) (hq : v.qtype ≠ .B1)
    (ho : ¬ o.isPut) (hs : o.Safe s u v) :
    Ends (o.run u) s (fun _ t => Grown a t u v L) fun e t => e ≠ .ub → Grown a t u v L := by
  by_cases hp : 0 < v.numElements
  · have hh := (h.vec.held hp).1
    cases o with
    | get1 i =>
        rw [Op.run, ends_bind]
        by_cases hi : i < v.numElements ∧ v.minChnkIdx ≤ i / v.maxNumInChnk
        · exact (hh.ends_vctrGet1 hl hq hi.1 hi.2).imp (fun _ t ht => h.of_held hp ht.2.2)
            fun e t ht _ => h.of_held hp ht.2.2
        · rw [Ends, hh.vctrGet1_fails hl (by omega)]
          exact fun _ => h
    | getChunk i =>
        rw [Op.run, ends_bind]
        exact (hh.ends_vctrGetChunk hl).imp (fun _ t ht => h.of_held hp ht.1)
          fun e t ht _ => ht.2 ▸ h
    | ungetChunk i =>
        exact (hh.ends_vctrUngetChunk hl).imp (fun _ t ht => h.of_held hp ht)
          fun e t ht _ => ht.2 ▸ h
    | makeMem level =>
        exact (hh.ends_vctrMakeMem (hh.backed hl)).imp (fun _ t ht => h.of_held hp ht.1)
          fun e t ht _ => h.of_held hp ht.2.1
    | dropMem level =>
        by_cases h3 : level = 3
        · subst h3
          simp only [Op.run, vctrDropMem, ends_bind, ends_byeIf, ends_getVctr_of hh.found, hl,
            if_true, ends_pure]
          exact ⟨fun _ _ => h, fun _ => h⟩
        · exact (hh.ends_vctrDropMem h3 hs).imp (fun _ t ht => h.of_held hp ht.1)
            fun e t ht _ => h.of_held hp ht.2.1
    | _ => exact (ho trivial).elim
  · exact (h.vec.ends_other_empty hl (by omega) ho).imp (fun _ t ht => ht ▸ h)
      fun _ t ht _ => ht ▸ h

/-- A call that succeeds appends its elements, and a call that fails does not. -/
theorem Grown.step (h : Grown a s u v L) (hq : a.qtype ≠ .B1) (hf : o.Fair v)
    (hs : o.Safe s u v) :
    Ends (o.run u) s (fun _ t => ∃ v', Grown a t u v' (L ++ o.elems v))
      fun e t => e ≠ .ub → Grown a t u v L := by
  have hq' : v.qtype ≠ .B1 := by
    rw [static_qtype h.static]
    exact hq
  by_cases ho : o.isPut
  · exact h.step_put hq' ho hf hs
  · rw [Op.elems_of_not_put ho, List.append_nil]
    exact (h.step_other (static_isLma h.static) hq' ho hs).imp (fun _ t ht => ⟨v, ht⟩) fun _ _ => id

/-! ## whole runs -/

/-- What `vctr_add` makes holds nothing. -/
theorem grown_of_vctrAdd (hq : a.qtype ≠ .B1) (hfit : a.widthOf * a.maxOf < 2 ^ 32)
    (hnew : ∀ i, s.chnks (u, i) = none) (ha : vctrAdd a s = .ok u t) :
    Grown a t u a.entry [] := by
  have hspec : Ends (vctrAdd a) s
      (fun u t => (∀ i, s.chnks (u, i) = none) → Grown a t u a.entry []) fun _ _ => True := by
    refine ends_vctrAdd a (fun hok _ hnew => ?_) trivial trivial
    have hlow : a.entry.minChnkIdx = a.entry.lowest 0 := by
      have : a.entry.memoLen = 0 ∨ 1 ≤ a.entry.memoLen := by omega
      rw [VctrVal.lowest]
      split
      · rfl
      · show 0 = 0 + 1 - a.entry.memoLen
        omega
    have hshape : Shape a.entry [] :=
      { width_pos := hok.width_pos hq
        max_pos := hok.max_pos
        size_lt := hfit
        len := rfl
        min_le := Nat.le_refl _
        lo := by simp [AddArgs.entry]
        hi := Nat.zero_le _
        idx_lt := show 0 < lmaIdx by decide }
    exact ⟨hok, ⟨St.setVctr_self, hshape, ⟨0, Nat.le_refl _, hlow⟩, fun _ => hnew,
      fun hp => absurd hp (Nat.lt_irrefl 0)⟩, hlow, rfl, fun x hx => (by cases hx), fun _ => rfl⟩
  exact hspec.of_ok ha hnew

/-- **The invariant of a run**: as long as its steps are fair and safe, the vector
holds the elements of the log. -/
theorem run_grown (h : Run P a u s L) (hq : a.qtype ≠ .B1) (hfit : a.widthOf * a.maxOf < 2 ^ 32)
    (hP : ∀ s v o, a.Ok → v.static = a.entry.static → P s v o → o.Fair v ∧ o.Safe s u v) :
    ∃ v, Grown a s u v L := by
  induction h with
  | add hnew ha => exact ⟨_, grown_of_vctrAdd hq hfit hnew ha⟩
  | ok _ hv ho hr ih =>
      obtain ⟨v, hg⟩ := ih
      obtain rfl := Option.some.inj (hg.vec.found.symm.trans hv)
      obtain ⟨hf, hs⟩ := hP _ _ _ hg.args hg.static ho
      exact (hg.step hq hf hs).of_ok hr
  | bye _ hv ho hr ih =>
      obtain ⟨v, hg⟩ := ih
      obtain rfl := Option.some.inj (hg.vec.found.symm.trans hv)
      obtain ⟨hf, hs⟩ := hP _ _ _ hg.args hg.static ho
      exact ⟨v, (hg.step hq hf hs).of_error hr (by simp)⟩

/-! ### the log, element by element -/

namespace Filled

variable (h : Filled s u v L.flatten) (hx : ∀ x ∈ L, x.length = v.width)
include h hx

theorem num : v.numElements = L.length := by
  have h1 := h.shape.len
  rw [length_flatten_of_eq hx] at h1
  exact (Nat.eq_of_mul_eq_mul_left h.shape.width_pos h1).symm

/-- **The elements that can be read** are those of the log, less those below the window. -/
theorem vctrGet1_iff (hl : v.isLma = false) (hq : v.qtype ≠ .B1) {x : List UInt8} :
    (∃ t, vctrGet1 u i s = .ok x t) ↔
      ∃ hi : i < L.length, v.minChnkIdx ≤ i / v.maxNumInChnk ∧ ScOk v L[i] ∧ x = L[i] := by
  have hnum := h.num hx
  by_cases hi : i < L.length
  · obtain ⟨hh, -⟩ := h.held (by omega)
    by_cases hmin : v.minChnkIdx ≤ i / v.maxNumInChnk
    · have hget := hh.ends_vctrGet1 hl hq (hnum ▸ hi) hmin
      rw [show v.elem L.flatten i = L[i] from take_drop_flatten hx hi] at hget
      constructor
      · rintro ⟨t, hr⟩
        obtain ⟨hx', hsc, -⟩ := hget.of_ok hr
        exact ⟨hi, hmin, hsc, hx'⟩
      · rintro ⟨_, _, hsc, rfl⟩
        obtain ⟨x, t, ht, hx', -⟩ :=
          Ends.returns (hget.imp (fun _ _ hQ => hQ) fun _ _ hE => hE.2.1 hsc)
        exact ⟨t, hx' ▸ ht⟩
    · refine iff_of_false ?_ fun ⟨_, h', _⟩ => hmin h'
      rintro ⟨t, hr⟩
      rw [hh.vctrGet1_fails hl (Or.inr (by omega))] at hr
      contradiction
  · refine iff_of_false ?_ fun ⟨h', _⟩ => hi h'
    rintro ⟨t, hr⟩
    have hi' : i ≥ v.numElements := by omega
    have hfails : Ends (vctrGet1 u i) s (fun _ _ => False) fun _ _ => True := by
      simp only [vctrGet1, ends_bind, ends_getVctr_of h.found, ends_byeIf]
      exact ⟨fun _ => trivial, fun hn => absurd hi' hn⟩
    exact hfails.of_ok hr

end Filled

namespace Grown

variable (h : Grown a s u v L)
include h

theorem num : v.numElements = L.length := h.vec.filled.num h.each

theorem elem (hi : i < L.length) : v.elem L.flatten i = L[i] := take_drop_flatten h.each hi

theorem held (hp : 0 < L.length) : Held False s u v L.flatten := (h.vec.held (h.num ▸ hp)).1

theorem isLma : v.isLma = false := static_isLma h.static

/-- A read past the end fails. -/
theorem past (hi : L.length ≤ i) : vctrGet1 u i s = .error (.bye (-1)) s := by
  have hi' : i ≥ v.numElements := h.num ▸ hi
  refine Ends.throws ?_
  simp only [vctrGet1, ends_bind, ends_getVctr_of h.vec.found, ends_byeIf]
  exact ⟨fun _ => ⟨trivial, trivial⟩, fun hn => absurd hi' hn⟩

/-- Reading an element that is still there. -/
theorem vctrGet1_ok (hq : v.qtype ≠ .B1) (hi : i < L.length)
    (hmin : v.minChnkIdx ≤ i / v.maxNumInChnk) (hsc : ScOk v L[i]) :
    ∃ t, vctrGet1 u i s = .ok L[i] t :=
  (h.vec.filled.vctrGet1_iff h.each h.isLma hq).mpr ⟨hi, hmin, hsc, rfl⟩

/-- What a read that succeeds returns. -/
theorem of_vctrGet1_ok (hq : v.qtype ≠ .B1) {x : List UInt8} (hr : vctrGet1 u i s = .ok x t) :
    ∃ hi : i < L.length, v.minChnkIdx ≤ i / v.maxNumInChnk ∧ ScOk v L[i] ∧ x = L[i] :=
  (h.vec.filled.vctrGet1_iff h.each h.isLma hq).mp ⟨t, hr⟩

end Grown

end QStore.Vctr
