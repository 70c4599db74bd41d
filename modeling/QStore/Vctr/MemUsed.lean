import QStore.Vctr.State

/-!
# QStore.Vctr.MemUsed

The limits on memory and disk (`QJIT/GUTILS/src/mod_mem_used.c`), request after
request.

```
0 and, for memory, > 1 GiB      refused, nothing changed
within the limit                granted
over the limit                  not added, but the status is that of the unlock
```
-/

namespace QStore.Vctr

/-- A call of `incr_mem_used`, `decr_mem_used`, `incr_dsk_used` or
`decr_dsk_used`. -/
inductive Request
  | incrMem (x : UInt64)
  | decrMem (x : UInt64)
  | incrDsk (x : UInt64)
  | decrDsk (x : UInt64)

namespace Request

def run : Request → M Unit
  | incrMem x => incrMemUsed x.toNat
  | decrMem x => decrMemUsed x.toNat
  | incrDsk x => incrDskUsed x.toNat
  | decrDsk x => decrDskUsed x.toNat

/-- What is refused whatever the counters are. -/
def Refused : Request → Prop
  | incrMem x | decrMem x => x.toNat = 0 ∨ x.toNat > 1024 * 1048576
  | incrDsk x | decrDsk x => x.toNat = 0

/-- Within the limit, as integers. -/
def Fits (s : St) : Request → Prop
  | incrMem x => s.memUsed + x.toNat ≤ s.memAllowed
  | decrMem x => x.toNat ≤ s.memUsed
  | incrDsk x => s.dskUsed + x.toNat ≤ s.dskAllowed
  | decrDsk x => x.toNat ≤ s.dskUsed

instance decidableRefused : (r : Request) → Decidable r.Refused
  | incrMem _ | decrMem _ => inferInstanceAs (Decidable (_ ∨ _))
  | incrDsk _ | decrDsk _ => inferInstanceAs (Decidable (_ = _))

instance decidableFits (s : St) : (r : Request) → Decidable (r.Fits s)
  | incrMem _ | decrMem _ | incrDsk _ | decrDsk _ => inferInstanceAs (Decidable (_ ≤ _))

/-- The counter changed by the size of the request. -/
def granted (s : St) : Request → St
  | incrMem x => s.setMem (s.memUsed + x.toNat)
  | decrMem x => s.setMem (s.memUsed - x.toNat)
  | incrDsk x => s.setDsk (s.dskUsed + x.toNat)
  | decrDsk x => s.setDsk (s.dskUsed - x.toNat)

/-- The limit is kept: success is for what fits, and for nothing else. -/
def Lawful (s : St) (r : Request) : Prop :=
  ((∃ t, r.run s = .ok () t) ↔ r.Fits s) ∧ (¬ r.Fits s → ∃ e, r.run s = .error e s)

end Request

/-- The counters are within the limits, which are `uint64_t`. -/
structure Within (s : St) : Prop where
  mem : s.memUsed ≤ s.memAllowed
  dsk : s.dskUsed ≤ s.dskAllowed
  memLimit : s.memAllowed < 2 ^ 64
  dskLimit : s.dskAllowed < 2 ^ 64

/-- The state after a sequence of requests. -/
def afterRequests (s : St) : List Request → St
  | [] => s
  | r :: rs => afterRequests (final r.run s) rs

variable {s : St} {r : Request} {x : Nat}

/-! ## one call -/

theorem byeIf_neg {c : Prop} [Decidable c] (hc : ¬ c) : byeIf c s = .ok () s := by
  rw [byeIf, if_neg hc]
  rfl

theorem bind_ok {α β : Type} {m : M α} {f : α → M β} {a : α} {t : St} (hm : m s = .ok a t) :
    (m >>= f) s = f a t := by
  simp only [bind, EStateM.bind, hm]

theorem bind_error {α β : Type} {m : M α} {f : α → M β} {e : Err} {t : St}
    (hm : m s = .error e t) : (m >>= f) s = .error e t := by
  simp only [bind, EStateM.bind, hm]

theorem incrMemUsed_eq (h : ¬ (x = 0 ∨ x > 1024 * 1048576)) : incrMemUsed x s =
    .ok () (if u64 (x + s.memUsed) > s.memAllowed then s else s.setMem (u64 (s.memUsed + x))) := by
  rw [not_or] at h
  rw [incrMemUsed, bind_ok (byeIf_neg h.1), bind_ok (byeIf_neg h.2)]
  rfl

theorem decrMemUsed_eq (h : ¬ (x = 0 ∨ x > 1024 * 1048576)) : decrMemUsed x s =
    .ok () (if x > s.memUsed then s else s.setMem (s.memUsed - x)) := by
  rw [not_or] at h
  rw [decrMemUsed, bind_ok (byeIf_neg h.1), bind_ok (byeIf_neg h.2)]
  rfl

theorem incrDskUsed_eq (h : ¬ x = 0) : incrDskUsed x s =
    .ok () (if u64 (x + s.dskUsed) > s.dskAllowed then s else s.setDsk (u64 (s.dskUsed + x))) := by
  rw [incrDskUsed, bind_ok (byeIf_neg h)]
  rfl

theorem decrDskUsed_eq (h : ¬ x = 0) : decrDskUsed x s =
    .ok () (if x > s.dskUsed then s else s.setDsk (s.dskUsed - x)) := by
  rw [decrDskUsed, bind_ok (byeIf_neg h)]
  rfl

theorem byeIf_pos {c : Prop} [Decidable c] (hc : c) : byeIf c s = .error (.bye (-1)) s := by
  rw [byeIf, if_pos hc]
  rfl

/-- The guards of the two functions for memory. -/
theorem guards_error {f : Unit → M Unit} (h : x = 0 ∨ x > 1024 * 1048576) :
    (byeIf (x = 0) >>= fun _ => byeIf (x > 1024 * 1048576) >>= f) s = .error (.bye (-1)) s := by
  by_cases h0 : x = 0
  · exact bind_error (byeIf_pos h0)
  · rw [bind_ok (byeIf_neg h0)]
    exact bind_error (byeIf_pos (h.resolve_left h0))

/-- What is refused is refused with an error, and changes nothing. -/
theorem Request.run_refused (h : r.Refused) : r.run s = .error (.bye (-1)) s := by
  cases r with
  | incrMem x => exact guards_error h
  | decrMem x => exact guards_error h
  | incrDsk x => exact bind_error (byeIf_pos h)
  | decrDsk x => exact bind_error (byeIf_pos h)

/-- What is not refused ends with success, whatever the limit. -/
theorem Request.run_ok (h : ¬ r.Refused) : ∃ t, r.run s = .ok () t := by
  cases r with
  | incrMem x => exact ⟨_, incrMemUsed_eq h⟩
  | decrMem x => exact ⟨_, decrMemUsed_eq h⟩
  | incrDsk x => exact ⟨_, incrDskUsed_eq h⟩
  | decrDsk x => exact ⟨_, decrDskUsed_eq h⟩

/-- What is within the limit is granted. -/
theorem Request.run_fits (hs : Within s) (h : ¬ r.Refused) (hf : r.Fits s) :
    r.run s = .ok () (r.granted s) := by
  have hm := hs.memLimit
  have hd := hs.dskLimit
  cases r with
  | incrMem x =>
      simp only [Fits] at hf
      rw [run, incrMemUsed_eq h, u64_eq (by omega), u64_eq (by omega), if_neg (by omega)]
      rfl
  | decrMem x =>
      simp only [Fits] at hf
      rw [run, decrMemUsed_eq h, if_neg (by omega)]
      rfl
  | incrDsk x =>
      simp only [Fits] at hf
      rw [run, incrDskUsed_eq h, u64_eq (by omega), u64_eq (by omega), if_neg (by omega)]
      rfl
  | decrDsk x =>
      simp only [Fits] at hf
      rw [run, decrDskUsed_eq h, if_neg (by omega)]
      rfl

/-! ## a run -/

theorem within_setMem {n : Nat} (hs : Within s) (hn : n ≤ s.memAllowed) : Within (s.setMem n) where
  mem := hn
  dsk := hs.dsk
  memLimit := hs.memLimit
  dskLimit := hs.dskLimit

theorem within_setDsk {n : Nat} (hs : Within s) (hn : n ≤ s.dskAllowed) : Within (s.setDsk n) where
  mem := hs.mem
  dsk := hn
  memLimit := hs.memLimit
  dskLimit := hs.dskLimit

/-- A sum that wrapped round is within the limit too. -/
theorem Within.step (hs : Within s) (r : Request) : Within (final r.run s) := by
  by_cases h : r.Refused
  · rw [final, Request.run_refused h]
    exact hs
  · have hm := hs.mem
    have hd := hs.dsk
    cases r with
    | incrMem x =>
        rw [final, Request.run, incrMemUsed_eq h, Nat.add_comm s.memUsed]
        simp only
        split
        · exact hs
        · exact within_setMem hs (by omega)
    | decrMem x =>
        rw [final, Request.run, decrMemUsed_eq h]
        simp only
        split
        · exact hs
        · exact within_setMem hs (by omega)
    | incrDsk x =>
        rw [final, Request.run, incrDskUsed_eq h, Nat.add_comm s.dskUsed]
        simp only
        split
        · exact hs
        · exact within_setDsk hs (by omega)
    | decrDsk x =>
        rw [final, Request.run, decrDskUsed_eq h]
        simp only
        split
        · exact hs
        · exact within_setDsk hs (by omega)

theorem Within.after (hs : Within s) (rs : List Request) : Within (afterRequests s rs) := by
  induction rs generalizing s with
  | nil => exact hs
  | cons r rs ih => exact ih (hs.step r)

/-- **The limits, in any run of requests**: the counters stay within them; a
request refused for its size changes nothing, nor does any other that ends in
an error; and one within the limit is granted in full. -/
theorem requests_within (hs : Within s) (rs : List Request) (r : Request) :
    Within (afterRequests s rs) ∧
      (r.Refused → r.run (afterRequests s rs) = .error (.bye (-1)) (afterRequests s rs)) ∧
      (∀ e t, r.run (afterRequests s rs) = .error e t → t = afterRequests s rs) ∧
      (¬ r.Refused → r.Fits (afterRequests s rs) →
        r.run (afterRequests s rs) = .ok () (r.granted (afterRequests s rs))) := by
  refine ⟨hs.after rs, Request.run_refused, ?_, Request.run_fits (hs.after rs)⟩
  intro e t herr
  by_cases h : r.Refused
  · rw [Request.run_refused h] at herr
    cases herr
    rfl
  · obtain ⟨u, hu⟩ := Request.run_ok (s := afterRequests s rs) h
    rw [hu] at herr
    cases herr

theorem within_start : Within St.start where
  mem := by decide
  dsk := by decide
  memLimit := by decide
  dskLimit := by decide

/-- Three bytes taken and two given back. -/
theorem requests_within_start :
    (Request.decrMem 2).run (afterRequests St.start [.incrMem 3]) =
      .ok () ((Request.decrMem 2).granted (afterRequests St.start [.incrMem 3])) :=
  (requests_within within_start [.incrMem 3] (.decrMem 2)).2.2.2 (by decide)
    (by decide)

/-- The limit is not kept for a size of 0, for more than 1 GiB of memory, and for
more disk than there is. -/
theorem limits_not_kept : ¬ Request.Lawful St.start (.incrMem 0) ∧
    ¬ Request.Lawful St.start (.incrMem (1024 * 1048576 + 1)) ∧
    ¬ Request.Lawful St.start (.incrDsk (128 * 1024 * 1048576)) := by
  refine ⟨?_, ?_, ?_⟩
  · intro h
    obtain ⟨t, ht⟩ := h.1.mpr (by decide)
    rw [Request.run_refused (by decide)] at ht
    cases ht
  · intro h
    obtain ⟨t, ht⟩ := h.1.mpr (by decide)
    rw [Request.run_refused (by decide)] at ht
    cases ht
  · intro h
    exact absurd (h.1.mp (Request.run_ok (by decide))) (by decide)

end QStore.Vctr
