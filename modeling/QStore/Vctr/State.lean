import QStore.Lib.Ends
import QStore.Lib.Fs
import QStore.Lib.Pages
import QStore.Qtype

/-!
# QStore.Vctr.State

What the vector runtime keeps (`vctr_rs_hmap_val_t`, `chnk_rs_hmap_val_t` and the
globals) and how a function of it fails.

A function ends with a status. `bye` carries a negative one, and what was
changed before it stays changed; `ub` is where the C has no meaning left (a null
or unmapped pointer read, a copy past the end of a block). The two hash maps are
finite maps here: `QStore.Hmap.Run` shows that a table reached by puts and
deletes is one. `posix_memalign` succeeds: its failure is a positive status,
which `cBYE` lets through to the copy that follows.
-/

namespace QStore.Vctr

/-- Truncation to `uint32_t`. -/
def u32 (x : Nat) : Nat := x % 2 ^ 32

theorem u32_eq {x : Nat} (h : x < 2 ^ 32) : u32 x = x := Nat.mod_eq_of_lt h

/-- Truncation to `uint64_t`. -/
def u64 (x : Nat) : Nat := x % 2 ^ 64

theorem u64_eq {x : Nat} (h : x < 2 ^ 64) : u64 x = x := Nat.mod_eq_of_lt h

/-- A block of the heap: where it is and what it holds. -/
structure Buf where
  addr : Nat
  bytes : List UInt8
  deriving DecidableEq, Repr

/-- What `rs_mmap` hands out: where the file is mapped, which file it is and how
long it was then. `live` is false once the range has been unmapped. -/
structure Mapping where
  addr : Nat
  ino : Nat
  len : Nat
  live : Bool
  deriving DecidableEq, Repr

/-- `vctr_rs_hmap_val_t`. `x` is `X` and `nX`. -/
structure VctrVal where
  name : List UInt8
  numElements : Nat
  minChnkIdx : Nat
  maxChnkIdx : Nat
  maxNumInChnk : Nat
  width : Nat
  hasNn : Bool
  nnKey : Nat
  hasParent : Bool
  parentKey : Nat
  isMemo : Bool
  memoLen : Nat
  isKillable : Bool
  numKillIgnore : Nat
  isEarlyFreeable : Bool
  numFreeIgnore : Nat
  qtype : Qtype
  isEov : Bool
  isPersist : Bool
  isError : Bool
  isLma : Bool
  numReaders : Nat
  numWriters : Nat
  x : Option Mapping
  deriving DecidableEq, Repr

/-- `chnk_rs_hmap_val_t`, less `touch_time`. -/
structure ChnkVal where
  numReaders : UInt16
  numWriters : UInt16
  numElements : Nat
  qtype : Qtype
  l2Exists : Bool
  numFreeIgnore : Nat
  size : Nat
  l1Mem : Option Buf
  deriving DecidableEq, Repr

/-- The files the runtime names itself, by the two 24-bit numbers their names
spell, and the files a caller names. -/
inductive FileName
  | l2 (vctrUqid chnkIdx : Nat)
  | other (path : String)
  deriving DecidableEq, Repr

/-- `((uint32_t)~0)`, the chunk index that stands for the linear file. -/
def lmaIdx : Nat := 2 ^ 32 - 1

/-- `l2_file_name`: there is no name when the top 8 bits of either number are in
use, except that the linear file drops those of the vector. -/
def l2FileName (vctrUqid chnkIdx : Nat) : Option FileName :=
  let dirNum := if chnkIdx = lmaIdx then 0 else vctrUqid / 2 ^ 24 * 2 ^ 8 + chnkIdx / 2 ^ 24
  if dirNum = 0 then some (.l2 (vctrUqid % 2 ^ 24) (chnkIdx % 2 ^ 24)) else none

/-- The name of a vector's linear file; there always is one. -/
def lmaFile (vctrUqid : Nat) : FileName := .l2 (vctrUqid % 2 ^ 24) (2 ^ 24 - 1)

theorem l2FileName_eq_some {u i : Nat} (hi : i ≠ lmaIdx) {f : FileName}
    (h : l2FileName u i = some f) : u < 2 ^ 24 ∧ i < 2 ^ 24 ∧ f = .l2 u i := by
  simp only [l2FileName, if_neg hi] at h
  split at h
  · cases h
    have hu : u < 2 ^ 24 := by omega
    have hi' : i < 2 ^ 24 := by omega
    exact ⟨hu, hi', by rw [Nat.mod_eq_of_lt hu, Nat.mod_eq_of_lt hi']⟩
  · cases h

/-- The globals. `brk` is the next address to hand out, `junk` what fresh memory
happens to hold. `refused` is whether a request for memory or disk was ever
refused: the code prints a line when it refuses one, and keeps no note of it. -/
structure St where
  vctrs : Nat → Option VctrVal
  chnks : Nat × Nat → Option ChnkVal
  fs : Fs FileName
  vctrUqid : Nat
  memUsed : Nat
  memAllowed : Nat
  dskUsed : Nat
  dskAllowed : Nat
  brk : Nat
  junk : UInt8
  refused : Bool

namespace St

/-- The globals as a process starts. -/
def start : St where
  vctrs := fun _ => none
  chnks := fun _ => none
  fs := .empty
  vctrUqid := 0
  memUsed := 0
  memAllowed := 2 ^ 32
  dskUsed := 0
  dskAllowed := 2 ^ 35
  brk := 1
  junk := 0
  refused := false

variable (s : St)

def setVctr (u : Nat) (v : VctrVal) : St := { s with vctrs := Function.update s.vctrs u (some v) }
def delVctr (u : Nat) : St := { s with vctrs := Function.update s.vctrs u none }
def setChnk (u i : Nat) (c : ChnkVal) : St :=
  { s with chnks := Function.update s.chnks (u, i) (some c) }
def delChnk (u i : Nat) : St := { s with chnks := Function.update s.chnks (u, i) none }
def setFs (fs : Fs FileName) : St := { s with fs := fs }
def setMem (n : Nat) : St := { s with memUsed := n }
def setDsk (n : Nat) : St := { s with dskUsed := n }
def bump : St := { s with brk := s.brk + 1 }
def setUqid (n : Nat) : St := { s with vctrUqid := n }
def setRefused (b : Bool) : St := { s with refused := b }

variable {s} {u w i j n : Nat} {v : VctrVal} {c : ChnkVal} {fs : Fs FileName}

@[simp] theorem setVctr_self : (s.setVctr u v).vctrs u = some v := Function.update_self ..
@[simp] theorem setVctr_chnks : (s.setVctr u v).chnks = s.chnks := rfl
@[simp] theorem setVctr_fs : (s.setVctr u v).fs = s.fs := rfl
@[simp] theorem setVctr_junk : (s.setVctr u v).junk = s.junk := rfl
theorem setVctr_of_ne (h : w ≠ u) : (s.setVctr u v).vctrs w = s.vctrs w :=
  Function.update_of_ne h ..
@[simp] theorem delVctr_self : (s.delVctr u).vctrs u = none := Function.update_self ..
@[simp] theorem delVctr_chnks : (s.delVctr u).chnks = s.chnks := rfl
@[simp] theorem delVctr_fs : (s.delVctr u).fs = s.fs := rfl
theorem delVctr_of_ne (h : w ≠ u) : (s.delVctr u).vctrs w = s.vctrs w :=
  Function.update_of_ne h ..
@[simp] theorem setChnk_self : (s.setChnk u i c).chnks (u, i) = some c := Function.update_self ..
@[simp] theorem setChnk_vctrs : (s.setChnk u i c).vctrs = s.vctrs := rfl
@[simp] theorem setChnk_fs : (s.setChnk u i c).fs = s.fs := rfl
@[simp] theorem setChnk_junk : (s.setChnk u i c).junk = s.junk := rfl
theorem setChnk_of_ne (h : (w, j) ≠ (u, i)) : (s.setChnk u i c).chnks (w, j) = s.chnks (w, j) :=
  Function.update_of_ne h ..
@[simp] theorem delChnk_self : (s.delChnk u i).chnks (u, i) = none := Function.update_self ..
@[simp] theorem delChnk_vctrs : (s.delChnk u i).vctrs = s.vctrs := rfl
@[simp] theorem delChnk_fs : (s.delChnk u i).fs = s.fs := rfl
theorem delChnk_of_ne (h : (w, j) ≠ (u, i)) : (s.delChnk u i).chnks (w, j) = s.chnks (w, j) :=
  Function.update_of_ne h ..
@[simp] theorem setFs_vctrs : (s.setFs fs).vctrs = s.vctrs := rfl
@[simp] theorem setFs_chnks : (s.setFs fs).chnks = s.chnks := rfl
@[simp] theorem setFs_fs : (s.setFs fs).fs = fs := rfl
@[simp] theorem setMem_vctrs : (s.setMem n).vctrs = s.vctrs := rfl
@[simp] theorem setMem_chnks : (s.setMem n).chnks = s.chnks := rfl
@[simp] theorem setMem_fs : (s.setMem n).fs = s.fs := rfl
@[simp] theorem setMem_junk : (s.setMem n).junk = s.junk := rfl
@[simp] theorem setDsk_vctrs : (s.setDsk n).vctrs = s.vctrs := rfl
@[simp] theorem setDsk_chnks : (s.setDsk n).chnks = s.chnks := rfl
@[simp] theorem setDsk_fs : (s.setDsk n).fs = s.fs := rfl
@[simp] theorem bump_vctrs : s.bump.vctrs = s.vctrs := rfl
@[simp] theorem bump_chnks : s.bump.chnks = s.chnks := rfl
@[simp] theorem bump_fs : s.bump.fs = s.fs := rfl
@[simp] theorem bump_junk : s.bump.junk = s.junk := rfl
@[simp] theorem setRefused_vctrs {b : Bool} : (s.setRefused b).vctrs = s.vctrs := rfl
@[simp] theorem setRefused_chnks {b : Bool} : (s.setRefused b).chnks = s.chnks := rfl
@[simp] theorem setRefused_fs {b : Bool} : (s.setRefused b).fs = s.fs := rfl
@[simp] theorem setRefused_junk {b : Bool} : (s.setRefused b).junk = s.junk := rfl

end St

/-- How a function fails: `go_BYE` with a negative status, or no meaning. -/
inductive Err
  | bye (status : Int)
  | ub
  deriving DecidableEq, Repr

abbrev M := EStateM Err St

/-- `go_BYE(-1)` -/
def goBYE {α : Type} : M α := throw (.bye (-1))

def ub {α : Type} : M α := throw .ub

/-- `if ( c ) { go_BYE(-1); }` -/
def byeIf (c : Prop) [Decidable c] : M Unit := if c then goBYE else pure ()

/-- `if ( c ) { m }` -/
def onlyIf (c : Prop) [Decidable c] (m : M Unit) : M Unit := if c then m else pure ()

/-- `vctr_is`, and `go_BYE(-1)` if it is not found. -/
def getVctr (u : Nat) : M VctrVal := do
  match (← get).vctrs u with
  | some v => pure v
  | none => goBYE

/-- `chnk_is`, and `go_BYE(-1)` if it is not found. -/
def getChnk (u i : Nat) : M ChnkVal := do
  match (← get).chnks (u, i) with
  | some c => pure c
  | none => goBYE

def setVctr (u : Nat) (v : VctrVal) : M Unit := modify (·.setVctr u v)

def setChnk (u i : Nat) (c : ChnkVal) : M Unit := modify (·.setChnk u i c)

/-- Change the vector's entry where it lies in the table. -/
def modVctr (u : Nat) (g : VctrVal → VctrVal) : M Unit := do setVctr u (g (← getVctr u))

/-- Change the chunk's entry where it lies in the table. -/
def modChnk (u i : Nat) (g : ChnkVal → ChnkVal) : M Unit := do setChnk u i (g (← getChnk u i))

/-- `l2_file_name`, and `go_BYE(-1)` if it is `NULL`. -/
def l2Name (u i : Nat) : M FileName :=
  match l2FileName u i with
  | some f => pure f
  | none => goBYE

/-- Run `m` for its status. -/
def statusOf (m : M Unit) : M Int := fun s =>
  match m s with
  | .ok _ t => .ok 0 t
  | .error (.bye k) t => .ok k t
  | .error .ub t => .error .ub t

/-- Call `m` and do not look at its status. -/
def ignoreStatus (m : M Unit) : M Unit := do discard (statusOf m)

/-! ## memory and files -/

/-- `posix_memalign` -/
def memalign (n : Nat) : M Buf := do
  let s ← get
  modify (·.bump)
  pure ⟨s.brk, List.replicate n s.junk⟩

/-- What `memcpy` reads: the first `n` bytes at `bs`. -/
def takeN (bs : List UInt8) (n : Nat) : M (List UInt8) :=
  if n ≤ bs.length then pure (bs.take n) else ub

/-- What a read of `n` bytes at `bs + off` finds. -/
def slice (bs : List UInt8) (off n : Nat) : M (List UInt8) :=
  if off + n ≤ bs.length then pure ((bs.drop off).take n) else ub

/-- `memcpy` of `xs` to `b + off`. -/
def poke (b : Buf) (off : Nat) (xs : List UInt8) : M Buf :=
  if off + xs.length ≤ b.bytes.length then pure { b with bytes := splice b.bytes off xs } else ub

/-- `isfile` -/
def isfile (f : FileName) : M Bool := return ((← get).fs.read f).isSome

/-- `rs_mmap` of a file whose mapping does not outlive the call: its bytes. -/
def mmapBytes (f : FileName) : M (List UInt8) := do
  match (← get).fs.read f with
  | some bs => pure bs
  | none => goBYE

/-- `rs_mmap`: an empty file is mapped nowhere. -/
def rsMmap (f : FileName) : M (Option Mapping) := do
  let s ← get
  match s.fs.dir f with
  | none => goBYE
  | some ino =>
    let len := (s.fs.data ino).length
    if len = 0 then pure none
    else do
      modify (·.bump)
      pure (some ⟨s.brk, ino, len, true⟩)

/-- Read `n` bytes through a mapping. -/
def readMapping (x : Option Mapping) (off n : Nat) : M (List UInt8) := do
  match x with
  | none => ub
  | some m => if m.live then slice (((← get).fs.data m.ino).take m.len) off n else ub

/-- `fopen` for writing, `fwrite`, `fclose`. -/
def writeFile (f : FileName) (bs : List UInt8) : M Unit := modify fun s => s.setFs (s.fs.write f bs)

/-- `unlink`, and `cBYE` of its status. -/
def unlinkFile (f : FileName) : M Unit := do
  byeIf ((← isfile f) = false)
  modify fun s => s.setFs (s.fs.unlink f)

/-! ## accounting

Each of the four refuses `0`. A sum over the limit is not added, but the status
that would say so is overwritten by that of the unlock. The sums are those of
`uint64_t`. -/

def incrMemUsed (x : Nat) : M Unit := do
  byeIf (x = 0)
  byeIf (x > 1024 * 1048576)
  modify fun s => if u64 (x + s.memUsed) > s.memAllowed then s else s.setMem (u64 (s.memUsed + x))

def decrMemUsed (x : Nat) : M Unit := do
  byeIf (x = 0)
  byeIf (x > 1024 * 1048576)
  modify fun s => if x > s.memUsed then s else s.setMem (s.memUsed - x)

def incrDskUsed (x : Nat) : M Unit := do
  byeIf (x = 0)
  modify fun s => if u64 (x + s.dskUsed) > s.dskAllowed then s else s.setDsk (u64 (s.dskUsed + x))

def decrDskUsed (x : Nat) : M Unit := do
  byeIf (x = 0)
  modify fun s => if x > s.dskUsed then s else s.setDsk (s.dskUsed - x)

/-- `incr_mem_used` refuses `x`: with an error, or without. -/
def St.RefusesMem (s : St) (x : Nat) : Prop :=
  x = 0 ∨ x > 1024 * 1048576 ∨ u64 (x + s.memUsed) > s.memAllowed

/-- `incr_dsk_used` refuses `x`. -/
def St.RefusesDsk (s : St) (x : Nat) : Prop := x = 0 ∨ u64 (x + s.dskUsed) > s.dskAllowed

instance {s : St} {x : Nat} : Decidable (s.RefusesMem x) := inferInstanceAs (Decidable (_ ∨ _))

instance {s : St} {x : Nat} : Decidable (s.RefusesDsk x) := inferInstanceAs (Decidable (_ ∨ _))

/-- `incr_mem_used`, with a note of it if it refuses. -/
def incrMem (x : Nat) : M Unit := do
  modify fun s => if s.RefusesMem x then s.setRefused true else s
  incrMemUsed x

/-- `incr_dsk_used`, with a note of it if it refuses. -/
def incrDsk (x : Nat) : M Unit := do
  modify fun s => if s.RefusesDsk x then s.setRefused true else s
  incrDskUsed x

/-! ## rules -/

section Rules

variable {α : Type} {s : St} {Q : α → St → Prop} {E : Err → St → Prop} {u i : Nat}

@[simp] theorem ends_goBYE : Ends (goBYE : M α) s Q E ↔ E (.bye (-1)) s := Iff.rfl

@[simp] theorem ends_ub : Ends (ub : M α) s Q E ↔ E .ub s := Iff.rfl

@[simp] theorem ends_byeIf {c : Prop} [Decidable c] {Q : Unit → St → Prop} :
    Ends (byeIf c) s Q E ↔ (c → E (.bye (-1)) s) ∧ (¬ c → Q () s) := by
  by_cases hc : c <;> simp [byeIf, hc]

@[simp] theorem ends_onlyIf {c : Prop} [Decidable c] {m : M Unit} {Q : Unit → St → Prop} :
    Ends (onlyIf c m) s Q E ↔ (c → Ends m s Q E) ∧ (¬ c → Q () s) := by
  simp [onlyIf, ends_ite]

@[simp] theorem ends_getVctr {Q : VctrVal → St → Prop} :
    Ends (getVctr u) s Q E ↔
      (s.vctrs u = none → E (.bye (-1)) s) ∧ ∀ v, s.vctrs u = some v → Q v s := by
  cases h : s.vctrs u <;> simp [getVctr, h]

@[simp] theorem ends_getChnk {Q : ChnkVal → St → Prop} :
    Ends (getChnk u i) s Q E ↔
      (s.chnks (u, i) = none → E (.bye (-1)) s) ∧ ∀ c, s.chnks (u, i) = some c → Q c s := by
  cases h : s.chnks (u, i) <;> simp [getChnk, h]

theorem ends_getVctr_of {v : VctrVal} (hv : s.vctrs u = some v) {Q : VctrVal → St → Prop} :
    Ends (getVctr u) s Q E ↔ Q v s := by
  simp [hv]

theorem ends_getChnk_of {c : ChnkVal} (hc : s.chnks (u, i) = some c) {Q : ChnkVal → St → Prop} :
    Ends (getChnk u i) s Q E ↔ Q c s := by
  simp [hc]

theorem ends_byeIf_neg {c : Prop} [Decidable c] (hc : ¬ c) {Q : Unit → St → Prop} :
    Ends (byeIf c) s Q E ↔ Q () s := by
  simp [hc]

@[simp] theorem ends_setVctr {v : VctrVal} {Q : Unit → St → Prop} :
    Ends (setVctr u v) s Q E ↔ Q () (s.setVctr u v) := Iff.rfl

@[simp] theorem ends_setChnk {c : ChnkVal} {Q : Unit → St → Prop} :
    Ends (setChnk u i c) s Q E ↔ Q () (s.setChnk u i c) := Iff.rfl

@[simp] theorem ends_modVctr {g : VctrVal → VctrVal} {Q : Unit → St → Prop} :
    Ends (modVctr u g) s Q E ↔
      (s.vctrs u = none → E (.bye (-1)) s) ∧
        ∀ v, s.vctrs u = some v → Q () (s.setVctr u (g v)) := by
  simp [modVctr]

@[simp] theorem ends_modChnk {g : ChnkVal → ChnkVal} {Q : Unit → St → Prop} :
    Ends (modChnk u i g) s Q E ↔
      (s.chnks (u, i) = none → E (.bye (-1)) s) ∧
        ∀ c, s.chnks (u, i) = some c → Q () (s.setChnk u i (g c)) := by
  simp [modChnk]

theorem ends_modVctr_of {g : VctrVal → VctrVal} {v : VctrVal} (hv : s.vctrs u = some v)
    {Q : Unit → St → Prop} : Ends (modVctr u g) s Q E ↔ Q () (s.setVctr u (g v)) := by
  simp [hv]

theorem ends_modChnk_of {g : ChnkVal → ChnkVal} {c : ChnkVal} (hc : s.chnks (u, i) = some c)
    {Q : Unit → St → Prop} : Ends (modChnk u i g) s Q E ↔ Q () (s.setChnk u i (g c)) := by
  simp [hc]

@[simp] theorem ends_l2Name {Q : FileName → St → Prop} :
    Ends (l2Name u i) s Q E ↔
      (l2FileName u i = none → E (.bye (-1)) s) ∧ ∀ f, l2FileName u i = some f → Q f s := by
  cases h : l2FileName u i <;> simp [l2Name, h]

@[simp] theorem ends_statusOf {m : M Unit} {Q : Int → St → Prop} :
    Ends (statusOf m) s Q E ↔
      Ends m s (fun _ t => Q 0 t) fun e t => match e with
        | .bye k => Q k t
        | .ub => E .ub t := by
  simp only [Ends, statusOf]
  cases m s with
  | ok a t => rfl
  | error e t => cases e <;> rfl

@[simp] theorem ends_ignoreStatus {m : M Unit} {Q : Unit → St → Prop} :
    Ends (ignoreStatus m) s Q E ↔
      Ends m s (fun _ t => Q () t) fun e t => match e with
        | .bye _ => Q () t
        | .ub => E .ub t := by
  rw [ignoreStatus, Functor.discard, Functor.mapConst]
  exact ends_map.trans ends_statusOf

@[simp] theorem ends_memalign {n : Nat} {Q : Buf → St → Prop} :
    Ends (memalign n) s Q E ↔ Q ⟨s.brk, List.replicate n s.junk⟩ s.bump := Iff.rfl

@[simp] theorem ends_takeN {bs : List UInt8} {n : Nat} {Q : List UInt8 → St → Prop} :
    Ends (takeN bs n) s Q E ↔
      (n ≤ bs.length → Q (bs.take n) s) ∧ (¬ n ≤ bs.length → E .ub s) := by
  simp [takeN, ends_ite]

@[simp] theorem ends_slice {bs : List UInt8} {off n : Nat} {Q : List UInt8 → St → Prop} :
    Ends (slice bs off n) s Q E ↔
      (off + n ≤ bs.length → Q ((bs.drop off).take n) s) ∧
        (¬ off + n ≤ bs.length → E .ub s) := by
  simp [slice, ends_ite]

@[simp] theorem ends_poke {b : Buf} {off : Nat} {xs : List UInt8} {Q : Buf → St → Prop} :
    Ends (poke b off xs) s Q E ↔
      (off + xs.length ≤ b.bytes.length → Q { b with bytes := splice b.bytes off xs } s) ∧
        (¬ off + xs.length ≤ b.bytes.length → E .ub s) := by
  simp [poke, ends_ite]

@[simp] theorem ends_isfile {f : FileName} {Q : Bool → St → Prop} :
    Ends (isfile f) s Q E ↔ Q (s.fs.read f).isSome s := Iff.rfl

@[simp] theorem ends_mmapBytes {f : FileName} {Q : List UInt8 → St → Prop} :
    Ends (mmapBytes f) s Q E ↔
      (s.fs.read f = none → E (.bye (-1)) s) ∧ ∀ bs, s.fs.read f = some bs → Q bs s := by
  cases h : s.fs.read f <;> simp [mmapBytes, h]

@[simp] theorem ends_rsMmap {f : FileName} {Q : Option Mapping → St → Prop} :
    Ends (rsMmap f) s Q E ↔
      (s.fs.dir f = none → E (.bye (-1)) s) ∧ ∀ ino, s.fs.dir f = some ino →
        (s.fs.data ino = [] → Q none s) ∧
        (s.fs.data ino ≠ [] → Q (some ⟨s.brk, ino, (s.fs.data ino).length, true⟩) s.bump) := by
  cases h : s.fs.dir f <;> simp [rsMmap, h, ends_ite]

@[simp] theorem ends_readMapping {x : Option Mapping} {off n : Nat} {Q : List UInt8 → St → Prop} :
    Ends (readMapping x off n) s Q E ↔
      match x with
      | none => E .ub s
      | some m => if m.live then Ends (slice ((s.fs.data m.ino).take m.len) off n) s Q E
          else E .ub s := by
  cases x with
  | none => rfl
  | some m => cases hl : m.live <;> simp [readMapping, hl]

@[simp] theorem ends_writeFile {f : FileName} {bs : List UInt8} {Q : Unit → St → Prop} :
    Ends (writeFile f bs) s Q E ↔ Q () (s.setFs (s.fs.write f bs)) := Iff.rfl

@[simp] theorem ends_unlinkFile {f : FileName} {Q : Unit → St → Prop} :
    Ends (unlinkFile f) s Q E ↔
      (s.fs.read f = none → E (.bye (-1)) s) ∧
        ∀ bs, s.fs.read f = some bs → Q () (s.setFs (s.fs.unlink f)) := by
  cases h : s.fs.read f <;> simp [unlinkFile, h]

end Rules

/-! The accounting changes nothing but its own counters. -/

section Accounting

variable {s : St} {Q : Unit → St → Prop} {E : Err → St → Prop} {x : Nat}

theorem ends_incrMem_of_size
    (hE : x = 0 ∨ x > 1024 * 1048576 → ∀ b, E (.bye (-1)) (s.setRefused b))
    (hQ : 0 < x → x ≤ 1024 * 1048576 → ∀ n b, Q () ((s.setMem n).setRefused b)) :
    Ends (incrMem x) s Q E := by
  have hnote : ∀ b, Ends (incrMemUsed x) (s.setRefused b) (fun _ t => Q () t) E := by
    intro b
    simp only [incrMemUsed, ends_bind, ends_byeIf, ends_modify]
    refine ⟨fun h => hE (Or.inl h) b, fun h0 => ⟨fun h => hE (Or.inr h) b, fun h1 => ?_⟩⟩
    have hsize := hQ (Nat.pos_of_ne_zero h0) (Nat.le_of_not_lt h1)
    split
    · exact hsize s.memUsed b
    · exact hsize _ b
  rw [incrMem, ends_bind, ends_modify]
  split
  · exact hnote true
  · exact hnote s.refused

theorem ends_incrMem (hE : x = 0 ∨ x > 1024 * 1048576 → ∀ b, E (.bye (-1)) (s.setRefused b))
    (hQ : ∀ n b, Q () ((s.setMem n).setRefused b)) : Ends (incrMem x) s Q E :=
  ends_incrMem_of_size hE fun _ _ => hQ

theorem ends_decrMemUsed_of_size (hE : x = 0 ∨ x > 1024 * 1048576 → E (.bye (-1)) s)
    (hQ : 0 < x → x ≤ 1024 * 1048576 → ∀ n, Q () (s.setMem n)) :
    Ends (decrMemUsed x) s Q E := by
  simp only [decrMemUsed, ends_bind, ends_byeIf, ends_modify]
  refine ⟨fun h => hE (Or.inl h), fun h0 => ⟨fun h => hE (Or.inr h), fun h1 => ?_⟩⟩
  have hsize := hQ (Nat.pos_of_ne_zero h0) (Nat.le_of_not_lt h1)
  split
  · exact hsize s.memUsed
  · exact hsize _

theorem ends_decrMemUsed (hE : x = 0 ∨ x > 1024 * 1048576 → E (.bye (-1)) s)
    (hQ : ∀ n, Q () (s.setMem n)) : Ends (decrMemUsed x) s Q E :=
  ends_decrMemUsed_of_size hE fun _ _ => hQ

theorem ends_incrDsk (hE : x = 0 → ∀ b, E (.bye (-1)) (s.setRefused b))
    (hQ : ∀ n b, Q () ((s.setDsk n).setRefused b)) : Ends (incrDsk x) s Q E := by
  have hnote : ∀ b, Ends (incrDskUsed x) (s.setRefused b) (fun _ t => Q () t) E := by
    intro b
    simp only [incrDskUsed, ends_bind, ends_byeIf, ends_modify]
    refine ⟨fun h => hE h b, fun _ => ?_⟩
    split
    · exact hQ s.dskUsed b
    · exact hQ _ b
  rw [incrDsk, ends_bind, ends_modify]
  split
  · exact hnote true
  · exact hnote s.refused

theorem ends_decrDskUsed_of_size (hE : x = 0 → E (.bye (-1)) s)
    (hQ : 0 < x → ∀ n, Q () (s.setDsk n)) : Ends (decrDskUsed x) s Q E := by
  simp only [decrDskUsed, ends_bind, ends_byeIf, ends_modify]
  refine ⟨hE, fun h0 => ?_⟩
  have hsize := hQ (Nat.pos_of_ne_zero h0)
  split
  · exact hsize s.dskUsed
  · exact hsize _

theorem ends_decrDskUsed (hE : x = 0 → E (.bye (-1)) s) (hQ : ∀ n, Q () (s.setDsk n)) :
    Ends (decrDskUsed x) s Q E :=
  ends_decrDskUsed_of_size hE fun _ => hQ

/-- Where the status is not looked at, only the counters change. -/
theorem ends_ignore_incrMem (hQ : ∀ n b, Q () ((s.setMem n).setRefused b)) :
    Ends (ignoreStatus (incrMem x)) s Q E := by
  rw [ends_ignoreStatus]
  exact ends_incrMem (fun _ b => hQ s.memUsed b) hQ

theorem ends_ignore_decrDskUsed (hQ : ∀ n, Q () (s.setDsk n)) :
    Ends (ignoreStatus (decrDskUsed x)) s Q E := by
  rw [ends_ignoreStatus]
  exact ends_decrDskUsed (fun _ => hQ s.dskUsed) hQ

end Accounting

end QStore.Vctr
