import Mathlib.Tactic.Common

/-!
# QStore.Lib.Fs

A directory of named files. A name leads to an inode and the inode to the bytes,
so a file that is mapped while its name is removed keeps its bytes, as on any
Unix. A file system carries the two facts its lemmas need: the inodes in use are
below `next`, and no two names lead to one inode.
-/

namespace QStore

/-- Names, the inodes they lead to, and what the inodes hold. -/
structure Fs (ν : Type) where
  dir : ν → Option Nat
  data : Nat → List UInt8
  next : Nat
  dir_lt : ∀ {a i}, dir a = some i → i < next
  dir_inj : ∀ {a b i}, dir a = some i → dir b = some i → a = b

namespace Fs

variable {ν : Type} {a b : ν} {bs : List UInt8} {i : Nat}

/-- No files. -/
def empty : Fs ν := ⟨fun _ => none, fun _ => [], 0, by simp, by simp⟩

/-- The bytes of the file named `a`. -/
def read (fs : Fs ν) (a : ν) : Option (List UInt8) := (fs.dir a).map fs.data

/-- The inode the file named `a` has once it is opened for writing. -/
def inoFor (fs : Fs ν) (a : ν) : Nat := (fs.dir a).getD fs.next

/-- Open `a` for writing, truncated or created, and write `bs`. -/
def write [DecidableEq ν] (fs : Fs ν) (a : ν) (bs : List UInt8) : Fs ν where
  dir := Function.update fs.dir a (some (fs.inoFor a))
  data := Function.update fs.data (fs.inoFor a) bs
  next := fs.next + 1
  dir_lt {b i} h := by
    by_cases hb : b = a
    · subst hb
      rw [Function.update_self] at h
      cases hd : fs.dir b with
      | none => simp [inoFor, hd] at h; omega
      | some j => have := fs.dir_lt hd; simp [inoFor, hd] at h; omega
    · rw [Function.update_of_ne hb] at h
      have := fs.dir_lt h
      omega
  dir_inj {b c i} hb hc := by
    -- an inode just handed out is in use by no other name
    have key : ∀ {d : ν}, fs.dir d = some (fs.inoFor a) → d = a := by
      intro d hd
      cases ha : fs.dir a with
      | none => have := fs.dir_lt hd; simp [inoFor, ha] at this
      | some j => exact fs.dir_inj hd (by simp [inoFor, ha])
    by_cases h1 : b = a <;> by_cases h2 : c = a
    · rw [h1, h2]
    · rw [h1, Function.update_self, Option.some.injEq] at hb
      rw [Function.update_of_ne h2, ← hb] at hc
      exact (h2 (key hc)).elim
    · rw [h2, Function.update_self, Option.some.injEq] at hc
      rw [Function.update_of_ne h1, ← hc] at hb
      exact (h1 (key hb)).elim
    · rw [Function.update_of_ne h1] at hb
      rw [Function.update_of_ne h2] at hc
      exact fs.dir_inj hb hc

/-- Remove the name `a`. The bytes stay for whoever has the file mapped. -/
def unlink [DecidableEq ν] (fs : Fs ν) (a : ν) : Fs ν where
  dir := Function.update fs.dir a none
  data := fs.data
  next := fs.next
  dir_lt {b i} h := by
    by_cases hb : b = a
    · rw [hb, Function.update_self] at h; cases h
    · rw [Function.update_of_ne hb] at h; exact fs.dir_lt h
  dir_inj {b c i} hb hc := by
    by_cases h1 : b = a
    · rw [h1, Function.update_self] at hb; cases hb
    · by_cases h2 : c = a
      · rw [h2, Function.update_self] at hc; cases hc
      · rw [Function.update_of_ne h1] at hb
        rw [Function.update_of_ne h2] at hc
        exact fs.dir_inj hb hc

/-- Write `bs` through a shared mapping of inode `i`. -/
def store (fs : Fs ν) (i : Nat) (bs : List UInt8) : Fs ν :=
  { fs with data := Function.update fs.data i bs }

/-- Move the file named `a` to the name `b`, over what was there. -/
def rename [DecidableEq ν] (fs : Fs ν) (a b : ν) : Fs ν :=
  match fs.read a with
  | none => fs
  | some bs => (fs.unlink a).write b bs

/-! ## reading back -/

variable (fs : Fs ν)

@[simp] theorem read_write_self [DecidableEq ν] : (fs.write a bs).read a = some bs := by
  simp [read, write]

@[simp] theorem read_unlink_self [DecidableEq ν] : (fs.unlink a).read a = none := by
  simp [read, unlink]

theorem read_store_self (h : fs.dir a = some i) : (fs.store i bs).read a = some bs := by
  simp [read, store, h]

theorem read_store_of_ne (h : fs.dir a = some i) (hb : b ≠ a) :
    (fs.store i bs).read b = fs.read b := by
  simp only [read, store]
  cases hd : fs.dir b with
  | none => rfl
  | some j =>
      have hj : j ≠ i := fun hj => hb (fs.dir_inj (hj ▸ hd) h)
      rw [Option.map_some, Option.map_some, Function.update_of_ne hj]

/-! ## files that stay as they are -/

/-- The name `a` leads to the same inode in both, and that holds the same bytes. -/
structure Same (fs fs' : Fs ν) (a : ν) : Prop where
  dir : fs'.dir a = fs.dir a
  data : ∀ i, fs.dir a = some i → fs'.data i = fs.data i

variable {fs} {fs' fs'' : Fs ν}

theorem Same.refl : Same fs fs a := ⟨rfl, fun _ _ => rfl⟩

theorem Same.trans (h : Same fs fs' a) (h' : Same fs' fs'' a) : Same fs fs'' a :=
  ⟨h'.dir.trans h.dir, fun i hi => (h'.data i (h.dir.trans hi)).trans (h.data i hi)⟩

theorem Same.read (h : Same fs fs' a) : fs'.read a = fs.read a := by
  rw [Fs.read, Fs.read, h.dir]
  cases hd : fs.dir a with
  | none => rfl
  | some i => rw [Option.map_some, Option.map_some, h.data i hd]

theorem same_write [DecidableEq ν] (h : b ≠ a) : Same fs (fs.write a bs) b where
  dir := Function.update_of_ne h ..
  data i hi := by
    have hne : i ≠ fs.inoFor a := by
      intro hia
      cases ha : fs.dir a with
      | none => have := fs.dir_lt hi; simp [inoFor, ha] at hia; omega
      | some k => exact h (fs.dir_inj hi (by rw [ha, hia]; simp [inoFor, ha]))
    exact Function.update_of_ne hne ..

theorem same_unlink [DecidableEq ν] (h : b ≠ a) : Same fs (fs.unlink a) b :=
  ⟨Function.update_of_ne h .., fun _ _ => rfl⟩

theorem same_store (hi : fs.dir a = some i) (h : b ≠ a) : Same fs (fs.store i bs) b where
  dir := rfl
  data j hj := by
    have hne : j ≠ i := fun e => h (fs.dir_inj (e ▸ hj) hi)
    exact Function.update_of_ne hne ..

end Fs

end QStore
