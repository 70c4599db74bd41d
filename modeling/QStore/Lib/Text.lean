import QStore.Lib.Binary64
import Mathlib.Data.Rat.Defs

/-!
# QStore.Lib.Text

The conversions of `printf` and `scanf` that write a value as text and read it
back: `%u`, `%f` and `%s`.

A text is a list of characters, one a byte. A scan reads from the front of a
text and returns what it has not read; `none` stands for a conversion that
fails. `scanf` skips white space before each of the three conversions, and a
word ends at white space: a number is always read back as it was written, and a
word that contains white space never is.
-/

namespace QStore.Text

open Binary64

/-- What a scan returns: the value, and the text that is left. -/
abbrev Scan (α : Type) := List Char → Option (α × List Char)

/-- `isspace` -/
def isSpace (c : Char) : Bool := c == ' ' || decide (9 ≤ c.toNat ∧ c.toNat ≤ 13)

/-- White space in a format. -/
def skipSpace (t : List Char) : List Char := t.dropWhile isSpace

/-- Any other text in a format. -/
def scanLit : List Char → List Char → Option (List Char)
  | [], t => some t
  | _ :: _, [] => none
  | c :: f, d :: t => if c = d then scanLit f t else none

/-- `%u`, written. -/
def printNat (n : Nat) : List Char := Nat.toDigits 10 n

/-- `%u`, read into `w` bits by way of `strtoul`. A sign is not modelled. -/
def scanNat (w : Nat) : Scan Nat := fun t =>
  let ds := (skipSpace t).takeWhile Char.isDigit
  if ds.isEmpty then none
  else some (min (Nat.ofDigitChars 10 ds 0) (2 ^ 64 - 1) % 2 ^ w,
    (skipSpace t).dropWhile Char.isDigit)

/-- `%f`, written: six digits after the point. -/
def printFixed (q : Rat) : List Char :=
  let n := rne (q.num.toNat * 10 ^ 6) q.den
  let frac := printNat (n % 10 ^ 6)
  printNat (n / 10 ^ 6) ++ '.' :: (List.replicate (6 - frac.length) '0' ++ frac)

/-- The binary32 value nearest to `num / den`. Exact for quotients between the
smallest normal float and `2^24`. -/
def float32 (num den : Nat) : Rat :=
  let s := 47 + Nat.log2 den - Nat.log2 (num * 2 ^ (24 + Nat.log2 den) / den)
  (rne (num * 2 ^ s) den : Rat) / (2 ^ s : Nat)

/-- `%f`, read into a float. A sign and an exponent are not modelled. -/
def scanFixed : Scan Rat := fun t =>
  let ds := (skipSpace t).takeWhile Char.isDigit
  let rest := (skipSpace t).dropWhile Char.isDigit
  if rest.head? = some '.' then
    let fs := rest.tail.takeWhile Char.isDigit
    if (ds ++ fs).isEmpty then none
    else some (float32 (Nat.ofDigitChars 10 (ds ++ fs) 0) (10 ^ fs.length),
      rest.tail.dropWhile Char.isDigit)
  else if ds.isEmpty then none
  else some (float32 (Nat.ofDigitChars 10 ds 0) 1, rest)

/-- `%s` of at most `max` characters, read. -/
def scanWord (max : Nat) : Scan (List Char) := fun t =>
  let w := ((skipSpace t).takeWhile fun c => !isSpace c).take max
  if w.isEmpty then none else some (w, (skipSpace t).drop w.length)

variable {t f w : List Char} {c : Char} {n k : Nat}

/-! ## white space and literals -/

theorem skipSpace_cons (h : isSpace c = false) : skipSpace (c :: t) = c :: t := by
  rw [skipSpace, List.dropWhile_cons, if_neg (by simp [h])]

theorem scanLit_append : scanLit f (f ++ t) = some t := by
  induction f with
  | nil => rfl
  | cons c f ih => rw [List.cons_append, scanLit, if_pos rfl, ih]

/-! ## numbers -/

theorem isSpace_of_isDigit (h : c.isDigit = true) : isSpace c = false := by
  rw [Char.isDigit_iff_toNat] at h
  have h0 : '0'.toNat = 48 := rfl
  have hc : c ≠ ' ' := by
    intro hc
    subst hc
    exact absurd h.1 (by decide)
  rw [isSpace, Bool.or_eq_false_iff, beq_eq_false_iff_ne, decide_eq_false_iff_not]
  exact ⟨hc, by omega⟩

theorem isDigit_printNat : ∀ c ∈ printNat n, c.isDigit = true :=
  fun _ h => Nat.isDigit_of_mem_toDigits (by decide) (by decide) h

theorem ofDigitChars_printNat : Nat.ofDigitChars 10 (printNat n) 0 = n :=
  Nat.ofDigitChars_ten_toDigits

/-- Digits, up to a character that is none. -/
theorem takeWhile_digits (h : ∀ c ∈ f, c.isDigit = true) (hc : c.isDigit = false) :
    (f ++ c :: t).takeWhile Char.isDigit = f ∧ (f ++ c :: t).dropWhile Char.isDigit = c :: t := by
  rw [List.takeWhile_append_of_pos h, List.dropWhile_append_of_pos h, List.takeWhile_cons,
    List.dropWhile_cons, if_neg (by simp [hc]), if_neg (by simp [hc]), List.append_nil]
  exact ⟨rfl, rfl⟩

/-- White space does not precede a number. -/
theorem skipSpace_printNat : skipSpace (printNat n ++ t) = printNat n ++ t := by
  obtain ⟨d, ds, hds⟩ := List.exists_cons_of_ne_nil (Nat.toDigits_ne_nil (n := n) (b := 10))
  have hd : d.isDigit = true := isDigit_printNat (n := n) d (by rw [printNat, hds]; simp)
  rw [printNat, hds, List.cons_append, skipSpace_cons (isSpace_of_isDigit hd)]

/-- **A number is read back as it was written.** -/
theorem scanNat_printNat (hn : n < 2 ^ k) (hk : k ≤ 64) (hc : c.isDigit = false) :
    scanNat k (printNat n ++ c :: t) = some (n, c :: t) := by
  obtain ⟨h1, h2⟩ := takeWhile_digits (t := t) (isDigit_printNat (n := n)) hc
  have hne : ¬ (printNat n).isEmpty = true := by
    rw [List.isEmpty_iff]
    exact Nat.toDigits_ne_nil
  have h64 : 2 ^ k ≤ 2 ^ 64 := Nat.pow_le_pow_right (by decide) hk
  rw [scanNat, skipSpace_printNat]
  simp only [h1, h2]
  rw [if_neg hne, ofDigitChars_printNat, Nat.min_eq_left (by omega), Nat.mod_eq_of_lt hn]

/-- **A fraction is read back** as the float nearest to its six digits. -/
theorem scanFixed_printFixed {q : Rat} (hc : c.isDigit = false) :
    scanFixed (printFixed q ++ c :: t) =
      some (float32 (rne (q.num.toNat * 10 ^ 6) q.den) (10 ^ 6), c :: t) := by
  obtain ⟨n, hn⟩ : ∃ n, n = rne (q.num.toNat * 10 ^ 6) q.den := ⟨_, rfl⟩
  obtain ⟨fs, hfs⟩ : ∃ fs, fs = List.replicate (6 - (printNat (n % 10 ^ 6)).length) '0' ++
      printNat (n % 10 ^ 6) := ⟨_, rfl⟩
  have hprint : printFixed q ++ c :: t = printNat (n / 10 ^ 6) ++ '.' :: (fs ++ c :: t) := by
    simp only [printFixed, ← hn, ← hfs]
    rw [List.append_assoc, List.cons_append]
  have hsix : (printNat (n % 10 ^ 6)).length ≤ 6 :=
    (Nat.length_toDigits_le_iff (by decide) (by decide)).mpr (Nat.mod_lt n (by decide))
  have hlen : fs.length = 6 := by
    rw [hfs, List.length_append, List.length_replicate]
    omega
  have hdigits : ∀ d ∈ fs, d.isDigit = true := by
    intro d hd
    rw [hfs, List.mem_append] at hd
    rcases hd with hd | hd
    · rw [List.eq_of_mem_replicate hd]
      rfl
    · exact isDigit_printNat d hd
  have hval : Nat.ofDigitChars 10 (printNat (n / 10 ^ 6) ++ fs) 0 = n := by
    rw [Nat.ofDigitChars_append, ofDigitChars_printNat, Nat.ofDigitChars_eq_ofDigitChars_zero,
      hlen, hfs, Nat.ofDigitChars_append, Nat.ofDigitChars_replicate_zero, Nat.mul_zero,
      ofDigitChars_printNat]
    exact Nat.div_add_mod n (10 ^ 6)
  obtain ⟨h1, h2⟩ := takeWhile_digits (t := fs ++ c :: t) (c := '.')
    (isDigit_printNat (n := n / 10 ^ 6)) rfl
  obtain ⟨h3, h4⟩ := takeWhile_digits (t := t) hdigits hc
  have hne : ¬ (printNat (n / 10 ^ 6) ++ fs).isEmpty = true := by
    rw [List.isEmpty_iff, ← List.length_eq_zero_iff, List.length_append, hlen]
    omega
  rw [hprint, scanFixed, skipSpace_printNat]
  simp only [h1, h2, List.head?_cons, List.tail_cons, h3, h4]
  rw [if_pos trivial, if_neg hne, hval, hlen, ← hn]

/-! ## words -/

/-- **A word is read back as it was written.** -/
theorem scanWord_append (hw : ∀ c ∈ w, isSpace c = false) (hne : w ≠ []) (hlen : w.length ≤ n)
    (hc : isSpace c = true) : scanWord n (w ++ c :: t) = some (w, c :: t) := by
  obtain ⟨d, ds, rfl⟩ := List.exists_cons_of_ne_nil hne
  have hskip : skipSpace (d :: ds ++ c :: t) = d :: ds ++ c :: t :=
    skipSpace_cons (hw d (by simp))
  have htake : (d :: ds ++ c :: t).takeWhile (fun c => !isSpace c) = d :: ds := by
    rw [List.takeWhile_append_of_pos (fun e he => by simp [hw e he]), List.takeWhile_cons,
      if_neg (by simp [hc]), List.append_nil]
  rw [scanWord, hskip, htake]
  simp only [List.take_of_length_le hlen]
  rw [if_neg (by simp), List.drop_left]

/-- What is read as a word is one. -/
theorem scanWord_word (h : scanWord n t = some (w, f)) :
    w.length ≤ n ∧ ∀ c ∈ w, isSpace c = false := by
  rw [scanWord] at h
  split at h
  · contradiction
  · rw [Option.some.injEq, Prod.mk.injEq] at h
    rw [← h.1]
    refine ⟨List.length_take_le _ _, fun c hc => ?_⟩
    have hall := List.all_eq_true.mp List.all_takeWhile c (List.mem_of_mem_take hc)
    rwa [Bool.not_eq_true'] at hall

end QStore.Text
