import QStore.Vctr.State

/-!
# QStore.Vctr.L2FileName

The text of a backup's name (`QJIT/GUTILS/src/l2_file_name.c`):

```
<root of the table space>/_uuuuuu_cccccc
```

six nibbles of the vector's uqid and six of the chunk's index, the lowest first. The top 8 bits of
the two were meant for a directory that is still "TO BE IMPLEMENTED"; a linear file is named as
if they were 0.
-/

namespace QStore.Vctr

/-- `hex` -/
def hex (x : Nat) : Char :=
  match x with
  | 0 => '0'
  | 1 => '1'
  | 2 => '2'
  | 3 => '3'
  | 4 => '4'
  | 5 => '5'
  | 6 => '6'
  | 7 => '7'
  | 8 => '8'
  | 9 => '9'
  | 10 => 'A'
  | 11 => 'B'
  | 12 => 'C'
  | 13 => 'D'
  | 14 => 'E'
  | 15 => 'F'
  | _ => '_'

/-- The loop over the nibbles, `n` of them. -/
def hexLoop : Nat → UInt32 → List Char
  | 0, _ => []
  | n + 1, x => hex (x &&& 0xF).toNat :: hexLoop n (x >>> 4)

/-- `Q_MAX_NUM_TABLESPACES` -/
def qMaxNumTablespaces : Nat := 16

/-- `l2_file_name`, which returns `NULL` or the text. `gDataDirRoot` are the roots. -/
def l2FileText (gDataDirRoot : Nat → List Char) (tbsp : Nat) (vctrUqid chnkIdx : UInt32) :
    Option (List Char) :=
  if qMaxNumTablespaces ≤ tbsp then none
  else if gDataDirRoot tbsp = [] then none
  else
    let part1 := vctrUqid >>> 24
    let part2 := chnkIdx >>> 24
    let dirNum : UInt32 := if chnkIdx = ~~~0 then 0 else part1 <<< 8 ||| part2
    if dirNum ≠ 0 then none
    else
      let mask := ~~~(0xFF000000 : UInt32)
      some (gDataDirRoot tbsp ++ ['/', '_'] ++ hexLoop 6 (vctrUqid &&& mask) ++ ['_'] ++
        hexLoop 6 (chnkIdx &&& mask))

variable {gDataDirRoot : Nat → List Char} {tbsp tbsp' n x y : Nat} {u u' i i' v w : UInt32}
  {f f' : List Char}

/-! ## the nibbles -/

theorem hex_inj (hx : x < 16) (hy : y < 16) (h : hex x = hex y) : x = y := by
  have hall : ∀ a b : Fin 16, hex a = hex b → a = b := by decide
  exact Fin.mk.inj (hall ⟨x, hx⟩ ⟨y, hy⟩ h)

@[simp] theorem length_hexLoop (n : Nat) (v : UInt32) : (hexLoop n v).length = n := by
  induction n generalizing v with
  | zero => rfl
  | succ n ih => rw [hexLoop, List.length_cons, ih]

theorem toNat_nibble (v : UInt32) : (v &&& 0xF).toNat = v.toNat % 16 := by
  rw [UInt32.toNat_and]
  exact Nat.and_two_pow_sub_one_eq_mod v.toNat 4

theorem toNat_shift (v : UInt32) : (v >>> 4).toNat = v.toNat / 16 := by
  rw [UInt32.toNat_shiftRight]
  exact Nat.shiftRight_eq_div_pow v.toNat 4

/-- The nibbles are the digits to base 16. -/
theorem hexLoop_inj : hexLoop n v = hexLoop n w ↔ v.toNat % 16 ^ n = w.toNat % 16 ^ n := by
  induction n generalizing v w with
  | zero =>
      rw [Nat.pow_zero, Nat.mod_one, Nat.mod_one]
      exact iff_of_true rfl rfl
  | succ n ih =>
      have hsplit : ∀ a : Nat, a % 16 ^ (n + 1) = a % 16 + 16 * (a / 16 % 16 ^ n) := fun a => by
        rw [Nat.pow_succ', Nat.mod_mul]
      rw [hexLoop, hexLoop, List.cons.injEq, ih, toNat_nibble, toNat_nibble, toNat_shift,
        toNat_shift, hsplit, hsplit]
      have hv := Nat.mod_lt v.toNat (show 0 < 16 by decide)
      have hw := Nat.mod_lt w.toNat (show 0 < 16 by decide)
      constructor
      · rintro ⟨hlow, hhigh⟩
        rw [hex_inj hv hw hlow, hhigh]
      · intro h
        have hlow : v.toNat % 16 = w.toNat % 16 := by omega
        exact ⟨by rw [hlow], by omega⟩

/-! ## the names there are -/

theorem toNat_masked (v : UInt32) : (v &&& ~~~(0xFF000000 : UInt32)).toNat = v.toNat % 2 ^ 24 := by
  rw [UInt32.toNat_and]
  exact Nat.and_two_pow_sub_one_eq_mod v.toNat 24

theorem hexLoop_masked (v : UInt32) :
    hexLoop 6 (v &&& ~~~(0xFF000000 : UInt32)) = hexLoop 6 v := by
  rw [hexLoop_inj, toNat_masked]
  exact Nat.mod_mod v.toNat (2 ^ 24)

/-- Neither number uses its top 8 bits. -/
theorem dirNum_eq_zero :
    (u >>> 24) <<< 8 ||| i >>> 24 = 0 ↔ u.toNat < 2 ^ 24 ∧ i.toNat < 2 ^ 24 := by
  have hu : ((u >>> 24) <<< 8).toNat = u.toNat / 2 ^ 24 * 2 ^ 8 := by
    have hlt := u.toNat_lt
    rw [UInt32.toNat_shiftLeft, UInt32.toNat_shiftRight]
    change (u.toNat >>> 24) <<< 8 % 2 ^ 32 = _
    rw [Nat.shiftRight_eq_div_pow, Nat.shiftLeft_eq, Nat.mod_eq_of_lt (by omega)]
  have hi : (i >>> 24).toNat = i.toNat / 2 ^ 24 := by
    rw [UInt32.toNat_shiftRight]
    exact Nat.shiftRight_eq_div_pow i.toNat 24
  rw [← UInt32.toNat_inj, UInt32.toNat_or, hu, hi]
  change _ ||| _ = 0 ↔ _
  rw [Nat.or_eq_zero_iff]
  omega

/-- There is a name for a linear file, and where the top 8 bits are 0. -/
def HasName (u i : UInt32) : Prop := i = ~~~0 ∨ u.toNat < 2 ^ 24 ∧ i.toNat < 2 ^ 24

instance : Decidable (HasName u i) := inferInstanceAs (Decidable (_ ∨ _))

theorem l2FileText_eq (ht : tbsp < qMaxNumTablespaces) (hr : gDataDirRoot tbsp ≠ []) :
    l2FileText gDataDirRoot tbsp u i =
      if HasName u i then
        some (gDataDirRoot tbsp ++ ['/', '_'] ++ hexLoop 6 u ++ ['_'] ++ hexLoop 6 i)
      else none := by
  rw [l2FileText, if_neg (Nat.not_le.mpr ht), if_neg hr]
  simp only [hexLoop_masked]
  by_cases hi : i = ~~~0
  · rw [if_pos hi, if_neg (not_not.mpr rfl), if_pos (.inl hi)]
  · rw [if_neg hi]
    by_cases hdir : u.toNat < 2 ^ 24 ∧ i.toNat < 2 ^ 24
    · rw [if_neg (not_not.mpr (dirNum_eq_zero.mpr hdir)), if_pos (.inr hdir)]
    · have hno : ¬ HasName u i := not_or.mpr ⟨hi, hdir⟩
      rw [if_pos (fun h => hdir (dirNum_eq_zero.mp h)), if_neg hno]

/-- What a name of the model stands for. -/
def FileName.text (root : List Char) : FileName → List Char
  | .l2 u i => root ++ ['/', '_'] ++ hexLoop 6 (UInt32.ofNat u) ++ ['_'] ++ hexLoop 6 (UInt32.ofNat i)
  | .other path => path.toList

/-- The names of the state are those of the code. -/
theorem l2FileText_eq_map (ht : tbsp < qMaxNumTablespaces) (hr : gDataDirRoot tbsp ≠ []) :
    l2FileText gDataDirRoot tbsp u i =
      (l2FileName u.toNat i.toNat).map (FileName.text (gDataDirRoot tbsp)) := by
  have hmod : ∀ v : UInt32, hexLoop 6 (UInt32.ofNat (v.toNat % 2 ^ 24)) = hexLoop 6 v := fun v => by
    have hlt := v.toNat_lt
    rw [hexLoop_inj, UInt32.toNat_ofNat_of_lt' (by rw [UInt32.size]; omega)]
    exact Nat.mod_mod v.toNat (2 ^ 24)
  have hlma : i.toNat = lmaIdx ↔ i = ~~~0 := by
    rw [← UInt32.toNat_inj]
    rfl
  have hdir : u.toNat / 2 ^ 24 * 2 ^ 8 + i.toNat / 2 ^ 24 = 0 ↔
      u.toNat < 2 ^ 24 ∧ i.toNat < 2 ^ 24 := by
    omega
  rw [l2FileText_eq ht hr, l2FileName]
  simp only [hlma]
  by_cases hi : i = ~~~0
  · rw [if_pos (.inl hi), if_pos hi, if_pos rfl, Option.map_some, FileName.text, hmod, hmod]
  · rw [if_neg hi]
    by_cases hd : u.toNat < 2 ^ 24 ∧ i.toNat < 2 ^ 24
    · rw [if_pos (.inr hd), if_pos (hdir.mpr hd), Option.map_some, FileName.text, hmod, hmod]
    · have hno : ¬ HasName u i := not_or.mpr ⟨hi, hd⟩
      rw [if_neg hno, if_neg (fun h => hd (hdir.mp h)), Option.map_none]

/-! ## different names -/

/-- Different objects have different names. -/
def NamesDiffer (gDataDirRoot : Nat → List Char) (tbsp tbsp' : Nat) (u i u' i' : UInt32) : Prop :=
  ∀ f f', l2FileText gDataDirRoot tbsp u i = some f →
    l2FileText gDataDirRoot tbsp' u' i' = some f' → (u, i) ≠ (u', i') → f ≠ f'

/-- The lower 24 bits agree. -/
def SameLow (v w : UInt32) : Prop := v.toNat % 2 ^ 24 = w.toNat % 2 ^ 24

/-- A linear file, and the chunk whose index spells as its name does. -/
def Shadows (u i u' i' : UInt32) : Prop :=
  i = ~~~0 ∧ i'.toNat = 2 ^ 24 - 1 ∧ u'.toNat < 2 ^ 24 ∧ SameLow u u'

/-- Linear files of two vectors whose uqids differ in the top 8 bits alone, or a linear file and
a chunk, below one root. -/
structure Clash (gDataDirRoot : Nat → List Char) (tbsp tbsp' : Nat) (u i u' i' : UInt32) :
    Prop where
  left : tbsp < qMaxNumTablespaces
  right : tbsp' < qMaxNumTablespaces
  root_ne : gDataDirRoot tbsp ≠ []
  root_eq : gDataDirRoot tbsp = gDataDirRoot tbsp'
  low : i = ~~~0 ∧ i' = ~~~0 ∧ u ≠ u' ∧ SameLow u u' ∨ Shadows u i u' i' ∨ Shadows u' i' u i

theorem text_inj {root root' : List Char} :
    root ++ ['/', '_'] ++ hexLoop 6 u ++ ['_'] ++ hexLoop 6 i =
      root' ++ ['/', '_'] ++ hexLoop 6 u' ++ ['_'] ++ hexLoop 6 i' ↔
    root = root' ∧ SameLow u u' ∧ SameLow i i' := by
  have hlow : ∀ {a b : UInt32}, hexLoop 6 a = hexLoop 6 b ↔ SameLow a b := hexLoop_inj
  constructor
  · intro h
    -- from the end: the nibbles of both numbers have a fixed length
    obtain ⟨h, hi⟩ := List.append_inj' h (by rw [length_hexLoop, length_hexLoop])
    obtain ⟨h, hu⟩ := List.append_inj' (List.append_inj_left' h rfl)
      (by rw [length_hexLoop, length_hexLoop])
    exact ⟨List.append_inj_left' h rfl, hlow.mp hu, hlow.mp hi⟩
  · rintro ⟨rfl, hu, hi⟩
    rw [hlow.mpr hu, hlow.mpr hi]

theorem l2FileText_eq_some : l2FileText gDataDirRoot tbsp u i = some f ↔
    tbsp < qMaxNumTablespaces ∧ gDataDirRoot tbsp ≠ [] ∧ HasName u i ∧
      gDataDirRoot tbsp ++ ['/', '_'] ++ hexLoop 6 u ++ ['_'] ++ hexLoop 6 i = f := by
  by_cases ht : tbsp < qMaxNumTablespaces
  · by_cases hr : gDataDirRoot tbsp = []
    · rw [l2FileText, if_neg (Nat.not_le.mpr ht), if_pos hr]
      simp [hr]
    · rw [l2FileText_eq ht hr]
      by_cases hn : HasName u i
      · simp [ht, hr, hn]
      · simp [hn]
  · rw [l2FileText, if_pos (Nat.le_of_not_lt ht)]
    simp [ht]

/-- Two objects with names below one root that spell alike. -/
theorem low_of_sameLow (hn : HasName u i) (hn' : HasName u' i') (hne : (u, i) ≠ (u', i'))
    (hu : SameLow u u') (hi : SameLow i i') :
    i = ~~~0 ∧ i' = ~~~0 ∧ u ≠ u' ∧ SameLow u u' ∨ Shadows u i u' i' ∨ Shadows u' i' u i := by
  have hmax : (~~~0 : UInt32).toNat % 2 ^ 24 = 2 ^ 24 - 1 := by decide
  rcases hn with rfl | ⟨hu24, hi24⟩ <;> rcases hn' with rfl | ⟨hu24', hi24'⟩
  · exact .inl ⟨rfl, rfl, fun h => hne (h ▸ rfl), hu⟩
  · rw [SameLow, hmax, Nat.mod_eq_of_lt hi24'] at hi
    exact .inr (.inl ⟨rfl, hi.symm, hu24', hu⟩)
  · rw [SameLow, hmax, Nat.mod_eq_of_lt hi24] at hi
    exact .inr (.inr ⟨rfl, hi, hu24, hu.symm⟩)
  · rw [SameLow, Nat.mod_eq_of_lt hu24, Nat.mod_eq_of_lt hu24'] at hu
    rw [SameLow, Nat.mod_eq_of_lt hi24, Nat.mod_eq_of_lt hi24'] at hi
    exact absurd (by rw [UInt32.toNat_inj.mp hu, UInt32.toNat_inj.mp hi]) hne

theorem Shadows.sameLow (h : Shadows u i u' i') :
    HasName u i ∧ HasName u' i' ∧ (u, i) ≠ (u', i') ∧ SameLow u u' ∧ SameLow i i' := by
  obtain ⟨rfl, hi', hu', hu⟩ := h
  refine ⟨.inl rfl, .inr ⟨hu', by omega⟩, ?_, hu, ?_⟩
  · intro he
    rw [Prod.mk.injEq] at he
    rw [← he.2] at hi'
    exact absurd hi' (by decide)
  · rw [SameLow, hi']
    decide

/-- **When backup names are unique**: two names are one only where a linear file is involved. -/
theorem namesDiffer_iff : NamesDiffer gDataDirRoot tbsp tbsp' u i u' i' ↔
    ¬ Clash gDataDirRoot tbsp tbsp' u i u' i' := by
  constructor
  · intro h hc
    obtain ⟨hn, hn', hne, hu, hi⟩ : HasName u i ∧ HasName u' i' ∧ (u, i) ≠ (u', i') ∧
        SameLow u u' ∧ SameLow i i' := by
      rcases hc.low with ⟨rfl, rfl, hne, hu⟩ | hs | hs
      · exact ⟨.inl rfl, .inl rfl, fun he => hne (Prod.mk.inj he).1, hu, rfl⟩
      · exact hs.sameLow
      · obtain ⟨hn', hn, hne, hu, hi⟩ := hs.sameLow
        exact ⟨hn, hn', hne.symm, hu.symm, hi.symm⟩
    exact h _ _ (l2FileText_eq_some.mpr ⟨hc.left, hc.root_ne, hn, rfl⟩)
      (l2FileText_eq_some.mpr ⟨hc.right, hc.root_eq ▸ hc.root_ne, hn', rfl⟩) hne
      (text_inj.mpr ⟨hc.root_eq, hu, hi⟩)
  · intro hno f f' hf hf' hne heq
    obtain ⟨ht, hr, hn, rfl⟩ := l2FileText_eq_some.mp hf
    obtain ⟨ht', -, hn', rfl⟩ := l2FileText_eq_some.mp hf'
    obtain ⟨hroot, hu, hi⟩ := text_inj.mp heq
    exact hno ⟨ht, ht', hr, hroot, low_of_sameLow hn hn' hne hu hi⟩

/-- The linear file of vector 1 is the backup of its chunk `2^24 - 1`. -/
theorem namesDiffer_fails : ¬ NamesDiffer (fun _ => ['d']) 0 0 1 (~~~0) 1 0xFFFFFF := by
  intro h
  exact h _ _ rfl rfl (by decide) (by decide)

end QStore.Vctr
