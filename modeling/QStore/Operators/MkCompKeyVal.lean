import QStore.Operators.MkTemplate
import Mathlib.Logic.Function.Basic

/-!
# QStore.Operators.MkCompKeyVal

`mk_comp_key_val` (`MDB/lua/mk_comp_key_val.tmpl.lua`): each input row is put out once for each
row of the template, under a key that packs the derived attributes chosen and their values, 16
bits for each raw attribute.

```
bits 16c + 8 ..    number of the attribute chosen in column c, 0 for none
bits 16c .. +7     its value
```

The shift is one of a `uint32_t`. The older `MDB/src/mk_comp_key_val.c` passes over the columns
where nothing is chosen. Built with `DEBUG`, as `setup.sh` and the `Makefile` have it, the
template's version checks `template[i][j] < nD`, while the attributes are numbered from 1.
-/

namespace QStore.Operators

/-- `out_key` and `out_val` -/
structure KeyVal (V : Type) where
  key : Nat → Nat
  val : Nat → V

/-- `out_key[slot] = key; out_val[slot] = val` -/
def KeyVal.write {V : Type} (out : KeyVal V) (slot key : Nat) (val : V) : KeyVal V :=
  ⟨Function.update out.key slot key, Function.update out.val slot val⟩

/-- `x << s` of a `uint32_t`, which C does not define for `s ≥ 32`. -/
def shl32 (x s : Nat) : Option Nat := if s < 32 then some (x <<< s % 2 ^ 32) else none

/-- `key`, with the attribute's value: "Note the -1 because of Lua indexing versus C" -/
def attrKey (dim : Nat → UInt8) (t : Nat) : Nat :=
  if t = 0 then 0 else t <<< 8 % 2 ^ 32 ||| (dim (t - 1)).toNat

section Fill

variable {V : Type}

/-- The loop over the columns. `skips`: that of the `.c` file. `bound` is `nD`, where
`template[ridx][cidx] >= nD` is looked at; the status is then -1, whatever the other columns do. -/
def fillSlot (skips : Bool) (bound : Option Nat) (dim : Nat → UInt8) (val : V) (slot : Nat) :
    List Nat → Nat → Nat → KeyVal V → Option (KeyVal V)
  | [], _, _, out => some out
  | t :: row, shiftBy, compKey, out =>
      if bound.any (· ≤ t) then none
      else if skips ∧ t = 0 then fillSlot skips bound dim val slot row shiftBy compKey out
      else
        (shl32 (attrKey dim t) shiftBy).bind fun key =>
          fillSlot skips bound dim val slot row (shiftBy + 16) (compKey ||| key)
            (out.write slot (compKey ||| key) val)

/-- The slots of input row `i`. -/
def fillSlots (skips : Bool) (bound : Option Nat) (template : List (List Nat)) (nR : Nat)
    (dim : Nat → UInt8) (val : V) (i : Nat) (out : KeyVal V) : Option (KeyVal V) :=
  (List.range nR).foldlM (fun out ridx =>
    fillSlot skips bound dim val (i * nR + ridx) (template.getD ridx []) 0 0 out) out

/-- What the entries of the template are compared with: the `.c` file is not given `nD`. -/
def entryBound (debug skips : Bool) (nD : Nat) : Option Nat :=
  if debug ∧ ¬ skips then some nD else none

/-- `mk_comp_key_val` -/
def mkCompKeyVal [Zero V] (debug skips : Bool) (template : List (List Nat)) (nR nD : Nat)
    (inDimVals : Nat → Nat → UInt8) (inMeasureVal : Nat → V) (nV nK : Nat) (out : KeyVal V) :
    Option (KeyVal V) :=
  if nV * nR > nK then none
  else
    let out := (List.range' (nV * nR) (nK - nV * nR)).foldl (fun out i => out.write i 0 0) out
    (List.range nV).foldlM (fun out i =>
      fillSlots skips (entryBound debug skips nD) template nR (inDimVals · i) (inMeasureVal i) i
        out) out

/-- A row of the template, with the values of an input row, chooses attribute `t` with value `v`. -/
def Chooses (row : List Nat) (dim : Nat → UInt8) (t : Nat) (v : UInt8) : Prop :=
  t ∈ row ∧ t ≠ 0 ∧ v = dim (t - 1)

/-- The slots are filled, whatever was in the buffers before, and two keys are equal where the
same attributes are chosen with the same values. -/
structure KeysFor (template : List (List Nat)) (nR : Nat) (inDimVals : Nat → Nat → UInt8)
    (inMeasureVal : Nat → V) (nV : Nat) (run : KeyVal V → Option (KeyVal V)) (key : Nat → Nat) :
    Prop where
  filled : ∀ out₀, ∃ out, run out₀ = some out ∧
    ∀ slot < nV * nR, out.key slot = key slot ∧ out.val slot = inMeasureVal (slot / nR)
  inj : ∀ slot < nV * nR, ∀ slot' < nV * nR, key slot = key slot' ↔
    ∀ t v, Chooses (template.getD (slot % nR) []) (inDimVals · (slot / nR)) t v ↔
      Chooses (template.getD (slot' % nR) []) (inDimVals · (slot' / nR)) t v

/-- The keys are right for all inputs of a template that `mk_template` makes of `T`. -/
def KeysRight (V : Type) [Zero V] (debug skips : Bool) (T : List Nat) : Prop :=
  ∀ tmpl, mkTemplate T = some tmpl →
    ∀ (inDimVals : Nat → Nat → UInt8) (inMeasureVal : Nat → V) (nV nK : Nat),
      nV * tmpl.nR ≤ nK → ∃ key, KeysFor tmpl.ct tmpl.nR inDimVals inMeasureVal nV
        (mkCompKeyVal debug skips tmpl.ct tmpl.nR tmpl.nD inDimVals inMeasureVal nV nK) key

end Fill

/-! ## the slots -/

section Slots

variable {V : Type} {skips : Bool} {bound : Option Nat} {template : List (List Nat)}
  {nR nD nV nK slot s i x y : Nat}
  {dim dim' : Nat → UInt8} {inDimVals : Nat → Nat → UInt8} {inMeasureVal : Nat → V} {v : V}
  {row : List Nat} {out out' : KeyVal V} {shiftBy compKey : Nat}

/-- A slot is filled by itself. -/
theorem fillSlot_other (h : fillSlot skips bound dim v slot row shiftBy compKey out = some out')
    (hs : s ≠ slot) : out'.key s = out.key s := by
  induction row generalizing shiftBy compKey out with
  | nil => rw [← Option.some.inj h]
  | cons t row ih =>
      rw [fillSlot] at h
      split at h
      · contradiction
      · split at h
        · exact ih h
        · obtain ⟨key, -, hrest⟩ := Option.bind_eq_some_iff.mp h
          rw [ih hrest]
          exact Function.update_of_ne hs _ _

/-- Where nothing is chosen nothing is written. -/
theorem fillSlot_skips (h : ∀ t ∈ row, t = 0) :
    fillSlot true none dim v slot row shiftBy compKey out = some out := by
  induction row generalizing shiftBy compKey with
  | nil => rfl
  | cons t row ih =>
      rw [List.forall_mem_cons] at h
      rw [fillSlot, Option.any_none, if_neg Bool.false_ne_true, if_pos ⟨rfl, h.1⟩, ih h.2]

/-- The third column is one too many. -/
theorem fillSlot_three (h : 3 ≤ row.length) : fillSlot false none dim v slot row 0 0 out = none := by
  match row, h with
  | _ :: _ :: _ :: _, _ => simp [fillSlot, shl32]

/-- An entry that is not below `nD` is found, whatever the columns before it. -/
theorem fillSlot_bound {t : Nat} (ht : t ∈ row) (hle : nD ≤ t) :
    fillSlot skips (some nD) dim v slot row shiftBy compKey out = none := by
  induction row generalizing shiftBy compKey out with
  | nil => simp at ht
  | cons x row ih =>
      rw [fillSlot]
      cases List.mem_cons.mp ht with
      | inl heq =>
          rw [← heq, Option.any_some, if_pos (decide_eq_true hle)]
      | inr hmem =>
          simp only [ih hmem, Option.bind_fun_none, ite_self]

/-- The key of two columns. -/
def pairKey (dim : Nat → UInt8) (x y : Nat) : Nat :=
  attrKey dim x % 2 ^ 32 ||| attrKey dim y <<< 16 % 2 ^ 32

theorem KeyVal.write_write {k k' : Nat} {v v' : V} :
    (out.write slot k v).write slot k' v' = out.write slot k' v' := by
  simp [KeyVal.write]

theorem fillSlot_pair :
    fillSlot false none dim v slot [x, y] 0 0 out = some (out.write slot (pairKey dim x y) v) := by
  simp [fillSlot, shl32, pairKey, KeyVal.write_write]

/-- The slots in `S` are filled, the others are as they were. -/
structure Fills (S : Nat → Prop) (K : Nat → Nat) (M : Nat → V) (out out' : KeyVal V) : Prop where
  filled : ∀ s, S s → out'.key s = K s ∧ out'.val s = M s
  other : ∀ s, ¬ S s → out'.key s = out.key s ∧ out'.val s = out.val s

variable {K : Nat → Nat} {M : Nat → V}

theorem Fills.write (slot : Nat) (out : KeyVal V) :
    Fills (· = slot) K M out (out.write slot (K slot) (M slot)) where
  filled := by
    rintro s rfl
    exact ⟨Function.update_self .., Function.update_self ..⟩
  other := fun _ hs => ⟨Function.update_of_ne hs _ _, Function.update_of_ne hs _ _⟩

/-- A loop whose turns fill slots. -/
theorem Fills.foldlM {S : Nat → Nat → Prop} {f : KeyVal V → Nat → Option (KeyVal V)} {l : List Nat}
    (h : ∀ a ∈ l, ∀ out, ∃ out', f out a = some out' ∧ Fills (S a) K M out out') (out : KeyVal V) :
    ∃ out', l.foldlM f out = some out' ∧ Fills (fun s => ∃ a ∈ l, S a s) K M out out' := by
  induction l generalizing out with
  | nil => exact ⟨out, rfl, by simp, by simp⟩
  | cons a l ih =>
      rw [List.forall_mem_cons] at h
      obtain ⟨mid, hmid, hfill⟩ := h.1 out
      obtain ⟨out', hout', hfill'⟩ := ih h.2 mid
      refine ⟨out', by rw [List.foldlM_cons, hmid]; exact hout', ?_, ?_⟩
      · rintro s ⟨b, hb, hs⟩
        by_cases hlater : ∃ b ∈ l, S b s
        · exact hfill'.filled s hlater
        · obtain ⟨hk, hv⟩ := hfill'.other s hlater
          have hba : b = a := (List.mem_cons.mp hb).resolve_right fun hbl => hlater ⟨b, hbl, hs⟩
          rw [hk, hv]
          exact hfill.filled s (hba ▸ hs)
      · intro s hs
        obtain ⟨hk, hv⟩ := hfill'.other s fun ⟨b, hb, hbs⟩ => hs ⟨b, List.mem_cons_of_mem a hb, hbs⟩
        rw [hk, hv]
        exact hfill.other s fun has => hs ⟨a, List.mem_cons_self, has⟩

/-- The key of a slot, for a template of two columns. -/
def slotKey (cols : Nat → Nat × Nat) (nR : Nat) (inDimVals : Nat → Nat → UInt8) (slot : Nat) : Nat :=
  pairKey (inDimVals · (slot / nR)) (cols (slot % nR)).1 (cols (slot % nR)).2

/-- **Two columns**: every slot is filled with the key of its row. -/
theorem mkCompKeyVal_pairs [Zero V] (nD : Nat) {cols : Nat → Nat × Nat}
    (hcols : ∀ r < nR, template.getD r [] = [(cols r).1, (cols r).2]) (hroom : nV * nR ≤ nK)
    (out₀ : KeyVal V) :
    ∃ out, mkCompKeyVal false false template nR nD inDimVals inMeasureVal nV nK out₀ = some out ∧
      ∀ slot < nV * nR, out.key slot = slotKey cols nR inDimVals slot ∧
        out.val slot = inMeasureVal (slot / nR) := by
  rw [mkCompKeyVal, if_neg (Nat.not_lt.mpr hroom)]
  have hslots : ∀ i ∈ List.range nV, ∀ out, ∃ out',
      fillSlots false none template nR (inDimVals · i) (inMeasureVal i) i out = some out' ∧
        Fills (fun s => ∃ r ∈ List.range nR, s = i * nR + r) (slotKey cols nR inDimVals)
          (fun s => inMeasureVal (s / nR)) out out' := by
    intro i _ out
    refine Fills.foldlM (fun r hr out => ?_) out
    rw [List.mem_range] at hr
    have hdiv : (i * nR + r) / nR = i := by
      rw [Nat.mul_comm, Nat.mul_add_div (Nat.zero_lt_of_lt hr), Nat.div_eq_of_lt hr, Nat.add_zero]
    have hmod : (i * nR + r) % nR = r := by
      rw [Nat.mul_comm, Nat.mul_add_mod, Nat.mod_eq_of_lt hr]
    refine ⟨_, by rw [hcols r hr]; exact fillSlot_pair, ?_⟩
    have hwrite := Fills.write (K := slotKey cols nR inDimVals)
      (M := fun s => inMeasureVal (s / nR)) (i * nR + r) out
    simp only [slotKey, hdiv, hmod] at hwrite
    exact hwrite
  obtain ⟨out, hrun, hfills⟩ := Fills.foldlM hslots _
  refine ⟨out, hrun, fun slot hslot => hfills.filled slot ?_⟩
  have hpos : 0 < nR := Nat.pos_of_ne_zero fun h0 => by simp [h0] at hslot
  exact ⟨slot / nR, List.mem_range.mpr (Nat.div_lt_of_lt_mul (Nat.mul_comm nV nR ▸ hslot)),
    slot % nR, List.mem_range.mpr (Nat.mod_lt _ hpos), (Nat.div_add_mod' slot nR).symm⟩

end Slots

/-! ## two columns -/

section Pairs

variable {dim dim' : Nat → UInt8} {x y x' y' t : Nat}

theorem attrKey_eq (h : t < 256) :
    attrKey dim t = if t = 0 then 0 else t * 256 + (dim (t - 1)).toNat := by
  have hv := (dim (t - 1)).toNat_lt
  rw [attrKey]
  split
  · rfl
  · rw [Nat.mod_eq_of_lt (by rw [Nat.shiftLeft_eq]; omega), ← Nat.shiftLeft_add_eq_or_of_lt hv,
      Nat.shiftLeft_eq]

theorem attrKey_lt (dim : Nat → UInt8) (h : t < 256) : attrKey dim t < 2 ^ 16 := by
  have hv := (dim (t - 1)).toNat_lt
  rw [attrKey_eq h]
  split <;> omega

theorem attrKey_256 (h : dim 255 = 0) : attrKey dim 256 = 65536 := by
  simp [attrKey, h]

theorem attrKey_succ (dim : Nat → UInt8) (t : Nat) :
    attrKey dim (t + 1) = (t + 1) <<< 8 % 2 ^ 32 ||| (dim t).toNat := by
  rw [attrKey, if_neg (Nat.succ_ne_zero t), Nat.add_sub_cancel]

/-- Numbers of 8 bits leave the two halves of a key apart. -/
theorem pairKey_eq (hx : x < 256) (hy : y < 256) :
    pairKey dim x y = attrKey dim x + attrKey dim y * 2 ^ 16 := by
  have hx' := attrKey_lt dim hx
  have hy' := attrKey_lt dim hy
  rw [pairKey, Nat.mod_eq_of_lt (by omega), Nat.shiftLeft_eq, Nat.mod_eq_of_lt (by omega),
    Nat.or_comm, ← Nat.shiftLeft_eq, ← Nat.shiftLeft_add_eq_or_of_lt hx', Nat.shiftLeft_eq,
    Nat.add_comm]

theorem attrKey_inj (hx : x < 256) (hx' : x' < 256) :
    attrKey dim x = attrKey dim' x' ↔ x = x' ∧ (x ≠ 0 → dim (x - 1) = dim' (x - 1)) := by
  have hv := (dim (x - 1)).toNat_lt
  have hv' := (dim' (x' - 1)).toNat_lt
  rw [attrKey_eq hx, attrKey_eq hx']
  constructor
  · intro h
    have heq : x = x' := by split at h <;> split at h <;> omega
    subst heq
    refine ⟨rfl, fun h0 => ?_⟩
    rw [if_neg h0, if_neg h0] at h
    exact UInt8.toNat_inj.mp (by omega)
  · rintro ⟨rfl, hdim⟩
    split
    · rfl
    · next h0 => rw [hdim h0]

theorem pairKey_inj (hx : x < 256) (hy : y < 256) (hx' : x' < 256) (hy' : y' < 256) :
    pairKey dim x y = pairKey dim' x' y' ↔
      attrKey dim x = attrKey dim' x' ∧ attrKey dim y = attrKey dim' y' := by
  have h1 := attrKey_lt dim hx
  have h2 := attrKey_lt dim' hx'
  rw [pairKey_eq hx hy, pairKey_eq hx' hy']
  omega

theorem chooses_pair {t : Nat} {v : UInt8} : Chooses [x, y] dim t v ↔
    (x ≠ 0 ∧ t = x ∧ v = dim (x - 1)) ∨ (y ≠ 0 ∧ t = y ∧ v = dim (y - 1)) := by
  rw [Chooses, List.mem_pair]
  constructor
  · rintro ⟨rfl | rfl, h0, hv⟩
    · exact .inl ⟨h0, rfl, hv⟩
    · exact .inr ⟨h0, rfl, hv⟩
  · rintro (⟨h0, rfl, hv⟩ | ⟨h0, rfl, hv⟩)
    · exact ⟨.inl rfl, h0, hv⟩
    · exact ⟨.inr rfl, h0, hv⟩

/-- A row of two columns: the numbers of the second begin behind those of the first. -/
structure PairRow (a b x y : Nat) : Prop where
  fst : x ≤ a
  snd : y = 0 ∨ a < y ∧ y ≤ a + b

variable {a b : Nat}

theorem PairRow.of_chooses (h : PairRow a b x y) (h' : PairRow a b x' y')
    (hsub : ∀ t v, Chooses [x, y] dim t v → Chooses [x', y'] dim' t v) :
    (x ≠ 0 → x = x' ∧ dim (x - 1) = dim' (x - 1)) ∧
      (y ≠ 0 → y = y' ∧ dim (y - 1) = dim' (y - 1)) := by
  have hx := h.fst
  have hy := h.snd
  have hx' := h'.fst
  have hy' := h'.snd
  constructor
  · intro h0
    rcases chooses_pair.mp (hsub x _ (chooses_pair.mpr (.inl ⟨h0, rfl, rfl⟩)))
      with ⟨-, heq, hv⟩ | ⟨-, heq, hv⟩
    · exact ⟨heq, heq ▸ hv⟩
    · omega
  · intro h0
    rcases chooses_pair.mp (hsub y _ (chooses_pair.mpr (.inr ⟨h0, rfl, rfl⟩)))
      with ⟨-, heq, hv⟩ | ⟨-, heq, hv⟩
    · omega
    · exact ⟨heq, heq ▸ hv⟩

/-- Below 256 attributes a key says what was chosen. -/
theorem PairRow.pairKey_inj (h : PairRow a b x y) (h' : PairRow a b x' y') (hab : a + b < 256) :
    pairKey dim x y = pairKey dim' x' y' ↔
      ∀ t v, Chooses [x, y] dim t v ↔ Chooses [x', y'] dim' t v := by
  have hx := h.fst
  have hy := h.snd
  have hx' := h'.fst
  have hy' := h'.snd
  rw [Operators.pairKey_inj (by omega) (by omega) (by omega) (by omega),
    attrKey_inj (by omega) (by omega), attrKey_inj (by omega) (by omega)]
  constructor
  · rintro ⟨⟨rfl, hdx⟩, rfl, hdy⟩ t v
    rw [chooses_pair, chooses_pair]
    constructor
    · rintro (⟨h0, ht, hv⟩ | ⟨h0, ht, hv⟩)
      · exact .inl ⟨h0, ht, hv.trans (hdx h0)⟩
      · exact .inr ⟨h0, ht, hv.trans (hdy h0)⟩
    · rintro (⟨h0, ht, hv⟩ | ⟨h0, ht, hv⟩)
      · exact .inl ⟨h0, ht, hv.trans (hdx h0).symm⟩
      · exact .inr ⟨h0, ht, hv.trans (hdy h0).symm⟩
  · intro hsame
    obtain ⟨h1, h2⟩ := h.of_chooses h' fun t v => (hsame t v).mp
    obtain ⟨h3, h4⟩ := h'.of_chooses h fun t v => (hsame t v).mpr
    have hxx : x = x' := by
      by_cases h0 : x = 0
      · by_cases h0' : x' = 0
        · rw [h0, h0']
        · exact (h3 h0').1.symm
      · exact (h1 h0).1
    have hyy : y = y' := by
      by_cases h0 : y = 0
      · by_cases h0' : y' = 0
        · rw [h0, h0']
        · exact (h4 h0').1.symm
      · exact (h2 h0).1
    exact ⟨⟨hxx, fun h0 => (h1 h0).2⟩, hyy, fun h0 => (h2 h0).2⟩

end Pairs

/-! ## the templates of `mk_template` -/

section Templates

variable {V : Type} [Zero V] {T : List Nat} {a b : Nat} {tmpl : Template}

theorem Enumerates.pairRow (h : Enumerates [a, b] tmpl) {r : Nat} (hr : r < tmpl.nR) :
    ∃ x y, tmpl.ct.getD r [] = [x, y] ∧ PairRow a b x y := by
  obtain ⟨c, hc, hrow⟩ := h.sound (tmpl.ct.getD r []) (by
    rw [List.getD_eq_getElem?_getD, List.getElem?_eq_getElem (h.length ▸ hr), Option.getD_some]
    exact List.getElem_mem _)
  cases hc with
  | @cons x _ _ _ hx hc =>
      cases hc with
      | @cons y _ _ _ hy hc =>
          cases hc
          refine ⟨x, if y = 0 then 0 else a + y, ?_, hx, ?_⟩
          · rw [hrow, written]
            by_cases h0 : x = 0
            · simp [h0]
            · simp [h0]
          · split <;> omega

/-- **Two columns, and less than 256 attributes**. -/
theorem keysRight_pair (hab : a + b < 256) : KeysRight V false false [a, b] := by
  intro tmpl htmpl inDimVals inMeasureVal nV nK hroom
  have henum := enumerates_mkTemplate htmpl
  have hcols : ∀ r, ∃ p : Nat × Nat, r < tmpl.nR →
      tmpl.ct.getD r [] = [p.1, p.2] ∧ PairRow a b p.1 p.2 := by
    intro r
    by_cases hr : r < tmpl.nR
    · obtain ⟨x, y, hrow, hpair⟩ := henum.pairRow hr
      exact ⟨(x, y), fun _ => ⟨hrow, hpair⟩⟩
    · exact ⟨(0, 0), fun h => absurd h hr⟩
  choose cols hcols using hcols
  refine ⟨slotKey cols tmpl.nR inDimVals,
    mkCompKeyVal_pairs _ (fun r hr => (hcols r hr).1) hroom, fun slot hs slot' hs' => ?_⟩
  have hpos : 0 < tmpl.nR := Nat.pos_of_ne_zero fun h0 => by simp [h0] at hs
  obtain ⟨hrow, hpair⟩ := hcols (slot % tmpl.nR) (Nat.mod_lt _ hpos)
  obtain ⟨hrow', hpair'⟩ := hcols (slot' % tmpl.nR) (Nat.mod_lt _ hpos)
  rw [hrow, hrow', slotKey, slotKey]
  exact hpair.pairKey_inj hpair' hab

/-! ## where the keys are wrong -/

variable {inDimVals : Nat → Nat → UInt8} {inMeasureVal : Nat → V} {out out' : KeyVal V}
  {debug skips : Bool} {template : List (List Nat)} {nR nD : Nat}

theorem mkCompKeyVal_one : mkCompKeyVal debug skips template nR nD inDimVals inMeasureVal 1 nR out =
    fillSlots skips (entryBound debug skips nD) template nR (inDimVals · 0) (inMeasureVal 0) 0
      out := by
  simp [mkCompKeyVal]

omit [Zero V] in
theorem foldlM_key {f : KeyVal V → Nat → Option (KeyVal V)} {l : List Nat} {s : Nat}
    (h : ∀ r out out', f out r = some out' → out'.key s = out.key s)
    (hrun : l.foldlM f out = some out') : out'.key s = out.key s := by
  induction l generalizing out with
  | nil => rw [← Option.some.inj hrun]
  | cons r l ih =>
      rw [List.foldlM_cons] at hrun
      obtain ⟨mid, hmid, hrest⟩ := Option.bind_eq_some_iff.mp hrun
      rw [ih hrest, h r out mid hmid]

/-- The `.c` file leaves the slot as it was where nothing is chosen. -/
theorem mkCompKeyVal_skips_zero (h : mkTemplate T = some tmpl)
    (hrun : mkCompKeyVal debug true tmpl.ct tmpl.nR nD inDimVals inMeasureVal 1 tmpl.nR out =
      some out') : out'.key 0 = out.key 0 := by
  rw [mkCompKeyVal_one, fillSlots, entryBound, if_neg (by simp)] at hrun
  refine foldlM_key (fun r out out' hr => ?_) hrun
  by_cases h0 : r = 0
  · rw [h0, fillSlot_skips (mkTemplate_zero h).2.2] at hr
    rw [Option.some.inj hr]
  · exact fillSlot_other hr (by omega)

theorem not_keysRight_skips (h : 1 < T.length) : ¬ KeysRight V debug true T := by
  intro hr
  have htmpl : mkTemplate T = some _ := if_pos h
  obtain ⟨key, hkey⟩ := hr _ htmpl (fun _ _ => 0) (fun _ => 0) 1 _ (Nat.le_of_eq (Nat.one_mul _))
  have hbuf : ∀ c, key 0 = c := by
    intro c
    obtain ⟨out, hrun, hfill⟩ := hkey.filled ⟨fun _ => c, fun _ => 0⟩
    rw [← (hfill 0 (by rw [Nat.one_mul]; exact (mkTemplate_zero htmpl).1)).1]
    exact mkCompKeyVal_skips_zero htmpl hrun
  exact absurd ((hbuf 0).symm.trans (hbuf 1)) (by decide)

theorem not_keysRight_three (h : 3 ≤ T.length) : ¬ KeysRight V false false T := by
  intro hr
  have htmpl : mkTemplate T = some _ := if_pos (by omega)
  obtain ⟨key, hkey⟩ := hr _ htmpl (fun _ _ => 0) (fun _ => 0) 1 _ (Nat.le_of_eq (Nat.one_mul _))
  obtain ⟨out, hrun, -⟩ := hkey.filled ⟨fun _ => 0, fun _ => 0⟩
  obtain ⟨hnR, hlen, -⟩ := mkTemplate_zero htmpl
  rw [mkCompKeyVal_one, fillSlots] at hrun
  obtain ⟨n, hn⟩ := Nat.exists_eq_succ_of_ne_zero (Nat.ne_of_gt hnR)
  rw [hn, List.range_succ_eq_map, List.foldlM_cons, entryBound, if_neg (by simp),
    fillSlot_three (by omega)] at hrun
  contradiction

theorem Enumerates.exists_row (h : Enumerates T tmpl) {c : List Nat} (hc : Combination T c) :
    ∃ r, r < tmpl.nR ∧ tmpl.ct.getD r [] = written T c := by
  obtain ⟨r, hr, -⟩ := h.once c hc
  refine ⟨r, h.length ▸ (List.getElem?_eq_some_iff.mp hr).1, ?_⟩
  rw [List.getD_eq_getElem?_getD, hr, Option.getD_some]

/-- Where the last derived attribute is chosen, its number is that of all of them. -/
theorem sum_mem_written (h : T ≠ []) (hpos : ∀ t ∈ T, 0 < t) : T.sum ∈ written T T := by
  have hlen := List.length_pos_iff.mpr h
  have hlast : T.length - 1 < T.length := by omega
  have hne := Nat.ne_of_gt (hpos _ (List.getElem_mem hlast))
  have hall := List.sum_take_succ T (T.length - 1) hlast
  rw [Nat.sub_add_cancel hlen, List.take_length] at hall
  have hmem := List.getElem_mem (l := written T T) (n := T.length - 1) (by simpa [written])
  simpa [written, hne, ← hall] using hmem

omit [Zero V] in
theorem foldlM_eq_none {f : KeyVal V → Nat → Option (KeyVal V)} {l : List Nat} {r : Nat}
    (hr : r ∈ l) (h : ∀ out, f out r = none) : l.foldlM f out = none := by
  induction l generalizing out with
  | nil => simp at hr
  | cons x l ih =>
      rw [List.foldlM_cons, Option.bind_eq_bind]
      cases List.mem_cons.mp hr with
      | inl heq => rw [← heq, h, Option.bind_none]
      | inr hmem => simp only [ih hmem, Option.bind_fun_none]

/-- With `DEBUG`, every template has an entry that is taken for an error. -/
theorem not_keysRight_debug (h : 1 < T.length) (hpos : ∀ t ∈ T, 0 < t) :
    ¬ KeysRight V true false T := by
  intro hright
  have htmpl : mkTemplate T = some _ := if_pos h
  have hall : Combination T T := List.forall₂_same.mpr fun _ _ => Nat.le_refl _
  obtain ⟨r, hr, hrow⟩ := (enumerates_mkTemplate htmpl).exists_row hall
  obtain ⟨key, hkey⟩ := hright _ htmpl (fun _ _ => 0) (fun _ => 0) 1 _
    (Nat.le_of_eq (Nat.one_mul _))
  obtain ⟨out, hrun, -⟩ := hkey.filled ⟨fun _ => 0, fun _ => 0⟩
  rw [mkCompKeyVal_one, fillSlots, entryBound, if_pos (by simp), foldlM_eq_none
    (List.mem_range.mpr hr) fun out => by
      rw [hrow]
      exact fillSlot_bound (sum_mem_written (List.ne_nil_of_length_pos (by omega)) hpos)
        (Nat.le_refl _)] at hrun
  contradiction

/-- Two rows of the template, with two input rows. -/
theorem KeysRight.pairKey_iff {x y x' y' r r' : Nat} (h : KeysRight V false false [a, b])
    (htmpl : mkTemplate [a, b] = some tmpl) (inDimVals : Nat → Nat → UInt8) (i i' : Nat)
    (hr : r < tmpl.nR) (hrow : tmpl.ct.getD r [] = [x, y])
    (hr' : r' < tmpl.nR) (hrow' : tmpl.ct.getD r' [] = [x', y']) :
    pairKey (inDimVals · i) x y = pairKey (inDimVals · i') x' y' ↔
      ∀ t v, Chooses [x, y] (inDimVals · i) t v ↔ Chooses [x', y'] (inDimVals · i') t v := by
  have henum := enumerates_mkTemplate htmpl
  obtain ⟨cols, hcols⟩ : ∃ cols : Nat → Nat × Nat, ∀ r < tmpl.nR,
      tmpl.ct.getD r [] = [(cols r).1, (cols r).2] := by
    refine ⟨fun r => ((tmpl.ct.getD r []).getD 0 0, (tmpl.ct.getD r []).getD 1 0), fun r hr => ?_⟩
    obtain ⟨x, y, hrow, -⟩ := henum.pairRow hr
    simp only [hrow]
    rfl
  have hslot : ∀ {i r}, r < tmpl.nR →
      (i * tmpl.nR + r) / tmpl.nR = i ∧ (i * tmpl.nR + r) % tmpl.nR = r := by
    intro i r hr
    rw [Nat.mul_comm, Nat.mul_add_div (Nat.zero_lt_of_lt hr), Nat.div_eq_of_lt hr, Nat.mul_add_mod,
      Nat.mod_eq_of_lt hr]
    exact ⟨rfl, rfl⟩
  have hlt : ∀ {j r}, j ≤ max i i' → r < tmpl.nR →
      j * tmpl.nR + r < (max i i' + 1) * tmpl.nR := by
    intro j r hj hr
    have := Nat.mul_le_mul_right tmpl.nR hj
    rw [Nat.add_mul, Nat.one_mul]
    omega
  obtain ⟨key, hkey⟩ := h tmpl htmpl inDimVals (fun _ => 0) (max i i' + 1) _ (Nat.le_refl _)
  obtain ⟨out, hrun, hout⟩ := hkey.filled ⟨fun _ => 0, fun _ => 0⟩
  obtain ⟨out', hrun', hout'⟩ := mkCompKeyVal_pairs (V := V) tmpl.nD hcols
    (Nat.le_refl ((max i i' + 1) * tmpl.nR)) ⟨fun _ => 0, fun _ => 0⟩
  obtain rfl := Option.some.inj (hrun.symm.trans hrun')
  have hkeys : ∀ slot < (max i i' + 1) * tmpl.nR, key slot = slotKey cols tmpl.nR inDimVals slot :=
    fun slot hs => (hout slot hs).1.symm.trans (hout' slot hs).1
  have hpair : cols r = (x, y) ∧ cols r' = (x', y') := by
    have h1 := (hcols r hr).symm.trans hrow
    have h2 := (hcols r' hr').symm.trans hrow'
    simp only [List.cons.injEq, and_true] at h1 h2
    exact ⟨Prod.ext h1.1 h1.2, Prod.ext h2.1 h2.2⟩
  have hs := hlt (Nat.le_max_left i i') hr
  have hs' := hlt (Nat.le_max_right i i') hr'
  have hiff := hkey.inj _ hs _ hs'
  rw [hkeys _ hs, hkeys _ hs', slotKey, slotKey, (hslot hr).1, (hslot hr).2, (hslot hr').1,
    (hslot hr').2, hrow, hrow', hpair.1, hpair.2] at hiff
  exact hiff

omit [Zero V] in
/-- A number of 9 bits covers the lowest bit of the other value. -/
theorem pairKey_carry (ha : 256 ≤ a) :
    pairKey (fun t => if 0 = 1 ∧ t = a then 1 else 0) 256 (a + 1) =
      pairKey (fun t => if 1 = 1 ∧ t = a then 1 else 0) 256 (a + 1) := by
  have h255 : ¬ 255 = a := by omega
  have h0 : (if 0 = 1 ∧ a = a then 1 else 0 : UInt8).toNat <<< 16 % 2 ^ 32 = 0 := by simp
  have h1 : (if 1 = 1 ∧ a = a then 1 else 0 : UInt8).toNat <<< 16 % 2 ^ 32 = 65536 := by simp
  rw [pairKey, pairKey, attrKey_256 (by simp), attrKey_256 (by simp [h255]), attrKey_succ,
    attrKey_succ, Nat.shiftLeft_or_distrib, Nat.shiftLeft_or_distrib, Nat.or_mod_two_pow,
    Nat.or_mod_two_pow, h0, h1, Nat.or_zero, Nat.or_comm _ 65536, ← Nat.or_assoc,
    show 65536 % 2 ^ 32 = 65536 from rfl, Nat.or_self]

theorem not_keysRight_pair (hb : 0 < b) (hab : 256 ≤ a + b) :
    ¬ KeysRight V false false [a, b] := by
  intro h
  have htmpl : mkTemplate [a, b] = some _ := if_pos (by simp)
  have henum := enumerates_mkTemplate htmpl
  by_cases ha : a < 256
  · -- attribute 256 leaves nothing of its number
    obtain ⟨r, hr, hrow⟩ := henum.exists_row (c := [0, 0]) (by simp [Combination])
    obtain ⟨r', hr', hrow'⟩ := henum.exists_row (c := [0, 256 - a]) (by
      simp only [Combination, List.forall₂_cons, Nat.zero_le, true_and, List.Forall₂.nil, and_true]
      omega)
    have hnum : a + (256 - a) = 256 := by omega
    rw [show written [a, b] [0, 0] = [0, 0] by simp [written]] at hrow
    rw [show written [a, b] [0, 256 - a] = [0, 256] by
      simp [written, hnum, show 256 - a ≠ 0 by omega]] at hrow'
    have hsame := (h.pairKey_iff htmpl (fun _ _ => 0) 0 0 hr hrow hr' hrow').mp (by decide) 256 0
    have hno := hsame.mpr ⟨by simp, by decide, rfl⟩
    exact absurd hno.1 (by decide)
  · -- the number of attribute 256 runs into the other value
    obtain ⟨r, hr, hrow⟩ := henum.exists_row (c := [256, 1]) (by
      simp only [Combination, List.forall₂_cons, List.Forall₂.nil, and_true]
      omega)
    rw [show written [a, b] [256, 1] = [256, a + 1] by simp [written]] at hrow
    have hsame := (h.pairKey_iff htmpl (fun t i => if i = 1 ∧ t = a then 1 else 0) 0 1 hr hrow hr
      hrow).mp (pairKey_carry (by omega)) (a + 1) 0
    obtain ⟨-, -, hv⟩ := hsame.mp ⟨by simp, by omega, by simp⟩
    exact absurd hv (by simp)

/-- **When the composite keys are right**: in the template's version, without `DEBUG`, for two raw
attributes with less than 256 derived ones. -/
theorem keysRight_iff {debug skips : Bool} (h : 1 < T.length) (hpos : ∀ t ∈ T, 0 < t) :
    KeysRight V debug skips T ↔
      debug = false ∧ skips = false ∧ T.length = 2 ∧ T.sum < 256 := by
  cases skips with
  | true => exact iff_of_false (not_keysRight_skips h) (by simp)
  | false =>
      cases debug with
      | true => exact iff_of_false (not_keysRight_debug h hpos) (by simp)
      | false =>
          by_cases h3 : 3 ≤ T.length
          · exact iff_of_false (not_keysRight_three h3) (by omega)
          · match T, h, h3, hpos with
            | [a, b], _, _, hpos =>
                have hsum : [a, b].sum = a + b := by simp
                rw [hsum]
                by_cases hab : a + b < 256
                · exact iff_of_true (keysRight_pair hab) ⟨rfl, rfl, rfl, hab⟩
                · exact iff_of_false (not_keysRight_pair (hpos b (by simp)) (by omega)) (by omega)
            | _ :: _ :: _ :: _, _, h3, _ => exact absurd (by simp) h3

/-- Two raw attributes, which are packed right without `DEBUG`. -/
theorem keysRight_iff_two : KeysRight Nat false false [3, 4] :=
  (keysRight_iff (by decide) (by decide)).mpr (by decide)

/-- Two raw attributes with one derived one each, in the build that is made: the row that chooses
both has the entry 2, which is `nD`. -/
theorem keysRight_fails : ¬ KeysRight Nat true false [1, 1] :=
  not_keysRight_debug (by decide) (by decide)

end Templates

end QStore.Operators
