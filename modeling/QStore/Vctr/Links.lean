import QStore.Vctr.AddDel
import QStore.Lib.Links

/-!
# QStore.Vctr.Links

The link from a vector to its nn vector (`vctr_nn_get_set.c`, `vctr_kill.c`).

Both vectors record it: `has_nn` and `nn_key` on one side, `has_parent` and
`parent_key` on the other. `Linked` says that the two sides agree; every call
keeps it. `vctr_set_nn_vec` does not look at the lengths of the two vectors, nor
at the links that the nn vector has itself.
-/

namespace QStore.Vctr

open Function Relation

/-- `vctr_set_nn_vec` -/
def vctrSetNnVec (baseUqid nnUqid : Nat) : M Unit := do
  byeIf (baseUqid = nnUqid)
  byeIf (baseUqid = 0)
  byeIf (nnUqid = 0)
  let base ← getVctr baseUqid
  let nn ← getVctr nnUqid
  byeIf base.hasNn
  byeIf (base.nnKey ≠ 0)
  byeIf nn.hasParent
  byeIf (nn.qtype ≠ .BL ∧ nn.qtype ≠ .B1)
  setVctr baseUqid { base with hasNn := true, nnKey := nnUqid }
  setVctr nnUqid { nn with hasParent := true, parentKey := baseUqid }

/-- `vctr_brk_nn_vec` -/
def vctrBrkNnVec (baseUqid : Nat) (delNn : Bool) : M Unit := do
  byeIf (baseUqid = 0)
  let base ← getVctr baseUqid
  if base.hasNn = false then pure ()
  else do
    let _ ← getVctr base.nnKey
    modVctr baseUqid fun v => { v with hasNn := false, nnKey := 0 }
    modVctr base.nnKey fun v => { v with hasParent := false, parentKey := 0 }
    onlyIf delNn do
      let isFound ← vctrDel base.nnKey false
      byeIf (isFound = false)

/-- `vctr_kill`, with what it sets `*ptr_kill_success` to, if anything. -/
def vctrKill (u : Nat) : M (Option Bool) := do
  let v ← getVctr u
  if v.isKillable = false then pure none
  else if v.isEov then pure none
  else if v.numKillIgnore > 0 then do
    modVctr u fun v => { v with numKillIgnore := v.numKillIgnore - 1 }
    pure (some false)
  else do
    let isFound ← vctrDel u true
    byeIf (isFound = false)
    pure (some true)

/-! ## the links of a state -/

/-- Where the link of a vector leads. -/
def VctrVal.nn (v : VctrVal) : Option Nat := if v.hasNn then some v.nnKey else none

/-- Where the link to a vector comes from. -/
def VctrVal.parent (v : VctrVal) : Option Nat := if v.hasParent then some v.parentKey else none

def St.nnOf (s : St) (u : Nat) : Option Nat := (s.vctrs u).bind VctrVal.nn

def St.parentOf (s : St) (u : Nat) : Option Nat := (s.vctrs u).bind VctrVal.parent

/-- Both sides of the links, for all vectors. -/
def St.links (s : St) : (Nat → Option Nat) × (Nat → Option Nat) := (s.nnOf, s.parentOf)

/-- The two sides agree. No vector is linked to itself, and none of the two has
the id 0. -/
structure Linked (s : St) : Prop where
  matched : Matched s.nnOf s.parentOf
  proper : ∀ a b, s.nnOf a = some b → a ≠ 0 ∧ b ≠ 0 ∧ a ≠ b

variable {s t : St} {u a b i : Nat} {v w : VctrVal}

theorem nnOf_eq_some : s.nnOf u = some b ↔ ∃ v, s.vctrs u = some v ∧ v.hasNn = true ∧ v.nnKey = b := by
  cases hv : s.vctrs u with
  | none => simp [St.nnOf, hv]
  | some v => cases hnn : v.hasNn <;> simp [St.nnOf, hv, VctrVal.nn, hnn]

theorem parentOf_eq_some :
    s.parentOf u = some a ↔ ∃ v, s.vctrs u = some v ∧ v.hasParent = true ∧ v.parentKey = a := by
  cases hv : s.vctrs u with
  | none => simp [St.parentOf, hv]
  | some v => cases hp : v.hasParent <;> simp [St.parentOf, hv, VctrVal.parent, hp]

theorem nnOf_setVctr : (s.setVctr u v).nnOf = update s.nnOf u v.nn := by
  funext x
  by_cases hx : x = u
  · simp [hx, St.nnOf]
  · rw [update_of_ne hx, St.nnOf, St.setVctr_of_ne hx, St.nnOf]

theorem parentOf_setVctr : (s.setVctr u v).parentOf = update s.parentOf u v.parent := by
  funext x
  by_cases hx : x = u
  · simp [hx, St.parentOf]
  · rw [update_of_ne hx, St.parentOf, St.setVctr_of_ne hx, St.parentOf]

/-- A new entry with the links of the old one. -/
theorem links_setVctr (hv : (s.vctrs u).bind VctrVal.nn = w.nn)
    (hp : (s.vctrs u).bind VctrVal.parent = w.parent) : (s.setVctr u w).links = s.links := by
  rw [St.links, St.links, nnOf_setVctr, parentOf_setVctr, ← hv, ← hp]
  exact Prod.ext (update_eq_self u s.nnOf) (update_eq_self u s.parentOf)

theorem links_delVctr (hv : s.nnOf u = none) (hp : s.parentOf u = none) :
    (s.delVctr u).links = s.links := by
  have hnn : (s.delVctr u).nnOf = update s.nnOf u none := by
    funext x
    by_cases hx : x = u
    · simp [hx, St.nnOf]
    · rw [update_of_ne hx, St.nnOf, St.delVctr_of_ne hx, St.nnOf]
  have hpar : (s.delVctr u).parentOf = update s.parentOf u none := by
    funext x
    by_cases hx : x = u
    · simp [hx, St.parentOf]
    · rw [update_of_ne hx, St.parentOf, St.delVctr_of_ne hx, St.parentOf]
  rw [St.links, St.links, hnn, hpar, ← hv]
  nth_rewrite 2 [hv]
  rw [← hp]
  exact Prod.ext (update_eq_self u s.nnOf) (update_eq_self u s.parentOf)

/-- A call took one link away. -/
structure Erased (s t : St) (a b : Nat) : Prop where
  link : s.nnOf a = some b
  nnOf : t.nnOf = update s.nnOf a none
  parentOf : t.parentOf = update s.parentOf b none

/-- A call took one link away, or none. -/
def Fewer (s t : St) : Prop := t.links = s.links ∨ ∃ a b, Erased s t a b

theorem Fewer.linked (h : Linked s) (hst : Fewer s t) : Linked t := by
  rcases hst with hsame | ⟨a, b, he⟩
  · have h1 : t.nnOf = s.nnOf := congrArg Prod.fst hsame
    have h2 : t.parentOf = s.parentOf := congrArg Prod.snd hsame
    constructor
    · rw [h1, h2]
      exact h.matched
    · rw [h1]
      exact h.proper
  · constructor
    · rw [he.nnOf, he.parentOf]
      exact h.matched.erase he.link
    · rw [he.nnOf]
      intro x y hxy
      by_cases hx : x = a
      · rw [hx, update_self] at hxy
        contradiction
      · rw [update_of_ne hx] at hxy
        exact h.proper x y hxy

theorem Fewer.noLoop (h : NoLoop s.nnOf) (hst : Fewer s t) : NoLoop t.nnOf := by
  rcases hst with hsame | ⟨a, b, he⟩
  · rw [show t.nnOf = s.nnOf from congrArg Prod.fst hsame]
    exact h
  · rw [he.nnOf]
    exact h.erase

/-! ## what leaves the vectors alone -/

section Alone

variable {γ : Type} {f : St → γ}

theorem keeps_byeIf {c : Prop} [Decidable c] : Keeps f (byeIf c) :=
  Keeps.ite (fun _ => keeps_throw) fun _ => keeps_pure

theorem keeps_onlyIf {c : Prop} [Decidable c] {m : M Unit} (h : c → Keeps f m) :
    Keeps f (onlyIf c m) :=
  Keeps.ite h fun _ => keeps_pure

theorem keeps_getVctr : Keeps f (getVctr u) := by
  intro s
  rw [ends_getVctr]
  exact ⟨fun _ => rfl, fun _ _ => rfl⟩

theorem keeps_getChnk : Keeps f (getChnk u i) := by
  intro s
  rw [ends_getChnk]
  exact ⟨fun _ => rfl, fun _ _ => rfl⟩

theorem keeps_l2Name : Keeps f (l2Name u i) := by
  intro s
  rw [ends_l2Name]
  exact ⟨fun _ => rfl, fun _ _ => rfl⟩

theorem keeps_unlinkFile {n : FileName} : Keeps St.vctrs (unlinkFile n) := by
  intro s
  rw [ends_unlinkFile]
  exact ⟨fun _ => rfl, fun _ _ => rfl⟩

theorem keeps_decrMemUsed {x : Nat} : Keeps St.vctrs (decrMemUsed x) :=
  fun _ => ends_decrMemUsed (fun _ => rfl) fun _ => rfl

theorem keeps_decrDskUsed {x : Nat} : Keeps St.vctrs (decrDskUsed x) :=
  fun _ => ends_decrDskUsed (fun _ => rfl) fun _ => rfl

theorem keeps_ignoreStatus {m : M Unit} (h : Keeps f m) : Keeps f (ignoreStatus m) := by
  intro s
  rw [ends_ignoreStatus]
  refine (h s).imp (fun _ _ => id) fun e t ht => ?_
  cases e <;> exact ht

theorem keeps_chnkDel {p : Bool} : Keeps St.vctrs (chnkDel u i p) := by
  have hfree : Keeps St.vctrs (chnkFreeResources u i p) := by
    refine keeps_getChnk.bind fun c => keeps_byeIf.bind fun _ => keeps_byeIf.bind fun _ => ?_
    refine Keeps.bind (keeps_onlyIf fun _ => ?_) fun _ => keeps_onlyIf fun _ => ?_
    · exact keeps_decrMemUsed.bind fun _ => keeps_modify fun _ => rfl
    · refine keeps_l2Name.bind fun n => keeps_unlinkFile.bind fun _ => keeps_decrDskUsed.bind fun _ => ?_
      exact keeps_getChnk.bind fun _ => keeps_modify fun _ => rfl
  refine keeps_get.bind fun s => ?_
  refine Keeps.ite (fun _ => keeps_throw) fun _ => Keeps.ite (fun _ => keeps_throw) fun _ => ?_
  exact hfree.bind fun _ => keeps_modify fun _ => rfl

theorem keeps_delRound : Keeps St.vctrs (delRound u v i) :=
  keeps_get.bind fun _ => keeps_byeIf.bind fun _ => keeps_chnkDel

theorem keeps_delLoop : Keeps St.vctrs (delLoop u v) :=
  Keeps.bind (Keeps.forUp (fun _ => keeps_delRound) _ _) fun _ =>
    keeps_onlyIf fun _ => Keeps.forUp (fun _ => keeps_delRound) _ _

end Alone

/-! ## what leaves the links alone -/

theorem keepsLinks_of {α : Type} {m : M α} (h : Keeps St.vctrs m) : Keeps St.links m :=
  h.view fun f => ((fun u => (f u).bind VctrVal.nn), fun u => (f u).bind VctrVal.parent)

/-- A change of an entry that leaves its links alone. -/
theorem keepsLinks_modVctr {g : VctrVal → VctrVal} (hnn : ∀ v, (g v).nn = v.nn)
    (hp : ∀ v, (g v).parent = v.parent) : Keeps St.links (modVctr u g) := by
  intro s
  rw [ends_modVctr]
  refine ⟨fun _ => rfl, fun v hv => links_setVctr ?_ ?_⟩
  · rw [hv, hnn, Option.bind_some]
  · rw [hv, hp, Option.bind_some]

theorem keepsLinks_delLma : Keeps St.links (delLma u v) := by
  refine keeps_byeIf.bind fun _ => keeps_byeIf.bind fun _ => ?_
  refine keeps_get.bind fun s => ?_
  have hflag : Keeps St.links (modVctr u fun v =>
      { v with isLma := false, x := v.x.map fun m => { m with live := false } }) :=
    keepsLinks_modVctr (fun _ => rfl) fun _ => rfl
  cases s.fs.read (lmaFile u) with
  | none => exact hflag
  | some bs =>
      exact (keepsLinks_of keeps_unlinkFile).bind fun _ =>
        (keepsLinks_of (keeps_ignoreStatus keeps_decrDskUsed)).bind fun _ => hflag

/-- What `vctr_del` does to a vector without links. -/
theorem ends_delete_links (hnn : s.nnOf u = none) (hp : s.parentOf u = none) {r : Bool} :
    Ends (do
        onlyIf (v.isLma ∧ v.isPersist = false) (delLma u v)
        onlyIf (v.numElements ≠ 0) (delLoop u v)
        modify (·.delVctr u)
        pure r : M Bool) s (fun _ t => t.links = s.links) (fun _ t => t.links = s.links) := by
  have hfirst : Keeps St.links (onlyIf (v.isLma ∧ v.isPersist = false) (delLma u v)) :=
    keeps_onlyIf fun _ => keepsLinks_delLma
  have hloop : Keeps St.links (onlyIf (v.numElements ≠ 0) (delLoop u v)) :=
    keeps_onlyIf fun _ => keepsLinks_of keeps_delLoop
  refine hfirst.ends_bind (I := fun l => l = s.links) rfl (fun _ t ht => ?_) fun _ _ => id
  refine hloop.ends_bind (I := fun l => l = s.links) ht (fun _ t' ht' => ?_) fun _ _ => id
  have h1 : t'.nnOf u = none := (congrFun (congrArg Prod.fst ht') u).trans hnn
  have h2 : t'.parentOf u = none := (congrFun (congrArg Prod.snd ht') u).trans hp
  exact (links_delVctr h1 h2).trans ht'

/-! ## what takes a link away -/

/-- The entries of a vector and of its nn vector, without the link. -/
def St.unlink (s : St) (u : Nat) (v w : VctrVal) : St :=
  (s.setVctr u { v with hasNn := false, nnKey := 0 }).setVctr v.nnKey
    { w with hasParent := false, parentKey := 0 }

theorem erased_unlink (hv : s.vctrs u = some v) (hnn : v.hasNn = true)
    (hw : s.vctrs v.nnKey = some w) (hne : u ≠ v.nnKey) :
    Erased s (s.unlink u v w) u v.nnKey := by
  have hlink : s.nnOf u = some v.nnKey := nnOf_eq_some.mpr ⟨v, hv, hnn, rfl⟩
  refine ⟨hlink, ?_, ?_⟩
  · rw [St.unlink, nnOf_setVctr, nnOf_setVctr]
    have hsame : (update s.nnOf u none) v.nnKey = w.nn := by
      rw [update_of_ne (Ne.symm hne), St.nnOf, hw, Option.bind_some]
    exact (congrArg (update (update s.nnOf u none) v.nnKey) hsame).symm.trans (update_eq_self _ _)
  · rw [St.unlink, parentOf_setVctr, parentOf_setVctr]
    have hsame : s.parentOf u = v.parent := by rw [St.parentOf, hv, Option.bind_some]
    have hkeep : update s.parentOf u v.parent = s.parentOf := by rw [← hsame, update_eq_self]
    exact congrArg (fun f => update f v.nnKey none) hkeep

/-- The link of a vector leads to one that records it. -/
theorem Linked.nn_found (h : Linked s) (hv : s.vctrs u = some v) (hnn : v.hasNn = true) :
    v.nnKey ≠ 0 ∧ u ≠ 0 ∧ u ≠ v.nnKey ∧
      ∃ w, s.vctrs v.nnKey = some w ∧ w.hasParent = true ∧ w.parentKey = u := by
  have hlink : s.nnOf u = some v.nnKey := nnOf_eq_some.mpr ⟨v, hv, hnn, rfl⟩
  obtain ⟨h1, h2, h3⟩ := h.proper _ _ hlink
  exact ⟨h2, h1, h3, parentOf_eq_some.mp ((h.matched _ _).mp hlink)⟩

/-- `breakNn` takes the link away. -/
theorem breakNn_eq (h : Linked s) (hv : s.vctrs u = some v) (hnn : v.hasNn = true) :
    ∃ w, s.vctrs v.nnKey = some w ∧ u ≠ v.nnKey ∧ breakNn u v s = .ok false (s.unlink u v w) := by
  obtain ⟨h0, hu0, hne, w, hw, hp, hpk⟩ := h.nn_found hv hnn
  refine ⟨w, hw, hne, ?_⟩
  have hw' : (s.setVctr u { v with hasNn := false, nnKey := 0 }).vctrs v.nnKey = some w := by
    rw [St.setVctr_of_ne (Ne.symm hne), hw]
  have hends : Ends (breakNn u v) s (fun r t => r = false ∧ t = s.unlink u v w)
      fun _ _ => False := by
    rw [breakNn, if_neg (by simp [hnn])]
    simp only [ends_bind, ends_byeIf, ends_setVctr, ends_get, hw']
    refine ⟨h0, fun _ => ?_⟩
    simp only [ends_pure, hp, hpk]
    refine ⟨by simp, fun _ => ⟨hu0, fun _ => ⟨trivial, ?_⟩⟩⟩
    simp only [St.unlink, St.setVctr, update_idem]
  obtain ⟨r, t, hrun, hr, ht⟩ := hends.returns
  rw [hrun, hr, ht]

/-- **`vctr_del`** takes the vector's link to its nn vector away, and no other,
wherever it stops. -/
theorem ends_vctrDel_fewer (h : Linked s) {r : Bool} :
    Ends (vctrDel u r) s (fun _ t => Fewer s t) (fun _ t => Fewer s t) := by
  rw [vctrDel]
  by_cases h0 : u = 0
  · rw [if_pos h0]
    exact .inl rfl
  · rw [if_neg h0, ends_bind, ends_get]
    cases hv : s.vctrs u with
    | none => exact .inl rfl
    | some v =>
        simp only
        cases hnn : v.hasNn with
        | false =>
            have hnone : s.nnOf u = none := by simp [St.nnOf, hv, VctrVal.nn, hnn]
            rw [breakNn, if_pos hnn, ends_bind, ends_pure, if_neg (by simp)]
            cases hp : v.hasParent with
            | true => exact .inl rfl
            | false =>
                have hpar : s.parentOf u = none := by simp [St.parentOf, hv, VctrVal.parent, hp]
                rw [if_neg (by simp)]
                exact (ends_delete_links hnone hpar).imp (fun _ _ => .inl) fun _ _ => .inl
        | true =>
            obtain ⟨w, hw, hne, hbreak⟩ := breakNn_eq h hv hnn
            have he := erased_unlink hv hnn hw hne
            have hrest : ∀ t, t.links = (s.unlink u v w).links → Fewer s t := by
              intro t ht
              exact .inr ⟨u, v.nnKey, he.link, (congrArg Prod.fst ht).trans he.nnOf,
                (congrArg Prod.snd ht).trans he.parentOf⟩
            rw [ends_bind, Ends, hbreak]
            simp only [Bool.false_eq_true, if_false]
            cases hp : v.hasParent with
            | true => exact hrest _ rfl
            | false =>
                have hnone : (s.unlink u v w).nnOf u = none := by rw [he.nnOf, update_self]
                have hpar : (s.unlink u v w).parentOf u = none := by
                  rw [he.parentOf, update_of_ne hne]
                  simp [St.parentOf, hv, VctrVal.parent, hp]
                rw [if_neg (by simp)]
                exact (ends_delete_links hnone hpar).imp (fun _ t => hrest t) fun _ t => hrest t

/-! ## one call -/

/-- The links are as they should be. -/
structure Tidy (s : St) : Prop where
  linked : Linked s
  noLoop : NoLoop s.nnOf

/-- An invariant that says how the links are, and lets go of one. -/
structure Closed (I : St → Prop) : Prop where
  linked : ∀ {s}, I s → Linked s
  of_fewer : ∀ {s t}, I s → Fewer s t → I t

theorem closed_linked : Closed Linked := ⟨id, fun h hst => hst.linked h⟩

theorem closed_tidy : Closed Tidy :=
  ⟨Tidy.linked, fun h hst => ⟨hst.linked h.linked, hst.noLoop h.noLoop⟩⟩

section Closed

variable {I : St → Prop}

theorem Closed.of_links (hI : Closed I) (h : I s) (hst : t.links = s.links) : I t :=
  hI.of_fewer h (.inl hst)

theorem Closed.ends_vctrDel (hI : Closed I) (h : I s) {r : Bool} :
    Ends (vctrDel u r) s (fun _ t => I t) (fun _ t => I t) :=
  (ends_vctrDel_fewer (hI.linked h)).imp (fun _ _ => hI.of_fewer h) fun _ _ => hI.of_fewer h

theorem Closed.ends_vctrBrkNnVec (hI : Closed I) (h : I s) {r : Bool} :
    Ends (vctrBrkNnVec u r) s (fun _ t => I t) (fun _ t => I t) := by
  simp only [vctrBrkNnVec, ends_bind, ends_byeIf, ends_getVctr]
  refine ⟨fun _ => h, fun _ => ⟨fun _ => h, fun v hv => ?_⟩⟩
  cases hnn : v.hasNn with
  | false => exact h
  | true =>
      obtain ⟨-, -, hne, w, hw, -, -⟩ := (hI.linked h).nn_found hv hnn
      have hunlink := hI.of_fewer h (.inr ⟨u, v.nnKey, erased_unlink hv hnn hw hne⟩)
      have hw' : (s.setVctr u { v with hasNn := false, nnKey := 0 }).vctrs v.nnKey = some w := by
        rw [St.setVctr_of_ne (Ne.symm hne), hw]
      rw [if_neg (by simp), ends_bind, ends_getVctr_of hw, ends_bind, ends_modVctr_of hv, ends_bind,
        ends_modVctr_of hw', ends_onlyIf]
      refine ⟨fun _ => ?_, fun _ => hunlink⟩
      refine Ends.bind (hI.ends_vctrDel hunlink) fun r t ht => ?_
      rw [ends_byeIf]
      exact ⟨fun _ => ht, fun _ => ht⟩

theorem Closed.ends_vctrKill (hI : Closed I) (h : I s) :
    Ends (vctrKill u) s (fun _ t => I t) (fun _ t => I t) := by
  simp only [vctrKill, ends_bind, ends_getVctr]
  refine ⟨fun _ => h, fun v hv => ?_⟩
  rw [ends_ite]
  refine ⟨fun _ => h, fun _ => ?_⟩
  rw [ends_ite]
  refine ⟨fun _ => h, fun _ => ?_⟩
  rw [ends_ite]
  refine ⟨fun _ => ?_, fun _ => ?_⟩
  · have hlife : Keeps St.links (modVctr u fun v => { v with numKillIgnore := v.numKillIgnore - 1 }) :=
      keepsLinks_modVctr (fun _ => rfl) fun _ => rfl
    rw [ends_bind]
    exact (hlife s).imp (fun _ _ => hI.of_links h) fun _ _ => hI.of_links h
  · refine Ends.bind (hI.ends_vctrDel h) fun r t ht => ?_
    rw [ends_bind, ends_byeIf]
    exact ⟨fun _ => ht, fun _ => ht⟩

theorem Closed.ends_vctrAdd (hI : Closed I) (h : I s) (x : AddArgs) :
    Ends (vctrAdd x) s (fun _ t => I t) (fun _ t => I t) := by
  refine QStore.Vctr.ends_vctrAdd x (fun _ hfree => hI.of_links h ?_) h (hI.of_links h rfl)
  have hnew : (s.setUqid (u32 (s.vctrUqid + 1))).vctrs (u32 (s.vctrUqid + 1)) = none := hfree
  exact (links_setVctr (by rw [hnew]; rfl) (by rw [hnew]; rfl)).trans rfl

end Closed

/-- `vctr_set_nn_vec` does not refuse the two vectors. -/
structure Accepts (s : St) (a b : Nat) : Prop where
  ne : a ≠ b
  base_ne : a ≠ 0
  nn_ne : b ≠ 0
  base : ∃ v, s.vctrs a = some v ∧ v.hasNn = false ∧ v.nnKey = 0
  nn : ∃ w, s.vctrs b = some w ∧ w.hasParent = false ∧ (w.qtype = .BL ∨ w.qtype = .B1)

/-- A call added one link. -/
structure Inserted (s t : St) (a b : Nat) : Prop where
  nnOf : t.nnOf = update s.nnOf a (some b)
  parentOf : t.parentOf = update s.parentOf b (some a)

theorem ends_vctrSetNnVec :
    Ends (vctrSetNnVec a b) s (fun _ t => Accepts s a b ∧ Inserted s t a b) (fun _ t => t = s) := by
  simp only [vctrSetNnVec, ends_bind, ends_byeIf, ends_getVctr, ends_setVctr]
  refine ⟨fun _ => trivial, fun h1 => ⟨fun _ => trivial, fun h2 => ⟨fun _ => trivial, fun h3 =>
    ⟨fun _ => trivial, fun v hv => ⟨fun _ => trivial, fun w hw => ⟨fun _ => trivial, fun h4 =>
    ⟨fun _ => trivial, fun h5 => ⟨fun _ => trivial, fun h6 => ⟨fun _ => trivial, fun h7 =>
    ?_⟩⟩⟩⟩⟩⟩⟩⟩⟩
  rw [Bool.not_eq_true] at h4 h6
  constructor
  · constructor
    · exact h1
    · exact h2
    · exact h3
    · exact ⟨v, hv, h4, not_not.mp h5⟩
    · refine ⟨w, hw, h6, ?_⟩
      by_cases hbl : w.qtype = .BL
      · exact .inl hbl
      · exact .inr (not_not.mp fun hb1 => h7 ⟨hbl, hb1⟩)
  · have hnn : s.nnOf b = w.nn := by rw [St.nnOf, hw, Option.bind_some]
    have hpar : s.parentOf a = v.parent := by rw [St.parentOf, hv, Option.bind_some]
    constructor
    · rw [nnOf_setVctr, nnOf_setVctr]
      have hsame : (update s.nnOf a (some b)) b = w.nn := by rw [update_of_ne (Ne.symm h1), hnn]
      exact (congrArg (update (update s.nnOf a (some b)) b) hsame).symm.trans (update_eq_self _ _)
    · rw [parentOf_setVctr, parentOf_setVctr]
      have hkeep : update s.parentOf a v.parent = s.parentOf := by rw [← hpar, update_eq_self]
      exact congrArg (fun f => update f b (some a)) hkeep

theorem Accepts.free (h : Accepts s a b) : s.nnOf a = none ∧ s.parentOf b = none := by
  obtain ⟨v, hv, hnn, -⟩ := h.base
  obtain ⟨w, hw, hp, -⟩ := h.nn
  exact ⟨by simp [St.nnOf, hv, VctrVal.nn, hnn], by simp [St.parentOf, hw, VctrVal.parent, hp]⟩

theorem Linked.insert (h : Linked s) (hacc : Accepts s a b) (hins : Inserted s t a b) :
    Linked t := by
  constructor
  · rw [hins.nnOf, hins.parentOf]
    exact h.matched.insert hacc.free.1 hacc.free.2
  · rw [hins.nnOf]
    intro x y hxy
    by_cases hx : x = a
    · rw [hx, update_self, Option.some.injEq] at hxy
      rw [hx, ← hxy]
      exact ⟨hacc.base_ne, hacc.nn_ne, hacc.ne⟩
    · rw [update_of_ne hx] at hxy
      exact h.proper x y hxy

/-- A link keeps the links tidy, unless it closes a loop. -/
theorem Tidy.insert (h : Tidy s) (hacc : Accepts s a b) (hins : Inserted s t a b)
    (hloop : ¬ TransGen (Leads s.nnOf) b a) : Tidy t := by
  have hapart : ¬ ReflTransGen (Leads s.nnOf) b a := by
    rw [reflTransGen_iff_eq_or_transGen, not_or]
    exact ⟨hacc.ne, hloop⟩
  refine ⟨h.linked.insert hacc hins, ?_⟩
  rw [hins.nnOf]
  exact h.noLoop.insert hapart

/-! ## runs -/

/-- A call that makes, links or deletes vectors. -/
inductive LinkOp
  | add (x : AddArgs)
  | setNn (base nn : Nat)
  | brkNn (base : Nat) (delNn : Bool)
  | kill (u : Nat)
  | del (u : Nat)

namespace LinkOp

def run : LinkOp → M Unit
  | add x => do let _ ← vctrAdd x
  | setNn base nn => vctrSetNnVec base nn
  | brkNn base delNn => vctrBrkNnVec base delNn
  | kill u => do let _ ← vctrKill u
  | del u => do let _ ← vctrDel u false

/-- The two vectors that the call links, as they are before it. -/
def linking (s : St) : LinkOp → List (Option VctrVal × Option VctrVal)
  | setNn base nn => [(s.vctrs base, s.vctrs nn)]
  | _ => []

/-- The two vectors are of one length, and the links of the nn vector do not lead
to the other. -/
def Fits (s : St) : LinkOp → Prop
  | setNn base nn => Accepts s base nn →
      (s.vctrs base).map VctrVal.numElements = (s.vctrs nn).map VctrVal.numElements ∧
        ¬ TransGen (Leads s.nnOf) nn base
  | _ => True

end LinkOp

/-- Calls from the start on, each of which satisfied `P`, with the vectors that
were linked. In between, others may do what they like but touch a link. -/
inductive LinkRun (P : St → LinkOp → Prop) : St → List (Option VctrVal × Option VctrVal) → Prop
  | start : LinkRun P St.start []
  | ok {s t : St} {ls : List (Option VctrVal × Option VctrVal)} {o : LinkOp} (h : LinkRun P s ls)
      (ho : P s o) (hr : o.run s = .ok () t) : LinkRun P t (ls ++ o.linking s)
  | bye {s t : St} {ls : List (Option VctrVal × Option VctrVal)} {o : LinkOp} {k : Int}
      (h : LinkRun P s ls) (ho : P s o) (hr : o.run s = .error (.bye k) t) : LinkRun P t ls
  | other {s t : St} {ls : List (Option VctrVal × Option VctrVal)} (h : LinkRun P s ls)
      (hst : t.links = s.links) : LinkRun P t ls

variable {ls : List (Option VctrVal × Option VctrVal)} {o : LinkOp}

theorem tidy_start : Tidy St.start := by
  have hnone : ∀ x : Nat, St.start.nnOf x = none := fun _ => rfl
  constructor
  · constructor
    · intro x y
      constructor
      · intro h
        cases h
      · intro h
        cases h
    · intro x y h
      cases h
  · intro x hx
    obtain ⟨y, hy, -⟩ := TransGen.head'_iff.mp hx
    rw [Leads, hnone] at hy
    contradiction

/-- The calls other than `vctr_set_nn_vec` keep what lets go of links. -/
theorem Closed.ends_run {I : St → Prop} (hI : Closed I) (h : I s)
    {Q : Option VctrVal × Option VctrVal → Prop}
    (hset : ∀ base nn, o = .setNn base nn → Ends (vctrSetNnVec base nn) s
      (fun _ t => I t ∧ ∀ p ∈ o.linking s, Q p) fun _ t => I t) :
    Ends o.run s (fun _ t => I t ∧ ∀ p ∈ o.linking s, Q p) (fun _ t => I t) := by
  cases o with
  | add x =>
      rw [LinkOp.run, ends_bind]
      exact (hI.ends_vctrAdd h x).imp (fun _ t ht => ⟨ht, by simp [LinkOp.linking]⟩) fun _ _ => id
  | brkNn base delNn =>
      exact (hI.ends_vctrBrkNnVec h).imp (fun _ t ht => ⟨ht, by simp [LinkOp.linking]⟩) fun _ _ => id
  | kill u =>
      rw [LinkOp.run, ends_bind]
      exact (hI.ends_vctrKill h).imp (fun _ t ht => ⟨ht, by simp [LinkOp.linking]⟩) fun _ _ => id
  | del u =>
      rw [LinkOp.run, ends_bind]
      exact (hI.ends_vctrDel h).imp (fun _ t ht => ⟨ht, by simp [LinkOp.linking]⟩) fun _ _ => id
  | setNn base nn => exact hset base nn rfl

/-- The two sides of the links agree in every run. -/
theorem LinkRun.linked {P : St → LinkOp → Prop} (h : LinkRun P s ls) : Linked s := by
  have hrun : ∀ {s o}, Linked s → Ends (LinkOp.run o) s
      (fun _ t => Linked t ∧ ∀ p ∈ o.linking s, True) (fun _ t => Linked t) := by
    intro s o h
    refine closed_linked.ends_run h fun base nn ho => ?_
    refine ends_vctrSetNnVec.imp (fun _ t ht => ?_) fun _ t ht => ht ▸ h
    exact ⟨h.insert ht.1 ht.2, fun _ _ => trivial⟩
  induction h with
  | start => exact tidy_start.linked
  | ok _ _ hr ih => exact ((hrun ih).of_ok hr).1
  | bye _ _ hr ih => exact (hrun ih).of_error hr
  | other _ hst ih => exact closed_linked.of_links ih hst

theorem Tidy.ends_run (h : Tidy s) (hfit : o.Fits s) :
    Ends (o.run) s (fun _ t => Tidy t ∧ ∀ p ∈ o.linking s, ∃ v w, p = (some v, some w) ∧
      v.numElements = w.numElements) (fun _ t => Tidy t) := by
  refine closed_tidy.ends_run h fun base nn ho => ?_
  subst ho
  refine ends_vctrSetNnVec.imp (fun _ t ht => ?_) fun _ t ht => ht ▸ h
  obtain ⟨hacc, hins⟩ := ht
  obtain ⟨hlen, hloop⟩ := hfit hacc
  obtain ⟨v, hv, -⟩ := hacc.base
  obtain ⟨w, hw, -⟩ := hacc.nn
  rw [hv, hw, Option.map_some, Option.map_some, Option.some.injEq] at hlen
  refine ⟨h.insert hacc hins hloop, ?_⟩
  rw [LinkOp.linking, List.forall_mem_singleton, hv, hw]
  exact ⟨v, w, rfl, hlen⟩

/-- What is said of the links: both sides agree, no vector has two parents, and
none is its own ancestor. -/
structure LinksOk (s : St) : Prop where
  symmetric : ∀ a b, (∃ v, s.vctrs a = some v ∧ v.hasNn = true ∧ v.nnKey = b) ↔
    ∃ w, s.vctrs b = some w ∧ w.hasParent = true ∧ w.parentKey = a
  oneParent : ∀ a a' b, s.nnOf a = some b → s.nnOf a' = some b → a = a'
  noAncestor : ∀ a, ¬ TransGen (Leads s.nnOf) a a

theorem Tidy.linksOk (h : Tidy s) : LinksOk s where
  symmetric := by
    intro a b
    rw [← nnOf_eq_some, ← parentOf_eq_some]
    exact h.linked.matched a b
  oneParent := fun _ _ _ => h.linked.matched.start_unique
  noAncestor := h.noLoop

theorem LinkRun.tidy (h : LinkRun LinkOp.Fits s ls) :
    Tidy s ∧ ∀ p ∈ ls, ∃ v w, p = (some v, some w) ∧ v.numElements = w.numElements := by
  induction h with
  | start => exact ⟨tidy_start, by simp⟩
  | ok _ ho hr ih =>
      obtain ⟨ht, hlink⟩ := (ih.1.ends_run ho).of_ok hr
      refine ⟨ht, fun p hp => ?_⟩
      rcases List.mem_append.mp hp with hp | hp
      · exact ih.2 p hp
      · exact hlink p hp
  | bye _ ho hr ih => exact ⟨(ih.1.ends_run ho).of_error hr, ih.2⟩
  | other _ hst ih => exact ⟨closed_tidy.of_links ih.1 hst, ih.2⟩

/-- **The links of a run**: they are as they should be, and were made between
vectors of one length, as long as `vctr_set_nn_vec` is asked for nothing else. -/
theorem run_linksOk (h : LinkRun LinkOp.Fits s ls) :
    LinksOk s ∧ ∀ p ∈ ls, ∃ v w, p = (some v, some w) ∧ v.numElements = w.numElements :=
  ⟨h.tidy.1.linksOk, h.tidy.2⟩

/-- Nothing is reached from a vector without an nn vector. -/
theorem not_transGen_of_nnOf_none {a b : Nat} (h : s.nnOf b = none) :
    ¬ TransGen (Leads s.nnOf) b a := by
  intro hba
  obtain ⟨y, hy, -⟩ := TransGen.head'_iff.mp hba
  rw [Leads, h] at hy
  contradiction

/-- A vector of marks is made. -/
def addMarks : LinkOp := .add (plainArgs .BL 0)

/-- Two vectors of marks. -/
def twoMarks : St := final addMarks.run (final addMarks.run .start)

theorem twoMarks_run {P : St → LinkOp → Prop} (h : ∀ s, P s addMarks) :
    LinkRun P twoMarks [] := by
  have h1 : LinkRun P _ _ := LinkRun.start.ok (o := addMarks) (h _)
    (run_of_outcome_ok (by decide +kernel))
  exact h1.ok (o := addMarks) (h _) (run_of_outcome_ok (by decide +kernel))

/-- The second of two vectors becomes the nn vector of the first. -/
theorem run_linksOk_two : ∃ s, LinksOk s ∧ s.nnOf 1 = some 2 ∧
    ∃ v w, v.numElements = w.numElements ∧ twoMarks.vctrs 1 = some v ∧ twoMarks.vctrs 2 = some w := by
  have hnone : twoMarks.nnOf 2 = none := by decide +kernel
  have h := (twoMarks_run fun _ => trivial).ok (P := LinkOp.Fits) (o := .setNn 1 2)
    (fun _ => ⟨by decide +kernel, not_transGen_of_nnOf_none hnone⟩)
    (run_of_outcome_ok (by decide +kernel))
  obtain ⟨hok, hlen⟩ := run_linksOk h
  obtain ⟨v, w, hp, hvw⟩ := hlen (twoMarks.vctrs 1, twoMarks.vctrs 2) (List.mem_singleton.mpr rfl)
  rw [Prod.mk.injEq] at hp
  exact ⟨_, hok, by decide +kernel, v, w, hvw, hp⟩

/-- Each of two vectors has become the nn vector of the other. -/
def crossed : St := final (LinkOp.setNn 2 1).run (final (LinkOp.setNn 1 2).run twoMarks)

/-- `vctr_set_nn_vec` closes a loop. -/
theorem linksOk_fails : (∃ ls, LinkRun (fun _ _ => True) crossed ls) ∧ ¬ LinksOk crossed := by
  have h1 := (twoMarks_run fun _ => trivial).ok (P := fun _ _ => True) (o := .setNn 1 2) trivial
    (run_of_outcome_ok (by decide +kernel))
  have h2 := h1.ok (o := .setNn 2 1) trivial (run_of_outcome_ok (by decide +kernel))
  constructor
  · exact ⟨_, h2⟩
  · have h12 : crossed.nnOf 1 = some 2 := by decide +kernel
    have h21 : crossed.nnOf 2 = some 1 := by decide +kernel
    intro hok
    exact hok.noAncestor 1 (.head h12 (.single h21))

end QStore.Vctr
