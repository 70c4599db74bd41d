import QStore.Lib.Trace
import QStore.Vctr.Append
import QStore.Vctr.Links
import QStore.Vctr.Put
import QStore.Vctr.Setters

/-!
# QStore.Vctr.Calls

Making vectors, setting what they are and appending to them, in any order.

An append leaves everything of a vector alone but how many elements and which
chunks it has and whether it is at its end.
-/

namespace QStore.Vctr

/-- A call that makes a vector, sets something of it, or appends to it. -/
inductive Call
  | add (a : AddArgs)
  | getSet (u : Nat) (what : Option Meta) (mode : Option Mode) (p : Ptrs)
  | cast (u : Nat) (strQtype : String)
  | setMemo (u : Nat) (memoLen : Int)
  | setNumKillIgnore (u : Nat) (numKillIgnore : Int)
  | persist (u : Nat) (bval : Bool)
  | put1 (u : Nat) (sclr : List UInt8)
  | putn (u : Nat) (X : List UInt8) (n : Nat)
  | putChunk (u : Nat) (cmem : Cmem) (n : Nat)

namespace Call

def run : Call → M Unit
  | add a => do let _ ← vctrAdd a
  | getSet u what mode p => do let _ ← vctrGetSet u what mode p
  | cast u strQtype => vctrCast u strQtype
  | setMemo u memoLen => vctrSetMemo u memoLen
  | setNumKillIgnore u numKillIgnore => vctrSetNumKillIgnore u numKillIgnore
  | persist u bval => vctrPersist u bval
  | put1 u sclr => vctrPut1 u sclr
  | putn u X n => vctrPutn u X n
  | putChunk u cmem n => do let _ ← vctrPutChunk u cmem n

/-- Where a call leads. One that fails leaves what it changed before it failed. -/
def step (c : Call) (s : St) : Option St :=
  match c.run s with
  | .ok _ t => some t
  | .error (.bye _) t => some t
  | .error .ub _ => none

variable {c : Call} {s t : St} {Q : St → Prop}

/-- What holds however a call ends holds where it leads. -/
theorem of_step (h : Ends c.run s (fun _ t => Q t) fun e t => e ≠ .ub → Q t)
    (hst : c.step s = some t) : Q t := by
  rw [step] at hst
  cases hr : c.run s with
  | ok a t' =>
      rw [hr] at hst
      cases hst
      exact h.of_ok hr
  | error e t' =>
      rw [hr] at hst
      cases e with
      | ub => cases hst
      | bye k =>
          cases hst
          exact h.of_error hr (by simp)

end Call

/-- The second write of an entry is the one that stays. -/
theorem setVctr_twice {s : St} {u : Nat} {v w : VctrVal} :
    (s.setVctr u v).setVctr u w = s.setVctr u w := by
  simp [St.setVctr]

/-- The `get` branches only look. -/
theorem keeps_getMeta {v : VctrVal} {p : Ptrs} {what : Meta} : Keeps id (getMeta v p what) := by
  have hderef : ∀ {α : Type} (o : Option α), Keeps (id : St → St) (deref o) := by
    intro α o
    cases o with
    | none => exact keeps_throw
    | some a => exact keeps_pure
  cases what
  case earlyFreeable =>
    exact (hderef p.bl).bind fun _ => (hderef p.i8).bind fun _ => keeps_pure
  all_goals exact (hderef _).bind fun _ => keeps_pure

/-! ## what an append leaves alone -/

/-- What is there of each vector, less what appending changes. -/
def St.statics (s : St) (u : Nat) : Option VctrVal := (s.vctrs u).map VctrVal.static

variable {s : St} {u n : Nat}

/-- A change of an entry that is like those of an append. -/
theorem keepsStatics_modVctr {g : VctrVal → VctrVal} (hg : ∀ v, (g v).static = v.static) :
    Keeps St.statics (modVctr u g) := by
  intro s
  rw [ends_modVctr]
  refine ⟨fun _ => rfl, fun v hv => funext fun w => ?_⟩
  by_cases hw : w = u
  · rw [hw, St.statics, St.statics, St.setVctr_self, hv, Option.map_some, Option.map_some, hg]
  · rw [St.statics, St.statics, St.setVctr_of_ne hw]

theorem keepsStatics_of {α : Type} {m : M α} (h : Keeps St.vctrs m) : Keeps St.statics m :=
  h.view fun f u => (f u).map VctrVal.static

theorem keeps_memalign : Keeps St.vctrs (memalign n) := fun _ => rfl

theorem keeps_incrMem {x : Nat} : Keeps St.vctrs (incrMem x) :=
  fun _ => ends_incrMem (fun _ _ => rfl) fun _ _ => rfl

theorem keeps_setChnk {i : Nat} {c : ChnkVal} : Keeps St.vctrs (setChnk u i c) := fun _ => rfl

theorem keeps_takeN {xs : List UInt8} : Keeps St.vctrs (takeN xs n) :=
  Keeps.ite (fun _ => keeps_pure) fun _ => keeps_throw

theorem keeps_poke {b : Buf} {xs : List UInt8} : Keeps St.vctrs (poke b n xs) :=
  Keeps.ite (fun _ => keeps_pure) fun _ => keeps_throw

theorem keeps_chnkFirst : Keeps St.vctrs (chnkFirst u) :=
  keeps_getVctr.bind fun _ => Keeps.ite (fun _ => keeps_pure) fun _ =>
    keeps_memalign.bind fun _ => keeps_incrMem.bind fun _ => keeps_setChnk

theorem keepsStatics_chnkToPut {v : VctrVal} : Keeps St.statics (chnkToPut u v) := by
  refine keeps_getChnk.bind fun c => keeps_byeIf.bind fun _ => Keeps.ite (fun _ => ?_) fun _ =>
    keeps_pure
  refine (keepsStatics_of keeps_memalign).bind fun b => ?_
  refine (keepsStatics_of (keeps_ignoreStatus keeps_incrMem)).bind fun _ => ?_
  refine (keepsStatics_of keeps_setChnk).bind fun _ => ?_
  exact Keeps.bind (keepsStatics_modVctr fun _ => by simp only [VctrVal.static]) fun _ => keeps_pure

theorem keeps_memoLoop {p : Bool} : ∀ (n i : Nat) (k : Int), Keeps St.vctrs (memoLoop u p i n k)
  | 0, _, _ => keeps_pure
  | n + 1, i, k => by
    have hdel : Keeps St.vctrs (statusOf (chnkDel u i p)) := by
      intro s
      rw [ends_statusOf]
      refine (keeps_chnkDel s).imp (fun _ _ => id) fun e t ht => ?_
      cases e <;> exact ht
    exact hdel.bind fun st => keeps_memoLoop n (i + 1) st

theorem keepsStatics_vctrMemo : Keeps St.statics (vctrMemo u) := by
  refine keeps_getVctr.bind fun v => Keeps.ite (fun _ => keeps_pure) fun _ => ?_
  refine Keeps.ite (fun _ => keeps_pure) fun _ => Keeps.ite (fun _ => ?_) fun _ => keeps_pure
  refine (keepsStatics_of (keeps_memoLoop _ _ _)).bind fun st => ?_
  refine Keeps.bind (keepsStatics_modVctr fun _ => by simp only [VctrVal.static]) fun _ => ?_
  exact Keeps.ite (fun _ => keeps_throw) fun _ => keeps_pure

theorem keepsStatics_vctrPut1 {sclr : List UInt8} : Keeps St.statics (vctrPut1 u sclr) := by
  refine keeps_byeIf.bind fun _ => keeps_getVctr.bind fun v => keeps_byeIf.bind fun _ => ?_
  refine (keepsStatics_of keeps_chnkFirst).bind fun _ => keeps_getVctr.bind fun w => ?_
  refine keepsStatics_chnkToPut.bind fun i => keeps_getChnk.bind fun c => ?_
  cases c.l1Mem with
  | none => exact keeps_throw
  | some b =>
      refine (keepsStatics_of keeps_poke).bind fun b => ?_
      refine Keeps.bind ?_ fun x => (keepsStatics_of keeps_poke).bind fun b => ?_
      · exact Keeps.ite (fun _ => keeps_pure) fun _ => keepsStatics_of keeps_takeN
      · exact Keeps.bind (keepsStatics_modVctr fun _ => by simp only [VctrVal.static]) fun _ =>
          (keepsStatics_of keeps_setChnk).bind fun _ => keepsStatics_vctrMemo

theorem keepsStatics_putnRound {X : List UInt8} : Keeps St.statics (putnRound u X n) := by
  refine keeps_byeIf.bind fun _ => keeps_byeIf.bind fun _ => keeps_getVctr.bind fun v => ?_
  refine keeps_byeIf.bind fun _ => (keepsStatics_of keeps_chnkFirst).bind fun _ => ?_
  refine keepsStatics_chnkToPut.bind fun i => keeps_getChnk.bind fun c => ?_
  cases c.l1Mem with
  | none => exact keeps_throw
  | some b =>
      refine (keepsStatics_of keeps_takeN).bind fun x => (keepsStatics_of keeps_poke).bind fun b => ?_
      exact Keeps.bind (keepsStatics_modVctr fun _ => by simp only [VctrVal.static]) fun _ =>
        (keepsStatics_of keeps_setChnk).bind fun _ => keeps_pure

theorem keepsStatics_vctrPutnLoop :
    ∀ (depth n : Nat) (X : List UInt8), Keeps St.statics (vctrPutnLoop depth u X n)
  | 0, _, _ => keeps_throw
  | depth + 1, _, _ =>
    keepsStatics_putnRound.bind fun _ =>
      Keeps.bind (keeps_onlyIf fun _ => keepsStatics_vctrPutnLoop depth _ _) fun _ =>
        keepsStatics_vctrMemo

theorem keeps_takeOver {cmem : Cmem} {size : Nat} : Keeps St.vctrs (takeOver cmem size n) := by
  refine Keeps.ite (fun _ => keeps_byeIf.bind fun _ => keeps_pure) fun _ => ?_
  refine keeps_memalign.bind fun b => keeps_incrMem.bind fun _ => ?_
  cases cmem.data with
  | none => exact keeps_throw
  | some d => exact keeps_takeN.bind fun x => keeps_poke.bind fun b => keeps_pure

theorem keepsStatics_vctrPutChunk {cmem : Cmem} : Keeps St.statics (vctrPutChunk u cmem n) := by
  have htake : Keeps St.statics (putChunkTake u cmem n) := by
    refine keeps_byeIf.bind fun _ => keeps_byeIf.bind fun _ => keeps_getVctr.bind fun v => ?_
    refine keeps_byeIf.bind fun _ => keeps_byeIf.bind fun _ => keeps_byeIf.bind fun _ => ?_
    refine keeps_byeIf.bind fun _ => keeps_byeIf.bind fun _ => ?_
    refine Keeps.bind (keeps_onlyIf fun _ => keepsStatics_vctrMemo) fun _ => ?_
    exact keeps_getVctr.bind fun w => (keepsStatics_of keeps_takeOver).bind fun r => keeps_pure
  have henter : ∀ r, Keeps St.statics (putChunkEnter u n r) := by
    intro r
    refine (keepsStatics_of keeps_setChnk).bind fun _ => ?_
    refine Keeps.bind (keepsStatics_modVctr fun _ => by simp only [VctrVal.static]) fun _ => ?_
    exact keepsStatics_vctrMemo.bind fun _ => keepsStatics_modVctr fun _ => by simp only [VctrVal.static]
  exact htake.bind fun r => (henter r).bind fun _ => keeps_pure

end QStore.Vctr
