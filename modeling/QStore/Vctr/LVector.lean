import QStore.Vctr.Put
import QStore.Vctr.Read
import QStore.Vctr.Setters

/-!
# QStore.Vctr.LVector

Lazy evaluation of vectors, in Lua (`lVector.lua`) over the C runtime.

A vector may have a generator. Asked for the chunk after its last one,
`get_chunk` calls the generator, puts what it yields, and asks the siblings of
the vector for the same chunk; all other chunks come from the runtime. What Lua
keeps of a vector is told by the id the runtime has for it. A failed `assert` is
`raised`, and leaves what was done before it.
-/

namespace QStore.Vctr

/-- What a generator yields and `get_chunk` hands out. -/
structure Chunk where
  num : Nat
  buf : Option Cmem
  nnBuf : Option Cmem

/-- What Lua keeps of a vector: whether it has a `_generator`, its `_siblings`, and
(a note of this development) the chunks the generator was called for. -/
structure LuaVec where
  hasGen : Bool
  siblings : List Nat
  called : List Nat
  deriving DecidableEq, Repr

/-- The state of the C runtime, and that of Lua. -/
structure LSt where
  c : St
  lua : Nat → LuaVec

/-- How Lua code fails. `fuel` is the end of the depth allowed to a recursion. -/
inductive LErr
  | raised
  | ub
  | fuel
  deriving DecidableEq, Repr

abbrev L := EStateM LErr LSt

def LSt.setC (s : LSt) (c : St) : LSt := { s with c := c }

def LSt.setLua (s : LSt) (u : Nat) (o : LuaVec) : LSt :=
  { s with lua := Function.update s.lua u o }

/-- `assert(c)` -/
def luaAssert (c : Prop) [Decidable c] : L Unit := if c then pure () else throw .raised

/-- `if ( c ) then m end` -/
def luaIf (c : Prop) [Decidable c] (m : L Unit) : L Unit := if c then m else pure ()

/-- A call into C. One that fails returns `nil`. -/
def attempt {α : Type} (m : M α) : L (Option α) := fun s =>
  match m s.c with
  | .ok a t => .ok (some a) (s.setC t)
  | .error (.bye _) t => .ok none (s.setC t)
  | .error .ub t => .error .ub (s.setC t)

/-- What is not `nil`: an argument that C asks for, or an asserted value. -/
def present {α : Type} : Option α → L α
  | some a => pure a
  | none => throw .raised

/-- `assert` of a call into C. -/
def must {α : Type} (m : M α) : L α := do present (← attempt m)

/-- A number of Lua assigned to an integer of C that goes up to `2 ^ bits`. -/
def castTo (bits x : Nat) : L Nat := if x < 2 ^ bits then pure x else throw .ub

/-! ## what a vector says of itself -/

/-- `vctr_get_set` of a flag. -/
def getFlag (u : Nat) (what : Meta) : M (Option Bool) := do
  let g ← vctrGetSet u (some what) (some .get) ⟨some false, none, none, none⟩
  pure g.bl

/-- `vctr_get_set` of a number. -/
def getNumber (u : Nat) (what : Meta) : M (Option Int) := do
  let g ← vctrGetSet u (some what) (some .get) ⟨none, some 0, none, none⟩
  pure g.i8

/-- `vctr_num_elements` -/
def vctrNumElements (u : Nat) : M Nat := do pure (← getVctr u).numElements

/-- `vctr_get_nn_vec` -/
def vctrGetNnVec (u : Nat) : M (Bool × Nat) := do
  byeIf (u = 0)
  let v ← getVctr u
  pure (v.hasNn, v.nnKey)

/-- `cVector.get_nn_vec` -/
def cvecGetNnVec (u : Nat) : M Nat := do
  let r ← vctrGetNnVec u
  byeIf (r.1 = false)
  pure r.2

/-- `lVector:is_eov`. What is pushed when the status is bad was never set. -/
def isEov (u : Nat) : L Bool := do
  match ← attempt (getFlag u .eov) with
  | some (some b) => pure b
  | _ => throw .ub

/-- `lVector:has_nn_vec` -/
def hasNnVec (u : Nat) : L Bool := do pure ((← attempt (getFlag u .hasNn)) = some (some true))

/-- `lVector:is_nn_vec` -/
def isNnVec (u : Nat) : L Bool := do pure ((← attempt (getFlag u .isNn)) = some (some true))

/-- `cVector.get_nn_vec`, of which every use asks that there is one. -/
def getNnVec (u : Nat) : L Nat := must (cvecGetNnVec u)

/-- `lVector:max_chnk_idx` -/
def maxChnkIdx (u : Nat) : L Nat := do
  let n ← present (← must (getNumber u .maxChnkIdx))
  pure n.toNat

/-- `lVector:num_elements` -/
def numElements (u : Nat) : L Nat := must (vctrNumElements u)

/-- `lVector:max_num_in_chunk` -/
def maxNumInChunk (u : Nat) : L Nat := do
  let n ← present (← must (getNumber u .maxNumInChunk))
  luaAssert (n > 0)
  pure n.toNat

/-- `v:qtype()`, as the number of the type. -/
def qtypeOf (u : Nat) : L Int := do present (← must (getNumber u .qtype))

/-- `f` of the null vector, if there is one. -/
def ofNnVec (u : Nat) (f : Nat → L Unit) : L Unit := do
  if ← hasNnVec u then do
    let w ← getNnVec u
    f w
  else pure ()

/-- What Lua keeps of a vector. -/
def getLua (u : Nat) : L LuaVec := do pure ((← get).lua u)

def modLua (u : Nat) (g : LuaVec → LuaVec) : L Unit := modify fun s => s.setLua u (g (s.lua u))

/-! ## putting and the end -/

/-- `cVector.put_chunk` -/
def cvecPutChunk (u : Nat) (cmem : Cmem) (n : Nat) : L Cmem := do
  let n ← castTo 32 n
  must (vctrPutChunk u cmem n)

/-- `lVector:put_chunk`, with the two blocks as it leaves them. Without a null
vector the second one is deleted. -/
def putChunk (u : Nat) (chnk : Cmem) (n : Nat) (nnChnk : Option Cmem) :
    L (Cmem × Option Cmem) := do
  luaAssert ((← isEov u) = false)
  luaAssert ((← isNnVec u) = false)
  luaAssert (n > 0)
  if ← hasNnVec u then do
    let w ← getNnVec u
    luaAssert ((← qtypeOf w) = Qtype.BL.num)
    let chnk ← cvecPutChunk u chnk n
    let nnChnk ← cvecPutChunk w (← present nnChnk) n
    pure (chnk, some nnChnk)
  else do
    let chnk ← cvecPutChunk u chnk n
    pure (chnk, none)

/-- `lVector:eov` -/
def eov (u : Nat) : L Unit := do
  luaAssert ((← isNnVec u) = false)
  must (vctrEov u)
  modLua u fun o => { o with hasGen := false }
  ofNnVec u fun w => must (vctrEov w)

/-! ## reading -/

/-- `lVector:get1`, less the Scalar of the null vector. -/
def get1 (u i : Nat) : L (Option (List UInt8)) := do
  let i ← castTo 63 i
  let sclr ← attempt (vctrGet1 u i)
  if (← hasNnVec u) ∧ sclr.isSome then do
    let w ← getNnVec u
    let _ ← must (vctrGet1 w i)
    luaAssert ((← qtypeOf w) = Qtype.BL.num)
    pure sclr
  else pure sclr

/-- `cVector.unget_chunk` -/
def cvecUngetChunk (u i : Nat) : L Unit := do
  let i ← castTo 31 i
  must (vctrUngetChunk u i)

/-- `lVector:unget_chunk` -/
def ungetChunk (u i : Nat) : L Unit := do
  cvecUngetChunk u i
  ofNnVec u fun w => cvecUngetChunk w i

/-- The `CMEM` that `cVector.get_chunk` fills in. -/
def GotChunk.cmem (g : GotChunk) : Cmem := ⟨some ⟨g.addr, g.bytes⟩, g.size, false, true⟩

/-- `cVector.get_chunk` -/
def cvecGetChunk (u i : Nat) : L (Option GotChunk) := do
  let i ← castTo 32 i
  attempt (vctrGetChunk u i)

/-- The branch of `get_chunk` for a chunk that the runtime has. On a chunk of
29316 elements of a vector with nulls it trips over a name that stands for
nothing. -/
def archivalChunk (u i : Nat) : L Chunk := do
  match ← cvecGetChunk u i with
  | none => pure ⟨0, none, none⟩
  | some g =>
    if ← hasNnVec u then do
      let w ← getNnVec u
      luaAssert (g.num ≠ 29316)
      let h ← present (← cvecGetChunk w i)
      luaAssert (h.num = g.num)
      pure ⟨g.num, some g.cmem, some h.cmem⟩
    else pure ⟨g.num, some g.cmem, none⟩

/-! ## generating -/

/-- Whether `get_chunk` turns to the generator. -/
def toGenerate (u i : Nat) : L Bool := do
  let maxChnkIdx ← maxChnkIdx u
  let numElements ← numElements u
  if ← isEov u then pure false
  else do
    let yes := numElements = 0 ∨ i = maxChnkIdx + 1
    let isNn ← isNnVec u
    luaAssert (yes → isNn = false)
    luaAssert (i ≤ maxChnkIdx + 1)
    pure yes

/-- Put what the generator yielded, if it yielded anything. -/
def putGenerated (u : Nat) (r : Chunk) : L Chunk :=
  if r.num > 0 then do
    let b ← putChunk u (← present r.buf) r.num r.nnBuf
    pure ⟨r.num, some b.1, b.2⟩
  else pure r

/-- Call the generator, put what it yields, and stop at a chunk that is not full. -/
def generate (gen : Nat → Nat → Chunk) (u i : Nat) : L Chunk := do
  modLua u fun o => { o with called := o.called ++ [i] }
  let r ← putGenerated u (gen u i)
  luaIf (r.num < (← maxNumInChunk u)) (eov u)
  pure r

/-- Ask sibling `v` of `u` for a chunk, of which `u` has `num` elements, and give it
back. -/
def siblingChunk (getChunk : Nat → Nat → L Chunk) (u i num v : Nat) : L Unit := do
  let r ← getChunk v i
  luaAssert (r.num = num)
  luaIf (r.num < (← maxNumInChunk u)) (eov v)
  ungetChunk v i

/-- `cVector.chnk_incr_num_readers` -/
def cvecIncrNumReaders (u i : Nat) : L Unit := do
  let i ← castTo 32 i
  must (chnkIncrNumReaders u i)

/-- Count a reader of a chunk that was generated. -/
def incrReaders (u i : Nat) : L Unit := do
  cvecIncrNumReaders u i
  ofNnVec u fun w => cvecIncrNumReaders w i

/-- `lVector:get_chunk`, with a bound on the depth of its recursion. -/
def getChunk (gen : Nat → Nat → Chunk) : Nat → Nat → Nat → L Chunk
  | 0, _, _ => throw .fuel
  | depth + 1, u, i => do
    if ← toGenerate u i then do
      let o ← getLua u
      if o.hasGen = false then pure ⟨0, none, none⟩
      else do
        let r ← generate gen u i
        if r.num = 0 then pure ⟨0, none, none⟩
        else do
          forEach (siblingChunk (getChunk gen depth) u i r.num) (← getLua u).siblings
          incrReaders u i
          pure r
    else archivalChunk u i

/-- The loop of `eval`, with a bound on its rounds. -/
def evalLoop (gen : Nat → Nat → Chunk) (depth u maxNumInChunk : Nat) : Nat → L Unit
  | 0 => throw .fuel
  | rounds + 1 => do
    let maxChnkIdx ← maxChnkIdx u
    let chunkToGet := if (← numElements u) = 0 then 0 else maxChnkIdx + 1
    let r ← getChunk gen depth u chunkToGet
    luaIf (r.num ≠ 0) (ungetChunk u chunkToGet)
    luaIf (r.num = maxNumInChunk) (evalLoop gen depth u maxNumInChunk rounds)

/-- `lVector:eval` -/
def eval (gen : Nat → Nat → Chunk) (depth rounds u : Nat) : L Unit := do
  if ← isEov u then pure ()
  else do
    let maxNumInChunk ← maxNumInChunk u
    evalLoop gen depth u maxNumInChunk rounds
    luaAssert ((← isEov u) = true)

/-! ## siblings -/

/-- `add_sibling` -/
def addSibling (v1 v2 : Nat) : L Unit := do
  luaAssert ((← numElements v1) = 0)
  luaAssert ((← numElements v2) = 0)
  luaAssert (v2 ∉ (← getLua v1).siblings)
  modLua v1 fun o => { o with siblings := o.siblings ++ [v2] }

/-- `lVector.conjoin` -/
def conjoin (T : List Nat) : L Unit := do
  luaAssert (T.length > 1)
  forEach (fun p1 => do
    luaAssert ((← numElements p1.1) = 0)
    forEach (fun p2 => luaIf (p1.2 ≠ p2.2) do
      luaAssert ((← maxNumInChunk p1.1) = (← maxNumInChunk p2.1))
      addSibling p1.1 p2.1) T.zipIdx) T.zipIdx

end QStore.Vctr
