import QStore.Vctr.State

/-!
# QStore.Vctr.Chnk

The functions that act on one chunk: getting its data into memory, making and
dropping a tier, freeing it, opening the first and the next chunk of a vector,
and `vctr_memo`, which deletes the chunks that fall out of a memo window.
-/

namespace QStore.Vctr

/-- `chnk_get_data`: counts a reader, and brings the chunk into memory if only
its file is left. A failure is a null pointer, silent or not. -/
def chnkGetData (u i : Nat) (isWrite : Bool) : M (Option Buf) := do
  if isWrite then pure none
  else do
    let c ← getChnk u i
    if c.numWriters > 0 then pure none
    else do
      setChnk u i { c with numReaders := c.numReaders + 1 }
      match c.l1Mem with
      | some b => pure (some b)
      | none =>
        if c.l2Exists = false then pure none
        else match l2FileName u i with
          | none => pure none
          | some f =>
            match (← get).fs.read f with
            | none => pure none
            | some x =>
              if x.length ≠ c.size then pure none
              else do
                let b ← memalign c.size
                setChnk u i { c with numReaders := c.numReaders + 1, l1Mem := some { b with bytes := x } }
                ignoreStatus (incrMem c.size)
                pure (some { b with bytes := x })

/-- `chnk_unget_data`: releases the memory of a chunk, after a flush if it has no
file yet. -/
def chnkUngetData (u i : Nat) : M Unit := do
  let c ← getChnk u i
  match c.l1Mem with
  | none => pure ()
  | some b => do
    let f ← l2Name u i
    let exists' ← isfile f
    byeIf (exists' ≠ c.l2Exists)
    onlyIf (c.l2Exists = false) do
      let x ← takeN b.bytes c.size
      writeFile f x
      ignoreStatus (incrDsk c.size)
    setChnk u i { c with l2Exists := true, l1Mem := none }
    ignoreStatus (decrMemUsed c.size)

/-- `chnk_make_mem`. Level 2 writes from `l1_mem` without looking at it. -/
def chnkMakeMem (u i level : Nat) : M Unit := do
  let c ← getChnk u i
  let f ← l2Name u i
  if level = 1 then
    match c.l1Mem with
    | some _ => pure ()
    | none => do
      let x ← mmapBytes f
      byeIf (x.length ≠ c.size)
      let b ← memalign c.size
      setChnk u i { c with l1Mem := some { b with bytes := x } }
      ignoreStatus (incrMem c.size)
  else if level = 2 then
    if c.l2Exists then pure ()
    else match c.l1Mem with
      | none => ub
      | some b => do
        let x ← takeN b.bytes c.size
        writeFile f x
        byeIf (c.size = 0)
        incrDsk c.size
        setChnk u i { c with l2Exists := true }
  else goBYE

/-- `chnk_drop_mem`. A tier goes only if the flags show another one. -/
def chnkDropMem (u i level : Nat) : M Unit := do
  let v ← getVctr u
  let c ← getChnk u i
  if level = 1 then
    if c.l1Mem = none then pure ()
    else if c.l2Exists = false ∧ v.isLma = false then pure ()
    else do
      setChnk u i { c with l1Mem := none }
      decrMemUsed c.size
  else if level = 2 then
    if c.l2Exists = false then pure ()
    else do
      let f ← l2Name u i
      if c.l1Mem = none ∧ v.isLma = false then pure ()
      else do
        unlinkFile f
        decrDskUsed c.size
        setChnk u i { c with l2Exists := false }
  else goBYE

/-- `chnk_is_mem` -/
def chnkIsMem (u i : Nat) : M Bool := do
  let _ ← getVctr u
  let c ← getChnk u i
  pure (c.l1Mem.isSome || c.l2Exists)

/-- `chnk_l1_to_l2`: a file of that name, whatever it holds, is a backup. -/
def chnkL1ToL2 (u i : Nat) : M Unit := do
  let c ← getChnk u i
  let f ← l2Name u i
  if (← isfile f) then pure ()
  else match c.l1Mem with
    | none => goBYE
    | some b => do
      let x ← takeN b.bytes c.size
      writeFile f x
      byeIf (c.size = 0)
      incrDsk c.size
      setChnk u i { c with l2Exists := true }

/-- `chnk_free_resources` -/
def chnkFreeResources (u i : Nat) (isPersist : Bool) : M Unit := do
  let c ← getChnk u i
  byeIf (c.numReaders > 0)
  byeIf (c.numWriters > 0)
  onlyIf (c.l1Mem ≠ none) do
    decrMemUsed c.size
    setChnk u i { c with l1Mem := none }
  onlyIf (isPersist = false ∧ c.l2Exists) do
    let f ← l2Name u i
    unlinkFile f
    decrDskUsed c.size
    modChnk u i fun c => { c with l2Exists := false }

/-- `chnk_del` -/
def chnkDel (u i : Nat) (isPersist : Bool) : M Unit := do
  let s ← get
  if s.vctrs u = none then throw (.bye (-2))
  else if s.chnks (u, i) = none then throw (.bye (-3))
  else do
    chnkFreeResources u i isPersist
    modify (·.delChnk u i)

/-- The deletions of `vctr_memo`, each with the status of the last. -/
def memoLoop (u : Nat) (isPersist : Bool) : Nat → Nat → Int → M Int
  | _, 0, status => pure status
  | i, n + 1, _ => do
    let status ← statusOf (chnkDel u i isPersist)
    memoLoop u isPersist (i + 1) n status

/-- `vctr_memo`: the window moves on whether or not the deletions succeed. -/
def vctrMemo (u : Nat) : M Unit := do
  let v ← getVctr u
  if v.memoLen = 0 then pure ()
  else if v.isEov then pure ()
  else
    let nC := u32 (v.maxChnkIdx + 1 + 2 ^ 32 - v.minChnkIdx)
    if nC > v.memoLen then do
      let newMin := u32 (v.maxChnkIdx + 1 + 2 ^ 32 - v.memoLen)
      let status ← memoLoop u v.isPersist v.minChnkIdx (newMin - v.minChnkIdx) 0
      modVctr u fun v => { v with minChnkIdx := newMin }
      if status < 0 then throw (.bye status)
    else pure ()

/-- A chunk as it is opened: empty, with memory only. -/
def freshChnk (v : VctrVal) (chnkSize : Nat) (b : Buf) : ChnkVal where
  numReaders := 0
  numWriters := 0
  numElements := 0
  qtype := v.qtype
  l2Exists := false
  numFreeIgnore := if v.isEarlyFreeable then v.numFreeIgnore else 0
  size := chnkSize
  l1Mem := some b

/-- `width * max_num_in_chnk`, a product of two `uint32_t`. -/
def VctrVal.chnkSize (v : VctrVal) : Nat := u32 (v.width * v.maxNumInChnk)

/-- `chnk_first` -/
def chnkFirst (u : Nat) : M Unit := do
  let v ← getVctr u
  if v.numElements ≠ 0 then pure ()
  else do
    let b ← memalign v.chnkSize
    incrMem v.chnkSize
    setChnk u 0 (freshChnk v v.chnkSize b)

/-- The middle of `vctr_put1` and `vctr_putn`: the index of a chunk with room, the
next one if the last is full. -/
def chnkToPut (u : Nat) (v : VctrVal) : M Nat := do
  let c ← getChnk u v.maxChnkIdx
  byeIf (c.l1Mem = none)
  if c.numElements = v.maxNumInChnk then do
    let b ← memalign v.chnkSize
    ignoreStatus (incrMem v.chnkSize)
    setChnk u (u32 (v.maxChnkIdx + 1)) (freshChnk v v.chnkSize b)
    modVctr u fun w => { w with maxChnkIdx := u32 (v.maxChnkIdx + 1) }
    pure (u32 (v.maxChnkIdx + 1))
  else pure v.maxChnkIdx

/-- `chnk_incr_num_readers` -/
def chnkIncrNumReaders (u i : Nat) : M Unit := do
  let _ ← getVctr u
  modChnk u i fun c => { c with numReaders := c.numReaders + 1 }

end QStore.Vctr
