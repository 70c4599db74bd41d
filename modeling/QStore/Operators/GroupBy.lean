import QStore.Lib.ByKey
import QStore.Operators.LVector
import QStore.Qtype

/-!
# QStore.Operators.GroupBy

`Q.sumby` and `Q.minby` (`OPERATORS/GROUPBY`): values aggregated by group.  One template makes
the kernels of both.  The specializer gives it, as text, the statement that takes in a row
(`operating_code`) and the one that merges what the threads have (`merging_code`); the
expander compiles the result and calls it on one chunk after the other, with the same two
buffers.
-/

namespace QStore.Operators

/-! ## The code of an operator -/

/-- What the statements read and write: `out_val_fld[g]`, `val_fld[i]` and `vals[t][g]`. -/
inductive Loc where
  | outVal | val | vals
  deriving DecidableEq

/-- The text of a statement. An assignment and the head of an `if` are one token each. -/
inductive Tok where
  | set (dst src : Loc)
  | add (dst src : Loc)
  | ifLt (a b : Loc)
  | semi | lbrace | rbrace
  deriving DecidableEq

inductive Stmt where
  | skip
  | set (dst src : Loc)
  | add (dst src : Loc)
  | ifLt (a b : Loc) (s : Stmt)
  | seq (s t : Stmt)

/- The grammar of C for these: an expression becomes a statement with a semicolon behind it. -/
mutual

def parseStmt : Nat → List Tok → Option (Stmt × List Tok)
  | _ + 1, .set d s :: .semi :: ts => some (.set d s, ts)
  | _ + 1, .add d s :: .semi :: ts => some (.add d s, ts)
  | _ + 1, .semi :: ts => some (.skip, ts)
  | n + 1, .ifLt a b :: ts => (parseStmt n ts).map fun p => (.ifLt a b p.1, p.2)
  | n + 1, .lbrace :: ts => parseBlock n ts
  | _, _ => none

/-- Statements up to the brace that closes them. -/
def parseBlock : Nat → List Tok → Option (Stmt × List Tok)
  | _ + 1, .rbrace :: ts => some (.skip, ts)
  | n + 1, ts => (parseStmt n ts).bind fun p =>
      (parseBlock n p.2).map fun q => (.seq p.1 q.1, q.2)
  | _, _ => none

end

/-- The compiler on a text that the template puts at the end of a block. -/
def compileText (ts : List Tok) : Option Stmt :=
  match parseBlock 16 (ts ++ [.rbrace]) with
  | some (s, []) => some s
  | _ => none

/-- The operators that `sumby_specialize` knows. -/
inductive ByOp where
  | sumby | minby
  deriving DecidableEq

/-- `subs.operating_code`. That of `minby` is
`"if ( val_fld[i] < out_val_fld[g]  ) { out_val_fld[g] = val_fld[i] };  "`. -/
def operatingCode : ByOp → List Tok
  | .sumby => [.add .outVal .val, .semi]
  | .minby => [.ifLt .val .outVal, .lbrace, .set .outVal .val, .rbrace, .semi]

/-- `subs.merging_code` -/
def mergingCode : ByOp → List Tok
  | .sumby => [.add .outVal .vals, .semi]
  | .minby => [.ifLt .vals .outVal, .lbrace, .set .outVal .vals, .semi, .rbrace]

/-- A kernel's two statements. -/
structure Code where
  operating : Stmt
  merging : Stmt

/-- `q_add`: what the compiler makes of the template with the texts of an operator. -/
def compileOp (op : ByOp) : Option Code := do
  let operating ← compileText (operatingCode op)
  let merging ← compileText (mergingCode op)
  return { operating, merging }

/-! ## Values -/

/-- `out_val_ctype`, to which every value is converted: a sum that does not fit is undefined. -/
structure OutType (β : Type) where
  zero : β
  add : β → β → Option β
  lt : β → β → Bool
  add_zero : ∀ x, add x zero = some x

/-- `int64_t` -/
def int64 : OutType Int64 where
  zero := 0
  add x y :=
    if -2 ^ 63 ≤ x.toInt + y.toInt ∧ x.toInt + y.toInt < 2 ^ 63 then some (x + y) else none
  lt x y := decide (x < y)
  add_zero x := by
    have h1 : -9223372036854775808 ≤ x.toInt := x.le_toInt
    have h2 : x.toInt < 9223372036854775808 := x.toInt_lt
    simp [h1, h2]

variable {β : Type}

/-- What the places hold. -/
structure Regs (β : Type) where
  outVal : β
  val : β
  vals : β

def Regs.get (r : Regs β) : Loc → β
  | .outVal => r.outVal
  | .val => r.val
  | .vals => r.vals

def Regs.set (r : Regs β) (l : Loc) (x : β) : Regs β :=
  match l with
  | .outVal => { r with outVal := x }
  | .val => { r with val := x }
  | .vals => { r with vals := x }

def exec (T : OutType β) : Stmt → Regs β → Option (Regs β)
  | .skip, r => some r
  | .set d s, r => some (r.set d (r.get s))
  | .add d s, r => (T.add (r.get d) (r.get s)).map (r.set d)
  | .ifLt a b s, r => if T.lt (r.get a) (r.get b) then exec T s r else some r
  | .seq s t, r => (exec T s r).bind (exec T t)

/-! ## The kernel -/

/-- A row of the value, the group and the condition vector. -/
structure Row (β : Type) where
  val : β
  grp : Int
  cnd : Bool

/-- `out_val_fld[g]` and `out_cnt_fld[g]` -/
structure Cell (β : Type) where
  val : β
  cnt : Nat

/-- Both buffers. -/
abbrev Buf (β : Type) := Nat → Cell β

/-- How a call ends without a result: with an error, or in undefined behaviour. -/
inductive Fault where
  | bye | undefined
  deriving DecidableEq

/-- The arguments of a call, and the number of threads that `omp_get_num_threads` tells the
kernel. Outside of a parallel region, where it is asked, that is 1; with more threads the
kernel numbers the rows of a chunk by `int`. -/
structure GroupBy (β : Type) where
  op : ByOp
  T : OutType β
  rows : LVector (Row β)
  grpQtype : Qtype
  nb : Nat
  hasCnd : Bool
  isSafe : Bool
  nT2 : Nat
  rows_ne : rows.elems ≠ []
  nb_pos : 0 < nb
  nb_lt : nb < 2 ^ 32
  team : nT2 = 1 ∨ rows.maxNumInChunk < 2 ^ 31

variable {a : GroupBy β}

/-- `(int)nR_out` -/
def GroupBy.nROut (a : GroupBy β) : Int := if a.nb < 2 ^ 31 then a.nb else a.nb - 2 ^ 32

/-- `(int)nR_out` in a comparison with a group: unsigned types as wide as `int` convert it. -/
def GroupBy.bound (a : GroupBy β) : Int :=
  match a.grpQtype with
  | .UI4 => a.nROut % 2 ^ 32
  | .UI8 => a.nROut % 2 ^ 64
  | _ => a.nROut

/-- The condition of `checking_code`, `( g < 0 ) || ( g >= (int)nR_out )`. -/
def GroupBy.caught (a : GroupBy β) (g : Int) : Bool := g < 0 || a.bound ≤ g

/-- Whether a row is passed over. -/
def GroupBy.skips (a : GroupBy β) (r : Row β) : Bool := a.hasCnd && !r.cnd

/-- Whether there is an entry for the group of a row. -/
def GroupBy.inside (a : GroupBy β) (r : Row β) : Bool := 0 ≤ r.grp && r.grp < a.nb

def orUndefined {α : Type} : Option α → Except Fault α
  | some x => .ok x
  | none => .error .undefined

/-- `out_cnt_fld[g]++` and `operating_code`. -/
def GroupBy.takeIn (a : GroupBy β) (c : Code) (x : Cell β) (r : Row β) : Option (Cell β) :=
  (exec a.T c.operating { outVal := x.val, val := r.val, vals := a.T.zero }).map fun regs =>
    { val := regs.outVal, cnt := x.cnt + 1 }

/-- The body of the loop over the rows. -/
def GroupBy.rowStep (a : GroupBy β) (c : Code) (st : Buf β) (r : Row β) : Except Fault (Buf β) :=
  if a.skips r then .ok st
  else if a.isSafe && a.caught r.grp then .error .bye
  else if a.inside r then orUndefined (ByKey.stepAt (a.takeIn c) (·.grp.toNat) st r)
  else .error .undefined

/-- Buffers with other counts added. -/
def plus (k : Nat → Nat) (x : Buf β) : Buf β := fun g => { val := (x g).val, cnt := k g + (x g).cnt }

/-- The rows of thread `t`. -/
def blocks (nT blockSize : Nat) (chunk : List (Row β)) : List (List (Row β)) :=
  (List.range nT).map fun t =>
    let lb := t * blockSize
    let ub := if t = nT - 1 then chunk.length else lb + blockSize
    (chunk.drop lb).take (ub - lb)

/-- The loop over the threads, which run one after the other. Each counts for itself, but
`operating_code` is that of one thread: it works on `out_val_fld`, and `vals[t]` stays zero. -/
def GroupBy.threads (a : GroupBy β) (c : Code) :
    List (List (Row β)) → Buf β → List (Nat → Nat) → Except Fault (Buf β × List (Nat → Nat))
  | [], st, cnts => .ok (st, cnts)
  | b :: bs, st, cnts => do
      let x ← b.foldlM (a.rowStep c) fun g => { val := (st g).val, cnt := 0 }
      a.threads c bs (fun g => { val := (x g).val, cnt := (st g).cnt })
        (cnts ++ [fun g => (x g).cnt])

/-- One pass of the inner loop that merges: `out_cnt_fld[g] += cnts[t][g]` and
`merging_code`. -/
def GroupBy.mergeCell (a : GroupBy β) (c : Code) (cnts : Nat → Nat) (st : Buf β) (g : Nat) :
    Option (Buf β) :=
  (exec a.T c.merging { outVal := (st g).val, val := a.T.zero, vals := a.T.zero }).map fun regs =>
    Function.update st g { val := regs.outVal, cnt := (st g).cnt + cnts g }

def GroupBy.merge (a : GroupBy β) (c : Code) (cnts : List (Nat → Nat)) (st : Buf β) :
    Option (Buf β) :=
  cnts.foldlM (fun st k => (List.range a.nb).foldlM (a.mergeCell c k) st) st

/-- The kernel on a chunk. `16 * nR_out` is a `uint32_t`, and a division by zero is
undefined. -/
def GroupBy.kernel (a : GroupBy β) (c : Code) (chunk : List (Row β)) (st : Buf β) :
    Except Fault (Buf β) :=
  if chunk.length = 0 then .error .bye
  else if a.nb = 0 then .error .bye
  else if 16 * a.nb % 2 ^ 32 = 0 then .error .undefined
  else
    let nT1 := chunk.length / (16 * a.nb % 2 ^ 32)
    let nT := max 1 (min nT1 a.nT2)
    let blockSize := chunk.length / nT
    if nT = 1 then chunk.foldlM (a.rowStep c) st
    else do
      let p ← a.threads c (blocks nT blockSize chunk) st []
      orUndefined (a.merge c p.2 p.1)

/-! ## The expander -/

/-- The reducer: the generator is called for chunk `l`, `l + 1`, … until it returns `nil`. -/
def GroupBy.evalFrom (a : GroupBy β) (c : Code) : Nat → Nat → Buf β → Except Fault (Buf β)
  | 0, _, _ => .error .undefined
  | fuel + 1, l, st =>
      let chunk := a.rows.getChunk l
      if chunk.length = 0 then if l = 0 then .error .bye else .ok st
      else do
        let st ← a.kernel c chunk st
        if chunk.length < a.rows.maxNumInChunk then .ok st else a.evalFrom c fuel (l + 1) st

/-- `expander_sumby` and the evaluation of the reducer it returns. Buffers start as zeros. -/
def GroupBy.eval (a : GroupBy β) : Except Fault (Buf β) :=
  match compileOp a.op with
  | none => .error .bye
  | some c => a.evalFrom c (a.rows.elems.length + 1) 0 fun _ => { val := a.T.zero, cnt := 0 }

end QStore.Operators
