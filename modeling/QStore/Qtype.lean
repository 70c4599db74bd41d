/-!
# QStore.Qtype

The element types of a vector (`inc/qtype_enums.h`), and how many bytes the
elements of each have in memory (`qtypes.c`).
-/

namespace QStore

/-- `qtype_t` -/
inductive Qtype where
  | Q0
  | B1 | BL
  | I1 | I2 | I4 | I8 | I16
  | F2 | F4 | F8
  | UI1 | UI2 | UI4 | UI8 | UI16
  | SC | SV | TM | TM1
  | HL
  deriving DecidableEq, Repr

/-- `get_width_c_qtype`. A bit has no width, nor do strings, whose width the
caller has to give. -/
def getWidthCQtype : Qtype → Nat
  | .B1 => 0
  | .BL => 1
  | .I1 => 1
  | .I2 => 2
  | .I4 => 4
  | .I8 => 8
  | .I16 => 16
  | .UI1 => 1
  | .UI2 => 2
  | .UI4 => 4
  | .UI8 => 8
  | .UI16 => 16
  | .F2 => 2
  | .F4 => 4
  | .F8 => 8
  | .TM1 => 8
  | .TM => 56
  | _ => 0

/-- `get_c_qtype`. The types that no text names are `Q0`. -/
def getCQtype (strQtype : String) : Qtype :=
  match strQtype with
  | "B1" => .B1
  | "BL" => .BL
  | "I1" => .I1
  | "I2" => .I2
  | "I4" => .I4
  | "I8" => .I8
  | "I16" => .I16
  | "UI1" => .UI1
  | "UI2" => .UI2
  | "UI4" => .UI4
  | "UI8" => .UI8
  | "UI16" => .UI16
  | "F2" => .F2
  | "F4" => .F4
  | "F8" => .F8
  | "SC" => .SC
  | "TM" => .TM
  | s => if s.startsWith "SC:" then .SC else if s.startsWith "TM1" then .TM1 else .Q0

/-- The types in the order of the enumeration. -/
def Qtype.all : List Qtype :=
  [.Q0, .B1, .BL, .I1, .I2, .I4, .I8, .I16, .F2, .F4, .F8, .UI1, .UI2, .UI4, .UI8, .UI16, .SC,
    .SV, .TM, .TM1, .HL]

/-- The number of a type. -/
def Qtype.num (q : Qtype) : Nat := Qtype.all.idxOf q

/-- The type a number stands for, unless it is that of `Q0` or of none. -/
def Qtype.ofNum (i : Int) : Option Qtype := if i ≤ 0 then none else Qtype.all[i.toNat]?

end QStore
