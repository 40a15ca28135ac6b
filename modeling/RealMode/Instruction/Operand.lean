import RealMode.Machine.Address
import RealMode.Machine.Local

namespace RealMode

open Text

/-!
# Operands

* `AddressMode` — the registers a memory operand is addressed through;
* `MemoryOperand` — a place in memory with its segment and width;
* `SwitchCase` — one entry of a recovered jump table;
* `Operand` — what an instruction works on, with `Operand.text` for its written form.
-/

/-! ### Addressing modes -/

/-- The base and index registers of a memory operand. -/
inductive AddressMode where
  | bxsi | bxdi | bpsi | bpdi
  | si | di | bp | bx
  /-- No register: the displacement alone. -/
  | direct
deriving DecidableEq, Repr

namespace AddressMode

/-- The mode with a three-bit code. -/
def ofCode : Fin 8 → AddressMode
  | 0 => bxsi
  | 1 => bxdi
  | 2 => bpsi
  | 3 => bpdi
  | 4 => si
  | 5 => di
  | 6 => bp
  | 7 => bx

/-- The registers that are added up. -/
def registers : AddressMode → List Register
  | bxsi => [.bx, .si]
  | bxdi => [.bx, .di]
  | bpsi => [.bp, .si]
  | bpdi => [.bp, .di]
  | si => [.si]
  | di => [.di]
  | bp => [.bp]
  | bx => [.bx]
  | direct => []

/-- The segment that is used without an override: the stack's for modes with `bp`. -/
def defaultSegment : AddressMode → SegmentRegister
  | bpsi | bpdi | bp => .ss
  | bxsi | bxdi | si | di | bx | direct => .ds

/-- The registers joined by plus signs. -/
def text (m : AddressMode) : String := "+".intercalate (m.registers.map Register.name)

def all : List AddressMode := [bxsi, bxdi, bpsi, bpdi, si, di, bp, bx, direct]

/-- The locals that forming the address reads. -/
def locals (m : AddressMode) : LocalSet :=
  m.registers.foldl (fun s r => s ∪ r.locals) ∅

end AddressMode

/-! ### Memory operands -/

/-- A place in memory. -/
structure MemoryOperand where
  mode : AddressMode
  disp : UInt16
  /-- The segment in effect: an override if there is one, else the mode's own. -/
  segment : SegmentRegister
  width : Width
deriving DecidableEq, Repr

namespace MemoryOperand

/-- The segment that would be in effect without an override. -/
def defaultSegment (m : MemoryOperand) : SegmentRegister := m.mode.defaultSegment

/-- Whether the address is formed through `r`. -/
def uses (m : MemoryOperand) (r : Register) : Bool := m.mode.registers.contains r

/-- The place `delta` bytes further on, seen at another width. -/
def offset (m : MemoryOperand) (delta : UInt16) (width : Width) : MemoryOperand :=
  { m with disp := m.disp + delta, width }

/-- The displacement behind the registers of the mode, with its sign; nothing for zero. -/
def dispText (d : Int16) : String :=
  if d.toInt = 0 then ""
  else if d.toInt < 0 then "-" ++ Hex.plain.render d.toInt.natAbs
  else "+" ++ Hex.plain.render d.toInt.natAbs

/-- What stands between the brackets. A bare displacement is an offset and has no sign. -/
def placeText (m : MemoryOperand) : String :=
  if m.mode = .direct then Hex.plain.render m.disp.toNat
  else m.mode.text ++ dispText m.disp.toInt16

/-- The written form: width, segment if it is not the default one, and place. -/
def text (m : MemoryOperand) : String :=
  m.width.name ++ " " ++
    (if m.segment = m.defaultSegment then "" else m.segment.name ++ ":") ++
    "[" ++ m.placeText ++ "]"

end MemoryOperand

/-! ### Operands -/

/-- One entry of a recovered jump table. -/
structure SwitchCase where
  /-- The index value that selects the entry. -/
  value : UInt16
  /-- Where it leads, counted from the end of the switch. -/
  disp : Int16
deriving DecidableEq, Repr

/-- An operand of an instruction. -/
inductive Operand where
  | immediate (value : UInt16) (width : Width)
  | register (r : Register)
  | segment (s : SegmentRegister)
  | condition (c : Condition)
  | memory (m : MemoryOperand)
  /-- A displacement from the following instruction. -/
  | relative (disp : Int16)
  | far (target : Address)
  | case (c : SwitchCase)
deriving DecidableEq, Repr

namespace Operand

/-- A byte as an immediate operand. -/
def imm8 (value : UInt8) : Operand := .immediate value.toUInt16 .byte

/-- A word as an immediate operand. -/
def imm16 (value : UInt16) : Operand := .immediate value .word

def register? : Operand → Option Register
  | .register r => some r
  | _ => none

def segment? : Operand → Option SegmentRegister
  | .segment s => some s
  | _ => none

def memory? : Operand → Option MemoryOperand
  | .memory m => some m
  | _ => none

def immediate? : Operand → Option UInt16
  | .immediate value _ => some value
  | _ => none

def condition? : Operand → Option Condition
  | .condition c => some c
  | _ => none

def case? : Operand → Option SwitchCase
  | .case c => some c
  | _ => none

/-- The written form of an operand on its own, where displacements are counted from `$`. -/
def text : Operand → String
  | .immediate value _ => Hex.plain.render value.toNat
  | .register r => r.name
  | .segment s => s.name
  | .condition c => c.name
  | .memory m => m.text
  | .relative d => "$+" ++ toString d.toInt
  | .far target => target.text
  | .case c => toString c.value.toNat ++ ": $+" ++ toString c.disp.toInt

end Operand

end RealMode
