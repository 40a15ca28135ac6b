import RealMode.Instruction.Mnemonic
import RealMode.Instruction.Operand

namespace RealMode

/-!
# Instructions

* `Instruction` — an operation with its operands at a place in memory;
* `Instruction.next` — the address behind it;
* `Instruction.target?` — where a direct jump, call or conditional branch leads;
* `Instruction.caseTarget` — where an entry of a switch leads;
* `Instruction.withOperation`, `Instruction.neutralized` — the same bytes seen as another
  operation. Length and address stay, so displacements keep their meaning.

The linear address and the effect on the flags follow from the other fields and are not
stored: `Instruction.linear`, `Instruction.flags`.
-/

/-- An instruction. -/
structure Instruction where
  address : Address
  mnemonic : Mnemonic
  operands : List Operand := []
  width : Width := .word
  repetition : Option Repetition := none
  segmentOverride : Option SegmentRegister := none
  /-- The number of encoded bytes; zero for an instruction that is not in the image. -/
  length : UInt8
deriving DecidableEq, Repr

namespace Instruction

/-- The linear address of the first byte. -/
def linear (i : Instruction) : Nat := i.address.linear

/-- The effect on the flags. -/
def flags (i : Instruction) : FlagEffects := i.mnemonic.flags

/-- Whether the instruction stands for no bytes of the image. -/
def isSynthetic (i : Instruction) : Bool := i.length == 0

/-- The address behind the instruction, in the same segment. -/
def next (i : Instruction) : Address := i.address.advance i.length.toUInt16

/-- The linear address behind the instruction. -/
def nextLinear (i : Instruction) : Nat := i.next.linear

/-- The address `disp` bytes behind the end of the instruction. -/
def displaced (i : Instruction) (disp : Int16) : Address := i.next.advance disp.toUInt16

/-! ### Other operations on the same bytes -/

/-- The instruction with another operation, at the same place and of the same length. -/
def withOperation (i : Instruction) (mnemonic : Mnemonic) (operands : List Operand) :
    Instruction :=
  { i with mnemonic, operands }

/-- The same bytes without effect. -/
def neutralized (i : Instruction) : Instruction :=
  { i.withOperation .nop [] with repetition := none, segmentOverride := none }

/-! ### Control flow -/

/-- Whether the operation is a jump, a call or a conditional branch. -/
def isTransfer (i : Instruction) : Bool :=
  i.mnemonic.isJump || i.mnemonic.isCall || i.mnemonic.isConditionalBranch

/-- The place that an operand names as seen from the instruction. -/
def operandTarget? (i : Instruction) : Operand → Option Address
  | .relative d => some (i.displaced d)
  | .far a => some a
  | _ => none

/-- Where a direct jump, call or conditional branch leads. -/
def target? (i : Instruction) : Option Address :=
  if i.isTransfer then i.operands.findSome? i.operandTarget? else none

/-- The condition of a conditional branch. -/
def condition? (i : Instruction) : Option Condition := i.operands.findSome? Operand.condition?

/-- Whether the instruction jumps through a register or memory. -/
def isIndirectJump (i : Instruction) : Bool :=
  i.mnemonic.isJump && (i.operands.head? matches some (.register _) | some (.memory _))

/-- The vector of a software interrupt. -/
def vector? (i : Instruction) : Option UInt8 :=
  if i.mnemonic = .int then
    (i.operands.head?.bind Operand.immediate?).map UInt16.toUInt8
  else none

/-- The table entries of a switch. -/
def cases (i : Instruction) : List SwitchCase := i.operands.filterMap Operand.case?

/-- Where a table entry leads. -/
def caseTarget (i : Instruction) (c : SwitchCase) : Address := i.displaced c.disp

/-- The first memory operand. -/
def memoryOperand? (i : Instruction) : Option MemoryOperand :=
  i.operands.findSome? Operand.memory?

/-! ### Small facts -/

/-- Seen as another operation, an instruction is still at its place. -/
@[simp] theorem linear_withOperation (i : Instruction) (m : Mnemonic) (os : List Operand) :
    (i.withOperation m os).linear = i.linear := rfl

/-- Seen as another operation, an instruction ends where it did, so displacements mean the same. -/
@[simp] theorem next_withOperation (i : Instruction) (m : Mnemonic) (os : List Operand) :
    (i.withOperation m os).next = i.next := rfl

/-- An instruction that has no effect any more is still at its place. -/
@[simp] theorem linear_neutralized (i : Instruction) : i.neutralized.linear = i.linear := rfl

/-- An instruction that has no effect any more still leads to what was behind it. -/
@[simp] theorem next_neutralized (i : Instruction) : i.neutralized.next = i.next := rfl

end Instruction

end RealMode
