import RealMode.Decode.Reader
import RealMode.Instruction.Basic

namespace RealMode

/-!
# Encodings of operations

* `Source` — where an operand comes from: it is given by the bits already read, or it is
  read from the bytes that follow;
* `Encoding` — an operation, its width and the sources of its operands;
* `ModRM` — the byte that names a register and a register or memory operand;
* `Encoding.read` — reads the operands of an encoding, from left to right.

Memory operands are read with the segment of their addressing mode; an override is
applied to the finished operand (`Operand.withSegment`).
-/

/-! ### Sources of operands -/

/-- How the displacement of a memory operand is encoded. -/
inductive Displacement where
  | none
  | signedByte
  | word
deriving DecidableEq, Repr

/-- Where an operand comes from. -/
inductive Source where
  /-- From bits that are already read. -/
  | given (o : Operand)
  | imm8
  | imm16
  /-- A byte that is widened with its sign. -/
  | immSigned
  | rel8
  | rel16
  | far
  | memory (mode : AddressMode) (disp : Displacement) (width : Width)
deriving DecidableEq, Repr

namespace Displacement

/-- Reads a displacement. -/
def read : Displacement → Reader UInt16
  | .none => pure 0
  | .signedByte => do return (← Reader.signedByte).toUInt16
  | .word => Reader.word

end Displacement

namespace Source

/-- A register as a given operand. -/
def reg (r : Register) : Source := .given (.register r)

/-- The accumulator of a width. -/
def accumulator (w : Width) : Source := .reg (Register.accumulator w)

/-- An immediate operand of a width. -/
def imm : Width → Source
  | .byte => .imm8
  | .word | .dword => .imm16

/-- Reads an operand. -/
def read : Source → Reader Operand
  | .given o => pure o
  | .imm8 => do return .imm8 (← Reader.byte)
  | .imm16 => do return .imm16 (← Reader.word)
  | .immSigned => do return .imm16 (← Reader.signedByte).toUInt16
  | .rel8 => do return .relative (← Reader.signedByte)
  | .rel16 => do return .relative (← Reader.word).toInt16
  | .far => do
    let off ← Reader.word
    let seg ← Reader.word
    return .far ⟨seg, off⟩
  | .memory mode disp width => do
    return .memory ⟨mode, ← disp.read, mode.defaultSegment, width⟩

/-- Reads operands from left to right. -/
def readAll : List Source → Reader (List Operand)
  | [] => pure []
  | s :: ss => do
    let o ← s.read
    let os ← readAll ss
    return o :: os

end Source

/-- The operand under a segment override, which matters only for memory. -/
def Operand.withSegment (segment : Option SegmentRegister) : Operand → Operand
  | .memory m => .memory { m with segment := segment.getD m.segment }
  | o => o

/-! ### Encodings -/

/-- An operation with the sources of its operands. -/
structure Encoding where
  mnemonic : Mnemonic
  width : Width
  sources : List Source
deriving DecidableEq, Repr

namespace Encoding

/-- Reads the operands. -/
def read (e : Encoding) : Reader (List Operand) := Source.readAll e.sources

end Encoding

/-! ### The ModRM byte -/

/-- The low three bits of a byte. -/
def lowField (b : UInt8) : Fin 8 := Fin.ofNat 8 b.toNat

/-- The middle three bits of a byte. -/
def midField (b : UInt8) : Fin 8 := Fin.ofNat 8 (b.toNat / 8)

/-- The fields of a ModRM byte. -/
structure ModRM where
  mode : Fin 4
  reg : Fin 8
  rm : Fin 8
deriving DecidableEq, Repr

namespace ModRM

/-- Splits a byte into its fields. -/
def ofByte (b : UInt8) : ModRM := ⟨Fin.ofNat 4 (b.toNat / 64), midField b, lowField b⟩

/-- The register of the `reg` field. -/
def register (m : ModRM) (w : Width) : Source := .reg (Register.ofCode m.reg w)

/-- The memory operand, if the byte names one. Without a displacement, the place of `bp`
    is taken by a bare offset. -/
def memory? (m : ModRM) (w : Width) : Option Source :=
  match m.mode with
  | 0 =>
    if m.rm = 6 then some (.memory .direct .word w)
    else some (.memory (AddressMode.ofCode m.rm) .none w)
  | 1 => some (.memory (AddressMode.ofCode m.rm) .signedByte w)
  | 2 => some (.memory (AddressMode.ofCode m.rm) .word w)
  | 3 => none

/-- The register or memory operand. -/
def place (m : ModRM) (w : Width) : Source :=
  (m.memory? w).getD (.reg (Register.ofCode m.rm w))

/-- The memory operand, or the number of a coprocessor register. -/
def coprocessorPlace (m : ModRM) : Source :=
  (m.memory? .word).getD (.given (.imm8 (UInt8.ofNat m.rm.val)))

end ModRM

end RealMode
