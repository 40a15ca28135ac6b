import RealMode.Decode.Opcode

namespace RealMode

open Text

/-!
# Decoding one instruction

* `DecodeError` — why bytes are no instruction;
* `PrefixByte`, `Prefixes` — the bytes in front of an opcode and what they add up to;
* `Operation.read` — the operation behind an opcode byte, by the opcode table;
* `decode` — the instruction at the front of a list of bytes.

An override or repetition given twice counts in its last form. A repetition is kept only on
string operations, and an instruction has at most 255 bytes.
-/

/-- Why bytes are no instruction. -/
inductive DecodeError where
  /-- The bytes run out. -/
  | truncated
  | invalidOpcode (op : UInt8)
  /-- An operand or address size that the machine does not have. -/
  | wideSize
deriving DecidableEq, Repr

/-- What is said about bytes that are no instruction. -/
def DecodeError.message : DecodeError → String
  | .truncated => "instruction runs past the end of the image"
  | .invalidOpcode op => "invalid opcode " ++ Hex.byte.render op.toNat
  | .wideSize => "32-bit operand or address size prefix"

/-! ### Bytes in front of an opcode -/

/-- What a byte in front of an opcode asks for. -/
inductive PrefixByte where
  | segment (s : SegmentRegister)
  | repetition (r : Repetition)
  | lock
  | wide
deriving DecidableEq, Repr

/-- The meaning of a byte that stands in front of an opcode. -/
def PrefixByte.ofByte? (b : UInt8) : Option PrefixByte :=
  match b with
  | 0x26 => some (.segment .es)
  | 0x2E => some (.segment .cs)
  | 0x36 => some (.segment .ss)
  | 0x3E => some (.segment .ds)
  | 0x64 => some (.segment .fs)
  | 0x65 => some (.segment .gs)
  | 0x66 | 0x67 => some .wide
  | 0xF0 => some .lock
  | 0xF2 => some (.repetition .repne)
  | 0xF3 => some (.repetition .rep)
  | _ => none

/-- What the bytes in front of an opcode add up to. -/
structure Prefixes where
  segment : Option SegmentRegister := none
  repetition : Option Repetition := none
  /-- The number of bytes. -/
  count : Nat := 0
deriving DecidableEq, Repr

namespace Prefixes

/-- One byte more, which may ask for something the machine does not have. -/
def push (p : Prefixes) : PrefixByte → Except DecodeError Prefixes
  | .segment s => .ok { p with segment := some s, count := p.count + 1 }
  | .repetition r => .ok { p with repetition := some r, count := p.count + 1 }
  | .lock => .ok { p with count := p.count + 1 }
  | .wide => .error .wideSize

/-- Reads up to the opcode: gives what stood in front of it, the opcode, and the rest. -/
def scan (p : Prefixes) : List UInt8 → Except DecodeError (Prefixes × UInt8 × List UInt8)
  | [] => .error .truncated
  | b :: bs =>
    match PrefixByte.ofByte? b with
    | none => .ok (p, b, bs)
    | some f =>
      match p.push f with
      | .ok p => p.scan bs
      | .error e => .error e

end Prefixes

/-! ### Operations -/

/-- An operation as it is encoded, with the number of bytes behind its opcode. -/
structure Operation where
  mnemonic : Mnemonic
  width : Width
  operands : List Operand
  length : Nat
deriving DecidableEq, Repr

/-- Reads the operands of an encoding behind `before` bytes. -/
def Encoding.operation (e : Encoding) (before : Nat) (bs : List UInt8) :
    Except DecodeError Operation :=
  match e.read.run bs with
  | some (operands, n) => .ok ⟨e.mnemonic, e.width, operands, before + n⟩
  | none => .error .truncated

/-- The operation with opcode `op`, whose other bytes are at the front of `bs`. -/
def Operation.read (op : UInt8) (bs : List UInt8) : Except DecodeError Operation :=
  match opcodeEntry op with
  | .invalid => .error (.invalidOpcode op)
  | .plain e => e.operation 0 bs
  | .modrm select =>
    match bs with
    | [] => .error .truncated
    | b :: bs =>
      match select (ModRM.ofByte b) with
      | none => .error (.invalidOpcode op)
      | some e => e.operation 1 bs

/-! ### Instructions -/

/-- Puts an operation behind its prefixes, unless it gets too long. -/
def Prefixes.instruction (p : Prefixes) (op : UInt8) (o : Operation) (a : Address) :
    Except DecodeError Instruction :=
  let length := p.count + 1 + o.length
  if length < 256 then
    .ok {
      address := a
      mnemonic := o.mnemonic
      operands := o.operands.map (Operand.withSegment p.segment)
      width := o.width
      repetition := if o.mnemonic.isString then p.repetition else none
      segmentOverride := p.segment
      length := UInt8.ofNat length }
  else .error (.invalidOpcode op)

/-- The instruction at the front of `bs`, seen at the address `a`. -/
def decode (bs : List UInt8) (a : Address) : Except DecodeError Instruction := do
  let (p, op, rest) ← Prefixes.scan {} bs
  let o ← Operation.read op rest
  p.instruction op o a

end RealMode
