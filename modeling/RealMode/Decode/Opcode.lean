import RealMode.Decode.Encoding

namespace RealMode

/-!
# The opcode table

* `OpcodeEntry` — what an opcode byte stands for: nothing, an encoding, or an encoding
  chosen by the ModRM byte that follows;
* `opcodeEntry` — the table, made of one function for each row of sixteen opcodes (or a
  few rows of one pattern).

A choice by the ModRM byte is complete before any further byte is read, so a byte that
selects nothing is refused even when the bytes run out behind it.
-/

/-- What an opcode stands for. -/
inductive OpcodeEntry where
  | invalid
  | plain (e : Encoding)
  | modrm (select : ModRM → Option Encoding)

/-! ### Patterns -/

/-- The operand width in the lowest bit of an opcode. -/
def operandWidth (op : UInt8) : Width := if op.toNat % 2 = 0 then .byte else .word

/-- The condition in the low four bits of an opcode. -/
def conditionField (op : UInt8) : Condition := Condition.ofCode (Fin.ofNat 16 op.toNat)

/-- The word register in the low three bits of an opcode. -/
def registerField (op : UInt8) : Source := .reg (Register.ofCode (lowField op) .word)

/-- The two-operand operations, by their three-bit code. -/
def arithmeticOf : Fin 8 → Mnemonic
  | 0 => .add
  | 1 => .or
  | 2 => .adc
  | 3 => .sbb
  | 4 => .and
  | 5 => .sub
  | 6 => .xor
  | 7 => .cmp

/-- The shifts and rotations, by their three-bit code; one code doubles the left shift. -/
def shiftOf : Fin 8 → Mnemonic
  | 0 => .rol
  | 1 => .ror
  | 2 => .rcl
  | 3 => .rcr
  | 4 => .shl
  | 5 => .shr
  | 6 => .shl
  | 7 => .sar

namespace OpcodeEntry

/-- An operation without written operands. -/
def bare (m : Mnemonic) (w : Width) : OpcodeEntry := .plain ⟨m, w, []⟩

/-- An operation with one operand. -/
def unary (m : Mnemonic) (w : Width) (s : Source) : OpcodeEntry := .plain ⟨m, w, [s]⟩

/-- An operation with two operands. -/
def binary (m : Mnemonic) (w : Width) (s t : Source) : OpcodeEntry := .plain ⟨m, w, [s, t]⟩

/-- A register and a register or memory operand; bit 1 of the opcode puts the register
    first. -/
def registerForm (m : Mnemonic) (op : UInt8) : OpcodeEntry :=
  let w := operandWidth op
  .modrm fun b => some ⟨m, w,
    if op.toNat / 2 % 2 = 0 then [b.place w, b.register w] else [b.register w, b.place w]⟩

/-- A word register and a memory operand of a given width. -/
def memoryForm (m : Mnemonic) (w : Width) : OpcodeEntry :=
  .modrm fun b => (b.memory? w).map fun s => ⟨m, .word, [b.register .word, s]⟩

/-- A shift of a register or memory operand. -/
def shiftForm (op : UInt8) (count : Source) : OpcodeEntry :=
  let w := operandWidth op
  .modrm fun b => some ⟨shiftOf b.reg, w, [b.place w, count]⟩

/-- A move between a segment register and a register or memory operand. -/
def segmentMove (segmentFirst : Bool) : OpcodeEntry :=
  .modrm fun b => (SegmentRegister.ofCode? b.reg).map fun s =>
    let segment := .given (.segment s)
    let place := b.place .word
    ⟨.mov, .word, if segmentFirst then [segment, place] else [place, segment]⟩

/-- An operation with a register or memory operand, whose code must be zero. -/
def zeroForm (m : Mnemonic) (w : Width) (more : List Source) : OpcodeEntry :=
  .modrm fun b => if b.reg.val = 0 then some ⟨m, w, b.place w :: more⟩ else none

end OpcodeEntry

open OpcodeEntry

/-! ### Rows of the table -/

/-- Opcodes 00 to 3F: the two-operand operations, and in the last two columns the segment
    registers and the decimal adjustments. -/
def arithmeticRows (op : UInt8) : OpcodeEntry :=
  let m := arithmeticOf (midField op)
  let w := operandWidth op
  match lowField op with
  | 0 | 1 | 2 | 3 => registerForm m op
  | 4 | 5 => binary m w (.accumulator w) (.imm w)
  | 6 =>
    match midField op with
    | 0 => unary .push .word (.given (.segment .es))
    | 1 => unary .push .word (.given (.segment .cs))
    | 2 => unary .push .word (.given (.segment .ss))
    | 3 => unary .push .word (.given (.segment .ds))
    | _ => .invalid
  | 7 =>
    match midField op with
    | 0 => unary .pop .word (.given (.segment .es))
    | 1 => .invalid
    | 2 => unary .pop .word (.given (.segment .ss))
    | 3 => unary .pop .word (.given (.segment .ds))
    | 4 => bare .daa .byte
    | 5 => bare .das .byte
    | 6 => bare .aaa .byte
    | 7 => bare .aas .byte

/-- Opcodes 40 to 5F: operations on one word register. -/
def registerRows (op : UInt8) : OpcodeEntry :=
  unary (if op < 0x48 then .inc else if op < 0x50 then .dec else if op < 0x58 then .push else .pop)
    .word (registerField op)

/-- Opcodes 60 to 6F: register frames, bounds, pushes and products of immediates, string
    input and output. -/
def frameRow (op : UInt8) : OpcodeEntry :=
  match op with
  | 0x60 => bare .pusha .word
  | 0x61 => bare .popa .word
  | 0x62 => memoryForm .bound .dword
  | 0x68 => unary .push .word .imm16
  | 0x69 => .modrm fun b => some ⟨.imul, .word, [b.register .word, b.place .word, .imm16]⟩
  | 0x6A => unary .push .word .immSigned
  | 0x6B => .modrm fun b => some ⟨.imul, .word, [b.register .word, b.place .word, .immSigned]⟩
  | 0x6C | 0x6D => bare .ins (operandWidth op)
  | 0x6E | 0x6F => bare .outs (operandWidth op)
  | _ => .invalid

/-- Opcodes 70 to 7F: conditional branches. -/
def branchRow (op : UInt8) : OpcodeEntry :=
  binary .jcc .word (.given (.condition (conditionField op))) .rel8

/-- The immediate operand of opcodes 80 to 83. -/
def arithmeticImmediate (op : UInt8) : Source :=
  match op with
  | 0x81 => .imm16
  | 0x83 => .immSigned
  | _ => .imm8

/-- Opcodes 80 to 8F: operations with a ModRM byte. -/
def placeRow (op : UInt8) : OpcodeEntry :=
  match op with
  | 0x80 | 0x81 | 0x82 | 0x83 =>
    let w := operandWidth op
    .modrm fun b => some ⟨arithmeticOf b.reg, w, [b.place w, arithmeticImmediate op]⟩
  | 0x84 | 0x85 => registerForm .test op
  | 0x86 | 0x87 => registerForm .xchg op
  | 0x8C => segmentMove false
  | 0x8D => memoryForm .lea .word
  | 0x8E => segmentMove true
  | 0x8F => zeroForm .pop .word []
  | _ => registerForm .mov op

/-- Opcodes 90 to 9F: exchanges with the accumulator, conversions, flags. -/
def exchangeRow (op : UInt8) : OpcodeEntry :=
  match op with
  | 0x90 => bare .nop .word
  | 0x98 => bare .cbw .word
  | 0x99 => bare .cwd .word
  | 0x9A => unary .callf .word .far
  | 0x9B => bare .wait .word
  | 0x9C => bare .pushf .word
  | 0x9D => bare .popf .word
  | 0x9E => bare .sahf .byte
  | 0x9F => bare .lahf .byte
  | _ => binary .xchg .word (.reg .ax) (registerField op)

/-- Opcodes A0 to AF: the accumulator and bare offsets, string operations. -/
def stringRow (op : UInt8) : OpcodeEntry :=
  let w := operandWidth op
  let offset := Source.memory .direct .word w
  match op with
  | 0xA0 | 0xA1 => binary .mov w (.accumulator w) offset
  | 0xA2 | 0xA3 => binary .mov w offset (.accumulator w)
  | 0xA4 | 0xA5 => bare .movs w
  | 0xA6 | 0xA7 => bare .cmps w
  | 0xA8 | 0xA9 => binary .test w (.accumulator w) (.imm w)
  | 0xAA | 0xAB => bare .stos w
  | 0xAC | 0xAD => bare .lods w
  | _ => bare .scas w

/-- Opcodes B0 to BF: loads of immediates. -/
def loadRow (op : UInt8) : OpcodeEntry :=
  let w : Width := if op < 0xB8 then .byte else .word
  binary .mov w (.reg (Register.ofCode (lowField op) w)) (.imm w)

/-- Opcodes C0 to CF: counted shifts, returns, far pointers, frames, interrupts. -/
def returnRow (op : UInt8) : OpcodeEntry :=
  let w := operandWidth op
  match op with
  | 0xC0 | 0xC1 => shiftForm op .imm8
  | 0xC2 => unary .ret .word .imm16
  | 0xC3 => bare .ret .word
  | 0xC4 => memoryForm .les .dword
  | 0xC5 => memoryForm .lds .dword
  | 0xC6 | 0xC7 => zeroForm .mov w [.imm w]
  | 0xC8 => binary .enter .word .imm16 .imm8
  | 0xC9 => bare .leave .word
  | 0xCA => unary .retf .word .imm16
  | 0xCB => bare .retf .word
  | 0xCC => unary .int .byte (.given (.imm8 3))
  | 0xCD => unary .int .byte .imm8
  | 0xCE => bare .into .byte
  | _ => bare .iret .word

/-- Opcodes D0 to DF: shifts, unpacked decimals, coprocessor escapes. -/
def escapeRow (op : UInt8) : OpcodeEntry :=
  match op with
  | 0xD0 | 0xD1 => shiftForm op (.given (.imm8 1))
  | 0xD2 | 0xD3 => shiftForm op (.reg .cl)
  | 0xD4 => unary .aam .byte .imm8
  | 0xD5 => unary .aad .byte .imm8
  | 0xD6 => .invalid
  | 0xD7 => bare .xlat .byte
  | _ =>
    .modrm fun b => some ⟨.esc, .word,
      [.given (.imm8 (UInt8.ofNat ((lowField op).val * 8 + b.reg.val))), b.coprocessorPlace]⟩

/-- Opcodes E0 to EF: loops, input and output, calls and jumps. -/
def loopRow (op : UInt8) : OpcodeEntry :=
  let w := operandWidth op
  match op with
  | 0xE0 => unary .loopne .word .rel8
  | 0xE1 => unary .loope .word .rel8
  | 0xE2 => unary .loop .word .rel8
  | 0xE3 => unary .jcxz .word .rel8
  | 0xE4 | 0xE5 => binary .input w (.accumulator w) .imm8
  | 0xE6 | 0xE7 => binary .output w .imm8 (.accumulator w)
  | 0xE8 => unary .call .word .rel16
  | 0xE9 => unary .jmp .word .rel16
  | 0xEA => unary .jmpf .word .far
  | 0xEB => unary .jmp .word .rel8
  | 0xEC | 0xED => binary .input w (.accumulator w) (.reg .dx)
  | _ => binary .output w (.reg .dx) (.accumulator w)

/-- Opcodes F6 and F7: operations on one place, by the code of the ModRM byte. -/
def unaryGroup (w : Width) (b : ModRM) : Encoding :=
  let place := b.place w
  match b.reg with
  | 0 | 1 => ⟨.test, w, [place, .imm w]⟩
  | 2 => ⟨.not, w, [place]⟩
  | 3 => ⟨.neg, w, [place]⟩
  | 4 => ⟨.mul, w, [place]⟩
  | 5 => ⟨.imul, w, [place]⟩
  | 6 => ⟨.div, w, [place]⟩
  | 7 => ⟨.idiv, w, [place]⟩

/-- Opcode FE: byte counters. -/
def counterGroup (b : ModRM) : Option Encoding :=
  match b.reg with
  | 0 => some ⟨.inc, .byte, [b.place .byte]⟩
  | 1 => some ⟨.dec, .byte, [b.place .byte]⟩
  | _ => none

/-- Opcode FF: word counters, indirect calls and jumps, pushes. A far target is in memory. -/
def indirectGroup (b : ModRM) : Option Encoding :=
  let place := b.place .word
  let pointer := b.memory? .dword
  match b.reg with
  | 0 => some ⟨.inc, .word, [place]⟩
  | 1 => some ⟨.dec, .word, [place]⟩
  | 2 => some ⟨.call, .word, [place]⟩
  | 3 => pointer.map fun s => ⟨.callf, .word, [s]⟩
  | 4 => some ⟨.jmp, .word, [place]⟩
  | 5 => pointer.map fun s => ⟨.jmpf, .word, [s]⟩
  | 6 => some ⟨.push, .word, [place]⟩
  | 7 => none

/-- Opcodes F0 to FF: halting, flags, and the operations on one place. -/
def controlRow (op : UInt8) : OpcodeEntry :=
  match op with
  | 0xF4 => bare .hlt .word
  | 0xF5 => bare .cmc .word
  | 0xF6 | 0xF7 => .modrm fun b => some (unaryGroup (operandWidth op) b)
  | 0xF8 => bare .clc .word
  | 0xF9 => bare .stc .word
  | 0xFA => bare .cli .word
  | 0xFB => bare .sti .word
  | 0xFC => bare .cld .word
  | 0xFD => bare .std .word
  | 0xFE => .modrm counterGroup
  | 0xFF => .modrm indirectGroup
  | _ => .invalid

/-- The opcode table. -/
def opcodeEntry (op : UInt8) : OpcodeEntry :=
  match op.toNat / 16 with
  | 0x0 | 0x1 | 0x2 | 0x3 => arithmeticRows op
  | 0x4 | 0x5 => registerRows op
  | 0x6 => frameRow op
  | 0x7 => branchRow op
  | 0x8 => placeRow op
  | 0x9 => exchangeRow op
  | 0xA => stringRow op
  | 0xB => loadRow op
  | 0xC => returnRow op
  | 0xD => escapeRow op
  | 0xE => loopRow op
  | _ => controlRow op

end RealMode
