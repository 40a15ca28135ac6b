import RealMode.Instruction.Basic

namespace RealMode.Instruction

open RealMode.Text

/-!
# The written form of instructions

* `name` — the mnemonic, with the condition of a branch or the width of a string operation;
* `operandText` — an operand as seen from its instruction: displacements are written as
  the offsets they lead to;
* `text` — repetition, name and operands.
-/

/-- The written mnemonic. -/
def name (i : Instruction) : String :=
  if i.mnemonic = .jcc then
    match i.condition? with
    | some c => "j" ++ c.name
    | none => i.mnemonic.name
  else if i.mnemonic.isString then
    i.mnemonic.name ++ (if i.width = .byte then "b" else "w")
  else i.mnemonic.name

/-- An operand as seen from its instruction. -/
def operandText (i : Instruction) : Operand → String
  | .relative d => Hex.offset.render (i.displaced d).off.toNat
  | .case c => toString c.value.toNat ++ ": " ++ Hex.offset.render (i.caseTarget c).off.toNat
  | o => o.text

/-- The operands that are written behind the name: all but conditions. -/
def shownOperands (i : Instruction) : List Operand :=
  i.operands.filter (·.condition?.isNone)

/-- The written form. -/
def text (i : Instruction) : String :=
  (match i.repetition with
    | some r => r.name ++ " "
    | none => "") ++
  i.name ++
  (match i.shownOperands.map i.operandText with
    | [] => ""
    | shown => " " ++ ", ".intercalate shown)

end RealMode.Instruction
