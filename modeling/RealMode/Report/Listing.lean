import RealMode.Disassembly.Basic
import RealMode.Instruction.Text

namespace RealMode.Disassembly

open RealMode.Text

/-!
# Listings

The listing of a function has a line for each instruction, with labels in front of the
instructions that control jumps to, notes behind those that end a path, and the callees at
the end.
-/

/-- The column that notes begin at, counted from the instruction. -/
def noteColumn : Nat := 32

/-- An instruction at its address. -/
def placedText (i : Instruction) (text : String) : String := "  " ++ i.address.text ++ "  " ++ text

/-- An instruction with a note. -/
def notedText (i : Instruction) (note : String) : String :=
  placedText i (padRight noteColumn i.text ++ note)

/-- What there is to note about an instruction. -/
def note? (d : Disassembly) (i : Instruction) : Option String :=
  match d.unresolvedAt? i.linear with
  | some u =>
    match u.reason with
    | .unrecognizedDispatch => some "; unresolved dispatch"
    | .externalTarget => some "; external"
  | none => if d.isExit i.linear then some "; exit" else none

/-- The lines for an instruction. -/
def instructionLines (d : Disassembly) (i : Instruction) : List String :=
  if i.isSynthetic then [notedText i "; entry"]
  else
    (if d.isLabel i.linear then ["L" ++ Hex.label.render i.linear ++ ":"] else []) ++
    [match d.note? i with
      | some note => notedText i note
      | none => placedText i i.text]

/-- The lines of the listing. -/
def listingLines (d : Disassembly) : List String :=
  ("; function " ++ d.entry.text) ::
    d.instructions.toList.flatMap d.instructionLines ++
    d.callees.map fun a => "; calls " ++ a.text

end RealMode.Disassembly
