import RealMode.Instruction.Basic
import RealMode.Machine.AddressMap

namespace RealMode

/-!
# Disassembled functions

* `Disassembly` — the instructions of a function in the order of their addresses, with
  what is known about them: labels, process exits, jumps that could not be followed,
  callees;
* `Disassembly.position?`, `Disassembly.find?` — the instruction at a linear address,
  through an index that was made with the instructions.

The index is checked when it is used: an entry counts only if the instruction at its
position is encoded at that address. A disassembly whose instructions were edited
afterwards is therefore still safe to ask.
-/

/-- Why a jump was not followed. -/
inductive UnresolvedReason where
  /-- No template recognized the dispatch. -/
  | unrecognizedDispatch
  /-- A far target that is not part of the program. -/
  | externalTarget
deriving DecidableEq, Repr

/-- A jump that was not followed. -/
structure Unresolved where
  address : Address
  reason : UnresolvedReason
deriving DecidableEq, Repr

/-- The linear address of the jump. -/
def Unresolved.linear (u : Unresolved) : Nat := u.address.linear

/-- A disassembled function. -/
structure Disassembly where
  entry : Address
  /-- In the order of their addresses; a jump to the entry comes first if the entry is not
      the lowest. -/
  instructions : Array Instruction
  /-- The linear addresses that branches, jumps and switches lead to. -/
  labels : AddressSet
  /-- The linear addresses of interrupts that end the process. -/
  exits : AddressSet
  unresolved : List Unresolved
  /-- The targets of direct calls, in the order of their linear addresses. -/
  callees : List Address
  /-- The position of each encoded instruction, by linear address. -/
  index : AddressMap Nat

namespace Disassembly

def isLabel (d : Disassembly) (linear : Nat) : Bool := d.labels.contains linear

def isExit (d : Disassembly) (linear : Nat) : Bool := d.exits.contains linear

/-- The record of a jump that was not followed. -/
def unresolvedAt? (d : Disassembly) (linear : Nat) : Option Unresolved :=
  d.unresolved.find? (·.linear == linear)

/-- The position of the encoded instruction at a linear address. -/
def position? (d : Disassembly) (linear : Nat) : Option Nat := do
  let pos ← d.index[linear]?
  let i ← d.instructions[pos]?
  if i.linear = linear ∧ ¬ i.isSynthetic then some pos else none

/-- The encoded instruction at a linear address. -/
def find? (d : Disassembly) (linear : Nat) : Option Instruction := do
  let pos ← d.position? linear
  d.instructions[pos]?

/-- The number of encoded instructions. -/
def size (d : Disassembly) : Nat := d.index.size

def isEmpty (d : Disassembly) : Bool := d.size == 0

/-- The recovered jumps through tables. -/
def switches (d : Disassembly) : List Instruction :=
  d.instructions.toList.filter (·.mnemonic = .switch)

/-- The positions of the encoded instructions of a list. -/
def indexOf (is : List Instruction) : AddressMap Nat :=
  (is.zipIdx.filter (!·.1.isSynthetic)).foldl (fun index (i, pos) => index.insert i.linear pos) ∅

end Disassembly

end RealMode
