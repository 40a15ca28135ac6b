import RealMode.Instruction.Basic

namespace RealMode

/-!
# Recognizing jumps through a table

A compiled `switch` checks its index against a bound, doubles it and jumps through a table
of words in the code segment.

* `SwitchMatch` — what a recognized dispatch tells: index register, highest case, place of
  the table, and the instructions that only prepare the jump;
* `SwitchTemplate` — a named way of recognizing a dispatch in the instructions up to and
  including the jump;
* `SwitchTemplate.boundsChecked`, `SwitchTemplate.biasedRange` — the two standard ways:

  * `cmp idx, N; jbe L; jmp default; L: add idx, idx; xchg idx, base; jmp cs:[base+table]`
  * `sub idx, bias; cmp idx, N; ja out; add idx, idx; xchg idx, base; jmp cs:[base+table]`
-/

/-- A recognized dispatch. -/
structure SwitchMatch where
  /-- The register that holds the case at the jump. -/
  index : Register
  /-- The highest case; the lowest is zero. -/
  max : UInt16
  /-- The offset of the table in the segment of the jump. -/
  table : UInt16
  /-- The linear addresses of the instructions that only prepare the jump. -/
  folded : List Nat
deriving DecidableEq, Repr

/-- The number of cases. -/
def SwitchMatch.caseCount (m : SwitchMatch) : Nat := m.max.toNat + 1

/-- A way of recognizing a dispatch. It sees up to five instructions in front of the jump,
    in the order of their addresses, and the jump itself at the end. -/
structure SwitchTemplate where
  name : String
  recognize : List Instruction → Option SwitchMatch

/-- How many instructions in front of the jump a template sees. -/
def dispatchWindow : Nat := 5

namespace Dispatch

/-! ### Parts of a dispatch -/

/-- Whether each instruction follows directly on the one before it. -/
def contiguous : List Instruction → Bool
  | a :: b :: rest => a.nextLinear == b.linear && contiguous (b :: rest)
  | _ => true

/-- The last `n` elements, if there are as many. -/
def lastN? (n : Nat) (is : List Instruction) : Option (List Instruction) :=
  if n ≤ is.length then some (is.drop (is.length - n)) else none

/-- The last six instructions, if they follow directly on each other. -/
def lastSix? (window : List Instruction) : Option (List Instruction) :=
  (lastN? 6 window).filter contiguous

/-- The bound of `cmp idx, bound`. -/
def comparedBound? (index : Register) (i : Instruction) : Option UInt16 :=
  match i.mnemonic, i.operands with
  | .cmp, .register r :: .immediate value _ :: _ => if r = index then some value else none
  | _, _ => none

/-- The register of `add idx, idx`, which must be a word. -/
def doubledIndex? (i : Instruction) : Option Register :=
  match i.mnemonic, i.operands with
  | .add, [.register a, .register b] => if a = b ∧ a.isWord then some a else none
  | _, _ => none

/-- The register that `xchg` trades for `index`. -/
def exchangedWith? (index : Register) (i : Instruction) : Option Register :=
  match i.mnemonic, i.operands with
  | .xchg, [.register a, .register b] =>
    if a = index then some b else if b = index then some a else none
  | _, _ => none

/-- The table of `jmp cs:[base+table]`. -/
def jumpedTable? (base : Register) (i : Instruction) : Option UInt16 := do
  guard (i.mnemonic = .jmp ∧ i.isIndirectJump)
  let m ← i.memoryOperand?
  guard (m.mode.registers = [base] ∧ m.segment = .cs)
  return m.disp

/-- The index register and the table of a dispatch: its last three instructions. -/
def scaledJump? (add xchg jump : Instruction) : Option (Register × UInt16) := do
  let index ← doubledIndex? add
  let base ← exchangedWith? index xchg
  let table ← jumpedTable? base jump
  return (index, table)

/-- Whether `i` branches on condition `c`. -/
def branchesOn (c : Condition) (i : Instruction) : Bool :=
  i.mnemonic = .jcc && i.condition? = some c

/-- Whether `i` is a direct near jump. -/
def jumpsAway (i : Instruction) : Bool := i.mnemonic = .jmp && i.target?.isSome

/-- Whether `i` subtracts an immediate from `index`. -/
def subtractsBias (index : Register) (i : Instruction) : Bool :=
  match i.mnemonic, i.operands with
  | .sub, .register r :: .immediate _ _ :: _ => r = index
  | _, _ => false

end Dispatch

open Dispatch

namespace SwitchTemplate

/-! ### Standard templates -/

/-- A bound checked by a branch over the jump to the default case. -/
def boundsChecked : SwitchTemplate where
  name := "bounds-checked-jump"
  recognize window := do
    let [cmp, jbe, default, add, xchg, jump] ← lastSix? window | none
    let (index, table) ← scaledJump? add xchg jump
    let max ← comparedBound? index cmp
    guard (branchesOn .be jbe && jbe.target?.map Address.linear = some add.linear)
    guard (jumpsAway default)
    return { index, max, table, folded := [add.linear, xchg.linear] }

/-- A range that is moved to zero and left by a branch if the index is above its bound. -/
def biasedRange : SwitchTemplate where
  name := "biased-range"
  recognize window := do
    let [sub, cmp, ja, add, xchg, jump] ← lastSix? window | none
    let (index, table) ← scaledJump? add xchg jump
    let max ← comparedBound? index cmp
    guard (subtractsBias index sub)
    guard (branchesOn .a ja)
    return { index, max, table, folded := [add.linear, xchg.linear] }

/-- The standard templates, in the order they are tried. -/
def standard : List SwitchTemplate := [boundsChecked, biasedRange]

/-- The first match that a list of templates finds. -/
def firstMatch? (templates : List SwitchTemplate) (window : List Instruction) :
    Option SwitchMatch :=
  templates.findSome? (·.recognize window)

end SwitchTemplate

end RealMode
