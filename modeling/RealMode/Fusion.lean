import RealMode.Instruction.Basic
import RealMode.Machine.AddressMap

namespace RealMode.Fusion

/-!
# Fusing two word loads into one double word

`mov lo, [m]; mov hi, [m+2]` loads a double word. The first instruction becomes
`words2dword hi, lo, [m]` and the second has no effect any more, so that every byte of the
image still belongs to one instruction.

* `pair?` — whether two instructions are such loads: they follow directly on each other,
  nothing branches between them, and the first does not change the address of the second;
* `fuse` — the list with all its pairs fused, from left to right;
* `fusedCount` — how many pairs that are.
-/

/-- The register and place of a word load. -/
def wordLoad? (i : Instruction) : Option (Register × MemoryOperand) :=
  match i.mnemonic, i.operands with
  | .mov, [.register r, .memory m] => if r.isWord ∧ m.width = .word then some (r, m) else none
  | _, _ => none

/-- What two loads become, if together they load a double word. -/
def pair? (labels : AddressSet) (first second : Instruction) :
    Option (Instruction × Instruction) := do
  let (lo, m) ← wordLoad? first
  let (hi, n) ← wordLoad? second
  guard (lo ≠ hi)
  guard (n = m.offset 2 .word ∧ first.nextLinear = second.linear)
  guard (¬ labels.contains second.linear ∧ ¬ n.uses lo)
  let load := first.withOperation .words2dword
    [.register hi, .register lo, .memory (m.offset 0 .dword)]
  return ({ load with width := .dword }, second.neutralized)

/-- Fuses pairs from left to right; gives the new list and the number of fused pairs. -/
def fuseCounting (labels : AddressSet) : List Instruction → List Instruction × Nat
  | a :: b :: rest =>
    match pair? labels a b with
    | some (a', b') =>
      let (fused, n) := fuseCounting labels rest
      (a' :: b' :: fused, n + 1)
    | none =>
      let (fused, n) := fuseCounting labels (b :: rest)
      (a :: fused, n)
  | is => (is, 0)

/-- The list with its pairs fused. -/
def fuse (labels : AddressSet) (is : List Instruction) : List Instruction :=
  (fuseCounting labels is).1

/-- The number of pairs that are fused. -/
def fusedCount (labels : AddressSet) (is : List Instruction) : Nat := (fuseCounting labels is).2

end RealMode.Fusion
