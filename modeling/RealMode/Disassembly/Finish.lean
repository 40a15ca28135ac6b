import RealMode.Disassembly.Run
import RealMode.Fusion

namespace RealMode

/-!
# From a finished walk to a disassembly

* `Walk.unresolvedFlow?` — the first place that control goes to without an instruction
  there: the target of a followed transfer, or the place behind an instruction that control
  falls through;
* `Walk.listing` — the instructions in the order of their addresses, with pairs of loads
  fused if that is wanted, and a jump to the entry in front if the entry is not the lowest;
* `Routine.disassemble` — the disassembly of a function.
-/

namespace Walk

/-- Whether control goes on behind an instruction. -/
def fallsThrough (w : Walk) (i : Instruction) : Bool :=
  !(i.mnemonic.isJump || i.mnemonic.isReturn || i.mnemonic == .switch ||
    w.exits.contains i.linear)

/-- The first followed transfer that leads to no instruction. -/
def brokenBranch? (w : Walk) : Option (Nat × Nat) :=
  w.branches.reverse.find? fun (_, target) => !w.decoded.contains target

/-- The first instruction that control falls through to no instruction. -/
def brokenFall? (w : Walk) : Option (Nat × Nat) :=
  (w.decoded.items.find? fun i => w.fallsThrough i && !w.decoded.contains i.nextLinear).map
    fun i => (i.linear, i.nextLinear)

/-- The first place that control goes to without an instruction there, with its source. -/
def unresolvedFlow? (w : Walk) : Option (Nat × Nat) := w.brokenBranch? <|> w.brokenFall?

/-- The labels: every place that control was seen to go to. -/
def labels (w : Walk) : AddressSet := .ofList w.targets.keys

/-- A jump to the entry that has no bytes of its own. -/
def entryJump (lowest entry : Address) : Instruction :=
  if lowest.seg = entry.seg then
    { address := lowest
      mnemonic := .jmp
      operands := [.relative (entry.off - lowest.off).toInt16]
      length := 0 }
  else
    { address := lowest
      mnemonic := .jmpf
      operands := [.far entry]
      length := 0 }

/-- The instructions behind a jump to the entry, if the first one is not the entry. -/
def withEntryJump (entry : Address) (is : List Instruction) : List Instruction :=
  match is with
  | [] => []
  | i :: _ => if i.linear = entry.linear then is else entryJump i.address entry :: is

/-- The instructions in the order of their addresses. -/
def listing (r : Routine) (w : Walk) : List Instruction :=
  let decoded := w.decoded.items
  let fused := if r.options.fuseDwordLoads then Fusion.fuse w.labels decoded else decoded
  withEntryJump r.entry fused

/-- The disassembly that a finished walk amounts to. -/
def finish (r : Routine) (w : Walk) : Except Fault Disassembly :=
  match w.unresolvedFlow? with
  | some (linear, target) => .error (.unresolvedFlow linear target)
  | none =>
    let listing := w.listing r
    .ok {
      entry := r.entry
      instructions := listing.toArray
      labels := w.labels
      exits := w.exits
      unresolved := w.unresolved.reverse
      callees := w.callees.items
      index := Disassembly.indexOf listing }

end Walk

namespace Routine

/-- The disassembly of a function. -/
def disassemble (r : Routine) : Except FlowError Disassembly :=
  (r.walk.bind (Walk.finish r)).mapError (⟨r.entry, ·⟩)

end Routine

end RealMode
