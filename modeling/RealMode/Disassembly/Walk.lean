import RealMode.Dispatch
import RealMode.Disassembly.Basic
import RealMode.Disassembly.Fault
import RealMode.Image.Basic
import RealMode.Instruction.Usage
import RealMode.Worklist

namespace RealMode

/-!
# Following the control flow of a function

A walk decodes straight on from the entry and from every place that control is seen to go
to. It is a machine of small steps; each state says what is left to do.

* `Routine` — what is walked: an image, an entry, the templates and the limits;
* `Walk` — the state: what is decoded so far and what is left to do, most urgent first — go
  on at the cursor, recover a dispatch, start at a queued place, turn to the dispatches
  that were put off;
* `Walk.visit` — decodes one instruction and goes on from it;
* `Walk.recover` — turns a jump through a table into a switch, if a template knows it;
* `Walk.step?` — one step, `Walk.run` — all steps.

A walk ends: an instruction visited uses up one of the function's instructions, and pays
for the places it leads to (`Walk.potential`).
-/

/-- Limits and choices of a disassembly. -/
structure Options where
  /-- Tables with more entries are refused. -/
  maxCases : UInt16 := 256
  /-- Whether pairs of word loads are fused. -/
  fuseDwordLoads : Bool := false
  /-- Functions with more instructions are refused. -/
  maxInstructions : Nat := 0x10000
deriving DecidableEq, Repr

/-- A function of a program, to be walked from its entry. -/
structure Routine where
  image : Image
  entry : Address
  templates : List SwitchTemplate := SwitchTemplate.standard
  options : Options := {}

/-- A place to decode at, with the value of `ah` there if it is known. -/
structure Cursor where
  address : Address
  ah : Option UInt8
deriving DecidableEq, Repr

/-- The state of a walk. -/
structure Walk where
  /-- Where decoding goes straight on. -/
  cursor : Option Cursor := none
  /-- Dispatches to be recovered now. -/
  dispatches : List Nat := []
  /-- Places that control goes to. -/
  queue : Worklist Address := {}
  /-- Dispatches put off until nothing else is left to decode. -/
  pending : Worklist Nat := {}
  decoded : AddressMap Instruction := ∅
  /-- The places that control was seen to go to, with the value of `ah` that all sources so
      far agree on. -/
  targets : AddressMap (Option UInt8) := ∅
  /-- Source and target of each followed transfer, latest first. -/
  branches : List (Nat × Nat) := []
  exits : AddressSet := ∅
  /-- The jumps that are not followed, latest first. -/
  unresolved : List Unresolved := []
  callees : AddressMap Address := ∅

/-! ### What an instruction does to `ah` and to the process -/

namespace Instruction

/-- The constant that an instruction loads into `ah`. -/
def loadsAh? (i : Instruction) : Option UInt8 :=
  match i.mnemonic, i.operands with
  | .mov, [.register .ah, .immediate v _] => if v < 256 then some v.toUInt8 else none
  | .mov, [.register .ax, .immediate v _] => some (v >>> 8).toUInt8
  | _, _ => none

/-- What is known of `ah` behind an instruction. -/
def ahAfter (i : Instruction) (ah : Option UInt8) : Option UInt8 :=
  match i.loadsAh? with
  | some v => some v
  | none =>
    match i.defined with
    | .ok defined => if .ah ∈ defined then none else ah
    | .error _ => none

/-- Whether the instruction is a far jump or call. -/
def isFar (i : Instruction) : Bool := i.mnemonic matches .jmpf | .callf

end Instruction

/-- Whether an interrupt ends the process, for all that is known of `ah`. -/
def endsProcess (vector : UInt8) (ah : Option UInt8) : Bool :=
  match vector with
  | 0x20 | 0x27 => true
  | 0x21 => (ah matches some 0x00 | some 0x31 | some 0x4C)
  | _ => false

namespace Routine

/-- The instruction at an address. -/
def decodeAt (r : Routine) (a : Address) : Except Fault Instruction :=
  match r.image.bytesFrom? a.linear with
  | none => .error (.outOfBounds a.linear)
  | some bs =>
    match decode bs a with
    | .ok i => .ok i
    | .error .truncated => .error (.outOfBounds a.linear)
    | .error e => .error (.undecodable a.linear e)

/-- Whether a far transfer leaves the program: its target is outside the image, or the
    loader would not adjust the segment it names. -/
def leavesProgram (r : Routine) (i : Instruction) (target : Address) : Bool :=
  i.isFar &&
    (!r.image.contains target.linear ||
      (r.image.hasRelocationTable && !r.image.isRelocated (i.linear + i.length.toNat - 2)))

/-- Whether an instruction ends the process. A system call whose function is unknown does
    so if nothing can be decoded behind it. -/
def isExit (r : Routine) (i : Instruction) (ah : Option UInt8) : Bool :=
  match i.vector? with
  | none => false
  | some v =>
    endsProcess v ah ||
      (v == 0x21 && ah.isNone && !(r.decodeAt i.next).isOk)

end Routine

namespace Walk

/-! ### Overlapping instructions -/

/-- The value with the nearest key below `linear` that is at most `reach` away. -/
def nearestBelow? {α : Type} (m : AddressMap α) : (reach linear : Nat) → Option α
  | reach + 1, linear + 1 =>
    match m[linear]? with
    | some a => some a
    | none => nearestBelow? m reach linear
  | _, _ => none

/-- Whether the instruction before `linear` goes on behind it. No instruction has more than
    255 bytes, so one that is further away cannot. -/
def isCovered (m : AddressMap Instruction) (linear : Nat) : Bool :=
  match nearestBelow? m 255 linear with
  | some i => linear < i.nextLinear
  | none => false

/-- Whether an instruction is decoded behind `linear` in the next `length` bytes. -/
def covers (m : AddressMap Instruction) (linear length : Nat) : Bool :=
  (List.range' (linear + 1) (length - 1)).any m.contains

/-- Whether an instruction would share bytes with one that starts elsewhere. -/
def overlaps (w : Walk) (i : Instruction) : Bool :=
  isCovered w.decoded i.linear || covers w.decoded i.linear i.length.toNat

/-! ### Transfers -/

/-- The common value of `ah` when another source brings `ah`. -/
def agree (known : Option (Option UInt8)) (ah : Option UInt8) : Option UInt8 :=
  match known with
  | none => ah
  | some v => if v = ah then v else none

/-- Follows a transfer: its target is a label, and will be decoded. -/
def follow (w : Walk) (source : Nat) (target : Address) (ah : Option UInt8) : Walk :=
  { w with
    branches := (source, target.linear) :: w.branches
    targets := w.targets.insert target.linear (agree w.targets[target.linear]? ah)
    queue := w.queue.push target }

/-- Goes on behind an instruction that is decoded. -/
def goOn (r : Routine) (w : Walk) (i : Instruction) (ah : Option UInt8) : Walk :=
  let stopped := { w with cursor := none }
  let onward := { w with cursor := some ⟨i.next, ah⟩ }
  if i.mnemonic.isJump then
    match i.target? with
    | none => { stopped with pending := w.pending.push i.linear }
    | some t =>
      if r.leavesProgram i t then
        { stopped with unresolved := ⟨i.address, .externalTarget⟩ :: w.unresolved }
      else stopped.follow i.linear t ah
  else if i.mnemonic.isConditionalBranch then
    match i.target? with
    | none => onward
    | some t => onward.follow i.linear t none
  else if i.mnemonic.isReturn then stopped
  else if r.isExit i ah then { stopped with exits := w.exits.insert i.linear }
  else if i.mnemonic.isCall then
    match i.target? with
    | none => onward
    | some t =>
      if r.leavesProgram i t then onward
      else { onward with callees := w.callees.insert t.linear t }
  else onward

/-- Decodes the instruction at the cursor and goes on behind it. Decoding stops where it was
    before, and where instructions would overlap. -/
def visit (r : Routine) (w : Walk) (c : Cursor) : Except Fault Walk :=
  if w.decoded.contains c.address.linear then .ok { w with cursor := none }
  else if r.options.maxInstructions ≤ w.decoded.size then
    .error (.instructionLimit r.options.maxInstructions)
  else
    match r.decodeAt c.address with
    | .error e => .error e
    | .ok i =>
      if w.overlaps i then .ok { w with cursor := none }
      else
        .ok (goOn r { w with decoded := w.decoded.insert c.address.linear i } i (i.ahAfter c.ah))

/-! ### Dispatches -/

/-- The instructions a template sees: up to five before the jump, and the jump. -/
def window (w : Walk) (jump : Instruction) : List Instruction :=
  let before := (w.decoded.toList.takeWhile (·.1 < jump.linear)).map (·.2)
  before.drop (before.length - dispatchWindow) ++ [jump]

/-- The words of a table in segment `seg`, one for each case. -/
def tableWords (r : Routine) (seg : UInt16) (m : SwitchMatch) :
    Except Fault (List UInt16) :=
  (List.range m.caseCount).mapM fun value =>
    let slot : Address := ⟨seg, m.table + UInt16.ofNat value * 2⟩
    match r.image.word? slot.linear with
    | some word => .ok word
    | none => .error (.outOfBounds slot.linear)

/-- The switch that a jump through a table of offsets is. -/
def switchOf (jump : Instruction) (index : Register) (words : List UInt16) : Instruction :=
  let entries := words.zipIdx.map fun (word, value) =>
    Operand.case ⟨UInt16.ofNat value, (word - jump.next.off).toInt16⟩
  { jump.withOperation .switch (.register index :: entries) with width := .word }

/-- Puts a switch in place of a jump, and takes the effect from the instructions that only
    prepared it. -/
def putSwitch (decoded : AddressMap Instruction) (linear : Nat) (switch : Instruction)
    (folded : List Nat) : AddressMap Instruction :=
  folded.foldl (fun m a => m.modify a Instruction.neutralized)
    (decoded.modify linear fun _ => switch)

/-- Turns a recognized dispatch into a switch and follows its cases. -/
def apply (r : Routine) (w : Walk) (jump : Instruction) (m : SwitchMatch) :
    Except Fault Walk :=
  if r.options.maxCases.toNat < m.caseCount then
    .error (.tooManyCases jump.linear m.caseCount r.options.maxCases.toNat)
  else
    match tableWords r jump.address.seg m with
    | .error e => .error e
    | .ok words =>
      let w := { w with
        decoded := putSwitch w.decoded jump.linear (switchOf jump m.index words) m.folded }
      .ok (words.foldl (fun w word => w.follow jump.linear ⟨jump.address.seg, word⟩ none) w)

/-- Offers a jump to the templates. -/
def recover (r : Routine) (w : Walk) (linear : Nat) : Except Fault Walk :=
  match w.decoded[linear]? with
  | none => .ok w
  | some jump =>
    match SwitchTemplate.firstMatch? r.templates (w.window jump) with
    | some m => w.apply r jump m
    | none =>
      .ok { w with unresolved := ⟨jump.address, .unrecognizedDispatch⟩ :: w.unresolved }

/-! ### Steps -/

/-- The cursor at the start of a queued place. -/
def start (w : Walk) (a : Address) : Cursor := ⟨a, w.targets[a.linear]?.join⟩

/-- One step, or nothing if nothing is left to do. -/
def step? (r : Routine) (w : Walk) : Option (Except Fault Walk) :=
  match w.cursor with
  | some c => some (w.visit r c)
  | none =>
    match w.dispatches with
    | linear :: dispatches => some ({ w with dispatches }.recover r linear)
    | [] =>
      match w.queue.pop? with
      | some (a, queue) => some (.ok { w with queue, cursor := some (w.start a) })
      | none =>
        match w.pending.toList with
        | [] => none
        | dispatches => some (.ok { w with dispatches, pending := {} })

/-- A bound on the steps that are left: what is left to do, each kind of work weighed by
    what it can lead to. -/
def potential (r : Routine) (w : Walk) : Nat :=
  let cases := r.options.maxCases.toNat
  w.cursor.toList.length +
  2 * w.queue.size +
  (2 * cases + 1) * w.dispatches.length +
  (2 * cases + 2) * w.pending.size +
  (2 * cases + 3) * (r.options.maxInstructions - w.decoded.size)

end Walk

end RealMode
