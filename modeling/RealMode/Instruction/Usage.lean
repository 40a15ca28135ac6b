import RealMode.Instruction.Basic

namespace RealMode

open Text

/-!
# Which locals an instruction reads and writes

* `Usage` — the locals read (`required`) and written (`defined`);
* `Operand.usage?` — what an operand contributes, given how its operation uses it;
* `Instruction.implicitUsage` — what the encoding leaves unsaid: the accumulator of a
  multiplication, the stack of a push, the index registers of a string operation;
* `Instruction.usage` — everything one instruction reads and writes, or the first operand
  that its operation cannot take;
* `Usage.foldList` — a run of instructions seen as one: it requires what it reads before
  writing it, and defines whatever it writes.
-/

/-- The locals read and written. -/
structure Usage where
  required : LocalSet := ∅
  defined : LocalSet := ∅
deriving DecidableEq, Repr

namespace Usage

/-- Two uses side by side. -/
def union (a b : Usage) : Usage := ⟨a.required ∪ b.required, a.defined ∪ b.defined⟩

/-- One use after another: what the first defines, the second finds. -/
def andThen (a b : Usage) : Usage :=
  ⟨a.required ∪ b.required \ a.defined, a.defined ∪ b.defined⟩

/-- Reads alone. -/
def reads (s : LocalSet) : Usage := ⟨s, ∅⟩

/-- Reads and writes of the listed locals. -/
def of (required defined : List Local) : Usage := ⟨.of required, .of defined⟩

end Usage

/-- An operand that its operation cannot take. -/
structure UnsupportedOperand where
  linear : Nat
  mnemonic : Mnemonic
  index : Nat
deriving DecidableEq, Repr

/-- What is said about an operand that its operation cannot take. -/
def UnsupportedOperand.message (e : UnsupportedOperand) : String :=
  "unsupported operand " ++ toString e.index ++ " for `" ++ e.mnemonic.name ++ "` at " ++
    Hex.linear.render e.linear

/-! ### Explicit operands -/

/-- What a register contributes. -/
def Access.usage (access : Access) (s : LocalSet) : Usage :=
  match access with
  | .read => ⟨s, ∅⟩
  | .write => ⟨∅, s⟩
  | .update => ⟨s, s⟩
  | .label | .address => {}

/-- What an operand contributes, if it can be used in the given way. A place in memory is
    not a local: using it reads the registers that form its address. -/
def Operand.usage? (access : Access) : Operand → Option Usage
  | .condition _ | .case _ => if access = .label then some {} else none
  | .memory m =>
    match access with
    | .label => none
    | .address => some (.reads m.mode.locals)
    | .read | .write | .update => some (.reads (m.mode.locals ∪ m.segment.locals))
  | .immediate _ _ | .relative _ | .far _ => if access = .read then some {} else none
  | .register r => if access matches .label | .address then none else some (access.usage r.locals)
  | .segment s => if access matches .label | .address then none else some (access.usage s.locals)

namespace Instruction

/-- What operand `index` of `arity` contributes, if it fits. -/
def operandUsage (i : Instruction) (arity : Nat) (o : Operand) (index : Nat) :
    Except UnsupportedOperand Usage :=
  match (i.mnemonic.role? index arity).bind o.usage? with
  | some u => .ok u
  | none => .error ⟨i.linear, i.mnemonic, index⟩

/-- What the listed operands contribute, or the first that does not fit. -/
def explicitUsage (i : Instruction) : Except UnsupportedOperand Usage :=
  let arity := i.operands.length
  i.operands.zipIdx.foldlM (fun acc (o, index) => do
    return acc.union (← i.operandUsage arity o index)) {}

/-! ### Implicit operands -/

/-- The segment a string operation reads from. -/
def sourceSegment (i : Instruction) : SegmentRegister := i.segmentOverride.getD .ds

/-- The locals an operation uses without naming them, repetition apart. -/
def impliedUsage (i : Instruction) : Usage :=
  let byte := i.width = .byte
  let acc := (Register.accumulator i.width).locals
  let source := i.sourceSegment.locals
  match i.mnemonic with
  | .mul | .imul =>
    if i.operands.length > 1 then {}
    else if byte then .of [.al] [.al, .ah]
    else .of [.al, .ah] [.al, .ah, .dl, .dh]
  | .div | .idiv =>
    if byte then .of [.al, .ah] [.al, .ah]
    else .of [.al, .ah, .dl, .dh] [.al, .ah, .dl, .dh]
  | .cbw => .of [.al] [.ah]
  | .cwd => .of [.al, .ah] [.dl, .dh]
  | .daa | .das => .of [.al] [.al]
  | .aaa | .aas | .aad => .of [.al, .ah] [.al, .ah]
  | .aam => .of [.al] [.al, .ah]
  | .lahf => .of [] [.ah]
  | .sahf => .of [.ah] []
  | .xlat => ⟨.of [.al, .bl, .bh] ∪ source, .of [.al]⟩
  | .lds => .of [] [.ds]
  | .les => .of [] [.es]
  | .push | .pushf | .call | .int | .into | .pop | .popf | .ret | .retf | .iret =>
    .of [.sp, .ss] [.sp]
  | .callf => .of [.sp, .ss, .cs] [.sp]
  | .pusha => .of [.al, .ah, .bl, .bh, .cl, .ch, .dl, .dh, .si, .di, .bp, .sp, .ss] [.sp]
  | .popa => .of [.sp, .ss] [.al, .ah, .bl, .bh, .cl, .ch, .dl, .dh, .si, .di, .bp, .sp]
  | .enter => .of [.sp, .ss, .bp] [.sp, .bp]
  | .leave => .of [.bp, .ss] [.sp, .bp]
  | .movs | .cmps => ⟨.of [.si, .di, .es] ∪ source, .of [.si, .di]⟩
  | .stos | .scas => ⟨acc ∪ .of [.di, .es], .of [.di]⟩
  | .lods => ⟨.of [.si] ∪ source, acc ∪ .of [.si]⟩
  | .ins => .of [.dl, .dh, .di, .es] [.di]
  | .outs => ⟨.of [.dl, .dh, .si] ∪ source, .of [.si]⟩
  | .jcxz => .of [.cl, .ch] []
  | .loop | .loope | .loopne => .of [.cl, .ch] [.cl, .ch]
  | _ => {}

/-- The counter of a repeated string operation. -/
def repetitionUsage (i : Instruction) : Usage :=
  if i.repetition.isSome && i.mnemonic.isString then .of [.cl, .ch] [.cl, .ch] else {}

/-- Everything the encoding leaves unsaid. -/
def implicitUsage (i : Instruction) : Usage := i.impliedUsage.union i.repetitionUsage

/-- The flags an instruction reads and writes. -/
def flagUsage (i : Instruction) : Usage where
  required := i.mnemonic.profile.reads.locals ∪
    (match i.condition? with
      | some c => c.tests.locals
      | none => ∅)
  defined := i.flags.written.locals

/-! ### Whole instructions -/

/-- Everything an instruction reads and writes. -/
def usage (i : Instruction) : Except UnsupportedOperand Usage := do
  let explicit ← i.explicitUsage
  return (explicit.union i.implicitUsage).union i.flagUsage

/-- The locals an instruction reads. -/
def required (i : Instruction) : Except UnsupportedOperand LocalSet := do
  return (← i.usage).required

/-- The locals an instruction writes. -/
def defined (i : Instruction) : Except UnsupportedOperand LocalSet := do
  return (← i.usage).defined

end Instruction

/-- A run of instructions seen as one. -/
def Usage.foldList (is : List Instruction) : Except UnsupportedOperand Usage :=
  is.foldlM (fun acc i => do return acc.andThen (← i.usage)) {}

end RealMode
