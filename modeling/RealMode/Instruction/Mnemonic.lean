import RealMode.Machine.Flag

namespace RealMode

/-!
# Mnemonics and their profiles

* `Mnemonic` — the operations: the integer set, the string, input-output and coprocessor
  operations, and two that only recovery produces, `switch` and `words2dword`;
* `Profile` — what is known of an operation before its operands are: category, effect on
  the flags, flags it reads, and the ways it uses its operands;
* `Mnemonic.profile` — the table of profiles;
* `Mnemonic.role?` — how an operation uses one of its operands.
-/

/-! ### Operations -/

/-- The operation of an instruction. -/
inductive Mnemonic where
  | add | adc | sub | sbb | cmp | and | or | xor | test
  | inc | dec | neg | not | mul | imul | div | idiv
  | daa | das | aaa | aas | aam | aad | cbw | cwd
  | rol | ror | rcl | rcr | shl | shr | sar
  | mov | xchg | lea | lds | les | xlat | lahf | sahf
  | push | pop | pusha | popa | pushf | popf | enter | leave
  | movs | cmps | stos | lods | scas | ins | outs
  | jmp | jmpf | call | callf | ret | retf | iret
  | jcc | jcxz | loop | loope | loopne
  | int | into | bound
  | input | output
  | clc | stc | cmc | cld | std | cli | sti
  | nop | hlt | wait
  /-- A coprocessor escape. -/
  | esc
  /-- A recovered jump through a table. -/
  | switch
  /-- Two word loads seen as one load of a double word. -/
  | words2dword
deriving DecidableEq, Repr

namespace Mnemonic

def name : Mnemonic → String
  | add => "add" | adc => "adc" | sub => "sub" | sbb => "sbb" | cmp => "cmp"
  | and => "and" | or => "or" | xor => "xor" | test => "test"
  | inc => "inc" | dec => "dec" | neg => "neg" | not => "not"
  | mul => "mul" | imul => "imul" | div => "div" | idiv => "idiv"
  | daa => "daa" | das => "das" | aaa => "aaa" | aas => "aas"
  | aam => "aam" | aad => "aad" | cbw => "cbw" | cwd => "cwd"
  | rol => "rol" | ror => "ror" | rcl => "rcl" | rcr => "rcr"
  | shl => "shl" | shr => "shr" | sar => "sar"
  | mov => "mov" | xchg => "xchg" | lea => "lea" | lds => "lds" | les => "les"
  | xlat => "xlat" | lahf => "lahf" | sahf => "sahf"
  | push => "push" | pop => "pop" | pusha => "pusha" | popa => "popa"
  | pushf => "pushf" | popf => "popf" | enter => "enter" | leave => "leave"
  | movs => "movs" | cmps => "cmps" | stos => "stos" | lods => "lods"
  | scas => "scas" | ins => "ins" | outs => "outs"
  | jmp => "jmp" | jmpf => "jmpf" | call => "call" | callf => "callf"
  | ret => "ret" | retf => "retf" | iret => "iret"
  | jcc => "jcc" | jcxz => "jcxz" | loop => "loop" | loope => "loope" | loopne => "loopne"
  | int => "int" | into => "into" | bound => "bound"
  | input => "in" | output => "out"
  | clc => "clc" | stc => "stc" | cmc => "cmc" | cld => "cld" | std => "std"
  | cli => "cli" | sti => "sti"
  | nop => "nop" | hlt => "hlt" | wait => "wait"
  | esc => "esc" | switch => "switch" | words2dword => "words2dword"

def all : List Mnemonic :=
  [add, adc, sub, sbb, cmp, and, or, xor, test,
   inc, dec, neg, not, mul, imul, div, idiv,
   daa, das, aaa, aas, aam, aad, cbw, cwd,
   rol, ror, rcl, rcr, shl, shr, sar,
   mov, xchg, lea, lds, les, xlat, lahf, sahf,
   push, pop, pusha, popa, pushf, popf, enter, leave,
   movs, cmps, stos, lods, scas, ins, outs,
   jmp, jmpf, call, callf, ret, retf, iret,
   jcc, jcxz, loop, loope, loopne,
   int, into, bound, input, output,
   clc, stc, cmc, cld, std, cli, sti,
   nop, hlt, wait, esc, switch, words2dword]

/-- The place of an operation in the list of all. -/
def number (m : Mnemonic) : Nat := all.idxOf m

end Mnemonic

/-! ### Profiles -/

/-- What kind of work an operation does. -/
inductive Category where
  | arithmetic | logic | shift | data | stack | string | flow
  | interrupt | inputOutput | flag | misc | coprocessor | synthetic
deriving DecidableEq, Repr

/-- How an operation uses an operand. -/
inductive Access where
  /-- Not at all: a condition or the entry of a jump table. -/
  | label
  | read
  | write
  | update
  /-- Only the address of the operand is formed. -/
  | address
deriving DecidableEq, Repr

/-- What is known of an operation before its operands are. -/
structure Profile where
  category : Category
  flags : FlagEffects
  /-- The flags that are read whatever the operands are. -/
  reads : FlagSet
  /-- The accepted lists of operand uses, at most one for each number of operands. -/
  forms : List (List Access)
deriving DecidableEq, Repr

namespace Profile

/-- A profile that neither reads nor writes flags. -/
def silent (category : Category) (forms : List (List Access)) : Profile where
  category
  flags := .none
  reads := ∅
  forms

/-- A profile that writes flags and reads none. -/
def writing (category : Category) (flags : FlagEffects) (forms : List (List Access)) :
    Profile where
  category
  flags
  reads := ∅
  forms

/-- A profile that reads flags and writes none. -/
def reading (category : Category) (reads : FlagSet) (forms : List (List Access)) :
    Profile where
  category
  flags := .none
  reads
  forms

/-- The same profile, reading the carry flag too. -/
def withCarry (p : Profile) : Profile := { p with reads := .carry }

/-! #### Uses of operands -/

def nullary : List (List Access) := [[]]
def reads1 : List (List Access) := [[.read]]
def writes1 : List (List Access) := [[.write]]
def updates1 : List (List Access) := [[.update]]
def binary : List (List Access) := [[.update, .read]]
def compare : List (List Access) := [[.read, .read]]
def move : List (List Access) := [[.write, .read]]
def optional : List (List Access) := [[], [.read]]

/-! #### Effects on the flags -/

/-- Every flag follows the result. -/
def arith : FlagEffects := .modifies .status

/-- Carry and overflow are cleared, the other flags follow the result. -/
def bitwise : FlagEffects := { cleared := .carryOverflow, modified := .result }

/-- Every flag but carry follows the result. -/
def counting : FlagEffects := .modifies (.result ∪ .of [.overflow])

/-- Carry and overflow tell whether the product fits. -/
def multiplying : FlagEffects := { modified := .carryOverflow, undefined := .result }

/-- Nothing is left to rely on. -/
def dividing : FlagEffects := { undefined := .status }

/-- Packed decimal adjustment leaves overflow undefined. -/
def decimal : FlagEffects :=
  { modified := .result ∪ .carry, undefined := .of [.overflow] }

/-- Unpacked decimal adjustment keeps only carry. -/
def unpacked : FlagEffects :=
  { modified := .carry, undefined := .result ∪ .of [.overflow] }

/-- Unpacked decimal products and quotients keep only the result flags. -/
def unpackedProduct : FlagEffects :=
  { modified := .result, undefined := .carryOverflow }

/-- Rotations touch carry and overflow alone. -/
def rotating : FlagEffects := .modifies .carryOverflow

end Profile

open Profile in
/-- The profile of an operation. -/
def Mnemonic.profile : Mnemonic → Profile
  | add | sub => writing .arithmetic arith binary
  | adc | sbb => (writing .arithmetic arith binary).withCarry
  | cmp => writing .arithmetic arith compare
  | and | or | xor => writing .logic bitwise binary
  | test => writing .logic bitwise compare
  | inc | dec => writing .arithmetic counting updates1
  | neg => writing .arithmetic arith updates1
  | not => silent .logic updates1
  | mul => writing .arithmetic multiplying reads1
  | imul => writing .arithmetic multiplying [[.read], [.update, .read], [.write, .read, .read]]
  | div | idiv => writing .arithmetic dividing reads1
  | daa | das => (writing .arithmetic decimal nullary).withCarry
  | aaa | aas => writing .arithmetic unpacked nullary
  | aam | aad => writing .arithmetic unpackedProduct optional
  | cbw | cwd => silent .arithmetic nullary
  | rol | ror => writing .shift rotating binary
  | rcl | rcr => (writing .shift rotating binary).withCarry
  | shl | shr | sar => writing .shift arith binary
  | mov | lds | les => silent .data move
  | xchg => silent .data [[.update, .update]]
  | lea => silent .data [[.write, .address]]
  | xlat => silent .data nullary
  | lahf => reading .data (.result ∪ .carry) nullary
  | sahf => writing .data (.modifies (.result ∪ .carry)) nullary
  | push => silent .stack reads1
  | pop => silent .stack writes1
  | pusha | popa | leave => silent .stack nullary
  | pushf => reading .stack .status nullary
  | popf => writing .stack arith nullary
  | enter => silent .stack compare
  | movs | stos | lods | ins | outs => silent .string nullary
  | cmps | scas => writing .string arith nullary
  | jmp | jmpf | call | callf | jcxz | loop => silent .flow reads1
  | ret | retf => silent .flow optional
  | iret => writing .flow arith nullary
  | jcc => silent .flow [[.label, .read]]
  | loope | loopne => reading .flow (.of [.zero]) reads1
  | int => silent .interrupt reads1
  | into => reading .interrupt (.of [.overflow]) nullary
  | bound => silent .interrupt compare
  | input => silent .inputOutput move
  | output => silent .inputOutput compare
  | clc => writing .flag { cleared := .carry } nullary
  | stc => writing .flag { set := .carry } nullary
  | cmc => (writing .flag (.modifies .carry) nullary).withCarry
  | cld | std | cli | sti => silent .flag nullary
  | nop | hlt | wait => silent .misc nullary
  | esc => silent .coprocessor compare
  | switch => silent .synthetic reads1
  | words2dword => silent .synthetic [[.write, .write, .read]]

namespace Mnemonic

/-- The effect of an operation on the flags. -/
def flags (m : Mnemonic) : FlagEffects := m.profile.flags

/-- How operand `index` of `arity` is used, if the operation takes that many operands. A
    switch takes its index register and any number of table entries. -/
def role? (m : Mnemonic) (index arity : Nat) : Option Access :=
  if m = .switch then
    if index = 0 then some .read else if index < arity then some .label else none
  else do
    let form ← m.profile.forms.find? (·.length == arity)
    form[index]?

/-! ### Kinds of operation -/

def isConditionalBranch (m : Mnemonic) : Bool :=
  m matches .jcc | .jcxz | .loop | .loope | .loopne

def isReturn (m : Mnemonic) : Bool := m matches .ret | .retf | .iret

def isJump (m : Mnemonic) : Bool := m matches .jmp | .jmpf

def isCall (m : Mnemonic) : Bool := m matches .call | .callf

def isString (m : Mnemonic) : Bool := m.profile.category == .string

end Mnemonic

end RealMode
