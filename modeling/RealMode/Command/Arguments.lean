import RealMode.Machine.Address

namespace RealMode.Command

/-!
# The arguments of the command line

A command line has global switches, a command, and the options and file of that command:

    [-v | -s] (disasm | cfg) FILE [--entry SEG:OFF]... [--max-cases N] [--fuse-dword-loads]
      [--no-follow-calls] [--liveness]

* `Token` — an argument by its shape;
* `Invocation` — what a command line asks for;
* `Interruption` — why there is nothing to run: a request for help or for the version, or a
  mistake. Arguments are read from left to right, and the first interruption counts;
* `Invocation.parse` — reads a command line.
-/

/-! ### Shapes of arguments -/

/-- An argument by its shape. -/
inductive Token where
  /-- `--`: everything behind it is a value. -/
  | escape
  /-- `--name` or `--name=value`. -/
  | long (name : String) (value : Option String)
  /-- `-abc`: one-letter switches. -/
  | short (letters : List Char)
  | value (text : String)
deriving DecidableEq, Repr

/-- The shape of an argument. A dash alone is a value. -/
def Token.ofString (s : String) : Token :=
  match s.toList with
  | '-' :: '-' :: cs =>
    if cs.isEmpty then .escape
    else
      match cs.dropWhile (· != '=') with
      | [] => .long (String.ofList cs) none
      | _ :: text => .long (String.ofList (cs.takeWhile (· != '='))) (some (String.ofList text))
  | '-' :: c :: cs => .short (c :: cs)
  | _ => .value s

/-! ### Command lines -/

/-- What a command prints of a function. -/
inductive View where
  /-- Its listing. -/
  | listing
  /-- Its flow graph, with live locals on demand. -/
  | graph (liveness : Bool)
deriving DecidableEq, Repr

/-- What a command line asks for. -/
structure Invocation where
  view : View
  file : String
  /-- The functions to start from; none for the entry of the program. -/
  entries : List Address
  fuseDwordLoads : Bool
  maxCases : UInt16
  followCalls : Bool
deriving DecidableEq, Repr

/-- Why there is nothing to run. -/
inductive Interruption where
  | help
  | version
  | misuse
deriving DecidableEq, Repr

/-- The global switches of one level of the command line. They exclude each other. -/
structure Verbosity where
  verbose : Bool := false
  silent : Bool := false
deriving DecidableEq, Repr

/-- The arguments of a command as far as they are read. -/
structure Draft where
  file : Option String := none
  entries : List Address := []
  fuseDwordLoads : Bool := false
  maxCases : Option UInt16 := none
  noFollowCalls : Bool := false
  liveness : Bool := false
  verbosity : Verbosity := {}
deriving DecidableEq, Repr

/-- The commands. -/
inductive Verb where
  | disasm
  | cfg
deriving DecidableEq, Repr

/-- The bound on table sizes if none is given. -/
def defaultMaxCases : UInt16 := 256

/-! ### Values -/

/-- Reads a sum of decimal digits onto `acc`. -/
def readDecimalOnto? (acc : Nat) : List Char → Option Nat
  | [] => some acc
  | c :: cs => if c.isDigit then readDecimalOnto? (acc * 10 + (c.toNat - '0'.toNat)) cs else none

/-- Reads a nonempty run of decimal digits. -/
def readDecimal? : List Char → Option Nat
  | [] => none
  | cs => readDecimalOnto? 0 cs

/-- Reads a number of cases: a decimal number with at most a sign, below 65536. -/
def readCases? (s : String) : Option UInt16 := do
  let n ← match s.toList with
    | '+' :: cs => readDecimal? cs
    | '-' :: cs => (readDecimal? cs).filter (· == 0)
    | cs => readDecimal? cs
  if n < 65536 then some (UInt16.ofNat n) else none

/-! ### Switches -/

/-- Sets a switch that may be given once. -/
def once (given : Bool) : Except Interruption Bool := if given then .error .misuse else .ok true

namespace Verbosity

/-- Reads a one-letter switch that both levels have. -/
def letter (v : Verbosity) : Char → Except Interruption Verbosity
  | 'v' => do return { v with verbose := ← once v.verbose }
  | 's' => do return { v with silent := ← once v.silent }
  | 'h' => .error .help
  | _ => .error .misuse

/-- Reads a long switch that both levels have. -/
def long (v : Verbosity) : String → Except Interruption Verbosity
  | "verbose" => do return { v with verbose := ← once v.verbose }
  | "silent" => do return { v with silent := ← once v.silent }
  | "help" => .error .help
  | _ => .error .misuse

/-- Whether the switches exclude each other. -/
def isConflict (v : Verbosity) : Bool := v.verbose && v.silent

end Verbosity

/-! ### Arguments of a command -/

namespace Draft

/-- Takes the file, of which there is one, with a name that is not empty. -/
def takeFile (d : Draft) (s : String) : Except Interruption Draft :=
  if d.file.isSome || s.isEmpty then .error .misuse else .ok { d with file := some s }

/-- Takes the value of an option. -/
def takeOption (d : Draft) (name value : String) : Except Interruption Draft :=
  match name with
  | "entry" =>
    match Address.parse value with
    | .ok a => .ok { d with entries := d.entries ++ [a] }
    | .error _ => .error .misuse
  | "max-cases" =>
    match d.maxCases, readCases? value with
    | none, some n => .ok { d with maxCases := some n }
    | _, _ => .error .misuse
  | _ => .error .misuse

/-- Takes a switch. -/
def takeSwitch (verb : Verb) (d : Draft) (name : String) : Except Interruption Draft :=
  match name with
  | "fuse-dword-loads" => do return { d with fuseDwordLoads := ← once d.fuseDwordLoads }
  | "no-follow-calls" => do return { d with noFollowCalls := ← once d.noFollowCalls }
  | "liveness" =>
    if verb = .cfg then do return { d with liveness := ← once d.liveness } else .error .misuse
  | _ => do return { d with verbosity := ← d.verbosity.long name }

/-- Whether an option is followed by its value. -/
def needsValue (name : String) : Bool := name == "entry" || name == "max-cases"

/-- Takes the arguments of a command. -/
def takeAll (verb : Verb) (d : Draft) : List String → Except Interruption Draft
  | [] => .ok d
  | s :: rest =>
    match Token.ofString s with
    | .escape => rest.foldlM takeFile d
    | .value text => do takeAll verb (← d.takeFile text) rest
    | .short letters => do
      takeAll verb { d with verbosity := ← letters.foldlM Verbosity.letter d.verbosity } rest
    | .long name (some value) => do
      if needsValue name then takeAll verb (← d.takeOption name value) rest else .error .misuse
    | .long name none =>
      if needsValue name then
        match rest with
        | [] => .error .misuse
        | v :: rest =>
          match Token.ofString v with
          | .value text => do takeAll verb (← d.takeOption name text) rest
          | _ => .error .misuse
      else do takeAll verb (← d.takeSwitch verb name) rest

/-- What a complete draft asks for. -/
def invocation (verb : Verb) (d : Draft) : Except Interruption Invocation :=
  match d.file with
  | none => .error .misuse
  | some file =>
    if d.verbosity.isConflict then .error .misuse
    else .ok {
      view := match verb with
        | .disasm => .listing
        | .cfg => .graph d.liveness
      file
      entries := d.entries
      fuseDwordLoads := d.fuseDwordLoads
      maxCases := d.maxCases.getD defaultMaxCases
      followCalls := !d.noFollowCalls }

end Draft

/-! ### Whole command lines -/

/-- Reads the command and what follows it. -/
def takeVerb (name : String) (rest : List String) : Except Interruption Invocation :=
  match name with
  | "disasm" => do (← Draft.takeAll .disasm {} rest).invocation .disasm
  | "cfg" => do (← Draft.takeAll .cfg {} rest).invocation .cfg
  | "help" =>
    match rest with
    | [] | ["disasm"] | ["cfg"] | ["help"] => .error .help
    | _ => .error .misuse
  | _ => .error .misuse

/-- Reads a command line behind the global switches `v`. -/
def takeGlobal (v : Verbosity) : List String → Except Interruption Invocation
  | [] => .error .misuse
  | s :: rest =>
    match Token.ofString s with
    | .escape => .error .misuse
    | .value name => do
      let invocation ← takeVerb name rest
      if v.isConflict then .error .misuse else return invocation
    | .short letters => do
      let v ← letters.foldlM
        (fun v c => if c = 'V' then .error .version else Verbosity.letter v c) v
      takeGlobal v rest
    | .long "version" none => .error .version
    | .long name none => do takeGlobal (← v.long name) rest
    | .long _ (some _) => .error .misuse

/-- Reads a command line. -/
def Invocation.parse (args : List String) : Except Interruption Invocation := takeGlobal {} args

end RealMode.Command
