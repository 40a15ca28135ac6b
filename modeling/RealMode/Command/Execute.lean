import RealMode.Command.Arguments
import RealMode.Report.Dump
import RealMode.Report.Listing
import RealMode.Survey

namespace RealMode.Command

/-!
# Executing a command line

* `Outcome` — exit code, lines of output, lines of the report on failures;
* `execute` — what a command line leads to, given the files it can read.

A file that cannot be loaded gives exit code 1 and nothing else. Functions that cannot be
analyzed are reported, and give exit code 1 too.
-/

/-- What a command leads to. -/
structure Outcome where
  exitCode : UInt8
  output : List String := []
  report : List String := []
deriving DecidableEq, Repr

/-- The name and version of the program. -/
def versionLine : String := "dosdc 0.1.0"

/-- What a request for help is answered with. -/
def helpLines : List String :=
  ["Recovers control flow from MZ and COM executables",
   "",
   "Usage: dosdc [-v | -s] <disasm | cfg> <FILE> [OPTIONS]",
   "",
   "Commands:",
   "  disasm              Disassemble functions and print their sorted listings",
   "  cfg                 Build flow graphs and print nodes with required/defined locals",
   "",
   "Options:",
   "  --entry <SEG:OFF>   Function entry as hex SEG:OFF (repeatable; default: program entry)",
   "  --fuse-dword-loads  Fuse adjacent word loads into dword loads",
   "  --max-cases <N>     Reject jump tables with more cases than this [default: 256]",
   "  --no-follow-calls   Analyze only the given entries, not their callees",
   "  --liveness          Also print whole-function liveness per node (cfg)",
   "  -v, --verbose       Enable verbose output",
   "  -s, --silent        Suppress output (only show errors)",
   "  -h, --help          Print help",
   "  -V, --version       Print version"]

/-- What is printed of a function. -/
def View.lines (v : View) (f : AnalyzedFunction) : List String :=
  match v with
  | .listing => f.disassembly.listingLines
  | .graph liveness =>
    f.graph.dumpLines (if liveness then some (Liveness.compute f.graph) else none)

namespace Invocation

/-- The survey of a loaded program. -/
def survey (i : Invocation) (image : Image) : Option Survey :=
  let s : Survey := {
    image
    options := { maxCases := i.maxCases, fuseDwordLoads := i.fuseDwordLoads }
    followCalls := i.followCalls }
  s.run (if i.entries.isEmpty then [image.entry] else i.entries)

/-- The printed functions, each followed by an empty line. -/
def outputLines (i : Invocation) (s : Survey) : List String :=
  s.functions.items.flatMap fun f => i.view.lines f ++ [""]

end Invocation

/-- The failures, and the number of jumps that were not followed. -/
def reportLines (s : Survey) : List String :=
  let unresolved := s.stats.unresolved
  s.failures.map (fun f => "✗ " ++ f.entry.text ++ ": " ++ f.error.message) ++
    (if unresolved = 0 then [] else ["  " ++ toString unresolved ++ " unresolved indirect jumps"])

/-- What a survey leads to. -/
def Invocation.outcome (i : Invocation) (s : Survey) : Outcome where
  exitCode := if s.failures.isEmpty then 0 else 1
  output := i.outputLines s
  report := reportLines s

/-- What a command line leads to, if it leads to anything; `read` gives the bytes of a
    file. -/
def execute (read : String → Option (List UInt8)) (args : List String) : Option Outcome :=
  match Invocation.parse args with
  | .error .help => some { exitCode := 0, output := helpLines }
  | .error .version => some { exitCode := 0, output := [versionLine] }
  | .error .misuse => some { exitCode := 2 }
  | .ok i =>
    match read i.file with
    | none => some { exitCode := 1 }
    | some bytes =>
      match Image.parse bytes with
      | .error _ => some { exitCode := 1 }
      | .ok image => (i.survey image).map i.outcome

end RealMode.Command
