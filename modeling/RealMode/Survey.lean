import RealMode.Disassembly.Finish
import RealMode.FlowGraph.Build
import RealMode.Survey.Visited

namespace RealMode

/-!
# Surveys of whole programs

A survey analyzes functions, and the functions they call, in waves: the callees that one
wave brings to light and that were not seen before are the next wave.

* `AnalyzedFunction` — a function with its disassembly and annotated flow graph;
* `Routine.analyze` — disassembles, builds and annotates one function;
* `Survey` — what is known of a program, `Survey.run` — one run from given entries.

A run ends if the analysis of each function does, because every wave consists of places
that were not visited before (`left_analyzeWave`).
-/

/-! ### Single functions -/

/-- An analyzed function. -/
structure AnalyzedFunction where
  disassembly : Disassembly
  graph : FlowGraph

/-- The entry of an analyzed function. -/
def AnalyzedFunction.entry (f : AnalyzedFunction) : Address := f.disassembly.entry

/-- Why the analysis of a function failed. -/
inductive AnalysisError where
  | flow (e : FlowError)
  | operand (e : UnsupportedOperand)
deriving DecidableEq, Repr

/-- What is said about a failed analysis. -/
def AnalysisError.message : AnalysisError → String
  | .flow e => e.message
  | .operand e => e.message

/-- Analyzes one function; gives nothing if its flow graph is never finished. -/
def Routine.analyze (r : Routine) : Option (Except AnalysisError AnalyzedFunction) :=
  ExceptT.run do
    let disassembly ← r.disassemble.mapError AnalysisError.flow
    let graph ← (ExceptT.mk (FlowGraph.build disassembly)).adapt AnalysisError.flow
    return ⟨disassembly, ← graph.annotate.mapError AnalysisError.operand⟩

/-! ### Surveys -/

/-- A function whose analysis failed. -/
structure Failure where
  entry : Address
  error : AnalysisError
deriving DecidableEq, Repr

/-- What is known of a program. -/
structure Survey where
  image : Image
  options : Options := {}
  templates : List SwitchTemplate := SwitchTemplate.standard
  /-- Whether callees are analyzed too. -/
  followCalls : Bool := true
  /-- The analyzed functions, by the linear addresses of their entries. -/
  functions : AddressMap AnalyzedFunction := ∅
  failures : List Failure := []
  /-- The places of all entries that came up. -/
  visited : Visited := .empty

namespace Survey

/-- The survey with one more template, tried after all others. -/
def addTemplate (s : Survey) (t : SwitchTemplate) : Survey :=
  { s with templates := s.templates ++ [t] }

/-- A function of the program. -/
def routine (s : Survey) (entry : Address) : Routine where
  image := s.image
  entry
  templates := s.templates
  options := s.options

/-- Analyzes one function without taking note of it. -/
def analyze (s : Survey) (entry : Address) : Option (Except AnalysisError AnalyzedFunction) :=
  (s.routine entry).analyze

/-- The analyzed function at an entry. -/
def function? (s : Survey) (entry : Address) : Option AnalyzedFunction :=
  s.functions[entry.linear]?

/-- The entries that were not visited, each of them once, and all that is visited then. -/
def enroll (visited : Visited) : List Address → List Address × Visited
  | [] => ([], visited)
  | a :: as =>
    if visited.contains a then enroll visited as
    else
      let (fresh, visited) := enroll (visited.insert a) as
      (a :: fresh, visited)

/-- The callees of a function that are to be analyzed next. -/
def freshCallees (s : Survey) (f : AnalyzedFunction) : List Address × Visited :=
  if s.followCalls then enroll s.visited f.disassembly.callees else ([], s.visited)

/-- Takes note of the analysis of one function; gives the callees to be analyzed next. -/
def note (s : Survey) (entry : Address) (result : Except AnalysisError AnalyzedFunction) :
    Survey × List Address :=
  match result with
  | .ok f =>
    let (fresh, visited) := s.freshCallees f
    ({ s with visited, functions := s.functions.insert entry.linear f }, fresh)
  | .error error => ({ s with failures := s.failures ++ [⟨entry, error⟩] }, [])

/-- Analyzes a wave of functions; gives the next wave, or nothing if one of the analyses
    does not end. -/
def analyzeWave (s : Survey) : List Address → Option (Survey × List Address)
  | [] => some (s, [])
  | entry :: wave => do
    let (s, fresh) := s.note entry (← s.analyze entry)
    let (s, next) ← s.analyzeWave wave
    return (s, fresh ++ next)

/-! ### Surveys end -/

/-- Every enrolled entry is a place that was not visited before, so it uses up one of those that are
    left. -/
theorem left_enroll (visited : Visited) (as : List Address) :
    (enroll visited as).2.left + (enroll visited as).1.length ≤ visited.left := by
  induction as generalizing visited with
  | nil => exact Nat.le_refl _
  | cons a as ih =>
    unfold enroll
    split
    · exact ih visited
    · rename_i h
      have hins := Visited.left_insert h
      have hrest := ih (visited.insert a)
      simp only [List.length_cons]
      omega

/-- The callees that a result brings to light use up places that were left. -/
theorem left_note (s : Survey) (entry : Address)
    (result : Except AnalysisError AnalyzedFunction) :
    (s.note entry result).1.visited.left + (s.note entry result).2.length ≤ s.visited.left := by
  cases result with
  | error e => exact Nat.le_refl _
  | ok f =>
    simp only [note, freshCallees]
    split
    · exact left_enroll s.visited f.disassembly.callees
    · exact Nat.le_refl _

/-- Every entry of the next wave is a place that was not visited before. So waves use up places, and
    there is a last one. -/
theorem left_analyzeWave {s s' : Survey} {wave next : List Address}
    (h : s.analyzeWave wave = some (s', next)) :
    s'.visited.left + next.length ≤ s.visited.left := by
  induction wave generalizing s s' next with
  | nil =>
    simp only [analyzeWave, Option.some.injEq, Prod.mk.injEq] at h
    obtain ⟨rfl, rfl⟩ := h
    exact Nat.le_refl _
  | cons entry wave ih =>
    simp only [analyzeWave, bind, pure, Option.bind_eq_some_iff, Option.some.injEq,
      Prod.mk.injEq] at h
    obtain ⟨result, _, ⟨s₁, next₁⟩, hwave, rfl, rfl⟩ := h
    have hnote := left_note s entry result
    have hrest := ih hwave
    simp only [List.length_append]
    omega

/-! ### Runs -/

-- `h` is used by `decreasing_by`, which the linter does not see.
set_option linter.unusedVariables false in
/-- Analyzes a wave and the waves it leads to. -/
def runWaves (s : Survey) (wave : List Address) : Option Survey :=
  match h : s.analyzeWave wave with
  | none => none
  | some (s', []) => some s'
  | some (s', entry :: next) => runWaves s' (entry :: next)
termination_by s.visited.left
decreasing_by
  have hwave := left_analyzeWave h
  exact Nat.lt_of_lt_of_le (Nat.lt_add_of_pos_right (Nat.succ_pos _)) hwave

/-- The survey with its failures in the order of their entries. -/
def sortFailures (s : Survey) : Survey :=
  { s with failures := s.failures.mergeSort fun a b => a.entry.linear ≤ b.entry.linear }

/-- Analyzes the functions at the given entries, and those they call if calls are followed.
    Entries that came up before are passed over. Nothing is given if one of the analyses
    does not end. -/
def run (s : Survey) (entries : List Address) : Option Survey :=
  let (wave, visited) := enroll s.visited entries
  ({ s with visited }.runWaves wave).map sortFailures

/-! ### Counts -/

/-- Counts over a survey. -/
structure Stats where
  functions : Nat
  failures : Nat
  instructions : Nat
  nodes : Nat
  switches : Nat
  unresolved : Nat
deriving DecidableEq, Repr

/-- The sum of a count over all functions. -/
def total (s : Survey) (count : AnalyzedFunction → Nat) : Nat :=
  s.functions.items.foldl (fun n f => n + count f) 0

def stats (s : Survey) : Stats where
  functions := s.functions.size
  failures := s.failures.length
  instructions := s.total (·.disassembly.size)
  nodes := s.total (·.graph.size)
  switches := s.total (·.disassembly.switches.length)
  unresolved := s.total (·.disassembly.unresolved.length)

end Survey

end RealMode
