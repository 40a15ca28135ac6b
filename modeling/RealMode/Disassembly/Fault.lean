import RealMode.Decode.Basic

namespace RealMode

open Text

/-!
# Why a function cannot be analyzed

* `Fault` — what went wrong, `Fault.message` how it is told;
* `FlowError` — a fault with the entry of the function it stopped.
-/

/-- What went wrong in the analysis of a function. -/
inductive Fault where
  /-- A byte that is needed is not in the image. -/
  | outOfBounds (linear : Nat)
  | undecodable (linear : Nat) (cause : DecodeError)
  /-- Control goes to a place where no instruction was decoded. -/
  | unresolvedFlow (linear target : Nat)
  | tooManyCases (linear : Nat) (count limit : Nat)
  | instructionLimit (limit : Nat)
deriving DecidableEq, Repr

/-- How a fault is told. -/
def Fault.message : Fault → String
  | .outOfBounds linear => "address " ++ Hex.linear.render linear ++ " is outside the image"
  | .undecodable linear cause =>
    "cannot decode at " ++ Hex.linear.render linear ++ ": " ++ cause.message
  | .unresolvedFlow linear target =>
    "target " ++ Hex.linear.render target ++ " of instruction at " ++ Hex.linear.render linear ++
      " is not a decoded instruction"
  | .tooManyCases linear count limit =>
    "dispatch at " ++ Hex.linear.render linear ++ ": " ++ toString count ++
      " cases exceed the limit of " ++ toString limit
  | .instructionLimit limit => "more than " ++ toString limit ++ " instructions"

/-- A fault in the analysis of the function at `entry`. -/
structure FlowError where
  entry : Address
  fault : Fault
deriving DecidableEq, Repr

/-- How the fault of a function is told. -/
def FlowError.message (e : FlowError) : String :=
  "function " ++ e.entry.text ++ ": " ++ e.fault.message

end RealMode
