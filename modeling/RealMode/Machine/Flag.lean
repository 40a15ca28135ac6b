import RealMode.BitSet

namespace RealMode

/-!
# Status flags

* `Flag` — the five tracked arithmetic flags, `FlagSet` a set of them;
* `FlagEffects` — what an instruction does to the flags, and `FlagEffects.written`, every
  flag it touches in any way;
* `Condition` — the conditions of a conditional branch, each with the flags it tests.
-/

/-- An arithmetic status flag. -/
inductive Flag where
  | carry
  | parity
  | zero
  | sign
  | overflow
deriving DecidableEq, Repr

namespace Flag

def all : List Flag := [carry, parity, zero, sign, overflow]

/-- The bit of a flag in a `FlagSet`. -/
def index : Flag → Nat
  | carry => 0
  | parity => 1
  | zero => 2
  | sign => 3
  | overflow => 4

end Flag

/-- A set of status flags. -/
abbrev FlagSet := BitSet 5

namespace FlagSet

/-- The set of the listed flags. -/
def of (flags : List Flag) : FlagSet := flags.foldl (fun s f => s ∪ BitSet.single f.index) ∅

instance : Membership Flag FlagSet := ⟨fun s f => s.has f.index = true⟩

instance (f : Flag) (s : FlagSet) : Decidable (f ∈ s) :=
  inferInstanceAs (Decidable (s.has f.index = true))

/-- The carry flag alone. -/
def carry : FlagSet := of [.carry]

/-- Carry and overflow. -/
def carryOverflow : FlagSet := of [.carry, .overflow]

/-- The flags that describe a result: parity, zero and sign. -/
def result : FlagSet := of [.parity, .zero, .sign]

/-- Every tracked flag. -/
def status : FlagSet := of Flag.all

end FlagSet

/-! ### Effects -/

/-- What one instruction does to the flags. -/
structure FlagEffects where
  cleared : FlagSet := ∅
  set : FlagSet := ∅
  modified : FlagSet := ∅
  undefined : FlagSet := ∅
deriving DecidableEq, Repr

namespace FlagEffects

/-- No flag is touched. -/
def none : FlagEffects := {}

/-- The given flags follow the result. -/
def modifies (flags : FlagSet) : FlagEffects := { modified := flags }

/-- Every flag that is touched in any way. -/
def written (e : FlagEffects) : FlagSet := e.cleared ∪ e.set ∪ e.modified ∪ e.undefined

/-- Whether no flag is touched. -/
def isEmpty (e : FlagEffects) : Bool := e.written.isEmpty

end FlagEffects

/-! ### Conditions -/

/-- A branch condition, in encoding order. -/
inductive Condition where
  | o | no | b | ae | e | ne | be | a
  | s | ns | p | np | l | ge | le | g
deriving DecidableEq, Repr

namespace Condition

def all : List Condition := [o, no, b, ae, e, ne, be, a, s, ns, p, np, l, ge, le, g]

/-- The condition with a four-bit code. -/
def ofCode (code : Fin 16) : Condition := all.get (code.cast (by rfl))

def name : Condition → String
  | o => "o"
  | no => "no"
  | b => "b"
  | ae => "ae"
  | e => "e"
  | ne => "ne"
  | be => "be"
  | a => "a"
  | s => "s"
  | ns => "ns"
  | p => "p"
  | np => "np"
  | l => "l"
  | ge => "ge"
  | le => "le"
  | g => "g"

/-- The flags that decide whether the condition holds. -/
def tests : Condition → FlagSet
  | o | no => .of [.overflow]
  | b | ae => .of [.carry]
  | e | ne => .of [.zero]
  | be | a => .of [.carry, .zero]
  | s | ns => .of [.sign]
  | p | np => .of [.parity]
  | l | ge => .of [.sign, .overflow]
  | le | g => .of [.zero, .sign, .overflow]

end Condition

end RealMode
