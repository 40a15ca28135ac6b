import Std.Data.ExtTreeMap
import Std.Data.ExtTreeSet

namespace RealMode

/-!
# Tables and sets of linear addresses

Both are kept in ascending order, and two of them are equal as soon as they hold the same
things, however they were filled.
-/

/-- A table keyed by linear addresses. -/
abbrev AddressMap (α : Type) := Std.ExtTreeMap Nat α

/-- What a table holds, in the order of the addresses. -/
def AddressMap.items {α : Type} (m : AddressMap α) : List α := m.toList.map (·.2)

/-- A set of linear addresses. -/
abbrev AddressSet := Std.ExtTreeSet Nat

end RealMode
