import RealMode.Machine.Address
import RealMode.Machine.AddressMap

namespace RealMode

/-!
# Visited places

* `Visited` — a set of linear addresses, each of which some address names;
* `Visited.left` — how many linear addresses are left to be visited. There are only so many
  (`size_le_of_forall_lt`), so visiting a new one leaves fewer: `Visited.left_insert`.
-/

/-! ### Counting -/

/-- Increasing numbers between `k` and `n` are no more than the numbers between them. -/
theorem length_le_of_increasing {l : List Nat} {k n : Nat} (hl : l.Pairwise (· < ·))
    (hlow : ∀ a ∈ l, k ≤ a) (hhigh : ∀ a ∈ l, a < n) : l.length ≤ n - k := by
  induction l generalizing k with
  | nil => simp
  | cons a l ih =>
    rw [List.pairwise_cons] at hl
    have hk := hlow a List.mem_cons_self
    have hn := hhigh a List.mem_cons_self
    have hrest : l.length ≤ n - (a + 1) :=
      ih hl.2 (fun b hb => hl.1 b hb) fun b hb => hhigh b (List.mem_cons_of_mem a hb)
    rw [List.length_cons]
    omega

/-- A set of numbers below `n` has at most `n` members, since its members stand in increasing
    order. -/
theorem size_le_of_forall_lt {s : AddressSet} {n : Nat} (h : ∀ a ∈ s, a < n) : s.size ≤ n := by
  have hsorted : s.toList.Pairwise (· < ·) :=
    Std.ExtTreeSet.ordered_toList.imp fun hab => Nat.compare_eq_lt.1 hab
  rw [← Std.ExtTreeSet.length_toList]
  exact length_le_of_increasing hsorted (fun _ _ => Nat.zero_le _)
    fun a ha => h a (Std.ExtTreeSet.mem_toList.1 ha)

/-! ### Visited places -/

/-- A set of visited places. -/
structure Visited where
  places : AddressSet := ∅
  places_lt : ∀ a ∈ places, a < Address.linearBound := by simp

namespace Visited

/-- No place is visited. -/
def empty : Visited := {}

/-- Whether the place that an address names is visited. -/
def contains (v : Visited) (a : Address) : Bool := v.places.contains a.linear

/-- Visits the place that an address names. -/
def insert (v : Visited) (a : Address) : Visited where
  places := v.places.insert a.linear
  places_lt := by
    intro b hb
    rcases Std.ExtTreeSet.mem_insert.1 hb with h | h
    · rw [← Nat.compare_eq_eq.1 h]
      exact a.linear_lt
    · exact v.places_lt b h

/-- How many linear addresses are left. -/
def left (v : Visited) : Nat := Address.linearBound - v.places.size

/-- Visiting a new place leaves fewer to be visited, which is why waves of new places come to an
    end. -/
theorem left_insert {v : Visited} {a : Address} (h : ¬ v.contains a) :
    (v.insert a).left < v.left := by
  have hle := size_le_of_forall_lt (v.insert a).places_lt
  have hsize : (v.insert a).places.size = v.places.size + 1 := by
    show (v.places.insert a.linear).size = _
    rw [Std.ExtTreeSet.size_insert, if_neg]
    simpa [contains] using h
  unfold left
  omega

end Visited

end RealMode
