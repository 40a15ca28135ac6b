namespace RealMode

/-!
# Sets of small numbers as bit vectors

* `BitSet n` — a set of numbers below `n`, one bit for each;
* `BitSet.has` — the membership test, through which every operation is described;
* `BitSet.ofBits` / `BitSet.toBits` — conversion from and to a number; bits that
  stand for nothing are dropped.

The lemmas `has_union`, `has_sdiff`, … say what each operation does to membership, and
`BitSet.ext_has` says that membership is all there is to a set.
-/

/-- A set of numbers below `n`. -/
structure BitSet (n : Nat) where
  bits : BitVec n
deriving DecidableEq, Repr

namespace BitSet

variable {n : Nat}

/-- Whether `i` is in the set. -/
def has (s : BitSet n) (i : Nat) : Bool := s.bits.getLsbD i

/-- The set of the bits of `m` that stand for a number below `n`. -/
def ofBits (m : Nat) : BitSet n := ⟨BitVec.ofNat n m⟩

/-- The set as a number. -/
def toBits (s : BitSet n) : Nat := s.bits.toNat

/-- The set that holds `i` alone. -/
def single (i : Nat) : BitSet n := ⟨BitVec.twoPow n i⟩

instance : EmptyCollection (BitSet n) := ⟨⟨0#n⟩⟩

instance : Inhabited (BitSet n) := ⟨∅⟩

instance : Union (BitSet n) := ⟨fun a b => ⟨a.bits ||| b.bits⟩⟩

instance : Inter (BitSet n) := ⟨fun a b => ⟨a.bits &&& b.bits⟩⟩

instance : SDiff (BitSet n) := ⟨fun a b => ⟨a.bits &&& ~~~b.bits⟩⟩

/-- The numbers below `n` that are not in the set. -/
def complement (s : BitSet n) : BitSet n := ⟨~~~s.bits⟩

/-- Whether the set has no member. -/
def isEmpty (s : BitSet n) : Bool := s == ∅

/-- Whether every member of `b` is one of `a`. -/
def includes (a b : BitSet n) : Bool := a ∩ b == b

/-- Whether the sets have a common member. -/
def meets (a b : BitSet n) : Bool := !(a ∩ b).isEmpty

/-! ### Membership -/

/-- Sets with the same members are equal. Only the numbers below `n` count, since no other number is
    ever a member. -/
theorem ext_has {a b : BitSet n} (h : ∀ i, i < n → a.has i = b.has i) : a = b := by
  cases a
  cases b
  exact congrArg mk (BitVec.eq_of_getLsbD_eq h)

/-- The empty set has no members. With the three lemmas below, every question about a set comes down
    to one about the bits of its members. -/
@[simp] theorem has_empty (i : Nat) : (∅ : BitSet n).has i = false := by
  show (0#n).getLsbD i = false
  simp

/-- A number is in a union if it is in one of the two sets. -/
@[simp] theorem has_union (a b : BitSet n) (i : Nat) :
    (a ∪ b).has i = (a.has i || b.has i) := by
  show (a.bits ||| b.bits).getLsbD i = _
  simp [has]

/-- A number is in an intersection if it is in both sets. -/
@[simp] theorem has_inter (a b : BitSet n) (i : Nat) :
    (a ∩ b).has i = (a.has i && b.has i) := by
  show (a.bits &&& b.bits).getLsbD i = _
  simp [has]

/-- A number is in a difference if it is in the first set and not in the second. -/
@[simp] theorem has_sdiff (a b : BitSet n) (i : Nat) :
    (a \ b).has i = (a.has i && !b.has i) := by
  show (a.bits &&& ~~~b.bits).getLsbD i = _
  by_cases h : i < n
  · simp [has, h]
  · simp [has, h, BitVec.getLsbD_of_ge a.bits i (by omega)]

@[simp] theorem union_empty (a : BitSet n) : a ∪ ∅ = a := ext_has fun i _ => by simp

@[simp] theorem empty_union (a : BitSet n) : ∅ ∪ a = a := ext_has fun i _ => by simp

@[simp] theorem empty_sdiff (a : BitSet n) : ∅ \ a = ∅ := ext_has fun i _ => by simp

/-! ### Sets in sets -/

instance : HasSubset (BitSet n) := ⟨fun a b => ∀ i, a.has i = true → b.has i = true⟩

/-- Each set is in itself, so a set that an update leaves alone counts as one that has grown. -/
theorem subset_refl (a : BitSet n) : a ⊆ a := fun _ h => h

/-- The empty set is in every other; this is where sets that only grow may begin. -/
theorem empty_subset (a : BitSet n) : ∅ ⊆ a := by
  intro i h
  rw [has_empty] at h
  cases h

/-- Adding the same members on the left keeps a set in another. -/
theorem union_mono_right {a b : BitSet n} (c : BitSet n) (h : a ⊆ b) : c ∪ a ⊆ c ∪ b := by
  intro i hi
  rw [has_union, Bool.or_eq_true] at hi ⊢
  exact hi.imp_right (h i)

/-- Taking away the same members keeps a set in another. -/
theorem sdiff_mono_left {a b : BitSet n} (c : BitSet n) (h : a ⊆ b) : a \ c ⊆ b \ c := by
  intro i hi
  rw [has_sdiff, Bool.and_eq_true] at hi ⊢
  exact hi.imp_left (h i)

/-- A set in another one adds nothing to it. -/
theorem union_eq_right_of_subset {a b : BitSet n} (h : a ⊆ b) : a ∪ b = b := by
  apply ext_has
  intro i _
  rw [has_union]
  cases ha : a.has i with
  | false => rfl
  | true => rw [h i ha, Bool.or_self]

/-! ### Size -/

/-- Adding members never makes the number of a set smaller, because a bit that is set stays set. -/
theorem toBits_le_union (a b : BitSet n) : a.toBits ≤ (a ∪ b).toBits := by
  show a.bits.toNat ≤ (a.bits ||| b.bits).toNat
  rw [BitVec.toNat_or]
  exact Nat.left_le_or

/-- The number of a set tells sets apart, so that sets can be compared by size. -/
theorem toBits_inj {a b : BitSet n} : a.toBits = b.toBits ↔ a = b := by
  constructor
  · intro h
    cases a
    cases b
    exact congrArg mk (BitVec.eq_of_toNat_eq h)
  · rintro rfl
    rfl

/-- Adding a new member makes the number of a set larger. So a set that grows and grows runs out of
    numbers, which is what ends the loops over sets. -/
theorem toBits_lt_union {a b : BitSet n} (h : a ∪ b ≠ a) : a.toBits < (a ∪ b).toBits :=
  Nat.lt_of_le_of_ne (toBits_le_union a b) fun e => h (toBits_inj.1 e).symm

/-- Adding a new member makes the number of what is missing smaller. -/
theorem toBits_complement_lt {a b : BitSet n} (h : a ∪ b ≠ a) :
    (a ∪ b).complement.toBits < a.complement.toBits := by
  have hlt : a.bits.toNat < (a ∪ b).bits.toNat := toBits_lt_union h
  have hmax := (a ∪ b).bits.isLt
  show (~~~(a ∪ b).bits).toNat < (~~~a.bits).toNat
  rw [BitVec.toNat_not, BitVec.toNat_not]
  omega

/-- In a larger set less is missing: the form in which an update of a set lowers a measure. -/
theorem toBits_complement_lt_of_subset {a b : BitSet n} (h : a ⊆ b) (hne : b ≠ a) :
    b.complement.toBits < a.complement.toBits := by
  have hunion := union_eq_right_of_subset h
  have hlt : (a ∪ b).complement.toBits < a.complement.toBits := by
    apply toBits_complement_lt
    rwa [hunion]
  rwa [hunion] at hlt

end BitSet

end RealMode
