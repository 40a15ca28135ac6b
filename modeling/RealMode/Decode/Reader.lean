import RealMode.Machine.Word

namespace RealMode

/-!
# Reading bytes one by one

* `Reader α` — a reading of some bytes, each choosing how to go on, that ends in an `α`;
* `Reader.run` — performs a reading on a list of bytes; it gives the result with the
  number of bytes read, or nothing if the bytes run out.

A reading sees only the bytes it takes, so what follows them never matters:
`Reader.run_append`. And it takes no fewer than it says: `Reader.run_take`.
-/

/-- A reading of bytes. -/
inductive Reader (α : Type) where
  | done (a : α)
  | next (k : UInt8 → Reader α)

namespace Reader

variable {α β : Type}

/-- One reading after another. -/
def bind : Reader α → (α → Reader β) → Reader β
  | .done a, f => f a
  | .next k, f => .next fun b => (k b).bind f

instance : Monad Reader where
  pure := .done
  bind := bind

/-- One byte. -/
def byte : Reader UInt8 := .next .done

/-- A word, low byte first. -/
def word : Reader UInt16 := do
  let low ← byte
  let high ← byte
  return littleEndian low high

/-- A byte as a signed number. -/
def signedByte : Reader Int16 := do return (← byte).toInt8.toInt16

/-- Performs a reading; the second part of the result counts the bytes taken. -/
def run : Reader α → List UInt8 → Option (α × Nat)
  | .done a, _ => some (a, 0)
  | .next _, [] => none
  | .next k, b :: bs => ((k b).run bs).map fun (a, n) => (a, n + 1)

/-! ### What a reading depends on -/

/-- The bytes behind those taken do not matter, so an instruction is decoded in the same way
    whatever stands behind it. -/
theorem run_append {r : Reader α} {bs : List UInt8} {a : α} {n : Nat}
    (h : r.run bs = some (a, n)) (rest : List UInt8) : r.run (bs ++ rest) = some (a, n) := by
  induction r generalizing bs n with
  | done _ => simpa [run] using h
  | next k ih =>
    cases bs with
    | nil => simp [run] at h
    | cons b bs =>
      simp only [run, List.cons_append, Option.map_eq_some_iff] at h ⊢
      obtain ⟨⟨a', m⟩, hr, he⟩ := h
      simp only [Prod.mk.injEq] at he
      obtain ⟨rfl, rfl⟩ := he
      exact ⟨(a', m), ih b hr, rfl⟩

/-- The bytes taken suffice: a reading that has come to a result has seen no more than it counts. -/
theorem run_take {r : Reader α} {bs : List UInt8} {a : α} {n : Nat}
    (h : r.run bs = some (a, n)) : n ≤ bs.length ∧ r.run (bs.take n) = some (a, n) := by
  induction r generalizing bs n with
  | done _ =>
    simp only [run, Option.some.injEq, Prod.mk.injEq] at h
    obtain ⟨rfl, rfl⟩ := h
    simp [run]
  | next k ih =>
    cases bs with
    | nil => simp [run] at h
    | cons b bs =>
      simp only [run, Option.map_eq_some_iff] at h
      obtain ⟨⟨a', m⟩, hr, he⟩ := h
      simp only [Prod.mk.injEq] at he
      obtain ⟨rfl, rfl⟩ := he
      obtain ⟨hle, ht⟩ := ih b hr
      refine ⟨by simpa using hle, ?_⟩
      simp [run, ht]

end Reader

end RealMode
