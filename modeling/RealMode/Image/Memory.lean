import RealMode.Machine.Word

namespace RealMode

/-!
# A block of bytes with all its suffixes

Decoding starts at many places of one block and looks as far ahead as it has to, so a
block keeps the list of bytes from each place on. The suffixes share their cells; keeping
them costs one pointer for each byte.

* `Memory` — the block, with `Memory.ofList` to make it;
* `Memory.suffix?` — the bytes from a place to the end, in constant time;
* `Memory.word?` — the word at a place, low byte first.
-/

/-- The suffixes of a list that are not empty, longest first, behind those in `acc`. -/
def suffixesOnto (acc : Array (List UInt8)) : List UInt8 → Array (List UInt8)
  | [] => acc
  | b :: bs => suffixesOnto (acc.push (b :: bs)) bs

/-- There is one suffix for each byte, so the number of suffixes is the size of the block. -/
theorem size_suffixesOnto (acc : Array (List UInt8)) (bs : List UInt8) :
    (suffixesOnto acc bs).size = acc.size + bs.length := by
  induction bs generalizing acc with
  | nil => rfl
  | cons b bs ih =>
    rw [suffixesOnto, ih, Array.size_push, List.length_cons]
    omega

/-- The suffix at a position is what remains of the list when as many bytes are dropped. -/
theorem getElem?_suffixesOnto (acc : Array (List UInt8)) (bs : List UInt8) (i : Nat) :
    (suffixesOnto acc bs)[i]? =
      if i < acc.size then acc[i]?
      else if i - acc.size < bs.length then some (bs.drop (i - acc.size)) else none := by
  induction bs generalizing acc with
  | nil =>
    by_cases h : i < acc.size
    · simp [suffixesOnto, h]
    · simp [suffixesOnto, h]
  | cons b bs ih =>
    rw [suffixesOnto, ih, Array.size_push]
    by_cases h : i < acc.size
    · rw [if_pos h, if_pos (Nat.lt_succ_of_lt h), Array.getElem?_push]
      simp [Nat.ne_of_lt h]
    · by_cases he : i = acc.size
      · subst he
        simp
      · have hs : i - acc.size = i - (acc.size + 1) + 1 := by omega
        rw [if_neg (by omega), if_neg h, hs]
        simp

/-- A block of bytes. -/
structure Memory where
  bytes : List UInt8
  /-- The bytes from each place on. -/
  suffixes : Array (List UInt8)
  suffixes_eq : suffixes = suffixesOnto #[] bytes

namespace Memory

/-- The block of the listed bytes. -/
def ofList (bytes : List UInt8) : Memory := ⟨bytes, suffixesOnto #[] bytes, rfl⟩

/-- The number of bytes. -/
def size (m : Memory) : Nat := m.suffixes.size

/-- The bytes from place `i` on, if there are any. -/
def suffix? (m : Memory) (i : Nat) : Option (List UInt8) := m.suffixes[i]?

/-- The word at place `i`, low byte first. -/
def word? (m : Memory) (i : Nat) : Option UInt16 :=
  match m.suffix? i with
  | some (low :: high :: _) => some (littleEndian low high)
  | _ => none

/-- A block made of a list of bytes has these bytes. -/
@[simp] theorem bytes_ofList (bytes : List UInt8) : (ofList bytes).bytes = bytes := rfl

/-- The size, which is read off the stored suffixes, is the number of bytes. -/
theorem size_eq (m : Memory) : m.size = m.bytes.length := by
  simp [size, m.suffixes_eq, size_suffixesOnto]

/-- The stored suffix at a place is the rest of the bytes from there on. Proofs speak of the bytes
    alone, and never of how the suffixes are kept. -/
theorem suffix?_eq (m : Memory) (i : Nat) :
    m.suffix? i = if i < m.bytes.length then some (m.bytes.drop i) else none := by
  simp [suffix?, m.suffixes_eq, getElem?_suffixesOnto]

end Memory

end RealMode
