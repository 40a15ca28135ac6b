import RealMode.Machine.Address
import RealMode.Machine.Word

namespace RealMode

/-!
# The header of a relocatable program file

* `Header` — the fourteen words at the front of the file;
* `Header.parse?` — reads them, if the file is long enough;
* `Header.size`, `Header.fileEnd` — where the load module begins and ends in the file;
* `relocationEntries` — the places that the loader adjusts, as the file lists them.
-/

/-- The words at the front of a program file. -/
structure Header where
  magic : UInt16
  /-- Bytes in use in the last page; zero for all of it. -/
  lastPageBytes : UInt16
  pages : UInt16
  relocationCount : UInt16
  paragraphs : UInt16
  minAlloc : UInt16
  maxAlloc : UInt16
  ss : UInt16
  sp : UInt16
  checksum : UInt16
  ip : UInt16
  cs : UInt16
  relocationOffset : UInt16
  overlay : UInt16
deriving DecidableEq, Repr

namespace Header

/-- The number of bytes of the fixed header. -/
def fixedSize : Nat := 28

/-- The bytes of a page. -/
def pageSize : Nat := 512

/-- The bytes of a paragraph. -/
def paragraphSize : Nat := 16

/-- The marks `MZ` and `ZM`, either of which is accepted. -/
def isMagic (w : UInt16) : Bool := w = 0x5A4D ∨ w = 0x4D5A

/-- Reads whole words until the bytes run out. -/
def words : List UInt8 → List UInt16
  | low :: high :: bs => littleEndian low high :: words bs
  | _ => []

/-- Reads the header of a file that is long enough to have one. -/
def parse? (bytes : List UInt8) : Option Header :=
  match words (bytes.take fixedSize) with
  | [magic, lastPageBytes, pages, relocationCount, paragraphs, minAlloc, maxAlloc,
      ss, sp, checksum, ip, cs, relocationOffset, overlay] =>
    some ⟨magic, lastPageBytes, pages, relocationCount, paragraphs, minAlloc, maxAlloc,
      ss, sp, checksum, ip, cs, relocationOffset, overlay⟩
  | _ => none

/-- Whether the file is marked as a program file. -/
def hasMagic (h : Header) : Bool := isMagic h.magic

/-- Where the load module begins. -/
def size (h : Header) : Nat := h.paragraphs.toNat * paragraphSize

/-- Where the load module ends: behind the last page, or inside it. -/
def fileEnd (h : Header) : Nat :=
  let full := h.pages.toNat * pageSize
  if h.lastPageBytes = 0 ∨ h.pages = 0 then full
  else full - pageSize + h.lastPageBytes.toNat

end Header

/-- Reads up to `count` relocation entries, each an offset and a segment. -/
def relocationEntries : Nat → List UInt8 → List Address
  | count + 1, o₀ :: o₁ :: s₀ :: s₁ :: bs =>
    ⟨littleEndian s₀ s₁, littleEndian o₀ o₁⟩ :: relocationEntries count bs
  | _, _ => []

end RealMode
