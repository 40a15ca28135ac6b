import RealMode.Image.Memory
import RealMode.Image.Header
import RealMode.Machine.AddressMap

namespace RealMode

open Text

/-!
# Program images

* `Image` — the bytes of a program at a place in memory, with its entry and the words the
  loader adjusts;
* `Image.ofBytes` — bytes placed by hand;
* `Image.parseCom` — a flat program of one segment, placed behind its program header;
* `Image.parseMz` — a relocatable program; its load module is placed at zero, so that
  segments in the code count from there;
* `Image.parse` — either of the two, by the mark at the front of the file;
* `LoadError` — why a file is no program.
-/

/-- Where an image comes from. -/
inductive ImageFormat where
  | raw
  | com
  | mz
deriving DecidableEq, Repr

/-- Why a file is no program. -/
inductive LoadError where
  | tooSmall
  | invalidMagic
  | headerOutOfBounds
  | relocationsOutOfBounds
  | relocationSiteOutOfBounds (site : Nat)
  | loadModuleOutOfBounds
  | comTooLarge (size : Nat)
deriving DecidableEq, Repr

/-- What is said about a file that is no program. -/
def LoadError.message : LoadError → String
  | .tooSmall => "executable data too small"
  | .invalidMagic => "invalid MZ magic number"
  | .headerOutOfBounds => "MZ header extends beyond file"
  | .relocationsOutOfBounds => "relocation table out of bounds"
  | .relocationSiteOutOfBounds site =>
    "relocation site " ++ Hex.plain.render site ++ " outside the load module"
  | .loadModuleOutOfBounds => "load module extends beyond file"
  | .comTooLarge size => "COM image larger than one segment (" ++ toString size ++ " bytes)"

/-- A program in memory. -/
structure Image where
  memory : Memory
  /-- The linear address of the first byte. -/
  base : Nat
  /-- The linear addresses of the words that the loader adjusts. -/
  relocations : AddressSet := ∅
  entry : Address
  stack : Option Address := none
  format : ImageFormat := .raw

namespace Image

/-! ### Queries -/

/-- One more than the last linear address. -/
def top (i : Image) : Nat := i.base + i.memory.size

/-- Whether a linear address is inside the image. -/
def contains (i : Image) (linear : Nat) : Bool := i.base ≤ linear && linear < i.top

/-- The bytes from a linear address to the end of the image. -/
def bytesFrom? (i : Image) (linear : Nat) : Option (List UInt8) :=
  if i.contains linear then i.memory.suffix? (linear - i.base) else none

/-- The word at a linear address. -/
def word? (i : Image) (linear : Nat) : Option UInt16 :=
  if i.contains linear then i.memory.word? (linear - i.base) else none

/-- Whether the loader adjusts the word at a linear address. -/
def isRelocated (i : Image) (linear : Nat) : Bool := i.relocations.contains linear

/-- Whether segments in the code can be checked against a list of relocations. -/
def hasRelocationTable (i : Image) : Bool := i.format = .mz

/-! ### Loading -/

/-- Bytes placed at an address. -/
def ofBytes (bytes : List UInt8) (base entry : Address) : Image where
  memory := .ofList bytes
  base := base.linear
  entry

/-- Where a flat program is placed. -/
def comOrigin : Address := ⟨0, 0x100⟩

/-- The most bytes a flat program can have. -/
def comLimit : Nat := 0xFF00

/-- Loads a flat program. -/
def parseCom (bytes : List UInt8) : Except LoadError Image :=
  if bytes.isEmpty then .error .tooSmall
  else if bytes.length > comLimit then .error (.comTooLarge bytes.length)
  else .ok {
    memory := .ofList bytes
    base := comOrigin.linear
    entry := comOrigin
    stack := some ⟨0, 0xFFFE⟩
    format := .com }

/-- The sites of the relocation entries, each of which must leave room for a word in a load
    module of `size` bytes. -/
def relocationSites (size : Nat) (entries : List Address) : Except LoadError AddressSet :=
  entries.foldlM (fun sites a =>
    if a.linear + 2 > size then .error (.relocationSiteOutOfBounds a.linear)
    else .ok (sites.insert a.linear)) ∅

/-- Loads a relocatable program. -/
def parseMz (bytes : List UInt8) : Except LoadError Image := do
  let some header := Header.parse? bytes | .error .tooSmall
  if !header.hasMagic then .error .invalidMagic
  if header.size < Header.fixedSize ∨ header.size > bytes.length then
    .error .headerOutOfBounds
  if header.fileEnd < header.size ∨ header.fileEnd > bytes.length then
    .error .loadModuleOutOfBounds
  let table := header.relocationOffset.toNat
  let count := header.relocationCount.toNat
  if table + 4 * count > bytes.length then .error .relocationsOutOfBounds
  let size := header.fileEnd - header.size
  let sites ← relocationSites size (relocationEntries count (bytes.drop table))
  return {
    memory := .ofList ((bytes.drop header.size).take size)
    base := 0
    relocations := sites
    entry := ⟨header.cs, header.ip⟩
    stack := some ⟨header.ss, header.sp⟩
    format := .mz }

/-- Loads a program by the mark at the front of its file. -/
def parse (bytes : List UInt8) : Except LoadError Image :=
  match bytes with
  | low :: high :: _ =>
    if Header.isMagic (littleEndian low high) then parseMz bytes else parseCom bytes
  | _ => parseCom bytes

end Image

end RealMode
