import RealMode.Text.Hex

namespace RealMode

open Text

/-!
# Real-mode addresses

* `Address` — a segment and an offset inside it;
* `Address.linear` — the place in memory it names: sixteen times the segment plus the
  offset, so that many addresses name one place;
* `Address.advance` — moves the offset, which wraps inside its segment;
* `Address.text` / `Address.parse` — the written form `SSSS:OOOO`.
-/

/-- A `segment:offset` address. -/
structure Address where
  seg : UInt16
  off : UInt16
deriving DecidableEq, Repr, Inhabited

/-- A text that is no address. -/
structure InvalidAddress where
  text : String
deriving DecidableEq, Repr

/-- What is said about a text that is no address. -/
def InvalidAddress.message (e : InvalidAddress) : String :=
  "invalid segment:offset address '" ++ e.text ++ "'"

namespace Address

/-- The linear address: `16 * seg + off`. -/
def linear (a : Address) : Nat := a.seg.toNat * 16 + a.off.toNat

/-- The address `delta` bytes further on; the offset wraps, the segment stays. -/
def advance (a : Address) (delta : UInt16) : Address := { a with off := a.off + delta }

/-- The written form: four capital digits for each half. -/
def text (a : Address) : String :=
  Hex.word.render a.seg.toNat ++ ":" ++ Hex.word.render a.off.toNat

/-- Strips every leading `0x`. -/
def stripMarks : List Char → List Char
  | '0' :: 'x' :: cs => stripMarks cs
  | cs => cs

/-- Strips one leading plus sign. -/
def stripPlus : List Char → List Char
  | '+' :: cs => cs
  | cs => cs

/-- Reads one half of an address: a number below 65536, after any marks and sign. -/
def half? (cs : List Char) : Option UInt16 := do
  let n ← readHex? (stripPlus (stripMarks cs))
  if n < 65536 then some (UInt16.ofNat n) else none

/-- Reads two halves divided by the first colon. -/
def ofChars? (cs : List Char) : Option Address :=
  match cs.dropWhile (· != ':') with
  | [] => none
  | _ :: rest => do
    let seg ← half? (cs.takeWhile (· != ':'))
    let off ← half? rest
    some ⟨seg, off⟩

/-- Reads the written form of an address. -/
def parse (s : String) : Except InvalidAddress Address :=
  match ofChars? s.toList with
  | some a => .ok a
  | none => .error ⟨s⟩

/-! ### Bounds and moves -/

/-- One more than the highest linear address. -/
def linearBound : Nat := 0x10FFF0

/-- There are only so many linear addresses: the highest is named by `FFFF:FFFF`. -/
theorem linear_lt (a : Address) : a.linear < linearBound := by
  have hs := a.seg.toNat_lt
  have ho := a.off.toNat_lt
  simp only [linear, linearBound]
  omega

@[simp] theorem advance_seg (a : Address) (d : UInt16) : (a.advance d).seg = a.seg := rfl

/-- Moving on adds to the offset, and wraps around at the end of the segment. -/
@[simp] theorem advance_off (a : Address) (d : UInt16) : (a.advance d).off = a.off + d := rfl

end Address

end RealMode
