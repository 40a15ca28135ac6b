namespace RealMode.Text

/-!
# Hexadecimal text

* `Hex` — a written form of numbers: leading mark, letter case and least number of digits;
* `Hex.render` — the text of a number in such a form;
* `hexValue?` — the value of one digit, in either case;
* `readHex?` — the number that a nonempty run of digits denotes.

The forms in use (`Hex.plain`, `Hex.linear`, …) are listed here once, so that every
report writes addresses and opcodes the same way.
-/

/-! ### Writing -/

/-- A written form of hexadecimal numbers. -/
structure Hex where
  /-- Text in front of the digits. -/
  mark : String
  /-- First letter of the digits above nine: small or capital. -/
  letter : Char
  /-- Least number of digits, reached by zeros in front. -/
  digits : Nat
deriving Repr

/-- The digit of value `d`, with the letters counted from `letter`. -/
def hexDigit (letter : Char) (d : Nat) : Char :=
  if d < 10 then Char.ofNat ('0'.toNat + d) else Char.ofNat (letter.toNat + (d - 10))

/-- The digits of `n`, highest first and without zeros in front. -/
def hexDigits (letter : Char) (n : Nat) : List Char :=
  if n < 16 then [hexDigit letter n]
  else hexDigits letter (n / 16) ++ [hexDigit letter (n % 16)]
termination_by n

/-- `cs` with zeros in front, up to `width` characters. -/
def padZeros (width : Nat) (cs : List Char) : List Char :=
  List.replicate (width - cs.length) '0' ++ cs

/-- The text of `n` in the form `f`. -/
def Hex.render (f : Hex) (n : Nat) : String :=
  f.mark ++ String.ofList (padZeros f.digits (hexDigits f.letter n))

/-- As few digits as possible: `0x1f`. -/
def Hex.plain : Hex := ⟨"0x", 'a', 1⟩

/-- Two digits for an opcode byte: `0x0f`. -/
def Hex.byte : Hex := ⟨"0x", 'a', 2⟩

/-- Four digits for an offset inside a segment: `0x0100`. -/
def Hex.offset : Hex := ⟨"0x", 'a', 4⟩

/-- Five digits for a linear address: `0x00100`. -/
def Hex.linear : Hex := ⟨"0x", 'a', 5⟩

/-- Four bare capital digits, for each half of an address: `01AF`. -/
def Hex.word : Hex := ⟨"", 'A', 4⟩

/-- Five bare capital digits, for the name of a label: `00100`. -/
def Hex.label : Hex := ⟨"", 'A', 5⟩

/-! ### Reading -/

/-- The value of a hexadecimal digit, small or capital. -/
def hexValue? (c : Char) : Option Nat :=
  if '0' ≤ c ∧ c ≤ '9' then some (c.toNat - '0'.toNat)
  else if 'a' ≤ c ∧ c ≤ 'f' then some (c.toNat - 'a'.toNat + 10)
  else if 'A' ≤ c ∧ c ≤ 'F' then some (c.toNat - 'A'.toNat + 10)
  else none

/-- Reads digits onto the number `acc` that the digits before them denote. -/
def readHexOnto? (acc : Nat) : List Char → Option Nat
  | [] => some acc
  | c :: cs => do
    let d ← hexValue? c
    readHexOnto? (acc * 16 + d) cs

/-- The number denoted by a nonempty run of hexadecimal digits. -/
def readHex? : List Char → Option Nat
  | [] => none
  | cs => readHexOnto? 0 cs

/-! ### Columns -/

/-- `s` with blanks behind it, up to `width` characters. -/
def padRight (width : Nat) (s : String) : String :=
  s ++ String.ofList (List.replicate (width - s.length) ' ')

end RealMode.Text
