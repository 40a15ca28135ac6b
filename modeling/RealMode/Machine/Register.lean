namespace RealMode

/-!
# Registers and operand widths

* `Width` — how many bytes an operand has;
* `Register` — the general registers, byte halves first, in encoding order;
* `SegmentRegister` — the segment registers, in encoding order;
* `Repetition` — how a string instruction is repeated.

Every type has the list `all` of its members and the `name` it is written with.
-/

/-! ### Widths -/

/-- The width of an operand. -/
inductive Width where
  | byte
  | word
  | dword
deriving DecidableEq, Repr

namespace Width

/-- The number of bytes. -/
def bytes : Width → Nat
  | byte => 1
  | word => 2
  | dword => 4

def name : Width → String
  | byte => "byte"
  | word => "word"
  | dword => "dword"

def all : List Width := [byte, word, dword]

end Width

/-! ### General registers -/

/-- A general register or one half of it. -/
inductive Register where
  | al | cl | dl | bl | ah | ch | dh | bh
  | ax | cx | dx | bx | sp | bp | si | di
deriving DecidableEq, Repr

namespace Register

/-- The byte register with a three-bit code. -/
def byteOfCode : Fin 8 → Register
  | 0 => al
  | 1 => cl
  | 2 => dl
  | 3 => bl
  | 4 => ah
  | 5 => ch
  | 6 => dh
  | 7 => bh

/-- The word register with a three-bit code. -/
def wordOfCode : Fin 8 → Register
  | 0 => ax
  | 1 => cx
  | 2 => dx
  | 3 => bx
  | 4 => sp
  | 5 => bp
  | 6 => si
  | 7 => di

/-- The register that a code names at an operand width; there are no wider registers than words. -/
def ofCode (code : Fin 8) : Width → Register
  | .byte => byteOfCode code
  | .word | .dword => wordOfCode code

def name : Register → String
  | al => "al"
  | cl => "cl"
  | dl => "dl"
  | bl => "bl"
  | ah => "ah"
  | ch => "ch"
  | dh => "dh"
  | bh => "bh"
  | ax => "ax"
  | cx => "cx"
  | dx => "dx"
  | bx => "bx"
  | sp => "sp"
  | bp => "bp"
  | si => "si"
  | di => "di"

def width : Register → Width
  | al | cl | dl | bl | ah | ch | dh | bh => .byte
  | ax | cx | dx | bx | sp | bp | si | di => .word

def isWord (r : Register) : Bool := r.width == .word

def all : List Register :=
  [al, cl, dl, bl, ah, ch, dh, bh, ax, cx, dx, bx, sp, bp, si, di]

/-- The accumulator of an operand width. -/
def accumulator : Width → Register
  | .byte => al
  | .word | .dword => ax

end Register

/-! ### Segment registers -/

/-- A segment register. -/
inductive SegmentRegister where
  | es | cs | ss | ds | fs | gs
deriving DecidableEq, Repr

namespace SegmentRegister

def all : List SegmentRegister := [es, cs, ss, ds, fs, gs]

/-- The segment register with a code; six codes are in use. -/
def ofCode? (code : Nat) : Option SegmentRegister := all[code]?

def name : SegmentRegister → String
  | es => "es"
  | cs => "cs"
  | ss => "ss"
  | ds => "ds"
  | fs => "fs"
  | gs => "gs"

end SegmentRegister

/-! ### Repetition -/

/-- The repetition of a string instruction. -/
inductive Repetition where
  | rep
  | repne
deriving DecidableEq, Repr

namespace Repetition

def name : Repetition → String
  | rep => "rep"
  | repne => "repne"

def all : List Repetition := [rep, repne]

end Repetition

end RealMode
