import RealMode.Machine.Register
import RealMode.Machine.Flag

namespace RealMode

/-!
# Locals

A local is a part of the machine state that the dataflow analyses track on its own. The
general registers count as two locals each, so that a write of `al` followed by a read of
`ax` still needs `ah`.

* `Local` — the tracked parts, `LocalSet` a set of them;
* `Register.locals`, `SegmentRegister.locals`, `FlagSet.locals` — the parts that a
  register or a set of flags is made of;
* `LocalSet.names`, `LocalSet.text` — the written form, in which two halves that are both
  present are written as one word register.
-/

/-- A tracked part of the machine state. -/
inductive Local where
  | al | ah | bl | bh | cl | ch | dl | dh
  | si | di | bp | sp
  | es | cs | ss | ds | fs | gs
  | cf | pf | zf | sf | of
deriving DecidableEq, Repr

namespace Local

def all : List Local :=
  [al, ah, bl, bh, cl, ch, dl, dh, si, di, bp, sp, es, cs, ss, ds, fs, gs, cf, pf, zf, sf, of]

/-- The bit of a local in a `LocalSet`. -/
def index : Local → Nat
  | al => 0
  | ah => 1
  | bl => 2
  | bh => 3
  | cl => 4
  | ch => 5
  | dl => 6
  | dh => 7
  | si => 8
  | di => 9
  | bp => 10
  | sp => 11
  | es => 12
  | cs => 13
  | ss => 14
  | ds => 15
  | fs => 16
  | gs => 17
  | cf => 18
  | pf => 19
  | zf => 20
  | sf => 21
  | of => 22

end Local

/-- A set of locals. -/
abbrev LocalSet := BitSet 23

namespace LocalSet

/-- The set of the listed locals. -/
def of (ls : List Local) : LocalSet := ls.foldl (fun s l => s ∪ BitSet.single l.index) ∅

instance : Membership Local LocalSet := ⟨fun s l => s.has l.index = true⟩

instance (l : Local) (s : LocalSet) : Decidable (l ∈ s) :=
  inferInstanceAs (Decidable (s.has l.index = true))

end LocalSet

/-! ### What registers and flags are made of -/

/-- The locals of a general register: one for a byte half, two for a word that has halves. -/
def Register.locals : Register → LocalSet
  | al => .of [.al]
  | cl => .of [.cl]
  | dl => .of [.dl]
  | bl => .of [.bl]
  | ah => .of [.ah]
  | ch => .of [.ch]
  | dh => .of [.dh]
  | bh => .of [.bh]
  | ax => .of [.al, .ah]
  | cx => .of [.cl, .ch]
  | dx => .of [.dl, .dh]
  | bx => .of [.bl, .bh]
  | sp => .of [.sp]
  | bp => .of [.bp]
  | si => .of [.si]
  | di => .of [.di]

/-- The local of a segment register. -/
def SegmentRegister.locals : SegmentRegister → LocalSet
  | es => .of [.es]
  | cs => .of [.cs]
  | ss => .of [.ss]
  | ds => .of [.ds]
  | fs => .of [.fs]
  | gs => .of [.gs]

/-- The local of a status flag. -/
def Flag.toLocal : Flag → Local
  | carry => .cf
  | parity => .pf
  | zero => .zf
  | sign => .sf
  | overflow => .of

/-- The locals of a set of flags. -/
def FlagSet.locals (s : FlagSet) : LocalSet :=
  .of ((Flag.all.filter (· ∈ s)).map Flag.toLocal)

/-! ### Written form -/

namespace LocalSet

/-- The names for one word register with halves: the word if both halves are present. -/
def halfNames (s : LocalSet) (low high : Local) (word lowName highName : String) :
    List String :=
  if low ∈ s ∧ high ∈ s then [word]
  else (if low ∈ s then [lowName] else []) ++ (if high ∈ s then [highName] else [])

/-- The locals that are written on their own, in order. -/
def undivided : List (Local × String) :=
  [(.si, "si"), (.di, "di"), (.bp, "bp"), (.sp, "sp"),
   (.es, "es"), (.cs, "cs"), (.ss, "ss"), (.ds, "ds"), (.fs, "fs"), (.gs, "gs"),
   (.cf, "cf"), (.pf, "pf"), (.zf, "zf"), (.sf, "sf"), (.of, "of")]

/-- The names of the members, in written order. -/
def names (s : LocalSet) : List String :=
  s.halfNames .al .ah "ax" "al" "ah" ++
  s.halfNames .bl .bh "bx" "bl" "bh" ++
  s.halfNames .cl .ch "cx" "cl" "ch" ++
  s.halfNames .dl .dh "dx" "dl" "dh" ++
  (undivided.filter (·.1 ∈ s)).map (·.2)

/-- The names divided by blanks, or a dash for the empty set. -/
def text (s : LocalSet) : String :=
  if s.isEmpty then "-" else " ".intercalate s.names

end LocalSet

end RealMode
