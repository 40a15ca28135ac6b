import RealMode.Image.Basic
import RealMode.Proofs.Recognition

namespace RealMode

open Dispatch

/-!
# What a dispatch does

The last three instructions of a dispatch, carried out one after another. Only the registers and the
words of the image matter to them.

* `RegisterFile` — the word registers, read and written as a whole or by halves;
* `Instruction.execute?` — what `add` and `xchg` do to two registers;
* `Instruction.jumpsTo?` — where a jump through the code segment goes;
* `Dispatch.Scaled.goesTo?_eq` — together they go to the word of the table at twice the index, from
  any values of the registers.
-/

/-! ### Registers -/

/-- The values of the word registers. -/
structure RegisterFile where
  ax : UInt16
  cx : UInt16
  dx : UInt16
  bx : UInt16
  sp : UInt16
  bp : UInt16
  si : UInt16
  di : UInt16
deriving DecidableEq, Repr

namespace RegisterFile

/-- The value of a register; that of a half is a byte. -/
def get (σ : RegisterFile) : Register → UInt16
  | .al => σ.ax &&& 0xFF
  | .cl => σ.cx &&& 0xFF
  | .dl => σ.dx &&& 0xFF
  | .bl => σ.bx &&& 0xFF
  | .ah => σ.ax >>> 8
  | .ch => σ.cx >>> 8
  | .dh => σ.dx >>> 8
  | .bh => σ.bx >>> 8
  | .ax => σ.ax
  | .cx => σ.cx
  | .dx => σ.dx
  | .bx => σ.bx
  | .sp => σ.sp
  | .bp => σ.bp
  | .si => σ.si
  | .di => σ.di

/-- A word with another low half. -/
def withLow (word value : UInt16) : UInt16 := word &&& 0xFF00 ||| value &&& 0xFF

/-- A word with another high half. -/
def withHigh (word value : UInt16) : UInt16 := value <<< 8 ||| word &&& 0xFF

/-- The registers with another value of one of them. -/
def set (σ : RegisterFile) (r : Register) (value : UInt16) : RegisterFile :=
  match r with
  | .al => { σ with ax := withLow σ.ax value }
  | .cl => { σ with cx := withLow σ.cx value }
  | .dl => { σ with dx := withLow σ.dx value }
  | .bl => { σ with bx := withLow σ.bx value }
  | .ah => { σ with ax := withHigh σ.ax value }
  | .ch => { σ with cx := withHigh σ.cx value }
  | .dh => { σ with dx := withHigh σ.dx value }
  | .bh => { σ with bx := withHigh σ.bx value }
  | .ax => { σ with ax := value }
  | .cx => { σ with cx := value }
  | .dx => { σ with dx := value }
  | .bx => { σ with bx := value }
  | .sp => { σ with sp := value }
  | .bp => { σ with bp := value }
  | .si => { σ with si := value }
  | .di => { σ with di := value }

variable {a b : Register}

/-- A word register that was set has the value it was set to. -/
theorem get_set_self (σ : RegisterFile) (ha : a.isWord = true) (value : UInt16) :
    (σ.set a value).get a = value := by
  cases a
  all_goals first
    | rfl
    | exact absurd ha (by decide)

/-- Word registers do not share bits, so setting one leaves the others. Halves do, and are kept out
    by the hypotheses. -/
theorem get_set_of_ne (σ : RegisterFile) (ha : a.isWord = true) (hb : b.isWord = true)
    (hne : a ≠ b) (value : UInt16) : (σ.set a value).get b = σ.get b := by
  cases a
  all_goals first
    | exact absurd ha (by decide)
    | skip
  all_goals cases b
  all_goals first
    | rfl
    | exact absurd hb (by decide)
    | exact absurd rfl hne

/-- The registers with the values of two of them exchanged. -/
def exchange (σ : RegisterFile) (a b : Register) : RegisterFile :=
  (σ.set a (σ.get b)).set b (σ.get a)

/-- Either way round, each of two word registers gets the value of the other. -/
theorem get_exchange (σ : RegisterFile) (ha : a.isWord = true) (hb : b.isWord = true) :
    (σ.exchange a b).get a = σ.get b ∧ (σ.exchange a b).get b = σ.get a := by
  unfold exchange
  refine ⟨?_, get_set_self _ hb _⟩
  by_cases hab : a = b
  · subst hab
    exact get_set_self _ ha _
  · rw [get_set_of_ne _ hb ha (Ne.symm hab), get_set_self _ ha]

end RegisterFile

/-! ### Carrying out instructions -/

/-- The registers behind an `add` or an `xchg` of two registers. -/
def Instruction.execute? (i : Instruction) (σ : RegisterFile) : Option RegisterFile :=
  match i.mnemonic, i.operands with
  | .add, [.register a, .register b] => some (σ.set a (σ.get a + σ.get b))
  | .xchg, [.register a, .register b] => some (σ.exchange a b)
  | _, _ => none

/-- The offset of a place in memory. -/
def MemoryOperand.offsetIn (m : MemoryOperand) (σ : RegisterFile) : UInt16 :=
  m.mode.registers.foldl (fun sum r => sum + σ.get r) m.disp

/-- Where a near jump through memory goes, if it is through the segment of the code. -/
def Instruction.jumpsTo? (i : Instruction) (image : Image) (σ : RegisterFile) : Option Address :=
  match i.mnemonic, i.memoryOperand? with
  | .jmp, some place =>
    if place.segment = .cs then
      (image.word? (Address.mk i.address.seg (place.offsetIn σ)).linear).map
        (Address.mk i.address.seg)
    else none
  | _, _ => none

namespace Dispatch

/-- Where two instructions and the jump behind them go. -/
def goesTo? (image : Image) (add xchg jump : Instruction) (σ : RegisterFile) : Option Address := do
  let σ ← add.execute? σ
  let σ ← xchg.execute? σ
  jump.jumpsTo? image σ

theorem isWord_of_base {mode : AddressMode} {base : Register} (h : mode.registers = [base]) :
    base.isWord = true := by
  cases mode
  all_goals first
    | cases h
      rfl
    | cases h

/-- **A dispatch goes to the word of its table at twice the index**, whatever the other registers
    hold. -/
theorem Scaled.goesTo?_eq {index base : Register} {place : MemoryOperand}
    {add xchg jump : Instruction} (h : Scaled index base place add xchg jump) (image : Image)
    (σ : RegisterFile) : goesTo? image add xchg jump σ =
      (image.word? (Address.mk jump.address.seg (place.disp + 2 * σ.get index)).linear).map
        (Address.mk jump.address.seg) := by
  have hbase := isWord_of_base h.place.1
  have hadd : add.execute? σ = some (σ.set index (2 * σ.get index)) := by
    rw [Instruction.execute?, h.add.1, h.add.2, UInt16.two_mul]
  obtain ⟨σ', hxchg, hvalue⟩ : ∃ σ', xchg.execute? (σ.set index (2 * σ.get index)) = some σ' ∧
      σ'.get base = 2 * σ.get index := by
    rcases h.xchg.2 with ho | ho
    · refine ⟨_, by rw [Instruction.execute?, h.xchg.1, ho], ?_⟩
      rw [(RegisterFile.get_exchange _ h.word hbase).2, RegisterFile.get_set_self _ h.word]
    · refine ⟨_, by rw [Instruction.execute?, h.xchg.1, ho], ?_⟩
      rw [(RegisterFile.get_exchange _ hbase h.word).1, RegisterFile.get_set_self _ h.word]
  have hoffset : place.offsetIn σ' = place.disp + 2 * σ.get index := by
    rw [MemoryOperand.offsetIn, h.place.1, List.foldl_cons, List.foldl_nil, hvalue]
  simp only [Dispatch.goesTo?, hadd, hxchg, Option.bind_eq_bind, Option.bind_some,
    Instruction.jumpsTo?, h.jump.1, h.jump.2, h.place.2, hoffset, if_true]

end Dispatch

end RealMode
