import RealMode.Decode.Basic
import RealMode.Instruction.Usage

namespace RealMode

/-!
# The opcode table and the table of profiles

The opcode table names the sources of the operands of an operation, the profiles name the
ways it can use them. The two tables were written apart; here they are compared.

* `Source.fits` — every operand read from the source can be used in the given way;
* `Source.leads`, `Source.leadsFar` — an operand read from the source names a place, or holds one;
* `Encoding.Regular` — the sources of an encoding fit a form of its operation, a conditional
  branch has a displacement, a jump or far call has one source that leads somewhere, a product or
  quotient with the accumulator has a source of its own width, and the operation is none of those
  that only recovery makes;
* `regular_opcodeEntry` — every entry of the opcode table is regular, shown row by row.
-/

/-! ### Sources and the ways of using them -/

/-- Whether every operand that is read from a source can be used in the given way. A place in memory
    is always read, never given. -/
def Source.fits (access : Access) : Source → Bool
  | .given o => (o.usage? access).isSome && o.memory?.isNone
  | .memory _ _ _ => access != .label
  | .imm8 | .imm16 | .immSigned | .rel8 | .rel16 | .far => access == .read

/-- Whether an operand that is read from a source can be jumped to, or through. -/
def Source.leads : Source → Bool
  | .given o => (o matches .register _)
  | .memory _ _ _ | .rel8 | .rel16 | .far => true
  | .imm8 | .imm16 | .immSigned => false

/-- Whether an operand that is read from a source tells a segment, too. -/
def Source.leadsFar : Source → Bool
  | .memory _ _ _ | .far => true
  | .given _ | .rel8 | .rel16 | .imm8 | .imm16 | .immSigned => false

/-- The width of every operand that is read from a source, if that can be told. -/
def Source.width? : Source → Option Width
  | .given o => o.register?.map Register.width
  | .memory _ _ width => some width
  | .rel8 | .rel16 | .far | .imm8 | .imm16 | .immSigned => none

/-- Whether an operation with one operand uses the accumulator, too, in the width of the operand. -/
def Mnemonic.usesWidth (m : Mnemonic) : Bool := m matches .mul | .imul | .div | .idiv

/-- Whether things fit the ways of using them, one by one. -/
def Access.allFit {α : Type} (fits : Access → α → Bool) : List Access → List α → Bool
  | [], [] => true
  | access :: form, a :: as => fits access a && allFit fits form as
  | _, _ => false

/-- The ways in which an operation uses a number of operands. -/
def Mnemonic.form? (m : Mnemonic) (arity : Nat) : Option (List Access) :=
  m.profile.forms.find? (·.length == arity)

/-- Whether a use reads or writes a value, so that a register will do. -/
def Access.isValue : Access → Bool
  | .read | .write | .update => true
  | .label | .address => false

/-- Things that fit a form are as many as its ways of use. -/
theorem Access.length_of_allFit {α : Type} {fits : Access → α → Bool} {form : List Access}
    {as : List α} (h : allFit fits form as = true) : form.length = as.length := by
  induction form generalizing as with
  | nil =>
    cases as with
    | nil => rfl
    | cons a as => simp [allFit] at h
  | cons access form ih =>
    cases as with
    | nil => simp [allFit] at h
    | cons a as =>
      rw [allFit, Bool.and_eq_true] at h
      rw [List.length_cons, List.length_cons, ih h.2]

/-- A register can be read and written, but it is no label and has no address. -/
@[simp] theorem Source.fits_reg (r : Register) (access : Access) :
    (Source.reg r).fits access = access.isValue := by
  cases access <;> rfl

/-- The accumulator fits as any register does, in either of its widths. -/
@[simp] theorem Source.fits_accumulator (w : Width) (access : Access) :
    (Source.accumulator w).fits access = access.isValue :=
  Source.fits_reg _ access

/-- An immediate can be read and nothing else. -/
@[simp] theorem Source.fits_imm (w : Width) (access : Access) :
    (Source.imm w).fits access = (access == .read) := by
  cases w <;> rfl

/-- A ModRM byte names a register as it names memory: to be read or written. -/
@[simp] theorem ModRM.fits_register (b : ModRM) (w : Width) (access : Access) :
    (b.register w).fits access = access.isValue :=
  Source.fits_reg _ access

/-- What a ModRM byte names in memory is a place of the asked width, with some mode and
    displacement. -/
theorem ModRM.memory?_cases {b : ModRM} {w : Width} {s : Source} (h : b.memory? w = some s) :
    ∃ mode disp, s = .memory mode disp w := by
  unfold ModRM.memory? at h
  split at h
  · split at h <;> (cases h; exact ⟨_, _, rfl⟩)
  · cases h; exact ⟨_, _, rfl⟩
  · cases h; exact ⟨_, _, rfl⟩
  · cases h

/-- Whatever a ModRM byte names in memory has an address, so it fits every use but that of a
    label. -/
theorem ModRM.fits_of_memory? {b : ModRM} {w : Width} {s : Source} (h : b.memory? w = some s)
    (access : Access) : s.fits access = (access != .label) := by
  obtain ⟨mode, disp, rfl⟩ := memory?_cases h
  rfl

/-- A place in memory can be jumped through, near or far. -/
theorem ModRM.leads_of_memory? {b : ModRM} {w : Width} {s : Source} (h : b.memory? w = some s) :
    s.leads = true ∧ s.leadsFar = true := by
  obtain ⟨mode, disp, rfl⟩ := memory?_cases h
  exact ⟨rfl, rfl⟩

/-- A ModRM byte names a register or memory, and either can be jumped through. -/
theorem ModRM.leads_place (b : ModRM) (w : Width) : (b.place w).leads = true := by
  unfold ModRM.place
  cases hm : b.memory? w with
  | none => rfl
  | some s => exact (leads_of_memory? hm).1

/-- What a ModRM byte names can be read and written, whether it is a register or memory. -/
theorem ModRM.fits_place (b : ModRM) (w : Width) {access : Access} (h : access.isValue = true) :
    (b.place w).fits access = true := by
  unfold ModRM.place
  cases hm : b.memory? w with
  | none => rw [Option.getD_none, Source.fits_reg, h]
  | some s =>
    rw [Option.getD_some, fits_of_memory? hm]
    revert h
    cases access <;> decide

/-- A place that a ModRM byte names has the width it is read with. No register is as wide as a
    double word, hence the condition. -/
theorem ModRM.width?_place (b : ModRM) {w : Width} (hw : w ≠ .dword) :
    (b.place w).width? = some w := by
  unfold ModRM.place
  cases hm : b.memory? w with
  | none =>
    show some (Register.ofCode b.rm w).width = some w
    generalize b.rm = k
    clear hm
    revert k hw
    cases w <;> decide
  | some s =>
    obtain ⟨mode, disp, rfl⟩ := memory?_cases hm
    rfl

/-- The width bit of an opcode tells bytes from words; double words are not told by it. -/
theorem operandWidth_ne_dword (op : UInt8) : operandWidth op ≠ .dword := by
  unfold operandWidth
  split <;> decide

/-- What the coprocessor is given is read, be it a place in memory or the number of one of its
    registers. -/
theorem ModRM.fits_coprocessorPlace (b : ModRM) : b.coprocessorPlace.fits .read = true := by
  unfold ModRM.coprocessorPlace
  cases hm : b.memory? .word with
  | none => rfl
  | some s =>
    rw [Option.getD_some, fits_of_memory? hm]
    rfl

/-! ### Regular encodings -/

/-- An encoding whose operands its operation can take. -/
structure Encoding.Regular (e : Encoding) : Prop where
  fits : ∃ form, e.mnemonic.form? e.sources.length = some form ∧
    Access.allFit Source.fits form e.sources = true
  branch : e.mnemonic.isConditionalBranch = true → .rel8 ∈ e.sources
  jump : e.mnemonic.isJump = true → ∃ s, e.sources = [s] ∧ s.leads = true
  far : e.mnemonic = .jmpf ∨ e.mnemonic = .callf → ∃ s, e.sources = [s] ∧ s.leadsFar = true
  condition : e.mnemonic = .jcc → ∃ c, e.sources = [.given (.condition c), .rel8]
  width : e.mnemonic.usesWidth = true → ∀ s, e.sources = [s] → s.width? = some e.width
  not_switch : e.mnemonic ≠ .switch
  not_words2dword : e.mnemonic ≠ .words2dword

/-- An entry of the opcode table that stands for regular encodings only. -/
def OpcodeEntry.Regular : OpcodeEntry → Prop
  | .invalid => True
  | .plain e => e.Regular
  | .modrm select => ∀ b e, select b = some e → e.Regular

/-- An operation that is no branch, jump or far call and only decoded, with operands that are read
    or written and tell all that it uses. -/
def Mnemonic.Takes (m : Mnemonic) (form : List Access) : Prop :=
  m.form? form.length = some form ∧ m.isConditionalBranch = false ∧ m.isJump = false ∧
    m ≠ .callf ∧ m ≠ .switch ∧ m ≠ .words2dword ∧ m.usesWidth = false

instance (m : Mnemonic) (form : List Access) : Decidable (m.Takes form) :=
  inferInstanceAs (Decidable (_ ∧ _ ∧ _ ∧ _ ∧ _ ∧ _ ∧ _))

/-- Most operations are regular as soon as their sources fit one of their forms: the other
    conditions are about branches, jumps and products, and these operations are none. -/
theorem Encoding.regular_of_takes {m : Mnemonic} {w : Width} {sources : List Source}
    {form : List Access} (hm : m.Takes form) (hs : Access.allFit Source.fits form sources = true) :
    (Encoding.mk m w sources).Regular := by
  obtain ⟨hform, hbranch, hjump, hcall, hswitch, hload, hwidth⟩ := hm
  refine ⟨⟨form, Access.length_of_allFit hs ▸ hform, hs⟩, ?_, ?_, ?_, ?_, ?_, hswitch, hload⟩
  · simp [hbranch]
  · simp [hjump]
  · rintro (rfl | rfl)
    · cases hjump
    · exact absurd rfl hcall
  · rintro rfl
    cases hbranch
  · simp [hwidth]

/-- A product or quotient with the accumulator has one operand, of its own width, so the width of
    the accumulator is told by what is written. -/
theorem Encoding.regular_of_usesWidth {m : Mnemonic} {w : Width} {sources : List Source}
    {f : List Access} (hm : m.usesWidth = true) (hform : m.form? f.length = some f)
    (hs : Access.allFit Source.fits f sources = true)
    (hw : ∀ s, sources = [s] → s.width? = some w) : (Encoding.mk m w sources).Regular := by
  have hplain : m.isConditionalBranch = false ∧ m.isJump = false ∧ ¬ (m = .jmpf ∨ m = .callf) ∧
      m ≠ .jcc ∧ m ≠ .switch ∧ m ≠ .words2dword := by
    revert hm
    cases m <;> decide
  obtain ⟨hbranch, hjump, hfar, hcondition, hswitch, hload⟩ := hplain
  exact ⟨⟨f, Access.length_of_allFit hs ▸ hform, hs⟩, by simp [hbranch], by simp [hjump],
    fun h => absurd h hfar, fun h => absurd h hcondition, fun _ => hw, hswitch, hload⟩

/-- There are two jumps, near and far. -/
theorem Mnemonic.of_isJump {m : Mnemonic} (h : m.isJump = true) : m = .jmp ∨ m = .jmpf := by
  revert h
  cases m <;> decide

/-- A jump or far call reads the one operand that says where it leads, and a far one gets a segment
    from it, too. -/
theorem Encoding.regular_of_leads {m : Mnemonic} {w : Width} {s : Source}
    (hm : m = .jmp ∨ m = .jmpf ∨ m = .callf) (hread : s.fits .read = true)
    (hleads : s.leads = true) (hfar : m ≠ .jmp → s.leadsFar = true) :
    (Encoding.mk m w [s]).Regular := by
  refine ⟨⟨[.read], ?_, by simp [Access.allFit, hread]⟩, ?_, fun _ => ⟨s, rfl, hleads⟩,
    fun hm => ⟨s, rfl, hfar ?_⟩, ?_, ?_, ?_, ?_⟩
  · rcases hm with rfl | rfl | rfl <;> rfl
  · rcases hm with rfl | rfl | rfl <;> exact nofun
  · rintro rfl
    simp at hm
  iterate 4
    · rcases hm with rfl | rfl | rfl <;> exact nofun

namespace OpcodeEntry

/-! ### Patterns of the opcode table -/

/-- An operation without operands is regular. -/
theorem regular_bare {m : Mnemonic} (hm : m.Takes []) (w : Width) : (bare m w).Regular :=
  Encoding.regular_of_takes hm rfl

/-- An operation with one operand is regular if its source fits. -/
theorem regular_unary {m : Mnemonic} {a : Access} (hm : m.Takes [a]) (w : Width) {s : Source}
    (hs : s.fits a = true) : (unary m w s).Regular :=
  Encoding.regular_of_takes hm (by simp [Access.allFit, hs])

/-- An operation with two operands is regular if its sources fit in their order. -/
theorem regular_binary {m : Mnemonic} {a b : Access} (hm : m.Takes [a, b]) (w : Width)
    {s t : Source} (hs : s.fits a = true) (ht : t.fits b = true) : (binary m w s t).Regular :=
  Encoding.regular_of_takes hm (by simp [Access.allFit, hs, ht])

/-- The register and the place of a ModRM byte fit in either order, since each can be read and
    written. -/
theorem regular_registerForm {m : Mnemonic} {x y : Access} (hm : m.Takes [x, y])
    (hx : x.isValue = true) (hy : y.isValue = true) (op : UInt8) :
    (registerForm m op).Regular := by
  intro b e h
  cases h
  apply Encoding.regular_of_takes hm
  have hplace (a : Access) (ha : a.isValue = true) : (b.place (operandWidth op)).fits a = true :=
    b.fits_place _ ha
  split <;> simp [Access.allFit, hplace, hx, hy]

/-- Where only memory will do, a ModRM byte that names a register has no encoding at all. -/
theorem regular_memoryForm {m : Mnemonic} {x y : Access} (hm : m.Takes [x, y])
    (hx : x.isValue = true) (hy : (y != .label) = true) (w : Width) :
    (memoryForm m w).Regular := by
  intro b e h
  obtain ⟨s, hs, rfl⟩ := Option.map_eq_some_iff.1 h
  apply Encoding.regular_of_takes hm
  simp only [Access.allFit, ModRM.fits_register, ModRM.fits_of_memory? hs, hx, hy, Bool.and_true]

/-- A shift takes its place from the ModRM byte, and its count from where the opcode says. -/
theorem regular_shiftForm {count : Source} (hc : count.fits .read = true) (op : UInt8) :
    (shiftForm op count).Regular := by
  intro b e h
  cases h
  have hm : (shiftOf b.reg).Takes [.update, .read] := by
    generalize b.reg = k
    revert k
    decide
  apply Encoding.regular_of_takes hm
  rw [Access.allFit, b.fits_place _ rfl, Access.allFit, hc]
  rfl

/-- A move from or to a segment register is regular in both directions. -/
theorem regular_segmentMove (segmentFirst : Bool) : (segmentMove segmentFirst).Regular := by
  intro b e h
  obtain ⟨s, -, rfl⟩ := Option.map_eq_some_iff.1 h
  have hm : Mnemonic.mov.Takes [.write, .read] := by decide
  apply Encoding.regular_of_takes hm
  split
  · rw [Access.allFit, Access.allFit, b.fits_place _ rfl]
    rfl
  · rw [Access.allFit, b.fits_place _ rfl]
    rfl

/-- An operation on the place of a ModRM byte and maybe more; there is none unless the middle field
    of the byte is zero. -/
theorem regular_zeroForm {m : Mnemonic} {x : Access} {f : List Access} {more : List Source}
    (hm : m.Takes (x :: f)) (hx : x.isValue = true)
    (hmore : Access.allFit Source.fits f more = true) (w : Width) :
    (zeroForm m w more).Regular := by
  intro b e h
  simp only [Option.ite_none_right_eq_some, Option.some.injEq] at h
  obtain ⟨-, rfl⟩ := h
  apply Encoding.regular_of_takes hm
  rw [Access.allFit, ModRM.fits_place b w hx, hmore]
  rfl

end OpcodeEntry

open OpcodeEntry

/-! ### Rows of the opcode table -/

/-- The first rows: six encodings for each of the eight arithmetic operations, and between them what
    is done with segment registers on the stack, and the decimal adjustments. -/
theorem regular_arithmeticRows (op : UInt8) : (arithmeticRows op).Regular := by
  have hm : (arithmeticOf (midField op)).Takes [.update, .read] ∨
      (arithmeticOf (midField op)).Takes [.read, .read] := by
    generalize midField op = k
    revert k
    decide
  unfold arithmeticRows
  split
  iterate 4
    · rcases hm with hm | hm <;> exact regular_registerForm hm rfl rfl op
  iterate 2
    · rcases hm with hm | hm <;>
        exact regular_binary hm _ (Source.fits_accumulator _ _) (Source.fits_imm _ _)
  · split
    iterate 4
      · exact regular_unary (a := .read) (by decide) .word rfl
    · trivial
  · split
    · exact regular_unary (a := .write) (by decide) .word rfl
    · trivial
    iterate 2
      · exact regular_unary (a := .write) (by decide) .word rfl
    iterate 4
      · exact regular_bare (by decide) .byte

/-- Rows in which the low field of the opcode names the register. -/
theorem regular_registerRows (op : UInt8) : (registerRows op).Regular := by
  unfold registerRows
  split
  · exact regular_unary (a := .update) (by decide) .word (Source.fits_reg _ _)
  · split
    · exact regular_unary (a := .update) (by decide) .word (Source.fits_reg _ _)
    · split
      · exact regular_unary (a := .read) (by decide) .word (Source.fits_reg _ _)
      · exact regular_unary (a := .write) (by decide) .word (Source.fits_reg _ _)

/-- A product of a place and an immediate. All three operands are named, so its width does not
    matter. -/
theorem regular_product {s : Source} (hs : s.fits .read = true) :
    (OpcodeEntry.modrm fun b =>
      some ⟨.imul, .word, [b.register .word, b.place .word, s]⟩).Regular := by
  intro b e h
  cases h
  refine Encoding.regular_of_usesWidth (f := [.write, .read, .read]) rfl rfl ?_ (by simp)
  rw [Access.allFit, b.fits_register, Access.allFit, b.fits_place _ rfl, Access.allFit, hs]
  rfl

/-- The row with the product of a place and an immediate, and with strings that go in or out. -/
theorem regular_frameRow (op : UInt8) : (frameRow op).Regular := by
  unfold frameRow
  split
  iterate 2
    · exact regular_bare (by decide) .word
  · exact regular_memoryForm (x := .read) (y := .read) (by decide) rfl rfl .dword
  · exact regular_unary (a := .read) (by decide) .word rfl
  · exact regular_product rfl
  · exact regular_unary (a := .read) (by decide) .word rfl
  · exact regular_product rfl
  iterate 4
    · exact regular_bare (by decide) _
  · trivial

/-- A conditional branch has its condition and a displacement, and so always leads somewhere. -/
theorem regular_branchRow (op : UInt8) : (branchRow op).Regular where
  fits := ⟨[.label, .read], rfl, rfl⟩
  branch _ := by simp
  jump := nofun
  far := nofun
  condition _ := ⟨_, rfl⟩
  width := nofun
  not_switch := nofun
  not_words2dword := nofun

/-- The immediate of an arithmetic operation is read, whether it is a byte, a word, or a byte that
    stands for a word. -/
theorem fits_arithmeticImmediate (op : UInt8) : (arithmeticImmediate op).fits .read = true := by
  unfold arithmeticImmediate
  split <;> rfl

/-- The row with the operations on a place and an immediate, a register or a segment register. -/
theorem regular_placeRow (op : UInt8) : (placeRow op).Regular := by
  have himmediate : (OpcodeEntry.modrm fun b => some ⟨arithmeticOf b.reg, operandWidth op,
      [b.place (operandWidth op), arithmeticImmediate op]⟩).Regular := by
    intro b e h
    cases h
    have hm : (arithmeticOf b.reg).Takes [.update, .read] ∨
        (arithmeticOf b.reg).Takes [.read, .read] := by
      generalize b.reg = k
      revert k
      decide
    rcases hm with hm | hm <;>
    · apply Encoding.regular_of_takes hm
      rw [Access.allFit, b.fits_place _ rfl, Access.allFit, fits_arithmeticImmediate]
      rfl
  unfold placeRow
  split
  iterate 4
    · exact himmediate
  iterate 2
    · exact regular_registerForm (x := .read) (y := .read) (by decide) rfl rfl _
  iterate 2
    · exact regular_registerForm (x := .update) (y := .update) (by decide) rfl rfl _
  · exact regular_segmentMove false
  · exact regular_memoryForm (x := .write) (y := .address) (by decide) rfl rfl .word
  · exact regular_segmentMove true
  · exact regular_zeroForm (x := .write) (f := []) (by decide) rfl rfl .word
  · exact regular_registerForm (x := .write) (y := .read) (by decide) rfl rfl _

/-- The row with the exchanges with `ax`, and the far call that names its place. -/
theorem regular_exchangeRow (op : UInt8) : (exchangeRow op).Regular := by
  unfold exchangeRow
  split
  iterate 3
    · exact regular_bare (by decide) .word
  · exact Encoding.regular_of_leads (.inr (.inr rfl)) rfl rfl fun _ => rfl
  iterate 5
    · exact regular_bare (by decide) _
  · exact regular_binary (a := .update) (b := .update) (by decide) .word rfl (Source.fits_reg _ _)

/-- The row with the string operations, which name none of what they use, and the moves between the
    accumulator and memory. -/
theorem regular_stringRow (op : UInt8) : (stringRow op).Regular := by
  unfold stringRow
  simp only []
  split
  iterate 2
    · exact regular_binary (a := .write) (b := .read) (by decide) _
        (Source.fits_accumulator _ _) rfl
  iterate 2
    · exact regular_binary (a := .write) (b := .read) (by decide) _ rfl
        (Source.fits_accumulator _ _)
  iterate 4
    · exact regular_bare (by decide) _
  iterate 2
    · exact regular_binary (a := .read) (b := .read) (by decide) _ (Source.fits_accumulator _ _)
        (Source.fits_imm _ _)
  iterate 5
    · exact regular_bare (by decide) _

/-- The rows that load an immediate into the register that the low field names. -/
theorem regular_loadRow (op : UInt8) : (loadRow op).Regular :=
  regular_binary (a := .write) (b := .read) (by decide) _ (Source.fits_reg _ _)
    (Source.fits_imm _ _)

/-- The row with returns, interrupts and frames. -/
theorem regular_returnRow (op : UInt8) : (returnRow op).Regular := by
  unfold returnRow
  simp only []
  split
  iterate 2
    · exact regular_shiftForm rfl _
  · exact regular_unary (a := .read) (by decide) .word rfl
  · exact regular_bare (by decide) .word
  iterate 2
    · exact regular_memoryForm (x := .write) (y := .read) (by decide) rfl rfl .dword
  iterate 2
    · exact regular_zeroForm (x := .write) (f := [.read]) (by decide) rfl
        (by rw [Access.allFit, Source.fits_imm]; rfl) _
  · exact regular_binary (a := .read) (b := .read) (by decide) .word rfl rfl
  · exact regular_bare (by decide) .word
  · exact regular_unary (a := .read) (by decide) .word rfl
  · exact regular_bare (by decide) .word
  iterate 2
    · exact regular_unary (a := .read) (by decide) .byte rfl
  iterate 2
    · exact regular_bare (by decide) _

/-- The row with the shifts by one or by `cl`, and with what goes to the coprocessor. -/
theorem regular_escapeRow (op : UInt8) : (escapeRow op).Regular := by
  unfold escapeRow
  split
  iterate 4
    · exact regular_shiftForm rfl _
  iterate 2
    · exact regular_unary (a := .read) (by decide) .byte rfl
  · trivial
  · exact regular_bare (by decide) .byte
  · intro b e h
    cases h
    have hm : Mnemonic.esc.Takes [.read, .read] := by decide
    apply Encoding.regular_of_takes hm
    rw [Access.allFit, Access.allFit, b.fits_coprocessorPlace]
    rfl

/-- A loop has a displacement and nothing else, so it leads somewhere as a conditional branch
    does. -/
theorem regular_loop {m : Mnemonic}
    (hm : m = .loop ∨ m = .loope ∨ m = .loopne ∨ m = .jcxz) : (unary m .word .rel8).Regular where
  fits := ⟨[.read], by rcases hm with rfl | rfl | rfl | rfl <;> rfl, rfl⟩
  branch _ := List.mem_singleton.2 rfl
  jump _ := ⟨.rel8, rfl, rfl⟩
  far := by rcases hm with rfl | rfl | rfl | rfl <;> exact nofun
  condition := by rcases hm with rfl | rfl | rfl | rfl <;> exact nofun
  width := by rcases hm with rfl | rfl | rfl | rfl <;> exact nofun
  not_switch := by rcases hm with rfl | rfl | rfl | rfl <;> exact nofun
  not_words2dword := by rcases hm with rfl | rfl | rfl | rfl <;> exact nofun

/-- The row with the loops, the ports, and the jumps and calls that name their place. -/
theorem regular_loopRow (op : UInt8) : (loopRow op).Regular := by
  unfold loopRow
  simp only []
  split
  iterate 4
    · exact regular_loop (by decide)
  iterate 2
    · exact regular_binary (a := .write) (b := .read) (by decide) _
        (Source.fits_accumulator _ _) rfl
  iterate 2
    · exact regular_binary (a := .read) (b := .read) (by decide) _ rfl (Source.fits_accumulator _ _)
  · exact regular_unary (a := .read) (by decide) .word rfl
  · exact Encoding.regular_of_leads (.inl rfl) rfl rfl nofun
  · exact Encoding.regular_of_leads (.inr (.inl rfl)) rfl rfl fun _ => rfl
  · exact Encoding.regular_of_leads (.inl rfl) rfl rfl nofun
  iterate 2
    · exact regular_binary (a := .write) (b := .read) (by decide) _
        (Source.fits_accumulator _ _) rfl
  · exact regular_binary (a := .read) (b := .read) (by decide) _ rfl (Source.fits_accumulator _ _)

/-- An operation on the place of a ModRM byte alone, which may be a register or memory. -/
theorem regular_ofPlace {m : Mnemonic} {x : Access} (hm : m.Takes [x]) (hx : x.isValue = true)
    (w v : Width) (b : ModRM) : (Encoding.mk m w [b.place v]).Regular := by
  apply Encoding.regular_of_takes hm
  rw [Access.allFit, b.fits_place _ hx]
  rfl

/-- A product or quotient of the accumulator and the place of a ModRM byte, which is of the same
    width. -/
theorem regular_product_place {m : Mnemonic} (hm : m.usesWidth = true)
    (hform : m.form? 1 = some [.read]) {w : Width} (hw : w ≠ .dword) (b : ModRM) :
    (Encoding.mk m w [b.place w]).Regular := by
  refine Encoding.regular_of_usesWidth (f := [.read]) hm hform ?_ ?_
  · rw [Access.allFit, b.fits_place _ rfl]
    rfl
  · rintro s ⟨⟩
    exact b.width?_place hw

/-- The group of the operations on one place that the middle field of the ModRM byte tells apart,
    products and quotients among them. -/
theorem regular_unaryGroup {w : Width} (hw : w ≠ .dword) (b : ModRM) :
    (unaryGroup w b).Regular := by
  have htest : (Encoding.mk .test w [b.place w, .imm w]).Regular := by
    have hm : Mnemonic.test.Takes [.read, .read] := by decide
    apply Encoding.regular_of_takes hm
    rw [Access.allFit, b.fits_place _ rfl, Access.allFit, Source.fits_imm]
    rfl
  unfold unaryGroup
  simp only []
  split
  iterate 2
    · exact htest
  iterate 2
    · exact regular_ofPlace (x := .update) (by decide) rfl w w b
  iterate 4
    · exact regular_product_place rfl rfl hw b

/-- The group that counts bytes up or down. -/
theorem regular_counterGroup : (OpcodeEntry.modrm counterGroup).Regular := by
  intro b e h
  unfold counterGroup at h
  split at h
  iterate 2
    · cases h
      exact regular_ofPlace (x := .update) (by decide) rfl .byte .byte b
  · cases h

/-- A far target in memory. A ModRM byte that names a register has no encoding here. -/
theorem regular_ofPointer {m : Mnemonic} (hm : m = .jmpf ∨ m = .callf) {b : ModRM} {e : Encoding}
    (h : (b.memory? .dword).map (fun s => Encoding.mk m .word [s]) = some e) : e.Regular := by
  obtain ⟨s, hs, rfl⟩ := Option.map_eq_some_iff.1 h
  obtain ⟨hleads, hfar⟩ := ModRM.leads_of_memory? hs
  refine Encoding.regular_of_leads (.inr hm) ?_ hleads fun _ => hfar
  rw [ModRM.fits_of_memory? hs]
  rfl

/-- The group that counts words, and jumps and calls through a place, near or far. -/
theorem regular_indirectGroup : (OpcodeEntry.modrm indirectGroup).Regular := by
  intro b e h
  unfold indirectGroup at h
  simp only [] at h
  split at h
  iterate 2
    · cases h
      exact regular_ofPlace (x := .update) (by decide) rfl .word .word b
  · cases h
    exact regular_ofPlace (x := .read) (by decide) rfl .word .word b
  · exact regular_ofPointer (.inr rfl) h
  · cases h
    exact Encoding.regular_of_leads (.inl rfl) (b.fits_place _ rfl) (b.leads_place _) nofun
  · exact regular_ofPointer (.inl rfl) h
  · cases h
    exact regular_ofPlace (x := .read) (by decide) rfl .word .word b
  · cases h

/-- The last row: flags, and the three groups. -/
theorem regular_controlRow (op : UInt8) : (controlRow op).Regular := by
  unfold controlRow
  split
  iterate 2
    · exact regular_bare (by decide) .word
  iterate 2
    · intro b e h
      cases h
      exact regular_unaryGroup (operandWidth_ne_dword _) b
  iterate 6
    · exact regular_bare (by decide) .word
  · exact regular_counterGroup
  · exact regular_indirectGroup
  · trivial

/-- **The two tables agree.** Every encoding in the opcode table has operands that its operation can
    take. This is shown row by row, each by the lemma of its pattern. -/
theorem regular_opcodeEntry (op : UInt8) : (opcodeEntry op).Regular := by
  unfold opcodeEntry
  split
  iterate 4
    · exact regular_arithmeticRows op
  iterate 2
    · exact regular_registerRows op
  · exact regular_frameRow op
  · exact regular_branchRow op
  · exact regular_placeRow op
  · exact regular_exchangeRow op
  · exact regular_stringRow op
  · exact regular_loadRow op
  · exact regular_returnRow op
  · exact regular_escapeRow op
  · exact regular_loopRow op
  · exact regular_controlRow op

end RealMode
