import RealMode.Proofs.Decode.OpcodeTable
import RealMode.Results

namespace RealMode

/-!
# Operands of decoded instructions

* `Reader.All` — a property of everything a reading can end in;
* `decode_cases` — what a decoded instruction is made of: a regular encoding, operands read
  for it, and no more bytes than there are;
* `usage_of_allFit` — operands that fit a form of their operation have a use;
* `usage_of_decode`, `target?_of_decode` — so what a decoded instruction reads and writes is
  defined, and a decoded conditional branch leads somewhere;
* `usage_of_decode_jump` — a jump to a place it names reads and writes nothing;
* `isIndirectJump_iff_of_decode` — a jump that names no place goes through a register or memory;
* `segment_of_decode` — a far jump or call ends in the segment of the place it names.
-/

/-! ### What readings end in -/

namespace Reader

variable {α β : Type}

/-- Whatever the bytes are, a reading that ends does so in something with property `P`. -/
def All (P : α → Prop) : Reader α → Prop
  | .done a => P a
  | .next k => ∀ b, (k b).All P

/-- Whatever a reading ends in, nothing is asked of it. -/
theorem all_true (r : Reader α) : r.All fun _ => True := by
  induction r with
  | done a => trivial
  | next k ih => exact ih

/-- One reading after another ends well if the first does and whatever it gives lets the second do
    so. -/
theorem all_bind {P : α → Prop} {Q : β → Prop} {r : Reader α} {f : α → Reader β}
    (hr : r.All P) (hf : ∀ a, P a → (f a).All Q) : (r >>= f).All Q := by
  show (r.bind f).All Q
  induction r with
  | done a => exact hf a hr
  | next k ih => exact fun b => ih b (hr b)

/-- A last step that makes something of what was read ends well if all it can make is fine. -/
theorem all_map {Q : β → Prop} {r : Reader α} {f : α → β} (hf : ∀ a, Q (f a)) :
    (r >>= fun a => pure (f a)).All Q :=
  all_bind (all_true r) fun a _ => hf a

/-- What holds of everything a reading can end in holds of what it ends in on some bytes. -/
theorem of_all {P : α → Prop} {r : Reader α} (hr : r.All P) {bs : List UInt8} {a : α} {n : Nat}
    (h : r.run bs = some (a, n)) : P a := by
  induction r generalizing bs n with
  | done _ =>
    simp only [run, Option.some.injEq, Prod.mk.injEq] at h
    exact h.1 ▸ hr
  | next k ih =>
    cases bs with
    | nil => simp [run] at h
    | cons b bs =>
      simp only [run, Option.map_eq_some_iff] at h
      obtain ⟨⟨a', m⟩, hrun, he⟩ := h
      simp only [Prod.mk.injEq] at he
      obtain ⟨rfl, -⟩ := he
      exact ih b (hr b) hrun

end Reader

/-! ### Operands and the ways of using them -/

namespace Operand

/-- The width of an operand that tells it. -/
def width? : Operand → Option Width
  | .register r => some r.width
  | .memory m => some m.width
  | .immediate _ _ | .segment _ | .condition _ | .relative _ | .far _ | .case _ => none

/-- A segment override changes where an operand is, but not how wide it is. -/
@[simp] theorem width?_withSegment (segment : Option SegmentRegister) (o : Operand) :
    (o.withSegment segment).width? = o.width? := by
  cases o <;> rfl

/-- Whether an operand can be used in the given way. -/
def fits (access : Access) (o : Operand) : Bool := (o.usage? access).isSome

/-- A segment override changes what is read, not whether it can be. -/
theorem fits_withSegment (segment : Option SegmentRegister) (o : Operand) (access : Access) :
    (o.withSegment segment).fits access = o.fits access := by
  cases o <;> cases access <;> rfl

/-- So a list of operands fits a form under an override exactly if it does without. -/
theorem allFit_map_withSegment (segment : Option SegmentRegister) (form : List Access)
    (operands : List Operand) :
    Access.allFit fits form (operands.map (withSegment segment)) =
      Access.allFit fits form operands := by
  induction operands generalizing form with
  | nil => rfl
  | cons o operands ih =>
    cases form with
    | nil => rfl
    | cons access form =>
      rw [List.map_cons, Access.allFit, Access.allFit, ih, fits_withSegment]

/-- Each operand of a fitting list has a use in its place, so no operand is left that the operation
    cannot take. -/
theorem usage?_of_allFit {form : List Access} {operands : List Operand}
    (h : Access.allFit fits form operands = true) {k : Nat} {o : Operand}
    (hk : operands[k]? = some o) :
    ∃ access u, form[k]? = some access ∧ o.usage? access = some u := by
  induction operands generalizing form k with
  | nil => simp at hk
  | cons o' operands ih =>
    cases form with
    | nil => simp [Access.allFit] at h
    | cons access form =>
      rw [Access.allFit, Bool.and_eq_true] at h
      cases k with
      | zero =>
        simp only [List.getElem?_cons_zero, Option.some.injEq] at hk
        subst hk
        obtain ⟨u, hu⟩ := Option.isSome_iff_exists.1 h.1
        exact ⟨access, u, rfl, hu⟩
      | succ k =>
        rw [List.getElem?_cons_succ] at hk ⊢
        exact ih h.2 hk

end Operand

namespace Source

/-- What is read from a source fits where the source does. This is what makes it enough to look at
    the tables, and at no bytes. -/
theorem all_read {s : Source} {access : Access} (h : s.fits access = true) :
    s.read.All fun o => o.fits access = true := by
  cases s with
  | given o =>
    rw [fits, Bool.and_eq_true] at h
    exact h.1
  | memory mode disp width =>
    apply Reader.all_map
    intro d
    revert h
    cases access <;> simp [fits, Operand.fits, Operand.usage?]
  | far =>
    rw [fits, beq_iff_eq] at h
    subst h
    exact Reader.all_bind (Reader.all_true _) fun _ _ => Reader.all_map fun _ => rfl
  | imm8 | imm16 | immSigned | rel8 | rel16 =>
    rw [fits, beq_iff_eq] at h
    subst h
    exact Reader.all_map fun _ => rfl

/-- What is read from several sources fits a form where the sources do, one by one. -/
theorem all_readAll {form : List Access} {sources : List Source}
    (h : Access.allFit fits form sources = true) :
    (readAll sources).All fun operands => Access.allFit Operand.fits form operands = true := by
  induction sources generalizing form with
  | nil =>
    cases form with
    | nil => rfl
    | cons access form => simp [Access.allFit] at h
  | cons s sources ih =>
    cases form with
    | nil => simp [Access.allFit] at h
    | cons access form =>
      rw [Access.allFit, Bool.and_eq_true] at h
      refine Reader.all_bind (all_read h.1) fun o ho => ?_
      refine Reader.all_bind (ih h.2) fun operands hos => ?_
      show Access.allFit Operand.fits (access :: form) (o :: operands) = true
      rw [Access.allFit, ho, hos]
      rfl

/-- What is read from a source has the width that the source tells. -/
theorem width?_of_all_read {s : Source} {w : Width} (h : s.width? = some w) :
    s.read.All fun o => o.width? = some w := by
  cases s with
  | given o =>
    show o.width? = some w
    obtain ⟨r, hr, hw⟩ := Option.map_eq_some_iff.1 h
    cases o with
    | register r' =>
      cases hr
      exact congrArg some hw
    | immediate | segment | condition | memory | relative | far | case => cases hr
  | memory mode disp width =>
    cases h
    exact Reader.all_map fun d => rfl
  | rel8 | rel16 | far | imm8 | imm16 | immSigned => cases h

/-- A displacement among the sources is one among the operands. -/
theorem all_readAll_rel8 {sources : List Source} (h : .rel8 ∈ sources) :
    (readAll sources).All fun operands => ∃ d, Operand.relative d ∈ operands := by
  induction sources with
  | nil => simp at h
  | cons s sources ih =>
    rw [List.mem_cons] at h
    rcases h with rfl | h
    · have hread : rel8.read.All fun o => ∃ d, o = .relative d :=
        Reader.all_map fun d => ⟨d, rfl⟩
      refine Reader.all_bind hread fun o ho => ?_
      refine Reader.all_map fun operands => ?_
      obtain ⟨d, rfl⟩ := ho
      exact ⟨d, List.mem_cons_self⟩
    · refine Reader.all_bind (Reader.all_true _) fun o _ => ?_
      refine Reader.all_bind (ih h) fun operands hos => ?_
      obtain ⟨d, hd⟩ := hos
      exact ⟨d, List.mem_cons_of_mem o hd⟩

/-- A source that leads somewhere is read as a register, as memory, or as a place. -/
theorem all_readAll_leads {s : Source} (h : s.leads = true) :
    (readAll [s]).All fun operands => ∃ o, operands = [o] ∧
      ((∃ r, o = .register r) ∨ (∃ m, o = .memory m) ∨ (∃ d, o = .relative d) ∨
        ∃ a, o = .far a) := by
  refine Reader.all_bind (P := fun o => (∃ r, o = .register r) ∨ (∃ m, o = .memory m) ∨
    (∃ d, o = .relative d) ∨ ∃ a, o = .far a) ?_ fun o ho => ⟨o, rfl, ho⟩
  cases s with
  | given o =>
    cases o with
    | register r => exact .inl ⟨r, rfl⟩
    | immediate | segment | condition | memory | relative | far | case => cases h
  | memory mode disp width => exact Reader.all_map fun d => .inr (.inl ⟨_, rfl⟩)
  | rel8 | rel16 => exact Reader.all_map fun d => .inr (.inr (.inl ⟨_, rfl⟩))
  | far =>
    exact Reader.all_bind (Reader.all_true _) fun _ _ =>
      Reader.all_map fun _ => .inr (.inr (.inr ⟨_, rfl⟩))
  | imm8 | imm16 | immSigned => cases h

/-- A place in memory is read as one. -/
theorem all_readAll_memory (mode : AddressMode) (disp : Displacement) (width : Width) :
    (readAll [.memory mode disp width]).All fun operands => ∃ m, operands = [.memory m] := by
  refine Reader.all_bind (P := fun o => ∃ m, o = .memory m) ?_ ?_
  · exact Reader.all_map fun d => ⟨_, rfl⟩
  · rintro o ⟨m, rfl⟩
    exact ⟨m, rfl⟩

/-- A far place is read from four bytes, offset first, so its segment is in the last two. -/
theorem run_far {bs : List UInt8} {operands : List Operand} {n : Nat}
    (h : (readAll [.far]).run bs = some (operands, n)) :
    ∃ b₀ b₁ b₂ b₃ rest, bs = b₀ :: b₁ :: b₂ :: b₃ :: rest ∧ n = 4 ∧
      operands = [.far ⟨littleEndian b₂ b₃, littleEndian b₀ b₁⟩] := by
  match bs, h with
  | b₀ :: b₁ :: b₂ :: b₃ :: rest, h =>
    cases h
    exact ⟨b₀, b₁, b₂, b₃, rest, rfl, rfl, rfl⟩
  | [], h | [_], h | [_, _], h | [_, _, _], h => cases h

end Source

/-! ### The parts of a decoded instruction -/

/-- What stands in front of the opcode, the opcode and the rest make up all bytes, and what stands
    in front is counted byte by byte. -/
theorem Prefixes.append_of_scan {p q : Prefixes} {bs rest : List UInt8} {op : UInt8}
    (h : p.scan bs = .ok (q, op, rest)) :
    ∃ front, bs = front ++ op :: rest ∧ q.count = p.count + front.length := by
  induction bs generalizing p with
  | nil => simp [scan] at h
  | cons b bs ih =>
    rw [scan] at h
    split at h
    · cases h
      exact ⟨[], rfl, rfl⟩
    · rename_i f _
      -- Whatever the prefix says, it is one byte.
      have hcount (p' : Prefixes) (hp : p.push f = .ok p') : p'.count = p.count + 1 := by
        cases f <;> simp only [push, Except.ok.injEq, reduceCtorEq] at hp <;> rw [← hp]
      split at h
      · rename_i p' hp
        obtain ⟨front, rfl, hq⟩ := ih h
        refine ⟨b :: front, rfl, ?_⟩
        rw [hq, hcount p' hp, List.length_cons]
        omega
      · cases h

/-- An operation that was read comes from a regular encoding, and its operands were read from the
    last of its bytes. -/
theorem Operation.read_cases {op : UInt8} {bs : List UInt8} {o : Operation}
    (h : Operation.read op bs = .ok o) :
    ∃ e : Encoding, e.Regular ∧ o.mnemonic = e.mnemonic ∧ o.width = e.width ∧
      ∃ front rest n, bs = front ++ rest ∧ e.read.run rest = some (o.operands, n) ∧
        o.length = front.length + n := by
  have hentry := regular_opcodeEntry op
  -- Both kinds of entry end in reading the operands of an encoding.
  have hoperation (e : Encoding) (he : e.Regular) (front rest : List UInt8)
      (hrest : bs = front ++ rest) (ho : e.operation front.length rest = .ok o) :
      ∃ e : Encoding, e.Regular ∧ o.mnemonic = e.mnemonic ∧ o.width = e.width ∧
        ∃ front rest n, bs = front ++ rest ∧ e.read.run rest = some (o.operands, n) ∧
          o.length = front.length + n := by
    unfold Encoding.operation at ho
    split at ho
    · rename_i operands n hrun
      cases ho
      exact ⟨e, he, rfl, rfl, front, rest, n, hrest, hrun, rfl⟩
    · cases ho
  unfold Operation.read at h
  split at h
  · cases h
  · rename_i e heq
    rw [heq] at hentry
    exact hoperation e hentry [] bs rfl h
  · rename_i select heq
    rw [heq] at hentry
    split at h
    · cases h
    · rename_i b bs'
      split at h
      · cases h
      · rename_i e hselect
        exact hoperation e (hentry _ e hselect) [b] bs' rfl h

/-- **The parts of a decoded instruction.** It has the address it was decoded at, the operation
    of a regular encoding with operands read from the last of its bytes, and between one byte and
    all there are. -/
theorem decode_cases {bs : List UInt8} {a : Address} {i : Instruction} (h : decode bs a = .ok i) :
    i.address = a ∧ 0 < i.length.toNat ∧ i.length.toNat ≤ bs.length ∧
      ∃ (e : Encoding) (segment : Option SegmentRegister) (operands : List Operand),
        e.Regular ∧ i.mnemonic = e.mnemonic ∧ i.width = e.width ∧
        i.operands = operands.map (.withSegment segment) ∧
        ∃ rest n, e.read.run rest = some (operands, n) ∧
          ∃ front, bs = front ++ rest ∧ i.length.toNat = front.length + n := by
  unfold decode at h
  cases hscan : Prefixes.scan {} bs with
  | error e => simp [hscan, bind, Except.bind] at h
  | ok parts =>
    obtain ⟨p, op, rest⟩ := parts
    cases hread : Operation.read op rest with
    | error e => simp [hscan, hread, bind, Except.bind] at h
    | ok o =>
      simp only [hscan, hread, bind, Except.bind, Prefixes.instruction] at h
      obtain ⟨before, rfl, hcount⟩ := Prefixes.append_of_scan hscan
      obtain ⟨e, he, hm, hw, front, rest, n, rfl, hrun, hlength⟩ := Operation.read_cases hread
      split at h
      · -- Longer instructions are refused, so the length is kept as it is.
        rename_i hsmall
        cases h
        have hnat : (UInt8.ofNat (p.count + 1 + o.length)).toNat = p.count + 1 + o.length :=
          UInt8.toNat_ofNat_of_lt hsmall
        have hn := (Reader.run_take hrun).1
        simp only [Nat.zero_add] at hcount
        simp only [hnat, List.length_append, List.length_cons]
        refine ⟨trivial, by omega, by omega, e, p.segment, o.operands, he, hm, hw, rfl, rest, n,
          hrun, before ++ op :: front, by simp, ?_⟩
        simp only [List.length_append, List.length_cons]
        omega
      · cases h

/-! ### Uses -/

namespace Instruction

/-- An instruction has a use if each of its operands has a way of use. What it uses without naming
    it is always known. -/
theorem usage_of_roles {i : Instruction}
    (h : ∀ k o, i.operands[k]? = some o → ∃ access u,
      i.mnemonic.role? k i.operands.length = some access ∧ o.usage? access = some u) :
    ∃ u, i.usage = .ok u := by
  have hexplicit : ∃ u, i.explicitUsage = .ok u := by
    unfold explicitUsage
    apply exists_foldlM_ok
    rintro acc ⟨o, k⟩ hok
    obtain ⟨access, u, hrole, hu⟩ := h k o (List.mk_mem_zipIdx_iff_getElem?.1 hok)
    refine ⟨acc.union u, ?_⟩
    simp only [operandUsage, hrole, Option.bind_some, hu, bind, Except.bind, pure, Except.pure]
  obtain ⟨u, hu⟩ := hexplicit
  exact ⟨_, by simp only [usage, hu, bind, Except.bind, pure, Except.pure]; rfl⟩

/-- An instruction whose operands fit a form of its operation has a use. -/
theorem usage_of_allFit {i : Instruction} {form : List Access} (hs : i.mnemonic ≠ .switch)
    (hform : i.mnemonic.form? i.operands.length = some form)
    (hfit : Access.allFit Operand.fits form i.operands = true) : ∃ u, i.usage = .ok u := by
  apply usage_of_roles
  intro k o hk
  obtain ⟨access, u, haccess, hu⟩ := Operand.usage?_of_allFit hfit hk
  refine ⟨access, u, ?_, hu⟩
  rw [Mnemonic.form?] at hform
  simp only [Mnemonic.role?, hs, if_false, hform, bind, Option.bind, haccess]

/-- A jump uses no more than its operand does, as it touches no flags and uses nothing without
    naming it. -/
theorem usage_of_jump {i : Instruction} {o : Operand} (hj : i.mnemonic.isJump = true)
    (ho : i.operands = [o]) (hu : o.usage? .read = some {}) (hc : o.condition? = none) :
    i.usage = .ok {} := by
  obtain ⟨address, mnemonic, operands, width, repetition, segmentOverride, length⟩ := i
  -- With its fields apart, the operation can be either of the two jumps.
  simp only at hj ho
  subst ho
  have hexplicit : explicitUsage
      ⟨address, mnemonic, [o], width, repetition, segmentOverride, length⟩ = .ok {} := by
    have hrole : (mnemonic.role? 0 1).bind o.usage? = some {} := by
      rcases Mnemonic.of_isJump hj with rfl | rfl <;> exact hu
    simp only [explicitUsage, operandUsage, List.zipIdx_cons, List.zipIdx_nil, List.foldlM_cons,
      List.foldlM_nil, List.length_singleton, hrole]
    rfl
  have himplicit : implicitUsage
      ⟨address, mnemonic, [o], width, repetition, segmentOverride, length⟩ = {} := by
    have hstring : mnemonic.isString = false := by
      rcases Mnemonic.of_isJump hj with rfl | rfl <;> rfl
    have himplied : impliedUsage
        ⟨address, mnemonic, [o], width, repetition, segmentOverride, length⟩ = {} := by
      rcases Mnemonic.of_isJump hj with rfl | rfl <;> rfl
    rw [implicitUsage, himplied, repetitionUsage]
    simp only [hstring, Bool.and_false]
    rfl
  have hflags : flagUsage
      ⟨address, mnemonic, [o], width, repetition, segmentOverride, length⟩ = {} := by
    simp only [flagUsage, condition?, List.findSome?_cons, hc, List.findSome?_nil, flags]
    rcases Mnemonic.of_isJump hj with rfl | rfl <;> decide
  simp only [usage, hexplicit, himplicit, hflags, bind, Except.bind, pure, Except.pure]
  rfl

end Instruction

/-- The operands of a decoded instruction fit a form of its operation, whatever segment override
    stands in front of it. -/
theorem allFit_of_decode {bs : List UInt8} {a : Address} {i : Instruction}
    (h : decode bs a = .ok i) :
    ∃ form, i.mnemonic.form? i.operands.length = some form ∧
      Access.allFit Operand.fits form i.operands = true := by
  obtain ⟨-, -, -, e, segment, operands, he, hm, -, hos, rest, n, hrun, -⟩ := decode_cases h
  obtain ⟨form, hform, hfit⟩ := he.fits
  have hoperands := Reader.of_all (Source.all_readAll hfit) hrun
  have hlength : operands.length = e.sources.length :=
    (Access.length_of_allFit hoperands).symm.trans (Access.length_of_allFit hfit)
  refine ⟨form, ?_, ?_⟩
  · rw [hm, hos, List.length_map, hlength, hform]
  · rw [hos, Operand.allFit_map_withSegment, hoperands]

/-- A decoded product or quotient with the accumulator has an operand of its own width, so a byte is
    never multiplied as a word. -/
theorem width_of_decode {bs : List UInt8} {a : Address} {i : Instruction} {o : Operand}
    (h : decode bs a = .ok i) (hm : i.mnemonic.usesWidth = true) (ho : i.operands = [o]) :
    o.width? = some i.width := by
  obtain ⟨-, -, -, e, segment, operands, he, hme, hw, hos, rest, n, hrun, -⟩ := decode_cases h
  obtain ⟨x, rfl⟩ : ∃ x, operands = [x] := by
    rw [← List.length_eq_one_iff, ← List.length_map (Operand.withSegment segment), ← hos, ho]
    rfl
  obtain ⟨s, hs⟩ : ∃ s, e.sources = [s] := by
    obtain ⟨form, -, hfit⟩ := he.fits
    rw [← List.length_eq_one_iff, ← Access.length_of_allFit hfit,
      Access.length_of_allFit (Reader.of_all (Source.all_readAll hfit) hrun)]
    rfl
  have hread : (Source.readAll [s]).All fun operands => ∃ x, operands = [x] ∧
      x.width? = some e.width :=
    Reader.all_bind (Source.width?_of_all_read (he.width (hme ▸ hm) s hs)) fun x hx => ⟨x, rfl, hx⟩
  rw [Encoding.read, hs] at hrun
  obtain ⟨_, ⟨⟩, hx⟩ := Reader.of_all hread hrun
  obtain rfl : o = x.withSegment segment := by
    rw [ho] at hos
    exact List.singleton_inj.1 hos
  rw [Operand.width?_withSegment, hx, hw]

/-- A decoded conditional branch has its condition and a displacement. -/
theorem operands_of_decode_jcc {bs : List UInt8} {a : Address} {i : Instruction}
    (h : decode bs a = .ok i) (hm : i.mnemonic = .jcc) :
    ∃ c d, i.operands = [.condition c, .relative d] := by
  obtain ⟨-, -, -, e, segment, operands, he, hme, -, hos, rest, n, hrun, -⟩ := decode_cases h
  obtain ⟨c, hs⟩ := he.condition (hme ▸ hm)
  have hread : (Source.readAll [.given (.condition c), .rel8]).All fun operands =>
      ∃ d, operands = [.condition c, .relative d] := fun b => ⟨_, rfl⟩
  rw [Encoding.read, hs] at hrun
  obtain ⟨d, rfl⟩ := Reader.of_all hread hrun
  exact ⟨c, d, hos⟩

/-- Decoding never makes an operation of recovery: a switch or a double load has always been put in
    the place of something else. -/
theorem mnemonic_of_decode {bs : List UInt8} {a : Address} {i : Instruction}
    (h : decode bs a = .ok i) : i.mnemonic ≠ .switch ∧ i.mnemonic ≠ .words2dword := by
  obtain ⟨-, -, -, e, segment, operands, he, hm, -⟩ := decode_cases h
  rw [hm]
  exact ⟨he.not_switch, he.not_words2dword⟩

/-- **Decoded instructions have a use.** What they read and write is defined, so annotating what was
    decoded cannot fail. -/
theorem usage_of_decode {bs : List UInt8} {a : Address} {i : Instruction}
    (h : decode bs a = .ok i) : ∃ u, i.usage = .ok u := by
  obtain ⟨form, hform, hfit⟩ := allFit_of_decode h
  exact Instruction.usage_of_allFit (mnemonic_of_decode h).1 hform hfit

/-- **Direct jumps use nothing.** A jump that names its target has no other operand. -/
theorem usage_of_decode_jump {bs : List UInt8} {a t : Address} {i : Instruction}
    (h : decode bs a = .ok i) (hj : i.mnemonic.isJump = true) (ht : i.target? = some t) :
    i.usage = .ok {} := by
  obtain ⟨form, hform, -⟩ := allFit_of_decode h
  have hforms : i.mnemonic.profile.forms = [[.read]] := by
    rcases Mnemonic.of_isJump hj with hm | hm <;> rw [hm] <;> rfl
  -- The one form of a jump has one operand.
  have hone : i.operands.length = 1 := by
    rw [Mnemonic.form?, hforms] at hform
    have hfound := List.find?_some hform
    rw [List.mem_singleton.1 (List.mem_of_find?_eq_some hform)] at hfound
    exact (beq_iff_eq.1 hfound).symm
  obtain ⟨o, ho⟩ := List.length_eq_one_iff.1 hone
  have hrelative : (∃ d, o = .relative d) ∨ ∃ x, o = .far x := by
    rw [Instruction.target?, ho] at ht
    revert ht
    cases o <;> simp [Instruction.operandTarget?]
  have hread : o.usage? .read = some {} ∧ o.condition? = none := by
    rcases hrelative with ⟨d, rfl⟩ | ⟨x, rfl⟩ <;> exact ⟨rfl, rfl⟩
  exact Instruction.usage_of_jump hj ho hread.1 hread.2

/-- **Decoded jumps are direct or indirect.** A jump that names no place goes through a register
    or memory. -/
theorem isIndirectJump_iff_of_decode {bs : List UInt8} {a : Address} {i : Instruction}
    (h : decode bs a = .ok i) (hj : i.mnemonic.isJump = true) :
    i.isIndirectJump = true ↔ i.target? = none := by
  obtain ⟨-, -, -, e, segment, operands, he, hm, -, hos, rest, n, hrun, -⟩ := decode_cases h
  obtain ⟨s, hs, hleads⟩ := he.jump (hm ▸ hj)
  rw [Encoding.read, hs] at hrun
  obtain ⟨o, rfl, ho⟩ := Reader.of_all (Source.all_readAll_leads hleads) hrun
  rw [Instruction.isIndirectJump, Instruction.target?, Instruction.isTransfer, hj, hos]
  rcases ho with ⟨r, rfl⟩ | ⟨m, rfl⟩ | ⟨d, rfl⟩ | ⟨x, rfl⟩ <;>
    simp [Operand.withSegment, Instruction.operandTarget?]

/-- **Far targets end in their segment.** Whatever stands in front of a far jump or call, the last
    two bytes of it are the segment of the place it names. -/
theorem segment_of_decode {bs : List UInt8} {a t : Address} {i : Instruction}
    (h : decode bs a = .ok i) (hm : i.mnemonic = .jmpf ∨ i.mnemonic = .callf)
    (ht : i.target? = some t) :
    2 ≤ i.length.toNat ∧ ∃ low high rest,
      bs.drop (i.length.toNat - 2) = low :: high :: rest ∧ littleEndian low high = t.seg := by
  obtain ⟨-, -, -, e, segment, operands, he, hme, -, hos, rest, n, hrun, front, rfl, hlength⟩ :=
    decode_cases h
  obtain ⟨s, hs, hfar⟩ := he.far (hme ▸ hm)
  rw [Encoding.read, hs] at hrun
  cases s with
  | far =>
    obtain ⟨b₀, b₁, b₂, b₃, behind, rfl, rfl, rfl⟩ := Source.run_far hrun
    have htarget : t.seg = littleEndian b₂ b₃ := by
      rw [Instruction.target?, hos] at ht
      split at ht
      · cases ht
        rfl
      · cases ht
    refine ⟨by omega, b₂, b₃, behind, ?_, htarget.symm⟩
    rw [hlength, List.drop_append]
    simp [List.drop_eq_nil_of_le]
  | memory mode disp width =>
    -- A place in memory is not named, but read when the instruction is carried out.
    obtain ⟨m, rfl⟩ := Reader.of_all (Source.all_readAll_memory mode disp width) hrun
    rw [Instruction.target?, hos] at ht
    simp [Operand.withSegment, Instruction.operandTarget?] at ht
  | given | imm8 | imm16 | immSigned | rel8 | rel16 => cases hfar

/-- **Decoded conditional branches lead somewhere**, so the walk can always follow them. -/
theorem target?_of_decode {bs : List UInt8} {a : Address} {i : Instruction}
    (h : decode bs a = .ok i) (hb : i.mnemonic.isConditionalBranch = true) :
    ∃ t, i.target? = some t := by
  obtain ⟨-, -, -, e, segment, operands, he, hm, -, hos, rest, n, hrun, -⟩ := decode_cases h
  obtain ⟨d, hd⟩ := Reader.of_all (Source.all_readAll_rel8 (he.branch (hm ▸ hb))) hrun
  have hmem : Operand.relative d ∈ i.operands := by
    rw [hos]
    exact List.mem_map.2 ⟨_, hd, rfl⟩
  have htransfer : i.isTransfer = true := by
    rw [Instruction.isTransfer, hb, Bool.or_true]
  rw [Instruction.target?, if_pos htransfer]
  apply Option.isSome_iff_exists.1
  rw [List.isSome_findSome?, List.any_eq_true]
  exact ⟨_, hmem, rfl⟩

end RealMode
