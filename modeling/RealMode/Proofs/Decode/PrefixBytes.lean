import RealMode.Proofs.Decode.Operands
import RealMode.Proofs.Lists

namespace RealMode

/-!
# What stands in front of an instruction

Bytes in front of an opcode may come in any number and order. They do not change which instruction
it is, and of each kind the last one counts.

* `prefixBytes`, `lastOverride?`, `lastRepetition?` — those bytes, and what a list of them asks for;
* `Instruction.behind` — what becomes of an instruction behind such bytes;
* `Prefixes.scan_prefixes` — reading them leaves what the last of each kind asks for, and their
  number;
* `Operation.ownSegment_of_read` — without an override, a place in memory is in the segment of its
  addressing mode, in every operation of the opcode table;
* `decode_behind_prefixes` — so decoding behind such bytes gives the instruction as it is without
  them, but for what they ask for.
-/

/-! ### Bytes in front of an opcode -/

/-- The bytes that may stand in front of an opcode. -/
def prefixBytes : List UInt8 := [0x26, 0x2E, 0x36, 0x3E, 0x64, 0x65, 0xF0, 0xF2, 0xF3]

/-- The segment that a byte asks for. -/
def overrideOf? (b : UInt8) : Option SegmentRegister :=
  match b with
  | 0x26 => some .es
  | 0x2E => some .cs
  | 0x36 => some .ss
  | 0x3E => some .ds
  | 0x64 => some .fs
  | 0x65 => some .gs
  | _ => none

/-- The repetition that a byte asks for. -/
def repetitionOf? (b : UInt8) : Option Repetition :=
  match b with
  | 0xF2 => some .repne
  | 0xF3 => some .rep
  | _ => none

/-- The last segment that the bytes ask for. -/
def lastOverride? (front : List UInt8) : Option SegmentRegister :=
  (front.filterMap overrideOf?).getLast?

/-- The last repetition that the bytes ask for. -/
def lastRepetition? (front : List UInt8) : Option Repetition :=
  (front.filterMap repetitionOf?).getLast?

/-- The operand under an override or without one. A place in memory is then in the segment that is
    asked for, or in that of its addressing mode. -/
def Operand.under (override : Option SegmentRegister) : Operand → Operand
  | .memory m => .memory { m with segment := override.getD m.mode.defaultSegment }
  | o => o

/-- What an instruction becomes behind bytes in front of its opcode. -/
def Instruction.behind (front : List UInt8) (i : Instruction) : Instruction :=
  { i with
    operands := i.operands.map (Operand.under (lastOverride? front))
    repetition := if i.mnemonic.isString then lastRepetition? front else none
    segmentOverride := lastOverride? front
    length := UInt8.ofNat (front.length + i.length.toNat) }

/-! ### Reading them -/

/-- Each of the bytes counts as one, and asks for what it stands for; what others have asked for of
    another kind stays. -/
theorem exists_push_of_mem {b : UInt8} (h : b ∈ prefixBytes) :
    ∃ f, PrefixByte.ofByte? b = some f ∧ ∀ p : Prefixes, p.push f =
      .ok ⟨(overrideOf? b).or p.segment, (repetitionOf? b).or p.repetition, p.count + 1⟩ := by
  simp only [prefixBytes, List.mem_cons, List.not_mem_nil, or_false] at h
  rcases h with rfl | rfl | rfl | rfl | rfl | rfl | rfl | rfl | rfl <;>
    exact ⟨_, rfl, fun p => rfl⟩

/-- Any other byte is an opcode, or asks for a width that the machine does not have. -/
theorem ofByte?_of_not_mem {b : UInt8} (h : b ∉ prefixBytes) :
    PrefixByte.ofByte? b = none ∨ PrefixByte.ofByte? b = some .wide := by
  unfold PrefixByte.ofByte?
  split
  all_goals first
    | exact .inl rfl
    | exact .inr rfl
    | exact absurd (by decide) h

/-- **Of each kind the last byte counts.** Reading the bytes leaves what the last override and the
    last repetition ask for, and what was asked for before where there are none. -/
theorem Prefixes.scan_prefixes {front : List UInt8} (h : ∀ b ∈ front, b ∈ prefixBytes)
    (p : Prefixes) (bs : List UInt8) :
    p.scan (front ++ bs) =
      scan ⟨(lastOverride? front).or p.segment, (lastRepetition? front).or p.repetition,
        p.count + front.length⟩ bs := by
  induction front generalizing p with
  | nil => rfl
  | cons b front ih =>
    obtain ⟨f, hf, hpush⟩ := exists_push_of_mem (h b List.mem_cons_self)
    have hrest := fun b' hb' => h b' (List.mem_cons_of_mem b hb')
    rw [List.cons_append, scan, hf]
    simp only [hpush]
    -- What the tail asks for comes later than what `b` does.
    rw [ih hrest, lastOverride?, lastOverride?, lastRepetition?, lastRepetition?,
      getLast?_filterMap_cons, getLast?_filterMap_cons, Option.or_assoc, Option.or_assoc,
      List.length_cons, Nat.add_assoc, Nat.add_comm 1]

/-- Where no such byte stands in front, reading fails, or comes to the opcode at once. -/
theorem Prefixes.scan_cases {bs : List UInt8} (h : ∀ b ∈ bs.head?, b ∉ prefixBytes) :
    (∃ e, ∀ p : Prefixes, p.scan bs = .error e) ∨
      ∃ op rest, bs = op :: rest ∧ ∀ p : Prefixes, p.scan bs = .ok (p, op, rest) := by
  cases bs with
  | nil => exact .inl ⟨.truncated, fun p => rfl⟩
  | cons op rest =>
    rcases ofByte?_of_not_mem (h op rfl) with hbyte | hbyte
    · exact .inr ⟨op, rest, rfl, fun p => by rw [scan, hbyte]⟩
    · exact .inl ⟨.wideSize, fun p => by rw [scan, hbyte]; rfl⟩

/-! ### Places in memory -/

/-- An operand in memory is in the segment of its addressing mode. -/
def Operand.InOwnSegment (o : Operand) : Prop :=
  ∀ m, o = .memory m → m.segment = m.mode.defaultSegment

/-- An override acts on such an operand as it does on what the table gives, since without one the
    operand is in the segment of its mode. -/
theorem Operand.InOwnSegment.withSegment {o : Operand} (h : o.InOwnSegment)
    (override : Option SegmentRegister) :
    o.withSegment override = (o.withSegment none).under override := by
  cases o with
  | memory m =>
    show Operand.memory { m with segment := override.getD m.segment } = _
    rw [h m rfl]
    rfl
  | immediate | register | segment | condition | relative | far | case => rfl

/-- A place in memory is read with the segment of its mode; an override is put on top of that
    later. -/
theorem Source.all_read_inOwnSegment {s : Source} {access : Access} (h : s.fits access = true) :
    s.read.All Operand.InOwnSegment := by
  cases s with
  | given o =>
    rw [fits, Bool.and_eq_true] at h
    intro m hm
    subst hm
    simp [Operand.memory?] at h
  | memory mode disp width =>
    apply Reader.all_map
    intro d m hm
    cases hm
    rfl
  | far =>
    apply Reader.all_bind (Reader.all_true _)
    intro off _
    apply Reader.all_map
    intro seg m hm
    cases hm
  | imm8 | imm16 | immSigned | rel8 | rel16 =>
    apply Reader.all_map
    intro value m hm
    cases hm

/-- So are all places in memory that are read from several sources. -/
theorem Source.all_readAll_inOwnSegment {form : List Access} {sources : List Source}
    (h : Access.allFit fits form sources = true) :
    (readAll sources).All fun operands => ∀ o ∈ operands, o.InOwnSegment := by
  induction sources generalizing form with
  | nil => exact fun o ho => absurd ho List.not_mem_nil
  | cons s sources ih =>
    cases form with
    | nil => simp [Access.allFit] at h
    | cons access form =>
      rw [Access.allFit, Bool.and_eq_true] at h
      refine Reader.all_bind (all_read_inOwnSegment h.1) fun o ho => ?_
      refine Reader.all_bind (ih h.2) fun operands hos => ?_
      exact List.forall_mem_cons.2 ⟨ho, hos⟩

/-- **Operations are read with the segments of their addressing modes**, in every row of the opcode
    table. -/
theorem Operation.ownSegment_of_read {op : UInt8} {bs : List UInt8} {o : Operation}
    (h : Operation.read op bs = .ok o) : ∀ x ∈ o.operands, x.InOwnSegment := by
  obtain ⟨e, he, -, -, -, rest, n, -, hrun, -⟩ := Operation.read_cases h
  obtain ⟨form, -, hfit⟩ := he.fits
  exact Reader.of_all (Source.all_readAll_inOwnSegment hfit) hrun

/-! ### Instructions behind such bytes -/

/-- **An operation behind more bytes in front.** It is the same instruction but for what they ask
    for, unless it gets too long. -/
theorem Prefixes.instruction_behind {op : UInt8} {bs : List UInt8} {o : Operation}
    (ho : Operation.read op bs = .ok o) {a : Address} {i : Instruction}
    (hi : Prefixes.instruction {} op o a = .ok i) (front : List UInt8) :
    Prefixes.instruction ⟨lastOverride? front, lastRepetition? front, front.length⟩ op o a =
      if front.length + i.length.toNat ≤ 255 then .ok (i.behind front)
      else .error (.invalidOpcode op) := by
  have hown := Operation.ownSegment_of_read ho
  simp only [instruction] at hi ⊢
  split at hi
  · rename_i hsmall
    cases hi
    have hlength : (UInt8.ofNat (0 + 1 + o.length)).toNat = 0 + 1 + o.length :=
      UInt8.toNat_ofNat_of_lt hsmall
    -- The operands have no segment of their own yet, so the override is put in one go.
    have hoperands : o.operands.map (Operand.withSegment (lastOverride? front)) =
        (o.operands.map (Operand.withSegment none)).map (Operand.under (lastOverride? front)) := by
      rw [List.map_map]
      exact List.map_congr_left fun x hx => (hown x hx).withSegment _
    have hsum : front.length + (0 + 1 + o.length) = front.length + 1 + o.length := by omega
    simp only [Instruction.behind, hlength, hoperands, hsum]
    -- The two ways of telling that the length fits into a byte agree.
    by_cases hfits : front.length + 1 + o.length < 256
    · have hle : front.length + 1 + o.length ≤ 255 := by omega
      rw [if_pos hfits, if_pos hle]
    · have hle : ¬ front.length + 1 + o.length ≤ 255 := by omega
      rw [if_neg hfits, if_neg hle]
  · cases hi

/-- An operation that is too long alone is so behind more bytes, and is refused for the same
    reason. -/
theorem Prefixes.instruction_error_behind {op : UInt8} {o : Operation} {a : Address}
    {e : DecodeError} (he : Prefixes.instruction {} op o a = .error e) (front : List UInt8) :
    Prefixes.instruction ⟨lastOverride? front, lastRepetition? front, front.length⟩ op o a =
      .error e := by
  simp only [instruction] at he ⊢
  split at he
  · cases he
  · rename_i hlong
    have hlonger : ¬ front.length + 1 + o.length < 256 := by omega
    rw [if_neg hlonger]
    exact he

/-- **Bytes in front of an instruction act apart from it.** Behind any such bytes, what is no
    instruction is refused for the same reason. An instruction keeps all but its length, its segment
    override, the segments of its places in memory and its repetition, for which the last byte of
    each kind counts; it is refused by its opcode if it gets longer than 255 bytes. -/
theorem decode_behind_prefixes {front bs : List UInt8} (hfront : ∀ b ∈ front, b ∈ prefixBytes)
    (hbs : ∀ b ∈ bs.head?, b ∉ prefixBytes) (a : Address) :
    (∀ e, decode bs a = .error e → decode (front ++ bs) a = .error e) ∧
    ∀ i, decode bs a = .ok i →
      (front.length + i.length.toNat ≤ 255 → decode (front ++ bs) a = .ok (i.behind front)) ∧
      (255 < front.length + i.length.toNat →
        ∃ op, bs.head? = some op ∧ decode (front ++ bs) a = .error (.invalidOpcode op)) := by
  -- Scanning the bytes in front leaves a state that the rest of decoding starts from.
  have hbehind : decode (front ++ bs) a =
      (Prefixes.scan ⟨lastOverride? front, lastRepetition? front, front.length⟩ bs).bind
        fun x => (Operation.read x.2.1 x.2.2).bind fun o => x.1.instruction x.2.1 o a := by
    show (Prefixes.scan {} (front ++ bs)).bind _ = _
    rw [Prefixes.scan_prefixes hfront, Option.or_none, Option.or_none, Nat.zero_add]
    rfl
  have hplain : decode bs a = (Prefixes.scan {} bs).bind
      fun x => (Operation.read x.2.1 x.2.2).bind fun o => x.1.instruction x.2.1 o a := rfl
  rcases Prefixes.scan_cases hbs with ⟨e, he⟩ | ⟨op, rest, rfl, hscan⟩
  · rw [hbehind, hplain, he, he]
    exact ⟨fun e' he' => he', fun i hi => by cases hi⟩
  · rw [hbehind, hplain, hscan, hscan]
    simp only [Except.bind]
    cases hread : Operation.read op rest with
    | error e => exact ⟨fun e' he' => he', fun i hi => by cases hi⟩
    | ok o =>
      refine ⟨fun e he => ?_, fun i hi => ?_⟩
      · exact Prefixes.instruction_error_behind he front
      · simp only at hi ⊢
        rw [Prefixes.instruction_behind hread hi]
        exact ⟨fun hfits => if_pos hfits, fun hlong => ⟨op, rfl, if_neg (Nat.not_le.2 hlong)⟩⟩

/-- Two repetitions, two overrides and a lock in front of a load: it is no string operation, and the
    last override counts. -/
theorem decode_behind_prefixes_load :
    ∃ i, decode [0x8B, 0x46, 0xFE] ⟨0, 0x100⟩ = .ok i ∧
      i.operands = [.register .ax, .memory ⟨.bp, 0xFFFE, .ss, .word⟩] ∧
      decode ([0xF3, 0x26, 0xF0, 0x2E, 0xF2] ++ [0x8B, 0x46, 0xFE]) ⟨0, 0x100⟩ =
        .ok { i with
          operands := [.register .ax, .memory ⟨.bp, 0xFFFE, .cs, .word⟩]
          segmentOverride := some .cs
          length := 8 } := by
  have hi : decode [0x8B, 0x46, 0xFE] ⟨0, 0x100⟩ = .ok
      { address := ⟨0, 0x100⟩, mnemonic := .mov,
        operands := [.register .ax, .memory ⟨.bp, 0xFFFE, .ss, .word⟩], length := 3 } := rfl
  obtain ⟨-, hok⟩ := @decode_behind_prefixes [0xF3, 0x26, 0xF0, 0x2E, 0xF2] [0x8B, 0x46, 0xFE]
    (by simp [prefixBytes]) (by simp [prefixBytes]) ⟨0, 0x100⟩
  exact ⟨_, hi, rfl, (hok _ hi).1 (by decide)⟩

end RealMode
