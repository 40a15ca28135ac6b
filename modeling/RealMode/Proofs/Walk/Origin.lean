import RealMode.Disassembly.Finish
import RealMode.Proofs.Decode.Operands

namespace RealMode

/-!
# Where the instructions of a function come from

Every instruction of a function was decoded somewhere in the image. Recovery may see its
bytes as another operation afterwards, but never moves or resizes it.

* `Instruction.nextLinear_cases` — the place behind an instruction, with and without wrapping,
  and `Instruction.ReachesSegmentEnd` — when it wraps;
* `Instruction.Recovered` — the operations that recovery puts in place of decoded ones;
* `Routine.Provides` — the instruction was decoded in the image, or recovered from one that
  was;
* `Routine.Provides.usage`, `Routine.Provides.target?`, `Routine.Provides.usage_jump` — what
  holds of decoded operands holds of recovered ones too;
* `Routine.Provides.bounds` — the bytes of the instruction are in the image.
-/

/-! ### Kinds of operation -/

namespace Mnemonic

theorem isReturn_of_isJump {m : Mnemonic} (h : m.isJump = true) : m.isReturn = false := by
  revert h
  cases m <;> decide

theorem isConditionalBranch_of_isJump {m : Mnemonic} (h : m.isJump = true) :
    m.isConditionalBranch = false := by
  revert h
  cases m <;> decide

theorem isJump_of_isConditionalBranch {m : Mnemonic} (h : m.isConditionalBranch = true) :
    m.isJump = false := by
  revert h
  cases m <;> decide

theorem isReturn_of_isConditionalBranch {m : Mnemonic} (h : m.isConditionalBranch = true) :
    m.isReturn = false := by
  revert h
  cases m <;> decide

theorem ne_switch_of_isConditionalBranch {m : Mnemonic} (h : m.isConditionalBranch = true) :
    m ≠ .switch := by
  rintro rfl
  cases h

theorem ne_switch_of_isJump {m : Mnemonic} (h : m.isJump = true) : m ≠ .switch := by
  rintro rfl
  cases h

theorem plain_of_isReturn {m : Mnemonic} (h : m.isReturn = true) :
    m.isJump = false ∧ m.isConditionalBranch = false := by
  revert h
  cases m <;> decide

theorem plain_of_isCall {m : Mnemonic} (h : m.isCall = true) :
    m.isJump = false ∧ m.isConditionalBranch = false := by
  revert h
  cases m <;> decide

end Mnemonic

/-! ### The place behind an instruction -/

/-- The number of bytes of a segment. -/
def segmentSize : Nat := 65536

namespace Instruction

/-- The bytes of the instruction go up to the end of its segment, or across it. -/
def ReachesSegmentEnd (i : Instruction) : Prop :=
  segmentSize ≤ i.address.off.toNat + i.length.toNat

/-- Offsets are counted inside a segment. -/
theorem off_next (i : Instruction) :
    i.next.off.toNat = (i.address.off.toNat + i.length.toNat) % segmentSize := by
  show (i.address.off + i.length.toUInt16).toNat = _
  rw [UInt16.toNat_add, UInt8.toNat_toUInt16]
  rfl

theorem nextLinear_eq (i : Instruction) :
    i.nextLinear = i.address.seg.toNat * 16 + i.next.off.toNat := rfl

theorem linear_eq (i : Instruction) :
    i.linear = i.address.seg.toNat * 16 + i.address.off.toNat := rfl

/-- Inside a segment, the place behind an instruction is where its bytes end. -/
theorem nextLinear_of_inside {i : Instruction} (h : ¬ i.ReachesSegmentEnd) :
    i.nextLinear = i.linear + i.length.toNat := by
  have hoff := i.off_next
  simp only [ReachesSegmentEnd, segmentSize] at h hoff
  rw [nextLinear_eq, linear_eq, hoff]
  omega

/-- At the end of a segment, it is at the bottom again, one segment further down than the bytes
    end. -/
theorem nextLinear_of_reachesSegmentEnd {i : Instruction} (h : i.ReachesSegmentEnd) :
    i.nextLinear + segmentSize = i.linear + i.length.toNat := by
  have hoff := i.off_next
  have hlt := i.address.off.toNat_lt
  have hlen := i.length.toNat_lt
  simp only [ReachesSegmentEnd, segmentSize] at h hoff ⊢
  rw [nextLinear_eq, linear_eq, hoff]
  omega

/-- The place behind an instruction is where its bytes end, or one segment further down. Most proofs
    need no more than that. -/
theorem nextLinear_cases (i : Instruction) :
    i.nextLinear = i.linear + i.length.toNat ∨
      i.nextLinear + segmentSize = i.linear + i.length.toNat := by
  by_cases h : i.ReachesSegmentEnd
  · exact .inr (nextLinear_of_reachesSegmentEnd h)
  · exact .inl (nextLinear_of_inside h)

end Instruction

/-! ### Recovered operations -/

namespace Instruction

/-- An operation that recovery puts in place of a decoded one. -/
inductive Recovered (i : Instruction) : Prop
  | nop (hm : i.mnemonic = .nop) (ho : i.operands = [])
  | switch (index : Register) (cs : List SwitchCase) (hm : i.mnemonic = .switch)
      (ho : i.operands = .register index :: cs.map .case)
  | load (high low : Register) (m : MemoryOperand) (hm : i.mnemonic = .words2dword)
      (ho : i.operands = [.register high, .register low, .memory m])

/-- A recovered operation is no jump, and no conditional branch. A switch transfers control in its
    own way. -/
theorem Recovered.not_transfer {i : Instruction} (h : i.Recovered) :
    i.mnemonic.isJump = false ∧ i.mnemonic.isConditionalBranch = false := by
  cases h with
  | nop hm _ => rw [hm]; exact ⟨rfl, rfl⟩
  | switch _ _ hm _ => rw [hm]; exact ⟨rfl, rfl⟩
  | load _ _ _ hm _ => rw [hm]; exact ⟨rfl, rfl⟩

/-- The operands of a recovered operation have a use. -/
theorem Recovered.usage {i : Instruction} (h : i.Recovered) : ∃ u, i.usage = .ok u := by
  cases h with
  | nop hm ho =>
    have hform : i.mnemonic.form? i.operands.length = some [] := by
      rw [hm, ho]; rfl
    exact usage_of_allFit (by rw [hm]; decide) hform (by rw [ho]; rfl)
  | switch index cs hm ho =>
    -- The first operand is read, every other one is a label.
    apply usage_of_roles
    intro k o hk
    rw [hm, ho]
    rw [ho] at hk
    cases k with
    | zero =>
      simp only [List.getElem?_cons_zero, Option.some.injEq] at hk
      subst hk
      exact ⟨.read, _, rfl, rfl⟩
    | succ k =>
      rw [List.getElem?_cons_succ, List.getElem?_map, Option.map_eq_some_iff] at hk
      obtain ⟨c, hc, rfl⟩ := hk
      have hlt : k + 1 < (Operand.register index :: cs.map .case).length := by
        rw [List.length_cons, List.length_map]
        exact Nat.succ_lt_succ (List.getElem?_eq_some_iff.1 hc).1
      exact ⟨.label, {}, by rw [Mnemonic.role?, if_pos rfl, if_neg (by omega), if_pos hlt], rfl⟩
  | load high low m hm ho =>
    have hform : i.mnemonic.form? i.operands.length = some [.write, .write, .read] := by
      rw [hm, ho]; rfl
    exact usage_of_allFit (by rw [hm]; decide) hform (by rw [ho]; rfl)

end Instruction

/-! ### Instructions of an image -/

/-- The bytes from a place on go up to the top of the image. -/
theorem Image.length_of_bytesFrom? {image : Image} {linear : Nat} {bs : List UInt8}
    (h : image.bytesFrom? linear = some bs) :
    image.base ≤ linear ∧ linear + bs.length = image.top := by
  unfold bytesFrom? at h
  split at h
  · rename_i hin
    simp only [contains, Bool.and_eq_true, decide_eq_true_eq] at hin
    rw [Memory.suffix?_eq] at h
    split at h
    · cases h
      -- The suffix at a place has as many bytes as there are from there to the top.
      have hsize := image.memory.size_eq
      simp only [top] at hin ⊢
      rw [List.length_drop]
      omega
    · cases h
  · cases h

/-- The bytes from a place on tell the words behind it. -/
theorem Image.word?_of_bytesFrom? {image : Image} {linear n : Nat} {bs rest : List UInt8}
    {low high : UInt8} (h : image.bytesFrom? linear = some bs)
    (hn : bs.drop n = low :: high :: rest) :
    image.word? (linear + n) = some (littleEndian low high) := by
  obtain ⟨hbase, htop⟩ := length_of_bytesFrom? h
  have hlt : n < bs.length := by
    have hlength := congrArg List.length hn
    simp only [List.length_drop, List.length_cons] at hlength
    omega
  have hsize := image.memory.size_eq
  have hplace : linear + n - image.base = linear - image.base + n := by omega
  -- The bytes are those of the image from the place on.
  have hbytes : bs = image.memory.bytes.drop (linear - image.base) := by
    unfold bytesFrom? at h
    split at h
    · rw [Memory.suffix?_eq] at h
      split at h
      · cases h
        rfl
      · cases h
    · cases h
  have hin : image.contains (linear + n) = true := by
    simp only [contains, Bool.and_eq_true, decide_eq_true_eq]
    omega
  have hinside : linear - image.base + n < image.memory.bytes.length := by
    rw [hbytes, List.length_drop] at hlt
    omega
  rw [word?, if_pos hin, Memory.word?, hplace, Memory.suffix?_eq, if_pos hinside, ← List.drop_drop,
    ← hbytes, hn]

namespace Routine

variable {r : Routine} {i j : Instruction} {a : Address}

/-- What is decoded at an address is decoded from the bytes there on. -/
theorem decode_of_decodeAt (h : r.decodeAt a = .ok i) :
    ∃ bs, r.image.bytesFrom? a.linear = some bs ∧ decode bs a = .ok i := by
  unfold decodeAt at h
  split at h
  · cases h
  · rename_i bs hbs
    split at h
    · rename_i i' hi
      cases h
      exact ⟨bs, hbs, hi⟩
    · cases h
    · cases h

theorem address_of_decodeAt (h : r.decodeAt a = .ok i) : i.address = a := by
  obtain ⟨bs, -, hi⟩ := decode_of_decodeAt h
  exact (decode_cases hi).1

/-- No switch is decoded; switches are recovered. -/
theorem ne_switch_of_decodeAt (h : r.decodeAt a = .ok i) : i.mnemonic ≠ .switch := by
  obtain ⟨bs, -, hi⟩ := decode_of_decodeAt h
  exact (mnemonic_of_decode hi).1

/-- Only interrupts end the process. A return ends the function and no more. -/
theorem int_of_isExit {ah : Option UInt8} (h : r.isExit i ah = true) : i.mnemonic = .int := by
  by_cases hm : i.mnemonic = .int
  · exact hm
  · rw [isExit, Instruction.vector?, if_neg hm] at h
    cases h

/-- The instruction was decoded in the image, or recovered from one that was. -/
def Provides (r : Routine) (i : Instruction) : Prop :=
  ∃ j, r.decodeAt i.address = .ok j ∧ j.length = i.length ∧ (i = j ∨ i.Recovered)

/-- What is decoded in the image is provided by it, nothing being recovered yet. -/
theorem provides_of_decodeAt (h : r.decodeAt a = .ok i) : r.Provides i :=
  ⟨i, address_of_decodeAt h ▸ h, rfl, .inl rfl⟩

/-- The same bytes may be seen as a recovered operation, at the same place and of the same
    length. -/
theorem Provides.recovered (hi : r.Provides i) (ha : j.address = i.address)
    (hl : j.length = i.length) (hj : j.Recovered) : r.Provides j := by
  obtain ⟨i', hdec, hlen, -⟩ := hi
  exact ⟨i', ha ▸ hdec, hl ▸ hlen, .inr hj⟩

namespace Provides

/-- An instruction of the image has bytes, and they are in the image. -/
theorem bounds (h : r.Provides i) :
    0 < i.length.toNat ∧ r.image.base ≤ i.linear ∧ i.linear + i.length.toNat ≤ r.image.top := by
  obtain ⟨j, hdec, hlen, -⟩ := h
  obtain ⟨bs, hbs, hj⟩ := decode_of_decodeAt hdec
  obtain ⟨-, hpos, hle, -⟩ := decode_cases hj
  obtain ⟨hbase, htop⟩ := Image.length_of_bytesFrom? hbs
  rw [hlen] at hpos hle
  simp only [Instruction.linear]
  omega

/-- An instruction of the image is not one that was made up, as those have no bytes. -/
theorem not_isSynthetic (h : r.Provides i) : i.isSynthetic = false := by
  have hpos := h.bounds.1
  rw [Instruction.isSynthetic, beq_eq_false_iff_ne]
  intro h0
  rw [h0] at hpos
  exact absurd hpos (by decide)

/-- An instruction of the image has a use: its operands are ones that decoding gives, or
    recovery. -/
theorem usage (h : r.Provides i) : ∃ u, i.usage = .ok u := by
  obtain ⟨j, hdec, -, rfl | hrec⟩ := h
  · obtain ⟨bs, -, hi⟩ := decode_of_decodeAt hdec
    exact usage_of_decode hi
  · exact hrec.usage

/-- A conditional branch leads somewhere. -/
theorem target? (h : r.Provides i) (hb : i.mnemonic.isConditionalBranch = true) :
    ∃ t, i.target? = some t := by
  obtain ⟨j, hdec, -, rfl | hrec⟩ := h
  · obtain ⟨bs, -, hi⟩ := decode_of_decodeAt hdec
    exact target?_of_decode hi hb
  · rw [hrec.not_transfer.2] at hb
    cases hb

/-- A jump to a place it names reads and writes nothing. -/
theorem usage_jump (h : r.Provides i) (hj : i.mnemonic.isJump = true) {t : Address}
    (ht : i.target? = some t) : i.usage = .ok {} := by
  obtain ⟨j, hdec, -, rfl | hrec⟩ := h
  · obtain ⟨bs, -, hi⟩ := decode_of_decodeAt hdec
    exact usage_of_decode_jump hi hj ht
  · rw [hrec.not_transfer.1] at hj
    cases hj

end Provides

end Routine

end RealMode
