import RealMode.Proofs.Decode.Locality

namespace RealMode

/-!
# Instructions are a prefix code

Decoding goes through the bytes from left to right. It ends where it has an instruction, or where it
is clear that there is none, and only if the bytes run out before that more of them can matter.

* `Prefixes.scan_append_more`, `Operation.read_append`, `decode_append` — bytes at the end change
  nothing, unless the bytes ran out without them;
* `decode_take_eq_truncated` — so an instruction cannot do with fewer bytes than it has;
* `take_eq_of_prefix` — and no instruction is the beginning of another one;
* `decode_reads_prefix_code` — all of it together.
-/

/-! ### More bytes at the end -/

/-- The bytes behind those of the operands do not matter, unless the operands themselves have run
    out of bytes. -/
theorem Encoding.operation_append {e : Encoding} {before : Nat} {bs : List UInt8}
    (h : e.operation before bs ≠ .error .truncated) (more : List UInt8) :
    e.operation before (bs ++ more) = e.operation before bs := by
  cases hrun : e.read.run bs with
  | none =>
    have htruncated : e.operation before bs = .error .truncated := by rw [operation, hrun]
    exact absurd htruncated h
  | some result =>
    obtain ⟨operands, n⟩ := result
    rw [operation, operation, Reader.run_append hrun more, hrun]

/-- An operation is read, or refused, without a look at what is behind it. -/
theorem Operation.read_append {op : UInt8} {bs : List UInt8}
    (h : Operation.read op bs ≠ .error .truncated) (more : List UInt8) :
    Operation.read op (bs ++ more) = Operation.read op bs := by
  unfold Operation.read at h ⊢
  cases hentry : opcodeEntry op with
  | invalid => rfl
  | plain e =>
    simp only [hentry] at h
    exact Encoding.operation_append h more
  | modrm select =>
    cases bs with
    | nil => simp [hentry] at h
    | cons b bs =>
      -- The first byte selects the encoding, and more bytes at the end leave it the first.
      simp only [hentry, List.cons_append] at h ⊢
      cases hselect : select (ModRM.ofByte b) with
      | none => rfl
      | some e =>
        simp only [hselect] at h
        exact Encoding.operation_append h more

/-- More bytes at the end stay behind the opcode, or are not come to because an error was met
    before. -/
theorem Prefixes.scan_append_more {p : Prefixes} {bs : List UInt8}
    (h : p.scan bs ≠ .error .truncated) (more : List UInt8) :
    p.scan (bs ++ more) = (p.scan bs).map fun (q, op, rest) => (q, op, rest ++ more) := by
  induction bs generalizing p with
  | nil => simp [scan] at h
  | cons b bs ih =>
    rw [List.cons_append, scan, scan]
    rw [scan] at h
    cases hbyte : PrefixByte.ofByte? b with
    | none => rfl
    | some f =>
      cases hpush : p.push f with
      | error e => simp only [hpush, Except.map]
      | ok q =>
        simp only [hbyte, hpush] at h ⊢
        exact ih h

/-- **More bytes at the end change nothing**, unless the bytes ran out without them. -/
theorem decode_append {bs : List UInt8} {a : Address} (h : decode bs a ≠ .error .truncated)
    (more : List UInt8) : decode (bs ++ more) a = decode bs a := by
  unfold decode at h ⊢
  have hscan : Prefixes.scan {} bs ≠ .error .truncated := by
    intro htruncated
    simp [htruncated, bind, Except.bind] at h
  rw [Prefixes.scan_append_more hscan]
  cases hparts : Prefixes.scan {} bs with
  | error e => rfl
  | ok parts =>
    obtain ⟨p, op, rest⟩ := parts
    have hread : Operation.read op rest ≠ .error .truncated := by
      intro htruncated
      simp [hparts, htruncated, bind, Except.bind] at h
    simp only [Except.map, bind, Except.bind, Operation.read_append hread]

/-! ### Fewer bytes -/

/-- An instruction is decoded from its own bytes alone. -/
theorem decode_take_length {bs : List UInt8} {a : Address} {i : Instruction}
    (h : decode bs a = .ok i) : decode (bs.take i.length.toNat) a = .ok i := by
  have hsame : (bs.take i.length.toNat).take i.length.toNat = bs.take i.length.toNat := by
    rw [List.take_take, Nat.min_self]
  rw [decode_of_take h hsame a, ← (decode_cases h).1]

/-- **An instruction needs all its bytes.** With fewer of them, the bytes run out. -/
theorem decode_take_eq_truncated {bs : List UInt8} {a : Address} {i : Instruction}
    (h : decode bs a = .ok i) {n : Nat} (hn : n < i.length.toNat) :
    decode (bs.take n) a = .error .truncated := by
  by_cases hmore : decode (bs.take n) a = .error .truncated
  · exact hmore
  · -- Anything else would stay as it is with the rest of the bytes, so it would be `i` itself.
    have hearly : decode (bs.take n) a = .ok i := by
      rw [← decode_append hmore (bs.drop n), List.take_append_drop, h]
    have hlength := (decode_cases hearly).2.2.1
    rw [List.length_take] at hlength
    omega

/-- **No instruction is the beginning of another one**, since the shorter one would have been read
    from the bytes of the longer. -/
theorem take_eq_of_prefix {bs bs' : List UInt8} {a b : Address} {i j : Instruction}
    (hi : decode bs a = .ok i) (hj : decode bs' b = .ok j)
    (h : bs.take i.length.toNat <+: bs'.take j.length.toNat) :
    bs.take i.length.toNat = bs'.take j.length.toNat := by
  have hlong : i.length.toNat ≤ bs.length := (decode_cases hi).2.2.1
  have hwhole : bs.take i.length.toNat <+: bs' := h.trans (List.take_prefix _ _)
  -- The bytes of `i` stand in front of the others, too, so they are decoded there.
  have hsame : bs'.take i.length.toNat = bs.take i.length.toNat := by
    rw [List.prefix_iff_eq_take.1 hwhole, List.length_take, Nat.min_eq_left hlong]
  have hthere := decode_of_take hi hsame b
  rw [hj] at hthere
  cases hthere
  exact hsame.symm

/-! ### The code -/

/-- **Instructions are a prefix code.** Unless the bytes run out, whatever follows them does not
    matter. An instruction has at least one byte and at most 255, and no more than there are; these
    bytes alone give it, with any fewer of them the bytes run out, and they are the beginning of no
    other instruction, wherever that one is. -/
theorem decode_reads_prefix_code (bs : List UInt8) (a : Address) :
    (decode bs a ≠ .error .truncated → ∀ more, decode (bs ++ more) a = decode bs a) ∧
    ∀ i, decode bs a = .ok i →
      1 ≤ i.length.toNat ∧ i.length.toNat ≤ min 255 bs.length ∧
      decode (bs.take i.length.toNat) a = .ok i ∧
      (∀ n < i.length.toNat, decode (bs.take n) a = .error .truncated) ∧
      ∀ bs' b j, decode bs' b = .ok j → bs.take i.length.toNat <+: bs'.take j.length.toNat →
        bs.take i.length.toNat = bs'.take j.length.toNat := by
  refine ⟨decode_append, fun i hi => ?_⟩
  obtain ⟨-, hpos, hlong, -⟩ := decode_cases hi
  have hbyte := i.length.toNat_lt
  refine ⟨hpos, ?_, decode_take_length hi, fun n hn => decode_take_eq_truncated hi hn, ?_⟩
  · rw [Nat.le_min]
    omega
  · intro bs' b j hj hprefix
    exact take_eq_of_prefix hi hj hprefix

/-- A jump through a table has five bytes, of which the first two alone tell nothing. -/
theorem decode_reads_prefix_code_tableJump :
    ∃ i, decode [0x2E, 0xFF, 0xA7, 0x10, 0x01, 0xC3] ⟨0, 0x100⟩ = .ok i ∧ i.length.toNat = 5 ∧
      (∀ more, decode ([0x2E, 0xFF, 0xA7, 0x10, 0x01, 0xC3] ++ more) ⟨0, 0x100⟩ = .ok i) ∧
      decode [0x2E, 0xFF, 0xA7, 0x10, 0x01] ⟨0, 0x100⟩ = .ok i ∧
      decode [0x2E, 0xFF] ⟨0, 0x100⟩ = .error .truncated := by
  obtain ⟨i, hi, hlength⟩ : ∃ i, decode [0x2E, 0xFF, 0xA7, 0x10, 0x01, 0xC3] ⟨0, 0x100⟩ = .ok i ∧
      i.length.toNat = 5 := ⟨_, rfl, rfl⟩
  obtain ⟨hmore, hcode⟩ := decode_reads_prefix_code [0x2E, 0xFF, 0xA7, 0x10, 0x01, 0xC3] ⟨0, 0x100⟩
  obtain ⟨-, -, hown, hfewer, -⟩ := hcode i hi
  rw [hi] at hmore
  rw [hlength] at hown hfewer
  exact ⟨i, hi, hlength, hmore (by simp), hown, hfewer 2 (by omega)⟩

end RealMode
