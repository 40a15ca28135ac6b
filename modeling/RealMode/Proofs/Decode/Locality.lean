import RealMode.Proofs.Decode.Operands

namespace RealMode

/-!
# Decoding sees the bytes of the instruction and no others

* `Reader.run_of_take` — a reading is the same on all bytes that begin with those it takes;
* `Prefixes.scan_append`, `Operation.read_of_take` — so it is with what stands in front of an
  opcode, and with the operation behind it;
* `decode_of_take` — an instruction is decoded wherever its bytes are, whatever is behind them, and
  only its address tells where that was.
-/

/-- Bytes that begin like others with a known front have that front, too, and what stands behind it
    begins alike. -/
theorem exists_append_of_take {front rest bs : List UInt8} {n : Nat}
    (h : bs.take (front.length + n) = (front ++ rest).take (front.length + n)) :
    ∃ rest', bs = front ++ rest' ∧ rest'.take n = rest.take n := by
  have hfront : bs.take front.length = front := by
    have htake := congrArg (List.take front.length) h
    rw [List.take_take, List.take_take, Nat.min_eq_left (Nat.le_add_right _ n)] at htake
    rw [htake, List.take_left]
  have hrest : (bs.drop front.length).take n = rest.take n := by
    have hdrop := congrArg (List.drop front.length) h
    rwa [List.drop_take, List.drop_take, Nat.add_sub_cancel_left, List.drop_left] at hdrop
  refine ⟨bs.drop front.length, ?_, hrest⟩
  calc bs = bs.take front.length ++ bs.drop front.length := (List.take_append_drop _ _).symm
    _ = front ++ bs.drop front.length := by rw [hfront]

/-- A reading is the same on all bytes that begin with those it takes, however they go on. -/
theorem Reader.run_of_take {α : Type} {r : Reader α} {bs bs' : List UInt8} {a : α} {n : Nat}
    (h : r.run bs = some (a, n)) (ht : bs'.take n = bs.take n) : r.run bs' = some (a, n) := by
  have htaken : r.run (bs'.take n) = some (a, n) := by
    rw [ht]
    exact (run_take h).2
  rw [← List.take_append_drop n bs']
  exact run_append htaken _

/-- What stands in front of an opcode is found without a look at what is behind it. -/
theorem Prefixes.scan_append {p q : Prefixes} {front rest : List UInt8} {op : UInt8}
    (h : p.scan (front ++ op :: rest) = .ok (q, op, rest)) (rest' : List UInt8) :
    p.scan (front ++ op :: rest') = .ok (q, op, rest') := by
  induction front generalizing p with
  | nil =>
    rw [List.nil_append, scan] at h ⊢
    split at h
    · cases h
      rfl
    · -- An opcode further on would leave fewer bytes behind it.
      split at h
      · obtain ⟨before, hbytes, -⟩ := append_of_scan h
        have hlength := congrArg List.length hbytes
        simp only [List.length_append, List.length_cons] at hlength
        omega
      · cases h
  | cons b front ih =>
    rw [List.cons_append, scan] at h ⊢
    split at h
    · -- The first byte is a prefix, since the opcode that was found stands further on.
      have hlength := congrArg (fun parts => parts.2.2.length) (Except.ok.inj h)
      simp only [List.length_append, List.length_cons] at hlength
      omega
    · split at h
      · exact ih h
      · cases h

/-- The operands of an encoding are read from the bytes that the operation has. -/
theorem Encoding.operation_of_take {e : Encoding} {before : Nat} {bs bs' : List UInt8}
    {o : Operation} (h : e.operation before bs = .ok o)
    (ht : ∀ n, o.length = before + n → bs'.take n = bs.take n) :
    e.operation before bs' = .ok o := by
  unfold operation at h ⊢
  split at h
  · rename_i operands n hrun
    cases h
    rw [Reader.run_of_take hrun (ht n rfl)]
  · cases h

/-- An operation is read wherever its bytes are, whatever is behind them. -/
theorem Operation.read_of_take {op : UInt8} {bs bs' : List UInt8} {o : Operation}
    (h : Operation.read op bs = .ok o) (ht : bs'.take o.length = bs.take o.length) :
    Operation.read op bs' = .ok o := by
  unfold Operation.read at h ⊢
  split at h
  · cases h
  · rename_i e _
    exact Encoding.operation_of_take h fun n hn => by rwa [hn, Nat.zero_add] at ht
  · split at h
    · cases h
    · rename_i b rest
      split at h
      · cases h
      · rename_i e hselect
        -- The byte that selects the encoding is one of the operation's.
        obtain ⟨n, hn⟩ : ∃ n, o.length = 1 + n := by
          unfold Encoding.operation at h
          split at h
          · rename_i operands n _
            cases h
            exact ⟨n, rfl⟩
          · cases h
        have hbegins : bs'.take ([b].length + n) = ([b] ++ rest).take ([b].length + n) := by
          rwa [hn] at ht
        obtain ⟨rest', rfl, hrest⟩ := exists_append_of_take hbegins
        simp only [List.singleton_append, hselect]
        exact Encoding.operation_of_take h fun n' hn' => by
          rwa [show n' = n by omega]

/-- **An instruction is decoded from its own bytes**, whatever is behind them, and only its address
    tells where that was. -/
theorem decode_of_take {bs bs' : List UInt8} {a : Address} {i : Instruction}
    (h : decode bs a = .ok i) (ht : bs'.take i.length.toNat = bs.take i.length.toNat)
    (b : Address) : decode bs' b = .ok { i with address := b } := by
  unfold decode at h ⊢
  cases hscan : Prefixes.scan {} bs with
  | error e => simp [hscan, bind, Except.bind] at h
  | ok parts =>
    obtain ⟨p, op, rest⟩ := parts
    cases hread : Operation.read op rest with
    | error e => simp [hscan, hread, bind, Except.bind] at h
    | ok o =>
      simp only [hscan, hread, bind, Except.bind, Prefixes.instruction] at h
      split at h
      · rename_i hsmall
        cases h
        obtain ⟨front, rfl, hcount⟩ := Prefixes.append_of_scan hscan
        -- The bytes of the instruction are the prefixes, the opcode and those of the operation.
        have hlength : (UInt8.ofNat (p.count + 1 + o.length)).toNat
            = (front ++ [op]).length + o.length := by
          have hnat : (UInt8.ofNat (p.count + 1 + o.length)).toNat = p.count + 1 + o.length :=
            UInt8.toNat_ofNat_of_lt hsmall
          rw [hnat, hcount, List.length_append, List.length_singleton, Nat.zero_add]
        simp only [hlength] at ht
        rw [List.append_cons front op rest] at ht
        obtain ⟨rest', rfl, hrest⟩ := exists_append_of_take ht
        rw [List.append_assoc, List.singleton_append]
        simp only [Prefixes.scan_append hscan rest', Operation.read_of_take hread hrest, bind,
          Except.bind, Prefixes.instruction, if_pos hsmall]
      · cases h

end RealMode
