import RealMode.Proofs.Disassembly.Encoded
import RealMode.Proofs.Walk.Arrival

namespace RealMode

/-!
# What a disassembly tells of the ways of control

* `Disassembly.transfers`, `Disassembly.fallsThrough` — where control goes from an instruction,
  and `Walk.Finished.mem_successors_iff` — it goes nowhere else;
* `Walk.Finished.isLabel_iff` — the labels are the places that control is transferred to;
* `Walk.Finished.exists_run` — control comes to every instruction of the disassembly;
* `Walk.Finished.mem_unresolved_iff` — the records are those of the jumps that are not followed.

All of it holds of finished walks that are exact, so for all templates that fold only what
leads straight on.
-/

/-- What recovery makes is no return. -/
theorem Instruction.Recovered.isReturn {i : Instruction} (h : i.Recovered) :
    i.mnemonic.isReturn = false := by
  cases h with
  | nop hm _ => rw [hm]; rfl
  | switch _ _ hm _ => rw [hm]; rfl
  | load _ _ _ hm _ => rw [hm]; rfl

namespace Disassembly

/-- Whether control goes straight on behind an instruction. -/
def fallsThrough (d : Disassembly) (i : Instruction) : Bool :=
  !(i.mnemonic.isJump || i.mnemonic.isReturn || i.mnemonic == .switch || d.isExit i.linear)

/-- The places that control is transferred to by an instruction, if it is followed. -/
def transfers (d : Disassembly) (i : Instruction) : List Nat :=
  if (d.unresolvedAt? i.linear).isSome then [] else i.transfers

variable {d : Disassembly} {i : Instruction}

/-- Control goes straight on behind an instruction if it is none of the four kinds that send it
    elsewhere or stop it. -/
theorem fallsThrough_iff : d.fallsThrough i = true ↔ i.mnemonic.isJump = false ∧
    i.mnemonic.isReturn = false ∧ i.mnemonic ≠ .switch ∧ d.isExit i.linear = false := by
  simp [fallsThrough, and_assoc]

/-- A run goes on where its last instruction leads, so runs can be built up from the entry. -/
theorem Run.extend {a b : Nat} {is : List Instruction} {j : Instruction}
    (h : d.Run a (is ++ [i])) (hb : b ∈ d.successors i) (hj : d.find? b = some j) :
    d.Run a (is ++ [i] ++ [j]) := by
  generalize hrun : is ++ [i] = run at h
  induction h generalizing is with
  | nil a => simp at hrun
  | last hi =>
    obtain ⟨rfl, rfl⟩ : is = [] ∧ i = _ := by simpa [List.append_eq_cons_iff] using hrun
    exact .step hi hb (.last hj)
  | @step a c i' rest hi hc h ih =>
    cases is with
    | nil =>
      obtain ⟨rfl, rfl⟩ : i = i' ∧ [] = rest := by simpa using hrun
      exact .step hi hb (.last hj)
    | cons i'' is =>
      obtain ⟨rfl, hrest⟩ : i'' = i' ∧ is ++ [i] = rest := by simpa using hrun
      rw [← hrest]
      exact .step hi hc (hrest ▸ ih hrest)

end Disassembly

namespace Walk.Finished

variable {r : Routine} {w : Walk} {d : Disassembly} {k : Nat} {i j : Instruction}

/-! ### Ways of control -/

/-- Control falls through what fusion makes of an instruction just as through the instruction, since
    both are plain. -/
theorem fallsThrough_fused (h : w.Finished r d) (hf : Fusion.Fused j i) :
    d.fallsThrough i = w.fallsThrough j := by
  have hlinear := hf.linear
  rw [Disassembly.fallsThrough, fallsThrough, Disassembly.isExit, h.exits, hlinear]
  rcases hf with rfl | ⟨-, -, hmov, hrec, hswitch⟩
  · rfl
  · have hload :
        (Mnemonic.mov.isJump || Mnemonic.mov.isReturn || Mnemonic.mov == .switch) = false := rfl
    rw [hrec.not_transfer.1, hrec.isReturn, hmov, hload, beq_eq_false_iff_ne.2 hswitch]
    rfl

/-- What fusion makes of an instruction transfers control as the instruction did: not at all, unless
    it was left alone. -/
theorem transfers_fused (hf : Fusion.Fused j i) : i.transfers = j.transfers := by
  rcases hf with rfl | ⟨-, -, hmov, hrec, hswitch⟩
  · rfl
  · rw [Instruction.transfers_of_plain hrec.not_transfer.1 hrec.not_transfer.2 hswitch,
      Instruction.transfers_of_plain (by rw [hmov]; rfl) (by rw [hmov]; rfl)
        (by rw [hmov]; decide)]

/-- The transfers of a disassembly are those that the walk has followed, so the history can be read
    off the result. -/
theorem mem_transfers_iff (h : w.Finished r d) (he : Exact w) (hi : d.find? k = some i)
    (t : Nat) : t ∈ d.transfers i ↔ (k, t) ∈ w.branches := by
  obtain ⟨j, hj, hfused⟩ := h.shows.found hi
  have hrecords : (d.unresolvedAt? i.linear).isSome = true ↔ w.Records k := by
    rw [Disassembly.linear_of_find? hi]
    exact isSome_unresolvedAt?_iff h.unresolved k
  rw [he.followed, hj, Disassembly.transfers, transfers_fused hfused]
  by_cases hrec : w.Records k
  · simp [hrecords.2 hrec, hrec]
  · rw [if_neg fun hsome => hrec (hrecords.1 hsome)]
    simp [hrec]

/-- The labels are the places that control is transferred to by something that was followed. -/
theorem isLabel_iff (h : w.Finished r d) (he : Exact w) (t : Nat) :
    d.isLabel t = true ↔ w.Follows t := by
  rw [Disassembly.isLabel, h.labels, Walk.labels, Std.ExtTreeSet.contains_ofList, ← he.targets,
    List.contains_iff_mem, Std.ExtTreeMap.mem_keys, Std.ExtTreeMap.mem_iff_contains]

/-- A recorded instruction is a jump, since nothing else is ever left without a place to go. -/
theorem isJump_of_records (h : w.Finished r d) (he : Exact w) (hi : d.find? k = some i)
    (hrec : w.Records k) : i.mnemonic.isJump = true := by
  obtain ⟨j, hj, hfused⟩ := h.shows.found hi
  obtain ⟨j', hj', hjump⟩ := he.recorded hrec
  rw [hj] at hj'
  cases hj'
  rcases hfused with rfl | ⟨-, -, hmov, -⟩
  · exact hjump
  · rw [hmov] at hjump
    cases hjump

/-- **Control goes on by a transfer or straight on**, and nowhere else. The graph is built by asking
    for the kind of an instruction, the walk by following transfers; here the two agree. -/
theorem mem_successors_iff (h : w.Finished r d) (he : Exact w) (hd : d.WellFormed)
    (hi : d.find? k = some i) (b : Nat) :
    b ∈ d.successors i ↔
      b ∈ d.transfers i ∨ d.fallsThrough i = true ∧ i.nextLinear = b := by
  -- Only jumps are recorded, so no other transfer is given up.
  have hopen (hj : i.mnemonic.isJump = false) : (d.unresolvedAt? i.linear).isSome = false := by
    rw [Bool.eq_false_iff]
    intro hsome
    rw [Disassembly.linear_of_find? hi, isSome_unresolvedAt?_iff h.unresolved] at hsome
    rw [h.isJump_of_records he hi hsome] at hj
    cases hj
  -- The kinds are gone through in the order in which `successors` tests them.
  by_cases hjump : i.mnemonic.isJump = true
  · have hfalls : d.fallsThrough i = false := by simp [Disassembly.fallsThrough, hjump]
    rw [hd.successors_jump hi hjump, hfalls, Disassembly.transfers, Disassembly.followed?, hjump,
      Instruction.transfers_of_target? (.inl hjump)]
    cases d.unresolvedAt? i.linear <;> simp
  · rw [Bool.not_eq_true] at hjump
    rw [Disassembly.transfers, if_neg (by simp [hopen hjump])]
    by_cases hbranch : i.mnemonic.isConditionalBranch = true
    · obtain ⟨t, ht⟩ := hd.branch hi hbranch
      have hfalls : d.fallsThrough i = true := Disassembly.fallsThrough_iff.2
        ⟨hjump, Mnemonic.isReturn_of_isConditionalBranch hbranch,
          Mnemonic.ne_switch_of_isConditionalBranch hbranch, hd.not_isExit hi (.inr (.inl hbranch))⟩
      rw [hd.successors_branch hi hbranch ht, Instruction.transfers_of_target? (.inr hbranch), ht]
      simp [hfalls, eq_comm]
    · rw [Bool.not_eq_true] at hbranch
      by_cases hswitch : i.mnemonic = .switch
      · rw [hd.successors_switch hi hswitch, Instruction.transfers, if_pos hswitch]
        simp [Disassembly.fallsThrough, hswitch]
      · -- What is left goes straight on or stops.
        rw [Instruction.transfers_of_plain hjump hbranch hswitch]
        by_cases hstop : (i.mnemonic.isReturn || d.isExit i.linear) = true
        · rw [Disassembly.successors_stop hstop]
          rw [Bool.or_eq_true] at hstop
          rcases hstop with hr | hx
          · simp [Disassembly.fallsThrough, hr]
          · simp [Disassembly.fallsThrough, hx]
        · rw [Bool.not_eq_true] at hstop
          rw [Disassembly.successors_plain hstop hjump hbranch hswitch]
          rw [Bool.or_eq_false_iff] at hstop
          have hfalls := Disassembly.fallsThrough_iff.2 ⟨hjump, hstop.1, hswitch, hstop.2⟩
          simp [hfalls, eq_comm]

/-! ### Everything is come to -/

/-- A way that the walk has gone is a way of control in the disassembly. -/
theorem successor_of_goes (h : w.Finished r d) (he : Exact w) (hd : d.WellFormed) {s t : Nat}
    (hgoes : w.Goes s t) : ∃ i, d.find? s = some i ∧ t ∈ d.successors i := by
  rcases hgoes with hmem | ⟨j, hj, hfalls, hnext⟩
  · obtain ⟨j, hj, -⟩ := (he.followed s t).1 hmem
    obtain ⟨i, hi, -⟩ := h.shows.shown hj
    exact ⟨i, hi, (h.mem_successors_iff he hd hi t).2 (.inl ((h.mem_transfers_iff he hi t).2 hmem))⟩
  · obtain ⟨i, hi, hfused⟩ := h.shows.shown hj
    refine ⟨i, hi, (h.mem_successors_iff he hd hi t).2 (.inr ⟨?_, ?_⟩)⟩
    · rw [h.fallsThrough_fused hfused, hfalls]
    · rw [hfused.nextLinear, hnext]

/-- **Control comes to every instruction of a disassembly.** Nothing is decoded that no run from the
    entry goes through. -/
theorem exists_run (h : w.Finished r d) (he : Exact w) (hd : d.WellFormed)
    (ha : Arrives r w k) (hi : d.find? k = some i) : ∃ is, d.Run d.entry.linear (is ++ [i]) := by
  rw [h.entry]
  -- The induction is on the last step of the way from the entry.
  induction ha generalizing i with
  | refl => exact ⟨[], .last hi⟩
  | @tail b c _ hgoes ih =>
    obtain ⟨j, hj, hmem⟩ := h.successor_of_goes he hd hgoes
    obtain ⟨is, hrun⟩ := ih hj
    exact ⟨is ++ [j], hrun.extend hmem hi⟩

/-! ### Jumps that are not followed -/

/-- **Just the jumps that are not followed are recorded**, so no way of control is lost without a
    trace. -/
theorem mem_unresolved_iff (h : w.Finished r d) (he : Exact w) (k : Nat) :
    k ∈ d.unresolved.map Unresolved.linear ↔
      ∃ i, d.find? k = some i ∧ i.mnemonic.isJump = true ∧ d.isFollowed i = false := by
  have hmem : k ∈ d.unresolved.map Unresolved.linear ↔ w.Records k := by
    rw [h.unresolved, List.map_reverse, List.mem_reverse, ← records_iff_mem]
  rw [hmem]
  constructor
  · intro hrec
    obtain ⟨j, hj, -⟩ := he.recorded hrec
    obtain ⟨i, hi, -⟩ := h.shows.shown hj
    have hsome : (d.unresolvedAt? i.linear).isSome = true := by
      rw [Disassembly.linear_of_find? hi, isSome_unresolvedAt?_iff h.unresolved]
      exact hrec
    refine ⟨i, hi, h.isJump_of_records he hi hrec, ?_⟩
    rw [Option.isSome_iff_ne_none] at hsome
    simp [Disassembly.isFollowed, Disassembly.followed?, hsome]
  · -- A jump that is not on record is followed: its dispatch was recovered, or it has a target.
    rintro ⟨i, hi, hjump, hopen⟩
    rw [← isSome_unresolvedAt?_iff h.unresolved, ← Disassembly.linear_of_find? hi]
    by_contra hnone
    rw [Option.not_isSome_iff_eq_none] at hnone
    cases ht : i.target? with
    | none =>
      have hsome := h.dispatch hi hjump ht
      rw [hnone] at hsome
      cases hsome
    | some t =>
      have hfollowed := Disassembly.followed?_eq_some_iff.2 ⟨hjump, hnone, ht⟩
      rw [Disassembly.isFollowed, hfollowed] at hopen
      cases hopen

/-- No jump is on record twice, since it is put there when it is decoded or when its dispatch is
    refused, and never by both. -/
theorem nodup_unresolved (h : w.Finished r d) (he : Exact w) :
    (d.unresolved.map Unresolved.linear).Nodup := by
  rw [h.unresolved, List.map_reverse, List.nodup_reverse]
  exact he.once

end Walk.Finished

end RealMode
