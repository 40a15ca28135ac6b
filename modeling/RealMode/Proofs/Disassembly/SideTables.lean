import RealMode.Proofs.Disassembly.Reach
import RealMode.Proofs.Walk.Tables

namespace RealMode

/-!
# What the tables of a disassembly say

Labels, records, callees and exits of a disassembly can be read off its encoded instructions.

* `Walk.Finished.find?_iff_decoded` — fusion touches nothing but loads;
* `Walk.Finished.records_iff_isExternal` — a transfer with a target is recorded exactly if it
  leaves the program;
* `Disassembly.Tabulates` — what each table holds, told by the instructions alone;
* `tabulates_of_disassemble` — so it is for every disassembly with the standard templates.
-/

namespace Walk.Finished

variable {r : Routine} {w : Walk} {d : Disassembly} {k : Nat} {i : Instruction}

/-- What is no load is found as the walk has left it, since fusion touches nothing else. -/
theorem find?_of_decoded (h : w.Finished r d) (hm : i.mnemonic ≠ .mov)
    (hi : w.decoded[k]? = some i) : d.find? k = some i := by
  obtain ⟨j, hj, hfused⟩ := h.shows.shown hi
  rw [← hfused.eq_of_ne_mov hm]
  exact hj

/-- What is neither a load nor what fusion makes of one is found as it was decoded. -/
theorem find?_iff_decoded (h : w.Finished r d)
    (hm : i.mnemonic ∉ [.mov, .nop, .words2dword]) :
    d.find? k = some i ↔ w.decoded[k]? = some i := by
  simp only [List.mem_cons, List.not_mem_nil, or_false, not_or] at hm
  obtain ⟨hmov, hnop, hload⟩ := hm
  constructor
  · intro hi
    obtain ⟨j, hj, rfl | ⟨-, -, -, hrecovered, hswitch⟩⟩ := h.shows.found hi
    · exact hj
    · cases hrecovered with
      | nop hm _ => exact absurd hm hnop
      | switch _ _ hm _ => exact absurd hm hswitch
      | load _ _ _ hm _ => exact absurd hm hload
  · exact h.find?_of_decoded hmov

/-- What the encoded instructions tell, the decoded ones do, if it is told of no load. So every
    table can be compared with the walk. -/
theorem exists_encoded_iff (h : w.Finished r d) (hd : r.disassemble = .ok d)
    {P : Instruction → Prop} (hP : ∀ {i}, P i → i.mnemonic ∉ [.mov, .nop, .words2dword]) :
    (∃ i ∈ d.encoded, P i) ↔ ∃ (k : Nat) (i : Instruction), w.decoded[k]? = some i ∧ P i := by
  constructor
  · rintro ⟨i, hi, hp⟩
    have hfound := (Routine.find?_iff_mem_encoded hd).2 ⟨hi, rfl⟩
    exact ⟨i.linear, i, (h.find?_iff_decoded (hP hp)).1 hfound, hp⟩
  · rintro ⟨k, i, hi, hp⟩
    have hfound := (h.find?_iff_decoded (hP hp)).2 hi
    exact ⟨i, ((Routine.find?_iff_mem_encoded hd).1 hfound).1, hp⟩

/-- **A transfer with a target is recorded exactly if it leaves the program.** All others are
    followed. -/
theorem records_iff_isExternal (h : w.Finished r d) (htables : Tables r w)
    (hi : w.decoded[k]? = some i) {t : Nat} (ht : t ∈ i.transfers) :
    w.Records k ↔ r.IsExternal i := by
  constructor
  · rintro ⟨u, hu, rfl⟩
    obtain ⟨i', hi', hrec⟩ := htables.recorded u hu
    rw [hi] at hi'
    cases hi'
    unfold Routine.unfollowed? at hrec
    split at hrec
    · -- A jump through a register or memory sends control nowhere yet.
      rename_i hindirect
      have hj : i.mnemonic.isJump = true := by
        rw [Instruction.isIndirectJump, Bool.and_eq_true] at hindirect
        exact hindirect.1
      have hdec := (h.sound.provided hi).decodeAt_of_isJump hj
      have hnone := (Routine.isIndirectJump_iff hdec hj).1 hindirect
      rw [Instruction.transfers_of_target?_eq_none (.inl hj) hnone] at ht
      exact absurd ht List.not_mem_nil
    · split at hrec
      · rename_i hexternal
        exact hexternal.2
      · cases hrec
  · intro hexternal
    -- A far call sends control nowhere, so it is a jump that leaves.
    have hm : i.mnemonic = .jmpf := by
      refine hexternal.1.resolve_right fun hm => ?_
      rw [Instruction.transfers_of_plain (by rw [hm]; rfl) (by rw [hm]; rfl)
        (by rw [hm]; decide)] at ht
      exact absurd ht List.not_mem_nil
    obtain ⟨a, ha, -⟩ := hexternal.2
    have hrec : r.unfollowed? i ≠ none := by
      unfold Routine.unfollowed?
      split
      · simp
      · simp [hm, hexternal]
    exact htables.left hi (by rw [Option.mem_def.1 ha]; simp) hrec

end Walk.Finished

/-! ### The tables of a disassembly -/

/-- The word that the loader has to adjust is the segment that a far jump or call names. -/
theorem Routine.Provides.segment {r : Routine} {i : Instruction} {t : Address}
    (h : r.Provides i) (hm : i.mnemonic = .jmpf ∨ i.mnemonic = .callf) (ht : i.target? = some t) :
    r.image.word? (i.linear + i.length.toNat - 2) = some t.seg := by
  have hdec : r.decodeAt i.address = .ok i := by
    apply h.decodeAt
    rcases hm with hm | hm <;> simp [hm]
  obtain ⟨bs, hbs, hi⟩ := decode_of_decodeAt hdec
  obtain ⟨hlength, low, high, rest, hdrop, hseg⟩ := segment_of_decode hi hm ht
  rw [Nat.add_sub_assoc hlength, ← hseg]
  exact Image.word?_of_bytesFrom? hbs hdrop

/-- What the tables of a disassembly hold, told by its encoded instructions. -/
structure Disassembly.Tabulates (r : Routine) (d : Disassembly) : Prop where
  /-- What makes a far transfer external is looked up where its segment is. -/
  segment : ∀ i ∈ d.encoded, i.mnemonic = .jmpf ∨ i.mnemonic = .callf → ∀ t ∈ i.target?,
    r.image.word? (i.linear + i.length.toNat - 2) = some t.seg
  /-- The labels are the targets of branches, of jumps that stay in the program, and of the cases
      of switches. -/
  labels : ∀ k, d.isLabel k = true ↔ ∃ i ∈ d.encoded, k ∈ i.transfers ∧ ¬ r.IsExternal i
  /-- Each label is the place of an instruction. -/
  labelled : ∀ k, d.isLabel k = true → ∃ i ∈ d.encoded, i.linear = k
  /-- There is one record for each indirect jump and each jump that leaves the program. -/
  unresolved : d.unresolved.Perm (d.encoded.filterMap r.unfollowed?)
  /-- The callees are in the order of their places. -/
  ordered : d.callees.Pairwise (fun a b => a.linear < b.linear)
  /-- Their places are the targets of direct calls that stay in the program. -/
  callees : ∀ k, k ∈ d.callees.map Address.linear ↔ ∃ i ∈ d.encoded, r.Calls i k
  /-- The exits are the interrupts that end the process, for all that was known of `ah`. -/
  exits : ∀ x, d.isExit x = true ↔
    ∃ i ∈ d.encoded, i.linear = x ∧ ∃ ah, Walk.TracksAh r x ah ∧ r.EndsProcess i ah

namespace Walk.Finished

variable {r : Routine} {w : Walk} {d : Disassembly}

/-- The process ends at interrupts only, with the standard templates: they fold no interrupt. -/
theorem int_of_isExit (h : w.Finished r d) (htables : Tables r w) {k : Nat} {i : Instruction}
    (hi : d.find? k = some i) (hx : d.isExit k = true) : i.mnemonic = .int := by
  rw [Disassembly.isExit, h.exits] at hx
  obtain ⟨j, ah, hj, -, hexit⟩ := (htables.exits k).1 hx
  have hm := Routine.int_of_isExit hexit
  have hfound := (h.find?_iff_decoded (by rw [hm]; decide)).2 hj
  rw [hi] at hfound
  cases hfound
  exact hm

/-- The records are those that the instructions ask for, since no dispatch waits any more. -/
theorem mem_unresolved_iff_unfollowed? (h : w.Finished r d) (htables : Tables r w)
    {u : Unresolved} :
    u ∈ w.unresolved ↔ ∃ (k : Nat) (i : Instruction),
      w.decoded[k]? = some i ∧ r.unfollowed? i = some u := by
  constructor
  · intro hu
    obtain ⟨i, hi, hrec⟩ := htables.recorded u hu
    exact ⟨_, i, hi, hrec⟩
  · rintro ⟨k, i, hi, hrec⟩
    have hj : i.mnemonic.isJump = true := by
      by_contra hj
      rw [Routine.unfollowed?_of_not_isJump (Bool.eq_false_iff.2 hj)] at hrec
      cases hrec
    have hrecords : w.Records k := by
      by_cases ht : i.target? = none
      · have hsettled := ((h.sound.settled hi).dispatch hj ht).resolve_right (h.idle _)
        rwa [h.sound.linear hi] at hsettled
      · exact htables.left hi ht (by simp [hrec])
    -- There is one instruction at the place, and so one record of it.
    obtain ⟨v, hv, rfl⟩ := hrecords
    obtain ⟨i', hi', hrec'⟩ := htables.recorded v hv
    rw [hi] at hi'
    cases hi'
    rw [hrec] at hrec'
    cases hrec'
    exact hv

/-! ### Tables and encoded instructions -/

/-- The labels are the targets of transfers that stay in the program. -/
theorem isLabel_iff_encoded (h : w.Finished r d) (he : Exact w) (htables : Tables r w)
    (hd : r.disassemble = .ok d) (k : Nat) :
    d.isLabel k = true ↔ ∃ i ∈ d.encoded, k ∈ i.transfers ∧ ¬ r.IsExternal i := by
  have hkind {i : Instruction} (hi : k ∈ i.transfers ∧ ¬ r.IsExternal i) :
      i.mnemonic ∉ [.mov, .nop, .words2dword] := by
    intro hm
    rw [Instruction.transfers_of_plain] at hi
    · exact absurd hi.1 List.not_mem_nil
    all_goals
      simp only [List.mem_cons, List.not_mem_nil, or_false] at hm
      rcases hm with hm | hm | hm <;> rw [hm] <;> decide
  rw [h.isLabel_iff he, h.exists_encoded_iff hd hkind]
  constructor
  · rintro ⟨s, hs⟩
    obtain ⟨i, hi, ht, hopen⟩ := (he.followed s k).1 hs
    exact ⟨s, i, hi, ht, fun hx => hopen ((h.records_iff_isExternal htables hi ht).2 hx)⟩
  · rintro ⟨s, i, hi, ht, hstays⟩
    refine ⟨s, (he.followed s k).2 ⟨i, hi, ht, fun hrec => ?_⟩⟩
    exact hstays ((h.records_iff_isExternal htables hi ht).1 hrec)

/-- The records are those that the encoded instructions ask for, each once. They are in the order in
    which the walk came to them, hence up to order only. -/
theorem perm_unresolved (h : w.Finished r d) (he : Exact w) (htables : Tables r w)
    (hd : r.disassemble = .ok d) : d.unresolved.Perm (d.encoded.filterMap r.unfollowed?) := by
  have hkind {u : Unresolved} {i : Instruction} (hu : r.unfollowed? i = some u) :
      i.mnemonic ∉ [.mov, .nop, .words2dword] := by
    intro hm
    rw [Routine.unfollowed?_of_not_isJump] at hu
    · cases hu
    · simp only [List.mem_cons, List.not_mem_nil, or_false] at hm
      rcases hm with hm | hm | hm <;> rw [hm] <;> rfl
  -- Both lists have no repetition, so it is enough that they have the same members.
  have hleft : d.unresolved.Nodup := (h.nodup_unresolved he).of_map
  have hright : (d.encoded.filterMap r.unfollowed?).Nodup := by
    refine (Routine.ordered_encoded hd).filterMap _ fun i j hlt u hu v hv => ?_
    rintro rfl
    have hsame : i.address = j.address := (Routine.address_of_unfollowed? hu).symm.trans
      (Routine.address_of_unfollowed? hv)
    exact absurd (congrArg Address.linear hsame) (Nat.ne_of_lt hlt)
  refine (List.perm_ext_iff_of_nodup hleft hright).2 fun u => ?_
  rw [h.unresolved, List.mem_reverse, h.mem_unresolved_iff_unfollowed? htables,
    ← h.exists_encoded_iff hd hkind, List.mem_filterMap]

/-- The callees are the places that are called directly by a call that stays in the program. -/
theorem mem_callees_iff (h : w.Finished r d) (htables : Tables r w) (hd : r.disassemble = .ok d)
    (k : Nat) : k ∈ d.callees.map Address.linear ↔ ∃ i ∈ d.encoded, r.Calls i k := by
  have hkind {i : Instruction} (hc : r.Calls i k) : i.mnemonic ∉ [.mov, .nop, .words2dword] := by
    have hcall := hc.1
    generalize i.mnemonic = m at hcall
    revert hcall
    cases m <;> decide
  have hkeys : k ∈ d.callees.map Address.linear ↔ w.callees.contains k = true := by
    rw [h.callees, List.mem_map, AddressMap.contains_iff_exists]
    constructor
    · rintro ⟨a, ha, rfl⟩
      obtain ⟨k', hk'⟩ := (AddressMap.mem_items_iff _).1 ha
      exact ⟨a, by rwa [htables.keys hk']⟩
    · rintro ⟨a, ha⟩
      exact ⟨a, (AddressMap.mem_items_iff _).2 ⟨k, ha⟩, htables.keys ha⟩
  rw [hkeys, htables.callees, h.exists_encoded_iff hd hkind]

/-- The exits are the interrupts that end the process, each for something that was known of `ah`
    when it was decoded. -/
theorem isExit_iff_encoded (h : w.Finished r d) (htables : Tables r w)
    (hd : r.disassemble = .ok d) (x : Nat) :
    d.isExit x = true ↔
      ∃ i ∈ d.encoded, i.linear = x ∧ ∃ ah, TracksAh r x ah ∧ r.EndsProcess i ah := by
  have hkind {i : Instruction}
      (hi : i.linear = x ∧ ∃ ah, TracksAh r x ah ∧ r.EndsProcess i ah) :
      i.mnemonic ∉ [.mov, .nop, .words2dword] := by
    obtain ⟨-, ah, -, hends⟩ := hi
    rw [Routine.int_of_isExit (Routine.isExit_iff.2 hends)]
    decide
  rw [Disassembly.isExit, h.exits, htables.exits, h.exists_encoded_iff hd hkind]
  constructor
  · rintro ⟨i, ah, hi, hah, hexit⟩
    exact ⟨x, i, hi, h.sound.linear hi, ah, hah, Routine.isExit_iff.1 hexit⟩
  · rintro ⟨k, i, hi, rfl, ah, hah, hends⟩
    rw [← h.sound.linear hi] at hi
    exact ⟨i, ah, hi, hah, Routine.isExit_iff.2 hends⟩

end Walk.Finished

/-- **The tables say what the instructions say**, with the standard templates: labels, records,
    callees and exits can all be read off the listing. -/
theorem tabulates_of_disassemble {r : Routine} {d : Disassembly}
    (htemplates : r.templates = SwitchTemplate.standard) (hd : r.disassemble = .ok d) :
    d.Tabulates r := by
  obtain ⟨w, hw⟩ := Routine.finished_of_disassemble hd
  obtain ⟨n, hn⟩ := Walk.exists_after_of_walk hw.walk
  have htables := Walk.tables_of_after htemplates hn
  have he : w.Exact :=
    Walk.exact_of_walk (htemplates ▸ SwitchTemplate.foldStraight_standard) hw.walk
  refine ⟨?_, hw.isLabel_iff_encoded he htables hd, ?_, hw.perm_unresolved he htables hd, ?_,
    hw.mem_callees_iff htables hd, hw.isExit_iff_encoded htables hd⟩
  · intro i hi hm t ht
    exact (hw.provides ((Routine.find?_iff_mem_encoded hd).2 ⟨hi, rfl⟩)).segment hm ht
  · intro k hk
    obtain ⟨i, hi⟩ := hw.reach ((hw.isLabel_iff he k).1 hk)
    exact ⟨i, (Routine.find?_iff_mem_encoded hd).1 hi⟩
  · rw [hw.callees]
    exact AddressMap.pairwise_items htables.keys

/-- A branch, a call, two far transfers of which the loader adjusts only the jump, an interrupt that
    ends the process, and a jump through a register. -/
def junction : Routine where
  image := { Image.ofBytes
    [0x74, 0x0F, 0xE8, 0x0A, 0x00, 0x9A, 0x0F, 0x01, 0x00, 0x00, 0xEA, 0x0F, 0x01, 0x00, 0x00,
      0xCD, 0x20, 0xFF, 0xE0]
    ⟨0, 0x100⟩ ⟨0, 0x100⟩ with relocations := .ofList [0x10D], format := .mz }
  entry := ⟨0, 0x100⟩

/-- The far jump, whose segment the loader adjusts, gives a label; the far call, whose segment it
    does not adjust, gives no callee; and the jump through a register is on record. -/
theorem tabulates_junction :
    ∃ d, junction.disassemble = .ok d ∧ d.Tabulates junction ∧
      d.labels.toList = [0x10F, 0x111] ∧ d.callees = [⟨0, 0x10F⟩] ∧ d.exits.toList = [0x10F] ∧
      d.unresolved = [⟨⟨0, 0x111⟩, .unrecognizedDispatch⟩] := by
  obtain ⟨d, hd, htables⟩ := Routine.exists_disassembly (r := junction)
    (P := fun d => d.labels.toList = [0x10F, 0x111] ∧ d.callees = [⟨0, 0x10F⟩] ∧
      d.exits.toList = [0x10F] ∧ d.unresolved = [⟨⟨0, 0x111⟩, .unrecognizedDispatch⟩])
    (by decide +kernel)
  exact ⟨d, hd, tabulates_of_disassemble rfl hd, htables⟩

end RealMode
