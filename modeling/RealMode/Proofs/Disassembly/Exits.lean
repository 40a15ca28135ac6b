import RealMode.Proofs.Disassembly.Reach
import RealMode.Proofs.Walk.CarriedAh

namespace RealMode

/-!
# System calls that end the process

* `CarriedExit` — a system call that is known to end the process by nothing but what transfers
  carry in `ah`;
* `carried_ah_agrees` — the transfers to it that were followed in time are jumps, and agree on
  a function that ends the process;
* `Walk.decoding?` — the instruction that a walk is about to decode, for histories that are
  computed.

A late transfer need not agree: `latecomer` jumps to an exit with another function in `ah`.
-/

/-! ### Histories that are computed -/

namespace Walk

/-- The instruction that the walk is about to decode, with what is known at the cursor. -/
def decoding? (r : Routine) (w : Walk) : Option (Cursor × Instruction) := do
  let c ← w.cursor
  let i ← (r.decodeAt c.address).toOption
  if w.decoded.contains c.address.linear || r.options.maxInstructions ≤ w.decoded.size ||
    w.overlaps i then none else some (c, i)

/-- What is computed in this way is really decoded at some step of the walk. -/
theorem decodes_of_decoding? {r : Routine} {w : Walk} {c : Cursor} {i : Instruction}
    (h : w.decoding? r = some (c, i)) : Decodes r w c i := by
  simp only [decoding?, Option.bind_eq_bind, Option.bind_eq_some_iff] at h
  obtain ⟨c', hc, i', hi, h⟩ := h
  split at h
  · cases h
  · rename_i hclear
    cases h
    simp only [Bool.or_eq_true, decide_eq_true_eq, not_or, Bool.not_eq_true] at hclear
    have hdec : r.decodeAt c.address = .ok i := by
      cases hdec : r.decodeAt c.address with
      | error e =>
        rw [hdec] at hi
        cases hi
      | ok i' =>
        rw [hdec] at hi
        cases hi
        rfl
    exact ⟨hc, hclear.1.1, Nat.lt_of_not_le hclear.1.2, hdec, hclear.2⟩

/-- What is known of `ah` behind an instruction, computed from the history instead of being shown
    for all of it. -/
theorem tracksAh_of_after {r : Routine} {n linear : Nat} {ah : Option UInt8}
    (h : ((after r n).bind (decoding? r)).map (fun p => (p.2.linear, p.2.ahAfter p.1.ah)) =
      some (linear, ah)) : TracksAh r linear ah := by
  obtain ⟨⟨c, i⟩, hdec, hp⟩ := Option.map_eq_some_iff.1 h
  obtain ⟨w, hw, hdec⟩ := Option.bind_eq_some_iff.1 hdec
  cases hp
  exact ⟨n, w, c, i, hw, decodes_of_decoding? hdec, rfl, rfl⟩

/-- Transfers that are followed in time, computed from the history. -/
theorem not_followedLate_of_after {r : Routine} {n source target : Nat}
    (h : (after r n).any (fun w => ((w.decoding? r).map (·.2.linear)) == some target &&
      w.branches.contains (source, target)) = true) : ¬ FollowedLate r source target := by
  obtain ⟨w, hw, hrest⟩ := (Option.any_eq_true _ _).1 h
  rw [Bool.and_eq_true, beq_iff_eq, List.contains_iff_mem] at hrest
  obtain ⟨⟨c, i⟩, hdec, rfl⟩ := Option.map_eq_some_iff.1 hrest.1
  exact not_followedLate hw (decodes_of_decoding? hdec) hrest.2

end Walk

/-! ### The law of exits -/

/-- The system call at `x` ends the process; control does not fall through to it, and there is
    code behind it, so that only transfers can tell its function. -/
def CarriedExit (r : Routine) (d : Disassembly) (x : Nat) : Prop :=
  d.isExit x = true ∧
    (∃ i ∈ d.find? x, i.vector? = some 0x21 ∧ (r.decodeAt i.next).isOk = true) ∧
    ∀ j ∈ d.encoded, d.fallsThrough j = true → j.nextLinear ≠ x

instance (r : Routine) (d : Disassembly) (x : Nat) : Decidable (CarriedExit r d x) :=
  inferInstanceAs (Decidable (_ ∧ _ ∧ _))

/-- A carried exit was decided by the transfers that were followed when it was decoded: control does
    not fall to it, and there is code behind it, so nothing else could tell. -/
theorem CarriedExit.decided {r : Routine} {d : Disassembly} {x : Nat}
    (hfold : SwitchTemplate.FoldStraight r.templates) (hd : r.disassemble = .ok d)
    (h : CarriedExit r d x) : ∃ v ∈ exitFunctions, Walk.DecidedBy r x v := by
  obtain ⟨hexit, ⟨i, hi, hv, hnext⟩, hapart⟩ := h
  obtain ⟨w, hw⟩ := Routine.finished_of_disassemble hd
  obtain ⟨n, hn⟩ := Walk.exists_after_of_walk hw.walk
  have hcarried := Walk.carried_of_after hfold hn
  obtain ⟨j, hj, hfused⟩ := hw.shows.found hi
  rw [Disassembly.isExit, hw.exits] at hexit
  -- An exit is an interrupt or folded, so fusion leaves it alone.
  have hload : j.mnemonic ≠ .mov := by
    obtain ⟨j', hj', hm⟩ := hw.sound.exits hexit
    rw [hj] at hj'
    cases hj'
    rcases hm with hm | hm <;> rw [hm] <;> decide
  obtain rfl := hfused.eq_of_ne_mov hload
  refine (hcarried.exits hexit hj hv hnext).resolve_left ?_
  rintro ⟨s, k, hk, hfalls, hbehind⟩
  obtain ⟨k', hk', hfused'⟩ := hw.shows.shown hk
  refine hapart k' ((Routine.find?_iff_mem_encoded hd).1 hk').1 ?_ ?_
  · rw [hw.fallsThrough_fused hfused', hfalls]
  · rw [hfused'.nextLinear, hbehind]

/-- A jump that was decoded with a value in `ah` is a jump of the disassembly. -/
theorem isJump_of_jumpsWith {r : Routine} {d : Disassembly} {j : Instruction} {v : UInt8}
    (hfold : SwitchTemplate.FoldStraight r.templates) (hd : r.disassemble = .ok d)
    (hj : j ∈ d.encoded) (h : Walk.JumpsWith r j.linear v) :
    j.mnemonic.isJump = true ∧ Walk.TracksAh r j.linear (some v) := by
  obtain ⟨w, hw⟩ := Routine.finished_of_disassemble hd
  obtain ⟨n, w₀, c, i, hn, hdec, hlinear, hjump, ⟨t, ht⟩, hah⟩ := h
  refine ⟨?_, n, w₀, c, i, hn, hdec, hlinear, hah⟩
  have hi := Walk.jump_of_walk hfold hw.walk hn hdec hjump ht
  obtain ⟨i', hi', hfused⟩ := hw.shows.found ((Routine.find?_iff_mem_encoded hd).2 ⟨hj, rfl⟩)
  rw [← hlinear, hi] at hi'
  cases hi'
  have hload : i.mnemonic ≠ .mov := by
    intro hmov
    rw [hmov] at hjump
    cases hjump
  rw [hfused.eq_of_ne_mov hload]
  exact hjump

/-- **Transfers that decide over a system call agree.** Where only transfers can tell the
    function of a system call that ends the process, each of them that was followed in time is
    a jump, and `ah` was known there to be one and the same function that ends the process. -/
theorem carried_ah_agrees {r : Routine} {d : Disassembly} {x : Nat}
    (htemplates : r.templates = SwitchTemplate.standard) (hd : r.disassemble = .ok d)
    (hx : CarriedExit r d x) :
    ∃ v ∈ exitFunctions, ∀ j ∈ d.encoded, x ∈ d.transfers j →
      ¬ Walk.FollowedLate r j.linear x →
        j.mnemonic.isJump = true ∧ ∀ ah, Walk.TracksAh r j.linear ah ↔ ah = some v := by
  have hfold : SwitchTemplate.FoldStraight r.templates :=
    htemplates ▸ SwitchTemplate.foldStraight_standard
  obtain ⟨v, hv, n, w, c, i, hn, hdec, hlinear, htarget⟩ := hx.decided hfold hd
  refine ⟨v, hv, fun j hj _ htime => ?_⟩
  have hfollowed : (j.linear, x) ∈ w.branches := by
    by_contra hlate
    exact htime ⟨n, w, c, i, hn, hdec, hlinear, hlate⟩
  have hjumps := (Walk.carried_of_after hfold hn).agreed.sources htarget hfollowed
  obtain ⟨hjump, htracks⟩ := isJump_of_jumpsWith hfold hd hj hjumps
  refine ⟨hjump, fun ah => ⟨fun hah => hah.unique htracks, ?_⟩⟩
  rintro rfl
  exact htracks

/-- Two jumps to the system call behind them, both with the function `0x4C`. -/
def carriers : Routine where
  image := .ofBytes
    [0x74, 0x04, 0xB4, 0x4C, 0xEB, 0x04, 0xB4, 0x4C, 0xEB, 0x00, 0xCD, 0x21, 0xC3]
    ⟨0, 0x100⟩ ⟨0, 0x100⟩
  entry := ⟨0, 0x100⟩

/-- Both jumps to the system call were followed before it was decoded, and both carry `0x4C`. -/
theorem carried_ah_agrees_carriers :
    ∃ d, carriers.disassemble = .ok d ∧ CarriedExit carriers d 0x10A ∧
      (d.encoded.filter (0x10A ∈ d.transfers ·)).map Instruction.linear = [0x104, 0x108] ∧
      ∃ v ∈ exitFunctions, ∀ j ∈ d.encoded, 0x10A ∈ d.transfers j →
        j.mnemonic.isJump = true ∧ ∀ ah, Walk.TracksAh carriers j.linear ah ↔ ah = some v := by
  obtain ⟨d, hd, hx, hsources⟩ := Routine.exists_disassembly (r := carriers)
    (P := fun d => CarriedExit carriers d 0x10A ∧
      (d.encoded.filter (0x10A ∈ d.transfers ·)).map Instruction.linear = [0x104, 0x108])
    (by decide +kernel)
  obtain ⟨v, hv, hagree⟩ := carried_ah_agrees rfl hd hx
  refine ⟨d, hd, hx, hsources, v, hv, fun j hj htransfer => hagree j hj htransfer ?_⟩
  -- Both jumps are followed when the system call is decoded.
  have hmem : j.linear ∈ [0x104, 0x108] := by
    rw [← hsources]
    exact List.mem_map_of_mem (List.mem_filter.2 ⟨hj, by simpa using htransfer⟩)
  rw [List.mem_cons, List.mem_singleton] at hmem
  rcases hmem with hlinear | hlinear
  · rw [hlinear]
    exact Walk.not_followedLate_of_after (n := 8) (by decide +kernel)
  · rw [hlinear]
    exact Walk.not_followedLate_of_after (n := 8) (by decide +kernel)

/-- Jumps to a system call with the function `0x4C`, and, where control comes to later, with
    the function `0x09`. -/
def latecomer : Routine where
  image := .ofBytes
    [0x74, 0x04, 0xB4, 0x4C, 0xEB, 0x07, 0x74, 0x01, 0xC3, 0xB4, 0x09, 0xEB, 0x00, 0xCD, 0x21,
      0xC3]
    ⟨0, 0x100⟩ ⟨0, 0x100⟩
  entry := ⟨0, 0x100⟩

/-- **A late transfer need not agree.** The system call is an exit although a jump to it, which is
    followed when the call has been decoded, carries a function that does not end the process. -/
theorem latecomer_disagrees :
    ∃ d, latecomer.disassemble = .ok d ∧ CarriedExit latecomer d 0x10D ∧
      ∃ j ∈ d.encoded, 0x10D ∈ d.transfers j ∧
        ∃ v ∉ exitFunctions, Walk.TracksAh latecomer j.linear (some v) := by
  obtain ⟨d, hd, hx, j, hj, hlinear, htransfer⟩ := Routine.exists_disassembly (r := latecomer)
    (P := fun d => CarriedExit latecomer d 0x10D ∧
      ∃ j ∈ d.encoded, j.linear = 0x10B ∧ 0x10D ∈ d.transfers j)
    (by decide +kernel)
  refine ⟨d, hd, hx, j, hj, htransfer, 0x09, by decide, ?_⟩
  rw [hlinear]
  exact Walk.tracksAh_of_after (n := 11) (by decide +kernel)

end RealMode
