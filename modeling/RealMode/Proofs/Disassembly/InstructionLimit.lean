import RealMode.Proofs.Walk.Effort
import RealMode.Proofs.Walk.Heading

namespace RealMode

/-!
# The limit on instructions is exact

A walk asks for room before it decodes, so it could be refused a place that it would not have used,
because another instruction is already there. It never is on the way to a disassembly: wherever such
a walk comes to, something is decoded in the end (`Walk.decoded_of_cursor`).

* `Routine.withLimit` — the same function under another limit;
* `Walk.Full` — the walk is at a new place, and has no room under the other limit;
* `Walk.step?_withLimit` — until then it takes the same steps, `Walk.error_of_full` — and there it
  stops;
* `Walk.size_of_full` — a walk that is full is on the way to more instructions than the limit has;
* `instruction_limit_exact` — a function has the same disassembly under every limit that has room
  for it, and none under any other.
-/

/-- The same function, with at most `m` instructions. -/
def Routine.withLimit (r : Routine) (m : Nat) : Routine :=
  { r with options := { r.options with maxInstructions := m } }

namespace Walk

variable {r : Routine} {w w' : Walk} {m n : Nat}

/-- The walk is at a new place and has decoded `m` instructions already. -/
def Full (w : Walk) (m : Nat) : Prop :=
  ∃ c, w.cursor = some c ∧ w.decoded.contains c.address.linear = false ∧ m ≤ w.decoded.size

/-! ### The same steps until there is no room -/

/-- With room, a visit does the same under both limits. This includes a visit that decodes nothing,
    as the limit is asked for a new place only. -/
theorem visit_withLimit {c : Cursor} (hc : w.cursor = some c) (hroom : ¬ w.Full m)
    (h : w.visit r c = .ok w') : w.visit (r.withLimit m) c = .ok w' := by
  unfold visit at h ⊢
  split at h
  · rename_i hold
    rw [if_pos hold]
    exact h
  · rename_i hnew
    have hless : ¬ m ≤ w.decoded.size := fun hle => hroom ⟨c, hc, Bool.eq_false_iff.2 hnew, hle⟩
    rw [if_neg hnew, if_neg (show ¬ (r.withLimit m).options.maxInstructions ≤ _ from hless)]
    split at h
    · cases h
    · -- What is decoded, and how the walk goes on behind it, is not a matter of the limit.
      exact h

/-- With room, the walk takes the same step under both limits; no step but a visit looks at them. -/
theorem step?_withLimit (hroom : ¬ w.Full m) (h : w.step? r = some (.ok w')) :
    w.step? (r.withLimit m) = some (.ok w') := by
  unfold step? at h ⊢
  split at h
  · rename_i c hc
    exact congrArg some (visit_withLimit hc hroom (Option.some.inj h))
  · exact h

/-- Without room, the walk stops at the new place, before it has looked at what is there. -/
theorem step?_of_full (h : w.Full m) :
    w.step? (r.withLimit m) = some (.error (.instructionLimit m)) := by
  obtain ⟨c, hc, hnew, hle⟩ := h
  have hlimit : (r.withLimit m).options.maxInstructions ≤ w.decoded.size := hle
  rw [step?, hc]
  simp only [visit, hnew, hlimit, Bool.false_eq_true, if_false, if_true]
  rfl

/-- **A walk under another limit is the same after any number of steps**, unless it was full
    before. -/
theorem after_withLimit (h : after r n = some w) :
    after (r.withLimit m) n = some w ∨
      ∃ k w₀, after r k = some w₀ ∧ after (r.withLimit m) k = some w₀ ∧ w₀.Full m := by
  induction n generalizing w with
  | zero => exact .inl h
  | succ n ih =>
    obtain ⟨w₀, hw₀, hstep⟩ := after_succ_iff.1 h
    rcases ih hw₀ with hsame | hfull
    · by_cases hroom : w₀.Full m
      · exact .inr ⟨n, w₀, hw₀, hsame, hroom⟩
      · exact .inl (after_succ hsame (step?_withLimit hroom hstep))
    · exact .inr hfull

/-! ### Walks to a disassembly -/

/-- A walk that is full stops with a fault, and the fault names the limit. -/
theorem error_of_full (hin : r.image.contains r.entry.linear = true)
    (hn : after (r.withLimit m) n = some w) (hfull : w.Full m) :
    (r.withLimit m).walk = .error (.instructionLimit m) := by
  have hends : w.Ends (r.withLimit m) (.error (.instructionLimit m)) := .fault (step?_of_full hfull)
  have hin' : (r.withLimit m).image.contains (r.withLimit m).entry.linear = true := hin
  rw [Routine.walk, if_pos hin']
  exact (run_of_after hn).trans hends.run_eq

/-- Nothing that is decoded is given up: recovery rewrites instructions, but leaves none out. -/
theorem contains_of_after {k : Nat} (hwalk : r.walk = .ok w') (hn : after r n = some w)
    (hk : w.decoded.contains k = true) : w'.decoded.contains k = true :=
  walk_induction (P := fun w => w.decoded.contains k = true) hwalk hn hk
    fun _ hk hm => contains_of_move hm hk

/-- **A walk that is full is on the way to more instructions**, since it goes nowhere in vain. -/
theorem size_of_full (hwalk : r.walk = .ok w') (hcomplete : w'.Complete) (hn : after r n = some w)
    (hfull : w.Full m) : m < w'.decoded.size := by
  obtain ⟨c, hc, hnew, hle⟩ := hfull
  have hhere := decoded_of_cursor hwalk hcomplete hn hc
  obtain ⟨i, hi⟩ := (AddressMap.contains_iff_exists _ _).1 hhere
  -- What is decoded now, and what will be in this place, is all decoded in the end.
  have hmore : (w.decoded.insert c.address.linear i).size ≤ w'.decoded.size := by
    apply AddressMap.size_le_of_contains
    intro k hk
    rcases (AddressMap.contains_insert ..).1 hk with hold | rfl
    · exact contains_of_after hwalk hn hold
    · exact hhere
  rw [Std.ExtTreeMap.size_insert, if_neg (by simp [hnew])] at hmore
  omega

/-- A walk never has more instructions than its limit allows, so the size of a disassembly is within
    it. -/
theorem size_of_after (h : after r n = some w) : w.decoded.size ≤ r.options.maxInstructions :=
  after_induction (P := fun w => w.decoded.size ≤ r.options.maxInstructions) (Nat.zero_le _)
    (fun _ hsize hm => size_of_move hsize hm) h

/-- A walk to a disassembly ends the same under a limit that has room for it, and with a fault under
    any other. What counts is the size at the end, since a walk that was full would have gone on to
    more. -/
theorem walk_withLimit (hwalk : r.walk = .ok w) (hcomplete : w.Complete) (m : Nat) :
    (r.withLimit m).walk =
      if w.decoded.size ≤ m then .ok w else .error (.instructionLimit m) := by
  have hin := (run_of_walk hwalk).1
  obtain ⟨n, hn⟩ := exists_after_of_walk hwalk
  rcases after_withLimit (m := m) hn with hsame | ⟨k, w₀, hw₀, hw₀', hfull⟩
  · have hroom : w.decoded.size ≤ m := size_of_after hsame
    rw [if_pos hroom]
    exact walk_of_after hin hsame (step?_eq_none_of_step? (done_of_walk hwalk))
  · have hless := size_of_full hwalk hcomplete hw₀ hfull
    rw [if_neg (by omega)]
    exact error_of_full hin hw₀' hfull

end Walk

/-- **The limit on instructions is exact.** A function that has a disassembly has the same one under
    every limit that its size does not exceed, and is refused for its size under every other. -/
theorem instruction_limit_exact {r : Routine} {d : Disassembly} (hd : r.disassemble = .ok d)
    (m : Nat) :
    (r.withLimit m).disassemble =
      if d.size ≤ m then .ok d else .error ⟨r.entry, .instructionLimit m⟩ := by
  obtain ⟨w, hwalk, hfinish⟩ := Routine.disassemble_cases hd
  have hsize := Walk.size_of_finish (Walk.sound_of_walk hwalk).1 hfinish
  have hlimit := Walk.walk_withLimit hwalk (Walk.finish_cases hfinish).1 m
  rw [hsize]
  split at hlimit
  · rename_i hroom
    rw [if_pos hroom]
    exact Routine.disassemble_of_walk hlimit hfinish
  · rename_i hless
    rw [if_neg hless, Routine.disassemble, hlimit]
    rfl

/-- The switch of `chooser` takes seven instructions. -/
theorem instruction_limit_exact_chooser :
    ∃ d, chooser.disassemble = .ok d ∧ d.size = 7 ∧
      (chooser.withLimit 7).disassemble = .ok d ∧
      (chooser.withLimit 6).disassemble = .error ⟨chooser.entry, .instructionLimit 6⟩ := by
  obtain ⟨d, hd, hsize⟩ := Routine.exists_disassembly (r := chooser)
    (P := fun d => d.size = 7) (by decide +kernel)
  refine ⟨d, hd, hsize, ?_, ?_⟩
  · rw [instruction_limit_exact hd 7, if_pos (by omega)]
  · rw [instruction_limit_exact hd 6, if_neg (by omega)]

end RealMode
