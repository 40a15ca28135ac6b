import RealMode.Proofs.Disassembly.Encoded
import RealMode.Proofs.Walk.History
import RealMode.Survey

namespace RealMode

/-!
# More templates change nothing that was recognized

Templates that are added are tried last, so they are asked about a dispatch only if none of the
others knows it; and such a dispatch is on record to the end. A disassembly without such a record
is therefore the same with any templates added, and one with such a record is not.

* `AllRecognized` — no dispatch is on record as unrecognized;
* `Routine.addTemplates` — the same function, with more templates to be tried after its own;
* `Walk.Refuses` — the walk is at a dispatch that no template knows;
* `Walk.step?_addTemplates` — elsewhere it takes the same step with more templates;
* `Walk.unresolved_of_move` — what a step puts on record, and that it strikes nothing out;
* `Walk.walk_addTemplates` — so a walk without such a record is the same with more templates;
* `more_templates_change_nothing_iff` — and so is the disassembly, and no other.
-/

/-- No dispatch is on record as unrecognized. -/
def AllRecognized (records : List Unresolved) : Prop :=
  ∀ u ∈ records, u.reason ≠ .unrecognizedDispatch

instance (records : List Unresolved) : Decidable (AllRecognized records) :=
  inferInstanceAs (Decidable (∀ u ∈ records, u.reason ≠ .unrecognizedDispatch))

/-- The same function, with more templates to be tried after its own. -/
def Routine.addTemplates (r : Routine) (more : List SwitchTemplate) : Routine :=
  { r with templates := r.templates ++ more }

/-- What is recognized is recognized in the same way when templates are added, since they are tried
    in order and the first that matches wins. -/
theorem Routine.firstMatch?_addTemplates {r : Routine} {window : List Instruction} {m : SwitchMatch}
    (h : SwitchTemplate.firstMatch? r.templates window = some m) (more : List SwitchTemplate) :
    SwitchTemplate.firstMatch? (r.addTemplates more).templates window = some m := by
  rw [SwitchTemplate.firstMatch?] at h ⊢
  rw [addTemplates, List.findSome?_append, h, Option.some_or]

namespace Walk

variable {r : Routine} {w w' : Walk} {n : Nat}

/-- The walk is at a dispatch that no template knows. -/
def Refuses (r : Routine) (w : Walk) : Prop :=
  w.cursor = none ∧ ∃ linear dispatches jump, w.dispatches = linear :: dispatches ∧
    w.decoded[linear]? = some jump ∧ SwitchTemplate.firstMatch? r.templates (w.window jump) = none

/-! ### The same steps, but at such a dispatch -/

/-- A dispatch that is known is recovered alike with more templates. -/
theorem recover_addTemplates {linear : Nat}
    (hknown : ∀ jump, w.decoded[linear]? = some jump →
      SwitchTemplate.firstMatch? r.templates (w.window jump) ≠ none)
    (more : List SwitchTemplate) : w.recover (r.addTemplates more) linear = w.recover r linear := by
  cases hj : w.decoded[linear]? with
  | none => simp only [recover, hj]
  | some jump =>
    obtain ⟨m, hm⟩ := Option.ne_none_iff_exists'.1 (hknown jump hj)
    have hm' := Routine.firstMatch?_addTemplates hm more
    simp only [recover, hj, hm, hm']
    -- What becomes of a match is not a matter of the templates.
    rfl

/-- **Where the walk does not refuse a dispatch, it takes the same step with more templates.** -/
theorem step?_addTemplates (h : ¬ w.Refuses r) (more : List SwitchTemplate) :
    w.step? (r.addTemplates more) = w.step? r := by
  unfold step?
  split
  · -- Decoding does not ask the templates.
    rfl
  · rename_i hc
    split
    · rename_i linear dispatches hds
      have hsame := recover_addTemplates (w := { w with dispatches })
        (fun jump hj hm => h ⟨hc, linear, dispatches, jump, hds, hj, hm⟩) more
      exact congrArg some hsame
    · rfl

/-! ### Records -/

/-- A dispatch that no template knows is put on record as unrecognized, and nothing else happens to
    it. -/
theorem recover_of_unknown {linear : Nat} {jump : Instruction}
    (hj : w.decoded[linear]? = some jump)
    (hm : SwitchTemplate.firstMatch? r.templates (w.window jump) = none) :
    w.recover r linear = .ok { w with
      unresolved := ⟨jump.address, .unrecognizedDispatch⟩ :: w.unresolved } := by
  simp only [recover, hj, hm]

/-- Where the walk refuses a dispatch, the very next step puts it on record. -/
theorem exists_step_of_refuses (h : w.Refuses r) :
    ∃ w', w.step? r = some (.ok w') ∧ ¬ AllRecognized w'.unresolved := by
  obtain ⟨hc, linear, dispatches, jump, hds, hj, hm⟩ := h
  have hrecover := recover_of_unknown (w := { w with dispatches }) hj hm
  refine ⟨{ w with
    dispatches, unresolved := ⟨jump.address, .unrecognizedDispatch⟩ :: w.unresolved }, ?_, ?_⟩
  · rw [← hrecover, step?, hc, hds]
  · exact fun hall => hall _ List.mem_cons_self rfl

/-- Behind a decoded instruction, a jump out of the program is put on record, and nothing
    besides. -/
theorem unresolved_of_onward {i : Instruction} {ah : Option UInt8} (h : Onward r w i ah w') :
    w'.unresolved = w.unresolved ∨
      w'.unresolved = ⟨i.address, .externalTarget⟩ :: w.unresolved := by
  cases h with
  | leave hj ht hx => exact .inr rfl
  | dispatch | jump | branch | blind | «return» | exit | call | plain => exact .inl rfl

/-- **A move puts at most one thing on record**, and a dispatch as unrecognized only if it is
    refused. -/
theorem unresolved_of_move (hm : Move r w w') :
    w'.unresolved = w.unresolved ∨ ∃ u, w'.unresolved = u :: w.unresolved ∧
      (u.reason = .unrecognizedDispatch → w.Refuses r) := by
  cases hm with
  | decode hd ho =>
    refine (unresolved_of_onward ho).imp_right fun hu => ⟨_, hu, ?_⟩
    rintro ⟨⟩
  | refuse hc hds hj hm => exact .inr ⟨_, rfl, fun _ => ⟨hc, _, _, _, hds, hj, hm⟩⟩
  | @recover linear dispatches jump m words hc hds hj hm hcount hwords =>
    obtain ⟨-, -, -, -, -, hu⟩ := withSwitch_frame { w with dispatches } jump m words
    exact .inl hu
  | stop hc hwhy => exact .inl rfl
  | vanish hc hds hj => exact .inl rfl
  | start hc hds hq => exact .inl rfl
  | turn hc hds hq => exact .inl rfl

/-- A dispatch that is on record as unrecognized stays so, since no move strikes anything out. -/
theorem not_allRecognized_of_move (hm : Move r w w') (h : ¬ AllRecognized w.unresolved) :
    ¬ AllRecognized w'.unresolved := by
  intro hall
  rcases unresolved_of_move hm with hu | ⟨u, hu, -⟩
  · exact h (hu ▸ hall)
  · rw [hu] at hall
    exact h fun v hv => hall v (List.mem_cons_of_mem u hv)

/-- A move that refuses nothing puts no dispatch on record as unrecognized. -/
theorem allRecognized_of_move (hm : Move r w w') (hknown : ¬ w.Refuses r)
    (h : AllRecognized w.unresolved) : AllRecognized w'.unresolved := by
  rcases unresolved_of_move hm with hu | ⟨u, hu, hwhy⟩
  · exact hu ▸ h
  · rw [hu]
    intro v hv
    rcases List.mem_cons.1 hv with rfl | hv
    · exact fun hreason => hknown (hwhy hreason)
    · exact h v hv

/-! ### Whole walks -/

/-- A walk that comes to an end without such a record has refused nothing on its way, because the
    record would still be there. -/
theorem not_refuses_of_after (hwalk : r.walk = .ok w') (hall : AllRecognized w'.unresolved)
    (hn : after r n = some w) : ¬ w.Refuses r := by
  intro hrefuses
  obtain ⟨w₁, hstep, hrecord⟩ := exists_step_of_refuses hrefuses
  exact walk_induction (P := fun w => ¬ AllRecognized w.unresolved) hwalk (after_succ hn hstep)
    hrecord (fun _ h hm => not_allRecognized_of_move hm h) hall

/-- So such a walk is the same with more templates, after any number of steps. -/
theorem after_addTemplates (hwalk : r.walk = .ok w') (hall : AllRecognized w'.unresolved)
    (more : List SwitchTemplate) (hn : after r n = some w) :
    after (r.addTemplates more) n = some w := by
  induction n generalizing w with
  | zero => exact hn
  | succ n ih =>
    obtain ⟨w₀, hw₀, hstep⟩ := after_succ_iff.1 hn
    rw [← step?_addTemplates (not_refuses_of_after hwalk hall hw₀) more] at hstep
    exact after_succ (ih hw₀) hstep

/-- **A walk without such a record comes to the same end with more templates**, whatever they would
    have recognized. -/
theorem walk_addTemplates (hwalk : r.walk = .ok w) (hall : AllRecognized w.unresolved)
    (more : List SwitchTemplate) : (r.addTemplates more).walk = .ok w := by
  obtain ⟨n, hn⟩ := exists_after_of_walk hwalk
  have hdone : w.step? (r.addTemplates more) = none := step?_eq_none_of_step? (done_of_walk hwalk)
  exact walk_of_after (run_of_walk hwalk).1 (after_addTemplates hwalk hall more hn) hdone

/-- Where some template knows every dispatch, none is on record as unrecognized, because none was
    ever refused. -/
theorem allRecognized_of_walk
    (hknows : ∀ window, SwitchTemplate.firstMatch? r.templates window ≠ none)
    (hwalk : r.walk = .ok w) : AllRecognized w.unresolved := by
  have hknown (w : Walk) : ¬ w.Refuses r := by
    rintro ⟨-, _, _, _, _, _, hm⟩
    exact hknows _ hm
  refine (run_induction (P := fun w => AllRecognized w.unresolved) ?_ ?_ (run_of_walk hwalk).2).1
  · exact fun h hm => allRecognized_of_move hm (hknown _) h
  · exact fun u hu => absurd hu List.not_mem_nil

end Walk

/-! ### Disassemblies -/

section Disassembly

variable {r : Routine} {d : Disassembly}

/-- The records of a disassembly are those of its walk, turned around, so one has such a record if
    the other does. -/
theorem allRecognized_iff_of_finish {w : Walk} (h : w.finish r = .ok d) :
    AllRecognized d.unresolved ↔ AllRecognized w.unresolved := by
  obtain ⟨-, -, -, -, -, -, hunresolved, -⟩ := Walk.finish_cases h
  simp only [AllRecognized, hunresolved, List.mem_reverse]

/-- Without such a record, the disassembly is the same with more templates. -/
theorem disassemble_addTemplates (hd : r.disassemble = .ok d) (hall : AllRecognized d.unresolved)
    (more : List SwitchTemplate) : (r.addTemplates more).disassemble = .ok d := by
  obtain ⟨w, hwalk, hfinish⟩ := Routine.disassemble_cases hd
  have hall' := (allRecognized_iff_of_finish hfinish).1 hall
  exact Routine.disassemble_of_walk (Walk.walk_addTemplates hwalk hall' more) hfinish

/-- A template that takes whatever it sees for a switch with one case. -/
def SwitchTemplate.always : SwitchTemplate where
  name := "always"
  recognize _ := some { index := .ax, max := 0, table := 0, folded := [] }

/-- With a template that takes everything, every dispatch of a disassembly is recognized; so a
    disassembly that stays the same with it had no other. -/
theorem allRecognized_of_always (hd : (r.addTemplates [.always]).disassemble = .ok d) :
    AllRecognized d.unresolved := by
  obtain ⟨w, hwalk, hfinish⟩ := Routine.disassemble_cases hd
  refine (allRecognized_iff_of_finish hfinish).2 (Walk.allRecognized_of_walk ?_ hwalk)
  intro window
  rw [SwitchTemplate.firstMatch?, Routine.addTemplates, List.findSome?_append]
  simp [SwitchTemplate.always]

/-- **More templates change nothing that was recognized.** A function keeps its disassembly,
    whatever templates are added after those there are, if and only if no dispatch is on record
    there as unrecognized. -/
theorem more_templates_change_nothing_iff (hd : r.disassemble = .ok d) :
    (∀ more, (r.addTemplates more).disassemble = .ok d) ↔ AllRecognized d.unresolved := by
  constructor
  · intro hsame
    exact allRecognized_of_always (hsame [.always])
  · intro hall more
    exact disassemble_addTemplates hd hall more

end Disassembly

/-- A dispatch with two cases, one of which leaves the program. -/
def departure : Routine where
  image := .ofBytes
    [0x3D, 0x01, 0x00, 0x76, 0x02, 0xEB, 0x0C, 0x01, 0xC0, 0x93, 0x2E, 0xFF, 0xA7, 0x0F, 0x01,
      0x13, 0x01, 0x14, 0x01, 0xC3, 0xEA, 0x00, 0x00, 0x00, 0xF0]
    ⟨0, 0x100⟩ ⟨0, 0x100⟩
  entry := ⟨0, 0x100⟩

/-- The jump out of the program is on record, but the dispatch is recognized; so the disassembly
    stays the same even with a template that would take everything. -/
theorem more_templates_change_nothing_iff_departure :
    ∃ d, departure.disassemble = .ok d ∧ d.switches.length = 1 ∧
      d.unresolved = [⟨⟨0, 0x114⟩, .externalTarget⟩] ∧
      (departure.addTemplates [.always]).disassemble = .ok d := by
  obtain ⟨d, hd, hswitches, hunresolved⟩ := Routine.exists_disassembly (r := departure)
    (P := fun d => d.switches.length = 1 ∧ d.unresolved = [⟨⟨0, 0x114⟩, .externalTarget⟩])
    (by decide +kernel)
  have hall : AllRecognized d.unresolved := by
    rw [hunresolved]
    decide
  exact ⟨d, hd, hswitches, hunresolved, (more_templates_change_nothing_iff hd).2 hall [.always]⟩

/-! ### Surveys -/

/-- A function that is recognized in full is analyzed alike when a template is added to the
    survey. -/
theorem Survey.analyze_addTemplate {s : Survey} {entry : Address} {d : Disassembly}
    (hd : (s.routine entry).disassemble = .ok d) (hall : AllRecognized d.unresolved)
    (t : SwitchTemplate) : (s.addTemplate t).analyze entry = s.analyze entry := by
  have hsame : ((s.addTemplate t).routine entry).disassemble = .ok d :=
    disassemble_addTemplates hd hall [t]
  rw [analyze, analyze, Routine.analyze, Routine.analyze, hsame, hd]

end RealMode
