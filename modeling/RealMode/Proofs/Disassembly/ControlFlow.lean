import RealMode.Proofs.Disassembly.Listing

namespace RealMode

/-!
# Control flow between the instructions of a disassembly

* `Disassembly.successors` — where control goes from an instruction;
* `Disassembly.Run` — the instructions that control goes through, one after another;
* `Disassembly.WellFormed` — control never leaves the instructions of the disassembly, and
  each of them has a use;
* `Walk.Finished` — what a disassembly tells of the walk it was made from;
* `wellFormed_of_disassemble` — every disassembly of a function is well formed.
-/

namespace Disassembly

/-! ### Steps and runs -/

/-- Where a jump leads that is followed: it names its target and is not recorded as
    unresolved. -/
def followed? (d : Disassembly) (i : Instruction) : Option Address :=
  if i.mnemonic.isJump && (d.unresolvedAt? i.linear).isNone then i.target? else none

/-- Whether the instruction is a jump that is followed. -/
def isFollowed (d : Disassembly) (i : Instruction) : Bool := (d.followed? i).isSome

/-- The linear addresses that control can go to from an instruction. -/
def successors (d : Disassembly) (i : Instruction) : List Nat :=
  if i.mnemonic.isReturn || d.isExit i.linear then []
  else if i.mnemonic.isConditionalBranch then
    (i.target?.map Address.linear).toList ++ [i.nextLinear]
  else if i.mnemonic = .switch then i.cases.map fun c => (i.caseTarget c).linear
  else if i.mnemonic.isJump then ((d.followed? i).map Address.linear).toList
  else [i.nextLinear]

/-- The instructions that control goes through from a linear address on, one after another.
    A run may stop anywhere. -/
inductive Run (d : Disassembly) : Nat → List Instruction → Prop
  | nil (a : Nat) : Run d a []
  | last {a : Nat} {i : Instruction} (hi : d.find? a = some i) : Run d a [i]
  | step {a b : Nat} {i : Instruction} {is : List Instruction} (hi : d.find? a = some i)
      (hb : b ∈ d.successors i) (h : Run d b is) : Run d a (i :: is)

/-! ### Well-formed disassemblies -/

/-- Control never leaves the instructions of the disassembly, and each of them has a use. -/
structure WellFormed (d : Disassembly) : Prop where
  entry : ∃ i, d.find? d.entry.linear = some i
  closed : ∀ {k : Nat} {i}, d.find? k = some i → ∀ b ∈ d.successors i, ∃ j, d.find? b = some j
  branch : ∀ {k : Nat} {i}, d.find? k = some i → i.mnemonic.isConditionalBranch = true →
    ∃ t, i.target? = some t
  dispatch : ∀ {k : Nat} {i}, d.find? k = some i → i.mnemonic.isJump = true →
    i.target? = none → (d.unresolvedAt? i.linear).isSome = true
  exit : ∀ {k : Nat} {i}, d.find? k = some i → d.isExit k = true →
    i.mnemonic = .int ∨ i.mnemonic = .nop
  usage : ∀ {k : Nat} {i}, d.find? k = some i → ∃ u, i.usage = .ok u
  usage_followed : ∀ {k : Nat} {i}, d.find? k = some i → d.isFollowed i = true → i.usage = .ok {}

/-- A jump that is followed names its target, and is not recorded. So a jump is either followed or
    on record, and the graph need not know why. -/
theorem followed?_eq_some_iff {d : Disassembly} {i : Instruction} {t : Address} :
    d.followed? i = some t ↔
      i.mnemonic.isJump = true ∧ d.unresolvedAt? i.linear = none ∧ i.target? = some t := by
  unfold followed?
  split
  · rename_i h
    rw [Bool.and_eq_true, Option.isNone_iff_eq_none] at h
    exact ⟨fun ht => ⟨h.1, h.2, ht⟩, fun ht => ht.2.2⟩
  · rename_i h
    rw [Bool.and_eq_true, Option.isNone_iff_eq_none] at h
    refine ⟨fun ht => ?_, fun ht => absurd ⟨ht.1, ht.2.1⟩ h⟩
    cases ht

/-! ### Steps by kind of instruction -/

section Steps

variable {d : Disassembly} {k : Nat} {i : Instruction}

/-- Only jumps are followed; a branch or a switch stays an instruction of its node. -/
theorem isFollowed_of_not_isJump (hj : i.mnemonic.isJump = false) : d.isFollowed i = false := by
  simp only [isFollowed, followed?, hj, Bool.false_and]
  rfl

/-- What is found at a place is the instruction of that place, whatever the index says. -/
theorem linear_of_find? (hi : d.find? k = some i) : i.linear = k := (mem_of_find? hi).2.1

/-- What is found is found at its own place, so an instruction may stand for the place it was found
    at. -/
theorem find?_linear (hi : d.find? k = some i) : d.find? i.linear = some i := by
  rw [linear_of_find? hi]
  exact hi

/-- An instruction that ends the process is no transfer, as it is an interrupt, or was an
    instruction that recovery took the effect from. -/
theorem WellFormed.not_isExit (hd : d.WellFormed) (hi : d.find? k = some i)
    (hm : i.mnemonic.isJump = true ∨ i.mnemonic.isConditionalBranch = true ∨
      i.mnemonic = .switch) : d.isExit i.linear = false := by
  rw [Bool.eq_false_iff]
  intro hexit
  rw [linear_of_find? hi] at hexit
  rcases hd.exit hi hexit with he | he <;> rw [he] at hm <;> revert hm <;> decide

/-- A conditional branch leads to its target and to the place behind it, in this order. -/
theorem WellFormed.successors_branch (hd : d.WellFormed) (hi : d.find? k = some i)
    (hb : i.mnemonic.isConditionalBranch = true) {t : Address} (ht : i.target? = some t) :
    d.successors i = [t.linear, i.nextLinear] := by
  have hr := Mnemonic.isReturn_of_isConditionalBranch hb
  have hx := hd.not_isExit hi (.inr (.inl hb))
  simp [successors, hr, hx, hb, ht]

/-- A switch leads to the places of its cases, in the order of the table and as often as they occur
    there. -/
theorem WellFormed.successors_switch (hd : d.WellFormed) (hi : d.find? k = some i)
    (hs : i.mnemonic = .switch) :
    d.successors i = i.cases.map fun c => (i.caseTarget c).linear := by
  have hx := hd.not_isExit hi (.inr (.inr hs))
  simp [successors, hx, hs, Mnemonic.isReturn, Mnemonic.isConditionalBranch]

/-- A jump leads to its target if it is followed, and else nowhere. -/
theorem WellFormed.successors_jump (hd : d.WellFormed) (hi : d.find? k = some i)
    (hj : i.mnemonic.isJump = true) :
    d.successors i = ((d.followed? i).map Address.linear).toList := by
  have hr := Mnemonic.isReturn_of_isJump hj
  have hb := Mnemonic.isConditionalBranch_of_isJump hj
  have hs := Mnemonic.ne_switch_of_isJump hj
  have hx := hd.not_isExit hi (.inl hj)
  simp [successors, hr, hx, hb, hs, hj]

/-- From a return, or where the process ends, control goes nowhere in the function. -/
theorem successors_stop (hx : (i.mnemonic.isReturn || d.isExit i.linear) = true) :
    d.successors i = [] := by
  rw [successors, if_pos hx]

/-- From an instruction of any other kind, control goes straight on. -/
theorem successors_plain (hx : (i.mnemonic.isReturn || d.isExit i.linear) = false)
    (hj : i.mnemonic.isJump = false) (hb : i.mnemonic.isConditionalBranch = false)
    (hs : i.mnemonic ≠ .switch) : d.successors i = [i.nextLinear] := by
  simp [successors, hx, hj, hb, hs]

end Steps

end Disassembly

/-! ### Disassemblies of functions -/

namespace Walk

variable {r : Routine} {w : Walk} {d : Disassembly}

/-- A finished walk has decoded every place that it follows a transfer to, and every place
    that control falls through to. -/
structure Complete (w : Walk) : Prop where
  followed : ∀ {t : Nat}, w.Follows t → ∃ i, w.decoded[t]? = some i
  fallen : ∀ {k : Nat} {i}, w.decoded[k]? = some i → w.fallsThrough i = true →
    ∃ j, w.decoded[i.nextLinear]? = some j

/-- A walk in which no broken flow is found is complete: what is looked for is exactly a transfer or
    a fall to where nothing is decoded. -/
theorem complete_of_unresolvedFlow? (h : w.unresolvedFlow? = none) : w.Complete := by
  rw [unresolvedFlow?, Option.orElse_eq_orElse, Option.orElse_eq_or, Option.or_eq_none_iff] at h
  refine ⟨?_, ?_⟩
  · rintro t ⟨source, hmem⟩
    have hnone := List.find?_eq_none.1 h.1 (source, t) (List.mem_reverse.2 hmem)
    simp only [Bool.not_eq_true', Bool.not_eq_false] at hnone
    exact (AddressMap.contains_iff_exists _ _).1 hnone
  · intro k i hi hfalls
    have hnone := List.find?_eq_none.1 (Option.map_eq_none_iff.1 h.2) i
      ((AddressMap.mem_items_iff _).2 ⟨k, hi⟩)
    simp only [hfalls, Bool.true_and, Bool.not_eq_true', Bool.not_eq_false] at hnone
    exact (AddressMap.contains_iff_exists _ _).1 hnone

/-- What a disassembly tells of the walk it was made from: each of its tables is one of the walk,
    turned around or put in order. -/
theorem finish_cases (h : w.finish r = .ok d) :
    w.Complete ∧ d.entry = r.entry ∧ d.instructions = (w.listing r).toArray ∧
      d.index = Disassembly.indexOf (w.listing r) ∧ d.labels = w.labels ∧ d.exits = w.exits ∧
      d.unresolved = w.unresolved.reverse ∧ d.callees = w.callees.items := by
  unfold finish at h
  split at h
  · cases h
  · rename_i hflow
    cases h
    exact ⟨complete_of_unresolvedFlow? hflow, rfl, rfl, rfl, rfl, rfl, rfl, rfl⟩

/-- A walk without broken flow amounts to a disassembly; there is nothing else that could be refused
    at the end. -/
theorem exists_finish (h : w.unresolvedFlow? = none) : ∃ d, w.finish r = .ok d := by
  rw [finish, h]
  exact ⟨_, rfl⟩

/-- A jump is on record in the disassembly if it is in the walk, where the records are in the
    opposite order. -/
theorem isSome_unresolvedAt?_iff (hu : d.unresolved = w.unresolved.reverse) (k : Nat) :
    (d.unresolvedAt? k).isSome = true ↔ w.Records k := by
  rw [Disassembly.unresolvedAt?, List.find?_isSome, hu]
  simp only [List.mem_reverse, beq_iff_eq, Records]

/-- What control goes through, other than straight on, is not touched by fusion, since only loads
    are. -/
theorem eq_of_fused {i j : Instruction} (h : Fusion.Fused j i)
    (hi : i.mnemonic.isJump = true ∨ i.mnemonic.isConditionalBranch = true ∨
      i.mnemonic = .switch) : i = j := by
  rcases h with rfl | ⟨-, -, -, hrec, hswitch⟩
  · rfl
  · obtain ⟨hjump, hbranch⟩ := hrec.not_transfer
    rw [hjump, hbranch] at hi
    rcases hi with hi | hi | hi
    · cases hi
    · cases hi
    · exact absurd hi hswitch

/-- Control falls through an instruction of the walk if it does so through what fusion made of
    it. -/
theorem fallsThrough_of_fused {i j : Instruction} (h : Fusion.Fused j i)
    (hj : i.mnemonic.isJump = false) (hr : i.mnemonic.isReturn = false)
    (hs : i.mnemonic ≠ .switch) (hx : w.exits.contains i.linear = false) :
    w.fallsThrough j = true := by
  have hlinear := h.linear
  rcases h with rfl | ⟨-, -, hmov, -⟩
  · simp [fallsThrough, hj, hr, hs, hx]
  · rw [hlinear] at hx
    simp [fallsThrough, hmov, hx, Mnemonic.isJump, Mnemonic.isReturn]

end Walk

/-- A disassembly is made of a walk that has come to its end. -/
theorem Routine.disassemble_cases {r : Routine} {d : Disassembly} (h : r.disassemble = .ok d) :
    ∃ w, r.walk = .ok w ∧ w.finish r = .ok d := by
  unfold disassemble at h
  cases hw : r.walk with
  | error e => simp [hw, Except.bind, Except.mapError] at h
  | ok w =>
    cases hf : w.finish r with
    | error e => simp [hw, hf, Except.bind, Except.mapError] at h
    | ok d' =>
      simp only [hw, hf, Except.bind, Except.mapError, Except.ok.injEq] at h
      exact ⟨w, rfl, h ▸ hf⟩

/-- A walk that comes to its end, and that can be finished, is a disassembly. -/
theorem Routine.disassemble_of_walk {r : Routine} {w : Walk} {d : Disassembly}
    (hw : r.walk = .ok w) (hf : w.finish r = .ok d) : r.disassemble = .ok d := by
  simp only [disassemble, hw, Except.bind, hf, Except.mapError]

/-- The disassembly was made from the walk of the function, which is finished. -/
structure Walk.Finished (r : Routine) (w : Walk) (d : Disassembly) : Prop where
  walk : r.walk = .ok w
  sound : Sound r w
  idle : ∀ k, ¬ w.Awaits k
  complete : w.Complete
  shows : w.Shows d
  entry : d.entry = r.entry
  labels : d.labels = w.labels
  exits : d.exits = w.exits
  unresolved : d.unresolved = w.unresolved.reverse
  callees : d.callees = w.callees.items

/-- What is made of a walk that has come to its end shows that walk, with nothing waiting any
    more. -/
theorem Walk.finished_of_finish {r : Routine} {w : Walk} {d : Disassembly} (hw : r.walk = .ok w)
    (hf : w.finish r = .ok d) : w.Finished r d := by
  obtain ⟨hsound, hidle⟩ := sound_of_walk hw
  obtain ⟨hcomplete, hentry, hinstructions, hindex, hlabels, hexits, hunresolved, hcallees⟩ :=
    finish_cases hf
  exact ⟨hw, hsound, hidle, hcomplete, shows_of_listing hsound hinstructions hindex, hentry,
    hlabels, hexits, hunresolved, hcallees⟩

/-- Every disassembly is made from a finished walk, which is all that proofs about disassemblies
    need to know of how they are made. -/
theorem Routine.finished_of_disassemble {r : Routine} {d : Disassembly}
    (h : r.disassemble = .ok d) : ∃ w : Walk, w.Finished r d := by
  obtain ⟨w, hwalk, hfinish⟩ := disassemble_cases h
  exact ⟨w, Walk.finished_of_finish hwalk hfinish⟩

namespace Walk.Finished

variable {r : Routine} {w : Walk} {d : Disassembly}

/-- Every instruction of the disassembly comes from the image: it was decoded there, or recovered
    from what was. -/
theorem provides (h : w.Finished r d) {k : Nat} {i : Instruction} (hi : d.find? k = some i) :
    r.Provides i := by
  obtain ⟨j, hj, hfused⟩ := h.shows.found hi
  rcases hfused with rfl | ⟨ha, hl, -, hrec, -⟩
  · exact h.sound.provided hj
  · exact (h.sound.provided hj).recovered ha hl hrec

/-- Every place that a transfer to is followed can be found. -/
theorem reach (h : w.Finished r d) {t : Nat} (ht : w.Follows t) : ∃ i, d.find? t = some i := by
  obtain ⟨j, hj⟩ := h.complete.followed ht
  obtain ⟨i, hi, -⟩ := h.shows.shown hj
  exact ⟨i, hi⟩

/-- Every place that control falls through to can be found. -/
theorem fall (h : w.Finished r d) {k : Nat} {i : Instruction} (hi : d.find? k = some i)
    (hj : i.mnemonic.isJump = false) (hr : i.mnemonic.isReturn = false)
    (hs : i.mnemonic ≠ .switch) (hx : d.isExit i.linear = false) :
    ∃ j, d.find? i.nextLinear = some j := by
  obtain ⟨j, hj', hfused⟩ := h.shows.found hi
  rw [Disassembly.isExit, h.exits] at hx
  obtain ⟨next, hnext⟩ := h.complete.fallen hj' (fallsThrough_of_fused hfused hj hr hs hx)
  obtain ⟨i', hi', -⟩ := h.shows.shown hnext
  exact ⟨i', hfused.nextLinear ▸ hi'⟩

/-- **Control never leaves the disassembly.** Wherever it can go from an instruction, there is
    another one, since broken flow would have been found. -/
theorem closed (h : w.Finished r d) {k b : Nat} {i : Instruction} (hi : d.find? k = some i)
    (hb : b ∈ d.successors i) : ∃ j, d.find? b = some j := by
  obtain ⟨j, hj, hfused⟩ := h.shows.found hi
  have hsettled := h.sound.settled hj
  -- The cases are those of the successors; whatever leads elsewhere was settled by the walk.
  unfold Disassembly.successors at hb
  split at hb
  · exact absurd hb List.not_mem_nil
  · rename_i hgo
    rw [Bool.or_eq_true, not_or, Bool.not_eq_true, Bool.not_eq_true] at hgo
    split at hb
    · rename_i hbranch
      obtain rfl := eq_of_fused hfused (.inr (.inl hbranch))
      rw [List.mem_append, Option.mem_toList, Option.map_eq_some_iff, List.mem_singleton] at hb
      rcases hb with ⟨t, ht, rfl⟩ | rfl
      · exact h.reach (hsettled.branch hbranch t ht)
      · exact h.fall hi (Mnemonic.isJump_of_isConditionalBranch hbranch) hgo.1
          (Mnemonic.ne_switch_of_isConditionalBranch hbranch) hgo.2
    · split at hb
      · rename_i hswitch
        obtain rfl := eq_of_fused hfused (.inr (.inr hswitch))
        rw [List.mem_map] at hb
        obtain ⟨c, hc, rfl⟩ := hb
        exact h.reach (hsettled.switch hswitch c hc)
      · rename_i hswitch
        split at hb
        · -- A jump that is recorded is not followed, so this one is.
          rename_i hjump
          obtain rfl := eq_of_fused hfused (.inl hjump)
          rw [Option.mem_toList, Option.map_eq_some_iff] at hb
          obtain ⟨t, ht, rfl⟩ := hb
          obtain ⟨-, hnone, ht⟩ := Disassembly.followed?_eq_some_iff.1 ht
          refine h.reach ((hsettled.jump hjump t ht).resolve_right fun hrec => ?_)
          rw [← isSome_unresolvedAt?_iff h.unresolved, hnone] at hrec
          cases hrec
        · rename_i hjump
          rw [List.mem_singleton] at hb
          subst hb
          exact h.fall hi (Bool.eq_false_iff.2 hjump) hgo.1 hswitch hgo.2

/-- A jump that names no target is recorded, since none waits any more. -/
theorem dispatch (h : w.Finished r d) {k : Nat} {i : Instruction} (hi : d.find? k = some i)
    (hjump : i.mnemonic.isJump = true) (hnone : i.target? = none) :
    (d.unresolvedAt? i.linear).isSome = true := by
  obtain ⟨j, hj, hfused⟩ := h.shows.found hi
  obtain rfl := eq_of_fused hfused (.inl hjump)
  rw [isSome_unresolvedAt?_iff h.unresolved]
  exact ((h.sound.settled hj).dispatch hjump hnone).resolve_right (h.idle _)

/-- Only interrupts end the process, unless they only prepared a dispatch and have no effect any
    more. -/
theorem exit (h : w.Finished r d) {k : Nat} {i : Instruction} (hi : d.find? k = some i)
    (hexit : d.isExit k = true) : i.mnemonic = .int ∨ i.mnemonic = .nop := by
  obtain ⟨j, hj, hfused⟩ := h.shows.found hi
  rw [Disassembly.isExit, h.exits] at hexit
  obtain ⟨j', hj', hm⟩ := h.sound.exits hexit
  rw [hj] at hj'
  cases hj'
  -- Fusion changes loads, and a load ends no process.
  rcases hfused with rfl | ⟨-, -, hmov, -⟩
  · exact hm
  · rw [hmov] at hm
    rcases hm with hm | hm <;> cases hm

end Walk.Finished

/-- Every instruction of a disassembly comes from the image. -/
theorem Routine.provides_of_disassemble {r : Routine} {d : Disassembly}
    (h : r.disassemble = .ok d) {k : Nat} {i : Instruction} (hi : d.find? k = some i) :
    r.Provides i := by
  obtain ⟨w, hw⟩ := finished_of_disassemble h
  exact hw.provides hi

/-- The entry is in the image, and no instruction of the disassembly reaches across it, so it is
    where one begins. -/
theorem Routine.entry_of_disassemble {r : Routine} {d : Disassembly} (h : r.disassemble = .ok d) :
    d.entry = r.entry ∧ r.image.contains r.entry.linear = true ∧
      ∀ {k : Nat} {i}, d.find? k = some i →
        r.entry.linear ≤ k ∨ k + i.length.toNat ≤ r.entry.linear := by
  obtain ⟨w, hw⟩ := finished_of_disassemble h
  refine ⟨hw.entry, (Walk.run_of_walk hw.walk).1, ?_⟩
  intro k i hi
  obtain ⟨j, hj, hfused⟩ := hw.shows.found hi
  rw [hfused.length]
  exact (Walk.entry_of_walk hw.walk).2 hj

/-- **Disassemblies of functions are well formed.** From here on a flow graph can be built and
    annotated without a look at the image. -/
theorem wellFormed_of_disassemble {r : Routine} {d : Disassembly} (h : r.disassemble = .ok d) :
    d.WellFormed := by
  obtain ⟨w, hw⟩ := Routine.finished_of_disassemble h
  refine ⟨?_, fun hi _ hb => hw.closed hi hb, fun hi hb => (hw.provides hi).target? hb,
    hw.dispatch, hw.exit, fun hi => (hw.provides hi).usage, ?_⟩
  · obtain ⟨e, he⟩ := (Walk.entry_of_walk hw.walk).1
    obtain ⟨i, hi, -⟩ := hw.shows.shown he
    exact ⟨i, hw.entry ▸ hi⟩
  · intro k i hi hfollowed
    obtain ⟨t, ht⟩ := Option.isSome_iff_exists.1 hfollowed
    obtain ⟨hjump, -, ht⟩ := Disassembly.followed?_eq_some_iff.1 ht
    exact (hw.provides hi).usage_jump hjump ht

end RealMode
