import RealMode.Proofs.Walk.CarriedAh

namespace RealMode

/-!
# The tables of a walk

Next to the instructions, a walk keeps the callees, the jumps that are not followed and the places
where the process ends. They are filled while instructions are decoded, and some of those are seen
as other operations later on.

* `Routine.IsExternal`, `Routine.Calls`, `Routine.unfollowed?`, `Routine.EndsProcess` — what one
  instruction asks of the tables;
* `Walk.Tables` — the tables hold what the decoded instructions ask for, and nothing else;
* `Walk.tables_of_move` — every move keeps that under the standard templates,
  `Walk.tables_of_after` — so it holds after any number of steps.
-/

/-! ### What an instruction asks for -/

namespace Routine

variable {r : Routine} {i : Instruction} {a t : Address} {k : Nat} {ah : Option UInt8}

/-- A direct far jump or call that leaves the program: its target is outside the image, or the
    image has a list of relocations and the last word of the instruction, the segment it names, is
    not one of them. -/
def IsExternal (r : Routine) (i : Instruction) : Prop :=
  (i.mnemonic = .jmpf ∨ i.mnemonic = .callf) ∧ ∃ t ∈ i.target?,
    r.image.contains t.linear = false ∨
      r.image.format = .mz ∧ i.linear + i.length.toNat - 2 ∉ r.image.relocations

instance (r : Routine) (i : Instruction) : Decidable (r.IsExternal i) :=
  inferInstanceAs (Decidable (_ ∧ _))

/-- The instruction calls the place, which is part of the program. -/
def Calls (r : Routine) (i : Instruction) (k : Nat) : Prop :=
  i.mnemonic.isCall = true ∧ ¬ r.IsExternal i ∧ ∃ t ∈ i.target?, t.linear = k

/-- The record of a jump that cannot be followed. -/
def unfollowed? (r : Routine) (i : Instruction) : Option Unresolved :=
  if i.isIndirectJump then some ⟨i.address, .unrecognizedDispatch⟩
  else if i.mnemonic = .jmpf ∧ r.IsExternal i then some ⟨i.address, .externalTarget⟩
  else none

/-- An interrupt ends the process, for all that is known of `ah`: by its vector, by the function
    in `ah`, or because nothing can be decoded behind a system call of an unknown function. -/
def EndsProcess (r : Routine) (i : Instruction) (ah : Option UInt8) : Prop :=
  ∃ v ∈ i.vector?, v = 0x20 ∨ v = 0x27 ∨
    v = 0x21 ∧ ((∃ f ∈ exitFunctions, ah = some f) ∨
      ah = none ∧ (r.decodeAt i.next).isOk = false)

/-- The test on a transfer with a target is that on far ones out of the program. -/
theorem leavesProgram_iff (ht : i.target? = some t) :
    r.leavesProgram i t = true ↔ r.IsExternal i := by
  have hfar : i.isFar = true ↔ i.mnemonic = .jmpf ∨ i.mnemonic = .callf := by
    cases hm : i.mnemonic <;> simp [Instruction.isFar, hm]
  simp [leavesProgram, IsExternal, ht, hfar, Image.hasRelocationTable, Image.isRelocated,
    ← Std.ExtTreeSet.contains_iff_mem]

/-- The table of interrupts that end the process, with what must be known of `ah`. -/
theorem endsProcess_iff {v : UInt8} : endsProcess v ah = true ↔
    v = 0x20 ∨ v = 0x27 ∨ v = 0x21 ∧ ∃ f ∈ exitFunctions, ah = some f := by
  unfold endsProcess
  split
  · simp
  · simp
  · -- The pattern lists just the functions that end the process.
    split <;> simp_all [exitFunctions]
  · rename_i h20 h27 h21
    constructor
    · intro h
      cases h
    · rintro (h | h | ⟨h, -⟩)
      · exact (h20 h).elim
      · exact (h27 h).elim
      · exact (h21 h).elim

/-- The test that the walk makes is the condition as it is stated here, look-ahead included. -/
theorem isExit_iff : r.isExit i ah = true ↔ r.EndsProcess i ah := by
  unfold isExit EndsProcess
  cases hv : i.vector? with
  | none => simp
  | some v =>
    have hunknown : (!(r.decodeAt i.next).isOk) = true ↔ (r.decodeAt i.next).isOk = false := by
      simp
    simp only [Bool.or_eq_true, Bool.and_eq_true, endsProcess_iff, beq_iff_eq,
      Option.isNone_iff_eq_none, hunknown, Option.mem_def, Option.some.injEq, exists_eq_left']
    rw [or_assoc, or_assoc, and_assoc, ← and_or_left]

/-- Of jumps that are decoded, the indirect ones are those without a target. -/
theorem isIndirectJump_iff (hdec : r.decodeAt a = .ok i) (hj : i.mnemonic.isJump = true) :
    i.isIndirectJump = true ↔ i.target? = none := by
  obtain ⟨bs, -, hi⟩ := decode_of_decodeAt hdec
  exact isIndirectJump_iff_of_decode hi hj

theorem unfollowed?_of_not_isJump (hj : i.mnemonic.isJump = false) : r.unfollowed? i = none := by
  have hfar : i.mnemonic ≠ .jmpf := by
    intro hm
    rw [hm] at hj
    cases hj
  simp [unfollowed?, Instruction.isIndirectJump, hj, hfar]

/-- A record is about the instruction that asks for it. -/
theorem address_of_unfollowed? {u : Unresolved} (h : r.unfollowed? i = some u) :
    u.address = i.address := by
  unfold unfollowed? at h
  split at h
  · cases h
    rfl
  · split at h
    · cases h
      rfl
    · cases h

/-- What recovery has not made is as it was decoded, so it may be decoded once more to look at
    it. -/
theorem Provides.decodeAt (h : r.Provides i)
    (hm : i.mnemonic ∉ [.nop, .switch, .words2dword]) : r.decodeAt i.address = .ok i := by
  obtain ⟨j, hdec, -, rfl | hrecovered⟩ := h
  · exact hdec
  · cases hrecovered <;> simp_all

theorem Provides.decodeAt_of_isJump (h : r.Provides i) (hj : i.mnemonic.isJump = true) :
    r.decodeAt i.address = .ok i := by
  apply h.decodeAt
  rcases Mnemonic.of_isJump hj with hm | hm <;> simp [hm]

/-- A jump that is decoded without a target is to be recorded. -/
theorem unfollowed?_of_dispatch (hdec : r.decodeAt a = .ok i) (hj : i.mnemonic.isJump = true)
    (ht : i.target? = none) : r.unfollowed? i = some ⟨i.address, .unrecognizedDispatch⟩ := by
  rw [unfollowed?, if_pos ((isIndirectJump_iff hdec hj).2 ht)]

/-- A jump that is decoded with a target is to be recorded if it leaves the program. -/
theorem unfollowed?_of_target? (hdec : r.decodeAt a = .ok i) (hj : i.mnemonic.isJump = true)
    (ht : i.target? = some t) : r.unfollowed? i =
      if r.leavesProgram i t then some ⟨i.address, .externalTarget⟩ else none := by
  have hdirect : ¬ i.isIndirectJump = true := by
    rw [isIndirectJump_iff hdec hj, ht]
    simp
  have hfar : (i.mnemonic = .jmpf ∧ r.IsExternal i) ↔ r.leavesProgram i t = true := by
    rw [leavesProgram_iff ht]
    refine ⟨fun h => h.2, fun h => ⟨h.1.resolve_right fun hm => ?_, h⟩⟩
    rw [hm] at hj
    cases hj
  simp only [unfollowed?, if_neg hdirect, hfar]

end Routine

/-! ### The tables -/

namespace Walk

variable {r : Routine} {w w' : Walk} {i : Instruction} {ah : Option UInt8}

/-- The tables hold what the decoded instructions ask for, and nothing else. A jump through a
    register or memory may wait to be recorded, but no other jump does. -/
structure Tables (r : Routine) (w : Walk) : Prop where
  callees : ∀ k : Nat, w.callees.contains k = true ↔
    ∃ (s : Nat) (i : Instruction), w.decoded[s]? = some i ∧ r.Calls i k
  keys : ∀ {k : Nat} {a}, w.callees[k]? = some a → a.linear = k
  recorded : ∀ u ∈ w.unresolved, ∃ i, w.decoded[u.linear]? = some i ∧ r.unfollowed? i = some u
  left : ∀ {k : Nat} {i}, w.decoded[k]? = some i → i.target? ≠ none → r.unfollowed? i ≠ none →
    w.Records k
  exits : ∀ x : Nat, w.exits.contains x = true ↔
    ∃ i ah, w.decoded[x]? = some i ∧ TracksAh r x ah ∧ r.isExit i ah = true

theorem Tables.frame (h : Tables r w) (hd : w'.decoded = w.decoded)
    (hcalls : w'.callees = w.callees) (hu : w'.unresolved = w.unresolved)
    (hx : w'.exits = w.exits) : Tables r w' := by
  refine ⟨?_, ?_, ?_, ?_, ?_⟩
  · rw [hcalls, hd]
    exact h.callees
  · rw [hcalls]
    exact h.keys
  · rw [hu, hd]
    exact h.recorded
  · intro k i hi ht hrec
    obtain ⟨u, hmem, hlinear⟩ := h.left (hd ▸ hi) ht hrec
    exact ⟨u, hu ▸ hmem, hlinear⟩
  · rw [hx, hd]
    exact h.exits

/-! ### Moves that decode an instruction -/

/-- What going on behind an instruction adds to the tables. -/
structure Enters (r : Routine) (w : Walk) (i : Instruction) (ah : Option UInt8) (w' : Walk) :
    Prop where
  callees : ∀ k : Nat,
    w'.callees.contains k = true ↔ w.callees.contains k = true ∨ r.Calls i k
  keys : ∀ {k : Nat} {a}, w'.callees[k]? = some a → w.callees[k]? = some a ∨ a.linear = k
  unresolved : w'.unresolved = w.unresolved ∧ (i.target? = none ∨ r.unfollowed? i = none) ∨
    ∃ u, w'.unresolved = u :: w.unresolved ∧ r.unfollowed? i = some u
  exits : ∀ x : Nat, w'.exits.contains x = true ↔
    w.exits.contains x = true ∨ x = i.linear ∧ r.isExit i ah = true

/-- Most instructions add nothing: those that call nothing in the program, are not to be recorded,
    and do not end the process. -/
theorem enters_of_silent (hcalls : w'.callees = w.callees) (hu : w'.unresolved = w.unresolved)
    (hx : w'.exits = w.exits) (hnocall : ∀ k, ¬ r.Calls i k)
    (hfollowed : i.target? = none ∨ r.unfollowed? i = none) (hgoes : r.isExit i ah = false) :
    Enters r w i ah w' := by
  refine ⟨fun k => ?_, fun hk => .inl (hcalls ▸ hk), .inl ⟨hu, hfollowed⟩, fun x => ?_⟩
  · simp [hcalls, hnocall k]
  · simp [hx, hgoes]

/-- What the walk adds behind an instruction is what the instruction asks for, whatever kind it
    is. -/
theorem enters_of_onward {a : Address} (hdec : r.decodeAt a = .ok i) (ho : Onward r w i ah w') :
    Enters r w i ah w' := by
  have hnocall (hc : i.mnemonic.isCall = false) (k : Nat) : ¬ r.Calls i k := by
    intro h
    rw [h.1] at hc
    cases hc
  have hgoes (hm : i.mnemonic ≠ .int) : r.isExit i ah = false := by
    rw [Bool.eq_false_iff]
    exact fun hx => hm (Routine.int_of_isExit hx)
  -- A transfer is neither a call nor an interrupt.
  have htransfer (h : i.mnemonic.isJump = true ∨ i.mnemonic.isConditionalBranch = true ∨
      i.mnemonic.isReturn = true) : (∀ k, ¬ r.Calls i k) ∧ r.isExit i ah = false := by
    have hkind : i.mnemonic.isCall = false ∧ i.mnemonic ≠ .int := by
      generalize i.mnemonic = m at h
      revert h
      cases m <;> decide
    exact ⟨hnocall hkind.1, hgoes hkind.2⟩
  have hbranch (hb : i.mnemonic.isConditionalBranch = true) : r.unfollowed? i = none :=
    Routine.unfollowed?_of_not_isJump (Mnemonic.isJump_of_isConditionalBranch hb)
  cases ho with
  | dispatch hj ht =>
    obtain ⟨hc, hx⟩ := htransfer (.inl hj)
    exact enters_of_silent rfl rfl rfl hc (.inl ht) hx
  | @leave t hj ht hx =>
    obtain ⟨hc, hx'⟩ := htransfer (.inl hj)
    refine ⟨fun k => by simp [hc k], .inl, .inr ⟨_, rfl, ?_⟩, fun x => by simp [hx']⟩
    rw [Routine.unfollowed?_of_target? hdec hj ht, if_pos hx]
  | @jump t hj ht hx =>
    obtain ⟨hc, hx'⟩ := htransfer (.inl hj)
    -- A jump inside the program is followed, so it is not to be recorded.
    refine enters_of_silent rfl rfl rfl hc (.inr ?_) hx'
    simp [Routine.unfollowed?_of_target? hdec hj ht, hx]
  | branch hb ht =>
    obtain ⟨hc, hx⟩ := htransfer (.inr (.inl hb))
    exact enters_of_silent rfl rfl rfl hc (.inr (hbranch hb)) hx
  | blind hb ht =>
    obtain ⟨hc, hx⟩ := htransfer (.inr (.inl hb))
    exact enters_of_silent rfl rfl rfl hc (.inr (hbranch hb)) hx
  | «return» hr =>
    obtain ⟨hc, hx⟩ := htransfer (.inr (.inr hr))
    have hj := (Mnemonic.plain_of_isReturn hr).1
    exact enters_of_silent rfl rfl rfl hc (.inr (Routine.unfollowed?_of_not_isJump hj)) hx
  | exit hx =>
    have hm := Routine.int_of_isExit hx
    refine ⟨fun k => by simp [hnocall (by rw [hm]; rfl) k], .inl, .inl ⟨rfl, .inr ?_⟩, fun x => ?_⟩
    · exact Routine.unfollowed?_of_not_isJump (by rw [hm]; rfl)
    · rw [Std.ExtTreeSet.contains_insert, Bool.or_eq_true, beq_iff_eq, Nat.compare_eq_eq, or_comm,
        @eq_comm _ i.linear]
      simp [hx]
  | @call t hc ht hx =>
    obtain ⟨hj, hb⟩ := Mnemonic.plain_of_isCall hc
    -- A call adds the one place that it names.
    have hcalls (k : Nat) : r.Calls i k ↔ k = t.linear := by
      rw [← Bool.not_eq_true, Routine.leavesProgram_iff ht] at hx
      simp [Routine.Calls, hc, hx, ht, eq_comm]
    refine ⟨fun k => ?_, fun {k a} hk => ?_, .inl ⟨rfl, .inr ?_⟩, fun x => ?_⟩
    · rw [hcalls]
      exact AddressMap.contains_insert ..
    · simp only [AddressMap.getElem?_insert] at hk
      split at hk
      · rename_i hsame
        cases hk
        exact .inr hsame
      · exact .inl hk
    · exact Routine.unfollowed?_of_not_isJump hj
    · have hm : i.mnemonic ≠ .int := by
        intro hm
        rw [hm] at hc
        cases hc
      simp [hgoes hm]
  | plain hj hb hr hx hc =>
    refine enters_of_silent rfl rfl rfl ?_ (.inr (Routine.unfollowed?_of_not_isJump hj)) hx
    rintro k ⟨hcall, hstays, t, ht, -⟩
    exact hstays ((Routine.leavesProgram_iff ht).1 (hc hcall t ht))

/-- **Decoding keeps the tables**: an instruction is entered where it is decoded. -/
theorem Tables.onward {n : Nat} {c : Cursor} (h : Tables r w) (hn : after r n = some w)
    (hdec : Decodes r w c i)
    (ho : Onward r { w with decoded := w.decoded.insert c.address.linear i } i
      (i.ahAfter c.ah) w') : Tables r w' := by
  have henters := enters_of_onward hdec.decodeAt ho
  have hlookup (k : Nat) :
      w'.decoded[k]? = if i.linear = k then some i else w.decoded[k]? := by
    rw [decoded_of_onward ho, hdec.getElem?_insert]
  -- No place is decoded twice, so what was there stays.
  have hkept {k : Nat} {j : Instruction} (hj : w.decoded[k]? = some j) :
      w'.decoded[k]? = some j := by
    rw [hlookup, if_neg (hdec.linear_ne hj), hj]
  have hself : w'.decoded[i.linear]? = some i := by rw [hlookup, if_pos rfl]
  have htracks : TracksAh r i.linear (i.ahAfter c.ah) := ⟨n, w, c, i, hn, hdec, rfl, rfl⟩
  refine ⟨fun k => ?_, fun hk => ?_, fun u hu => ?_, fun {k j} hj ht hrec => ?_, fun x => ?_⟩
  · rw [henters.callees]
    constructor
    · rintro (hk | hk)
      · obtain ⟨s, j, hj, hcalls⟩ := (h.callees k).1 hk
        exact ⟨s, j, hkept hj, hcalls⟩
      · exact ⟨_, i, hself, hk⟩
    · rintro ⟨s, j, hj, hcalls⟩
      rw [hlookup] at hj
      split at hj
      · cases hj
        exact .inr hcalls
      · exact .inl ((h.callees k).2 ⟨s, j, hj, hcalls⟩)
  · exact (henters.keys hk).elim h.keys id
  · rcases henters.unresolved with ⟨hsame, -⟩ | ⟨v, hcons, hv⟩
    · obtain ⟨j, hj, hrec⟩ := h.recorded u (hsame ▸ hu)
      exact ⟨j, hkept hj, hrec⟩
    · rw [hcons, List.mem_cons] at hu
      rcases hu with rfl | hu
      · have hlinear : u.linear = i.linear :=
          congrArg Address.linear (Routine.address_of_unfollowed? hv)
        exact ⟨i, hlinear ▸ hself, hv⟩
      · obtain ⟨j, hj, hrec⟩ := h.recorded u hu
        exact ⟨j, hkept hj, hrec⟩
  · rw [hlookup] at hj
    split at hj
    · rename_i hk
      cases hj
      -- A jump with a target is recorded when it is decoded, or not at all.
      rcases henters.unresolved with ⟨-, hnone | hnone⟩ | ⟨v, hcons, hv⟩
      · exact absurd hnone ht
      · exact absurd hnone hrec
      · refine ⟨v, by simp [hcons], ?_⟩
        rw [← hk]
        exact congrArg Address.linear (Routine.address_of_unfollowed? hv)
    · obtain ⟨u, hu, hlinear⟩ := h.left hj ht hrec
      refine ⟨u, ?_, hlinear⟩
      rcases henters.unresolved with ⟨hsame, -⟩ | ⟨v, hcons, -⟩
      · exact hsame ▸ hu
      · exact hcons ▸ List.mem_cons_of_mem v hu
  · rw [henters.exits]
    constructor
    · rintro (hx | ⟨rfl, hx⟩)
      · obtain ⟨j, ah, hj, hah, hexit⟩ := (h.exits x).1 hx
        exact ⟨j, ah, hkept hj, hah, hexit⟩
      · exact ⟨i, _, hself, htracks, hx⟩
    · rintro ⟨j, ah, hj, hah, hexit⟩
      rw [hlookup] at hj
      split at hj
      · rename_i hx
        subst hx
        cases hj
        -- What is known of `ah` behind an instruction is known once and for all.
        rw [hah.unique htracks] at hexit
        exact .inr ⟨rfl, hexit⟩
      · exact .inl ((h.exits x).2 ⟨j, ah, hj, hah, hexit⟩)

/-! ### Moves that recover a switch -/

/-- The standard templates leave alone what is neither an `add`, an `xchg` nor a jump without a
    target. -/
theorem lasting_of_move {k : Nat} (htemplates : r.templates = SwitchTemplate.standard)
    (hs : Sound r w) (he : Exact w) (hm : Move r w w') (hi : w.decoded[k]? = some i)
    (hmnemonic : i.mnemonic ≠ .add ∧ i.mnemonic ≠ .xchg)
    (hdirect : i.mnemonic.isJump = true → i.target? ≠ none) : w'.decoded[k]? = some i := by
  refine kept_of_move hs he hm hi hdirect fun {linear jump m} hj hmatch hmem => ?_
  rw [htemplates] at hmatch
  obtain ⟨i', hi', rfl, hfolded⟩ := SwitchTemplate.folded_of_standard hmatch hmem
  have hsame := decoded_of_mem_window hs hj hi'
  rw [hi] at hsame
  cases hsame
  exact hfolded.elim hmnemonic.1 hmnemonic.2

/-- Recovery makes only switches and `nop`s, so all else was there before. -/
theorem decoded_of_withSwitch {jump : Instruction} {m : SwitchMatch} {words : List UInt16} {k : Nat}
    (hi : (w.withSwitch jump m words).decoded[k]? = some i)
    (hmnemonic : i.mnemonic ≠ .switch ∧ i.mnemonic ≠ .nop) : w.decoded[k]? = some i := by
  rw [(withSwitch_frame w jump m words).1] at hi
  rcases cases_of_putSwitch hi with ⟨-, -, -, rfl⟩ | ⟨j, -, rfl⟩ | ⟨-, hi⟩
  · exact absurd rfl hmnemonic.1
  · exact absurd rfl hmnemonic.2
  · exact hi

theorem callees_withSwitch (w : Walk) (jump : Instruction) (m : SwitchMatch)
    (words : List UInt16) : (w.withSwitch jump m words).callees = w.callees := by
  have hfold (ws : List UInt16) (w : Walk) :
      (ws.foldl (fun w word => w.follow jump.linear ⟨jump.address.seg, word⟩ none) w).callees
        = w.callees := by
    induction ws generalizing w with
    | nil => rfl
    | cons word ws ih => exact ih (w.follow jump.linear ⟨jump.address.seg, word⟩ none)
  exact hfold words _

/-- The tables stay right while only `add`s, `xchg`s and dispatches are taken away, and only
    switches and `nop`s are put in their places. -/
theorem Tables.rewrite (h : Tables r w) (he : Exact w') (hcalls : w'.callees = w.callees)
    (hu : w'.unresolved = w.unresolved) (hx : w'.exits = w.exits)
    (hlasting : ∀ {k : Nat} {i : Instruction}, w.decoded[k]? = some i →
      i.mnemonic ≠ .add ∧ i.mnemonic ≠ .xchg → (i.mnemonic.isJump = true → i.target? ≠ none) →
      w'.decoded[k]? = some i)
    (hback : ∀ {k : Nat} {i : Instruction}, w'.decoded[k]? = some i →
      i.mnemonic ≠ .switch ∧ i.mnemonic ≠ .nop → w.decoded[k]? = some i) : Tables r w' := by
  -- Calls, jumps and interrupts are none of the operations that recovery takes away or makes.
  have hcall {i : Instruction} (hm : i.mnemonic.isCall = true) :
      (i.mnemonic ≠ .add ∧ i.mnemonic ≠ .xchg) ∧ (i.mnemonic ≠ .switch ∧ i.mnemonic ≠ .nop) := by
    generalize i.mnemonic = m at hm
    revert hm
    cases m <;> decide
  have hjump {i : Instruction} (hm : i.mnemonic.isJump = true) :
      i.mnemonic ≠ .switch ∧ i.mnemonic ≠ .nop := by
    rcases Mnemonic.of_isJump hm with hm | hm <;> simp [hm]
  refine ⟨fun k => ?_, fun hk => ?_, fun u hmem => ?_, fun {k i} hi ht hrec => ?_, fun x => ?_⟩
  · rw [hcalls, h.callees]
    constructor
    · rintro ⟨s, i, hi, hc⟩
      refine ⟨s, i, hlasting hi (hcall hc.1).1 fun hj => ?_, hc⟩
      rw [(Mnemonic.plain_of_isCall hc.1).1] at hj
      cases hj
    · rintro ⟨s, i, hi, hc⟩
      exact ⟨s, i, hback hi (hcall hc.1).2, hc⟩
  · exact h.keys (hcalls ▸ hk)
  · -- What is recorded is a jump afterwards, so it is what it was before.
    rw [hu] at hmem
    obtain ⟨i, hi, hrec⟩ := h.recorded u hmem
    obtain ⟨j, hj, hm⟩ := he.recorded ⟨u, hu ▸ hmem, rfl⟩
    have hsame := hback hj (hjump hm)
    rw [hi] at hsame
    cases hsame
    exact ⟨i, hj, hrec⟩
  · -- A jump to be recorded was one before, and has its record.
    have hm : i.mnemonic.isJump = true := by
      by_contra hm
      exact hrec (Routine.unfollowed?_of_not_isJump (Bool.eq_false_iff.2 hm))
    obtain ⟨u, hmem, hlinear⟩ := h.left (hback hi (hjump hm)) ht hrec
    exact ⟨u, hu ▸ hmem, hlinear⟩
  · rw [hx, h.exits]
    constructor
    · rintro ⟨i, ah, hi, hah, hexit⟩
      have hm := Routine.int_of_isExit hexit
      exact ⟨i, ah, hlasting hi (by simp [hm]) (by simp [hm, Mnemonic.isJump]), hah, hexit⟩
    · rintro ⟨i, ah, hi, hah, hexit⟩
      have hm := Routine.int_of_isExit hexit
      exact ⟨i, ah, hback hi (by simp [hm]), hah, hexit⟩

/-! ### Whole walks -/

/-- A dispatch that is refused is recorded as what it is, a jump without a target. -/
theorem Tables.refuse {linear : Nat} {dispatches : List Nat} {jump : Instruction} (h : Tables r w)
    (hs : Sound r w) (he : Exact w) (hds : w.dispatches = linear :: dispatches)
    (hj : w.decoded[linear]? = some jump) : Tables r { w with
      dispatches, unresolved := ⟨jump.address, .unrecognizedDispatch⟩ :: w.unresolved } := by
  refine ⟨h.callees, h.keys, fun u hu => ?_, fun hi ht hrec => ?_, h.exits⟩
  · rcases List.mem_cons.1 hu with rfl | hu
    · -- What waits is a jump without a target, and so asks for this very record.
      obtain ⟨-, j, hj', hm, hnone⟩ := he.awaited (k := linear) (.inr (hds ▸ List.mem_cons_self))
      rw [hj] at hj'
      cases hj'
      refine ⟨jump, ?_, ?_⟩
      · rw [Unresolved.linear, show jump.address.linear = linear from hs.linear hj]
        exact hj
      · exact Routine.unfollowed?_of_dispatch ((hs.provided hj).decodeAt_of_isJump hm) hm hnone
    · exact h.recorded u hu
  · obtain ⟨u, hmem, hlinear⟩ := h.left hi ht hrec
    exact ⟨u, List.mem_cons_of_mem _ hmem, hlinear⟩

/-- **Every move keeps the tables.** Instructions are entered when they are decoded, and what
    recovery changes later asks for nothing in them. -/
theorem tables_of_move {n : Nat} (htemplates : r.templates = SwitchTemplate.standard)
    (hn : after r n = some w) (h : Tables r w) (hm : Move r w w') : Tables r w' := by
  have hfold : SwitchTemplate.FoldStraight r.templates :=
    htemplates ▸ SwitchTemplate.foldStraight_standard
  obtain ⟨hs, he⟩ := sound_exact_of_after hfold hn
  have hlasting {k : Nat} {i : Instruction} (hi : w.decoded[k]? = some i)
      (hmnemonic : i.mnemonic ≠ .add ∧ i.mnemonic ≠ .xchg)
      (hdirect : i.mnemonic.isJump = true → i.target? ≠ none) : w'.decoded[k]? = some i :=
    lasting_of_move htemplates hs he hm hi hmnemonic hdirect
  have he' := exact_of_move hfold hs he hm
  cases hm with
  | decode hdec ho => exact h.onward hn hdec ho
  | @recover linear dispatches jump m words hc hds hj hm hcount hwords =>
    obtain ⟨-, -, -, -, hx, hu⟩ := withSwitch_frame { w with dispatches } jump m words
    exact h.rewrite he' (callees_withSwitch { w with dispatches } jump m words) hu hx hlasting
      (decoded_of_withSwitch (w := { w with dispatches }))
  | refuse hc hds hj hm => exact h.refuse hs he hds hj
  | stop hc hwhy => exact h.frame rfl rfl rfl rfl
  | vanish hc hds hj => exact h.frame rfl rfl rfl rfl
  | start hc hds hq => exact h.frame rfl rfl rfl rfl
  | turn hc hds hq => exact h.frame rfl rfl rfl rfl

theorem tables_of_after {n : Nat} (htemplates : r.templates = SwitchTemplate.standard)
    (h : after r n = some w) : Tables r w := by
  refine after_induction (P := Tables r) ⟨?_, ?_, ?_, ?_, ?_⟩ ?_ h
  · simp [atEntry]
  · simp [atEntry]
  · simp [atEntry]
  · simp [atEntry]
  · simp [atEntry]
  · exact fun hn hw hm => tables_of_move htemplates hn hw hm

end Walk

end RealMode
