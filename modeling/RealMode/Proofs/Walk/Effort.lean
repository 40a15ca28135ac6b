import RealMode.Proofs.Disassembly.Pairs
import RealMode.Proofs.Walk.History

namespace RealMode

/-!
# How much a walk can do

A walk feeds itself: what it decodes gives it places to start at and dispatches to recover,
and what it recovers gives it more places. Both are paid for by the instructions that it may
still decode, so they run out.

* `Walk.Ends` — a walk takes no more steps, and what has come of it;
* `Walk.exists_end` — every walk ends, after no more steps than its potential allows;
* `Walk.runsStarted` — the number of places that a walk has started decoding at;
* `Walk.allowance` — how many more it can start at, `Walk.allowance_of_move` — no move adds to
  that, and every start takes one away;
* `disassemble_terminates` — the limits of a disassembly, whatever its templates do.
-/

namespace Walk

variable {r : Routine} {w w' : Walk}

/-! ### Walks end -/

/-- The walk takes no more steps: nothing is left to do, or a fault stops it. -/
inductive Ends (r : Routine) (w : Walk) : Except Fault Walk → Prop
  | done (h : w.step? r = none) : Ends r w (.ok w)
  | fault {e : Fault} (h : w.step? r = some (.error e)) : Ends r w (.error e)

/-- A run that ends gives what it ends in. -/
theorem Ends.run_eq {res : Except Fault Walk} (h : w.Ends r res) : run r w = res := by
  cases h with
  | done h => exact run_of_done h
  | fault h =>
    rw [run]
    split <;> simp_all

/-- Every step uses up potential, so no more steps are taken than there was of it at the entry. -/
theorem potential_of_after {n : Nat} (h : after r n = some w) :
    n + w.potential r ≤ (atEntry r).potential r := by
  induction n generalizing w with
  | zero =>
    cases h
    omega
  | succ n ih =>
    obtain ⟨w₀, hw₀, hstep⟩ := after_succ_iff.1 h
    have hless := potential_lt_of_step? hstep
    have hsofar := ih hw₀
    omega

/-- What a walk can do at most: so many steps. -/
def stepLimit (options : Options) : Nat :=
  2 + (2 * options.maxCases.toNat + 3) * options.maxInstructions

/-- The potential of a walk that begins is the number of steps it may take. -/
theorem potential_atEntry (r : Routine) : (atEntry r).potential r = stepLimit r.options := by
  have hqueue : (Worklist.push {} r.entry).size = 1 := rfl
  have hpending : (Worklist.size ({} : Worklist Nat)) = 0 := rfl
  simp only [potential, atEntry, stepLimit, hqueue, hpending, Std.ExtTreeMap.size_empty,
    Option.toList_none, List.length_nil, Nat.sub_zero]
  omega

/-- **Every walk ends**, after no more steps than its potential allows. The potential is lowered by
    each step, so the steps are counted off against it. -/
theorem exists_end (r : Routine) :
    ∃ n ≤ stepLimit r.options, ∃ w res, after r n = some w ∧ w.Ends r res := by
  -- The longest history that there is cannot go on.
  have hsome : ∃ n, after r n ≠ none ∧ after r (n + 1) = none := by
    by_contra hnever
    have hall (n : Nat) : after r n ≠ none := by
      induction n with
      | zero => exact Option.some_ne_none _
      | succ n ih => exact fun hnone => hnever ⟨n, ih, hnone⟩
    obtain ⟨w, hw⟩ := Option.ne_none_iff_exists'.1 (hall (stepLimit r.options + 1))
    have hle := potential_of_after hw
    rw [potential_atEntry] at hle
    omega
  obtain ⟨n, hn, hstop⟩ := hsome
  obtain ⟨w, hw⟩ := Option.ne_none_iff_exists'.1 hn
  have hle := potential_of_after hw
  rw [potential_atEntry] at hle
  refine ⟨n, by omega, w, ?_⟩
  cases hstep : w.step? r with
  | none => exact ⟨_, hw, .done hstep⟩
  | some res =>
    cases res with
    | error e => exact ⟨_, hw, .fault hstep⟩
    | ok w' =>
      rw [after_succ hw hstep] at hstop
      cases hstop

/-! ### Places to start at -/

/-- Whether the next step starts decoding at a queued place. -/
def startsRun (w : Walk) : Bool :=
  w.cursor.isNone && w.dispatches.isEmpty && w.queue.pop?.isSome

/-- The number of places that a walk starts decoding at in its first steps. -/
def runsStarted (r : Routine) : Nat → Nat
  | 0 => 0
  | n + 1 => runsStarted r n + ((after r n).any startsRun).toNat

/-- How many places one instruction can lead to. -/
def fanOut (options : Options) : Nat := max 1 options.maxCases.toNat

/-- How many more places the walk can start at: those that wait, and those that waiting
    dispatches and instructions yet to be decoded can lead to. -/
def allowance (r : Routine) (w : Walk) : Nat :=
  w.queue.size + fanOut r.options *
    (w.dispatches.length + w.pending.size + (r.options.maxInstructions - w.decoded.size))

/-- An instruction may lead to one place at least, whatever the limit on cases is. -/
theorem one_le_fanOut (options : Options) : 1 ≤ fanOut options := Nat.le_max_left ..

/-- Decoding takes an instruction from those that are left, and adds one place or dispatch. -/
theorem allowance_of_onward {c : Cursor} {i : Instruction} {ah : Option UInt8}
    (hdec : Decodes r w c i)
    (ho : Onward r { w with decoded := w.decoded.insert c.address.linear i } i ah w') :
    w'.allowance r ≤ w.allowance r := by
  have hone := one_le_fanOut r.options
  have hroom := hdec.room
  have hsize : (w.decoded.insert c.address.linear i).size = w.decoded.size + 1 := by
    rw [Std.ExtTreeMap.size_insert, if_neg (by simp [hdec.new])]
  -- With room for one more, the truncated difference goes down by exactly one.
  have hleft : r.options.maxInstructions - w.decoded.size
      = (r.options.maxInstructions - (w.decoded.size + 1)) + 1 := by omega
  cases ho with
  | dispatch hj ht =>
    simp only [allowance, hsize, hleft, Worklist.size_push, Nat.mul_add]
    omega
  | jump hj ht hx =>
    simp only [allowance, follow, hsize, hleft, Worklist.size_push, Nat.mul_add]
    omega
  | branch hb ht =>
    simp only [allowance, follow, hsize, hleft, Worklist.size_push, Nat.mul_add]
    omega
  | leave | blind | «return» | exit | call | plain =>
    simp only [allowance, hsize, hleft, Nat.mul_add]
    omega

/-- A recovered switch takes a dispatch from those that wait, and adds a place for each case. -/
theorem allowance_withSwitch {linear : Nat} {dispatches : List Nat}
    (hds : w.dispatches = linear :: dispatches) (jump : Instruction) (m : SwitchMatch)
    {words : List UInt16} (hwords : words.length ≤ r.options.maxCases.toNat) :
    ({ w with dispatches }.withSwitch jump m words).allowance r ≤ w.allowance r := by
  obtain ⟨hd, -, hdisp, hpend, -, -⟩ := withSwitch_frame { w with dispatches } jump m words
  obtain ⟨-, -, hq⟩ := withSwitch_adds { w with dispatches } jump m words
  have hqueue : ({ w with dispatches }.withSwitch jump m words).queue.size =
      w.queue.size + words.length := by
    rw [Worklist.size_eq, hq, List.length_append, List.length_map, Worklist.size_eq]
  have hfan : words.length ≤ fanOut r.options := hwords.trans (Nat.le_max_right ..)
  simp only [allowance, hqueue, hdisp, hpend, hd, size_putSwitch, hds, List.length_cons,
    Nat.mul_add]
  omega

/-- **No move adds to the allowance**, and every start takes one away. -/
theorem allowance_of_move (hm : Move r w w') :
    w'.allowance r + w.startsRun.toNat ≤ w.allowance r := by
  cases hm with
  | stop hc hwhy =>
    simp [startsRun, hc, allowance]
  | decode hdec ho =>
    have hle := allowance_of_onward hdec ho
    simpa [startsRun, hdec.cursor] using hle
  | vanish hc hds hj =>
    simp [startsRun, hds, allowance, Nat.mul_add]
  | refuse hc hds hj hm =>
    simp [startsRun, hds, allowance, Nat.mul_add]
  | @recover linear dispatches jump m words hc hds hj hm hcount hwords =>
    have hlen := (length_tableWords hwords).trans_le hcount
    have hle := allowance_withSwitch (r := r) hds jump m hlen
    simpa [startsRun, hds] using hle
  | start hc hds hq =>
    have hstarts : w.startsRun = true := by simp [startsRun, hc, hds, hq]
    have hsize := Worklist.size_of_pop? hq
    simp only [hstarts, allowance, hsize, Bool.toNat_true]
    omega
  | turn hc hds hq =>
    -- What was pending becomes the list of dispatches; it counts as much there.
    have hsize := w.pending.size_eq
    have hnone : (Worklist.size ({} : Worklist Nat)) = 0 := rfl
    simp [startsRun, hc, hds, hq, allowance, hsize, hnone]

/-- The places that a walk has started at, and those that it still can, are no more than those
    it could start at in the beginning. -/
theorem runsStarted_of_after {n : Nat} (h : after r n = some w) :
    runsStarted r n + w.allowance r ≤ (atEntry r).allowance r := by
  induction n generalizing w with
  | zero =>
    cases h
    exact Nat.le_of_eq (Nat.zero_add _)
  | succ n ih =>
    obtain ⟨w₀, hw₀, hstep⟩ := after_succ_iff.1 h
    have hmove := allowance_of_move (move_of_step? hstep)
    have hsofar := ih hw₀
    rw [runsStarted, hw₀, Option.any_some]
    omega

/-- A walk that is about to start has something queued, and that is part of its allowance. -/
theorem startsRun_le_allowance (r : Routine) (w : Walk) : w.startsRun.toNat ≤ w.allowance r := by
  cases hstarts : w.startsRun with
  | false => exact Nat.zero_le _
  | true =>
    simp only [startsRun, Bool.and_eq_true] at hstarts
    obtain ⟨⟨a, queue⟩, hq⟩ := Option.isSome_iff_exists.1 hstarts.2
    have hsize := Worklist.size_of_pop? hq
    simp only [allowance, Bool.toNat_true, hsize]
    omega

/-- So the number of places started at is bounded by the limits of the options alone. -/
theorem runsStarted_le (r : Routine) (n : Nat) :
    runsStarted r n ≤ 1 + r.options.maxInstructions * fanOut r.options := by
  have hstart : (atEntry r).allowance r = 1 + r.options.maxInstructions * fanOut r.options := by
    have hqueue : (Worklist.push {} r.entry).size = 1 := rfl
    have hpending : (Worklist.size ({} : Worklist Nat)) = 0 := rfl
    simp only [allowance, atEntry, hqueue, hpending, Std.ExtTreeMap.size_empty, List.length_nil,
      Nat.zero_add, Nat.sub_zero, Nat.mul_comm]
  rw [← hstart]
  induction n with
  | zero => exact Nat.zero_le _
  | succ n ih =>
    cases hw : after r n with
    | none => simpa [runsStarted, hw] using ih
    | some w =>
      have hsofar := runsStarted_of_after hw
      have hnext := startsRun_le_allowance r w
      rw [runsStarted, hw, Option.any_some]
      omega

/-! ### Instructions -/

/-- No move decodes more instructions than there may be, as decoding asks for room first. -/
theorem size_of_move (h : w.decoded.size ≤ r.options.maxInstructions) (hm : Move r w w') :
    w'.decoded.size ≤ r.options.maxInstructions := by
  cases hm with
  | @decode c i hdec w' ho =>
    have hroom := hdec.room
    rw [decoded_of_onward ho, Std.ExtTreeMap.size_insert]
    split <;> omega
  | @recover linear dispatches jump m words hc hds hj hm hcount hwords =>
    rw [(withSwitch_frame { w with dispatches } jump m words).1, size_putSwitch]
    exact h
  | stop hc hwhy => exact h
  | vanish hc hds hj => exact h
  | refuse hc hds hj hm => exact h
  | start hc hds hq => exact h
  | turn hc hds hq => exact h

/-- A finished walk has decoded no more instructions than there may be. -/
theorem size_of_walk (h : r.walk = .ok w) : w.decoded.size ≤ r.options.maxInstructions :=
  (run_induction size_of_move (Nat.zero_le _) (run_of_walk h).2).1

/-- A disassembly has as many instructions as its walk has decoded. -/
theorem size_of_finish {d : Disassembly} (hs : Sound r w) (h : w.finish r = .ok d) :
    d.size = w.decoded.size := by
  obtain ⟨-, -, hinstructions, hindex, -⟩ := finish_cases h
  have hshows := shows_of_listing hs hinstructions hindex
  have hsame (k : Nat) : d.index.contains k = true ↔ w.decoded.contains k = true := by
    rw [contains_index_iff hs h, AddressMap.contains_iff_exists]
    constructor
    · rintro ⟨i, hi⟩
      obtain ⟨j, hj, -⟩ := hshows.found hi
      exact ⟨j, hj⟩
    · rintro ⟨j, hj⟩
      obtain ⟨i, hi, -⟩ := hshows.shown hj
      exact ⟨i, hi⟩
  exact Nat.le_antisymm (AddressMap.size_le_of_contains fun k => (hsame k).1)
    (AddressMap.size_le_of_contains fun k => (hsame k).2)

end Walk

/-- **Disassembly terminates**, whatever the image, the entry and the templates are. Its walk ends
    after a bounded number of steps, and the disassembly is what the walk ends in; it starts
    decoding at no more places than its limits allow, and has no more instructions. -/
theorem disassemble_terminates (r : Routine) :
    (∃ n ≤ Walk.stepLimit r.options, ∃ w res, Walk.after r n = some w ∧ w.Ends r res ∧
      r.walk = if r.image.contains r.entry.linear then res
        else .error (.outOfBounds r.entry.linear)) ∧
    (∀ n, Walk.runsStarted r n ≤
      1 + r.options.maxInstructions * max 1 r.options.maxCases.toNat) ∧
    ∀ d, r.disassemble = .ok d → d.size ≤ r.options.maxInstructions := by
  refine ⟨?_, Walk.runsStarted_le r, fun d hd => ?_⟩
  · obtain ⟨n, hn, w, res, hw, hends⟩ := Walk.exists_end r
    refine ⟨n, hn, w, res, hw, hends, ?_⟩
    rw [← hends.run_eq, ← Walk.run_of_after hw]
    rfl
  · obtain ⟨w, hwalk, hfinish⟩ := Routine.disassemble_cases hd
    rw [Walk.size_of_finish (Walk.sound_of_walk hwalk).1 hfinish]
    exact Walk.size_of_walk hwalk

/-- A switch on `ax` with two cases: back to the comparison in front of it, and the `ret` behind
    its table, where the default goes too. -/
def chooser : Routine where
  image := .ofBytes
    [0x3D, 0x01, 0x00, 0x76, 0x02, 0xEB, 0x0C, 0x01, 0xC0, 0x93, 0x2E, 0xFF, 0xA7, 0x0F, 0x01,
      0x00, 0x01, 0x13, 0x01, 0xC3]
    ⟨0, 0x100⟩ ⟨0, 0x100⟩
  entry := ⟨0, 0x100⟩

/-- The switch of the chooser leads back in front of itself, and still there are five starts
    only. -/
theorem disassemble_terminates_chooser :
    Walk.runsStarted chooser 16 = 5 ∧ Walk.runsStarted chooser 16 ≤ 1 + 0x10000 * 256 ∧
      ∃ d, chooser.disassemble = .ok d ∧ d.switches.length = 1 ∧ d.size ≤ 0x10000 := by
  obtain ⟨d, hd, hswitch⟩ := Routine.exists_disassembly (r := chooser)
    (P := fun d => d.switches.length = 1) (by decide +kernel)
  have hlimits := disassemble_terminates chooser
  exact ⟨by decide +kernel, hlimits.2.1 16, d, hd, hswitch, hlimits.2.2 d hd⟩

end RealMode
