import RealMode.Disassembly.Finish

namespace RealMode.Walk

/-!
# What one step of a walk can do

* `Decodes` — an instruction is decoded at the cursor;
* `Onward` — how the walk goes on behind a decoded instruction, one constructor for each
  kind of transfer;
* `Move` — everything that a step can do, `move_of_step?` — that it does nothing else;
* `step?_of_decodes` — what a step does where there is an instruction to decode;
* `run_induction` — what every move keeps, a whole run keeps;
* `run_of_step?`, `run_of_done` — a run, step by step.

Invariants of the walk are proved over `Move` and never unfold the steps again.
-/

variable {r : Routine} {w w' : Walk}

/-- An instruction is decoded at the cursor: it is new, there is room for it, and it shares
    no bytes with those decoded before. -/
structure Decodes (r : Routine) (w : Walk) (c : Cursor) (i : Instruction) : Prop where
  cursor : w.cursor = some c
  new : w.decoded.contains c.address.linear = false
  room : w.decoded.size < r.options.maxInstructions
  decodeAt : r.decodeAt c.address = .ok i
  clear : w.overlaps i = false

/-- How a walk goes on behind the instruction `i`, with `ah` known to be what it is. -/
inductive Onward (r : Routine) (w : Walk) (i : Instruction) (ah : Option UInt8) : Walk → Prop
  | dispatch (hj : i.mnemonic.isJump = true) (ht : i.target? = none) :
    Onward r w i ah { w with cursor := none, pending := w.pending.push i.linear }
  | leave {t : Address} (hj : i.mnemonic.isJump = true) (ht : i.target? = some t)
      (hx : r.leavesProgram i t = true) :
    Onward r w i ah
      { w with cursor := none, unresolved := ⟨i.address, .externalTarget⟩ :: w.unresolved }
  | jump {t : Address} (hj : i.mnemonic.isJump = true) (ht : i.target? = some t)
      (hx : r.leavesProgram i t = false) :
    Onward r w i ah ({ w with cursor := none }.follow i.linear t ah)
  | branch {t : Address} (hb : i.mnemonic.isConditionalBranch = true) (ht : i.target? = some t) :
    Onward r w i ah ({ w with cursor := some ⟨i.next, ah⟩ }.follow i.linear t none)
  | blind (hb : i.mnemonic.isConditionalBranch = true) (ht : i.target? = none) :
    Onward r w i ah { w with cursor := some ⟨i.next, ah⟩ }
  | return (hr : i.mnemonic.isReturn = true) : Onward r w i ah { w with cursor := none }
  | exit (hx : r.isExit i ah = true) :
    Onward r w i ah { w with cursor := none, exits := w.exits.insert i.linear }
  | call {t : Address} (hc : i.mnemonic.isCall = true) (ht : i.target? = some t)
      (hx : r.leavesProgram i t = false) :
    Onward r w i ah
      { w with cursor := some ⟨i.next, ah⟩, callees := w.callees.insert t.linear t }
  | plain (hj : i.mnemonic.isJump = false) (hb : i.mnemonic.isConditionalBranch = false)
      (hr : i.mnemonic.isReturn = false) (hx : r.isExit i ah = false)
      (hc : i.mnemonic.isCall = true → ∀ t, i.target? = some t → r.leavesProgram i t = true) :
    Onward r w i ah { w with cursor := some ⟨i.next, ah⟩ }

/-- What the walk does behind an instruction is one of these cases. They follow its tests in
    order. -/
theorem onward_goOn (r : Routine) (w : Walk) (i : Instruction) (ah : Option UInt8) :
    Onward r w i ah (w.goOn r i ah) := by
  unfold goOn
  simp only []
  split
  · rename_i hj
    split
    · rename_i ht
      exact .dispatch hj ht
    · rename_i t ht
      split
      · rename_i hx
        exact .leave hj ht hx
      · rename_i hx
        exact .jump hj ht (Bool.eq_false_iff.2 hx)
  · rename_i hj
    split
    · rename_i hb
      split
      · rename_i ht
        exact .blind hb ht
      · rename_i t ht
        exact .branch hb ht
    · rename_i hb
      split
      · rename_i hr
        exact .return hr
      · rename_i hr
        split
        · rename_i hx
          exact .exit hx
        · rename_i hx
          -- Calls that lead out of the program, or nowhere, are like any other instruction.
          have hplain
              (hc : i.mnemonic.isCall = true → ∀ t, i.target? = some t →
                r.leavesProgram i t = true) :
              Onward r w i ah { w with cursor := some ⟨i.next, ah⟩ } :=
            .plain (Bool.eq_false_iff.2 hj) (Bool.eq_false_iff.2 hb) (Bool.eq_false_iff.2 hr)
              (Bool.eq_false_iff.2 hx) hc
          split
          · rename_i hc
            split
            · rename_i ht
              exact hplain fun _ t ht' => by simp [ht] at ht'
            · rename_i t ht
              split
              · rename_i hl
                refine hplain fun _ t' ht' => ?_
                rw [ht] at ht'
                cases ht'
                exact hl
              · rename_i hl
                exact .call hc ht (Bool.eq_false_iff.2 hl)
          · rename_i hc
            exact hplain fun hcall => absurd hcall hc

/-- The walk that has found a switch at `jump` and follows its cases. -/
def withSwitch (w : Walk) (jump : Instruction) (m : SwitchMatch) (words : List UInt16) : Walk :=
  words.foldl (fun w word => w.follow jump.linear ⟨jump.address.seg, word⟩ none)
    { w with decoded := putSwitch w.decoded jump.linear (switchOf jump m.index words) m.folded }

/-- Everything that a step can do. -/
inductive Move (r : Routine) (w : Walk) : Walk → Prop
  | stop {c : Cursor} (hc : w.cursor = some c)
      (hwhy : w.decoded.contains c.address.linear = true ∨
        ∃ i, r.decodeAt c.address = .ok i ∧ w.overlaps i = true) :
    Move r w { w with cursor := none }
  | decode {c : Cursor} {i : Instruction} (hd : Decodes r w c i) {w' : Walk}
      (ho : Onward r { w with decoded := w.decoded.insert c.address.linear i } i
        (i.ahAfter c.ah) w') : Move r w w'
  | vanish {linear : Nat} {dispatches : List Nat} (hc : w.cursor = none)
      (hds : w.dispatches = linear :: dispatches) (hj : w.decoded[linear]? = none) :
    Move r w { w with dispatches }
  | refuse {linear : Nat} {dispatches : List Nat} {jump : Instruction} (hc : w.cursor = none)
      (hds : w.dispatches = linear :: dispatches) (hj : w.decoded[linear]? = some jump)
      (hm : SwitchTemplate.firstMatch? r.templates (w.window jump) = none) :
    Move r w { w with
      dispatches, unresolved := ⟨jump.address, .unrecognizedDispatch⟩ :: w.unresolved }
  | recover {linear : Nat} {dispatches : List Nat} {jump : Instruction} {m : SwitchMatch}
      {words : List UInt16} (hc : w.cursor = none) (hds : w.dispatches = linear :: dispatches)
      (hj : w.decoded[linear]? = some jump)
      (hm : SwitchTemplate.firstMatch? r.templates (w.window jump) = some m)
      (hcount : m.caseCount ≤ r.options.maxCases.toNat)
      (hwords : tableWords r jump.address.seg m = .ok words) :
    Move r w ({ w with dispatches }.withSwitch jump m words)
  | start {a : Address} {queue : Worklist Address} (hc : w.cursor = none)
      (hds : w.dispatches = []) (hq : w.queue.pop? = some (a, queue)) :
    Move r w { w with queue, cursor := some (w.start a) }
  | turn (hc : w.cursor = none) (hds : w.dispatches = []) (hq : w.queue.pop? = none) :
    Move r w { w with dispatches := w.pending.toList, pending := {} }

/-- Visiting the cursor stops the run there or decodes an instruction. -/
theorem move_of_visit {c : Cursor} (hc : w.cursor = some c) (h : w.visit r c = .ok w') :
    Move r w w' := by
  unfold visit at h
  split at h
  · rename_i hold
    cases h
    exact .stop hc (.inl hold)
  · rename_i hnew
    split at h
    · cases h
    · rename_i hroom
      split at h
      · cases h
      · rename_i i hi
        split at h
        · rename_i hover
          cases h
          exact .stop hc (.inr ⟨i, hi, hover⟩)
        · rename_i hclear
          cases h
          exact .decode ⟨hc, Bool.eq_false_iff.2 hnew, Nat.lt_of_not_le hroom, hi,
            Bool.eq_false_iff.2 hclear⟩ (onward_goOn ..)

/-- Where an instruction is decoded, the walk goes on behind it. -/
theorem step?_of_decodes {c : Cursor} {i : Instruction} (h : Decodes r w c i) :
    w.step? r = some (.ok
      (goOn r { w with decoded := w.decoded.insert c.address.linear i } i (i.ahAfter c.ah))) := by
  have hroom : ¬ r.options.maxInstructions ≤ w.decoded.size := Nat.not_le.2 h.room
  simp [step?, h.cursor, visit, h.new, hroom, h.decodeAt, h.clear]

/-- Recovering the next dispatch lets it vanish, records it, or puts a switch in its place. -/
theorem move_of_recover {linear : Nat} {dispatches : List Nat} (hc : w.cursor = none)
    (hds : w.dispatches = linear :: dispatches)
    (h : { w with dispatches }.recover r linear = .ok w') : Move r w w' := by
  unfold recover at h
  split at h
  · rename_i hj
    cases h
    exact .vanish hc hds hj
  · rename_i jump hj
    split at h
    · rename_i m hm
      unfold apply at h
      split at h
      · cases h
      · rename_i hcount
        split at h
        · cases h
        · rename_i words hwords
          cases h
          exact .recover hc hds hj hm (Nat.le_of_not_lt hcount) hwords
    · rename_i hm
      cases h
      exact .refuse hc hds hj hm

/-- **The moves are all there is.** A step visits the cursor, recovers a dispatch, starts at a
    queued place, or turns to the dispatches that wait. -/
theorem move_of_step? (h : w.step? r = some (.ok w')) : Move r w w' := by
  unfold step? at h
  split at h
  · rename_i c hc
    exact move_of_visit hc (Option.some.inj h)
  · rename_i hc
    split at h
    · rename_i linear dispatches hds
      exact move_of_recover hc hds (Option.some.inj h)
    · rename_i hds
      split at h
      · rename_i a queue hq
        cases h
        exact .start hc hds hq
      · rename_i hq
        split at h
        · cases h
        · cases h
          exact .turn hc hds hq

/-! ### Whole runs -/

/-- What every move keeps holds at the end of a run, where nothing is left to do. Invariants of
    whole walks come from here. -/
theorem run_induction {P : Walk → Prop} (hmove : ∀ {w w'}, P w → Move r w w' → P w')
    (hw : P w) (h : run r w = .ok w') : P w' ∧ w'.step? r = none := by
  fun_induction run r w with
  | case1 w hnone =>
    cases h
    exact ⟨hw, hnone⟩
  | case2 w e herr => cases h
  | case3 w w₁ hok ih => exact ih (hmove hw (move_of_step? hok)) h

/-- A run goes on where a step leads. -/
theorem run_of_step? (h : w.step? r = some (.ok w')) : run r w = run r w' := by
  rw [run]
  split
  · rename_i hnone
    rw [hnone] at h
    cases h
  · rename_i e herr
    rw [herr] at h
    cases h
  · rename_i w₁ hok
    rw [hok] at h
    cases h
    rfl

/-- A run is over where no step is left. -/
theorem run_of_done (h : w.step? r = none) : run r w = .ok w := by
  rw [run]
  split
  · rfl
  · rename_i e herr
    rw [herr] at h
    cases h
  · rename_i w₁ hok
    rw [hok] at h
    cases h

end RealMode.Walk
