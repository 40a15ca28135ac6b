import RealMode.Proofs.Walk.History

namespace RealMode

/-!
# What is known of `ah` where control is transferred to

A system call ends the process if the function in `ah` says so. Where control comes to the
call only by transfers, `ah` is what they carry, if they agree. They are asked when the call
is decoded; a transfer that is followed later has no say.

* `Walk.JumpsWith` — a jump was decoded with a value of `ah` that is known;
* `Walk.Agreed` — a value that is known at a place is carried there by jumps, and by every
  transfer that is followed;
* `Walk.Carried` — with that, what decides whether a system call ends the process;
* `Walk.carried_of_move` — every move keeps that, `Walk.carried_of_after` — so it holds after
  any number of steps.
-/

/-- The functions of the system that end the process. -/
def exitFunctions : List UInt8 := [0x00, 0x31, 0x4C]

/-- An interrupt leaves `ah` as it was, or unknown. So what is known behind it was known before. -/
theorem Instruction.ah_of_ahAfter {i : Instruction} (hm : i.mnemonic = .int) {ah : Option UInt8}
    {v : UInt8} (h : i.ahAfter ah = some v) : ah = some v := by
  have hload : i.loadsAh? = none := by
    simp [loadsAh?, hm]
  simp only [ahAfter, hload] at h
  split at h
  · split at h
    · cases h
    · exact h
  · cases h

/-- A system call that ends the process with more code behind it names its function. -/
theorem Routine.exitFunction_of_isExit {r : Routine} {i : Instruction} {ah : Option UInt8}
    (h : r.isExit i ah = true) (hv : i.vector? = some 0x21)
    (hnext : (r.decodeAt i.next).isOk = true) : ∃ v ∈ exitFunctions, ah = some v := by
  rw [isExit, hv] at h
  simp only [hnext, Bool.not_true, Bool.and_false, Bool.or_false, endsProcess] at h
  split at h
  · exact ⟨0x00, by decide, rfl⟩
  · exact ⟨0x31, by decide, rfl⟩
  · exact ⟨0x4C, by decide, rfl⟩
  · cases h

theorem Instruction.int_of_vector? {i : Instruction} {v : UInt8} (h : i.vector? = some v) :
    i.mnemonic = .int := by
  unfold vector? at h
  split at h
  · assumption
  · cases h

namespace Walk

variable {r : Routine} {w w' : Walk}

/-- A jump that names its target was decoded at the place, with `ah` known to be `v`. -/
def JumpsWith (r : Routine) (source : Nat) (v : UInt8) : Prop :=
  ∃ n w c i, after r n = some w ∧ Decodes r w c i ∧ i.linear = source ∧
    i.mnemonic.isJump = true ∧ (∃ t, i.target? = some t) ∧ i.ahAfter c.ah = some v

/-- The target was decoded before the transfer to it was followed. -/
def FollowedLate (r : Routine) (source target : Nat) : Prop :=
  ∃ n w c i, after r n = some w ∧ Decodes r w c i ∧ i.linear = target ∧
    (source, target) ∉ w.branches

/-- A transfer that was followed when its target was decoded is not late. -/
theorem not_followedLate {n : Nat} {c : Cursor} {i : Instruction} {source : Nat}
    (hn : after r n = some w) (hdec : Decodes r w c i) (hmem : (source, i.linear) ∈ w.branches) :
    ¬ FollowedLate r source i.linear := by
  rintro ⟨m, w', c', i', hm, hdec', hlinear, hlate⟩
  obtain ⟨rfl, -, -⟩ := decodes_unique hm hn hdec' hdec hlinear
  exact hlate hmem

/-- When the instruction at the place was decoded, all transfers to it so far carried `v`. -/
def DecidedBy (r : Routine) (linear : Nat) (v : UInt8) : Prop :=
  ∃ n w c i, after r n = some w ∧ Decodes r w c i ∧ i.linear = linear ∧
    w.targets[linear]? = some (some v)

/-! ### Transfers that agree -/

/-- A value that is known at a place is carried there by jumps, and by every transfer that is
    followed. -/
structure Agreed (r : Routine) (w : Walk) : Prop where
  targets : ∀ t : Nat, w.targets.contains t = true ↔ w.Follows t
  sources : ∀ {s t : Nat} {v : UInt8}, w.targets[t]? = some (some v) → (s, t) ∈ w.branches →
    JumpsWith r s v

theorem Agreed.frame (h : Agreed r w) (ht : w'.targets = w.targets)
    (hb : w'.branches = w.branches) : Agreed r w' := by
  refine ⟨fun t => ?_, fun hv hs => h.sources (ht ▸ hv) (hb ▸ hs)⟩
  rw [ht, Follows, hb]
  exact h.targets t

/-- A value is known after another transfer only if that one carries it, and so did all
    before. -/
theorem agree_eq_some {known : Option (Option UInt8)} {ah : Option UInt8} {v : UInt8}
    (h : agree known ah = some v) : ah = some v ∧ (known = none ∨ known = some (some v)) := by
  unfold agree at h
  split at h
  · exact ⟨h, .inl rfl⟩
  · rename_i u
    split at h
    · rename_i hsame
      subst hsame
      exact ⟨h, .inr (by rw [h])⟩
    · cases h

/-- Following a transfer keeps values agreed on, if it carries a value only when it is a jump. -/
theorem Agreed.follow (h : Agreed r w) (source : Nat) (target : Address) {ah : Option UInt8}
    (hah : ∀ v, ah = some v → JumpsWith r source v) : Agreed r (w.follow source target ah) := by
  refine ⟨fun t => ?_, fun {s t v} hv hmem => ?_⟩
  · rw [contains_targets_follow, h.targets, Follows, Follows]
    simp only [mem_branches_follow, exists_or, exists_eq_left]
  · rw [mem_branches_follow] at hmem
    have hlookup : (w.follow source target ah).targets[t]? =
        if target.linear = t then some (agree w.targets[target.linear]? ah)
        else w.targets[t]? := AddressMap.getElem?_insert ..
    rw [hlookup] at hv
    split at hv
    · rename_i htarget
      subst htarget
      -- The value is still known, so it is what was known before, if anything was.
      obtain ⟨hnew, hold⟩ := agree_eq_some (Option.some.inj hv)
      rcases hmem with hmem | ⟨rfl, -⟩
      · rcases hold with hnone | hsome
        · -- Nothing is known of the place only if no transfer to it is followed.
          have hthere := (h.targets target.linear).2 ⟨s, hmem⟩
          rw [AddressMap.contains_iff_exists, hnone] at hthere
          obtain ⟨a, ha⟩ := hthere
          cases ha
        · exact h.sources hsome hmem
      · exact hah v hnew
    · rename_i hne
      exact h.sources hv (hmem.resolve_right fun hsame => hne hsame.2.symm)

/-- The cases of a switch carry nothing, so at their places no value is known any more. -/
theorem Agreed.withSwitch (h : Agreed r w) (jump : Instruction) (m : SwitchMatch)
    (words : List UInt16) : Agreed r (w.withSwitch jump m words) := by
  have hfold (ws : List UInt16) (w : Walk) (hw : Agreed r w) :
      Agreed r (ws.foldl (fun w word => w.follow jump.linear ⟨jump.address.seg, word⟩ none) w) := by
    induction ws generalizing w with
    | nil => exact hw
    | cons word ws ih => exact ih _ (hw.follow _ _ fun v hv => (by cases hv))
  exact hfold words _ (h.frame rfl rfl)

/-- Only a jump carries on what is known of `ah`; a branch is followed without it, and the other
    instructions are not followed at all. -/
theorem Agreed.onward {n : Nat} {c : Cursor} {i : Instruction} (h : Agreed r w)
    (hn : after r n = some w) (hdec : Decodes r w c i)
    (ho : Onward r { w with decoded := w.decoded.insert c.address.linear i } i
      (i.ahAfter c.ah) w') : Agreed r w' := by
  cases ho with
  | @jump t hj ht hx =>
    refine Agreed.follow ?_ _ _ fun v hv => ?_
    · exact h.frame rfl rfl
    · exact ⟨n, w, c, i, hn, hdec, rfl, hj, ⟨t, ht⟩, hv⟩
  | branch hb ht =>
    refine Agreed.follow ?_ _ _ fun v hv => (by cases hv)
    exact h.frame rfl rfl
  | dispatch hj ht => exact h.frame rfl rfl
  | leave hj ht hx => exact h.frame rfl rfl
  | blind hb ht => exact h.frame rfl rfl
  | «return» hr => exact h.frame rfl rfl
  | exit hx => exact h.frame rfl rfl
  | call hc ht hx => exact h.frame rfl rfl
  | plain hj hb hr hx => exact h.frame rfl rfl

/-! ### What decides over a system call -/

/-- What is known of `ah` at the cursor is carried by transfers, or control falls through to
    it; and so it was where a system call was found to end the process. -/
structure Carried (r : Routine) (w : Walk) : Prop where
  agreed : Agreed r w
  cursor : ∀ {c : Cursor}, w.cursor = some c →
    c.ah = w.targets[c.address.linear]?.join ∨ ∃ s, w.Falls s c.address.linear
  exits : ∀ {x : Nat} {i : Instruction}, w.exits.contains x = true → w.decoded[x]? = some i →
    i.vector? = some 0x21 → (r.decodeAt i.next).isOk = true →
      (∃ s, w.Falls s x) ∨ ∃ v ∈ exitFunctions, DecidedBy r x v

/-- A new exit is one that the instruction makes. -/
theorem isExit_of_onward {i : Instruction} {ah : Option UInt8} (ho : Onward r w i ah w')
    (hx : w'.exits.contains i.linear = true) (hnew : w.exits.contains i.linear = false) :
    r.isExit i ah = true := by
  cases ho with
  | exit hx' => exact hx'
  | jump => exact absurd hx (by rw [follow, hnew]; simp)
  | branch => exact absurd hx (by rw [follow, hnew]; simp)
  | dispatch => exact absurd hx (by simp [hnew])
  | leave => exact absurd hx (by simp [hnew])
  | blind => exact absurd hx (by simp [hnew])
  | «return» => exact absurd hx (by simp [hnew])
  | call => exact absurd hx (by simp [hnew])
  | plain => exact absurd hx (by simp [hnew])

/-- A system call that is decoded as an exit is fallen through to, or decided by transfers: the
    value at the cursor has come in one of these ways. -/
theorem Carried.decide {n : Nat} {c : Cursor} {i : Instruction} (h : Carried r w)
    (hn : after r n = some w) (hdec : Decodes r w c i)
    (hexit : r.isExit i (i.ahAfter c.ah) = true) (hv : i.vector? = some 0x21)
    (hnext : (r.decodeAt i.next).isOk = true) :
    (∃ s, w.Falls s i.linear) ∨ ∃ v ∈ exitFunctions, DecidedBy r i.linear v := by
  obtain ⟨v, hmem, hah⟩ := Routine.exitFunction_of_isExit hexit hv hnext
  have hc := Instruction.ah_of_ahAfter (Instruction.int_of_vector? hv) hah
  rcases h.cursor hdec.cursor with hjoin | hfalls
  · right
    rw [← hdec.linear, hc] at hjoin
    exact ⟨v, hmem, n, w, c, i, hn, hdec, rfl, Option.join_eq_some_iff.1 hjoin.symm⟩
  · left
    rw [hdec.linear]
    exact hfalls

/-- **Every move keeps what decides over system calls.** An exit is decided when it is decoded and
    not asked again, so for those that were there only the state in `DecidedBy` counts. -/
theorem carried_of_move {n : Nat} (hfold : SwitchTemplate.FoldStraight r.templates)
    (hn : after r n = some w) (h : Carried r w) (hm : Move r w w') : Carried r w' := by
  obtain ⟨hs, he⟩ := sound_exact_of_after hfold hn
  have hfalls {x : Nat} (hx : ∃ s, w.Falls s x) : ∃ s, w'.Falls s x :=
    hx.imp fun _ => falls_of_move hfold hs he hm
  cases hm with
  | @decode c i hdec w' ho =>
    have hnoexit : w.exits.contains i.linear = false := by
      rw [Bool.eq_false_iff]
      intro hexit
      obtain ⟨j, hj, -⟩ := hs.exits hexit
      exact hdec.linear_ne hj rfl
    refine ⟨h.agreed.onward hn hdec ho, fun hc => .inr ⟨_, (goes_onward hs hdec ho).1 hc⟩, ?_⟩
    intro x j hx hj hv hnext
    rw [decoded_of_onward ho, hdec.getElem?_insert] at hj
    split at hj
    · -- The new instruction is the exit.
      rename_i hhere
      subst hhere
      cases hj
      exact (h.decide hn hdec (isExit_of_onward ho hx hnoexit) hv hnext).imp_left hfalls
    · rename_i hne
      rw [(grows_of_onward ho).2 x (Ne.symm hne)] at hx
      exact (h.exits hx hj hv hnext).imp_left hfalls
  | @recover linear dispatches jump m words hc hds hj hm hcount hwords =>
    obtain ⟨hd, hcur, -, -, hx, -⟩ := withSwitch_frame { w with dispatches } jump m words
    have hagreed : Agreed r { w with dispatches } := h.agreed.frame rfl rfl
    refine ⟨hagreed.withSwitch jump m words, ?_, ?_⟩
    · intro c hc'
      rw [hcur] at hc'
      exact absurd hc' (by simp [hc])
    · intro x i hexit hi hv hnext
      rw [hx] at hexit
      rw [hd] at hi
      -- Neither a switch nor what is folded is an interrupt.
      have hint := Instruction.int_of_vector? hv
      rcases cases_of_putSwitch hi with ⟨-, -, -, rfl⟩ | ⟨j, -, rfl⟩ | ⟨-, hi⟩
      · cases hint
      · cases hint
      · exact (h.exits hexit hi hv hnext).imp_left hfalls
  | @start a queue hc hds hq =>
    refine ⟨h.agreed.frame rfl rfl, fun hc' => ?_, h.exits⟩
    cases hc'
    exact .inl rfl
  | stop hc hwhy => exact ⟨h.agreed.frame rfl rfl, fun hc' => (by cases hc'), h.exits⟩
  | vanish hc hds hj => exact ⟨h.agreed.frame rfl rfl, h.cursor, h.exits⟩
  | refuse hc hds hj hm => exact ⟨h.agreed.frame rfl rfl, h.cursor, h.exits⟩
  | turn hc hds hq => exact ⟨h.agreed.frame rfl rfl, h.cursor, h.exits⟩

/-- So it is after any number of steps of a walk from its entry, where nothing is known. -/
theorem carried_of_after {n : Nat} (hfold : SwitchTemplate.FoldStraight r.templates)
    (h : after r n = some w) : Carried r w := by
  refine after_induction (P := Carried r) ⟨⟨(exact_start r).targets, ?_⟩, ?_, ?_⟩ ?_ h
  · intro s t v _ hmem
    exact absurd hmem List.not_mem_nil
  · intro c hc
    cases hc
  · intro x i hx
    exact absurd hx (by simp [atEntry])
  · exact fun hn hw hm => carried_of_move hfold hn hw hm

end Walk

end RealMode
