import RealMode.Proofs.Walk.Arrival

namespace RealMode.Walk

/-!
# The history of a walk

A walk takes one step after another, so what it knew when it decoded an instruction can be
told by counting steps.

* `after` — the walk after a number of steps, `exists_after_of_walk` — a finished walk is one
  of them;
* `after_induction`, `walk_induction` — what every step keeps is true after any number of steps,
  and at the end;
* `decodes_unique` — an instruction is decoded once, so there is one state to ask;
* `TracksAh` — what the walk knew of `ah` behind an instruction;
* `kept_of_move` — what is neither folded nor a dispatch stays what it is;
* `jump_of_walk` — a jump with a target is in a finished walk as it was decoded.
-/

variable {r : Routine} {w w' : Walk}

/-- A walk that has everything to do yet. -/
def atEntry (r : Routine) : Walk := { queue := Worklist.push {} r.entry }

/-- The walk after a number of steps, unless it has come to its end before. -/
def after (r : Routine) : Nat → Option Walk
  | 0 => some (atEntry r)
  | n + 1 => (after r n).bind fun w =>
    match w.step? r with
    | some (.ok w') => some w'
    | _ => none

/-! ### Steps in a row -/

theorem after_succ_iff {n : Nat} :
    after r (n + 1) = some w' ↔ ∃ w, after r n = some w ∧ w.step? r = some (.ok w') := by
  rw [after, Option.bind_eq_some_iff]
  refine exists_congr fun w => and_congr_right fun _ => ?_
  split
  · rename_i w₁ hstep
    rw [hstep]
    simp
  · rename_i hstep
    exact ⟨fun h => (by cases h), fun h => absurd h (hstep w')⟩

theorem after_succ {n : Nat} (hw : after r n = some w) (h : w.step? r = some (.ok w')) :
    after r (n + 1) = some w' :=
  after_succ_iff.2 ⟨w, hw, h⟩

/-- What every step keeps, all later steps keep. The induction is on the steps between the two. -/
theorem after_le_induction {P : Walk → Prop} {m n : Nat} (hle : m ≤ n)
    (hm : after r m = some w) (hP : P w)
    (hmove : ∀ {n w w'}, after r n = some w → P w → Move r w w' → P w')
    (hn : after r n = some w') : P w' := by
  induction hle generalizing w' with
  | refl =>
    rw [hm] at hn
    cases hn
    exact hP
  | step _ ih =>
    obtain ⟨w₀, hw₀, hstep⟩ := after_succ_iff.1 hn
    exact hmove hw₀ (ih hw₀) (move_of_step? hstep)

/-- What is true at the entry and kept by every step is true after any number of steps. -/
theorem after_induction {P : Walk → Prop} (hstart : P (atEntry r))
    (hmove : ∀ {n w w'}, after r n = some w → P w → Move r w w' → P w') {n : Nat}
    (h : after r n = some w) : P w :=
  after_le_induction (Nat.zero_le n) rfl hstart hmove h

/-- Wherever a run has come to, it is the same run: what it ends in is what it would have ended in
    from the start. -/
theorem run_of_after {n : Nat} (h : after r n = some w) : run r (atEntry r) = run r w := by
  induction n generalizing w with
  | zero =>
    cases h
    rfl
  | succ n ih =>
    obtain ⟨w₀, hw₀, hstep⟩ := after_succ_iff.1 h
    rw [ih hw₀, run_of_step? hstep]

/-- A walk is finished where no step is left. -/
theorem walk_of_after {n : Nat} (hin : r.image.contains r.entry.linear = true)
    (hn : after r n = some w) (hdone : w.step? r = none) : r.walk = .ok w := by
  rw [Routine.walk, if_pos hin]
  exact (run_of_after hn).trans (run_of_done hdone)

/-- A run that ends does so after a number of steps, counted on from where it is. -/
theorem exists_after_of_run {n : Nat} (hw : after r n = some w) (h : run r w = .ok w') :
    ∃ m, after r m = some w' := by
  fun_induction run r w generalizing n with
  | case1 w hnone =>
    cases h
    exact ⟨n, hw⟩
  | case2 w e herr => cases h
  | case3 w w₁ hok ih => exact ih (after_succ hw hok) h

/-- A finished walk is what it is after some number of steps. -/
theorem exists_after_of_walk (h : r.walk = .ok w) : ∃ n, after r n = some w :=
  exists_after_of_run (n := 0) rfl (run_of_walk h).2

/-- Nothing is left to do when a walk is finished. -/
theorem done_of_walk (h : r.walk = .ok w) : w.step? r = none :=
  (run_induction (P := fun _ => True) (fun _ _ => trivial) trivial (run_of_walk h).2).2

/-- Whether anything is left to do is told by the walk alone. -/
theorem step?_eq_none_of_step? {r' : Routine} (h : w.step? r = none) : w.step? r' = none := by
  obtain ⟨hc, hds, hq, hp⟩ := done_of_step? h
  simp [step?, hc, hds, hq, hp]

/-- A walk that is finished takes no more steps. -/
theorem le_of_done {m n : Nat} (hm : after r m = some w) (hdone : w.step? r = none)
    (hn : after r n = some w') : n ≤ m := by
  by_contra hlt
  have hnone (k : Nat) : after r (m + 1 + k) = none := by
    induction k with
    | zero => simp [after, hm, hdone]
    | succ k ih => rw [← Nat.add_assoc, after, ih, Option.bind_none]
  have hlate := hnone (n - (m + 1))
  rw [show m + 1 + (n - (m + 1)) = n by omega, hn] at hlate
  cases hlate

/-- What every step keeps is true at the end of a walk if it is true after some of its steps. -/
theorem walk_induction {P : Walk → Prop} {n : Nat} (h : r.walk = .ok w') (hn : after r n = some w)
    (hP : P w) (hmove : ∀ {n w w'}, after r n = some w → P w → Move r w w' → P w') : P w' := by
  obtain ⟨m, hm⟩ := exists_after_of_walk h
  exact after_le_induction (le_of_done hm (done_of_walk h) hn) hn hP hmove hm

/-! ### Every instruction is decoded once -/

theorem contains_of_move {k : Nat} (hm : Move r w w') (h : w.decoded.contains k = true) :
    w'.decoded.contains k = true := by
  cases hm with
  | decode hd ho =>
    rw [decoded_of_onward ho]
    exact (AddressMap.contains_insert ..).2 (.inl h)
  | @recover linear dispatches jump m words hc hds hj hm hcount hwords =>
    obtain ⟨i, hi⟩ := (AddressMap.contains_iff_exists _ _).1 h
    rw [(withSwitch_frame { w with dispatches } jump m words).1]
    exact (AddressMap.contains_iff_exists _ _).2 (exists_of_putSwitch hi ..)
  | stop hc hwhy => exact h
  | vanish hc hds hj => exact h
  | refuse hc hds hj hm => exact h
  | start hc hds hq => exact h
  | turn hc hds hq => exact h

/-- The step that decodes an instruction puts it in its place. -/
theorem Decodes.exists_step {c : Cursor} {i : Instruction} (h : Decodes r w c i) :
    ∃ w', w.step? r = some (.ok w') ∧ w'.decoded[i.linear]? = some i := by
  refine ⟨_, step?_of_decodes h, ?_⟩
  rw [decoded_of_onward (onward_goOn ..), h.getElem?_insert, if_pos rfl]

/-- An instruction is not decoded again later on, because its place is no longer new. -/
theorem decodes_once {m n : Nat} {c c' : Cursor} {i i' : Instruction} (hm : after r m = some w)
    (hn : after r n = some w') (hi : Decodes r w c i) (hi' : Decodes r w' c' i')
    (hsame : i.linear = i'.linear) : n ≤ m := by
  by_contra hlt
  obtain ⟨w₁, hstep, hput⟩ := hi.exists_step
  have hthere : w₁.decoded.contains i.linear = true :=
    (AddressMap.contains_iff_exists _ _).2 ⟨i, hput⟩
  have hlater : w'.decoded.contains i.linear = true :=
    after_le_induction (by omega) (after_succ hm hstep) hthere
      (fun _ h hmove => contains_of_move hmove h) hn
  have hnew := hi'.new
  rw [← hi'.linear, ← hsame, hlater] at hnew
  cases hnew

/-- **An instruction is decoded once**, so there is one state to ask what the walk knew when it
    was. -/
theorem decodes_unique {m n : Nat} {c c' : Cursor} {i i' : Instruction}
    (hm : after r m = some w) (hn : after r n = some w') (hi : Decodes r w c i)
    (hi' : Decodes r w' c' i') (hsame : i.linear = i'.linear) : w = w' ∧ c = c' ∧ i = i' := by
  have hmn : m = n :=
    Nat.le_antisymm (decodes_once hn hm hi' hi hsame.symm) (decodes_once hm hn hi hi' hsame)
  subst hmn
  rw [hm] at hn
  cases hn
  obtain rfl : c = c' := Option.some.inj (hi.cursor.symm.trans hi'.cursor)
  have hdec := hi.decodeAt.symm.trans hi'.decodeAt
  cases hdec
  exact ⟨rfl, rfl, rfl⟩

/-! ### What was known of `ah` -/

/-- When the instruction at `linear` was decoded, `ah` was known to be `ah` behind it, or not
    known at all. -/
def TracksAh (r : Routine) (linear : Nat) (ah : Option UInt8) : Prop :=
  ∃ n w c i, after r n = some w ∧ Decodes r w c i ∧ i.linear = linear ∧ i.ahAfter c.ah = ah

/-- What the walk knew of `ah` behind an instruction is one thing. -/
theorem TracksAh.unique {linear : Nat} {ah ah' : Option UInt8} (h : TracksAh r linear ah)
    (h' : TracksAh r linear ah') : ah = ah' := by
  obtain ⟨m, w, c, i, hm, hi, hlinear, rfl⟩ := h
  obtain ⟨n, w', c', i', hn, hi', hlinear', rfl⟩ := h'
  obtain ⟨-, rfl, rfl⟩ := decodes_unique hm hn hi hi' (hlinear.trans hlinear'.symm)
  rfl

/-! ### Instructions stay what they are -/

/-- What is neither folded nor a jump without a target is not changed: recovery writes to nothing
    else. -/
theorem kept_of_move {k : Nat} {i : Instruction} (hs : Sound r w) (he : Exact w)
    (hm : Move r w w') (hi : w.decoded[k]? = some i)
    (hdirect : i.mnemonic.isJump = true → i.target? ≠ none)
    (hunfolded : ∀ {linear : Nat} {jump m}, w.decoded[linear]? = some jump →
      SwitchTemplate.firstMatch? r.templates (w.window jump) = some m → k ∉ m.folded) :
    w'.decoded[k]? = some i := by
  cases hm with
  | decode hdec ho =>
    rw [decoded_of_onward ho, hdec.kept hi]
  | @recover linear dispatches jump m words hc hds hj hm hcount hwords =>
    -- A dispatch has no target, so the instruction is not the one that becomes a switch.
    have hne : linear ≠ k := by
      rintro rfl
      obtain ⟨-, j, hj', hjump, hnone⟩ := he.awaited (k := linear) (.inr (hds ▸ List.mem_cons_self))
      rw [hi] at hj'
      cases hj'
      exact hdirect hjump hnone
    rw [(withSwitch_frame { w with dispatches } jump m words).1, hs.linear hj, putSwitch,
      getElem?_foldl_neutralized, if_neg (hunfolded hj hm), AddressMap.getElem?_modify, if_neg hne]
    exact hi
  | stop hc hwhy => exact hi
  | vanish hc hds hj => exact hi
  | refuse hc hds hj hm => exact hi
  | start hc hds hq => exact hi
  | turn hc hds hq => exact hi

/-- A jump with a target is neither a dispatch nor folded, so it stays as it is. -/
theorem jump_of_move {k : Nat} {i : Instruction} (hfold : SwitchTemplate.FoldStraight r.templates)
    (hs : Sound r w) (he : Exact w) (hm : Move r w w') (hi : w.decoded[k]? = some i)
    (hjump : i.mnemonic.isJump = true) {t : Address} (ht : i.target? = some t) :
    w'.decoded[k]? = some i := by
  refine kept_of_move hs he hm hi (fun _ hnone => ?_) fun hj hm hmem => ?_
  · rw [ht] at hnone
    cases hnone
  · obtain ⟨j, hj', hstraight⟩ := straight_of_match hs hfold hj hm hmem
    rw [hi] at hj'
    cases hj'
    rw [hstraight.jump] at hjump
    cases hjump

/-- A walk is sound and exact after any number of steps. Both are needed at once, as exactness is
    kept for walks that are sound. -/
theorem sound_exact_of_after {n : Nat} (hfold : SwitchTemplate.FoldStraight r.templates)
    (h : after r n = some w) : Sound r w ∧ Exact w := by
  refine after_induction (P := fun w => Sound r w ∧ Exact w) ⟨sound_start r, exact_start r⟩ ?_ h
  intro n w w' _ hw hm
  exact ⟨sound_of_move hw.1 hm, exact_of_move hfold hw.1 hw.2 hm⟩

/-- **A jump with a target is in a finished walk as it was decoded.** -/
theorem jump_of_walk {n : Nat} {c : Cursor} {i : Instruction}
    (hfold : SwitchTemplate.FoldStraight r.templates) (hw' : r.walk = .ok w')
    (hw : after r n = some w) (hdec : Decodes r w c i) (hjump : i.mnemonic.isJump = true)
    {t : Address} (ht : i.target? = some t) : w'.decoded[i.linear]? = some i := by
  obtain ⟨w₁, hstep, hput⟩ := hdec.exists_step
  refine walk_induction (P := fun w => w.decoded[i.linear]? = some i) hw' (after_succ hw hstep)
    hput ?_
  intro n w w' hw hi hmove
  obtain ⟨hs, he⟩ := sound_exact_of_after hfold hw
  exact jump_of_move hfold hs he hmove hi hjump ht

end RealMode.Walk
