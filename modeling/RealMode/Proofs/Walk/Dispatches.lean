import RealMode.Proofs.Walk.Tables

namespace RealMode

open Dispatch

/-!
# What recovered switches are made of

A switch stands in the place of a jump that the standard templates have recognized. The check in
front of it stays as it was decoded, and what only prepared the jump has no effect any more.

* `Walk.Recovers` — a switch, the dispatch it was recovered from, and what the walk has in its
  places;
* `Walk.Checked` — every switch of a walk was recovered from such a dispatch;
* `Walk.checked_of_move` — every move keeps that, `Walk.checked_of_after` — so it holds after any
  number of steps.
-/

namespace Walk

variable {r : Routine} {w w' : Walk} {s : Instruction}

/-- The switch `s` was recovered from a dispatch that the templates have recognized. -/
structure Recovers (r : Routine) (w : Walk) (s : Instruction) (m : SwitchMatch)
    (words : List UInt16) (compare guard add xchg jump : Instruction) : Prop where
  recognized : Recognized m compare guard add xchg jump
  decoded : ∀ i ∈ [compare, guard, add, xchg, jump], r.decodeAt i.address = .ok i
  limit : m.caseCount ≤ r.options.maxCases.toNat
  table : tableWords r jump.address.seg m = .ok words
  switch : s = switchOf jump m.index words
  compare_kept : w.decoded[compare.linear]? = some compare
  guard_kept : w.decoded[guard.linear]? = some guard
  add_folded : w.decoded[add.linear]? = some add.neutralized
  xchg_folded : w.decoded[xchg.linear]? = some xchg.neutralized

/-- Every switch was recovered from a dispatch. -/
def Checked (r : Routine) (w : Walk) : Prop :=
  ∀ {k : Nat} {s : Instruction}, w.decoded[k]? = some s → s.mnemonic = .switch →
    ∃ m words compare guard add xchg jump, Recovers r w s m words compare guard add xchg jump

section Lasting

variable {m : SwitchMatch} {words : List UInt16} {compare guard add xchg jump : Instruction}
  (hlasting : ∀ {k : Nat} {i : Instruction}, w.decoded[k]? = some i →
    i.mnemonic ≠ .add ∧ i.mnemonic ≠ .xchg → (i.mnemonic.isJump = true → i.target? ≠ none) →
    w'.decoded[k]? = some i)
include hlasting

/-- The check in front of a jump is not changed, because it is a comparison and a branch with a
    target, and recovery touches neither. -/
theorem check_kept (hrec : Recognized m compare guard add xchg jump)
    (hcompare : w.decoded[compare.linear]? = some compare)
    (hguard : w.decoded[guard.linear]? = some guard) :
    w'.decoded[compare.linear]? = some compare ∧ w'.decoded[guard.linear]? = some guard := by
  have hcmp := cmp_of_comparedBound? hrec.compares
  have hjcc := Instruction.jcc_of_placeWhen? hrec.guards
  constructor
  · apply hlasting hcompare <;> simp [hcmp, Mnemonic.isJump]
  · apply hlasting hguard <;> simp [hjcc, Mnemonic.isJump]

/-- What a switch was recovered from is not changed any more: the check for what it is, and the rest
    because it has become a `nop`. -/
theorem Recovers.mono (h : Recovers r w s m words compare guard add xchg jump) :
    Recovers r w' s m words compare guard add xchg jump := by
  obtain ⟨hcompare, hguard⟩ := check_kept hlasting h.recognized h.compare_kept h.guard_kept
  have hnop {k : Nat} {i : Instruction} (hi : w.decoded[k]? = some i.neutralized) :
      w'.decoded[k]? = some i.neutralized := by
    apply hlasting hi <;> simp [Instruction.neutralized, Instruction.withOperation, Mnemonic.isJump]
  exact ⟨h.recognized, h.decoded, h.limit, h.table, h.switch, hcompare, hguard, hnop h.add_folded,
    hnop h.xchg_folded⟩

end Lasting

/-- **A new switch is recovered from the dispatch in its window.** -/
theorem recovers_of_recover {linear : Nat} {dispatches : List Nat} {jump : Instruction}
    {m : SwitchMatch} {words : List UInt16} (htemplates : r.templates = SwitchTemplate.standard)
    (hs : Sound r w) (he : Exact w) (hc : w.cursor = none)
    (hds : w.dispatches = linear :: dispatches) (hj : w.decoded[linear]? = some jump)
    (hm : SwitchTemplate.firstMatch? r.templates (w.window jump) = some m)
    (hcount : m.caseCount ≤ r.options.maxCases.toNat)
    (hwords : tableWords r jump.address.seg m = .ok words) :
    ∃ compare guard add xchg, Recovers r ({ w with dispatches }.withSwitch jump m words)
      (switchOf jump m.index words) m words compare guard add xchg jump := by
  have hwait : w.Awaits linear := .inr (hds ▸ List.mem_cons_self)
  have hnofold := not_mem_folded he hs (htemplates ▸ SwitchTemplate.foldStraight_standard) hwait
    hj hm
  obtain ⟨compare, guard, add, xchg, jump', hrec, hsubset, hlast⟩ :=
    SwitchTemplate.recognized_of_firstMatch? (htemplates ▸ hm)
  -- The jump is the last instruction of its own window.
  obtain rfl : jump = jump' := by simpa [window] using hlast
  have hbefore {i : Instruction} (hi : i ∈ [compare, guard, add, xchg]) :
      w.decoded[i.linear]? = some i := decoded_of_mem_window hs hj (hsubset hi)
  obtain ⟨hcompare, hguard⟩ :=
    check_kept (lasting_of_move htemplates hs he (.recover hc hds hj hm hcount hwords)) hrec
      (hbefore (by simp)) (hbefore (by simp))
  -- The two instructions that prepare the jump are folded, and are not the jump itself.
  have hfolded {i : Instruction} (hi : i ∈ [compare, guard, add, xchg])
      (hmem : i.linear ∈ m.folded) :
      ({ w with dispatches }.withSwitch jump m words).decoded[i.linear]? = some i.neutralized := by
    have hne : linear ≠ i.linear := by
      rintro rfl
      exact hnofold hmem
    rw [(withSwitch_frame { w with dispatches } jump m words).1, hs.linear hj,
      getElem?_putSwitch hnofold, if_neg hne, if_pos hmem]
    show w.decoded[i.linear]?.map Instruction.neutralized = _
    rw [hbefore hi]
    rfl
  -- None of the five is an operation that recovery makes, so they are as they were decoded.
  have hdecoded {i : Instruction} {k : Nat} (hi : w.decoded[k]? = some i)
      (hm : i.mnemonic ∈ [.cmp, .jcc, .add, .xchg, .jmp]) : r.decodeAt i.address = .ok i := by
    apply (hs.provided hi).decodeAt
    simp only [List.mem_cons, List.not_mem_nil, or_false] at hm
    rcases hm with hm | hm | hm | hm | hm <;> simp [hm]
  refine ⟨compare, guard, add, xchg, hrec, ?_, hcount, hwords, rfl, hcompare, hguard, ?_, ?_⟩
  · obtain ⟨base, place, hscaled, -⟩ := exists_scaled hrec.scaled
    simp only [List.forall_mem_cons, List.not_mem_nil, false_imp_iff, implies_true, and_true]
    exact ⟨hdecoded (hbefore (by simp)) (by simp [cmp_of_comparedBound? hrec.compares]),
      hdecoded (hbefore (by simp)) (by simp [Instruction.jcc_of_placeWhen? hrec.guards]),
      hdecoded (hbefore (by simp)) (by simp [hscaled.add.1]),
      hdecoded (hbefore (by simp)) (by simp [hscaled.xchg.1]),
      hdecoded hj (by simp [hscaled.jump.1])⟩
  · exact hfolded (by simp) (by simp [hrec.folded])
  · exact hfolded (by simp) (by simp [hrec.folded])

/-- **Every move keeps what switches are made of.** A switch is new only where a dispatch is
    recovered, and the others keep what they were recovered from. -/
theorem checked_of_move {n : Nat} (htemplates : r.templates = SwitchTemplate.standard)
    (hn : after r n = some w) (h : Checked r w) (hmove : Move r w w') : Checked r w' := by
  obtain ⟨hs, he⟩ := sound_exact_of_after (htemplates ▸ SwitchTemplate.foldStraight_standard) hn
  intro k s hk hswitch
  -- A switch that was there before still has its dispatch.
  have hold (hk : w.decoded[k]? = some s) :
      ∃ m words compare guard add xchg jump,
        Recovers r w' s m words compare guard add xchg jump := by
    obtain ⟨m, words, compare, guard, add, xchg, jump, hrec⟩ := h hk hswitch
    exact ⟨m, words, compare, guard, add, xchg, jump,
      hrec.mono (lasting_of_move htemplates hs he hmove)⟩
  cases hmove with
  | decode hdec ho =>
    rw [decoded_of_onward ho, hdec.getElem?_insert] at hk
    split at hk
    · cases hk
      exact absurd hswitch (Routine.ne_switch_of_decodeAt hdec.decodeAt)
    · exact hold hk
  | @recover linear dispatches jump m words hc hds hj hm hcount hwords =>
    have hnew := recovers_of_recover htemplates hs he hc hds hj hm hcount hwords
    rw [(withSwitch_frame { w with dispatches } jump m words).1] at hk
    rcases cases_of_putSwitch hk with ⟨-, -, -, rfl⟩ | ⟨j, -, rfl⟩ | ⟨-, hk⟩
    · obtain ⟨compare, guard, add, xchg, hrec⟩ := hnew
      exact ⟨m, words, compare, guard, add, xchg, jump, hrec⟩
    · cases hswitch
    · exact hold hk
  | stop hc hwhy => exact hold hk
  | vanish hc hds hj => exact hold hk
  | refuse hc hds hj hm => exact hold hk
  | start hc hds hq => exact hold hk
  | turn hc hds hq => exact hold hk

theorem checked_of_after {n : Nat} (htemplates : r.templates = SwitchTemplate.standard)
    (h : after r n = some w) : Checked r w := by
  refine after_induction (P := Checked r) ?_
    (fun hn hw hm => checked_of_move htemplates hn hw hm) h
  intro k s hk
  simp [atEntry] at hk

end Walk

end RealMode
