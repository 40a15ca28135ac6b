import RealMode.Proofs.Walk.Sound

namespace RealMode.Walk

/-!
# The entry is decoded first

A walk decodes its entry before anything else, and what is decoded later may not share bytes
with it. So the entry is the start of an instruction, and no other instruction reaches
across it.

* `Entered` — how far the walk has come with its entry;
* `entered_of_move` — every move keeps that, `entry_of_walk` — what it comes to at the end.
-/

variable {r : Routine} {w w' : Walk}

/-- How far a walk has come with its entry: it waits, it is about to be decoded, or it is
    decoded and no instruction reaches across it. -/
inductive Entered (r : Routine) (w : Walk) : Prop
  | queued (hd : w.decoded = ∅) (hc : w.cursor = none) (hds : w.dispatches = [])
      (hq : w.queue.toList = [r.entry])
  | starting {c : Cursor} (hd : w.decoded = ∅) (hc : w.cursor = some c) (ha : c.address = r.entry)
  | decoded {i : Instruction} (he : w.decoded[r.entry.linear]? = some i)
      (hclear : ∀ {k : Nat} {i}, w.decoded[k]? = some i →
        r.entry.linear ≤ k ∨ k + i.length.toNat ≤ r.entry.linear)

/-! ### Overlaps -/

theorem nearestBelow?_empty {α : Type} (reach linear : Nat) :
    nearestBelow? (∅ : AddressMap α) reach linear = none := by
  induction reach generalizing linear with
  | zero => rfl
  | succ reach ih =>
    cases linear with
    | zero => rfl
    | succ linear =>
      rw [nearestBelow?, Std.ExtTreeMap.getElem?_empty]
      exact ih linear

/-- The first instruction overlaps with nothing. -/
theorem overlaps_of_empty (hd : w.decoded = ∅) (i : Instruction) : w.overlaps i = false := by
  rw [overlaps, hd, isCovered, nearestBelow?_empty, covers]
  simp

/-- An instruction that does not overlap reaches across none that is decoded: the other begins no
    later, or behind it. -/
theorem clear_of_overlaps {i j : Instruction} {k : Nat} (h : w.overlaps i = false)
    (hj : w.decoded[k]? = some j) : k ≤ i.linear ∨ i.linear + i.length.toNat ≤ k := by
  rw [overlaps, Bool.or_eq_false_iff] at h
  have hcovers := h.2
  rw [covers, List.any_eq_false] at hcovers
  have hmem : k ∉ List.range' (i.linear + 1) (i.length.toNat - 1) := fun hk =>
    hcovers k hk ((AddressMap.contains_iff_exists _ _).2 ⟨j, hj⟩)
  rw [List.mem_range'_1] at hmem
  omega

/-! ### Moves -/

theorem decoded_of_onward {i : Instruction} {ah : Option UInt8} (h : Onward r w i ah w') :
    w'.decoded = w.decoded := by
  cases h <;> rfl

/-- Instructions are neither moved nor resized by a recovered switch. -/
theorem shape_of_putSwitch {m : AddressMap Instruction} {k : Nat} {jump i : Instruction}
    {index : Register} {words : List UInt16} {folded : List Nat} (hj : m[jump.linear]? = some jump)
    (h : (putSwitch m jump.linear (switchOf jump index words) folded)[k]? = some i) :
    ∃ j, m[k]? = some j ∧ i.address = j.address ∧ i.length = j.length := by
  rcases cases_of_putSwitch h with ⟨j, hk, rfl, rfl⟩ | ⟨j, hk | ⟨rfl, rfl⟩, rfl⟩ | ⟨-, hk⟩
  · exact ⟨jump, hj, rfl, rfl⟩
  · exact ⟨j, hk, rfl, rfl⟩
  · exact ⟨jump, hj, rfl, rfl⟩
  · exact ⟨i, hk, rfl, rfl⟩

/-- A walk with nothing but its entry to do starts there. -/
theorem entered_of_queued (hd : w.decoded = ∅) (hc : w.cursor = none) (hds : w.dispatches = [])
    (hq : w.queue.toList = [r.entry]) (hm : Move r w w') : Entered r w' := by
  cases hm with
  | stop hc' _ => simp [hc] at hc'
  | decode hdec _ =>
    have hc' := hdec.cursor
    simp [hc] at hc'
  | vanish _ hds' _ => simp [hds] at hds'
  | refuse _ hds' _ _ => simp [hds] at hds'
  | recover _ hds' _ _ _ _ => simp [hds] at hds'
  | start _ _ hq' =>
    have hlist := Worklist.toList_of_pop? hq'
    rw [hq, List.cons.injEq] at hlist
    exact .starting hd rfl hlist.1.symm
  | turn _ _ hq' =>
    have hlist := Worklist.toList_of_pop?_none hq'
    rw [hq] at hlist
    cases hlist

/-- A walk that has decoded nothing cannot but decode its entry, for nothing is there to stop at or
    to overlap with. -/
theorem entered_of_starting {c : Cursor} (hd : w.decoded = ∅) (hc : w.cursor = some c)
    (ha : c.address = r.entry) (hm : Move r w w') : Entered r w' := by
  cases hm with
  | @stop c' hc' hwhy =>
    -- With nothing decoded, there is no reason to stop.
    rcases hwhy with hold | ⟨i, -, hover⟩
    · rw [hd, Std.ExtTreeMap.contains_empty] at hold
      cases hold
    · rw [overlaps_of_empty hd] at hover
      cases hover
  | @decode c' i hdec w' ho =>
    have hsame : c' = c := Option.some.inj (hdec.cursor.symm.trans hc)
    have hlinear : i.linear = r.entry.linear := by
      rw [hdec.linear, hsame, ha]
    have hlookup (k : Nat) : w'.decoded[k]? = if r.entry.linear = k then some i else none := by
      rw [decoded_of_onward ho, hdec.getElem?_insert, hd, Std.ExtTreeMap.getElem?_empty, hlinear]
    refine .decoded (i := i) (by rw [hlookup, if_pos rfl]) ?_
    intro k j hj
    rw [hlookup] at hj
    split at hj
    · rename_i hk
      exact .inl (Nat.le_of_eq hk)
    · cases hj
  | vanish hc' _ _ => simp [hc] at hc'
  | refuse hc' _ _ _ => simp [hc] at hc'
  | recover hc' _ _ _ _ _ => simp [hc] at hc'
  | start hc' _ _ => simp [hc] at hc'
  | turn hc' _ _ => simp [hc] at hc'

/-- Nothing that is decoded later reaches across the entry, since it would overlap, and a recovered
    switch keeps places and lengths. -/
theorem entered_of_decoded {e : Instruction} (hs : Sound r w)
    (he : w.decoded[r.entry.linear]? = some e)
    (hclear : ∀ {k : Nat} {i}, w.decoded[k]? = some i →
      r.entry.linear ≤ k ∨ k + i.length.toNat ≤ r.entry.linear)
    (hm : Move r w w') : Entered r w' := by
  cases hm with
  | @decode c i hdec w' ho =>
    have hlookup (k : Nat) :
        w'.decoded[k]? = if i.linear = k then some i else w.decoded[k]? := by
      rw [decoded_of_onward ho, hdec.getElem?_insert]
    -- The new instruction would overlap if it reached across.
    refine .decoded (i := e) (by rw [decoded_of_onward ho, hdec.kept he]) ?_
    intro k j hj
    rw [hlookup] at hj
    split at hj
    · rename_i hk
      cases hj
      rw [← hk]
      exact clear_of_overlaps hdec.clear he
    · exact hclear hj
  | @recover linear dispatches jump m words hc hds hj hm hcount hwords =>
    have hjump : w.decoded[jump.linear]? = some jump := by
      rw [hs.linear hj]
      exact hj
    have hd := (withSwitch_frame { w with dispatches } jump m words).1
    obtain ⟨i, hi⟩ := exists_of_putSwitch he jump.linear (switchOf jump m.index words) m.folded
    -- A recovered switch may be at the entry, or change what is there, but it resizes nothing.
    refine .decoded (hd ▸ hi) ?_
    intro k i hi
    rw [hd] at hi
    obtain ⟨j, hj', -, hlen⟩ := shape_of_putSwitch hjump hi
    rw [hlen]
    exact hclear hj'
  | stop _ _ => exact .decoded he hclear
  | vanish _ _ _ => exact .decoded he hclear
  | refuse _ _ _ _ => exact .decoded he hclear
  | start _ _ _ => exact .decoded he hclear
  | turn _ _ _ => exact .decoded he hclear

/-- **Every move brings the entry further, or leaves it decoded.** There is one lemma for each of
    the three stages. -/
theorem entered_of_move (hs : Sound r w) (h : Entered r w) (hm : Move r w w') : Entered r w' := by
  cases h with
  | queued hd hc hds hq => exact entered_of_queued hd hc hds hq hm
  | starting hd hc ha => exact entered_of_starting hd hc ha hm
  | decoded he hclear => exact entered_of_decoded hs he hclear hm

/-! ### Whole walks -/

/-- **The entry is decoded**, and no instruction reaches across it. A walk that ends cannot have
    left its entry waiting. -/
theorem entry_of_walk (h : r.walk = .ok w) :
    (∃ i, w.decoded[r.entry.linear]? = some i) ∧
      ∀ {k : Nat} {i}, w.decoded[k]? = some i →
        r.entry.linear ≤ k ∨ k + i.length.toNat ≤ r.entry.linear := by
  have hstart : Entered r { queue := Worklist.push {} r.entry } :=
    .queued rfl rfl rfl (Worklist.toList_push _ _)
  have hmove {w w' : Walk} (hw : Sound r w ∧ Entered r w) (hm : Move r w w') :
      Sound r w' ∧ Entered r w' :=
    ⟨sound_of_move hw.1 hm, entered_of_move hw.1 hw.2 hm⟩
  obtain ⟨⟨-, hentered⟩, hdone⟩ := run_induction hmove ⟨sound_start r, hstart⟩ (run_of_walk h).2
  obtain ⟨hc, hds, hq, -⟩ := done_of_step? hdone
  cases hentered with
  | queued _ _ _ hqueue =>
    rw [Worklist.toList_of_pop?_none hq] at hqueue
    cases hqueue
  | starting _ hc' _ =>
    rw [hc] at hc'
    cases hc'
  | @decoded i he hclear => exact ⟨⟨i, he⟩, hclear⟩

end RealMode.Walk
