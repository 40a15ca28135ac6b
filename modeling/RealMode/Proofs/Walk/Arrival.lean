import Mathlib.Logic.Relation
import RealMode.Proofs.Walk.Transfers

namespace RealMode

/-!
# Everything that is decoded can be come to

A walk decodes only where control goes, and what it makes of an instruction later on never
cuts off a way that control had.

* `Walk.Goes` — control goes from one place to another, by a transfer or straight on
  (`Walk.Falls`), and `Walk.Arrives` — it comes to a place from the entry;
* `Walk.goes_of_move` — no move takes a way of control away;
* `Walk.Traced` — control comes to whatever is decoded or still to be decoded;
* `traced_of_move` — every move keeps that, `arrives_of_walk` — so it holds at the end.
-/

theorem Mnemonic.isReturn_of_isCall {m : Mnemonic} (h : m.isCall = true) : m.isReturn = false := by
  revert h
  cases m <;> decide

namespace Walk

variable {r : Routine} {w w' : Walk}

/-- Control goes straight on from one place to another. -/
def Falls (w : Walk) (s t : Nat) : Prop :=
  ∃ i, w.decoded[s]? = some i ∧ w.fallsThrough i = true ∧ i.nextLinear = t

/-- Control goes from one place to another: by a transfer that is followed, or straight on. -/
def Goes (w : Walk) (s t : Nat) : Prop := (s, t) ∈ w.branches ∨ w.Falls s t

/-- Control comes to the place from the entry. -/
def Arrives (r : Routine) (w : Walk) (k : Nat) : Prop :=
  Relation.ReflTransGen w.Goes r.entry.linear k

theorem Arrives.mono (hgoes : ∀ s t, w.Goes s t → w'.Goes s t) {k : Nat} (h : Arrives r w k) :
    Arrives r w' k :=
  Relation.ReflTransGen.mono (fun s t => hgoes s t) _ _ h

/-- Control falls through an instruction unless it is a transfer for good. -/
theorem fallsThrough_iff (i : Instruction) :
    w.fallsThrough i = true ↔ i.mnemonic.isJump = false ∧ i.mnemonic.isReturn = false ∧
      i.mnemonic ≠ .switch ∧ w.exits.contains i.linear = false := by
  simp [fallsThrough, and_assoc]

/-! ### No way of control is taken away -/

/-- Going on behind an instruction adds transfers, and makes no other place an exit. -/
theorem grows_of_onward {i : Instruction} {ah : Option UInt8} (h : Onward r w i ah w') :
    w.branches ⊆ w'.branches ∧
      ∀ k, k ≠ i.linear → w'.exits.contains k = w.exits.contains k := by
  cases h with
  | exit hx =>
    refine ⟨fun _ hs => hs, fun k hk => ?_⟩
    rw [Std.ExtTreeSet.contains_insert]
    simp [Ne.symm hk]
  | jump hj ht hx => exact ⟨List.subset_cons_self _ _, fun _ _ => rfl⟩
  | branch hb ht => exact ⟨List.subset_cons_self _ _, fun _ _ => rfl⟩
  | dispatch hj ht => exact ⟨fun _ hs => hs, fun _ _ => rfl⟩
  | leave hj ht hx => exact ⟨fun _ hs => hs, fun _ _ => rfl⟩
  | blind hb ht => exact ⟨fun _ hs => hs, fun _ _ => rfl⟩
  | «return» hr => exact ⟨fun _ hs => hs, fun _ _ => rfl⟩
  | call hc ht hx => exact ⟨fun _ hs => hs, fun _ _ => rfl⟩
  | plain hj hb hr hx => exact ⟨fun _ hs => hs, fun _ _ => rfl⟩

/-- Control falls through what it fell through before an instruction was decoded, since the new one
    is at another place and only that one may become an exit. -/
theorem falls_of_decode {c : Cursor} {i : Instruction} {ah : Option UInt8} (hs : Sound r w)
    (hdec : Decodes r w c i)
    (ho : Onward r { w with decoded := w.decoded.insert c.address.linear i } i ah w')
    {s t : Nat} (h : w.Falls s t) : w'.Falls s t := by
  obtain ⟨j, hj, hfalls, hnext⟩ := h
  have hne : i.linear ≠ s := hdec.linear_ne hj
  refine ⟨j, ?_, ?_, hnext⟩
  · rw [decoded_of_onward ho, hdec.kept hj]
  · rw [fallsThrough_iff] at hfalls ⊢
    rwa [(grows_of_onward ho).2 j.linear (by rw [hs.linear hj]; exact hne.symm)]

/-- Where a dispatch turns out to be a switch, control goes on through all that is folded: it leads
    straight on before and after. -/
theorem falls_of_recover {linear : Nat} {dispatches : List Nat} {jump : Instruction}
    {m : SwitchMatch} (he : Exact w) (hs : Sound r w)
    (hfold : SwitchTemplate.FoldStraight r.templates) (hds : w.dispatches = linear :: dispatches)
    (hj : w.decoded[linear]? = some jump)
    (hm : SwitchTemplate.firstMatch? r.templates (w.window jump) = some m)
    (words : List UInt16) {s t : Nat} (h : w.Falls s t) :
    ({ w with dispatches }.withSwitch jump m words).Falls s t := by
  have hwait : w.Awaits linear := .inr (hds ▸ List.mem_cons_self)
  have hnofold := not_mem_folded he hs hfold hwait hj hm
  obtain ⟨hd, -, -, -, hx, -⟩ := withSwitch_frame { w with dispatches } jump m words
  rw [hs.linear hj] at hd
  obtain ⟨j, hj', hfalls, hnext⟩ := h
  have hfalls' := (fallsThrough_iff j).1 hfalls
  -- Control falls through no jump, so the dispatch is elsewhere.
  have hne : linear ≠ s := by
    rintro rfl
    obtain ⟨-, i, hi, hjump, -⟩ := he.awaited hwait
    rw [hj'] at hi
    cases hi
    rw [hfalls'.1] at hjump
    cases hjump
  have hlookup := getElem?_putSwitch hnofold w.decoded (switchOf jump m.index words) s
  rw [if_neg hne, hj'] at hlookup
  by_cases hmem : s ∈ m.folded
  · -- What is folded keeps its place, and leads on to the one behind it.
    refine ⟨j.neutralized, ?_, ?_, hnext⟩
    · rw [hd]
      exact hlookup.trans (by rw [if_pos hmem]; rfl)
    · rw [fallsThrough_iff, hx]
      exact ⟨rfl, rfl, fun hm => (by cases hm), hfalls'.2.2.2⟩
  · refine ⟨j, ?_, ?_, hnext⟩
    · rw [hd]
      exact hlookup.trans (by rw [if_neg hmem])
    · rw [fallsThrough_iff, hx]
      exact hfalls'

/-- Control that goes straight on does so after every move. -/
theorem falls_of_move (hfold : SwitchTemplate.FoldStraight r.templates) (hs : Sound r w)
    (he : Exact w) (hm : Move r w w') {s t : Nat} (h : w.Falls s t) : w'.Falls s t := by
  cases hm with
  | decode hd ho => exact falls_of_decode hs hd ho h
  | recover hc hds hj hm hcount hwords => exact falls_of_recover he hs hfold hds hj hm _ h
  | stop hc hwhy => exact h
  | vanish hc hds hj => exact h
  | refuse hc hds hj hm => exact h
  | start hc hds hq => exact h
  | turn hc hds hq => exact h

/-- A transfer that is followed stays so, as transfers are only ever added. -/
theorem branches_of_move (hm : Move r w w') : w.branches ⊆ w'.branches := by
  cases hm with
  | decode hd ho => exact (grows_of_onward ho).1
  | @recover linear dispatches jump m words hc hds hj hm hcount hwords =>
    exact (branches_withSwitch { w with dispatches } jump m words).1
  | stop hc hwhy => exact fun _ hs => hs
  | vanish hc hds hj => exact fun _ hs => hs
  | refuse hc hds hj hm => exact fun _ hs => hs
  | start hc hds hq => exact fun _ hs => hs
  | turn hc hds hq => exact fun _ hs => hs

/-- **No move takes a way of control away**, neither a transfer that was followed nor control that
    goes straight on. -/
theorem goes_of_move (hfold : SwitchTemplate.FoldStraight r.templates) (hs : Sound r w)
    (he : Exact w) (hm : Move r w w') {s t : Nat} (h : w.Goes s t) : w'.Goes s t :=
  h.imp (fun hmem => branches_of_move hm hmem) (falls_of_move hfold hs he hm)

/-! ### Control comes to all that is decoded -/

/-- Control comes to whatever is decoded or still to be decoded. -/
structure Traced (r : Routine) (w : Walk) : Prop where
  decoded : ∀ {k : Nat} {i}, w.decoded[k]? = some i → Arrives r w k
  cursor : ∀ {c : Cursor}, w.cursor = some c → Arrives r w c.address.linear
  queued : ∀ {a : Address}, a ∈ w.queue.toList → Arrives r w a.linear

/-- Behind a decoded instruction the walk goes on where control does, at the cursor and in the
    queue. -/
theorem goes_onward {c : Cursor} {i : Instruction} {ah : Option UInt8} (hs : Sound r w)
    (hdec : Decodes r w c i)
    (ho : Onward r { w with decoded := w.decoded.insert c.address.linear i } i ah w') :
    (∀ {c'}, w'.cursor = some c' → w'.Falls i.linear c'.address.linear) ∧
      ∀ {a}, a ∈ w'.queue.toList → a ∈ w.queue.toList ∨ w'.Goes i.linear a.linear := by
  have hself : w'.decoded[i.linear]? = some i := by
    rw [decoded_of_onward ho, hdec.getElem?_insert, if_pos rfl]
  have hswitch : i.mnemonic ≠ .switch := Routine.ne_switch_of_decodeAt hdec.decodeAt
  -- The place is new, so it is no exit yet.
  have hnoexit : w.exits.contains i.linear = false := by
    rw [Bool.eq_false_iff]
    intro hexit
    obtain ⟨j, hj, -⟩ := hs.exits hexit
    exact hdec.linear_ne hj rfl
  have hstraight (hj : i.mnemonic.isJump = false) (hr : i.mnemonic.isReturn = false)
      (hx : w'.exits = w.exits) : w'.Falls i.linear i.next.linear :=
    ⟨i, hself, (fallsThrough_iff i).2 ⟨hj, hr, hswitch, hx ▸ hnoexit⟩, rfl⟩
  -- A walk that stops here has no cursor, and one that goes straight on queues nothing.
  cases ho with
  | dispatch hj ht => exact ⟨fun hc => (by cases hc), .inl⟩
  | leave hj ht hx => exact ⟨fun hc => (by cases hc), .inl⟩
  | «return» hr => exact ⟨fun hc => (by cases hc), .inl⟩
  | exit hx => exact ⟨fun hc => (by cases hc), .inl⟩
  | @jump t hj ht hx =>
    refine ⟨fun hc => (by cases hc), fun {a} ha => ?_⟩
    rw [follow, Worklist.toList_push, List.mem_append, List.mem_singleton] at ha
    refine ha.imp_right fun ha => .inl ?_
    rw [ha]
    exact List.mem_cons_self
  | @branch t hb ht =>
    refine ⟨fun hc => ?_, fun {a} ha => ?_⟩
    · cases hc
      exact hstraight (Mnemonic.isJump_of_isConditionalBranch hb)
        (Mnemonic.isReturn_of_isConditionalBranch hb) rfl
    · rw [follow, Worklist.toList_push, List.mem_append, List.mem_singleton] at ha
      refine ha.imp_right fun ha => .inl ?_
      rw [ha]
      exact List.mem_cons_self
  | blind hb ht =>
    refine ⟨fun hc => ?_, .inl⟩
    cases hc
    exact hstraight (Mnemonic.isJump_of_isConditionalBranch hb)
      (Mnemonic.isReturn_of_isConditionalBranch hb) rfl
  | call hc' ht hx =>
    refine ⟨fun hc => ?_, .inl⟩
    cases hc
    exact hstraight (Mnemonic.plain_of_isCall hc').1 (Mnemonic.isReturn_of_isCall hc') rfl
  | plain hj hb hr hx =>
    refine ⟨fun hc => ?_, .inl⟩
    cases hc
    exact hstraight hj hr rfl

section Traced

variable (h : Traced r w) (hmono : ∀ {k : Nat}, Arrives r w k → Arrives r w' k)
include h hmono

/-- Control comes to an instruction that is decoded, and so to the places behind it that are
    noted. -/
theorem Traced.decode {c : Cursor} {i : Instruction} {ah : Option UInt8} (hs : Sound r w)
    (hdec : Decodes r w c i)
    (ho : Onward r { w with decoded := w.decoded.insert c.address.linear i } i ah w') :
    Traced r w' := by
  obtain ⟨hcursor, hqueue⟩ := goes_onward hs hdec ho
  have hself : Arrives r w' i.linear := by
    rw [hdec.linear]
    exact hmono (h.cursor hdec.cursor)
  refine ⟨?_, ?_, ?_⟩
  · intro k j hj
    rw [decoded_of_onward ho, hdec.getElem?_insert] at hj
    split at hj
    · rename_i hk
      exact hk ▸ hself
    · exact hmono (h.decoded hj)
  · exact fun hc => hself.tail (.inr (hcursor hc))
  · exact fun ha => (hqueue ha).elim (fun ha => hmono (h.queued ha)) hself.tail

/-- Control comes to the words of a table from the switch that has taken the place of the jump. -/
theorem Traced.recover {linear : Nat} {dispatches : List Nat} {jump : Instruction}
    {m : SwitchMatch} {words : List UInt16} (hs : Sound r w)
    (hj : w.decoded[linear]? = some jump)
    (hw' : { w with dispatches }.withSwitch jump m words = w') : Traced r w' := by
  subst hw'
  obtain ⟨hd, hcur, -, -, -, -⟩ := withSwitch_frame { w with dispatches } jump m words
  obtain ⟨hb, -, hq⟩ := withSwitch_adds { w with dispatches } jump m words
  refine ⟨?_, ?_, ?_⟩
  · intro k i hi
    rw [hd] at hi
    have hjump : w.decoded[jump.linear]? = some jump := by
      rw [hs.linear hj]
      exact hj
    -- A place has an instruction only if it had one before.
    obtain ⟨j, hj', -⟩ := shape_of_putSwitch hjump hi
    exact hmono (h.decoded hj')
  · intro c hc
    rw [hcur] at hc
    exact hmono (h.cursor hc)
  · intro a ha
    rw [hq, List.mem_append, List.mem_map] at ha
    rcases ha with ha | ⟨word, hword, rfl⟩
    · exact hmono (h.queued ha)
    · -- The cases of the switch are come to from the switch itself.
      have hself := hmono (h.decoded hj)
      rw [← hs.linear hj] at hself
      refine hself.tail (.inl ((hb _ _).2 (.inr ⟨rfl, ?_⟩)))
      exact List.mem_map.2 ⟨word, hword, rfl⟩

end Traced

/-- **Every move keeps a walk traced.** What is new lies behind something that control comes to, and
    no way there is taken away. -/
theorem traced_of_move (hfold : SwitchTemplate.FoldStraight r.templates) (hs : Sound r w)
    (he : Exact w) (h : Traced r w) (hm : Move r w w') : Traced r w' := by
  have hmono {k : Nat} (hk : Arrives r w k) : Arrives r w' k :=
    hk.mono fun _ _ => goes_of_move hfold hs he hm
  cases hm with
  | decode hdec ho => exact h.decode hmono hs hdec ho
  | recover hc hds hj hm hcount hwords => exact h.recover hmono hs hj rfl
  | @start a queue hc hds hq =>
    have hlist := Worklist.toList_of_pop? hq
    refine ⟨fun hk => hmono (h.decoded hk), ?_, fun ha => hmono (h.queued ?_)⟩
    · intro c hc'
      cases hc'
      exact hmono (h.queued (hlist ▸ List.mem_cons_self))
    · rw [hlist]
      exact List.mem_cons_of_mem _ ha
  | stop hc hwhy => exact ⟨h.decoded, fun hc' => (by cases hc'), h.queued⟩
  | vanish hc hds hj => exact ⟨h.decoded, h.cursor, h.queued⟩
  | refuse hc hds hj hm => exact ⟨h.decoded, h.cursor, h.queued⟩
  | turn hc hds hq => exact ⟨h.decoded, h.cursor, h.queued⟩

theorem traced_start (r : Routine) : Traced r { queue := Worklist.push {} r.entry } := by
  refine ⟨?_, ?_, ?_⟩
  · intro k i hk
    rw [Std.ExtTreeMap.getElem?_empty] at hk
    cases hk
  · intro c hc
    cases hc
  · intro a ha
    rw [Worklist.toList_push, List.mem_append, List.mem_singleton] at ha
    rcases ha with ha | rfl
    · exact absurd ha List.not_mem_nil
    · exact .refl

/-- **Control comes to everything that a finished walk has decoded**, if the templates fold only
    what leads straight on. -/
theorem arrives_of_walk (hfold : SwitchTemplate.FoldStraight r.templates) (h : r.walk = .ok w)
    {k : Nat} {i : Instruction} (hi : w.decoded[k]? = some i) : Arrives r w k := by
  have hmove {w w' : Walk} (hw : Sound r w ∧ Exact w ∧ Traced r w) (hm : Move r w w') :
      Sound r w' ∧ Exact w' ∧ Traced r w' :=
    ⟨sound_of_move hw.1 hm, exact_of_move hfold hw.1 hw.2.1 hm,
      traced_of_move hfold hw.1 hw.2.1 hw.2.2 hm⟩
  have hend := run_induction hmove ⟨sound_start r, exact_start r, traced_start r⟩ (run_of_walk h).2
  exact hend.1.2.2.decoded hi

end Walk

end RealMode
