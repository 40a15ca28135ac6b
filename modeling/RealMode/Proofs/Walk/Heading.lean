import RealMode.Proofs.Disassembly.ControlFlow
import RealMode.Proofs.Walk.History

namespace RealMode.Walk

/-!
# A walk goes nowhere in vain

A template may fold anything, even a jump that waits to be recovered and becomes a switch later on,
so control that goes straight on somewhere need not do so to the end. It does where the walk has
gone straight on itself, since nothing waits there.

* `Passes` — control goes straight on where nothing waits to be recovered, `passes_of_move` — no
  move takes such a way away;
* `Heads` — the walk has a reason to decode at a place: the entry, a transfer, or such a way;
* `headed_of_move` — it has one wherever it decodes or will start, `decoded_of_cursor` — so if it
  comes to an end where no way of control is broken, something is decoded there.

Unlike `Traced`, all this asks nothing of the templates.
-/

variable {r : Routine} {w w' : Walk} {s t k : Nat}

/-- Control goes straight on from one place to another, and no dispatch waits at the first. -/
def Passes (w : Walk) (s t : Nat) : Prop := w.Falls s t ∧ ¬ w.Awaits s

/-- A dispatch that waits after a move waited before, or is newly decoded. -/
theorem awaits_of_move (hm : Move r w w') (h : w'.Awaits k) :
    w.Awaits k ∨ w.decoded.contains k = false := by
  cases hm with
  | stop hc hwhy => exact .inl h
  | @decode c i hdec w' ho =>
    cases ho with
    | dispatch hj ht =>
      rcases h with h | h
      · rw [Worklist.toList_push, List.mem_append, List.mem_singleton] at h
        refine h.imp .inl ?_
        rintro rfl
        rw [hdec.linear, hdec.new]
      · exact .inl (.inr h)
    | leave | jump | branch | blind | «return» | exit | call | plain => exact .inl h
  | vanish hc hds hj => exact .inl (h.imp_right fun h => hds ▸ List.mem_cons_of_mem _ h)
  | refuse hc hds hj hm => exact .inl (h.imp_right fun h => hds ▸ List.mem_cons_of_mem _ h)
  | @recover linear dispatches jump m words hc hds hj hm hcount hwords =>
    obtain ⟨-, -, hdisp, hpend, -, -⟩ := withSwitch_frame { w with dispatches } jump m words
    rw [Awaits, hdisp, hpend] at h
    exact .inl (h.imp_right fun h => hds ▸ List.mem_cons_of_mem _ h)
  | start hc hds hq => exact .inl h
  | turn hc hds hq => exact .inl (.inl (h.resolve_left List.not_mem_nil))

/-- Where nothing waits, a recovered switch leaves an instruction as it is, or makes it a `nop`. -/
theorem Passes.recover {linear : Nat} {dispatches : List Nat} {jump : Instruction}
    (h : w.Passes s t) (hs : Sound r w) (hds : w.dispatches = linear :: dispatches)
    (hj : w.decoded[linear]? = some jump) (m : SwitchMatch) (words : List UInt16) :
    ({ w with dispatches }.withSwitch jump m words).Falls s t := by
  obtain ⟨⟨i, hi, hfalls, hnext⟩, hidle⟩ := h
  obtain ⟨hd, -, -, -, hx, -⟩ := withSwitch_frame { w with dispatches } jump m words
  -- The dispatch waits, and nothing waits at `s`.
  have hne : linear ≠ s := by
    rintro rfl
    exact hidle (.inr (hds ▸ List.mem_cons_self))
  have hlookup : ({ w with dispatches }.withSwitch jump m words).decoded[s]? =
      if s ∈ m.folded then some i.neutralized else some i := by
    rw [hd, hs.linear hj, putSwitch, getElem?_foldl_neutralized, AddressMap.getElem?_modify,
      if_neg hne]
    show (if s ∈ m.folded then w.decoded[s]?.map _ else w.decoded[s]?) = _
    rw [hi, Option.map_some]
  rw [fallsThrough_iff] at hfalls
  -- Folded or not, the instruction leads straight on.
  split at hlookup
  · refine ⟨i.neutralized, hlookup, ?_, hnext⟩
    rw [fallsThrough_iff, hx]
    refine ⟨rfl, rfl, ?_, hfalls.2.2.2⟩
    rintro ⟨⟩
  · refine ⟨i, hlookup, ?_, hnext⟩
    rw [fallsThrough_iff, hx]
    exact hfalls

/-- **No move takes such a way away.** A jump that waits is not on it, so recovery turns nothing on
    it into a switch. -/
theorem passes_of_move (hs : Sound r w) (hm : Move r w w') (h : w.Passes s t) : w'.Passes s t := by
  have hidle : ¬ w'.Awaits s := by
    intro hwait
    rcases awaits_of_move hm hwait with hold | hnew
    · exact h.2 hold
    · obtain ⟨i, hi, -⟩ := h.1
      rw [(AddressMap.contains_iff_exists _ _).2 ⟨i, hi⟩] at hnew
      cases hnew
  refine ⟨?_, hidle⟩
  cases hm with
  | decode hdec ho => exact falls_of_decode hs hdec ho h.1
  | recover hc hds hj hm hcount hwords => exact h.recover hs hds hj _ _
  | stop hc hwhy => exact h.1
  | vanish hc hds hj => exact h.1
  | refuse hc hds hj hm => exact h.1
  | start hc hds hq => exact h.1
  | turn hc hds hq => exact h.1

/-! ### Where a walk is going -/

/-- The walk has a reason to decode at the place. -/
inductive Heads (r : Routine) (w : Walk) (k : Nat) : Prop
  | entry (he : k = r.entry.linear)
  | follow (hf : w.Follows k)
  | pass {s : Nat} (hp : w.Passes s k)

/-- A reason to decode at a place is not lost by any move. -/
theorem heads_of_move (hs : Sound r w) (hm : Move r w w') (h : Heads r w k) : Heads r w' k := by
  cases h with
  | entry he => exact .entry he
  | follow hf =>
    obtain ⟨source, hmem⟩ := hf
    exact .follow ⟨source, branches_of_move hm hmem⟩
  | pass hp => exact .pass (passes_of_move hs hm hp)

/-- The walk has a reason to decode where it does, and where it will start. -/
structure Headed (r : Routine) (w : Walk) : Prop where
  cursor : ∀ {c : Cursor}, w.cursor = some c → Heads r w c.address.linear
  queued : ∀ {a : Address}, a ∈ w.queue.toList → Heads r w a.linear

/-- An instruction that control falls through does not wait when it is decoded. -/
theorem passes_onward {c : Cursor} {i : Instruction} {ah : Option UInt8} (hs : Sound r w)
    (hdec : Decodes r w c i)
    (ho : Onward r { w with decoded := w.decoded.insert c.address.linear i } i ah w')
    (h : w'.Falls i.linear t) : w'.Passes i.linear t := by
  have hfresh : ¬ w.Awaits i.linear := by
    intro hwait
    obtain ⟨j, hj⟩ := hs.awaited hwait
    exact hdec.linear_ne hj rfl
  refine ⟨h, ?_⟩
  cases ho with
  | dispatch hj ht =>
    obtain ⟨j, hj', hfalls, -⟩ := h
    rw [hdec.getElem?_insert, if_pos rfl] at hj'
    cases hj'
    rw [fallsThrough_iff, hj] at hfalls
    cases hfalls.1
  | leave | jump | branch | blind | «return» | exit | call | plain => exact hfresh

/-- Behind a decoded instruction there is a reason to go on: the instruction itself, or the transfer
    that was followed. -/
theorem Headed.decode {c : Cursor} {i : Instruction} {ah : Option UInt8} (h : Headed r w)
    (hs : Sound r w) (hdec : Decodes r w c i)
    (ho : Onward r { w with decoded := w.decoded.insert c.address.linear i } i ah w')
    (hmono : ∀ {k : Nat}, Heads r w k → Heads r w' k) : Headed r w' := by
  obtain ⟨hcursor, hqueue⟩ := goes_onward hs hdec ho
  refine ⟨fun hc => .pass (passes_onward hs hdec ho (hcursor hc)), fun ha => ?_⟩
  rcases hqueue ha with hold | hbranch | hfalls
  · exact hmono (h.queued hold)
  · exact .follow ⟨_, hbranch⟩
  · exact .pass (passes_onward hs hdec ho hfalls)

/-- **A walk has a reason to decode wherever it does.** A place in the queue keeps the one it was
    put there for. -/
theorem headed_of_move (hs : Sound r w) (h : Headed r w) (hm : Move r w w') : Headed r w' := by
  have hmono {k : Nat} (hk : Heads r w k) : Heads r w' k := heads_of_move hs hm hk
  cases hm with
  | decode hdec ho => exact h.decode hs hdec ho hmono
  | @recover linear dispatches jump m words hc hds hj hm hcount hwords =>
    obtain ⟨-, hcur, -, -, -, -⟩ := withSwitch_frame { w with dispatches } jump m words
    obtain ⟨hb, -, hq⟩ := withSwitch_adds { w with dispatches } jump m words
    refine ⟨fun hc' => hmono (h.cursor (hcur ▸ hc')), fun ha => ?_⟩
    rw [hq, List.mem_append, List.mem_map] at ha
    rcases ha with ha | ⟨word, hword, rfl⟩
    · exact hmono (h.queued ha)
    · exact .follow ⟨jump.linear, (hb _ _).2 (.inr ⟨rfl, List.mem_map.2 ⟨word, hword, rfl⟩⟩)⟩
  | @start a queue hc hds hq =>
    have hlist := Worklist.toList_of_pop? hq
    refine ⟨fun hc' => ?_, fun ha => hmono (h.queued (hlist ▸ List.mem_cons_of_mem _ ha))⟩
    cases hc'
    exact hmono (h.queued (hlist ▸ List.mem_cons_self))
  | stop hc hwhy => exact ⟨nofun, fun ha => hmono (h.queued ha)⟩
  | vanish hc hds hj => exact ⟨fun hc' => hmono (h.cursor hc'), fun ha => hmono (h.queued ha)⟩
  | refuse hc hds hj hm => exact ⟨fun hc' => hmono (h.cursor hc'), fun ha => hmono (h.queued ha)⟩
  | turn hc hds hq => exact ⟨fun hc' => hmono (h.cursor hc'), fun ha => hmono (h.queued ha)⟩

theorem headed_atEntry (r : Routine) : Headed r (atEntry r) := by
  refine ⟨nofun, fun ha => ?_⟩
  rw [atEntry, Worklist.toList_push, List.mem_append, List.mem_singleton] at ha
  rcases ha with ha | rfl
  · exact absurd ha List.not_mem_nil
  · exact .entry rfl

/-! ### Whole walks -/

/-- A walk is sound after any number of steps, whatever its templates do. -/
theorem sound_of_after {n : Nat} (h : after r n = some w) : Sound r w :=
  after_induction (sound_start r) (fun _ hs hm => sound_of_move hs hm) h

/-- There is such a reason after any number of steps. -/
theorem headed_of_after {n : Nat} (h : after r n = some w) : Headed r w :=
  after_induction (headed_atEntry r) (fun hw hh hm => headed_of_move (sound_of_after hw) hh hm) h

/-- **A walk goes nowhere in vain**: where it has once come to, something is decoded at its end, if
    no way of control is broken there. -/
theorem decoded_of_cursor {n : Nat} {c : Cursor} (hwalk : r.walk = .ok w')
    (hcomplete : w'.Complete) (hn : after r n = some w) (hc : w.cursor = some c) :
    w'.decoded.contains c.address.linear = true := by
  have hheads : Heads r w' c.address.linear :=
    walk_induction (P := fun w => Heads r w c.address.linear) hwalk hn
      ((headed_of_after hn).cursor hc) fun hw hh hm => heads_of_move (sound_of_after hw) hm hh
  apply (AddressMap.contains_iff_exists _ _).2
  cases hheads with
  | entry he =>
    rw [he]
    exact (entry_of_walk hwalk).1
  | follow hf => exact hcomplete.followed hf
  | pass hp =>
    obtain ⟨⟨i, hi, hfalls, hnext⟩, -⟩ := hp
    rw [← hnext]
    exact hcomplete.fallen hi hfalls

end RealMode.Walk
