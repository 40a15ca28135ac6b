import RealMode.Proofs.AddressMap
import RealMode.Proofs.Walk.Moves
import RealMode.Proofs.Walk.Origin

namespace RealMode.Walk

/-!
# What holds all along a walk

* `Settled` — what the walk owes to an instruction: the places it leads to are followed, and
  a jump that is not followed is recorded or still waits to be recovered;
* `Sound` — every decoded instruction comes from the image and is settled, and only
  interrupts end the process;
* `sound_of_move` — every move keeps that, `sound_of_walk` — so it holds at the end.
-/

variable {r : Routine} {w w' : Walk}

/-- Some transfer to the place is followed. -/
def Follows (w : Walk) (target : Nat) : Prop := ∃ source, (source, target) ∈ w.branches

/-- The jump at the place is known not to be followed. -/
def Records (w : Walk) (linear : Nat) : Prop := ∃ u ∈ w.unresolved, u.linear = linear

/-- The dispatch at the place is still to be recovered. -/
def Awaits (w : Walk) (linear : Nat) : Prop := linear ∈ w.pending.toList ∨ linear ∈ w.dispatches

/-- What a walk owes to an instruction it has decoded. -/
structure Settled (w : Walk) (i : Instruction) : Prop where
  branch : i.mnemonic.isConditionalBranch = true → ∀ t, i.target? = some t → w.Follows t.linear
  jump : i.mnemonic.isJump = true → ∀ t, i.target? = some t →
    w.Follows t.linear ∨ w.Records i.linear
  dispatch : i.mnemonic.isJump = true → i.target? = none → w.Records i.linear ∨ w.Awaits i.linear
  switch : i.mnemonic = .switch → ∀ c ∈ i.cases, w.Follows (i.caseTarget c).linear

/-- The state of a walk is right so far. -/
structure Sound (r : Routine) (w : Walk) : Prop where
  linear : ∀ {k : Nat} {i}, w.decoded[k]? = some i → i.linear = k
  provided : ∀ {k : Nat} {i}, w.decoded[k]? = some i → r.Provides i
  settled : ∀ {k : Nat} {i}, w.decoded[k]? = some i → w.Settled i
  exits : ∀ {k : Nat}, w.exits.contains k = true →
    ∃ i, w.decoded[k]? = some i ∧ (i.mnemonic = .int ∨ i.mnemonic = .nop)
  awaited : ∀ {k : Nat}, w.Awaits k → ∃ i, w.decoded[k]? = some i
  lasting : ∀ {k : Nat}, w.Awaits k → w.exits.contains k = false

/-! ### What is settled stays settled -/

/-- An instruction stays settled while transfers and records are only added, and while it is
    taken from the dispatches that wait only to be recorded. -/
theorem Settled.mono {i : Instruction} (h : w.Settled i) (hb : w.branches ⊆ w'.branches)
    (hu : w.unresolved ⊆ w'.unresolved)
    (ha : w.Awaits i.linear → w'.Records i.linear ∨ w'.Awaits i.linear) : w'.Settled i := by
  have hfollows {t : Nat} : w.Follows t → w'.Follows t := fun ⟨s, hs⟩ => ⟨s, hb hs⟩
  have hrecords {k : Nat} : w.Records k → w'.Records k := fun ⟨u, hmem, he⟩ => ⟨u, hu hmem, he⟩
  refine ⟨?_, ?_, ?_, ?_⟩
  · intro hm t ht
    exact hfollows (h.branch hm t ht)
  · intro hm t ht
    exact (h.jump hm t ht).imp hfollows hrecords
  · intro hm ht
    rcases h.dispatch hm ht with hrec | hwait
    · exact .inl (hrecords hrec)
    · exact ha hwait
  · intro hm c hc
    exact hfollows (h.switch hm c hc)

/-- Nothing is owed to an instruction that leads only to the next one, or nowhere. -/
theorem settled_of_plain {i : Instruction} (hj : i.mnemonic.isJump = false)
    (hb : i.mnemonic.isConditionalBranch = false) (hs : i.mnemonic ≠ .switch) : w.Settled i := by
  refine ⟨?_, ?_, ?_, fun hm => absurd hm hs⟩
  · intro hm
    rw [hb] at hm
    cases hm
  · intro hm
    rw [hj] at hm
    cases hm
  · intro hm
    rw [hj] at hm
    cases hm

/-- A jump is settled if it is followed or recorded, or waits to be recovered. -/
theorem settled_of_isJump {i : Instruction} (hj : i.mnemonic.isJump = true)
    (htarget : ∀ t, i.target? = some t → w.Follows t.linear ∨ w.Records i.linear)
    (hnone : i.target? = none → w.Records i.linear ∨ w.Awaits i.linear) : w.Settled i := by
  refine ⟨?_, fun _ => htarget, fun _ => hnone, ?_⟩
  · intro hm
    rw [Mnemonic.isConditionalBranch_of_isJump hj] at hm
    cases hm
  · intro hm
    exact absurd hm (Mnemonic.ne_switch_of_isJump hj)

/-- A conditional branch is settled if it is followed. -/
theorem settled_of_isConditionalBranch {i : Instruction}
    (hb : i.mnemonic.isConditionalBranch = true)
    (htarget : ∀ t, i.target? = some t → w.Follows t.linear) : w.Settled i := by
  have hnojump : ¬ i.mnemonic.isJump = true := by
    rw [Mnemonic.isJump_of_isConditionalBranch hb]
    exact Bool.false_ne_true
  refine ⟨fun _ => htarget, fun hm => absurd hm hnojump, fun hm => absurd hm hnojump, ?_⟩
  intro hm
  exact absurd hm (Mnemonic.ne_switch_of_isConditionalBranch hb)

/-! ### Moves that decode nothing -/

/-- A walk stays sound while nothing is decoded, transfers and records are only added, and
    dispatches are only taken away to be recorded. -/
theorem Sound.frame (h : Sound r w) (hd : w'.decoded = w.decoded)
    (hb : w.branches ⊆ w'.branches) (hu : w.unresolved ⊆ w'.unresolved)
    (hx : w'.exits = w.exits) (hfew : ∀ k, w'.Awaits k → w.Awaits k)
    (hmany : ∀ {k : Nat} {i}, w.decoded[k]? = some i → w.Awaits k → w'.Records k ∨ w'.Awaits k) :
    Sound r w' where
  linear hk := h.linear (hd ▸ hk)
  provided hk := h.provided (hd ▸ hk)
  settled hk := by
    rw [hd] at hk
    refine (h.settled hk).mono hb hu ?_
    rw [h.linear hk]
    exact hmany hk
  exits hk := by
    rw [hx] at hk
    rw [hd]
    exact h.exits hk
  awaited hk := hd ▸ h.awaited (hfew _ hk)
  lasting hk := hx ▸ h.lasting (hfew _ hk)

/-- A dispatch that is refused is recorded, and that is what was owed to it. -/
theorem Sound.refuse {linear : Nat} {dispatches : List Nat} {jump : Instruction}
    (h : Sound r w) (hds : w.dispatches = linear :: dispatches)
    (hj : w.decoded[linear]? = some jump) (reason : UnresolvedReason) :
    Sound r { w with dispatches, unresolved := ⟨jump.address, reason⟩ :: w.unresolved } := by
  refine h.frame rfl (fun _ hs => hs) (List.subset_cons_self _ _) rfl ?_ ?_
  · rintro k (hk | hk)
    · exact .inl hk
    · exact .inr (hds ▸ List.mem_cons_of_mem _ hk)
  · rintro k i - (hk | hk)
    · exact .inr (.inl hk)
    · rw [hds, List.mem_cons] at hk
      rcases hk with rfl | hk
      · exact .inl ⟨_, List.mem_cons_self, h.linear hj⟩
      · exact .inr (.inr hk)

/-! ### Moves that decode an instruction -/

namespace Decodes

variable {c : Cursor} {i : Instruction}

theorem linear (h : Decodes r w c i) : i.linear = c.address.linear :=
  congrArg Address.linear (Routine.address_of_decodeAt h.decodeAt)

/-- What is decoded afterwards: the new instruction, and what was there before. -/
theorem getElem?_insert (h : Decodes r w c i) (k : Nat) :
    (w.decoded.insert c.address.linear i)[k]? =
      if i.linear = k then some i else w.decoded[k]? := by
  rw [AddressMap.getElem?_insert, h.linear]

/-- The place is new, so an instruction decoded before is elsewhere. -/
theorem linear_ne (h : Decodes r w c i) {k : Nat} {j : Instruction}
    (hj : w.decoded[k]? = some j) : i.linear ≠ k := by
  rintro rfl
  have hnew := h.new
  rw [← h.linear, Bool.eq_false_iff] at hnew
  exact hnew ((AddressMap.contains_iff_exists _ _).2 ⟨j, hj⟩)

/-- What was decoded before stays, at the place where it was. -/
theorem kept (h : Decodes r w c i) {k : Nat} {j : Instruction} (hj : w.decoded[k]? = some j) :
    (w.decoded.insert c.address.linear i)[k]? = some j := by
  rw [h.getElem?_insert, if_neg (h.linear_ne hj), hj]

end Decodes

/-- A walk stays sound when an instruction is decoded, if what is owed to it is done. The kinds of
    transfer differ in nothing but these conditions. -/
theorem Sound.decode {c : Cursor} {i : Instruction} (h : Sound r w) (hdec : Decodes r w c i)
    (hd : w'.decoded = w.decoded.insert c.address.linear i)
    (hb : w.branches ⊆ w'.branches) (hu : w.unresolved ⊆ w'.unresolved)
    (hx : ∀ {k : Nat}, w'.exits.contains k = true →
      w.exits.contains k = true ∨ k = i.linear ∧ i.mnemonic = .int)
    (hmany : ∀ k, w.Awaits k → w'.Awaits k)
    (hfew : ∀ k, w'.Awaits k → w.Awaits k ∨ k = i.linear ∧ w'.exits = w.exits)
    (hs : w'.Settled i) : Sound r w' := by
  have hlookup (k : Nat) :
      w'.decoded[k]? = if i.linear = k then some i else w.decoded[k]? := by
    rw [hd, hdec.getElem?_insert]
  have hold {k : Nat} {j} (hj : w.decoded[k]? = some j) : i.linear ≠ k := hdec.linear_ne hj
  have hkept {k : Nat} {j} (hj : w.decoded[k]? = some j) : w'.decoded[k]? = some j :=
    hd ▸ hdec.kept hj
  -- What is decoded afterwards is the new instruction, or was there before.
  have hcases {k : Nat} {j} (hj : w'.decoded[k]? = some j) :
      (i.linear = k ∧ i = j) ∨ w.decoded[k]? = some j := by
    rw [hlookup] at hj
    split at hj
    · rename_i hk
      exact .inl ⟨hk, Option.some.inj hj⟩
    · exact .inr hj
  refine ⟨?_, ?_, ?_, ?_, ?_, ?_⟩
  · intro k j hj
    rcases hcases hj with ⟨hk, rfl⟩ | hj
    · exact hk
    · exact h.linear hj
  · intro k j hj
    rcases hcases hj with ⟨-, rfl⟩ | hj
    · exact Routine.provides_of_decodeAt hdec.decodeAt
    · exact h.provided hj
  · intro k j hj
    rcases hcases hj with ⟨-, rfl⟩ | hj
    · exact hs
    · exact (h.settled hj).mono hb hu fun ha => .inr (hmany _ ha)
  · -- An exit is an old one, or the interrupt that was just decoded.
    intro k hk
    rcases hx hk with hk | ⟨rfl, hm⟩
    · obtain ⟨j, hj, hm⟩ := h.exits hk
      exact ⟨j, hkept hj, hm⟩
    · exact ⟨i, by rw [hlookup, if_pos rfl], .inl hm⟩
  · intro k hk
    rcases hfew k hk with hk | ⟨rfl, -⟩
    · obtain ⟨j, hj⟩ := h.awaited hk
      exact ⟨j, hkept hj⟩
    · exact ⟨i, by rw [hlookup, if_pos rfl]⟩
  · intro k hk
    -- No place that waits is an exit, and the new one is at most one of the two.
    rw [Bool.eq_false_iff]
    intro hexit
    rcases hfew k hk with hk | ⟨rfl, hsame⟩
    · obtain ⟨j, hj⟩ := h.awaited hk
      rcases hx hexit with hexit | ⟨rfl, -⟩
      · rw [h.lasting hk] at hexit
        cases hexit
      · exact hold hj rfl
    · rw [hsame] at hexit
      obtain ⟨j, hj, -⟩ := h.exits hexit
      exact hold hj rfl

theorem follows_follow (source : Nat) (target : Address) (ah : Option UInt8) :
    (w.follow source target ah).Follows target.linear :=
  ⟨source, List.mem_cons_self⟩

/-- Decoding an instruction and going on behind it does what is owed to it, one case for each kind
    of transfer. -/
theorem Sound.onward {c : Cursor} {i : Instruction} {ah : Option UInt8} (h : Sound r w)
    (hdec : Decodes r w c i)
    (ho : Onward r { w with decoded := w.decoded.insert c.address.linear i } i ah w') :
    Sound r w' := by
  have hswitch : i.mnemonic ≠ .switch := Routine.ne_switch_of_decodeAt hdec.decodeAt
  have hprovides : r.Provides i := Routine.provides_of_decodeAt hdec.decodeAt
  -- Nothing but the cursor, the callees and the new instruction changes.
  have hplain (w' : Walk) (hd : w'.decoded = w.decoded.insert c.address.linear i)
      (hb : w'.branches = w.branches) (hu : w'.unresolved = w.unresolved)
      (hx : w'.exits = w.exits) (ha : ∀ k, w'.Awaits k ↔ w.Awaits k)
      (hm : i.mnemonic.isJump = false ∧ i.mnemonic.isConditionalBranch = false) : Sound r w' := by
    refine h.decode hdec hd (hb ▸ fun _ hs => hs) (hu ▸ fun _ hs => hs) ?_ ?_ ?_ ?_
    · exact fun hk => .inl (hx ▸ hk)
    · exact fun k hk => (ha k).2 hk
    · exact fun k hk => .inl ((ha k).1 hk)
    · exact settled_of_plain hm.1 hm.2 hswitch
  cases ho with
  | dispatch hj ht =>
    refine h.decode hdec rfl (fun _ hs => hs) (fun _ hs => hs) .inl ?_ ?_ ?_
    · rintro k (hk | hk)
      · left
        rw [Worklist.toList_push]
        exact List.mem_append_left _ hk
      · exact .inr hk
    · rintro k (hk | hk)
      · rw [Worklist.toList_push, List.mem_append, List.mem_singleton] at hk
        exact hk.imp .inl fun hk => ⟨hk, rfl⟩
      · exact .inl (.inr hk)
    · refine settled_of_isJump hj (fun t ht' => ?_) fun _ => .inr (.inl ?_)
      · rw [ht] at ht'
        cases ht'
      · rw [Worklist.toList_push]
        exact List.mem_append_right _ List.mem_cons_self
  | @leave t hj ht hx =>
    refine h.decode hdec rfl (fun _ hs => hs) (List.subset_cons_self _ _) .inl (fun _ hk => hk)
      (fun _ hk => .inl hk) ?_
    have hrecord : Records { w with
        cursor := none, decoded := w.decoded.insert c.address.linear i,
        unresolved := ⟨i.address, .externalTarget⟩ :: w.unresolved } i.linear :=
      ⟨_, List.mem_cons_self, rfl⟩
    exact settled_of_isJump hj (fun _ _ => .inr hrecord) fun _ => .inl hrecord
  | @jump t hj ht hx =>
    refine h.decode hdec rfl (List.subset_cons_self _ _) (fun _ hs => hs) .inl (fun _ hk => hk)
      (fun _ hk => .inl hk) ?_
    refine settled_of_isJump hj (fun t' ht' => ?_) fun ht' => ?_
    · rw [ht] at ht'
      cases ht'
      exact .inl (follows_follow ..)
    · rw [ht] at ht'
      cases ht'
  | @branch t hbr ht =>
    refine h.decode hdec rfl (List.subset_cons_self _ _) (fun _ hs => hs) .inl (fun _ hk => hk)
      (fun _ hk => .inl hk) ?_
    refine settled_of_isConditionalBranch hbr fun t' ht' => ?_
    rw [ht] at ht'
    cases ht'
    exact follows_follow ..
  | blind hbr ht =>
    -- Every conditional branch of the image names its target.
    obtain ⟨t, ht'⟩ := hprovides.target? hbr
    rw [ht] at ht'
    cases ht'
  | «return» hr =>
    exact hplain _ rfl rfl rfl rfl (fun _ => Iff.rfl) (Mnemonic.plain_of_isReturn hr)
  | exit hx =>
    have hint := Routine.int_of_isExit hx
    refine h.decode hdec rfl (fun _ hs => hs) (fun _ hs => hs) ?_ (fun _ hk => hk)
      (fun _ hk => .inl hk) ?_
    · intro k hk
      rw [Std.ExtTreeSet.contains_insert, Bool.or_eq_true, beq_iff_eq, Nat.compare_eq_eq] at hk
      exact hk.symm.imp id fun hk => ⟨hk.symm, hint⟩
    · exact settled_of_plain (by rw [hint]; rfl) (by rw [hint]; rfl) hswitch
  | call hc ht hx =>
    exact hplain _ rfl rfl rfl rfl (fun _ => Iff.rfl) (Mnemonic.plain_of_isCall hc)
  | plain hj hb hr hx => exact hplain _ rfl rfl rfl rfl (fun _ => Iff.rfl) ⟨hj, hb⟩

/-! ### Moves that recover a switch -/

/-- Folding makes a `nop` of each instruction at the listed places, and leaves the others. -/
theorem getElem?_foldl_neutralized (folded : List Nat) (m : AddressMap Instruction) (k : Nat) :
    (folded.foldl (fun m a => m.modify a Instruction.neutralized) m)[k]? =
      if k ∈ folded then m[k]?.map Instruction.neutralized else m[k]? := by
  induction folded generalizing m with
  | nil => simp
  | cons a folded ih =>
    rw [List.foldl_cons, ih, AddressMap.getElem?_modify]
    by_cases hk : a = k
    · subst hk
      simp only [if_true, List.mem_cons, true_or, Option.map_map]
      split
      · rfl
      · rfl
    · have hmem : k ∈ a :: folded ↔ k ∈ folded := by
        simp [List.mem_cons, Ne.symm hk]
      simp only [hk, if_false, hmem]

/-- What a recovered switch leaves of an instruction: the switch itself, a `nop`, or the
    instruction as it was. -/
theorem cases_of_putSwitch {m : AddressMap Instruction} {linear k : Nat} {switch i : Instruction}
    {folded : List Nat} (h : (putSwitch m linear switch folded)[k]? = some i) :
    (∃ j, m[k]? = some j ∧ linear = k ∧ i = switch) ∨
      (∃ j, (m[k]? = some j ∨ linear = k ∧ j = switch) ∧ i = j.neutralized) ∨
      (linear ≠ k ∧ m[k]? = some i) := by
  rw [putSwitch, getElem?_foldl_neutralized, AddressMap.getElem?_modify] at h
  by_cases hk : linear = k
  · simp only [hk, if_true] at h
    split at h
    · simp only [Option.map_map, Option.map_eq_some_iff] at h
      obtain ⟨j, -, rfl⟩ := h
      exact .inr (.inl ⟨switch, .inr ⟨hk, rfl⟩, rfl⟩)
    · rw [Option.map_eq_some_iff] at h
      obtain ⟨j, hj, rfl⟩ := h
      exact .inl ⟨j, hj, hk, rfl⟩
  · simp only [hk, if_false] at h
    split at h
    · rw [Option.map_eq_some_iff] at h
      obtain ⟨j, hj, rfl⟩ := h
      exact .inr (.inl ⟨j, .inl hj, rfl⟩)
    · exact .inr (.inr ⟨hk, h⟩)

/-- A recovered switch takes no instruction away, it only changes some of them. -/
theorem exists_of_putSwitch {m : AddressMap Instruction} {k : Nat} {i : Instruction}
    (h : m[k]? = some i) (linear : Nat) (switch : Instruction) (folded : List Nat) :
    ∃ j, (putSwitch m linear switch folded)[k]? = some j := by
  rw [putSwitch, getElem?_foldl_neutralized, AddressMap.getElem?_modify, h]
  split <;> split <;> exact ⟨_, rfl⟩

theorem recovered_neutralized (i : Instruction) : i.neutralized.Recovered := .nop rfl rfl

/-- The entries of a recovered switch. -/
def tableCases (jump : Instruction) (words : List UInt16) : List SwitchCase :=
  words.zipIdx.map fun (word, value) => ⟨UInt16.ofNat value, (word - jump.next.off).toInt16⟩

theorem operands_switchOf (jump : Instruction) (index : Register) (words : List UInt16) :
    (switchOf jump index words).operands =
      .register index :: (tableCases jump words).map .case := by
  simp only [switchOf, Instruction.withOperation, tableCases, List.map_map]
  rfl

theorem recovered_switchOf (jump : Instruction) (index : Register) (words : List UInt16) :
    (switchOf jump index words).Recovered :=
  .switch index _ rfl (operands_switchOf jump index words)

theorem cases_switchOf (jump : Instruction) (index : Register) (words : List UInt16) :
    (switchOf jump index words).cases = tableCases jump words := by
  rw [Instruction.cases, operands_switchOf, List.filterMap_cons]
  simp only [Operand.case?, List.filterMap_map]
  exact List.filterMap_some

/-- The displacement of an entry leads to its word: it is counted from behind the jump, and wraps
    around in the segment as the address does. -/
theorem caseTarget_word (jump : Instruction) (index : Register) (words : List UInt16)
    (word value : UInt16) :
    (switchOf jump index words).caseTarget ⟨value, (word - jump.next.off).toInt16⟩ =
      ⟨jump.address.seg, word⟩ := by
  show (⟨jump.address.seg, jump.next.off + (word - jump.next.off).toInt16.toUInt16⟩ : Address) = _
  rw [UInt16.toUInt16_toInt16, UInt16.add_comm, UInt16.sub_add_cancel]

/-- Each entry of a recovered switch leads to the word of the table it stands for. -/
theorem caseTarget_switchOf {jump : Instruction} {index : Register} {words : List UInt16}
    {c : SwitchCase} (hc : c ∈ (switchOf jump index words).cases) :
    ∃ word ∈ words, (switchOf jump index words).caseTarget c = ⟨jump.address.seg, word⟩ := by
  rw [cases_switchOf, tableCases, List.mem_map] at hc
  obtain ⟨⟨word, value⟩, hmem, rfl⟩ := hc
  exact ⟨word, (List.mem_zipIdx' hmem).2 ▸ List.getElem_mem _, caseTarget_word ..⟩

/-- A recovered switch is settled if the words of its table are followed. -/
theorem settled_switchOf {jump : Instruction} {index : Register} {words : List UInt16}
    (h : ∀ word ∈ words, w.Follows (Address.mk jump.address.seg word).linear) :
    w.Settled (switchOf jump index words) := by
  obtain ⟨hnojump, hnobranch⟩ := (recovered_switchOf jump index words).not_transfer
  rw [← Bool.not_eq_true] at hnojump hnobranch
  refine ⟨fun hm => absurd hm hnobranch, fun hm => absurd hm hnojump,
    fun hm => absurd hm hnojump, ?_⟩
  intro _ c hc
  obtain ⟨word, hword, htarget⟩ := caseTarget_switchOf hc
  rw [htarget]
  exact h word hword

/-- With a recovered switch, every instruction is still at its place and from the image. -/
theorem provides_of_putSwitch {m : AddressMap Instruction} {linear k : Nat}
    {switch i : Instruction} {folded : List Nat}
    (hm : ∀ {k : Nat} {j}, m[k]? = some j → j.linear = k ∧ r.Provides j)
    (hs : switch.linear = linear ∧ r.Provides switch)
    (h : (putSwitch m linear switch folded)[k]? = some i) : i.linear = k ∧ r.Provides i := by
  have hneutral {j : Instruction} (hj : j.linear = k ∧ r.Provides j) :
      j.neutralized.linear = k ∧ r.Provides j.neutralized :=
    ⟨hj.1, hj.2.recovered rfl rfl (recovered_neutralized j)⟩
  rcases cases_of_putSwitch h with ⟨-, -, rfl, rfl⟩ | ⟨j, hj | ⟨rfl, rfl⟩, rfl⟩ | ⟨-, hk⟩
  · exact hs
  · exact hneutral (hm hj)
  · exact hneutral hs
  · exact hm hk

/-- Following the cases of a switch changes nothing but the transfers, the places to decode and what
    is known there. The induction is on the words of the table. -/
theorem withSwitch_frame (w : Walk) (jump : Instruction) (m : SwitchMatch) (words : List UInt16) :
    (w.withSwitch jump m words).decoded =
        putSwitch w.decoded jump.linear (switchOf jump m.index words) m.folded ∧
      (w.withSwitch jump m words).cursor = w.cursor ∧
      (w.withSwitch jump m words).dispatches = w.dispatches ∧
      (w.withSwitch jump m words).pending = w.pending ∧
      (w.withSwitch jump m words).exits = w.exits ∧
      (w.withSwitch jump m words).unresolved = w.unresolved := by
  have hfold (ws : List UInt16) (w : Walk) :
      let w' := ws.foldl (fun w word => w.follow jump.linear ⟨jump.address.seg, word⟩ none) w
      w'.decoded = w.decoded ∧ w'.cursor = w.cursor ∧ w'.dispatches = w.dispatches ∧
        w'.pending = w.pending ∧ w'.exits = w.exits ∧ w'.unresolved = w.unresolved := by
    induction ws generalizing w with
    | nil => exact ⟨rfl, rfl, rfl, rfl, rfl, rfl⟩
    | cons word ws ih => exact ih (w.follow jump.linear ⟨jump.address.seg, word⟩ none)
  exact hfold words _

/-- Every case of a switch is followed, and what was followed before still is. -/
theorem branches_withSwitch (w : Walk) (jump : Instruction) (m : SwitchMatch)
    (words : List UInt16) :
    w.branches ⊆ (w.withSwitch jump m words).branches ∧
      ∀ word ∈ words, (w.withSwitch jump m words).Follows
        (Address.mk jump.address.seg word).linear := by
  have hfold (ws : List UInt16) (w : Walk) :
      let w' := ws.foldl (fun w word => w.follow jump.linear ⟨jump.address.seg, word⟩ none) w
      w.branches ⊆ w'.branches ∧
        ∀ word ∈ ws, w'.Follows (Address.mk jump.address.seg word).linear := by
    induction ws generalizing w with
    | nil => exact ⟨fun _ hs => hs, fun _ hw => absurd hw List.not_mem_nil⟩
    | cons word ws ih =>
      obtain ⟨hkept, hfollows⟩ := ih (w.follow jump.linear ⟨jump.address.seg, word⟩ none)
      refine ⟨fun s hs => hkept (List.mem_cons_of_mem _ hs), fun word' hw => ?_⟩
      rcases List.mem_cons.1 hw with rfl | hw
      · exact ⟨jump.linear, hkept List.mem_cons_self⟩
      · exact hfollows word' hw
  exact hfold words { w with
    decoded := putSwitch w.decoded jump.linear (switchOf jump m.index words) m.folded }

/-- A walk stays sound when a dispatch turns out to be a switch, for the jump that waited is gone,
    and its cases are followed. -/
theorem Sound.recover {linear : Nat} {dispatches : List Nat} {jump : Instruction}
    (h : Sound r w) (hds : w.dispatches = linear :: dispatches)
    (hj : w.decoded[linear]? = some jump) (m : SwitchMatch) (words : List UInt16) :
    Sound r ({ w with dispatches }.withSwitch jump m words) := by
  obtain ⟨hd, -, hdisp, hpend, hx, hu⟩ := withSwitch_frame { w with dispatches } jump m words
  obtain ⟨hb, hfollows⟩ := branches_withSwitch { w with dispatches } jump m words
  generalize { w with dispatches }.withSwitch jump m words = w' at *
  have hjl : jump.linear = linear := h.linear hj
  have hprovides {k : Nat} {i : Instruction} (hk : w'.decoded[k]? = some i) :
      i.linear = k ∧ r.Provides i := by
    have hswitch : (switchOf jump m.index words).linear = jump.linear ∧
        r.Provides (switchOf jump m.index words) :=
      ⟨rfl, (h.provided hj).recovered rfl rfl (recovered_switchOf jump m.index words)⟩
    rw [hd] at hk
    exact provides_of_putSwitch (fun hj' => ⟨h.linear hj', h.provided hj'⟩) hswitch hk
  -- Only the jump itself is taken from the dispatches.
  have hfew (k : Nat) (hk : w'.Awaits k) : w.Awaits k := by
    rcases hk with hk | hk
    · rw [hpend] at hk
      exact .inl hk
    · rw [hdisp] at hk
      exact .inr (hds ▸ List.mem_cons_of_mem _ hk)
  have hmany (k : Nat) (hne : linear ≠ k) (hk : w.Awaits k) : w'.Awaits k := by
    rcases hk with hk | hk
    · exact .inl (hpend ▸ hk)
    · rw [hds, List.mem_cons] at hk
      exact .inr (hdisp ▸ hk.resolve_left hne.symm)
  -- From here on the switch is known by its place.
  rw [hjl] at hd
  refine ⟨fun hk => (hprovides hk).1, fun hk => (hprovides hk).2, ?_, ?_, ?_, ?_⟩
  · intro k i hk
    rw [hd] at hk
    rcases cases_of_putSwitch hk with ⟨-, -, rfl, rfl⟩ | ⟨j, -, rfl⟩ | ⟨hne, hk⟩
    · -- The switch itself, what is folded, and all the rest.
      exact settled_switchOf hfollows
    · exact settled_of_plain rfl rfl (fun hm => by cases hm)
    · refine (h.settled hk).mono hb (hu ▸ fun _ hs => hs) fun ha => .inr (hmany _ ?_ ha)
      rw [h.linear hk]
      exact hne
  · intro k hk
    rw [hx] at hk
    obtain ⟨i, hi, hm⟩ := h.exits hk
    obtain ⟨j, hj'⟩ :=
      exists_of_putSwitch hi linear (switchOf jump m.index words) m.folded
    refine ⟨j, hd ▸ hj', ?_⟩
    rcases cases_of_putSwitch hj' with ⟨-, -, rfl, -⟩ | ⟨-, -, rfl⟩ | ⟨-, hk'⟩
    · -- A dispatch that waits ends no process.
      have hlasting := h.lasting (k := linear) (.inr (hds ▸ List.mem_cons_self))
      rw [hlasting] at hk
      cases hk
    · exact .inr rfl
    · rw [hi] at hk'
      cases hk'
      exact hm
  · intro k hk
    obtain ⟨i, hi⟩ := h.awaited (hfew k hk)
    exact hd ▸ exists_of_putSwitch hi ..
  · intro k hk
    rw [hx]
    exact h.lasting (hfew k hk)

/-! ### Whole walks -/

/-- **Every move keeps a walk sound.** Moves that decode nothing are covered by `Sound.frame`. -/
theorem sound_of_move (h : Sound r w) (hm : Move r w w') : Sound r w' := by
  cases hm with
  | stop hc hwhy =>
    exact h.frame rfl (fun _ hs => hs) (fun _ hs => hs) rfl (fun _ hk => hk) fun _ hk => .inr hk
  | decode hd ho => exact h.onward hd ho
  | @vanish linear dispatches hc hds hj =>
    -- Every dispatch that waits is decoded, so none vanishes.
    obtain ⟨i, hi⟩ := h.awaited (k := linear) (.inr (hds ▸ List.mem_cons_self))
    rw [hj] at hi
    cases hi
  | refuse hc hds hj hm => exact h.refuse hds hj _
  | recover hc hds hj hm hcount hwords => exact h.recover hds hj _ _
  | start hc hds hq =>
    exact h.frame rfl (fun _ hs => hs) (fun _ hs => hs) rfl (fun _ hk => hk) fun _ hk => .inr hk
  | turn hc hds hq =>
    refine h.frame rfl (fun _ hs => hs) (fun _ hs => hs) rfl ?_ ?_
    · rintro k (hk | hk)
      · exact absurd hk List.not_mem_nil
      · exact .inl hk
    · rintro k i - (hk | hk)
      · exact .inr (.inr hk)
      · rw [hds] at hk
        exact absurd hk List.not_mem_nil

/-- A walk that has decoded nothing yet owes nothing. -/
theorem sound_start (r : Routine) : Sound r { queue := Worklist.push {} r.entry } := by
  have hnone {k : Nat} {i : Instruction} (hk : (∅ : AddressMap Instruction)[k]? = some i) :
      False := by
    rw [Std.ExtTreeMap.getElem?_empty] at hk
    cases hk
  have hidle {k : Nat} : ¬ Awaits { queue := Worklist.push {} r.entry } k := by
    rintro (hk | hk) <;> exact absurd hk List.not_mem_nil
  refine ⟨fun hk => (hnone hk).elim, fun hk => (hnone hk).elim, fun hk => (hnone hk).elim, ?_,
    fun hk => absurd hk hidle, fun hk => absurd hk hidle⟩
  intro k hk
  rw [Std.ExtTreeSet.contains_empty] at hk
  cases hk

/-- Nothing is left to do at the end of a walk. -/
theorem done_of_step? (h : w.step? r = none) :
    w.cursor = none ∧ w.dispatches = [] ∧ w.queue.pop? = none ∧ w.pending.toList = [] := by
  unfold step? at h
  split at h
  · cases h
  · rename_i hc
    split at h
    · cases h
    · rename_i hds
      split at h
      · cases h
      · rename_i hq
        split at h
        · rename_i hp
          exact ⟨hc, hds, hq, hp⟩
        · cases h

/-- The walk of a function runs from its entry, which is in the image. -/
theorem run_of_walk (h : r.walk = .ok w) :
    r.image.contains r.entry.linear = true ∧
      run r { queue := Worklist.push {} r.entry } = .ok w := by
  unfold Routine.walk at h
  split at h
  · rename_i hin
    exact ⟨hin, h⟩
  · cases h

/-- **A finished walk is sound**, and no dispatch waits any more. -/
theorem sound_of_walk (h : r.walk = .ok w) : Sound r w ∧ ∀ k, ¬ w.Awaits k := by
  obtain ⟨hsound, hdone⟩ := run_induction sound_of_move (sound_start r) (run_of_walk h).2
  refine ⟨hsound, ?_⟩
  obtain ⟨-, hds, -, hp⟩ := done_of_step? hdone
  rintro k (hk | hk)
  · rw [hp] at hk
    exact absurd hk List.not_mem_nil
  · rw [hds] at hk
    exact absurd hk List.not_mem_nil

end RealMode.Walk
