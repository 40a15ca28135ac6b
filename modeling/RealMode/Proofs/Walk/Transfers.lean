import Mathlib.Data.List.Nodup
import Mathlib.Data.Option.Basic
import RealMode.Proofs.Recognition
import RealMode.Proofs.Walk.Entry

namespace RealMode

open Dispatch

/-!
# What a walk follows is what its instructions say

* `Instruction.transfers` — the places that an instruction sends control to, other than the
  one behind it;
* `SwitchTemplate.FoldStraight` — templates that fold only instructions which lead straight
  on, as the standard ones do (`foldStraight_standard`);
* `Walk.Exact` — the followed transfers are exactly those of the decoded instructions, the
  labels are exactly their targets, and each jump that is not followed is recorded once;
* `exact_of_move` — every move keeps that, `exact_of_walk` — so it holds at the end.
-/

/-- The places that an instruction sends control to, other than the one behind it. A call
    comes back, so it sends control nowhere. -/
def Instruction.transfers (i : Instruction) : List Nat :=
  if i.mnemonic = .switch then i.cases.map fun c => (i.caseTarget c).linear
  else if i.mnemonic.isJump || i.mnemonic.isConditionalBranch then
    (i.target?.map Address.linear).toList
  else []

/-- The instruction leads to the one behind it and nowhere else. -/
structure Instruction.IsStraight (i : Instruction) : Prop where
  jump : i.mnemonic.isJump = false
  branch : i.mnemonic.isConditionalBranch = false
  ret : i.mnemonic.isReturn = false
  switch : i.mnemonic ≠ .switch
  int : i.mnemonic ≠ .int

namespace Instruction

variable {i : Instruction}

theorem transfers_of_plain (hj : i.mnemonic.isJump = false)
    (hb : i.mnemonic.isConditionalBranch = false) (hs : i.mnemonic ≠ .switch) :
    i.transfers = [] := by
  simp [transfers, hj, hb, hs]

theorem transfers_of_target?
    (h : i.mnemonic.isJump = true ∨ i.mnemonic.isConditionalBranch = true) :
    i.transfers = (i.target?.map Address.linear).toList := by
  have hs : i.mnemonic ≠ .switch := by
    rcases h with h | h
    · exact Mnemonic.ne_switch_of_isJump h
    · exact Mnemonic.ne_switch_of_isConditionalBranch h
  rw [transfers, if_neg hs, if_pos (by simpa using h)]

theorem transfers_of_target?_eq_none
    (h : i.mnemonic.isJump = true ∨ i.mnemonic.isConditionalBranch = true)
    (ht : i.target? = none) : i.transfers = [] := by
  rw [transfers_of_target? h, ht]
  rfl

theorem transfers_of_target?_eq_some {t : Address}
    (h : i.mnemonic.isJump = true ∨ i.mnemonic.isConditionalBranch = true)
    (ht : i.target? = some t) : i.transfers = [t.linear] := by
  rw [transfers_of_target? h, ht]
  rfl

theorem transfers_neutralized (i : Instruction) : i.neutralized.transfers = [] :=
  transfers_of_plain rfl rfl fun hm => by cases hm

end Instruction

/-! ### What the standard templates fold -/

namespace SwitchTemplate

/-- The templates fold only instructions of the window that lead straight on. -/
def FoldStraight (templates : List SwitchTemplate) : Prop :=
  ∀ {window : List Instruction} {m : SwitchMatch}, firstMatch? templates window = some m →
    ∀ a ∈ m.folded, ∃ i ∈ window, i.linear = a ∧ i.IsStraight

/-- The standard templates fold an `add` and an `xchg` of the window. -/
theorem folded_of_standard {window : List Instruction} {m : SwitchMatch}
    (h : firstMatch? standard window = some m) {a : Nat} (ha : a ∈ m.folded) :
    ∃ i ∈ window, i.linear = a ∧ (i.mnemonic = .add ∨ i.mnemonic = .xchg) := by
  obtain ⟨compare, guard, add, xchg, jump, hrec, hsubset, -⟩ := recognized_of_firstMatch? h
  obtain ⟨base, place, hscaled, -⟩ := exists_scaled hrec.scaled
  rw [hrec.folded, List.mem_cons, List.mem_singleton] at ha
  rcases ha with rfl | rfl
  · exact ⟨add, hsubset (by simp), rfl, .inl hscaled.add.1⟩
  · exact ⟨xchg, hsubset (by simp), rfl, .inr hscaled.xchg.1⟩

/-- **The standard templates fold only instructions that lead straight on**: an `add` and an `xchg`,
    and both are in the window. -/
theorem foldStraight_standard : FoldStraight standard := by
  intro window m h a ha
  obtain ⟨i, hi, hlinear, hm⟩ := folded_of_standard h ha
  refine ⟨i, hi, hlinear, ?_⟩
  rcases hm with hm | hm <;> constructor <;> rw [hm] <;> decide

end SwitchTemplate

/-! ### The transfers of a walk -/

namespace Walk

variable {r : Routine} {w w' : Walk}

/-- The followed transfers are those of the decoded instructions, the labels are their
    targets, and each jump that is not followed is recorded once, as soon as it is recovered
    no more. -/
structure Exact (w : Walk) : Prop where
  followed : ∀ s t : Nat, (s, t) ∈ w.branches ↔
    ∃ i, w.decoded[s]? = some i ∧ t ∈ i.transfers ∧ ¬ w.Records s
  targets : ∀ t : Nat, w.targets.contains t = true ↔ w.Follows t
  recorded : ∀ {k : Nat}, w.Records k → ∃ i, w.decoded[k]? = some i ∧ i.mnemonic.isJump = true
  once : (w.unresolved.map Unresolved.linear).Nodup
  awaited : ∀ {k : Nat}, w.Awaits k → ¬ w.Records k ∧
    ∃ i, w.decoded[k]? = some i ∧ i.mnemonic.isJump = true ∧ i.target? = none
  order : (w.dispatches ++ w.pending.toList).Nodup

theorem records_iff_mem (k : Nat) : w.Records k ↔ k ∈ w.unresolved.map Unresolved.linear := by
  simp [Records]

theorem awaits_iff_mem (k : Nat) : w.Awaits k ↔ k ∈ w.dispatches ++ w.pending.toList := by
  rw [Awaits, List.mem_append, or_comm]

theorem records_cons {u : Unresolved} (hu : w'.unresolved = u :: w.unresolved) (k : Nat) :
    w'.Records k ↔ u.linear = k ∨ w.Records k := by
  simp [Records, hu]

/-- A walk stays exact while nothing is decoded, followed or recorded. -/
theorem Exact.frame (h : Exact w) (hd : w'.decoded = w.decoded) (hb : w'.branches = w.branches)
    (ht : w'.targets = w.targets) (hu : w'.unresolved = w.unresolved)
    (ho : w'.dispatches ++ w'.pending.toList = w.dispatches ++ w.pending.toList) : Exact w' := by
  have hrecords (k : Nat) : w'.Records k ↔ w.Records k := by rw [Records, Records, hu]
  have hawaits (k : Nat) : w'.Awaits k ↔ w.Awaits k := by
    rw [awaits_iff_mem, awaits_iff_mem, ho]
  refine ⟨?_, ?_, ?_, ?_, ?_, ?_⟩
  · intro s t
    rw [hb, hd, hrecords]
    exact h.followed s t
  · intro t
    rw [ht, Follows, hb]
    exact h.targets t
  · intro k hk
    rw [hd]
    exact h.recorded ((hrecords k).1 hk)
  · rw [hu]
    exact h.once
  · intro k hk
    rw [hd, hrecords]
    exact h.awaited ((hawaits k).1 hk)
  · rw [ho]
    exact h.order

/-- Labels and followed transfers stay in step when transfers of one source are added to both. -/
theorem Exact.targets_iff (h : Exact w) {source : Nat} {T : Nat → Prop}
    (hb : ∀ s t, (s, t) ∈ w'.branches ↔ (s, t) ∈ w.branches ∨ s = source ∧ T t)
    (ht : ∀ t, w'.targets.contains t = true ↔ w.targets.contains t = true ∨ T t) (t : Nat) :
    w'.targets.contains t = true ↔ w'.Follows t := by
  rw [ht, h.targets, Follows, Follows]
  simp only [hb]
  constructor
  · rintro (⟨s, hs⟩ | hnew)
    · exact ⟨s, .inl hs⟩
    · exact ⟨source, .inr ⟨rfl, hnew⟩⟩
  · rintro ⟨s, hs | ⟨-, hnew⟩⟩
    · exact .inl ⟨s, hs⟩
    · exact .inr hnew

/-! ### The next dispatch -/

section Dispatch

variable {linear : Nat} {dispatches : List Nat} {jump : Instruction} (h : Exact w)
  (hds : w.dispatches = linear :: dispatches)
include h hds

/-- The next dispatch is a jump without a target that is not recorded. -/
theorem Exact.next_dispatch (hj : w.decoded[linear]? = some jump) :
    ¬ w.Records linear ∧ jump.mnemonic.isJump = true ∧ jump.transfers = [] := by
  obtain ⟨hunrecorded, i, hi, hjump, hnone⟩ :=
    h.awaited (k := linear) (.inr (hds ▸ List.mem_cons_self))
  rw [hj] at hi
  cases hi
  exact ⟨hunrecorded, hjump, Instruction.transfers_of_target?_eq_none (.inl hjump) hnone⟩

/-- Without the next dispatch, no dispatch waits twice either. -/
theorem Exact.order_rest : (dispatches ++ w.pending.toList).Nodup := by
  have horder := h.order
  rw [hds, List.cons_append, List.nodup_cons] at horder
  exact horder.2

/-- What is still to be recovered afterwards was so before, and is another dispatch. -/
theorem Exact.awaits_rest {k : Nat} (hk : w'.Awaits k) (hdisp : w'.dispatches = dispatches)
    (hpend : w'.pending = w.pending) : w.Awaits k ∧ linear ≠ k := by
  have horder := h.order
  rw [hds, List.cons_append, List.nodup_cons] at horder
  rw [awaits_iff_mem, hdisp, hpend] at hk
  refine ⟨(awaits_iff_mem k).2 (by rw [hds]; exact List.mem_cons_of_mem _ hk), ?_⟩
  rintro rfl
  exact horder.1 hk

end Dispatch

/-- A dispatch that is recorded has no transfers, so nothing that was followed is given up. -/
theorem Exact.refuse {linear : Nat} {dispatches : List Nat} {jump : Instruction} (h : Exact w)
    (hs : Sound r w) (hds : w.dispatches = linear :: dispatches)
    (hj : w.decoded[linear]? = some jump) (reason : UnresolvedReason) :
    Exact { w with dispatches, unresolved := ⟨jump.address, reason⟩ :: w.unresolved } := by
  have hlinear : jump.address.linear = linear := hs.linear hj
  obtain ⟨hunrecorded, hjump, htransfers⟩ := h.next_dispatch hds hj
  -- Records come one by one, and this one is new.
  have hrecords (k : Nat) :
      Records { w with dispatches, unresolved := ⟨jump.address, reason⟩ :: w.unresolved } k ↔
        linear = k ∨ w.Records k := by
    rw [records_cons (w := w) rfl, Unresolved.linear, hlinear]
  refine ⟨?_, h.targets, ?_, ?_, ?_, h.order_rest hds⟩
  · intro s t
    rw [h.followed s t]
    constructor
    · rintro ⟨i, hi, ht, hnot⟩
      refine ⟨i, hi, ht, fun hrec => ?_⟩
      rcases (hrecords s).1 hrec with rfl | hrec
      · rw [hj] at hi
        cases hi
        rw [htransfers] at ht
        exact absurd ht List.not_mem_nil
      · exact hnot hrec
    · rintro ⟨i, hi, ht, hnot⟩
      exact ⟨i, hi, ht, fun hrec => hnot ((hrecords s).2 (.inr hrec))⟩
  · intro k hk
    rcases (hrecords k).1 hk with rfl | hk
    · exact ⟨jump, hj, hjump⟩
    · exact h.recorded hk
  · rw [List.map_cons, List.nodup_cons]
    refine ⟨?_, h.once⟩
    rw [← records_iff_mem, Unresolved.linear, hlinear]
    exact hunrecorded
  · intro k hk
    obtain ⟨hbefore, hne⟩ := h.awaits_rest hds hk rfl rfl
    obtain ⟨hnot, hrest⟩ := h.awaited hbefore
    exact ⟨fun hrec => ((hrecords k).1 hrec).elim hne hnot, hrest⟩

/-! ### Moves that decode an instruction -/

/-- Nothing is known yet of a place where an instruction is decoded, for what is known of a place
    comes with its instruction. -/
theorem Exact.fresh {c : Cursor} {i : Instruction} (h : Exact w) (hdec : Decodes r w c i) :
    ¬ w.Records i.linear ∧ ¬ w.Awaits i.linear ∧ ∀ t, (i.linear, t) ∉ w.branches := by
  refine ⟨?_, ?_, ?_⟩
  · intro hrec
    obtain ⟨j, hj, -⟩ := h.recorded hrec
    exact hdec.linear_ne hj rfl
  · intro hwait
    obtain ⟨-, j, hj, -⟩ := h.awaited hwait
    exact hdec.linear_ne hj rfl
  · intro t ht
    obtain ⟨j, hj, -⟩ := (h.followed _ _).1 ht
    exact hdec.linear_ne hj rfl

/-- A walk stays exact when an instruction is decoded, if just its transfers are followed, and
    it is recorded or put off only if it is a jump. -/
theorem Exact.decode {c : Cursor} {i : Instruction} (h : Exact w) (hdec : Decodes r w c i)
    (hd : w'.decoded = w.decoded.insert c.address.linear i)
    (hb : ∀ s t, (s, t) ∈ w'.branches ↔
      (s, t) ∈ w.branches ∨ s = i.linear ∧ t ∈ i.transfers ∧ ¬ w'.Records i.linear)
    (ht : ∀ t, w'.targets.contains t = true ↔
      w.targets.contains t = true ∨ t ∈ i.transfers ∧ ¬ w'.Records i.linear)
    (hu : w'.unresolved = w.unresolved ∨
      ∃ u, u.linear = i.linear ∧ i.mnemonic.isJump = true ∧ w'.unresolved = u :: w.unresolved)
    (ho : w'.dispatches = w.dispatches ∧ (w'.pending.toList = w.pending.toList ∨
      w'.pending.toList = w.pending.toList ++ [i.linear] ∧ i.mnemonic.isJump = true ∧
        i.target? = none ∧ w'.unresolved = w.unresolved)) : Exact w' := by
  obtain ⟨hunrecorded, hunawaited, hunfollowed⟩ := h.fresh hdec
  have hlookup (k : Nat) :
      w'.decoded[k]? = if i.linear = k then some i else w.decoded[k]? := by
    rw [hd, hdec.getElem?_insert]
  have hkept {k : Nat} {j} (hj : w.decoded[k]? = some j) : w'.decoded[k]? = some j :=
    hd ▸ hdec.kept hj
  have hself : w'.decoded[i.linear]? = some i := by rw [hlookup, if_pos rfl]
  -- Elsewhere than at the new instruction, records are what they were.
  have hrecords {k : Nat} (hne : i.linear ≠ k) : w'.Records k ↔ w.Records k := by
    rcases hu with hu | ⟨u, hul, -, hu⟩
    · rw [Records, Records, hu]
    · rw [records_cons hu, hul]
      simp [hne]
  -- What waits afterwards waited before, or is the new instruction, put off as a dispatch.
  have hawaits {k : Nat} (hk : w'.Awaits k) : w.Awaits k ∨ k = i.linear ∧
      i.mnemonic.isJump = true ∧ i.target? = none ∧ w'.unresolved = w.unresolved := by
    rcases ho with ⟨hds, hp | ⟨hp, hrest⟩⟩
    · rw [awaits_iff_mem, hds, hp, ← awaits_iff_mem] at hk
      exact .inl hk
    · rw [awaits_iff_mem, hds, hp, ← List.append_assoc, List.mem_append, ← awaits_iff_mem,
        List.mem_singleton] at hk
      exact hk.imp_right fun hk => ⟨hk, hrest⟩
  refine ⟨?_, h.targets_iff hb ht, ?_, ?_, ?_, ?_⟩
  · intro s t
    rw [hb, hlookup]
    by_cases hs : i.linear = s
    · subst hs
      simp [hunfollowed t]
    · rw [if_neg hs, h.followed, hrecords hs]
      simp [Ne.symm hs]
  · intro k hk
    by_cases hne : i.linear = k
    · subst hne
      rcases hu with hu | ⟨u, -, hjump, -⟩
      · rw [Records, hu] at hk
        exact absurd hk hunrecorded
      · exact ⟨i, hself, hjump⟩
    · obtain ⟨j, hj, hjump⟩ := h.recorded ((hrecords hne).1 hk)
      exact ⟨j, hkept hj, hjump⟩
  · -- A new record is about a place that had none.
    rcases hu with hu | ⟨u, hul, -, hu⟩
    · rw [hu]
      exact h.once
    · rw [hu, List.map_cons, List.nodup_cons, ← records_iff_mem, hul]
      exact ⟨hunrecorded, h.once⟩
  · intro k hk
    rcases hawaits hk with hk | ⟨rfl, hjump, hnone, hsame⟩
    · obtain ⟨hnot, j, hj, hrest⟩ := h.awaited hk
      exact ⟨fun hrec => hnot ((hrecords (hdec.linear_ne hj)).1 hrec), j, hkept hj, hrest⟩
    · refine ⟨?_, i, hself, hjump, hnone⟩
      rw [Records, hsame]
      exact hunrecorded
  · rcases ho with ⟨hds, hp | ⟨hp, -⟩⟩
    · rw [hds, hp]
      exact h.order
    · rw [hds, hp, ← List.append_assoc]
      -- A dispatch that is put off is new, so it does not wait yet.
      refine List.nodup_append.2 ⟨h.order, List.nodup_singleton _, ?_⟩
      intro a ha b hb hab
      rw [List.mem_singleton] at hb
      subst hab hb
      exact hunawaited ((awaits_iff_mem _).2 ha)

theorem mem_branches_follow (source : Nat) (target : Address) (ah : Option UInt8) (s t : Nat) :
    (s, t) ∈ (w.follow source target ah).branches ↔
      (s, t) ∈ w.branches ∨ s = source ∧ t = target.linear := by
  simp [follow, or_comm]

theorem contains_targets_follow (source : Nat) (target : Address) (ah : Option UInt8) (t : Nat) :
    (w.follow source target ah).targets.contains t = true ↔
      w.targets.contains t = true ∨ t = target.linear :=
  AddressMap.contains_insert ..

section Decode

variable {c : Cursor} {i : Instruction} (h : Exact w) (hdec : Decodes r w c i)
include h hdec

/-- Without transfers, an instruction is added and all that exactness speaks of stays as it is. -/
theorem Exact.decode_silent (hd : w'.decoded = w.decoded.insert c.address.linear i)
    (hb : w'.branches = w.branches) (ht : w'.targets = w.targets)
    (hu : w'.unresolved = w.unresolved) (hds : w'.dispatches = w.dispatches)
    (hp : w'.pending = w.pending) (hnone : i.transfers = []) : Exact w' := by
  refine h.decode hdec hd ?_ ?_ (.inl hu) ⟨hds, .inl (by rw [hp])⟩
  · intro s t
    simp [hb, hnone]
  · intro t
    simp [ht, hnone]

/-- The one target of a jump or branch is followed, and nothing is recorded. -/
theorem Exact.decode_follow (cursor : Option Cursor) (t : Address) (ah : Option UInt8)
    (ht : i.transfers = [t.linear]) :
    Exact (follow { w with cursor, decoded := w.decoded.insert c.address.linear i }
      i.linear t ah) := by
  have hunrecorded : ¬ Records (follow { w with
      cursor, decoded := w.decoded.insert c.address.linear i } i.linear t ah) i.linear :=
    (h.fresh hdec).1
  refine h.decode hdec rfl ?_ ?_ (.inl rfl) ⟨rfl, .inl rfl⟩
  · intro s t'
    rw [mem_branches_follow, ht]
    simp [hunrecorded]
  · intro t'
    rw [contains_targets_follow, ht]
    simp [hunrecorded]

end Decode

/-- **Decoding keeps a walk exact**: just the transfers of the new instruction are followed. -/
theorem Exact.onward {c : Cursor} {i : Instruction} {ah : Option UInt8} (h : Exact w)
    (hdec : Decodes r w c i)
    (ho : Onward r { w with decoded := w.decoded.insert c.address.linear i } i ah w') :
    Exact w' := by
  have hswitch : i.mnemonic ≠ .switch := Routine.ne_switch_of_decodeAt hdec.decodeAt
  -- What neither jumps nor branches changes only the cursor, the exits and the callees.
  have hplain (hj : i.mnemonic.isJump = false) (hb : i.mnemonic.isConditionalBranch = false) :
      i.transfers = [] := Instruction.transfers_of_plain hj hb hswitch
  cases ho with
  | dispatch hj ht =>
    have hnone := Instruction.transfers_of_target?_eq_none (.inl hj) ht
    refine h.decode hdec rfl ?_ ?_ (.inl rfl) ⟨rfl, .inr ⟨Worklist.toList_push .., hj, ht, rfl⟩⟩
    · intro s t
      simp [hnone]
    · intro t
      simp [hnone]
  | @leave t hj ht hx =>
    -- A jump out of the program has a target, and is recorded in place of being followed.
    have hrecords : Records { w with
        cursor := none, decoded := w.decoded.insert c.address.linear i,
        unresolved := ⟨i.address, .externalTarget⟩ :: w.unresolved } i.linear :=
      ⟨_, List.mem_cons_self, rfl⟩
    refine h.decode hdec rfl ?_ ?_ (.inr ⟨⟨i.address, .externalTarget⟩, rfl, hj, rfl⟩)
      ⟨rfl, .inl rfl⟩
    · intro s t
      simp [hrecords]
    · intro t
      simp [hrecords]
  | @jump t hj ht hx =>
    exact h.decode_follow hdec none t ah
      (Instruction.transfers_of_target?_eq_some (.inl hj) ht)
  | @branch t hbr ht =>
    exact h.decode_follow hdec _ t none
      (Instruction.transfers_of_target?_eq_some (.inr hbr) ht)
  | blind hbr ht =>
    exact h.decode_silent hdec rfl rfl rfl rfl rfl rfl
      (Instruction.transfers_of_target?_eq_none (.inr hbr) ht)
  | «return» hr =>
    obtain ⟨hj, hb⟩ := Mnemonic.plain_of_isReturn hr
    exact h.decode_silent hdec rfl rfl rfl rfl rfl rfl (hplain hj hb)
  | exit hx =>
    have hint := Routine.int_of_isExit hx
    exact h.decode_silent hdec rfl rfl rfl rfl rfl rfl
      (hplain (by rw [hint]; rfl) (by rw [hint]; rfl))
  | call hc ht hx =>
    obtain ⟨hj, hb⟩ := Mnemonic.plain_of_isCall hc
    exact h.decode_silent hdec rfl rfl rfl rfl rfl rfl (hplain hj hb)
  | plain hj hb hr hx => exact h.decode_silent hdec rfl rfl rfl rfl rfl rfl (hplain hj hb)

/-! ### Moves that recover a switch -/

/-- The window of a jump holds the jump, and instructions that were decoded. -/
theorem mem_window {jump i : Instruction} (h : i ∈ w.window jump) :
    i = jump ∨ ∃ k : Nat, w.decoded[k]? = some i := by
  rw [window, List.mem_append, List.mem_singleton] at h
  rcases h with h | h
  · right
    obtain ⟨⟨k, j⟩, hmem, rfl⟩ := List.mem_map.1 (List.mem_of_mem_drop h)
    have hmem := (List.takeWhile_sublist _).subset hmem
    exact ⟨k, Std.ExtTreeMap.mem_toList_iff_getElem?_eq_some.1 hmem⟩
  · exact .inl h

/-- What is in the window is decoded at its place, the jump included. -/
theorem decoded_of_mem_window {linear : Nat} {jump i : Instruction} (hs : Sound r w)
    (hj : w.decoded[linear]? = some jump) (hi : i ∈ w.window jump) :
    w.decoded[i.linear]? = some i := by
  rcases mem_window hi with rfl | ⟨k, hk⟩
  · rw [hs.linear hj]
    exact hj
  · rw [hs.linear hk]
    exact hk

/-- What a recognized dispatch folds leads straight on, and is decoded where the dispatch says. -/
theorem straight_of_match {linear : Nat} {jump : Instruction} {m : SwitchMatch}
    (hs : Sound r w) (hfold : SwitchTemplate.FoldStraight r.templates)
    (hj : w.decoded[linear]? = some jump)
    (hm : SwitchTemplate.firstMatch? r.templates (w.window jump) = some m) {a : Nat}
    (ha : a ∈ m.folded) : ∃ i, w.decoded[a]? = some i ∧ i.IsStraight := by
  obtain ⟨i, hi, rfl, hstraight⟩ := hfold hm a ha
  exact ⟨i, decoded_of_mem_window hs hj hi, hstraight⟩

/-- The jump itself is not folded, for it does not lead straight on. -/
theorem not_mem_folded {linear : Nat} {jump : Instruction} {m : SwitchMatch} (h : Exact w)
    (hs : Sound r w) (hfold : SwitchTemplate.FoldStraight r.templates)
    (hwait : w.Awaits linear) (hj : w.decoded[linear]? = some jump)
    (hm : SwitchTemplate.firstMatch? r.templates (w.window jump) = some m) :
    linear ∉ m.folded := by
  intro hmem
  obtain ⟨i, hi, hstraight⟩ := straight_of_match hs hfold hj hm hmem
  obtain ⟨-, i', hi', hjump, -⟩ := h.awaited hwait
  rw [hi] at hi'
  cases hi'
  rw [hstraight.jump] at hjump
  cases hjump

/-- What is decoded when a switch is put in place of a jump that is not folded. -/
theorem getElem?_putSwitch {folded : List Nat} {linear : Nat} (h : linear ∉ folded)
    (m : AddressMap Instruction) (switch : Instruction) (k : Nat) :
    (putSwitch m linear switch folded)[k]? =
      if linear = k then m[k]?.map fun _ => switch
      else if k ∈ folded then m[k]?.map Instruction.neutralized
      else m[k]? := by
  rw [putSwitch, getElem?_foldl_neutralized, AddressMap.getElem?_modify]
  by_cases hk : linear = k
  · subst hk
    simp [h]
  · simp [hk]

/-- A recovered switch leads to the words of its table, in their order. -/
theorem transfers_switchOf (jump : Instruction) (index : Register) (words : List UInt16) :
    (switchOf jump index words).transfers =
      words.map fun word => (Address.mk jump.address.seg word).linear := by
  have hswitch : (switchOf jump index words).mnemonic = .switch := rfl
  rw [Instruction.transfers, if_pos hswitch, cases_switchOf, tableCases, List.map_map]
  conv_rhs => rw [← List.zipIdx_map_fst 0 words, List.map_map]
  apply List.map_congr_left
  rintro ⟨word, value⟩ -
  exact congrArg Address.linear (caseTarget_word ..)

/-- What following the cases of a switch adds to the transfers and to the labels, in both the same
    places. -/
theorem withSwitch_adds (w : Walk) (jump : Instruction) (m : SwitchMatch) (words : List UInt16) :
    let targets := words.map fun word => (Address.mk jump.address.seg word).linear
    (∀ s t, (s, t) ∈ (w.withSwitch jump m words).branches ↔
      (s, t) ∈ w.branches ∨ s = jump.linear ∧ t ∈ targets) ∧
    (∀ t, (w.withSwitch jump m words).targets.contains t = true ↔
      w.targets.contains t = true ∨ t ∈ targets) ∧
    (w.withSwitch jump m words).queue.toList =
      w.queue.toList ++ words.map (Address.mk jump.address.seg) := by
  -- Stated for any walk to begin with, as the induction on the words needs it.
  have hfold (ws : List UInt16) (w : Walk) :
      let w' := ws.foldl (fun w word => w.follow jump.linear ⟨jump.address.seg, word⟩ none) w
      let targets := ws.map fun word => (Address.mk jump.address.seg word).linear
      (∀ s t, (s, t) ∈ w'.branches ↔ (s, t) ∈ w.branches ∨ s = jump.linear ∧ t ∈ targets) ∧
      (∀ t, w'.targets.contains t = true ↔ w.targets.contains t = true ∨ t ∈ targets) ∧
      w'.queue.toList = w.queue.toList ++ ws.map (Address.mk jump.address.seg) := by
    induction ws generalizing w with
    | nil => simp
    | cons word ws ih =>
      obtain ⟨hb, ht, hq⟩ := ih (w.follow jump.linear ⟨jump.address.seg, word⟩ none)
      refine ⟨fun s t => ?_, fun t => ?_, ?_⟩
      · rw [List.foldl_cons, hb, mem_branches_follow, List.map_cons, List.mem_cons]
        tauto
      · rw [List.foldl_cons, ht, contains_targets_follow, List.map_cons, List.mem_cons, or_assoc]
      · rw [List.foldl_cons, hq, List.map_cons]
        simp [follow]
  exact hfold words { w with
    decoded := putSwitch w.decoded jump.linear (switchOf jump m.index words) m.folded }

/-- **A recovered switch keeps a walk exact.** The jump had no transfers and the folded instructions
    have none, so the cases are all that is added. -/
theorem Exact.recover {linear : Nat} {dispatches : List Nat} {jump : Instruction}
    {m : SwitchMatch} (h : Exact w) (hs : Sound r w)
    (hfold : SwitchTemplate.FoldStraight r.templates) (hds : w.dispatches = linear :: dispatches)
    (hj : w.decoded[linear]? = some jump)
    (hm : SwitchTemplate.firstMatch? r.templates (w.window jump) = some m)
    (words : List UInt16) : Exact ({ w with dispatches }.withSwitch jump m words) := by
  have hwait : w.Awaits linear := .inr (hds ▸ List.mem_cons_self)
  obtain ⟨hunrecorded, hjump, hsilent⟩ := h.next_dispatch hds hj
  have hnofold := not_mem_folded h hs hfold hwait hj hm
  have hstraight {a : Nat} (ha : a ∈ m.folded) := straight_of_match hs hfold hj hm ha
  obtain ⟨hd, -, hdisp, hpend, -, hu⟩ := withSwitch_frame { w with dispatches } jump m words
  obtain ⟨hb, ht, -⟩ := withSwitch_adds { w with dispatches } jump m words
  generalize { w with dispatches }.withSwitch jump m words = w' at *
  simp only at hd hdisp hpend hu hb ht
  rw [hs.linear hj] at hd hb
  have hlookup (k : Nat) := getElem?_putSwitch hnofold w.decoded (switchOf jump m.index words) k
  rw [← hd] at hlookup
  have hrecords (k : Nat) : w'.Records k ↔ w.Records k := by rw [Records, Records, hu]
  -- No other jump is touched, for the templates fold none.
  have hjumps {k : Nat} {j : Instruction} (hj' : w.decoded[k]? = some j)
      (hjump' : j.mnemonic.isJump = true) (hne : linear ≠ k) : w'.decoded[k]? = some j := by
    rw [hlookup, if_neg hne, if_neg, hj']
    intro hk
    obtain ⟨j', hj'', hs'⟩ := hstraight hk
    rw [hj'] at hj''
    cases hj''
    rw [hs'.jump] at hjump'
    cases hjump'
  refine ⟨?_, h.targets_iff hb ht, ?_, ?_, ?_, ?_⟩
  · -- The jump had no transfers, and neither had what is folded.
    intro s t
    rw [hb, hlookup, h.followed, hrecords]
    by_cases hlin : linear = s
    · subst hlin
      rw [if_pos rfl, hj]
      simp [hsilent, transfers_switchOf, hunrecorded]
    · by_cases hmem : s ∈ m.folded
      · obtain ⟨i, hi, hstr⟩ := hstraight hmem
        have hplain := Instruction.transfers_of_plain hstr.jump hstr.branch hstr.switch
        rw [if_neg hlin, if_pos hmem, hi]
        simp [hplain, Instruction.transfers_neutralized, Ne.symm hlin]
      · rw [if_neg hlin, if_neg hmem]
        simp [Ne.symm hlin]
  · -- Only the dispatch is gone, and that one was not recorded.
    intro k hk
    rw [hrecords] at hk
    obtain ⟨j, hj', hjump'⟩ := h.recorded hk
    refine ⟨j, hjumps hj' hjump' ?_, hjump'⟩
    rintro rfl
    exact hunrecorded hk
  · rw [hu]
    exact h.once
  · intro k hk
    obtain ⟨hk, hne⟩ := h.awaits_rest hds hk hdisp hpend
    obtain ⟨hnot, j, hj', hjump', hrest⟩ := h.awaited hk
    exact ⟨fun hrec => hnot ((hrecords k).1 hrec), j, hjumps hj' hjump' hne, hjump', hrest⟩
  · rw [hdisp, hpend]
    exact h.order_rest hds

/-! ### Whole walks -/

/-- **Every move keeps a walk exact**, as long as templates fold only what leads straight on:
    folding anything else would take away transfers that were followed. -/
theorem exact_of_move (hfold : SwitchTemplate.FoldStraight r.templates) (hs : Sound r w)
    (h : Exact w) (hm : Move r w w') : Exact w' := by
  cases hm with
  | stop hc hwhy => exact h.frame rfl rfl rfl rfl rfl
  | decode hd ho => exact h.onward hd ho
  | @vanish linear dispatches hc hds hj =>
    obtain ⟨-, i, hi, -⟩ := h.awaited (k := linear) (.inr (hds ▸ List.mem_cons_self))
    rw [hj] at hi
    cases hi
  | refuse hc hds hj hm => exact h.refuse hs hds hj _
  | recover hc hds hj hm hcount hwords => exact h.recover hs hfold hds hj hm _
  | start hc hds hq => exact h.frame rfl rfl rfl rfl rfl
  | turn hc hds hq =>
    refine h.frame rfl rfl rfl rfl ?_
    simp [hds, Worklist.toList]

theorem exact_start (r : Routine) : Exact { queue := Worklist.push {} r.entry } := by
  have hidle {k : Nat} : ¬ Awaits { queue := Worklist.push {} r.entry } k := by
    rintro (hk | hk) <;> exact absurd hk List.not_mem_nil
  have hunrecorded {k : Nat} : ¬ Records { queue := Worklist.push {} r.entry } k := by
    rintro ⟨u, hu, -⟩
    exact absurd hu List.not_mem_nil
  refine ⟨?_, ?_, fun hk => absurd hk hunrecorded, List.nodup_nil, fun hk => absurd hk hidle,
    List.nodup_nil⟩
  · intro s t
    simp
  · intro t
    simp [Follows]

/-- **A finished walk is exact**, if its templates fold only what leads straight on. -/
theorem exact_of_walk (hfold : SwitchTemplate.FoldStraight r.templates) (h : r.walk = .ok w) :
    Exact w := by
  have hmove {w w' : Walk} (hw : Sound r w ∧ Exact w) (hm : Move r w w') : Sound r w' ∧ Exact w' :=
    ⟨sound_of_move hw.1 hm, exact_of_move hfold hw.1 hw.2 hm⟩
  exact (run_induction hmove ⟨sound_start r, exact_start r⟩ (run_of_walk h).2).1.2

end Walk

end RealMode
