import RealMode.Proofs.Walk.Entry

namespace RealMode.Walk

/-!
# Instructions of a walk stay apart

Before an instruction is decoded, only the nearest one below it and the places it covers are
looked at. That is enough, since all those decoded before are apart already — unless the
bytes of the one below go up to the end of its segment, where the place behind it is at the
bottom of the segment and tells nothing about its bytes.

* `nearestBelow?_eq_some`, `nearestBelow?_eq_none` — what is looked at below a place;
* `Apart` — of two decoded instructions, the lower one ends where the other begins or before;
* `apart_of_move` — every move keeps that, `apart_of_walk` — so it holds at the end.
-/

variable {r : Routine} {w w' : Walk}

/-! ### The nearest place below -/

/-- Nothing is between a place and the nearest one that is found below it. -/
theorem nearestBelow?_eq_some {α : Type} {m : AddressMap α} {reach linear : Nat} {a : α}
    (h : nearestBelow? m reach linear = some a) :
    ∃ k : Nat, k < linear ∧ m[k]? = some a ∧ ∀ l : Nat, k < l → l < linear → m[l]? = none := by
  fun_induction nearestBelow? m reach linear with
  | case1 reach linear a' ha =>
    cases h
    exact ⟨linear, Nat.lt_succ_self linear, ha, fun l hl hl' => by omega⟩
  | case2 reach linear hnone ih =>
    obtain ⟨k, hk, ha, hbetween⟩ := ih h
    refine ⟨k, Nat.lt_succ_of_lt hk, ha, fun l hl hl' => ?_⟩
    rcases Nat.lt_succ_iff_lt_or_eq.1 hl' with hlt | rfl
    · exact hbetween l hl hlt
    · exact hnone
  | case3 reach linear hend => cases h

/-- Where none is found, there is none within reach. The search gives up there, as no instruction is
    longer. -/
theorem nearestBelow?_eq_none {α : Type} {m : AddressMap α} {reach linear : Nat}
    (h : nearestBelow? m reach linear = none) {k : Nat} (hk : k < linear)
    (hreach : linear ≤ k + reach) : m[k]? = none := by
  fun_induction nearestBelow? m reach linear with
  | case1 reach linear a' ha => cases h
  | case2 reach linear hnone ih =>
    rcases Nat.lt_succ_iff_lt_or_eq.1 hk with hlt | rfl
    · exact ih h hlt (by omega)
    · exact hnone
  | case3 reach linear hend =>
    -- Either the reach or the places below are used up.
    cases reach with
    | zero => omega
    | succ reach =>
      cases linear with
      | zero => omega
      | succ linear => exact absurd rfl (hend reach linear rfl)

/-! ### Apart -/

/-- Of two decoded instructions, the lower one ends where the other begins or before, or its
    bytes go up to the end of its segment. -/
def Apart (w : Walk) : Prop :=
  ∀ ⦃k l : Nat⦄ ⦃i j : Instruction⦄, w.decoded[k]? = some i → w.decoded[l]? = some j → k < l →
    k + i.length.toNat ≤ l ∨ i.ReachesSegmentEnd

/-- What is decoded below an instruction that does not overlap ends before it: the nearest one does
    by the test, and all others end before the nearest. -/
theorem Apart.below (h : Apart w) (hs : Sound r w) {i j : Instruction} {k : Nat}
    (hclear : w.overlaps i = false) (hj : w.decoded[k]? = some j) (hk : k < i.linear) :
    k + j.length.toNat ≤ i.linear ∨ j.ReachesSegmentEnd := by
  have hcovered : isCovered w.decoded i.linear = false := by
    rw [overlaps, Bool.or_eq_false_iff] at hclear
    exact hclear.1
  unfold isCovered at hcovered
  split at hcovered
  · rename_i near hnear
    obtain ⟨n, hn, hat, hbetween⟩ := nearestBelow?_eq_some hnear
    rcases Nat.lt_trichotomy k n with hlt | rfl | hgt
    · -- One that is further down ends before the nearest one begins.
      rcases h hj hat hlt with hend | hreach
      · exact .inl (by omega)
      · exact .inr hreach
    · rw [hj] at hat
      cases hat
      by_cases hreach : j.ReachesSegmentEnd
      · exact .inr hreach
      · rw [Instruction.nextLinear_of_inside hreach, hs.linear hj, decide_eq_false_iff_not,
          Nat.not_lt] at hcovered
        exact .inl hcovered
    · rw [hbetween k hgt hk] at hj
      cases hj
  · rename_i hnone
    -- No instruction is long enough to come from further away.
    have hlen := j.length.toNat_lt
    by_cases hfar : i.linear ≤ k + 255
    · rw [nearestBelow?_eq_none hnone hk hfar] at hj
      cases hj
    · exact .inl (by omega)

/-! ### Moves -/

/-- A new instruction is apart from all others, from those below by the nearest of them, and from
    those above because it covers none of their places. -/
theorem Apart.decode {c : Cursor} {i : Instruction} {ah : Option UInt8} (h : Apart w)
    (hs : Sound r w) (hdec : Decodes r w c i)
    (ho : Onward r { w with decoded := w.decoded.insert c.address.linear i } i ah w') :
    Apart w' := by
  have hlookup (k : Nat) :
      w'.decoded[k]? = if i.linear = k then some i else w.decoded[k]? := by
    rw [decoded_of_onward ho, hdec.getElem?_insert]
  intro k l j j' hj hj' hlt
  rw [hlookup] at hj hj'
  split at hj
  · -- The new one covers no place where another begins.
    rename_i hk
    cases hj
    rw [if_neg (by omega)] at hj'
    rcases clear_of_overlaps hdec.clear hj' with hle | hend
    · omega
    · exact .inl (by omega)
  · split at hj'
    · rename_i hl
      cases hj'
      have hbelow := h.below hs hdec.clear hj (by omega)
      rwa [hl] at hbelow
    · exact h hj hj' hlt

/-- A recovered switch moves and resizes nothing, so what was apart still is. -/
theorem Apart.recover {dispatches : List Nat} {linear : Nat} {jump : Instruction} (h : Apart w)
    (hs : Sound r w) (hj : w.decoded[linear]? = some jump) (m : SwitchMatch)
    (words : List UInt16) : Apart ({ w with dispatches }.withSwitch jump m words) := by
  have hjump : w.decoded[jump.linear]? = some jump := by
    rw [hs.linear hj]
    exact hj
  have hd := (withSwitch_frame { w with dispatches } jump m words).1
  intro k l i i' hi hi' hlt
  rw [hd] at hi hi'
  -- Both instructions are where and as long as they were.
  obtain ⟨j, hj, ha, hl⟩ := shape_of_putSwitch hjump hi
  obtain ⟨j', hj', -, -⟩ := shape_of_putSwitch hjump hi'
  rw [Instruction.ReachesSegmentEnd, ha, hl]
  exact h hj hj' hlt

/-- **Every move keeps the instructions of a walk apart.** Only decoding adds one, and only recovery
    changes some; neither moves or resizes what was there. -/
theorem apart_of_move (hs : Sound r w) (h : Apart w) (hm : Move r w w') : Apart w' := by
  cases hm with
  | decode hdec ho => exact h.decode hs hdec ho
  | recover hc hds hj hm hcount hwords => exact h.recover hs hj _ _
  | stop hc hwhy => exact h
  | vanish hc hds hj => exact h
  | refuse hc hds hj hm => exact h
  | start hc hds hq => exact h
  | turn hc hds hq => exact h

/-- **The instructions of a finished walk are apart**, although each was compared with its
    neighbours only. -/
theorem apart_of_walk (h : r.walk = .ok w) : Apart w := by
  have hstart : Apart { queue := Worklist.push {} r.entry } := by
    intro k l i j hi
    rw [Std.ExtTreeMap.getElem?_empty] at hi
    cases hi
  have hmove {w w' : Walk} (hw : Sound r w ∧ Apart w) (hm : Move r w w') :
      Sound r w' ∧ Apart w' :=
    ⟨sound_of_move hw.1 hm, apart_of_move hw.1 hw.2 hm⟩
  exact (run_induction hmove ⟨sound_start r, hstart⟩ (run_of_walk h).2).1.2

end RealMode.Walk
