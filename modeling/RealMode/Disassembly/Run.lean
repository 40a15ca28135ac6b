import RealMode.Disassembly.Walk
import RealMode.Results

namespace RealMode.Walk

/-!
# Walks end

Every step lowers the potential of the walk, so `run` may take steps until none is left.

* `potential_lt_of_step?` — the law of the steps;
* `run` — the walk at its end, or the fault that stopped it;
* `walk` — the walk of a function from its entry.
-/

variable {r : Routine} {w w' : Walk}

/-! ### What each move does to the potential -/

/-- To follow a transfer decodes nothing; it only leaves word of where to go. -/
@[simp] theorem decoded_follow (source : Nat) (target : Address) (ah : Option UInt8) :
    (w.follow source target ah).decoded = w.decoded := rfl

/-- A followed transfer costs one queued place, which is worth two: one for taking it from the
    queue, and one for the visit. -/
theorem potential_follow (source : Nat) (target : Address) (ah : Option UInt8) :
    (w.follow source target ah).potential r = w.potential r + 2 := by
  simp only [potential, follow, Worklist.size_push]
  omega

/-- Going on behind an instruction costs less than the instruction itself is worth, also if the
    instruction dispatches and its switch has the largest number of cases. -/
theorem potential_goOn (i : Instruction) (ah : Option UInt8) :
    (w.goOn r i ah).potential r
      ≤ { w with cursor := none }.potential r + (2 * r.options.maxCases.toNat + 3) := by
  -- Going straight on costs the one step that it takes to visit the cursor.
  have onward : { w with cursor := some ⟨i.next, ah⟩ }.potential r
      = { w with cursor := none }.potential r + 1 := by
    simp only [potential, Option.toList_some, Option.toList_none, List.length_cons, List.length_nil]
    omega
  -- Each branch puts at most one more thing aside, and that is paid for here.
  unfold goOn
  simp only []
  split
  · split
    · simp only [potential, Worklist.size_push, Nat.mul_add]
      omega
    · split
      · simp only [potential]
        omega
      · rw [potential_follow]
        omega
  · split
    · split
      · omega
      · rw [potential_follow, onward]
        omega
    · split
      · omega
      · split
        · simp only [potential]
          omega
        · split
          · split
            · omega
            · split
              · omega
              · show { w with cursor := some ⟨i.next, ah⟩ }.potential r ≤ _
                omega
          · omega

/-- A new instruction uses up one of those the function may have, and with it what one instruction
    is worth in potential. -/
theorem potential_insert {linear : Nat} (i : Instruction)
    (hnew : ¬ w.decoded.contains linear) (hroom : w.decoded.size < r.options.maxInstructions) :
    { w with decoded := w.decoded.insert linear i }.potential r
      + (2 * r.options.maxCases.toNat + 3) = w.potential r := by
  have hsize : (w.decoded.insert linear i).size = w.decoded.size + 1 := by
    rw [Std.ExtTreeMap.size_insert, if_neg hnew]
  have hleft : r.options.maxInstructions - w.decoded.size
      = (r.options.maxInstructions - (w.decoded.size + 1)) + 1 := by omega
  simp only [potential, hsize, hleft, Nat.mul_add]
  omega

/-- Putting a switch in the place of its jump rewrites instructions, but decodes no new ones. -/
theorem size_putSwitch (decoded : AddressMap Instruction) (linear : Nat) (switch : Instruction)
    (folded : List Nat) : (putSwitch decoded linear switch folded).size = decoded.size := by
  have hfold (m : AddressMap Instruction) :
      (folded.foldl (fun m a => m.modify a Instruction.neutralized) m).size = m.size := by
    induction folded generalizing m with
    | nil => rfl
    | cons a folded ih => rw [List.foldl_cons, ih, Std.ExtTreeMap.size_modify]
  rw [putSwitch, hfold, Std.ExtTreeMap.size_modify]

/-- Following several transfers costs a queued place for each, so a recovered switch costs one for
    each word of its table. -/
theorem potential_foldl_follow (source : Nat) (seg : UInt16) (words : List UInt16) :
    (words.foldl (fun w word => w.follow source ⟨seg, word⟩ none) w).potential r
      = w.potential r + 2 * words.length := by
  induction words generalizing w with
  | nil => rfl
  | cons word words ih =>
    rw [List.foldl_cons, ih, potential_follow, List.length_cons]
    omega

/-- A table is read with one word for each case, so there are no more words than the limit on cases
    allows. -/
theorem length_tableWords {seg : UInt16} {m : SwitchMatch} {words : List UInt16}
    (h : tableWords r seg m = .ok words) : words.length = m.caseCount := by
  rw [length_of_mapM_ok h, List.length_range]

/-! ### The law of the steps -/

/-- A visit uses up the cursor, and where it decodes an instruction, that pays for all it leads
    to. -/
theorem potential_visit {c : Cursor} (hc : w.cursor = some c) (h : w.visit r c = .ok w') :
    w'.potential r < w.potential r := by
  have hstop : { w with cursor := none }.potential r < w.potential r := by
    simp only [potential, hc, Option.toList_some, Option.toList_none, List.length_cons,
      List.length_nil]
    omega
  unfold visit at h
  split at h
  · cases h
    exact hstop
  · rename_i hnew
    split at h
    · cases h
    · rename_i hroom
      split at h
      · cases h
      · rename_i i hi
        split at h
        · cases h
          exact hstop
        · cases h
          -- The place that the instruction takes up pays for what it leads to.
          have hgo := potential_goOn (r := r)
            (w := { w with decoded := w.decoded.insert c.address.linear i }) i (i.ahAfter c.ah)
          have hins := potential_insert (r := r) (w := { w with cursor := none }) i hnew
            (by simpa using hroom)
          simp only [] at hgo hins
          omega

/-- Recovering a dispatch may queue a place for each case. The dispatch was worth that much when it
    was put aside. -/
theorem potential_recover {linear : Nat} (h : w.recover r linear = .ok w') :
    w'.potential r ≤ w.potential r + 2 * r.options.maxCases.toNat := by
  unfold recover at h
  split at h
  · cases h
    omega
  · split at h
    · rename_i jump _ _ m _
      unfold apply at h
      split at h
      · cases h
      · rename_i hcount
        split at h
        · cases h
        · rename_i words hwords
          cases h
          have hlen := length_tableWords hwords
          rw [potential_foldl_follow]
          simp only [potential, size_putSwitch]
          omega
    · cases h
      simp only [potential]
      omega

/-- **Every step lowers the potential.** This is what lets `run` take steps until none is left,
    whatever the image holds. -/
theorem potential_lt_of_step? (h : w.step? r = some (.ok w')) :
    w'.potential r < w.potential r := by
  unfold step? at h
  split at h
  · rename_i c hc
    exact potential_visit hc (Option.some.inj h)
  · rename_i hc
    split at h
    · rename_i linear dispatches hd
      -- The dispatch that is taken away is worth more than all the cases it can have.
      have hr := potential_recover (Option.some.inj h)
      have hless : { w with dispatches }.potential r + (2 * r.options.maxCases.toNat + 1)
          = w.potential r := by
        simp only [potential, hd, List.length_cons, Nat.mul_add]
        omega
      omega
    · split at h
      · rename_i a queue hq
        cases h
        have hsize := Worklist.size_of_pop? hq
        simp only [potential, hc, hsize, Option.toList_some, Option.toList_none, List.length_cons,
          List.length_nil]
        omega
      · split at h
        · cases h
        · rename_i hd _ _ dispatches hp
          cases h
          -- Turning to the dispatches that wait makes each of them worth one less.
          have hsize := w.pending.size_eq
          have hpos : 0 < w.pending.toList.length := List.length_pos_iff.2 hp
          have hnone : (Worklist.size ({} : Worklist Nat)) = 0 := rfl
          simp only [potential, hd, hsize, hnone, List.length_nil, Nat.add_mul]
          omega

/-! ### Whole walks -/

-- `h` is used by `decreasing_by`, which the linter does not see.
set_option linter.unusedVariables false in
/-- Takes steps until nothing is left to do. -/
def run (r : Routine) (w : Walk) : Except Fault Walk :=
  match h : w.step? r with
  | none => .ok w
  | some (.error e) => .error e
  | some (.ok w') => run r w'
termination_by w.potential r
decreasing_by exact potential_lt_of_step? h

end RealMode.Walk

namespace RealMode.Routine

/-- The walk of a function from its entry, which must be in the image. -/
def walk (r : Routine) : Except Fault Walk :=
  if r.image.contains r.entry.linear then
    Walk.run r { queue := Worklist.push {} r.entry }
  else .error (.outOfBounds r.entry.linear)

end RealMode.Routine
