import RealMode.Proofs.Disassembly.SideTables
import RealMode.Proofs.Walk.Dispatches
import RealMode.Proofs.Walk.Effort

namespace RealMode

open Dispatch

/-!
# Switches behind their bounds checks

The templates see the instructions in front of a jump, not the ways of control. A switch is behind
its check only if control comes to it through the check and in no other way.

* `BoundsCheck` — a check with the switch behind it, and `BoundsCheck.In` — a disassembly has it;
* `BoundsCheck.Sealed` — the only ways into the check begin at its comparison, and the branch leads
  on to the switch only if the index is in range;
* `BoundsCheck.unavoidable_iff_sealed` — so it is exactly if every run to the switch ends in the
  whole check;
* `Machine`, `Disassembly.Reaches` — carrying out instructions, as far as a check can tell;
* `BoundsCheck.Sealed.le_of_reaches` — behind a sealed check, the index is in range;
* `switch_checked_iff_sealed` — all of it for the switches of a disassembly.

Not every switch is behind its check: in `shortcut` the jump to the default case leads around it.
-/

/-! ### Checks -/

/-- A comparison of an index with a bound, a branch on its outcome, two instructions without effect
    and a switch. -/
structure BoundsCheck where
  index : Register
  bound : UInt16
  compare : Instruction
  guard : Instruction
  first : Instruction
  second : Instruction
  switch : Instruction

namespace BoundsCheck

variable {c : BoundsCheck} {d : Disassembly}

/-- The instructions that control goes through if the index is in range. -/
def steps (c : BoundsCheck) : List Instruction :=
  [c.compare, c.guard, c.first, c.second, c.switch]

/-- The disassembly has the check, and the switch has one case for each index in range. -/
structure In (c : BoundsCheck) (d : Disassembly) : Prop where
  encoded : ∀ i ∈ c.steps, i ∈ d.encoded
  word : c.index.isWord = true
  compares : comparedBound? c.index c.compare = some c.bound
  compare_next : c.compare.nextLinear = c.guard.linear
  guards : c.guard.placeWhen? true = some c.first.linear
  first : c.first.mnemonic = .nop ∧ c.first.nextLinear = c.second.linear
  second : c.second.mnemonic = .nop ∧ c.second.nextLinear = c.switch.linear
  switch : c.switch.mnemonic = .switch ∧
    c.switch.operands = .register c.index :: c.switch.cases.map .case
  cases : c.switch.cases.map SwitchCase.value = (List.range (c.bound.toNat + 1)).map UInt16.ofNat

/-- Control comes into the check at its comparison only, and leaves it for the switch only if the
    index is in range. -/
structure Sealed (c : BoundsCheck) (d : Disassembly) : Prop where
  /-- The entry is not behind the comparison. -/
  entry : ∀ i ∈ c.steps.tail, d.entry.linear ≠ i.linear
  /-- Each step but the first is come to from the one before it alone. -/
  ways : ∀ p ∈ c.steps.zip c.steps.tail, ∀ i ∈ d.encoded, p.2.linear ∈ d.successors i → i = p.1
  /-- With the index out of range, the branch does not lead on to the switch. -/
  outside : c.guard.placeWhen? false ≠ some c.first.linear

/-- Every run to the switch ends in the whole check. -/
def Unavoidable (c : BoundsCheck) (d : Disassembly) : Prop :=
  ∀ is, d.Run d.entry.linear (is ++ [c.switch]) → c.steps <:+ is ++ [c.switch]

instance (c : BoundsCheck) (d : Disassembly) : Decidable (c.In d) :=
  decidable_of_iff
    ((∀ i ∈ c.steps, i ∈ d.encoded) ∧ c.index.isWord = true ∧
      comparedBound? c.index c.compare = some c.bound ∧
      c.compare.nextLinear = c.guard.linear ∧ c.guard.placeWhen? true = some c.first.linear ∧
      (c.first.mnemonic = .nop ∧ c.first.nextLinear = c.second.linear) ∧
      (c.second.mnemonic = .nop ∧ c.second.nextLinear = c.switch.linear) ∧
      (c.switch.mnemonic = .switch ∧
        c.switch.operands = .register c.index :: c.switch.cases.map .case) ∧
      c.switch.cases.map SwitchCase.value = (List.range (c.bound.toNat + 1)).map UInt16.ofNat)
    ⟨fun ⟨a, b, c, d, e, f, g, h, i⟩ => ⟨a, b, c, d, e, f, g, h, i⟩,
      fun ⟨a, b, c, d, e, f, g, h, i⟩ => ⟨a, b, c, d, e, f, g, h, i⟩⟩

instance (c : BoundsCheck) (d : Disassembly) : Decidable (c.Sealed d) :=
  decidable_of_iff
    ((∀ i ∈ c.steps.tail, d.entry.linear ≠ i.linear) ∧
      (∀ p ∈ c.steps.zip c.steps.tail, ∀ i ∈ d.encoded,
        p.2.linear ∈ d.successors i → i = p.1) ∧
      c.guard.placeWhen? false ≠ some c.first.linear)
    ⟨fun ⟨a, b, c⟩ => ⟨a, b, c⟩, fun ⟨a, b, c⟩ => ⟨a, b, c⟩⟩

end BoundsCheck

/-! ### Branches and the last step of a run -/

/-- A branch on `be` or `a` goes to its target or straight on. -/
theorem Instruction.placeWhen?_cases {low : Bool} {i : Instruction} {k : Nat}
    (h : i.placeWhen? low = some k) : i.target?.map Address.linear = some k ∨ i.nextLinear = k := by
  unfold placeWhen? at h
  split at h
  · split at h
    · exact .inl h
    · exact .inr (Option.some_inj.1 h)
  · split at h
    · split at h
      · exact .inr (Option.some_inj.1 h)
      · exact .inl h
    · cases h

/-- What goes on by the outcome of a comparison is a conditional branch. -/
theorem Instruction.isConditionalBranch_of_placeWhen? {low : Bool} {i : Instruction} {k : Nat}
    (h : i.placeWhen? low = some k) : i.mnemonic.isConditionalBranch = true := by
  rw [jcc_of_placeWhen? h]
  rfl

namespace Disassembly

variable {d : Disassembly} {a : Nat} {is : List Instruction} {i j : Instruction}

/-- A run that ends in two instructions goes from one to the other, so control can go that way. -/
theorem Run.last_step (h : d.Run a (is ++ [i, j])) :
    d.Run a (is ++ [i]) ∧ d.find? i.linear = some i ∧ j.linear ∈ d.successors i := by
  induction is generalizing a with
  | nil =>
    cases h with
    | @step a b i is hi hb hrest =>
      have hj : d.find? b = some j := by
        cases hrest with
        | last hj => exact hj
        | step hj _ _ => exact hj
      rw [linear_of_find? hj]
      exact ⟨.last hi, find?_linear hi, hb⟩
  | cons x is ih =>
    rw [List.cons_append] at h
    generalize htail : is ++ [i, j] = tail at h
    cases h with
    | last hx => simp at htail
    | step hx hb hrest =>
      obtain ⟨hrun, hfound, hmem⟩ := ih (htail ▸ hrest)
      exact ⟨.step hx hb hrun, hfound, hmem⟩

/-- A run comes to its last instruction at the start, or from an instruction that leads there. -/
theorem Run.cases_last (h : d.Run a (is ++ [j])) :
    is = [] ∧ a = j.linear ∨ ∃ before i, is = before ++ [i] ∧ d.Run a (before ++ [i]) ∧
      d.find? i.linear = some i ∧ j.linear ∈ d.successors i := by
  rcases List.eq_nil_or_concat is with rfl | ⟨before, i, rfl⟩
  · left
    refine ⟨rfl, ?_⟩
    cases h with
    | last hj => exact (linear_of_find? hj).symm
    | step hj _ _ => exact (linear_of_find? hj).symm
  · right
    rw [List.concat_eq_append, List.append_assoc] at h
    obtain ⟨hrun, hfound, hmem⟩ := h.last_step
    exact ⟨before, i, List.concat_eq_append, hrun, hfound, hmem⟩

/-- Control can go from one instruction to the other. -/
def LeadsTo (d : Disassembly) (i j : Instruction) : Prop :=
  d.find? j.linear = some j ∧ j.linear ∈ d.successors i

instance (d : Disassembly) : DecidableRel d.LeadsTo := fun i j =>
  inferInstanceAs (Decidable (d.find? j.linear = some j ∧ j.linear ∈ d.successors i))

/-- A run goes on along instructions that lead to one another. -/
theorem Run.append_chain {q : Instruction} {rest : List Instruction} (h : d.Run a (is ++ [q]))
    (hchain : (q :: rest).IsChain d.LeadsTo) : d.Run a (is ++ q :: rest) := by
  induction rest generalizing is q with
  | nil => exact h
  | cons j rest ih =>
    obtain ⟨⟨hj, hmem⟩, hrest⟩ := List.isChain_cons_cons.1 hchain
    simpa using ih (h.extend hmem hj) hrest

/-- A branch on `be` or `a` goes somewhere for each outcome, since its target is known and the place
    behind it is there. -/
theorem WellFormed.exists_placeWhen? (hd : d.WellFormed) {k b : Nat} {low : Bool}
    (hi : d.find? k = some i) (h : i.placeWhen? low = some b) (low' : Bool) :
    ∃ b', i.placeWhen? low' = some b' := by
  obtain ⟨t, ht⟩ := hd.branch hi (Instruction.isConditionalBranch_of_placeWhen? h)
  unfold Instruction.placeWhen? at h ⊢
  split
  · cases low' <;> simp [ht]
  · split
    · cases low' <;> simp [ht]
    · simp_all

/-- A branch on `be` or `a` leads to both its places, and it depends on the flags which one control
    takes. -/
theorem WellFormed.mem_successors_of_placeWhen? (hd : d.WellFormed) {k b : Nat} {low : Bool}
    (hi : d.find? k = some i) (h : i.placeWhen? low = some b) : b ∈ d.successors i := by
  have hbranch := Instruction.isConditionalBranch_of_placeWhen? h
  obtain ⟨t, ht⟩ := hd.branch hi hbranch
  rw [hd.successors_branch hi hbranch ht]
  rcases Instruction.placeWhen?_cases h with hplace | rfl
  · rw [ht] at hplace
    cases hplace
    exact List.mem_cons_self
  · simp

end Disassembly

/-! ### Runs through a check -/

namespace BoundsCheck

variable {r : Routine} {c : BoundsCheck} {d : Disassembly}

/-- Control comes to a step of a sealed check from the step before it. -/
theorem Sealed.step_before (h : c.Sealed d) (hd : r.disassemble = .ok d) {p q : Instruction}
    (hpq : (p, q) ∈ c.steps.zip c.steps.tail) {is : List Instruction}
    (hrun : d.Run d.entry.linear (is ++ [q])) :
    ∃ before, is = before ++ [p] ∧ d.Run d.entry.linear (before ++ [p]) := by
  have hq : q ∈ c.steps.tail := (List.of_mem_zip hpq).2
  rcases hrun.cases_last with ⟨-, hentry⟩ | ⟨before, i, his, hrun, hfound, hmem⟩
  · exact absurd hentry (h.entry q hq)
  · have hi := ((Routine.find?_iff_mem_encoded hd).1 hfound).1
    obtain rfl := h.ways (p, q) hpq i hi hmem
    exact ⟨before, his, hrun⟩

/-- Every run to the switch of a sealed check ends in the check, step by step from the switch back
    to the comparison. -/
theorem Sealed.unavoidable (h : c.Sealed d) (hd : r.disassemble = .ok d) : c.Unavoidable d := by
  intro is hrun
  -- From the switch back to the comparison, one step after another.
  obtain ⟨is₄, rfl, hrun₄⟩ := h.step_before hd (p := c.second) (by simp [steps]) hrun
  obtain ⟨is₃, rfl, hrun₃⟩ := h.step_before hd (p := c.first) (by simp [steps]) hrun₄
  obtain ⟨is₂, rfl, hrun₂⟩ := h.step_before hd (p := c.guard) (by simp [steps]) hrun₃
  obtain ⟨is₁, rfl, -⟩ := h.step_before hd (p := c.compare) (by simp [steps]) hrun₂
  exact ⟨is₁, by simp [steps]⟩

/-- The steps of a check lead to one another, so a run that comes to its comparison can be continued
    to the switch. -/
theorem In.isChain (h : c.In d) (htemplates : r.templates = SwitchTemplate.standard)
    (hd : r.disassemble = .ok d) : c.steps.IsChain d.LeadsTo := by
  have hwf := wellFormed_of_disassemble hd
  have hfound {i : Instruction} (hi : i ∈ c.steps) : d.find? i.linear = some i :=
    (Routine.find?_iff_mem_encoded hd).2 ⟨h.encoded i hi, rfl⟩
  obtain ⟨w, hw⟩ := Routine.finished_of_disassemble hd
  obtain ⟨n, hn⟩ := Walk.exists_after_of_walk hw.walk
  have htables := Walk.tables_of_after htemplates hn
  have hstraight {i : Instruction} (hi : i ∈ c.steps)
      (hm : i.mnemonic = .cmp ∨ i.mnemonic = .nop) : i.nextLinear ∈ d.successors i := by
    -- Only an interrupt can end the process instead of going on.
    have hgo : d.isExit i.linear = false := by
      rw [Bool.eq_false_iff]
      intro hexit
      rw [hw.int_of_isExit htables (hfound hi) hexit] at hm
      rcases hm with hm | hm <;> cases hm
    rw [Disassembly.successors_plain]
    · exact List.mem_singleton_self _
    all_goals rcases hm with hm | hm <;> simp [hm, hgo, Mnemonic.isReturn, Mnemonic.isJump,
      Mnemonic.isConditionalBranch]
  have hcompare := cmp_of_comparedBound? h.compares
  simp only [steps, List.isChain_cons_cons, List.IsChain.singleton, and_true]
  refine ⟨⟨hfound (by simp [steps]), ?_⟩, ⟨hfound (by simp [steps]), ?_⟩,
    ⟨hfound (by simp [steps]), ?_⟩, hfound (by simp [steps]), ?_⟩
  · rw [← h.compare_next]
    exact hstraight (by simp [steps]) (.inl hcompare)
  · exact hwf.mem_successors_of_placeWhen? (hfound (by simp [steps])) h.guards
  · rw [← h.first.2]
    exact hstraight (by simp [steps]) (.inr h.first.1)
  · rw [← h.second.2]
    exact hstraight (by simp [steps]) (.inr h.second.1)

/-- If the check cannot be avoided, control comes to a step of it from the step before alone: any
    other way there would go on to the switch. -/
theorem In.ways_of_unavoidable (h : c.In d) (htemplates : r.templates = SwitchTemplate.standard)
    (hd : r.disassemble = .ok d) (hall : c.Unavoidable d) (before : List Instruction)
    {after : List Instruction} {p q : Instruction} (hsteps : c.steps = before ++ p :: q :: after) :
    d.entry.linear ≠ q.linear ∧ ∀ i ∈ d.encoded, q.linear ∈ d.successors i → i = p := by
  have hchain : (q :: after).IsChain d.LeadsTo := by
    have hwhole := h.isChain htemplates hd
    rw [hsteps, ← List.singleton_append, ← List.append_assoc] at hwhole
    exact hwhole.right_of_append
  obtain ⟨last, hlast⟩ : ∃ last, q :: after = last ++ [c.switch] := by
    have hend : (q :: after).getLast? = some c.switch := by
      have hwhole : c.steps.getLast? = some c.switch := rfl
      rw [hsteps] at hwhole
      simpa using hwhole
    exact List.getLast?_eq_some_iff.1 hend
  have hq : d.find? q.linear = some q :=
    (Routine.find?_iff_mem_encoded hd).2 ⟨h.encoded q (by simp [hsteps]), rfl⟩
  -- A run to `q` goes on to the switch along the rest of the check, so it has come through `p`.
  have hthrough {is : List Instruction} (hrun : d.Run d.entry.linear (is ++ [q])) :
      ∃ is', is' ++ before ++ [p] = is := by
    have hlong := hrun.append_chain hchain
    rw [hlast, ← List.append_assoc] at hlong
    obtain ⟨is', his⟩ := hall _ hlong
    rw [List.append_assoc, ← hlast, hsteps] at his
    rw [← List.singleton_append, ← List.append_assoc, ← List.append_assoc,
      List.append_left_inj] at his
    exact ⟨is', his⟩
  constructor
  · intro hentry
    rw [← hentry] at hq
    obtain ⟨is', his⟩ := hthrough (show d.Run d.entry.linear ([] ++ [q]) from .last hq)
    simp at his
  · intro i hi hmem
    -- Control comes to `i` by some run, as it does to every instruction.
    obtain ⟨w, hw⟩ := Routine.finished_of_disassemble hd
    have hfold : SwitchTemplate.FoldStraight r.templates :=
      htemplates ▸ SwitchTemplate.foldStraight_standard
    have hfound := (Routine.find?_iff_mem_encoded hd).2 ⟨hi, rfl⟩
    obtain ⟨j, hj, -⟩ := hw.shows.found hfound
    obtain ⟨is, hrun⟩ := hw.exists_run (Walk.exact_of_walk hfold hw.walk)
      (wellFormed_of_disassemble hd) (Walk.arrives_of_walk hfold hw.walk hj) hfound
    obtain ⟨is', his⟩ := hthrough (hrun.extend hmem hq)
    have hends := congrArg List.getLast? his
    simpa using hends.symm

/-- **A check cannot be avoided exactly if control comes into it at its comparison only.** -/
theorem unavoidable_iff_sealed (h : c.In d) (htemplates : r.templates = SwitchTemplate.standard)
    (hd : r.disassemble = .ok d) :
    c.Unavoidable d ∧ c.guard.placeWhen? false ≠ some c.first.linear ↔ c.Sealed d := by
  constructor
  · rintro ⟨hall, houtside⟩
    have hguard := h.ways_of_unavoidable htemplates hd hall [] rfl
    have hfirst := h.ways_of_unavoidable htemplates hd hall [c.compare] rfl
    have hsecond := h.ways_of_unavoidable htemplates hd hall [c.compare, c.guard] rfl
    have hswitch := h.ways_of_unavoidable htemplates hd hall [c.compare, c.guard, c.first] rfl
    refine ⟨?_, ?_, houtside⟩
    · simp [steps, hguard.1, hfirst.1, hsecond.1, hswitch.1]
    · simp only [steps, List.tail_cons, List.zip_cons_cons, List.zip_nil_right,
        List.forall_mem_cons, List.not_mem_nil, false_imp_iff, implies_true, and_true]
      exact ⟨hguard.2, hfirst.2, hsecond.2, hswitch.2⟩
  · intro hsealed
    exact ⟨hsealed.unavoidable hd, hsealed.outside⟩

end BoundsCheck

/-! ### Carrying out instructions -/

/-- The state of a processor, as far as a check can tell: the registers, and the flags that unsigned
    comparisons are decided by. -/
structure Machine where
  value : Register → UInt16
  carry : Bool
  zero : Bool

namespace Machine

/-- Whether the last comparison found its left side to be below its right side or equal to it. -/
def low (σ : Machine) : Bool := σ.carry || σ.zero

/-- The state behind a comparison of a register with a constant. -/
def compare (σ : Machine) (x : Register) (bound : UInt16) : Machine :=
  { σ with carry := σ.value x < bound, zero := σ.value x == bound }

/-- A comparison that found a value low has shown it to be within the bound. -/
theorem le_of_low_compare {σ : Machine} {x : Register} {bound : UInt16}
    (h : (σ.compare x bound).low = true) : (σ.compare x bound).value x ≤ bound := by
  rw [low, Bool.or_eq_true, compare, decide_eq_true_eq, beq_iff_eq] at h
  rcases h with h | h
  · exact UInt16.le_of_lt h
  · exact UInt16.le_of_eq h

end Machine

/-- Whether an instruction does no more than say where to go on. -/
def Instruction.isInert (i : Instruction) : Bool :=
  i.mnemonic = .nop || i.mnemonic = .jcc || i.mnemonic.isJump || i.mnemonic = .switch

namespace Disassembly

/-- The instruction `i` takes the machine from `σ` to `σ'`, and control goes on at `next`. What is
    not told here may change the state in any way. -/
structure Steps (d : Disassembly) (i : Instruction) (σ σ' : Machine) (next : Nat) : Prop where
  successor : next ∈ d.successors i
  compares : ∀ {x : Register} {bound : UInt16}, x.isWord = true →
    comparedBound? x i = some bound → σ' = σ.compare x bound
  inert : i.isInert = true → σ' = σ
  branches : ∀ {k : Nat}, i.placeWhen? σ.low = some k → next = k

/-- The instruction `i` is about to be carried out in state `σ`; the function may be entered in any
    state. -/
inductive Reaches (d : Disassembly) : Instruction → Machine → Prop
  | entry {i : Instruction} (hi : d.find? d.entry.linear = some i) (σ : Machine) : Reaches d i σ
  | step {i j : Instruction} {σ σ' : Machine} (h : Reaches d i σ)
      (hs : d.Steps i σ σ' j.linear) (hj : d.find? j.linear = some j) : Reaches d j σ'

/-- What is carried out is found in the disassembly. -/
theorem Reaches.found {d : Disassembly} {i : Instruction} {σ : Machine} (h : d.Reaches i σ) :
    d.find? i.linear = some i := by
  cases h with
  | entry hi => exact find?_linear hi
  | step _ _ hi => exact hi

end Disassembly

namespace BoundsCheck

variable {r : Routine} {c : BoundsCheck} {d : Disassembly}

/-- A step of a sealed check is carried out behind the one before it, so the state there is what
    that one has left. -/
theorem Sealed.reached_from (h : c.Sealed d) (hd : r.disassemble = .ok d) {p q : Instruction}
    (hpq : (p, q) ∈ c.steps.zip c.steps.tail) {σ' : Machine} (hq : d.Reaches q σ') :
    ∃ σ, d.Reaches p σ ∧ d.Steps p σ σ' q.linear := by
  cases hq with
  | entry hentry =>
    exact absurd (Disassembly.linear_of_find? hentry).symm
      (h.entry q (List.of_mem_zip hpq).2)
  | @step i j σ _ hi hstep _ =>
    have hencoded := ((Routine.find?_iff_mem_encoded hd).1 hi.found).1
    obtain rfl := h.ways (p, q) hpq i hencoded hstep.successor
    exact ⟨σ, hi, hstep⟩

/-- **Behind a sealed check the index is in range.** The comparison was carried out last, the branch
    was taken for its outcome, and nothing in between touches the index. -/
theorem Sealed.le_of_reaches (h : c.Sealed d) (hin : c.In d) (hd : r.disassemble = .ok d)
    {σ : Machine} (hσ : d.Reaches c.switch σ) : σ.value c.index ≤ c.bound := by
  obtain ⟨σ₄, hsecond, hstep₄⟩ := h.reached_from hd (p := c.second) (by simp [steps]) hσ
  obtain ⟨σ₃, hfirst, hstep₃⟩ := h.reached_from hd (p := c.first) (by simp [steps]) hsecond
  obtain ⟨σ₂, hguard, hstep₂⟩ := h.reached_from hd (p := c.guard) (by simp [steps]) hfirst
  obtain ⟨σ₁, -, hstep₁⟩ := h.reached_from hd (p := c.compare) (by simp [steps]) hguard
  -- Behind the comparison nothing changes the state.
  obtain rfl := hstep₄.inert (by simp [Instruction.isInert, hin.second.1])
  obtain rfl := hstep₃.inert (by simp [Instruction.isInert, hin.first.1])
  obtain rfl := hstep₂.inert
    (by simp [Instruction.isInert, Instruction.jcc_of_placeWhen? hin.guards])
  obtain rfl := hstep₁.compares hin.word hin.compares
  apply Machine.le_of_low_compare
  by_contra hhigh
  rw [Bool.not_eq_true] at hhigh
  -- Out of range, the branch leads elsewhere.
  obtain ⟨k, hk⟩ := (wellFormed_of_disassemble hd).exists_placeWhen? hguard.found hin.guards false
  have hplace : c.first.linear = k := hstep₂.branches (by rw [hhigh, hk])
  rw [← hplace] at hk
  exact h.outside hk

end BoundsCheck

/-! ### The check of a switch -/

/-- The values of the cases of a switch count the words of its table, from zero. -/
theorem Walk.values_switchOf (jump : Instruction) (index : Register) (words : List UInt16) :
    (switchOf jump index words).cases.map SwitchCase.value =
      (List.range words.length).map UInt16.ofNat := by
  rw [cases_switchOf, tableCases, List.map_map, List.range_eq_range', ← List.zipIdx_map_snd,
    List.map_map]
  rfl

/-- The check that a dispatch was recognized by, as it is left with the switch. -/
def checkOf (m : SwitchMatch) (compare guard add xchg switch : Instruction) : BoundsCheck :=
  ⟨m.index, m.max, compare, guard, add.neutralized, xchg.neutralized, switch⟩

/-- Each switch of a disassembly was recovered from a dispatch, with a comparison and a branch that
    stay in front of it. -/
theorem Walk.Finished.exists_recovers {r : Routine} {w : Walk} {d : Disassembly} {s : Instruction}
    (h : w.Finished r d) (htemplates : r.templates = SwitchTemplate.standard)
    (hd : r.disassemble = .ok d) (hs : s ∈ d.encoded) (hm : s.mnemonic = .switch) :
    ∃ m words compare guard add xchg jump,
      Walk.Recovers r w s m words compare guard add xchg jump := by
  obtain ⟨n, hn⟩ := Walk.exists_after_of_walk h.walk
  have hfound : w.decoded[s.linear]? = some s :=
    (h.find?_iff_decoded (by rw [hm]; decide)).1 ((Routine.find?_iff_mem_encoded hd).2 ⟨hs, rfl⟩)
  exact Walk.checked_of_after htemplates hn hfound hm

/-- A switch has the check that its dispatch was recognized by. -/
theorem Walk.Recovers.boundsCheck {r : Routine} {w : Walk} {d : Disassembly} {s : Instruction}
    {m : SwitchMatch} {words : List UInt16} {compare guard add xchg jump : Instruction}
    (hrec : Walk.Recovers r w s m words compare guard add xchg jump) (hw : w.Finished r d)
    (hd : r.disassemble = .ok d) (hs : s ∈ d.encoded) :
    (checkOf m compare guard add xchg s).In d := by
  -- Fusion changes loads alone, so the check is shown as the walk has left it.
  have hencoded {i : Instruction} (hmov : i.mnemonic ≠ .mov) (hi : w.decoded[i.linear]? = some i) :
      i ∈ d.encoded :=
    ((Routine.find?_iff_mem_encoded hd).1 (hw.find?_of_decoded hmov hi)).1
  have hcompare := cmp_of_comparedBound? hrec.recognized.compares
  have hguard := Instruction.jcc_of_placeWhen? hrec.recognized.guards
  obtain ⟨base, place, hscaled, -⟩ := exists_scaled hrec.recognized.scaled
  have hcount := Walk.length_tableWords hrec.table
  obtain rfl := hrec.switch
  refine ⟨?_, hscaled.word, hrec.recognized.compares, hrec.recognized.compare_next,
    hrec.recognized.guards, ⟨rfl, hrec.recognized.add_next⟩, ⟨rfl, hrec.recognized.xchg_next⟩,
    ⟨rfl, ?_⟩, ?_⟩
  · simp only [checkOf, BoundsCheck.steps, List.forall_mem_cons, List.not_mem_nil, false_imp_iff,
      implies_true, and_true]
    exact ⟨hencoded (by rw [hcompare]; decide) hrec.compare_kept,
      hencoded (by rw [hguard]; decide) hrec.guard_kept,
      hencoded (by simp [Instruction.neutralized, Instruction.withOperation]) hrec.add_folded,
      hencoded (by simp [Instruction.neutralized, Instruction.withOperation]) hrec.xchg_folded, hs⟩
  · show (Walk.switchOf jump m.index words).operands = _
    rw [Walk.operands_switchOf, ← Walk.cases_switchOf jump m.index]
    rfl
  · show (Walk.switchOf jump m.index words).cases.map SwitchCase.value = _
    rw [Walk.values_switchOf, hcount]
    rfl

/-- Each switch of a disassembly has the check that it was recognized by. -/
theorem exists_boundsCheck {r : Routine} {d : Disassembly} {s : Instruction}
    (htemplates : r.templates = SwitchTemplate.standard) (hd : r.disassemble = .ok d)
    (hs : s ∈ d.encoded) (hm : s.mnemonic = .switch) :
    ∃ c : BoundsCheck, c.In d ∧ c.switch = s := by
  obtain ⟨w, hw⟩ := Routine.finished_of_disassemble hd
  obtain ⟨m, words, compare, guard, add, xchg, jump, hrec⟩ :=
    hw.exists_recovers htemplates hd hs hm
  exact ⟨_, hrec.boundsCheck hw hd hs, rfl⟩

/-- **A switch is behind its bounds check exactly if the check is sealed**, with the standard
    templates. There is a check with one case for each index in range; all runs to the switch end in
    it, with the branch taken for an index in range only, if and only if control comes into it at
    the comparison alone. Then the index is in range whenever the switch is carried out. -/
theorem switch_checked_iff_sealed {r : Routine} {d : Disassembly} {s : Instruction}
    (htemplates : r.templates = SwitchTemplate.standard) (hd : r.disassemble = .ok d)
    (hs : s ∈ d.encoded) (hm : s.mnemonic = .switch) :
    (∃ c : BoundsCheck, c.In d ∧ c.switch = s) ∧
    ∀ c : BoundsCheck, c.In d → c.switch = s →
      (c.Unavoidable d ∧ c.guard.placeWhen? false ≠ some c.first.linear ↔ c.Sealed d) ∧
      (c.Sealed d → ∀ σ, d.Reaches s σ → σ.value c.index ≤ c.bound) := by
  refine ⟨exists_boundsCheck htemplates hd hs hm, ?_⟩
  rintro c hin rfl
  exact ⟨BoundsCheck.unavoidable_iff_sealed hin htemplates hd,
    fun hsealed σ hσ => hsealed.le_of_reaches hin hd hσ⟩

/-- The check of `chooser` is sealed, so `ax` is one or less whenever its switch is carried out. -/
theorem switch_checked_iff_sealed_chooser :
    ∃ d, chooser.disassemble = .ok d ∧ ∃ c : BoundsCheck, c.In d ∧ c.switch.linear = 0x10A ∧
      c.Sealed d ∧ c.Unavoidable d ∧ ∀ σ, d.Reaches c.switch σ → σ.value .ax ≤ 1 := by
  obtain ⟨d, hd, i₀, -, i₁, -, i₂, -, i₃, -, i₄, hswitch, hin, hsealed⟩ :=
    Routine.exists_disassembly (r := chooser)
      (P := fun d => ∃ i₀ ∈ d.find? 0x100, ∃ i₁ ∈ d.find? 0x103, ∃ i₂ ∈ d.find? 0x107,
        ∃ i₃ ∈ d.find? 0x109, ∃ i₄ ∈ d.find? 0x10A,
        (BoundsCheck.mk .ax 1 i₀ i₁ i₂ i₃ i₄).In d ∧ (BoundsCheck.mk .ax 1 i₀ i₁ i₂ i₃ i₄).Sealed d)
      (by decide +kernel)
  obtain ⟨-, hchecked⟩ := switch_checked_iff_sealed (r := chooser) rfl hd
    (hin.encoded i₄ (by simp [BoundsCheck.steps])) hin.switch.1
  obtain ⟨hiff, hrange⟩ := hchecked _ hin rfl
  exact ⟨d, hd, _, hin, Disassembly.linear_of_find? hswitch, hsealed, (hiff.2 hsealed).1,
    hrange hsealed⟩

/-! ### A way around a check -/

/-- What says no more than where to go on, whatever the flags are, leaves the state. -/
theorem Disassembly.steps_of_isInert {d : Disassembly} {i : Instruction} {next : Nat}
    (hi : i.isInert = true) (hj : i.mnemonic ≠ .jcc) (hnext : next ∈ d.successors i)
    (σ : Machine) : d.Steps i σ σ next := by
  refine ⟨hnext, fun {x bound} _ hbound => ?_, fun _ => rfl, fun {k} hk => ?_⟩
  · rw [Instruction.isInert, cmp_of_comparedBound? hbound] at hi
    cases hi
  · exact absurd (Instruction.jcc_of_placeWhen? hk) hj

/-- A switch on `ax` with the one case zero, where the jump to the default leads to the instructions
    in front of the switch. -/
def shortcut : Routine where
  image := .ofBytes
    [0x3D, 0x00, 0x00, 0x76, 0x02, 0xEB, 0x00, 0x01, 0xC0, 0x93, 0x2E, 0xFF, 0xA7, 0x0F, 0x01,
      0x11, 0x01, 0xC3]
    ⟨0, 0x100⟩ ⟨0, 0x100⟩
  entry := ⟨0, 0x100⟩

/-- With `ax` out of range, control goes from the comparison to the default, and from there to the
    switch: the folded instructions in front of it have no effect any more, but they can still be
    jumped to. -/
theorem shortcut_avoids_check :
    ∃ d, shortcut.disassemble = .ok d ∧ ∃ s ∈ d.encoded, s.mnemonic = .switch ∧
      s.operands.head? = some (.register .ax) ∧ s.cases.map SwitchCase.value = [0] ∧
      (∃ is, d.Run d.entry.linear (is ++ [s]) ∧
        is.map Instruction.mnemonic = [.cmp, .jcc, .jmp, .nop, .nop]) ∧
      ∃ σ, d.Reaches s σ ∧ 0 < σ.value .ax := by
  obtain ⟨d, hd, i₀, hfound, i₁, -, i₂, -, i₃, -, i₄, -, i₅, -, hentry, hkinds, hcompare, hbranch,
      hindex, hcases, hchain⟩ :=
    Routine.exists_disassembly (r := shortcut)
      (P := fun d => ∃ i₀ ∈ d.find? 0x100, ∃ i₁ ∈ d.find? 0x103, ∃ i₂ ∈ d.find? 0x105,
        ∃ i₃ ∈ d.find? 0x107, ∃ i₄ ∈ d.find? 0x109, ∃ i₅ ∈ d.find? 0x10A,
        d.entry.linear = 0x100 ∧
        [i₀, i₁, i₂, i₃, i₄, i₅].map Instruction.mnemonic =
          [.cmp, .jcc, .jmp, .nop, .nop, .switch] ∧
        i₀.operands = [.register .ax, .immediate 0 .word] ∧
        i₁.placeWhen? false = some i₂.linear ∧
        i₅.operands.head? = some (.register .ax) ∧ i₅.cases.map SwitchCase.value = [0] ∧
        [i₀, i₁, i₂, i₃, i₄, i₅].IsChain d.LeadsTo)
      (by decide +kernel)
  simp only [List.map_cons, List.map_nil, List.cons.injEq, and_true] at hkinds
  obtain ⟨hm₀, hm₁, hm₂, hm₃, hm₄, hm₅⟩ := hkinds
  have hstart : d.find? d.entry.linear = some i₀ := hentry ▸ hfound
  have hrun : d.Run d.entry.linear ([] ++ [i₀, i₁, i₂, i₃, i₄, i₅]) :=
    Disassembly.Run.append_chain (.last hstart) hchain
  simp only [List.isChain_cons_cons, List.IsChain.singleton, and_true] at hchain
  obtain ⟨⟨hf₁, hn₁⟩, ⟨hf₂, hn₂⟩, ⟨hf₃, hn₃⟩, ⟨hf₄, hn₄⟩, hf₅, hn₅⟩ := hchain
  let σ : Machine := ⟨fun _ => 1, false, false⟩
  -- The comparison finds one to be above zero, so the branch is not taken.
  have hstep₀ : d.Steps i₀ σ σ i₁.linear := by
    refine ⟨hn₁, fun {x bound} _ hbound => ?_, fun _ => rfl, fun {k} hk => ?_⟩
    · simp only [comparedBound?, hm₀, hcompare] at hbound
      split at hbound
      · cases hbound
        rfl
      · cases hbound
    · rw [Instruction.jcc_of_placeWhen? hk] at hm₀
      cases hm₀
  have hstep₁ : d.Steps i₁ σ σ i₂.linear := by
    refine ⟨hn₂, fun {x bound} _ hbound => ?_, fun _ => rfl, fun {k} hk => ?_⟩
    · rw [cmp_of_comparedBound? hbound] at hm₁
      cases hm₁
    · have hplace : i₁.placeWhen? false = some k := hk
      rw [hbranch] at hplace
      exact Option.some_inj.1 hplace
  -- The jump and the two `nop`s behind it change neither registers nor flags.
  have hinert {i : Instruction} {next : Nat} (hm : i.mnemonic = .jmp ∨ i.mnemonic = .nop)
      (hnext : next ∈ d.successors i) : d.Steps i σ σ next := by
    apply Disassembly.steps_of_isInert _ _ hnext
    · rcases hm with hm | hm <;> simp [Instruction.isInert, hm, Mnemonic.isJump]
    · rcases hm with hm | hm <;> simp [hm]
  have hreach₂ := ((Disassembly.Reaches.entry hstart σ).step hstep₀ hf₁).step hstep₁ hf₂
  have hreach₄ := (hreach₂.step (hinert (.inl hm₂) hn₃) hf₃).step (hinert (.inr hm₃) hn₄) hf₄
  have hreach₅ := hreach₄.step (hinert (.inr hm₄) hn₅) hf₅
  refine ⟨d, hd, i₅, ((Routine.find?_iff_mem_encoded hd).1 hf₅).1, hm₅, hindex, hcases,
    ⟨[i₀, i₁, i₂, i₃, i₄], hrun, ?_⟩, σ, hreach₅, by decide⟩
  simp [hm₀, hm₁, hm₂, hm₃, hm₄]

end RealMode
