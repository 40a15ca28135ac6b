import Mathlib.Data.Option.Basic
import RealMode.Dispatch

namespace RealMode

open Dispatch

/-!
# What the standard templates recognize

Both templates see a comparison with the bound, a branch on its outcome, and the doubled index
traded for the base of the jump. They differ in the side of the branch that leads to the jump.

* `Instruction.placeWhen?` — where a branch on `be` or `a` goes, by the outcome of the comparison;
* `Dispatch.Recognized` — the instructions of a recognized dispatch, and what is told of them;
* `Dispatch.Scaled` — how the last three of them go through the table;
* `Dispatch.RecognizedIn` — they are the end of a window;
* `SwitchTemplate.recognized_of_firstMatch?` — the standard templates recognize nothing else.
-/

/-- Where a branch on `be` or `a` goes; `low` says whether the index was found to be below the
    bound or equal to it. -/
def Instruction.placeWhen? (low : Bool) (i : Instruction) : Option Nat :=
  if branchesOn .be i then if low then i.target?.map Address.linear else some i.nextLinear
  else if branchesOn .a i then if low then some i.nextLinear else i.target?.map Address.linear
  else none

theorem Instruction.jcc_of_placeWhen? {low : Bool} {i : Instruction} {k : Nat}
    (h : i.placeWhen? low = some k) : i.mnemonic = .jcc := by
  have hjcc {c : Condition} (hc : branchesOn c i = true) : i.mnemonic = .jcc := by
    rw [branchesOn, Bool.and_eq_true, decide_eq_true_eq] at hc
    exact hc.1
  unfold placeWhen? at h
  split at h
  · rename_i hbe
    exact hjcc hbe
  · split at h
    · rename_i ha
      exact hjcc ha
    · cases h

namespace Dispatch

/-- The instructions of a dispatch: a comparison with the bound, the branch that it decides, and
    the jump through the table behind the two instructions that prepare it. -/
structure Recognized (m : SwitchMatch) (compare guard add xchg jump : Instruction) : Prop where
  compares : comparedBound? m.index compare = some m.max
  compare_next : compare.nextLinear = guard.linear
  /-- With the index in range, the branch leads on to the jump. -/
  guards : guard.placeWhen? true = some add.linear
  scaled : scaledJump? add xchg jump = some (m.index, m.table)
  add_next : add.nextLinear = xchg.linear
  xchg_next : xchg.nextLinear = jump.linear
  folded : m.folded = [add.linear, xchg.linear]

/-- A dispatch is recognized at the end of a window. -/
def RecognizedIn (window : List Instruction) (m : SwitchMatch) : Prop :=
  ∃ compare guard add xchg jump, Recognized m compare guard add xchg jump ∧
    [compare, guard, add, xchg] ⊆ window ∧ window.getLast? = some jump

theorem cmp_of_comparedBound? {index : Register} {i : Instruction} {bound : UInt16}
    (h : comparedBound? index i = some bound) : i.mnemonic = .cmp := by
  unfold comparedBound? at h
  split at h
  · assumption
  · cases h

/-- The last six instructions are the end of the window, and stand next to each other. -/
theorem of_lastSix? {window six : List Instruction} (h : lastSix? window = some six) :
    six ⊆ window ∧ (six ≠ [] → window.getLast? = six.getLast?) ∧ contiguous six = true := by
  rw [lastSix?, Option.filter_eq_some_iff, lastN?] at h
  obtain ⟨h, hcontiguous⟩ := h
  split at h
  · cases h
    refine ⟨List.drop_subset _ _, fun hne => ?_, hcontiguous⟩
    rw [List.getLast?_drop, if_neg]
    intro hlong
    exact hne (List.drop_eq_nil_of_le hlong)
  · cases h

/-- The index is doubled, brought to the base of the jump, and the jump goes through the table in
    the code segment. -/
structure Scaled (index base : Register) (place : MemoryOperand) (add xchg jump : Instruction) :
    Prop where
  word : index.isWord = true
  add : add.mnemonic = .add ∧ add.operands = [.register index, .register index]
  xchg : xchg.mnemonic = .xchg ∧ (xchg.operands = [.register index, .register base] ∨
    xchg.operands = [.register base, .register index])
  jump : jump.mnemonic = .jmp ∧ jump.memoryOperand? = some place
  place : place.mode.registers = [base] ∧ place.segment = .cs

/-- An index is doubled by adding it to itself, and it is a word. -/
theorem doubledIndex?_eq_some {i : Instruction} {index : Register}
    (h : doubledIndex? i = some index) : index.isWord = true ∧ i.mnemonic = .add ∧
      i.operands = [.register index, .register index] := by
  unfold doubledIndex? at h
  split at h
  · rename_i a b hm ho
    split at h
    · rename_i hword
      cases h
      exact ⟨hword.2, hm, by rw [ho, ← hword.1]⟩
    · cases h
  · cases h

/-- The index is traded for the base, in either order of the operands. -/
theorem exchangedWith?_eq_some {i : Instruction} {index base : Register}
    (h : exchangedWith? index i = some base) : i.mnemonic = .xchg ∧
      (i.operands = [.register index, .register base] ∨
        i.operands = [.register base, .register index]) := by
  unfold exchangedWith? at h
  split at h
  · rename_i a b hm ho
    refine ⟨hm, ?_⟩
    split at h
    · rename_i ha
      cases h
      exact .inl (ha ▸ ho)
    · split at h
      · rename_i hb
        cases h
        exact .inr (hb ▸ ho)
      · cases h
  · cases h

/-- The jump reads its target through the base alone, in the code segment, and the displacement is
    the table. -/
theorem jumpedTable?_eq_some {i : Instruction} {base : Register} {table : UInt16}
    (h : jumpedTable? base i = some table) : ∃ place, i.mnemonic = .jmp ∧
      i.memoryOperand? = some place ∧ place.mode.registers = [base] ∧ place.segment = .cs ∧
      place.disp = table := by
  simp only [jumpedTable?, Option.bind_eq_bind, Option.bind_eq_some_iff] at h
  obtain ⟨⟨⟩, hjump, place, hplace, ⟨⟩, hbase, hdisp⟩ := h
  obtain ⟨hregisters, hsegment⟩ := (Option.guard_eq_some' _).1 hbase
  exact ⟨place, ((Option.guard_eq_some' _).1 hjump).1, hplace, hregisters, hsegment,
    Option.some.inj hdisp⟩

/-- The last three instructions of a dispatch, with the base that they leave implicit. -/
theorem exists_scaled {add xchg jump : Instruction} {index : Register} {table : UInt16}
    (h : scaledJump? add xchg jump = some (index, table)) :
    ∃ base place, Scaled index base place add xchg jump ∧ place.disp = table := by
  simp only [scaledJump?, Option.bind_eq_bind, Option.bind_eq_some_iff] at h
  obtain ⟨index', hadd, base, hxchg, table', hjump, hpair⟩ := h
  cases hpair
  obtain ⟨hword, hadd⟩ := doubledIndex?_eq_some hadd
  obtain ⟨place, hmnemonic, hplace, hregisters, hsegment, hdisp⟩ := jumpedTable?_eq_some hjump
  exact ⟨base, place, ⟨hword, hadd, exchangedWith?_eq_some hxchg, ⟨hmnemonic, hplace⟩,
    hregisters, hsegment⟩, hdisp⟩

end Dispatch

namespace SwitchTemplate

variable {window : List Instruction} {m : SwitchMatch}

/-- Here the branch is taken when the index is in range. It leads over the jump to the default case,
    straight to `add`. -/
theorem recognized_of_boundsChecked (h : boundsChecked.recognize window = some m) :
    RecognizedIn window m := by
  simp only [boundsChecked, Option.bind_eq_bind, Option.bind_eq_some_iff] at h
  obtain ⟨six, hsix, h⟩ := h
  obtain ⟨hsubset, hlast, hcontiguous⟩ := of_lastSix? hsix
  split at h
  · rename_i compare jbe default add xchg jump
    simp only [Option.bind_eq_some_iff] at h
    obtain ⟨⟨index, table⟩, hscaled, max, hmax, ⟨⟩, hguard, -, -, h⟩ := h
    cases h
    simp only [contiguous, Bool.and_eq_true, beq_iff_eq] at hcontiguous
    -- The jump to the default stands between the branch and `add`; nothing is told of its target.
    obtain ⟨hcompare, -, -, hadd, hxchg, -⟩ := hcontiguous
    have hbranch := (Option.guard_eq_some' _).1 hguard
    rw [Bool.and_eq_true, decide_eq_true_eq] at hbranch
    have hguards : jbe.placeWhen? true = some add.linear := by
      rw [Instruction.placeWhen?, if_pos hbranch.1, if_pos rfl, hbranch.2]
    exact ⟨compare, jbe, add, xchg, jump,
      ⟨hmax, hcompare, hguards, hscaled, hadd, hxchg, rfl⟩,
      List.Subset.trans (by simp) hsubset, hlast (by simp)⟩
  · cases h

/-- Here the branch is taken when the index is out of range, so with a low one control falls through
    it to `add`. Nothing is told of the subtraction in front. -/
theorem recognized_of_biasedRange (h : biasedRange.recognize window = some m) :
    RecognizedIn window m := by
  simp only [biasedRange, Option.bind_eq_bind, Option.bind_eq_some_iff] at h
  obtain ⟨six, hsix, h⟩ := h
  obtain ⟨hsubset, hlast, hcontiguous⟩ := of_lastSix? hsix
  split at h
  · rename_i sub compare ja add xchg jump
    simp only [Option.bind_eq_some_iff] at h
    obtain ⟨⟨index, table⟩, hscaled, max, hmax, -, -, ⟨⟩, hguard, h⟩ := h
    cases h
    simp only [contiguous, Bool.and_eq_true, beq_iff_eq] at hcontiguous
    obtain ⟨-, hcompare, hnext, hadd, hxchg, -⟩ := hcontiguous
    have hbranch := (Option.guard_eq_some' _).1 hguard
    -- This branch leaves the range, so with a low index control falls through it.
    have hother : branchesOn .be ja = false := by
      rw [branchesOn, Bool.and_eq_true, decide_eq_true_eq, decide_eq_true_eq] at hbranch
      simp [branchesOn, hbranch.2]
    have hguards : ja.placeWhen? true = some add.linear := by
      rw [Instruction.placeWhen?, hother, hbranch, hnext]
      rfl
    exact ⟨compare, ja, add, xchg, jump,
      ⟨hmax, hcompare, hguards, hscaled, hadd, hxchg, rfl⟩,
      List.Subset.trans (by simp) hsubset, hlast (by simp)⟩
  · cases h

/-- **The standard templates recognize dispatches with a bounds check**, and nothing else. Whichever
    of them matches first, what it tells is the same. -/
theorem recognized_of_firstMatch? (h : firstMatch? standard window = some m) :
    RecognizedIn window m := by
  rw [firstMatch?, List.findSome?_eq_some_iff] at h
  obtain ⟨before, t, after, ht, hm, -⟩ := h
  have hmem : t ∈ standard := by simp [ht]
  rw [standard, List.mem_cons, List.mem_singleton] at hmem
  rcases hmem with rfl | rfl
  · exact recognized_of_boundsChecked hm
  · exact recognized_of_biasedRange hm

end SwitchTemplate

end RealMode
