import Mathlib.Data.Fintype.Pigeonhole
import RealMode.Proofs.FlowGraph.Building

namespace RealMode.FlowGraph

/-!
# When building a graph ends

Filling a block follows control from instruction to instruction and stops in front of the
next node. It may never come to one.

* `onward?` — where that walk goes behind an instruction, `visited?` — where it is after so
  many steps;
* `fillBlock_eq_none_iff` — filling a block does not end exactly if the walk never stops,
  and `endless_iff_revisits` — exactly if it comes to a place twice;
* `Circles` — that happens to some block while the graph of a disassembly is built, and
  `build_eq_none_iff_circles` — which is the only way for building not to end.
-/

variable {d : Disassembly} {g : FlowGraph}

/-! ### The walk of a block -/

/-- Where the walk of a block goes behind an instruction that is not its last. -/
def onward? (d : Disassembly) (g : FlowGraph) (i : Instruction) : Option Instruction :=
  if i.mnemonic.isJump || (i.mnemonic.isReturn || d.isExit i.linear) then none
  else (d.find? i.nextLinear).filter (!startsNode d g ·)

/-- The instruction that the walk of a block visits after `n` steps from `head`. -/
def visited? (d : Disassembly) (g : FlowGraph) (head : Instruction) : Nat → Option Instruction
  | 0 => some head
  | n + 1 => (visited? d g head n).bind (onward? d g)

/-- The walk of a block from `head` comes to a place twice. -/
def Revisits (d : Disassembly) (g : FlowGraph) (head : Instruction) : Prop :=
  ∃ m n i j, m < n ∧ visited? d g head m = some i ∧ visited? d g head n = some j ∧
    i.linear = j.linear

/-- The first step of the walk taken off at the front: what it visits later is what a walk from the
    second instruction visits. `visited?` itself takes steps off at the end. -/
theorem visited?_succ (head : Instruction) (n : Nat) :
    visited? d g head (n + 1) = (onward? d g head).bind (visited? d g · n) := by
  induction n with
  | zero => cases h : onward? d g head <;> simp [visited?, h]
  | succ n ih =>
    rw [visited?, ih, Option.bind_assoc]
    rfl

/-- Two places visited in a row are joined by one step of the walk. -/
theorem onward?_of_visited? {head i j : Instruction} {n : Nat}
    (hi : visited? d g head n = some i) (hj : visited? d g head (n + 1) = some j) :
    onward? d g i = some j := by
  rwa [visited?, hi, Option.bind_some] at hj

/-- The walk goes on to the instruction behind, which is one of the disassembly and begins no
    node. -/
theorem onward?_eq_some {i next : Instruction} (h : onward? d g i = some next) :
    d.find? i.nextLinear = some next ∧ startsNode d g next = false := by
  unfold onward? at h
  split at h
  · cases h
  · rw [Option.filter_eq_some_iff] at h
    exact ⟨h.1, by simpa using h.2⟩

/-- The walk goes on only behind instructions that are neither jumps nor ends of control: the two
    tests that filling a block makes in front of the next instruction. -/
theorem onward?_cases {i next : Instruction} (h : onward? d g i = some next) :
    i.mnemonic.isJump = false ∧ (i.mnemonic.isReturn || d.isExit i.linear) = false := by
  unfold onward? at h
  split at h
  · cases h
  · rename_i hgo
    rwa [Bool.not_eq_true, Bool.or_eq_false_iff] at hgo

/-! ### Filling a block is walking it -/

/-- A block may hold whatever its walk goes on to, whatever it holds already, since a node begins
    nowhere on the walk behind its head. -/
theorem mayHold_of_onward? {i next : Instruction} (h : onward? d g i = some next)
    (body : Array Instruction) : MayHold d g body next :=
  .inr (onward?_eq_some h).2

/-- Filling a block and walking it stay in step: where the walk goes on, the block takes up the
    instruction and is filled from the next one. -/
theorem fillBlock_of_onward? {body : Array Instruction} {i next : Instruction}
    (hhold : MayHold d g body i) (h : onward? d g i = some next) :
    fillBlock d g body i = fillBlock d g (body.push i) next := by
  obtain ⟨hfind, -⟩ := onward?_eq_some h
  obtain ⟨hjump, hstop⟩ := onward?_cases h
  rw [fillBlock.eq_def]
  simp only [mayHold_iff.1 hhold, hjump, hstop, instructionAt, hfind, Bool.false_eq_true, if_false]

/-- A block ends where its walk does, with a result or with a failure. So only the walk can keep
    filling from an end. -/
theorem fillBlock_of_onward?_eq_none (body : Array Instruction) {i : Instruction}
    (h : onward? d g i = none) : ∃ res, fillBlock d g body i = some res := by
  rw [fillBlock.eq_def]
  split
  · exact ⟨_, rfl⟩
  · split
    · split <;> exact ⟨_, rfl⟩
    · rename_i hjump
      split
      · exact ⟨_, rfl⟩
      · rename_i hstop
        rw [onward?, if_neg (by rw [Bool.or_eq_true, not_or]; exact ⟨hjump, hstop⟩)] at h
        cases hnext : d.find? i.nextLinear with
        | none =>
          rw [instructionAt, hnext]
          exact ⟨_, rfl⟩
        | some next =>
          -- The next instruction begins a node, so the block ends in front of it.
          have hstarts : startsNode d g next = true := by
            rw [hnext, Option.filter_eq_none_iff] at h
            simpa using h next rfl
          rw [instructionAt, hnext]
          simp only
          rw [fillBlock.eq_def, if_pos]
          · exact ⟨_, rfl⟩
          · simp [hstarts]

/-- **Filling a block does not end exactly if its walk never stops.** Where the walk stops, filling
    ends; and a filling that ends has taken up the instructions of the walk one after another, so
    the walk has stopped by then. -/
theorem fillBlock_eq_none_iff {body : Array Instruction} {i : Instruction}
    (hhold : MayHold d g body i) :
    fillBlock d g body i = none ↔ ∀ n, (visited? d g i n).isSome = true := by
  constructor
  · intro hnone n
    -- Where the walk stops, so does the block.
    induction n generalizing body i with
    | zero => rfl
    | succ n ih =>
      rw [visited?_succ]
      cases hnext : onward? d g i with
      | none =>
        obtain ⟨res, hres⟩ := fillBlock_of_onward?_eq_none body hnext
        rw [hnone] at hres
        cases hres
      | some next =>
        rw [fillBlock_of_onward? hhold hnext] at hnone
        exact ih (mayHold_of_onward? hnext _) hnone
  · intro hall
    by_contra hsome
    obtain ⟨res, hres⟩ := Option.ne_none_iff_exists'.1 hsome
    clear hsome
    -- A block that ends does so after as many steps as it holds instructions.
    revert hhold hall
    refine fillBlock.partial_correctness d g (fun body i _ => MayHold d g body i →
      (∀ n, (visited? d g i n).isSome = true) → False) ?_ body i res hres
    intro fillBlock ih body i res hres hhold hall
    cases hnext : onward? d g i with
    | none =>
      have hone := hall 1
      rw [visited?_succ, hnext] at hone
      cases hone
    | some next =>
      obtain ⟨hfind, -⟩ := onward?_eq_some hnext
      obtain ⟨hjump, hstop⟩ := onward?_cases hnext
      simp only [mayHold_iff.1 hhold, hjump, hstop, instructionAt, hfind, Bool.false_eq_true,
        if_false] at hres
      refine ih (body.push i) next res hres (mayHold_of_onward? hnext _) fun n => ?_
      have hsucc := hall (n + 1)
      rwa [visited?_succ, hnext] at hsucc

/-! ### Circles -/

/-- What the walk visits is an instruction of the disassembly, listed at its own place. -/
theorem find?_of_visited? {head i : Instruction} (hhead : d.find? head.linear = some head)
    {n : Nat} (h : visited? d g head n = some i) : d.find? i.linear = some i := by
  cases n with
  | zero =>
    cases h
    exact hhead
  | succ n =>
    rw [visited?, Option.bind_eq_some_iff] at h
    obtain ⟨j, -, hj⟩ := h
    obtain ⟨hfind, -⟩ := onward?_eq_some hj
    exact Disassembly.find?_linear hfind

/-- A walk that is still going after `n` steps was going all the time before. -/
theorem visited?_of_le {head : Instruction} {m n : Nat} (hmn : m ≤ n)
    (h : (visited? d g head n).isSome = true) : (visited? d g head m).isSome = true := by
  induction n with
  | zero =>
    obtain rfl := Nat.le_zero.1 hmn
    exact h
  | succ n ih =>
    rcases Nat.le_or_eq_of_le_succ hmn with hle | rfl
    · refine ih hle ?_
      rw [visited?] at h
      cases hv : visited? d g head n with
      | none =>
        rw [hv] at h
        cases h
      | some i => rfl
    · exact h

/-- **A walk that never stops comes to a place twice**, since a disassembly has finitely many
    places. The other way round, from the place that it comes to twice the walk repeats itself. -/
theorem endless_iff_revisits {head : Instruction} (hhead : d.find? head.linear = some head) :
    (∀ n, (visited? d g head n).isSome = true) ↔ Revisits d g head := by
  constructor
  · intro hall
    -- There are only so many places.
    let place (n : Nat) : Fin Address.linearBound :=
      ⟨((visited? d g head n).get (hall n)).linear, Address.linear_lt _⟩
    obtain ⟨m, n, hne, hplace⟩ := Finite.exists_ne_map_eq_of_infinite place
    have hlinear := congrArg Fin.val hplace
    rcases Nat.lt_or_gt_of_ne hne with hlt | hlt
    · exact ⟨m, n, _, _, hlt, (Option.some_get _).symm, (Option.some_get _).symm, hlinear⟩
    · exact ⟨n, m, _, _, hlt, (Option.some_get _).symm, (Option.some_get _).symm, hlinear.symm⟩
  · rintro ⟨m, n, i, j, hlt, hi, hj, hlinear⟩
    have hsame : i = j := by
      have hfi := find?_of_visited? hhead hi
      rw [hlinear, find?_of_visited? hhead hj] at hfi
      exact (Option.some.inj hfi).symm
    subst hsame
    -- From the second visit on, the walk repeats itself.
    have hperiod (k : Nat) : visited? d g head (m + k) = visited? d g head (n + k) := by
      induction k with
      | zero => rw [Nat.add_zero, Nat.add_zero, hi, hj]
      | succ k ih => rw [← Nat.add_assoc, ← Nat.add_assoc, visited?, visited?, ih]
    have hagain (t : Nat) : (visited? d g head (m + (n - m) * t)).isSome = true := by
      induction t with
      | zero => rw [Nat.mul_zero, Nat.add_zero, hi]; rfl
      | succ t ih =>
        have hshift : m + (n - m) * (t + 1) = n + (n - m) * t := by
          rw [Nat.mul_succ]
          omega
        rw [hshift, ← hperiod]
        exact ih
    intro t
    refine visited?_of_le ?_ (hagain t)
    have hpos : t ≤ (n - m) * t := Nat.le_mul_of_pos_left t (by omega)
    omega

/-! ### Graphs that are never finished -/

/-- **A node is not filled exactly if it is a block whose walk comes to a place twice.** Branches
    and switches are filled with what they lead to, which always ends. -/
theorem fill_eq_none_iff {id : Nat} :
    fill d g id = none ↔ ∃ n head, g.nodes[id]? = some n ∧ n.kind = .block ∧
      d.find? n.linear = some head ∧ Revisits d g head := by
  have hblock {n : Node} {head : Instruction} (hn : g.nodes[id]? = some n) (hk : n.kind = .block)
      (hhead : d.find? n.linear = some head) : fill d g id = none ↔ Revisits d g head := by
    have hl : d.find? head.linear = some head := Disassembly.find?_linear hhead
    rw [fill_block hn hk hhead, Option.map_eq_none_iff, fillBlock_eq_none_iff (.inl rfl),
      endless_iff_revisits hl]
  constructor
  · intro hnone
    have hopen := hnone
    -- Every other step of filling a node gives a result.
    unfold fill at hopen
    split at hopen
    · cases hopen
    · rename_i n hn
      split at hopen
      · cases hopen
      · cases hopen
      · obtain ⟨head, -, hopen⟩ := ok_of_liftM_bind hopen nofun
        split at hopen
        · obtain ⟨p, -, hopen⟩ := ok_of_liftM_bind hopen nofun
          cases hopen
        · cases hopen
      · obtain ⟨head, -, hopen⟩ := ok_of_liftM_bind hopen nofun
        obtain ⟨p, -, hopen⟩ := ok_of_liftM_bind hopen nofun
        cases hopen
      · rename_i hk
        obtain ⟨head, hhead, -⟩ := ok_of_liftM_bind hopen nofun
        have hfind : d.find? n.linear = some head := by
          unfold instructionAt at hhead
          split at hhead
          · rename_i i hi
            cases hhead
            exact hi
          · cases hhead
        exact ⟨n, head, hn, hk, hfind, (hblock hn hk hfind).1 hnone⟩
  · rintro ⟨n, head, hn, hk, hhead, hrevisits⟩
    exact (hblock hn hk hhead).2 hrevisits

/-- While the graph of the disassembly is built, the walk of some block comes to a place
    twice. -/
def Circles (d : Disassembly) : Prop :=
  ∃ k ≤ d.size, ∃ g n head, filledTo d k = some (.ok g) ∧ g.nodes[k + 1]? = some n ∧
    n.kind = .block ∧ d.find? n.linear = some head ∧ Revisits d g head

/-- Filling node after node does not end exactly if one of the nodes is not filled, with the nodes
    in front of it filled without fail. -/
theorem filledTo_eq_none_iff (k : Nat) :
    filledTo d k = none ↔
      ∃ m < k, ∃ g, filledTo d m = some (.ok g) ∧ fill d g (m + 1) = none := by
  induction k with
  | zero =>
    rw [filledTo_zero]
    constructor
    · intro h
      cases h
    · rintro ⟨m, hm, -⟩
      exact absurd hm (Nat.not_lt_zero m)
  | succ k ih =>
    rw [filledTo_succ]
    constructor
    · intro h
      -- Either an earlier node is not filled, or this one.
      cases hprev : filledTo d k with
      | none =>
        obtain ⟨m, hm, hrest⟩ := ih.1 hprev
        exact ⟨m, Nat.lt_succ_of_lt hm, hrest⟩
      | some prev =>
        rw [hprev] at h
        cases prev with
        | error e => cases h
        | ok g => exact ⟨k, Nat.lt_succ_self k, g, hprev, h⟩
    · rintro ⟨m, hm, g, hg, hnone⟩
      rcases Nat.lt_succ_iff_lt_or_eq.1 hm with hlt | rfl
      · rw [ih.2 ⟨m, hlt, g, hg, hnone⟩]
        rfl
      · rw [hg]
        exact hnone

/-- **Building does not end exactly if some block comes to a place twice.** There are at most
    `d.size + 1` nodes to fill, so nothing else in it can go on for ever. -/
theorem build_eq_none_iff_circles (d : Disassembly) : build d = none ↔ Circles d := by
  have hbuild : build d = none ↔ filledTo d (d.size + 1) = none := by
    rw [← buildNodes_eq]
    show (buildNodes d).adapt _ = none ↔ _
    cases buildNodes d with
    | none => exact ⟨fun _ => rfl, fun _ => rfl⟩
    | some res =>
      refine ⟨fun h => ?_, fun h => ?_⟩
      · cases res <;> cases h
      · cases h
  rw [hbuild, filledTo_eq_none_iff]
  constructor
  · rintro ⟨k, hk, g, hg, hnone⟩
    obtain ⟨n, head, hn, hkind, hhead, hrevisits⟩ := fill_eq_none_iff.1 hnone
    exact ⟨k, Nat.le_of_lt_succ hk, g, n, head, hg, hn, hkind, hhead, hrevisits⟩
  · rintro ⟨k, hk, g, n, head, hg, hn, hkind, hhead, hrevisits⟩
    exact ⟨k, Nat.lt_succ_of_le hk, g, hg,
      fill_eq_none_iff.2 ⟨n, head, hn, hkind, hhead, hrevisits⟩⟩

end RealMode.FlowGraph
