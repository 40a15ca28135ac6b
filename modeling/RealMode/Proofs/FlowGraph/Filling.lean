import RealMode.Proofs.Disassembly.ControlFlow
import RealMode.Proofs.FlowGraph.Growth
import RealMode.Results

namespace RealMode.FlowGraph

/-!
# Filling nodes

* `FillsBlock` — how a block goes on, case by case;
* `Leads` — from an instruction, control goes through a list of instructions and then to a
  list of nodes;
* `fillBlock_spec` — a block that ends holds what control goes through from its first
  instruction on;
* `fill_spec` — so does every node that is filled, and filling never fails.
-/

variable {d : Disassembly} {g g' : FlowGraph}

/-! ### How a block goes on -/

/-- A block may hold the instruction that it is to go on at. -/
def MayHold (d : Disassembly) (g : FlowGraph) (body : Array Instruction) (i : Instruction) :
    Prop :=
  body = #[] ∨ startsNode d g i = false

/-- The test that filling makes in front of each instruction, on arrays and Booleans, is the
    negation of `MayHold`. -/
theorem mayHold_iff {body : Array Instruction} {i : Instruction} :
    MayHold d g body i ↔ (!body.isEmpty && startsNode d g i) = false := by
  simp only [MayHold, Bool.and_eq_false_iff, Bool.not_eq_false', Array.isEmpty_iff]

/-- How a block that holds `body` so far goes on at an instruction, one case for each thing that
    can be there. -/
inductive FillsBlock (d : Disassembly) (g : FlowGraph) :
    Array Instruction → Instruction → Except Fault (BlockBody × FlowGraph) → Prop
  | cut {body : Array Instruction} {i : Instruction} (hbody : body ≠ #[])
      (hstarts : startsNode d g i = true) :
    FillsBlock d g body i (endBefore d g body i.linear i.linear)
  | jump {body : Array Instruction} {i : Instruction} {t : Address} (hhold : MayHold d g body i)
      (ht : d.followed? i = some t) :
    FillsBlock d g body i (endBefore d g body t.linear i.linear)
  | lost {body : Array Instruction} {i : Instruction} (hhold : MayHold d g body i)
      (hjump : i.mnemonic.isJump = true)
      (ht : d.followed? i = none) :
    FillsBlock d g body i
      (.ok (⟨(body.push i).toList, []⟩, { g with unresolved := g.unresolved.push i.linear }))
  | stop {body : Array Instruction} {i : Instruction} (hhold : MayHold d g body i)
      (hjump : i.mnemonic.isJump = false)
      (hstop : (i.mnemonic.isReturn || d.isExit i.linear) = true) :
    FillsBlock d g body i
      (.ok (⟨(body.push i).toList, [(g.stopNode i.linear).1]⟩, (g.stopNode i.linear).2))
  | fault {body : Array Instruction} {i : Instruction} (hhold : MayHold d g body i)
      (hjump : i.mnemonic.isJump = false)
      (hgo : (i.mnemonic.isReturn || d.isExit i.linear) = false)
      (hnext : d.find? i.nextLinear = none) :
    FillsBlock d g body i (.error (.unresolvedFlow i.linear i.nextLinear))
  | next {body : Array Instruction} {i next : Instruction}
      {res : Except Fault (BlockBody × FlowGraph)} (hhold : MayHold d g body i)
      (hjump : i.mnemonic.isJump = false)
      (hgo : (i.mnemonic.isReturn || d.isExit i.linear) = false)
      (hnext : d.find? i.nextLinear = some next) (h : FillsBlock d g (body.push i) next res) :
    FillsBlock d g body i res

/-- A filling that ends went on by these cases. The function recurses without a measure, so this is
    by its partial correctness. -/
theorem fillsBlock_of_fillBlock {body : Array Instruction} {i : Instruction}
    {res : Except Fault (BlockBody × FlowGraph)} (h : fillBlock d g body i = some res) :
    FillsBlock d g body i res := by
  -- The block ends, so the induction is on the steps until it does.
  refine fillBlock.partial_correctness d g (FillsBlock d g) ?_ body i res h
  intro fillBlock ih body i res hres
  split at hres
  · rename_i hcut
    rw [Bool.and_eq_true, Bool.not_eq_true', Array.isEmpty_eq_false_iff] at hcut
    cases hres
    exact .cut hcut.1 hcut.2
  · rename_i hcut
    have hhold := mayHold_iff.2 (Bool.eq_false_iff.2 hcut)
    split at hres
    · rename_i hjump
      split at hres
      · rename_i t ht hnone
        cases hres
        exact .jump hhold (Disassembly.followed?_eq_some_iff.2 ⟨hjump, hnone, ht⟩)
      · rename_i hopen
        cases hres
        refine .lost hhold hjump (Option.eq_none_iff_forall_ne_some.2 fun t ht => ?_)
        obtain ⟨-, hun, ht⟩ := Disassembly.followed?_eq_some_iff.1 ht
        exact hopen t ht hun
    · rename_i hjump
      rw [Bool.not_eq_true] at hjump
      split at hres
      · rename_i hstop
        cases hres
        exact .stop hhold hjump hstop
      · rename_i hgo
        rw [Bool.not_eq_true] at hgo
        cases hnext : d.find? i.nextLinear with
        | none =>
          rw [instructionAt, hnext] at hres
          cases hres
          exact .fault hhold hjump hgo hnext
        | some next =>
          rw [instructionAt, hnext] at hres
          exact .next hhold hjump hgo hnext (ih _ _ _ hres)

/-- Each case is one unfolding of the function. -/
theorem FillsBlock.fillBlock_eq {body : Array Instruction} {i : Instruction}
    {res : Except Fault (BlockBody × FlowGraph)} (h : FillsBlock d g body i res) :
    fillBlock d g body i = some res := by
  induction h with
  | cut hbody hstarts =>
    rw [fillBlock.eq_def, if_pos (by simp [hbody, hstarts])]
  | jump hhold ht =>
    obtain ⟨hjump, hnone, ht⟩ := Disassembly.followed?_eq_some_iff.1 ht
    rw [fillBlock.eq_def]
    simp only [mayHold_iff.1 hhold, hjump, ht, hnone, Bool.false_eq_true, if_false, if_true]
  | lost hhold hjump ht =>
    rw [fillBlock.eq_def]
    simp only [mayHold_iff.1 hhold, hjump, Bool.false_eq_true, if_false, if_true]
    split
    · rename_i t ht' hnone
      rw [Disassembly.followed?_eq_some_iff.2 ⟨hjump, hnone, ht'⟩] at ht
      cases ht
    · rfl
  | stop hhold hjump hstop =>
    rw [fillBlock.eq_def]
    simp only [mayHold_iff.1 hhold, hjump, hstop, Bool.false_eq_true, if_false, if_true]
  | fault hhold hjump hgo hnext =>
    rw [fillBlock.eq_def]
    simp only [mayHold_iff.1 hhold, hjump, hgo, instructionAt, hnext, Bool.false_eq_true,
      if_false]
  | next hhold hjump hgo hnext h ih =>
    rw [fillBlock.eq_def]
    simp only [mayHold_iff.1 hhold, hjump, hgo, instructionAt, hnext, Bool.false_eq_true,
      if_false]
    exact ih

/-- The cases are those of the function, with its results. From here on blocks are taken apart by
    induction on `FillsBlock`. -/
theorem fillBlock_eq_some_iff {body : Array Instruction} {i : Instruction}
    {res : Except Fault (BlockBody × FlowGraph)} :
    fillBlock d g body i = some res ↔ FillsBlock d g body i res :=
  ⟨fillsBlock_of_fillBlock, FillsBlock.fillBlock_eq⟩

/-! ### What a node stands for -/

/-- The nodes at a list of places. -/
def Names (g : FlowGraph) : List Nat → List Nat → Prop :=
  List.Forall₂ fun a id => g.byLinear[a]? = some id

/-- From an instruction, control goes through the listed instructions and then to the listed
    nodes. A jump that is followed leaves no trace. -/
inductive Leads (d : Disassembly) (g : FlowGraph) : Instruction → List Instruction → List Nat → Prop
  | turn {i : Instruction} {es : List Nat} (hf : d.isFollowed i = false)
      (he : g.Names (d.successors i) es) : Leads d g i [i] es
  | jump {i : Instruction} {es : List Nat} (hf : d.isFollowed i = true)
      (he : g.Names (d.successors i) es) : Leads d g i [] es
  | stop {i : Instruction} {id : Nat} (hf : d.isFollowed i = false) (hs : d.successors i = [])
      (hid : g.stop = some id) : Leads d g i [i] [id]
  | next {i next : Instruction} {is : List Instruction} {es : List Nat}
      (hf : d.isFollowed i = false) (hs : d.successors i = [i.nextLinear])
      (hn : d.find? i.nextLinear = some next) (h : Leads d g next is es) : Leads d g i (i :: is) es

theorem Names.mono (h : ∀ {a id : Nat}, g.byLinear[a]? = some id → g'.byLinear[a]? = some id)
    {targets ids : List Nat} (hn : g.Names targets ids) : g'.Names targets ids :=
  List.Forall₂.imp (fun _ _ ha => h ha) hn

/-- What a node stands for does not change while the graph grows, because it is said by names and
    the end, and both stay. -/
theorem Leads.mono {i : Instruction} {is : List Instruction} {es : List Nat}
    (hl : Leads d g i is es)
    (hn : ∀ {a id : Nat}, g.byLinear[a]? = some id → g'.byLinear[a]? = some id)
    (hs : ∀ {id : Nat}, g.stop = some id → g'.stop = some id) : Leads d g' i is es := by
  induction hl with
  | turn hf he => exact .turn hf (he.mono hn)
  | jump hf he => exact .jump hf (he.mono hn)
  | stop hf hs' hid => exact .stop hf hs' (hs hid)
  | next hf hs' hnext _ ih => exact .next hf hs' hnext ih

/-! ### Blocks -/

/-- How a block goes on at the instruction `i` behind the instructions `body`: in front of
    `i` begins another node, or the rest of the block is what `i` leads to. -/
def Continues (d : Disassembly) (g : FlowGraph) (body : Array Instruction) (i : Instruction)
    (b : BlockBody) : Prop :=
  (body ≠ #[] ∧ b.instructions = body.toList ∧ ∃ id, b.edges = [id] ∧
    g.byLinear[i.linear]? = some id) ∨
  ∃ is, Leads d g i is b.edges ∧ b.instructions = body.toList ++ is

/-- What control goes through behind a plain instruction is the rest of its block, whether the block
    goes on there or ends in front of it. -/
theorem leads_of_continues {body : Array Instruction} {i next : Instruction} {b : BlockBody}
    (hf : d.isFollowed i = false) (hs : d.successors i = [i.nextLinear])
    (hn : d.find? i.nextLinear = some next) (h : Continues d g (body.push i) next b) :
    ∃ is, Leads d g i is b.edges ∧ b.instructions = body.toList ++ is := by
  rcases h with ⟨-, hb, id, he, hid⟩ | ⟨is, hl, hb⟩
  · -- Another node begins behind `i`, so the block ends with it.
    refine ⟨[i], ?_, by rw [hb, Array.toList_push]⟩
    rw [he]
    apply Leads.turn hf
    rw [hs]
    rw [Disassembly.linear_of_find? hn] at hid
    exact .cons hid .nil
  · refine ⟨i :: is, .next hf hs hn hl, ?_⟩
    rw [hb, Array.toList_push, List.append_assoc]
    rfl

/-- Ending a block in front of an instruction makes the node there if need be, and never fails. -/
theorem endBefore_spec (h : Indexed d g) (body : Array Instruction) {linear : Nat}
    {head : Instruction} (hhead : d.find? linear = some head) (source : Nat) :
    ∃ id g', endBefore d g body linear source = .ok (⟨body.toList, [id]⟩, g') ∧ Grows g g' ∧
      Indexed d g' ∧ g'.byLinear[linear]? = some id := by
  obtain ⟨id, g', hnode, hgrows, hindexed, hid⟩ := nodeFor_spec h hhead source
  refine ⟨id, g', ?_, hgrows, hindexed, hid⟩
  simp only [endBefore, hnode, bind, Except.bind, pure, Except.pure]

/-- The kind of a node tells what its first instruction is: a switch, a conditional branch, or
    neither. -/
theorem ofInstruction_cases (i : Instruction) :
    (NodeKind.ofInstruction i = .switch ∧ i.mnemonic = .switch) ∨
      (NodeKind.ofInstruction i = .branch ∧ i.mnemonic.isConditionalBranch = true) ∨
      (NodeKind.ofInstruction i = .block ∧ i.mnemonic.isConditionalBranch = false ∧
        i.mnemonic ≠ .switch) := by
  unfold NodeKind.ofInstruction
  by_cases hs : i.mnemonic = .switch
  · simp [hs]
  · cases hb : i.mnemonic.isConditionalBranch <;> simp [hs]

theorem ofInstruction_eq_block {i : Instruction} (h : NodeKind.ofInstruction i = .block) :
    i.mnemonic.isConditionalBranch = false ∧ i.mnemonic ≠ .switch := by
  rcases ofInstruction_cases i with ⟨hk, -⟩ | ⟨hk, -⟩ | ⟨-, hplain⟩
  · rw [hk] at h
    cases h
  · rw [hk] at h
    cases h
  · exact hplain

/-- What a block holds belongs into a block. Its first instruction does by the kind of the node, and
    a later one because a branch or a switch begins a node of its own. -/
theorem MayHold.block {body : Array Instruction} {i : Instruction} (h : MayHold d g body i)
    (hblock : body = #[] → NodeKind.ofInstruction i = .block) :
    NodeKind.ofInstruction i = .block := by
  rcases h with hempty | hstarts
  · exact hblock hempty
  · simp only [startsNode, Bool.or_eq_false_iff, bne_eq_false_iff_eq] at hstarts
    exact hstarts.2

/-- A jump that is followed is an edge, and in no node. The block ends in front of its target, where
    there is an instruction. -/
theorem continues_of_followed (hd : d.WellFormed) (h : Indexed d g) (body : Array Instruction)
    {i : Instruction} {t : Address} (hi : d.find? i.linear = some i)
    (ht : d.followed? i = some t) :
    ∃ b g', endBefore d g body t.linear i.linear = .ok (b, g') ∧ Grows g g' ∧ Indexed d g' ∧
      Continues d g' body i b := by
  have hfollowed : d.isFollowed i = true := by
    rw [Disassembly.isFollowed, ht]
    rfl
  have hsucc : d.successors i = [t.linear] := by
    rw [hd.successors_jump hi (Disassembly.followed?_eq_some_iff.1 ht).1, ht]
    rfl
  obtain ⟨head, hhead⟩ := hd.closed hi t.linear (by rw [hsucc]; exact List.mem_cons_self)
  obtain ⟨id, g', hend, hgrows, hindexed, hid⟩ := endBefore_spec h body hhead i.linear
  refine ⟨_, g', hend, hgrows, hindexed, .inr ⟨[], .jump hfollowed ?_, ?_⟩⟩
  · rw [hsucc]
    exact .cons hid .nil
  · rw [List.append_nil]

/-- A jump that is not followed is the last of its block, and ends it without a way on. -/
theorem continues_of_not_followed (hd : d.WellFormed) (body : Array Instruction) {i : Instruction}
    (hi : d.find? i.linear = some i) (hjump : i.mnemonic.isJump = true)
    (ht : d.followed? i = none) : Continues d g body i ⟨(body.push i).toList, []⟩ := by
  have hnofollow : d.isFollowed i = false := by
    rw [Disassembly.isFollowed, ht]
    rfl
  have hsucc : d.successors i = [] := by
    rw [hd.successors_jump hi hjump, ht]
    rfl
  refine .inr ⟨[i], .turn hnofollow ?_, Array.toList_push⟩
  rw [hsucc]
  exact .nil

/-- **Blocks hold what control goes through.** A block that ends does not fail: where control goes
    on, a well-formed disassembly has an instruction. The induction is on how the block went on. -/
theorem fillBlock_spec (hd : d.WellFormed) (h : Indexed d g) {body : Array Instruction}
    {i : Instruction} {res : Except Fault (BlockBody × FlowGraph)}
    (hres : fillBlock d g body i = some res) (hi : d.find? i.linear = some i)
    (hblock : body = #[] → NodeKind.ofInstruction i = .block) :
    ∃ b g', res = .ok (b, g') ∧ Grows g g' ∧ Indexed d g' ∧ Continues d g' body i b := by
  rw [fillBlock_eq_some_iff] at hres
  induction hres with
  | @cut body i hbody hstarts =>
    obtain ⟨id, g', hend, hgrows, hindexed, hid⟩ := endBefore_spec h body hi i.linear
    exact ⟨_, g', hend, hgrows, hindexed, .inl ⟨hbody, rfl, id, rfl, hid⟩⟩
  | @jump body i t hhold ht => exact continues_of_followed hd h body hi ht
  | @lost body i hhold hjump ht =>
    exact ⟨_, { g with unresolved := g.unresolved.push i.linear }, rfl, ⟨id, id, id⟩,
      ⟨h.named, h.known, h.stop, h.size⟩, continues_of_not_followed hd body hi hjump ht⟩
  | @stop body i hhold hjump hstop =>
    -- Returns and exits lead to the end.
    have hnofollow := Disassembly.isFollowed_of_not_isJump (d := d) hjump
    obtain ⟨id, g', hnode, hgrows, hindexed, hid⟩ := stopNode_spec h i.linear
    rw [hnode]
    exact ⟨_, g', rfl, hgrows, hindexed,
      .inr ⟨[i], .stop hnofollow (Disassembly.successors_stop hstop) hid, Array.toList_push⟩⟩
  | @fault body i hhold hjump hgo hnext =>
    -- Control goes straight on, and a well-formed disassembly has an instruction there.
    obtain ⟨hnobranch, hnoswitch⟩ := ofInstruction_eq_block (hhold.block hblock)
    have hsucc := Disassembly.successors_plain hgo hjump hnobranch hnoswitch
    obtain ⟨next, hfound⟩ := hd.closed hi i.nextLinear (by rw [hsucc]; exact List.mem_cons_self)
    rw [hnext] at hfound
    cases hfound
  | @next body i next res hhold hjump hgo hnext _ ih =>
    obtain ⟨hnobranch, hnoswitch⟩ := ofInstruction_eq_block (hhold.block hblock)
    have hsucc := Disassembly.successors_plain hgo hjump hnobranch hnoswitch
    obtain ⟨b, g', rfl, hgrows, hindexed, hcont⟩ :=
      ih (Disassembly.find?_linear hnext) (fun he => by simp at he)
    exact ⟨b, g', rfl, hgrows, hindexed, .inr (leads_of_continues
      (Disassembly.isFollowed_of_not_isJump hjump) hsucc hnext hcont)⟩

/-! ### Nodes -/

/-- A node that is neither the start nor the end begins with an instruction, the one at its place,
    and has the kind that goes with it. -/
theorem Indexed.head (h : Indexed d g) {id : Nat} {n : Node} (hn : g.nodes[id]? = some n)
    (hstart : n.kind ≠ .start) (hstop : n.kind ≠ .stop) :
    g.byLinear[n.linear]? = some id ∧
      ∃ i, d.find? n.linear = some i ∧ n.kind = .ofInstruction i := by
  have hid : g.byLinear[n.linear]? = some id := by
    rcases h.known hn with ⟨-, hk⟩ | hs | hid
    · exact absurd hk hstart
    · obtain ⟨m, hm, hk, -⟩ := h.stop hs
      rw [hn] at hm
      cases hm
      exact absurd hk hstop
    · exact hid
  obtain ⟨m, i, hm, -, hi, hk⟩ := h.named hid
  rw [hn] at hm
  cases hm
  exact ⟨hid, i, hi, hk⟩

/-- A branch is filled with itself, and with edges to its target and to the instruction behind, in
    this order. -/
theorem fill_branch {id : Nat} {n : Node} {head : Instruction} {t : Address} {edges : List Nat}
    (hn : g.nodes[id]? = some n) (hk : n.kind = .branch) (hhead : d.find? n.linear = some head)
    (ht : head.target? = some t)
    (hnodes : g.nodesFor d n.linear [t.linear, head.nextLinear] = .ok (edges, g')) :
    fill d g id = some (.ok (g'.setNode id { n with instructions := [head], edges })) := by
  unfold fill
  simp only [hn, hk, instructionAt, hhead, liftM_ok_bind, ht, hnodes]
  rfl

/-- A switch is filled with itself, and with an edge for each of its cases in the order of the
    table. -/
theorem fill_switch {id : Nat} {n : Node} {head : Instruction} {edges : List Nat}
    (hn : g.nodes[id]? = some n) (hk : n.kind = .switch) (hhead : d.find? n.linear = some head)
    (hnodes : g.nodesFor d n.linear (head.cases.map fun c => (head.caseTarget c).linear) =
      .ok (edges, g')) :
    fill d g id = some (.ok (g'.setNode id
      { n with instructions := [head], edges, cases := head.cases.map (·.value) })) := by
  unfold fill
  simp only [hn, hk, instructionAt, hhead, liftM_ok_bind, hnodes]
  rfl

/-- A block is filled with what follows its first instruction, if that comes to an end. -/
theorem fill_block {id : Nat} {n : Node} {head : Instruction} (hn : g.nodes[id]? = some n)
    (hk : n.kind = .block) (hhead : d.find? n.linear = some head) :
    fill d g id = (fillBlock d g #[] head).map (Except.map fun p =>
      p.2.setNode id { n with instructions := p.1.instructions, edges := p.1.edges }) := by
  unfold fill
  simp only [hn, hk, instructionAt, hhead, liftM_ok_bind]
  show (ExceptT.mk (fillBlock d g #[] head) >>= _ : ExceptT Fault Option FlowGraph) = _
  cases fillBlock d g #[] head with
  | none => rfl
  | some res =>
    cases res with
    | error e => rfl
    | ok p => rfl

/-- The node at a position holds what control goes through from its place on. -/
def Filled (d : Disassembly) (g : FlowGraph) (id : Nat) : Prop :=
  ∀ {a : Nat}, g.byLinear[a]? = some id → ∃ n i, g.nodes[id]? = some n ∧ d.find? a = some i ∧
    Leads d g i n.instructions n.edges

/-- What filling a node leaves behind: the same nodes and maybe more, with this one filled. -/
structure Fills (d : Disassembly) (g : FlowGraph) (id : Nat) (g' : FlowGraph) : Prop where
  indexed : Indexed d g'
  filled : Filled d g' id
  node : ∀ {k : Nat} {n}, k ≠ id → g.nodes[k]? = some n → g'.nodes[k]? = some n
  named : ∀ {a k : Nat}, g.byLinear[a]? = some k → g'.byLinear[a]? = some k
  stop : ∀ {k : Nat}, g.stop = some k → g'.stop = some k
  idle : g.nodes[id]? = none → g' = g

/-- A node that begins with no instruction is as full as it gets. -/
theorem fills_self (h : Indexed d g) {id : Nat}
    (hid : ∀ {n}, g.nodes[id]? = some n → n.kind = .start ∨ n.kind = .stop) : Fills d g id g := by
  refine ⟨h, ?_, fun _ hn => hn, fun ha => ha, fun hs => hs, fun _ => rfl⟩
  intro a ha
  obtain ⟨n, i, hn, -, -, hk⟩ := h.named ha
  rcases hid hn with hs | hs
  · exact absurd (hk.symm.trans hs) (ofInstruction_ne_start i)
  · exact absurd (hk.symm.trans hs) (ofInstruction_ne_stop i)

/-- A node is filled by what its first instruction leads to. The others keep their positions, as
    only this one is written. -/
theorem fills_setNode {id : Nat} {n n' : Node} {i : Instruction} (hn : g.nodes[id]? = some n)
    (hgrows : Grows g g') (hindexed : Indexed d g') (hi : d.find? n.linear = some i)
    (hk : n.kind = .ofInstruction i) (hk' : n'.kind = n.kind) (hl' : n'.linear = n.linear)
    (hleads : Leads d g' i n'.instructions n'.edges) : Fills d g id (g'.setNode id n') := by
  have hn' : (g'.setNode id n').nodes[id]? = some n' := by
    rw [getElem?_setNode, if_pos rfl, hgrows.node hn]
    rfl
  have hindexed' : Indexed d (g'.setNode id n') :=
    hindexed.setNode (hgrows.node hn) (hk ▸ ofInstruction_ne_stop i) hk' hl'
  refine ⟨hindexed', ?_, ?_, hgrows.named, hgrows.stop, ?_⟩
  · intro a ha
    -- A name of the node is its own place, since names are of places of nodes.
    obtain ⟨m, j, hm, hma, hj, -⟩ := hindexed'.named ha
    rw [hn'] at hm
    cases hm
    refine ⟨n', j, hn', hj, ?_⟩
    rw [← hma, hl', hi] at hj
    cases hj
    exact hleads.mono (fun ha => ha) (fun hs => hs)
  · intro k m hne hm
    rw [getElem?_setNode, if_neg (Ne.symm hne)]
    exact hgrows.node hm
  · intro hnone
    rw [hn] at hnone
    cases hnone

/-- A branch or a switch is filled with itself, and with edges to all the places that control can go
    to from it. In a well-formed disassembly this ends and succeeds, as each of them holds an
    instruction. -/
theorem fill_turn (hd : d.WellFormed) (h : Indexed d g) {id : Nat} {n : Node} {i : Instruction}
    (hn : g.nodes[id]? = some n) (hi : d.find? n.linear = some i)
    (hki : n.kind = .ofInstruction i) (hk : NodeKind.ofInstruction i ≠ .block) :
    ∃ edges g₁ n', g.nodesFor d n.linear (d.successors i) = .ok (edges, g₁) ∧ Grows g g₁ ∧
      Indexed d g₁ ∧ g₁.Names (d.successors i) edges ∧
      fill d g id = some (.ok (g₁.setNode id n')) ∧ n'.kind = n.kind ∧ n'.linear = n.linear ∧
      n'.instructions = [i] ∧ n'.edges = edges := by
  obtain ⟨edges, g₁, hnodes, hgrows, hindexed, hedges⟩ :=
    nodesFor_spec h (fun b hb => hd.closed hi b hb) n.linear
  suffices hfill : ∃ n', fill d g id = some (.ok (g₁.setNode id n')) ∧ n'.kind = n.kind ∧
      n'.linear = n.linear ∧ n'.instructions = [i] ∧ n'.edges = edges by
    obtain ⟨n', hn'⟩ := hfill
    exact ⟨edges, g₁, n', hnodes, hgrows, hindexed, hedges, hn'⟩
  rcases ofInstruction_cases i with ⟨hswitch, hm⟩ | ⟨hbranch, hm⟩ | ⟨hblock, -⟩
  · have hfill := fill_switch hn (hki.trans hswitch) hi (hd.successors_switch hi hm ▸ hnodes)
    exact ⟨_, hfill, rfl, rfl, rfl, rfl⟩
  · obtain ⟨t, ht⟩ := hd.branch hi hm
    have hfill := fill_branch hn (hki.trans hbranch) hi ht (hd.successors_branch hi hm ht ▸ hnodes)
    exact ⟨_, hfill, rfl, rfl, rfl, rfl⟩
  · exact absurd hblock hk

/-- An instruction that does not go into a block is no jump, so it stays in its node. -/
theorem isJump_of_ofInstruction_ne_block {i : Instruction}
    (hk : NodeKind.ofInstruction i ≠ .block) : i.mnemonic.isJump = false := by
  rcases ofInstruction_cases i with ⟨-, hswitch⟩ | ⟨-, hbranch⟩ | ⟨hblock, -⟩
  · rw [hswitch]
    rfl
  · exact Mnemonic.isJump_of_isConditionalBranch hbranch
  · exact absurd hblock hk

/-- Filling a branch or a switch ends and succeeds. -/
theorem fills_turn (hd : d.WellFormed) (h : Indexed d g) {id : Nat} {n : Node} {i : Instruction}
    (hn : g.nodes[id]? = some n) (hi : d.find? n.linear = some i)
    (hki : n.kind = .ofInstruction i) (hk : NodeKind.ofInstruction i ≠ .block) :
    ∃ g', fill d g id = some (.ok g') ∧ Fills d g id g' := by
  obtain ⟨edges, g₁, n', -, hgrows, hindexed, hedges, hfill, hk', hl', his, hes⟩ :=
    fill_turn hd h hn hi hki hk
  refine ⟨_, hfill, fills_setNode hn hgrows hindexed hi hki hk' hl' ?_⟩
  rw [his, hes]
  exact .turn (Disassembly.isFollowed_of_not_isJump (isJump_of_ofInstruction_ne_block hk)) hedges

/-- Filling a block succeeds if it ends; the other kinds of nodes need no such condition. -/
theorem fills_block (hd : d.WellFormed) (h : Indexed d g) {id : Nat} {n : Node} {i : Instruction}
    (hn : g.nodes[id]? = some n) (hi : d.find? n.linear = some i)
    (hki : n.kind = .ofInstruction i) (hk : NodeKind.ofInstruction i = .block)
    {res : Except Fault FlowGraph} (hres : fill d g id = some res) :
    ∃ g', res = .ok g' ∧ Fills d g id g' := by
  have hil : d.find? i.linear = some i := Disassembly.find?_linear hi
  rw [fill_block hn (hki.trans hk) hi, Option.map_eq_some_iff] at hres
  obtain ⟨res', hblock, rfl⟩ := hres
  obtain ⟨b, g', rfl, hgrows, hindexed, hcont⟩ := fillBlock_spec hd h hblock hil fun _ => hk
  refine ⟨_, rfl, fills_setNode hn hgrows hindexed hi hki rfl rfl ?_⟩
  -- The first instruction is never cut off, so the block holds what it leads to.
  rcases hcont with ⟨hne, -⟩ | ⟨is, hleads, his⟩
  · exact absurd rfl hne
  · rw [his]
    exact hleads

/-- The start and the end are left as they are, and so is a graph without a node at the position. -/
theorem fill_self {id : Nat}
    (hid : ∀ {n}, g.nodes[id]? = some n → n.kind = .start ∨ n.kind = .stop) :
    fill d g id = some (.ok g) := by
  unfold fill
  cases hn : g.nodes[id]? with
  | none => rfl
  | some n => rcases hid hn with hk | hk <;> simp only [hk] <;> rfl

/-- **Filling a node never fails**, and fills it if it ends. The cases are the kinds of the node. -/
theorem fill_spec (hd : d.WellFormed) (h : Indexed d g) {id : Nat}
    {res : Except Fault FlowGraph} (hres : fill d g id = some res) :
    ∃ g', res = .ok g' ∧ Fills d g id g' := by
  by_cases hself : ∀ n, g.nodes[id]? = some n → n.kind = .start ∨ n.kind = .stop
  · rw [fill_self (fun {n} => hself n)] at hres
    cases hres
    exact ⟨g, rfl, fills_self h (fun {n} => hself n)⟩
  · push Not at hself
    obtain ⟨n, hn, hstart, hstop⟩ := hself
    obtain ⟨-, i, hi, hki⟩ := h.head hn hstart hstop
    -- What is left begins with an instruction, which says how the node is filled.
    by_cases hk : NodeKind.ofInstruction i = .block
    · exact fills_block hd h hn hi hki hk hres
    · obtain ⟨g', hfill, hfills⟩ := fills_turn hd h hn hi hki hk
      rw [hfill] at hres
      cases hres
      exact ⟨g', rfl, hfills⟩

end RealMode.FlowGraph
