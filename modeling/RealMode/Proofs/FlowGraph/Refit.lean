import RealMode.Proofs.Disassembly.Pairs
import RealMode.Proofs.FlowGraph.Partition

namespace RealMode

/-!
# Graphs of disassemblies with and without fusion

Fusion changes what instructions do, but not where control goes. So the graphs of two
disassemblies that differ in fused loads are built in the same steps.

* `FlowGraph.refit` — a graph with its instructions replaced;
* `FlowGraph.fillBlock_refit`, `FlowGraph.fill_refit` — filling commutes with that;
* `FlowGraph.build_refit` — and so does building: the two graphs differ in the instructions that
  their nodes hold, and in nothing else.
-/

/-! ### What fusion leaves as it is -/

namespace Fusion.Fused

variable {i j : Instruction}

/-- A fused load is no jump, and neither is the load it takes the place of. -/
theorem isJump (h : Fused j i) : i.mnemonic.isJump = j.mnemonic.isJump := by
  rcases h with rfl | ⟨-, -, hmov, hrec, -⟩
  · rfl
  · rw [hrec.not_transfer.1, hmov]
    rfl

theorem isReturn (h : Fused j i) : i.mnemonic.isReturn = j.mnemonic.isReturn := by
  rcases h with rfl | ⟨-, -, hmov, hrec, -⟩
  · rfl
  · rw [hrec.isReturn, hmov]
    rfl

theorem kind (h : Fused j i) : NodeKind.ofInstruction i = NodeKind.ofInstruction j := by
  rcases h with rfl | ⟨-, -, hmov, hrec, hswitch⟩
  · rfl
  · rw [NodeKind.ofInstruction, if_neg hswitch, hrec.not_transfer.2, NodeKind.ofInstruction, hmov]
    rfl

end Fusion.Fused

/-- The node with its instructions replaced. -/
def Node.refit (f : Instruction → Instruction) (n : Node) : Node :=
  { n with instructions := n.instructions.map f }

namespace FlowGraph

variable {f : Instruction → Instruction} {d d' : Disassembly} {g g' : FlowGraph}

/-- The graph with its instructions replaced. -/
def refit (f : Instruction → Instruction) (g : FlowGraph) : FlowGraph :=
  { g with nodes := g.nodes.map (Node.refit f) }

/-- What a block turns out to hold, with its instructions replaced. -/
def BlockBody.refit (f : Instruction → Instruction) (b : BlockBody) : BlockBody :=
  { b with instructions := b.instructions.map f }

@[simp] theorem byLinear_refit (g : FlowGraph) : (g.refit f).byLinear = g.byLinear := rfl

@[simp] theorem getElem?_refit (g : FlowGraph) (id : Nat) :
    (g.refit f).nodes[id]? = g.nodes[id]?.map (Node.refit f) := Array.getElem?_map

theorem refit_setNode (g : FlowGraph) (id : Nat) (n : Node) :
    (g.setNode id n).refit f = (g.refit f).setNode id (n.refit f) := by
  simp [refit, setNode, Array.map_setIfInBounds]

/-! ### Making nodes -/

section Making

variable (h : d.Refits f d')
include h

/-- A node is made, or found, at the same position after fusion. Its kind is read off an
    instruction, and fusion keeps kinds. -/
theorem nodeFor_refit (g : FlowGraph) (linear source : Nat) :
    (g.refit f).nodeFor d' linear source =
      (g.nodeFor d linear source).map fun p => (p.1, p.2.refit f) := by
  unfold nodeFor
  rw [byLinear_refit]
  split
  · rfl
  · unfold instructionAt
    rw [h.found]
    cases hi : d.find? linear with
    | none => rfl
    | some i =>
      have hkind := (h.fused hi).kind
      simp [bind, Except.bind, pure, Except.pure, Except.map, push, refit, Node.refit, hkind]

theorem nodesFor_refit (g : FlowGraph) (source : Nat) (targets : List Nat) :
    (g.refit f).nodesFor d' source targets =
      (g.nodesFor d source targets).map fun p => (p.1, p.2.refit f) := by
  induction targets generalizing g with
  | nil => rfl
  | cons t targets ih =>
    simp only [nodesFor, nodeFor_refit h, bind, Except.bind]
    cases g.nodeFor d t source with
    | error e => rfl
    | ok p =>
      simp only [Except.map, ih]
      cases p.2.nodesFor d source targets <;> rfl

/-- In particular the edges that filling a node asks for are the same numbers. -/
theorem nodesFor_refit_of_ok {source : Nat} {targets edges : List Nat}
    (hnodes : g.nodesFor d source targets = .ok (edges, g')) :
    (g.refit f).nodesFor d' source targets = .ok (edges, g'.refit f) := by
  rw [nodesFor_refit h, hnodes]
  rfl

/-- A block that ends in front of a place does so after fusion, with its instructions replaced. -/
theorem endBefore_refit (g : FlowGraph) (body : Array Instruction) (linear source : Nat) :
    endBefore d' (g.refit f) (body.map f) linear source =
      (endBefore d g body linear source).map fun p => (p.1.refit f, p.2.refit f) := by
  simp only [endBefore, nodeFor_refit h, bind, Except.bind]
  cases g.nodeFor d linear source with
  | error e => rfl
  | ok p => simp [Except.map, BlockBody.refit, pure, Except.pure]

omit h in
theorem stopNode_refit (g : FlowGraph) (linear : Nat) :
    (g.refit f).stopNode linear = ((g.stopNode linear).1, (g.stopNode linear).2.refit f) := by
  unfold stopNode
  cases hs : g.stop with
  | some id => simp [refit, hs]
  | none => simp [refit, hs, push, Node.refit]

/-- A node begins at a place with fusion exactly if it does so without: labels, names and kinds are
    the same. -/
theorem startsNode_refit (g : FlowGraph) {k : Nat} {i : Instruction} (hi : d.find? k = some i) :
    startsNode d' (g.refit f) (f i) = startsNode d g i := by
  have hfused := h.fused hi
  simp [startsNode, Disassembly.isLabel, h.labels, hfused.linear, hfused.kind]

/-! ### Filling nodes -/

theorem MayHold.refit {body : Array Instruction} {k : Nat} {i : Instruction}
    (hhold : MayHold d g body i) (hi : d.find? k = some i) :
    MayHold d' (g.refit f) (body.map f) (f i) := by
  rcases hhold with rfl | hstarts
  · exact .inl Array.map_empty
  · exact .inr ((startsNode_refit h g hi).trans hstarts)

/-- Control ends behind an instruction with fusion exactly if it does so without. -/
theorem isStop_refit {k : Nat} {i : Instruction} (hi : d.find? k = some i) :
    ((f i).mnemonic.isReturn || d'.isExit (f i).linear) =
      (i.mnemonic.isReturn || d.isExit i.linear) := by
  rw [(h.fused hi).isReturn, (h.fused hi).linear, Disassembly.isExit, h.exits, Disassembly.isExit]

/-- A jump is not touched by fusion, and is followed to the same place. -/
theorem refit_jump {k : Nat} {i : Instruction} (hi : d.find? k = some i)
    (hjump : i.mnemonic.isJump = true) : f i = i ∧ d'.followed? i = d.followed? i := by
  refine ⟨(h.fused hi).eq_of_ne_mov fun hmov => ?_, ?_⟩
  · rw [hmov] at hjump
    cases hjump
  · rw [Disassembly.followed?, Disassembly.unresolvedAt?, h.unresolved, Disassembly.followed?,
      Disassembly.unresolvedAt?]

/-- **A block goes on alike after fusion.** The induction is on how it goes on without, case by
    case. -/
theorem fillBlock_refit {body : Array Instruction} {i : Instruction}
    {res : Except Fault (BlockBody × FlowGraph)} (hres : fillBlock d g body i = some res)
    (hi : d.find? i.linear = some i) :
    fillBlock d' (g.refit f) (body.map f) (f i) =
      some (res.map fun p => (p.1.refit f, p.2.refit f)) := by
  rw [fillBlock_eq_some_iff] at hres ⊢
  induction hres with
  | @cut body i hbody hstarts =>
    rw [← endBefore_refit h, ← (h.fused hi).linear]
    exact .cut (by simpa using hbody) ((startsNode_refit h g hi).trans hstarts)
  | @jump body i t hhold ht =>
    -- A jump is not fused, so the block ends in front of the same place.
    obtain ⟨hsame, hfollowed⟩ := refit_jump h hi (Disassembly.followed?_eq_some_iff.1 ht).1
    have hhold' := hhold.refit h hi
    rw [hsame] at hhold' ⊢
    rw [← endBefore_refit h]
    exact .jump hhold' (hfollowed.trans ht)
  | @lost body i hhold hjump ht =>
    obtain ⟨hsame, hfollowed⟩ := refit_jump h hi hjump
    have hhold' := hhold.refit h hi
    rw [hsame] at hhold' ⊢
    have hlost := FillsBlock.lost hhold' hjump (hfollowed.trans ht)
    simpa [Except.map, BlockBody.refit, refit, hsame] using hlost
  | @stop body i hhold hjump hstop =>
    have hend := FillsBlock.stop (hhold.refit h hi) ((h.fused hi).isJump.trans hjump)
      ((isStop_refit h hi).trans hstop)
    rw [(h.fused hi).linear, stopNode_refit] at hend
    simpa [Except.map, BlockBody.refit] using hend
  | @fault body i hhold hjump hgo hnext =>
    have hfault := FillsBlock.fault (hhold.refit h hi) ((h.fused hi).isJump.trans hjump)
      ((isStop_refit h hi).trans hgo)
      (by rw [(h.fused hi).nextLinear, h.found, hnext]; rfl)
    rwa [(h.fused hi).linear, (h.fused hi).nextLinear] at hfault
  | @next body i next res hhold hjump hgo hnext _ ih =>
    -- Only here does the block go on; the instruction may be one of two loads.
    have hrest := ih (Disassembly.find?_linear hnext)
    rw [Array.map_push] at hrest
    exact .next (hhold.refit h hi) ((h.fused hi).isJump.trans hjump)
      ((isStop_refit h hi).trans hgo)
      (by rw [(h.fused hi).nextLinear, h.found, hnext]; rfl) hrest

/-- **A node is filled alike after fusion**, whatever its kind is. -/
theorem fill_refit (hd : d.WellFormed) (hindexed : Indexed d g) {id : Nat}
    (hres : fill d g id = some (.ok g')) : fill d' (g.refit f) id = some (.ok (g'.refit f)) := by
  by_cases hself : ∀ n, g.nodes[id]? = some n → n.kind = .start ∨ n.kind = .stop
  · rw [fill_self (fun {n} => hself n)] at hres
    cases hres
    apply fill_self
    intro n hn
    rw [getElem?_refit, Option.map_eq_some_iff] at hn
    obtain ⟨m, hm, rfl⟩ := hn
    exact hself m hm
  · push Not at hself
    obtain ⟨n, hn, hstart, hstop⟩ := hself
    obtain ⟨-, i, hi, hki⟩ := hindexed.head hn hstart hstop
    have hn' : (g.refit f).nodes[id]? = some (n.refit f) := by rw [getElem?_refit, hn]; rfl
    have hi' : d'.find? (n.refit f).linear = some (f i) := by
      rw [h.found]
      show (d.find? n.linear).map f = _
      rw [hi]
      rfl
    rcases ofInstruction_cases i with ⟨hk, hswitch⟩ | ⟨hk, hbranch⟩ | ⟨hk, -⟩
    · -- A switch is no load, so fusion leaves it, and the edges are made alike.
      have hsame : f i = i := (h.fused hi).eq_of_ne_mov (by rw [hswitch]; decide)
      have hsucc := hd.successors_switch hi hswitch
      obtain ⟨edges, g₁, hnodes, -⟩ :=
        nodesFor_spec hindexed (fun b hb => hd.closed hi b (hsucc ▸ hb)) n.linear
      rw [fill_switch hn (hki.trans hk) hi hnodes] at hres
      cases hres
      rw [fill_switch hn' (hki.trans hk) (hsame ▸ hi') (nodesFor_refit_of_ok h hnodes),
        refit_setNode]
      simp [Node.refit, hsame]
    · -- The same for a branch.
      have hsame : f i = i := (h.fused hi).eq_of_ne_mov fun hmov => by
        rw [hmov] at hbranch
        cases hbranch
      obtain ⟨t, ht⟩ := hd.branch hi hbranch
      have hsucc := hd.successors_branch hi hbranch ht
      obtain ⟨edges, g₁, hnodes, -⟩ :=
        nodesFor_spec hindexed (fun b hb => hd.closed hi b (hsucc ▸ hb)) n.linear
      rw [fill_branch hn (hki.trans hk) hi ht hnodes] at hres
      cases hres
      rw [fill_branch hn' (hki.trans hk) (hsame ▸ hi') ht (nodesFor_refit_of_ok h hnodes),
        refit_setNode]
      simp [Node.refit, hsame]
    · -- What a block holds may be fused, but it goes on alike.
      have hblock' := fill_block hn' (hki.trans hk) hi'
      rw [fill_block hn (hki.trans hk) hi, Option.map_eq_some_iff] at hres
      obtain ⟨res, hblock, hres⟩ := hres
      rw [hblock', ← Array.map_empty, fillBlock_refit h hblock (Disassembly.find?_linear hi)]
      cases res with
      | error e => cases hres
      | ok p =>
        cases hres
        rw [refit_setNode]
        rfl

/-! ### Building -/

/-- The start leads to the node of the entry in both graphs. -/
theorem started_refit : started d' = (started d).map (refit f) := by
  have hinitial : initial d'.entry = (initial d.entry).refit f := by
    simp [h.entry, initial, refit, Node.refit]
  have hnode : (initial d'.entry).nodeFor d' d'.entry.linear d'.entry.linear =
      ((initial d.entry).nodeFor d d.entry.linear d.entry.linear).map
        fun p => (p.1, p.2.refit f) := by
    rw [hinitial, nodeFor_refit h, h.entry]
  simp only [started, hnode, bind, Except.bind]
  cases (initial d.entry).nodeFor d d.entry.linear d.entry.linear with
  | error e => rfl
  | ok p =>
    simp only [Except.map, pure, Except.pure, refit_setNode]
    rfl

/-- After any number of nodes the two graphs differ in the instructions only. -/
theorem filledTo_refit (hd : d.WellFormed) {k : Nat} (hres : filledTo d k = some (.ok g)) :
    filledTo d' k = some (.ok (g.refit f)) := by
  induction k generalizing g with
  | zero =>
    rw [filledTo_zero] at hres ⊢
    rw [started_refit h, Option.some.inj hres]
    rfl
  | succ k ih =>
    rw [filledTo_succ] at hres ⊢
    cases hprev : filledTo d k with
    | none =>
      rw [hprev] at hres
      cases hres
    | some prev =>
      obtain ⟨g₀, rfl, hbuilt⟩ := filledTo_spec hd k hprev
      rw [hprev] at hres
      rw [ih hprev]
      exact fill_refit h hd hbuilt.indexed hres

/-- **The graphs of a function with and without fusion differ in the instructions that their
    nodes hold**, and in nothing else. -/
theorem build_refit (hd : d.WellFormed) (hg : build d = some (.ok g)) :
    build d' = some (.ok (g.refit f)) := by
  have hfilled := filledTo_refit h hd (filledTo_of_build hg)
  rw [build, buildNodes_eq, h.size, hfilled]
  rfl

end Making

/-- The graph of a function with fusion is its graph without, with the loads replaced. -/
theorem build_withFusion {r : Routine} (hd : (r.withFusion false).disassemble = .ok d)
    (hd' : (r.withFusion true).disassemble = .ok d') (hg : build d = some (.ok g))
    (hg' : build d' = some (.ok g')) : g' = g.refit d'.inPlaceOf := by
  have hrefits := Routine.refits_of_disassemble hd hd'
  have hbuild := build_refit hrefits (wellFormed_of_disassemble hd) hg
  rw [hg'] at hbuild
  exact Except.ok.inj (Option.some.inj hbuild)

end FlowGraph

end RealMode
