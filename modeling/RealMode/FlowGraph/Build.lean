import RealMode.Disassembly.Basic
import RealMode.Disassembly.Fault
import RealMode.FlowGraph.Basic

namespace RealMode

/-!
# Building the flow graph of a disassembly

Nodes are made when control is first seen to go to them and filled in the order they were
made. A block ends in front of the next node: at a label, at a node made before, at a
branch or switch. Direct jumps become edges and are in no node.

* `FlowGraph.nodeFor` — the node at a linear address, made if it is new;
* `FlowGraph.fillBlock` — follows control through a block;
* `FlowGraph.fill` — fills one node, `FlowGraph.build` all of them.
-/

namespace FlowGraph

/-! ### Making nodes -/

/-- The graph with one more node, and the position of that node. -/
def push (g : FlowGraph) (n : Node) : Nat × FlowGraph :=
  (g.nodes.size, { g with nodes := g.nodes.push n })

/-- The instruction at a linear address that control goes to from `source`. -/
def instructionAt (d : Disassembly) (linear source : Nat) : Except Fault Instruction :=
  match d.find? linear with
  | some i => .ok i
  | none => .error (.unresolvedFlow source linear)

/-- The node at a linear address that control goes to from `source`. -/
def nodeFor (d : Disassembly) (g : FlowGraph) (linear source : Nat) :
    Except Fault (Nat × FlowGraph) :=
  match g.byLinear[linear]? with
  | some id => .ok (id, g)
  | none => do
    let head ← instructionAt d linear source
    let (id, g) := g.push { kind := .ofInstruction head, linear }
    return (id, { g with byLinear := g.byLinear.insert linear id })

/-- The nodes at several linear addresses. -/
def nodesFor (d : Disassembly) (g : FlowGraph) (source : Nat) :
    List Nat → Except Fault (List Nat × FlowGraph)
  | [] => .ok ([], g)
  | linear :: more => do
    let (id, g) ← g.nodeFor d linear source
    let (ids, g) ← nodesFor d g source more
    return (id :: ids, g)

/-- The node where returns and exits meet; the first of them gives it its address. -/
def stopNode (g : FlowGraph) (linear : Nat) : Nat × FlowGraph :=
  match g.stop with
  | some id => (id, g)
  | none =>
    let (id, g) := g.push { kind := .stop, linear }
    (id, { g with stop := some id })

/-! ### Filling nodes -/

/-- Whether a block ends in front of an instruction. -/
def startsNode (d : Disassembly) (g : FlowGraph) (i : Instruction) : Bool :=
  d.isLabel i.linear || g.byLinear.contains i.linear || NodeKind.ofInstruction i != .block

/-- What a block turns out to hold. -/
structure BlockBody where
  instructions : List Instruction
  edges : List Nat

/-- The end of a block that holds `body` in front of another node. -/
def endBefore (d : Disassembly) (g : FlowGraph) (body : Array Instruction) (linear source : Nat) :
    Except Fault (BlockBody × FlowGraph) := do
  let (id, g) ← g.nodeFor d linear source
  return (⟨body.toList, [id]⟩, g)

/-- Follows control through a block that holds `body` so far and goes on at `i`. A block that
    control never leaves gives nothing: it falls through a circle of instructions, and none
    of them ends the block. -/
def fillBlock (d : Disassembly) (g : FlowGraph) (body : Array Instruction) (i : Instruction) :
    Option (Except Fault (BlockBody × FlowGraph)) :=
  if !body.isEmpty && startsNode d g i then some (endBefore d g body i.linear i.linear)
  else if i.mnemonic.isJump then
    match i.target?, d.unresolvedAt? i.linear with
    | some target, none => some (endBefore d g body target.linear i.linear)
    | _, _ =>
      some (.ok (⟨(body.push i).toList, []⟩, { g with unresolved := g.unresolved.push i.linear }))
  else if i.mnemonic.isReturn || d.isExit i.linear then
    let (id, g) := g.stopNode i.linear
    some (.ok (⟨(body.push i).toList, [id]⟩, g))
  else
    match instructionAt d i.nextLinear i.linear with
    | .error e => some (.error e)
    | .ok next => g |>.fillBlock d (body.push i) next
partial_fixpoint

/-- The graph with a node filled. -/
def setNode (g : FlowGraph) (id : Nat) (n : Node) : FlowGraph :=
  { g with nodes := g.nodes.setIfInBounds id n }

/-- Fills the node at a position, if there is one that begins with an instruction. -/
def fill (d : Disassembly) (g : FlowGraph) (id : Nat) : ExceptT Fault Option FlowGraph :=
  match g.nodes[id]? with
  | none => return g
  | some n =>
    match n.kind with
    | .start | .stop => return g
    | .branch => do
      let head ← instructionAt d n.linear n.linear
      let some target := head.target? | throw (.unresolvedFlow n.linear n.linear)
      let (edges, g) ← g.nodesFor d n.linear [target.linear, head.nextLinear]
      return g.setNode id { n with instructions := [head], edges }
    | .switch => do
      let head ← instructionAt d n.linear n.linear
      let targets := head.cases.map fun c => (head.caseTarget c).linear
      let (edges, g) ← g.nodesFor d n.linear targets
      return g.setNode id
        { n with instructions := [head], edges, cases := head.cases.map (·.value) }
    | .block => do
      let head ← instructionAt d n.linear n.linear
      let (body, g) ← ExceptT.mk (fillBlock d g #[] head)
      return g.setNode id { n with instructions := body.instructions, edges := body.edges }

/-- A graph with the start alone. -/
def initial (entry : Address) : FlowGraph where
  entry
  nodes := #[{ kind := .start, linear := 0 }]

/-- Builds the graph of a disassembly. Apart from the start and the end, a node begins with
    an instruction of its own, so at most `d.size + 2` positions are in use. -/
def buildNodes (d : Disassembly) : ExceptT Fault Option FlowGraph := do
  let entry := d.entry.linear
  let (first, g) ← (initial d.entry).nodeFor d entry entry
  let g := g.setNode 0 { kind := .start, linear := 0, edges := [first] }
  (List.range' 1 (d.size + 1)).foldlM (fill d) g

/-- The flow graph of a disassembly, or why there is none. Nothing at all is given if one of
    its blocks never ends. -/
def build (d : Disassembly) : Option (Except FlowError FlowGraph) :=
  (buildNodes d).adapt (⟨d.entry, ·⟩)

end FlowGraph

end RealMode
