import RealMode.Instruction.Usage
import RealMode.Machine.AddressMap

namespace RealMode

/-!
# Flow graphs

* `Node` — a straight run of instructions with the nodes that control can go to next;
* `FlowGraph` — the nodes of a function. A node is named by its position; the start is the
  first;
* `FlowGraph.annotate` — tells for each node which locals it requires and defines.
-/

/-- The kinds of nodes. -/
inductive NodeKind where
  /-- Where control enters. -/
  | start
  /-- A run of instructions with at most one way on. -/
  | block
  /-- A conditional branch alone. -/
  | branch
  /-- A recovered jump through a table alone. -/
  | switch
  /-- Where control returns or the process ends. -/
  | stop
deriving DecidableEq, Repr

namespace NodeKind

def name : NodeKind → String
  | start => "start"
  | block => "block"
  | branch => "if"
  | switch => "switch"
  | stop => "end"

def all : List NodeKind := [start, block, branch, switch, stop]

/-- The kind of a node that begins with an instruction. -/
def ofInstruction (i : Instruction) : NodeKind :=
  if i.mnemonic = .switch then switch
  else if i.mnemonic.isConditionalBranch then branch
  else block

end NodeKind

/-- A node of a flow graph. -/
structure Node where
  kind : NodeKind
  /-- The linear address of the first instruction; zero for the start. -/
  linear : Nat
  instructions : List Instruction := []
  /-- The positions of the nodes that control can go to. -/
  edges : List Nat := []
  /-- For a switch, the case of each edge. -/
  cases : List UInt16 := []
  /-- The locals the node reads and writes. -/
  usage : Usage := {}
deriving DecidableEq, Repr

/-- The flow graph of a function. -/
structure FlowGraph where
  entry : Address
  /-- The nodes; the first is the start. -/
  nodes : Array Node
  /-- The nodes that begin with an instruction, by its linear address. -/
  byLinear : AddressMap Nat := ∅
  /-- The node where all returns and exits meet. -/
  stop : Option Nat := none
  /-- The linear addresses of jumps that end a block without a way on. -/
  unresolved : Array Nat := #[]

namespace FlowGraph

/-- The number of nodes. -/
def size (g : FlowGraph) : Nat := g.nodes.size

/-- The node that begins at a linear address. -/
def nodeAt? (g : FlowGraph) (linear : Nat) : Option Node := do g.nodes[← g.byLinear[linear]?]?

/-- The nodes that control can go to from a node. -/
def successors (g : FlowGraph) (id : Nat) : List Nat :=
  match g.nodes[id]? with
  | some n => n.edges
  | none => []

/-- The nodes with an edge to a node. -/
def predecessors (g : FlowGraph) (id : Nat) : List Nat :=
  (List.range g.size).filter fun p => (g.successors p).contains id

/-- The number of edges. -/
def edgeCount (g : FlowGraph) : Nat := g.nodes.foldl (fun count n => count + n.edges.length) 0

/-- The number of nodes of a kind. -/
def count (g : FlowGraph) (kind : NodeKind) : Nat := g.nodes.toList.countP (·.kind = kind)

/-- A node with the locals it reads and writes. -/
def annotateNode (n : Node) : Except UnsupportedOperand Node := do
  return { n with usage := ← Usage.foldList n.instructions }

/-- The graph with the locals that each node reads and writes. -/
def annotate (g : FlowGraph) : Except UnsupportedOperand FlowGraph := do
  return { g with nodes := (← g.nodes.toList.mapM annotateNode).toArray }

end FlowGraph

end RealMode
