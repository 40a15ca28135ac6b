import RealMode.FlowGraph.Liveness
import RealMode.Instruction.Text

namespace RealMode.FlowGraph

open RealMode.Text

/-!
# Dumps of flow graphs

The dump of a graph has for each node its kind and address, the locals it requires and
defines, on demand those live at its entry and exit, its instructions, and its edges.
-/

/-- The name of the node at a position. -/
def nodeName (id : Nat) : String := "n" ++ toString id

/-- The line that a node begins with. -/
def headLine (id : Nat) (n : Node) : String :=
  match n.kind with
  | .start | .stop => nodeName id ++ " " ++ n.kind.name
  | .block | .branch | .switch =>
    nodeName id ++ " " ++ n.kind.name ++ " " ++ Hex.linear.render n.linear ++
      "  req: " ++ n.usage.required.text ++ "  def: " ++ n.usage.defined.text

/-- The line with the live locals of a node. -/
def liveLine (l : Liveness) (id : Nat) : String :=
  "    in: " ++ (l.atEntry id).text ++ "  out: " ++ (l.atExit id).text

/-- The edges, each with its case as long as there are cases. -/
def edgeTexts : (edges : List Nat) → (cases : List UInt16) → List String
  | edge :: edges, value :: cases =>
    (toString value.toNat ++ ": " ++ nodeName edge) :: edgeTexts edges cases
  | edges, _ => edges.map nodeName

/-- The line with the edges of a node, if it has any. Only a switch has cases. -/
def edgeLines (n : Node) : List String :=
  if n.edges.isEmpty then []
  else
    let cases := if n.kind = .switch then n.cases else []
    ["    -> " ++ ", ".intercalate (edgeTexts n.edges cases)]

/-- The lines for a node. -/
def nodeLines (live : Option Liveness) (id : Nat) (n : Node) : List String :=
  headLine id n ::
    (match live with
      | some l => [liveLine l id]
      | none => []) ++
    n.instructions.map (fun i => "    " ++ i.address.text ++ "  " ++ i.text) ++
    edgeLines n

/-- The lines of the dump. -/
def dumpLines (g : FlowGraph) (live : Option Liveness) : List String :=
  ("; graph " ++ g.entry.text ++ " (" ++ toString g.size ++ " nodes)") ::
    g.nodes.toList.zipIdx.flatMap fun (n, id) => nodeLines live id n

end RealMode.FlowGraph
