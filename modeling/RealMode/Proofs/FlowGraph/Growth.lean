import Mathlib.Data.List.Forall2
import RealMode.FlowGraph.Build
import RealMode.Proofs.AddressMap

namespace RealMode.FlowGraph

/-!
# Making nodes

While a graph is built it only grows: nodes are added behind those that are there, and each
is known by its place.

* `Grows` — one graph has all that another has;
* `Indexed` — each node but the start and the end is known by the place of the instruction
  it begins with, and there are as many nodes as that makes;
* `nodeFor_spec`, `nodesFor_spec`, `stopNode_spec` — what making a node does: it succeeds
  where there is an instruction, and keeps both.
-/

variable {d : Disassembly} {g g' g'' : FlowGraph}

/-! ### Growth -/

/-- All that is in the first graph is in the second. -/
structure Grows (g g' : FlowGraph) : Prop where
  node : ∀ {id : Nat} {n}, g.nodes[id]? = some n → g'.nodes[id]? = some n
  named : ∀ {a id : Nat}, g.byLinear[a]? = some id → g'.byLinear[a]? = some id
  stop : ∀ {id : Nat}, g.stop = some id → g'.stop = some id

theorem Grows.refl (g : FlowGraph) : Grows g g := ⟨id, id, id⟩

/-- Growth adds up, as every edit of a graph is a sequence of small ones. -/
theorem Grows.trans (h : Grows g g') (h' : Grows g' g'') : Grows g g'' :=
  ⟨fun hn => h'.node (h.node hn), fun ha => h'.named (h.named ha),
    fun hs => h'.stop (h.stop hs)⟩

/-! ### Names of nodes -/

/-- Each node but the start and the end is known by the place of the instruction it begins
    with. -/
structure Indexed (d : Disassembly) (g : FlowGraph) : Prop where
  named : ∀ {a id : Nat}, g.byLinear[a]? = some id → ∃ n i, g.nodes[id]? = some n ∧ n.linear = a ∧
    d.find? a = some i ∧ n.kind = .ofInstruction i
  known : ∀ {id : Nat} {n}, g.nodes[id]? = some n →
    (id = 0 ∧ n.kind = .start) ∨ g.stop = some id ∨ g.byLinear[n.linear]? = some id
  stop : ∀ {id : Nat}, g.stop = some id → ∃ n, g.nodes[id]? = some n ∧ n.kind = .stop ∧
    n.instructions = [] ∧ n.edges = []
  size : g.nodes.size = g.byLinear.size + 1 + g.stop.toList.length

theorem ofInstruction_ne_start (i : Instruction) : NodeKind.ofInstruction i ≠ .start := by
  unfold NodeKind.ofInstruction
  split
  · decide
  · split <;> decide

theorem ofInstruction_ne_stop (i : Instruction) : NodeKind.ofInstruction i ≠ .stop := by
  unfold NodeKind.ofInstruction
  split
  · decide
  · split <;> decide

/-- A graph with one more node behind the others: the new position holds it, and all others are as
    before. -/
theorem getElem?_push_node (g : FlowGraph) (n : Node) (id : Nat) :
    (g.nodes.push n)[id]? = if id = g.nodes.size then some n else g.nodes[id]? := by
  rw [Array.getElem?_push]

/-- A node that is there keeps its position when another one is added. -/
theorem getElem?_push_of_some {n : Node} {id : Nat} {m : Node} (h : g.nodes[id]? = some m) :
    (g.nodes.push n)[id]? = some m := by
  have hlt := (Array.getElem?_eq_some_iff.1 h).1
  rw [getElem?_push_node, if_neg (by omega), h]

/-- The graph with a new node for the instruction at a linear address. -/
def withNode (g : FlowGraph) (linear : Nat) (head : Instruction) : FlowGraph :=
  { g with
    nodes := g.nodes.push { kind := .ofInstruction head, linear }
    byLinear := g.byLinear.insert linear g.nodes.size }

/-- A new node is added behind the others and under a new name, so nothing that was there is
    lost. -/
theorem grows_withNode {linear : Nat} (hnew : g.byLinear[linear]? = none) (head : Instruction) :
    Grows g (g.withNode linear head) := by
  refine ⟨getElem?_push_of_some, ?_, id⟩
  intro a id ha
  show (g.byLinear.insert linear g.nodes.size)[a]? = some id
  rw [AddressMap.getElem?_insert, if_neg, ha]
  rintro rfl
  rw [hnew] at ha
  cases ha

/-- The new node is known by the place of its first instruction, and there is one name and one node
    more. -/
theorem Indexed.withNode {linear : Nat} {head : Instruction} (h : Indexed d g)
    (hnew : g.byLinear[linear]? = none) (hhead : d.find? linear = some head) :
    Indexed d (g.withNode linear head) := by
  have hgrows := grows_withNode hnew head
  have hlookup (a : Nat) : (g.withNode linear head).byLinear[a]? =
      if linear = a then some g.nodes.size else g.byLinear[a]? :=
    AddressMap.getElem?_insert ..
  have hnode (id : Nat) : (g.withNode linear head).nodes[id]? =
      if id = g.nodes.size then some { kind := .ofInstruction head, linear }
      else g.nodes[id]? := getElem?_push_node ..
  refine ⟨?_, ?_, ?_, ?_⟩
  · -- A name is the new one, or was there before.
    intro a id ha
    rw [hlookup] at ha
    split at ha
    · rename_i hlinear
      subst hlinear
      cases ha
      exact ⟨_, head, by rw [hnode, if_pos rfl], rfl, hhead, rfl⟩
    · obtain ⟨n, i, hn, hrest⟩ := h.named ha
      exact ⟨n, i, hgrows.node hn, hrest⟩
  · -- A node is the new one, or was there before.
    intro id n hn
    rw [hnode] at hn
    split at hn
    · rename_i hid
      cases hn
      right
      right
      rw [hlookup, if_pos rfl, hid]
    · exact (h.known hn).imp_right (Or.imp_right hgrows.named)
  · intro id hs
    obtain ⟨n, hn, hrest⟩ := h.stop hs
    exact ⟨n, hgrows.node hn, hrest⟩
  · -- The place had no node, so there is one name more and one node more.
    have hsize := h.size
    have habsent : ¬ g.byLinear.contains linear = true := by
      rw [AddressMap.contains_iff_exists, hnew]
      rintro ⟨id, hid⟩
      cases hid
    show (g.nodes.push _).size =
      (g.byLinear.insert linear g.nodes.size).size + 1 + g.stop.toList.length
    rw [Array.size_push, Std.ExtTreeMap.size_insert, if_neg habsent]
    omega

/-! ### The nodes at places -/

/-- **A node is made where there is an instruction**, or it is there already. Either way the place
    names it from then on. -/
theorem nodeFor_spec (h : Indexed d g) {linear : Nat} {head : Instruction}
    (hhead : d.find? linear = some head) (source : Nat) :
    ∃ id g', g.nodeFor d linear source = .ok (id, g') ∧ Grows g g' ∧ Indexed d g' ∧
      g'.byLinear[linear]? = some id := by
  cases hid : g.byLinear[linear]? with
  | some id =>
    refine ⟨id, g, ?_, Grows.refl g, h, hid⟩
    simp only [nodeFor, hid]
  | none =>
    refine ⟨g.nodes.size, g.withNode linear head, ?_, grows_withNode hid head,
      h.withNode hid hhead, ?_⟩
    · simp only [nodeFor, hid, instructionAt, hhead, push]
      rfl
    · show (g.byLinear.insert linear g.nodes.size)[linear]? = _
      rw [AddressMap.getElem?_insert, if_pos rfl]

/-- Several nodes are made one after another, and each place names its own in the end: what is made
    later takes no name away. -/
theorem nodesFor_spec (h : Indexed d g) {targets : List Nat}
    (htargets : ∀ t ∈ targets, ∃ i, d.find? t = some i) (source : Nat) :
    ∃ ids g', g.nodesFor d source targets = .ok (ids, g') ∧ Grows g g' ∧ Indexed d g' ∧
      List.Forall₂ (fun (t : Nat) id => g'.byLinear[t]? = some id) targets ids := by
  induction targets generalizing g with
  | nil => exact ⟨[], g, rfl, Grows.refl g, h, .nil⟩
  | cons t targets ih =>
    obtain ⟨head, hhead⟩ := htargets t List.mem_cons_self
    obtain ⟨id, g₁, hnode, hgrows₁, hindexed₁, hid⟩ := nodeFor_spec h hhead source
    obtain ⟨ids, g₂, hnodes, hgrows₂, hindexed₂, hids⟩ :=
      ih hindexed₁ fun t' ht => htargets t' (List.mem_cons_of_mem _ ht)
    refine ⟨id :: ids, g₂, ?_, hgrows₁.trans hgrows₂, hindexed₂, .cons (hgrows₂.named hid) hids⟩
    simp only [nodesFor, hnode, hnodes, bind, Except.bind, pure, Except.pure]

/-- The graph has one end, made when control first ends, and control that ends goes there. -/
theorem stopNode_spec (h : Indexed d g) (linear : Nat) :
    ∃ id g', g.stopNode linear = (id, g') ∧ Grows g g' ∧ Indexed d g' ∧ g'.stop = some id := by
  cases hs : g.stop with
  | some id => exact ⟨id, g, by simp only [stopNode, hs], Grows.refl g, h, hs⟩
  | none =>
    have hgrows : Grows g { g with
        nodes := g.nodes.push { kind := .stop, linear }, stop := some g.nodes.size } := by
      refine ⟨getElem?_push_of_some, id, ?_⟩
      intro id hid
      rw [hs] at hid
      cases hid
    -- The new node is the end, and is named by no place.
    refine ⟨g.nodes.size, _, by simp only [stopNode, hs, push], hgrows, ⟨?_, ?_, ?_, ?_⟩, rfl⟩
    · intro a id ha
      obtain ⟨n, i, hn, hrest⟩ := h.named ha
      exact ⟨n, i, hgrows.node hn, hrest⟩
    · intro id n hn
      rw [getElem?_push_node] at hn
      split at hn
      · rename_i hid
        exact .inr (.inl (by rw [hid]))
      · exact (h.known hn).imp_right (Or.imp_left hgrows.stop)
    · intro id hid
      cases hid
      exact ⟨_, by rw [getElem?_push_node, if_pos rfl], rfl, rfl, rfl⟩
    · have hsize := h.size
      rw [hs] at hsize
      show (g.nodes.push _).size = g.byLinear.size + 1 + 1
      rw [Array.size_push, hsize]
      rfl

/-! ### Filling a node in -/

/-- Writing a node changes its own position only, and only if there is a node at it. -/
theorem getElem?_setNode (g : FlowGraph) (id k : Nat) (n : Node) :
    (g.setNode id n).nodes[k]? =
      if id = k then g.nodes[k]?.map fun _ => n else g.nodes[k]? := by
  show (g.nodes.setIfInBounds id n)[k]? = _
  rw [Array.getElem?_setIfInBounds]
  split
  · rename_i hk
    subst hk
    split
    · rename_i hlt
      rw [Array.getElem?_eq_getElem hlt]
      rfl
    · rename_i hlt
      rw [Array.getElem?_eq_none (Nat.le_of_not_lt hlt)]
      rfl
  · rfl

/-- Names stay as they are when a node is filled: neither its kind nor its place changes, only what
    it holds and where it leads. -/
theorem Indexed.setNode (h : Indexed d g) {id : Nat} {n n' : Node} (hn : g.nodes[id]? = some n)
    (hstop : n.kind ≠ .stop) (hk : n'.kind = n.kind) (hl : n'.linear = n.linear) :
    Indexed d (g.setNode id n') := by
  have hnode (k : Nat) (m : Node) (hm : g.nodes[k]? = some m) :
      ∃ m', (g.setNode id n').nodes[k]? = some m' ∧ m'.kind = m.kind ∧ m'.linear = m.linear := by
    rw [getElem?_setNode]
    split
    · rename_i hid
      subst hid
      rw [hn] at hm
      cases hm
      exact ⟨n', by rw [hn]; rfl, hk, hl⟩
    · exact ⟨m, hm, rfl, rfl⟩
  refine ⟨?_, ?_, ?_, ?_⟩
  · intro a k ha
    obtain ⟨m, i, hm, hma, hi, hmk⟩ := h.named ha
    obtain ⟨m', hm', hk', hl'⟩ := hnode k m hm
    exact ⟨m', i, hm', hl'.trans hma, hi, hk'.trans hmk⟩
  · intro k m hm
    rw [getElem?_setNode] at hm
    split at hm
    · rename_i hid
      subst hid
      rw [hn] at hm
      cases hm
      rw [hk, hl]
      exact h.known hn
    · exact h.known hm
  · intro k hs
    obtain ⟨m, hm, hmk, hrest⟩ := h.stop hs
    refine ⟨m, ?_, hmk, hrest⟩
    -- The end is not the node that is filled, for that one is of another kind.
    rw [getElem?_setNode, if_neg, hm]
    rintro rfl
    rw [hn] at hm
    cases hm
    exact hstop hmk
  · show (g.nodes.setIfInBounds id n').size = _
    rw [Array.size_setIfInBounds]
    exact h.size

end RealMode.FlowGraph
