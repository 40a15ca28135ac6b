import Mathlib.Logic.Relation
import RealMode.Proofs.FlowGraph.Partition

namespace RealMode

/-!
# The structure of every flow graph

A disassembly that was edited may have stale places in its index, labels where nothing is,
exits that are branches. Whatever it says, a graph that is built of it is in order, because
a node is made only for an instruction that is found, and only when another node gets an
edge to it.

* `FlowGraph.Makes` — making nodes, each of which is in a list of edges;
* `FlowGraph.Shaped` — what a node has when it is filled, one case for each kind;
* `FlowGraph.makes_of_fill` — filling a node makes the nodes it leads to and shapes it;
* `FlowGraph.Raised` — what is true while nodes are filled, `FlowGraph.Raised.step` — that it
  stays so;
* `FlowGraph.InOrder` — the structure of a finished graph, `inOrder_of_build` — that every
  graph has it.
-/

namespace FlowGraph

variable {d : Disassembly} {g g' g'' : FlowGraph}

/-- Control can go from one node to another. -/
def Edge (g : FlowGraph) (id next : Nat) : Prop := next ∈ g.successors id

/-! ### Making nodes -/

/-- The second graph has what the first one has, and maybe more nodes, all of them listed. -/
structure Makes (d : Disassembly) (g : FlowGraph) (ids : List Nat) (g' : FlowGraph) : Prop where
  grows : Grows g g'
  indexed : Indexed d g'
  used : ∀ id ∈ ids, id < g'.size
  made : ∀ {id : Nat} {n}, g'.nodes[id]? = some n →
    g.nodes[id]? = some n ∨ id ∈ ids ∧ n.edges = []
  unresolved : ∀ a ∈ g.unresolved, a ∈ g'.unresolved

theorem exists_node {id : Nat} (h : id < g.size) : ∃ n, g.nodes[id]? = some n :=
  ⟨_, Array.getElem?_eq_getElem h⟩

theorem Grows.size_le (h : Grows g g') : g.size ≤ g'.size := by
  by_contra hlt
  obtain ⟨n, hn⟩ := exists_node (Nat.lt_of_not_le hlt)
  exact absurd (size_of_node (h.node hn)) (Nat.lt_irrefl _)

theorem Makes.refl (h : Indexed d g) : Makes d g [] g :=
  ⟨Grows.refl g, h, by simp, .inl, fun _ ha => ha⟩

/-- Making nodes twice makes the nodes of both lists. -/
theorem Makes.trans {ids ids' : List Nat} (h : Makes d g ids g') (h' : Makes d g' ids' g'') :
    Makes d g (ids ++ ids') g'' := by
  refine ⟨h.grows.trans h'.grows, h'.indexed, ?_, ?_,
    fun a ha => h'.unresolved a (h.unresolved a ha)⟩
  · intro id hid
    rcases List.mem_append.1 hid with hid | hid
    · exact Nat.lt_of_lt_of_le (h.used id hid) h'.grows.size_le
    · exact h'.used id hid
  · intro id n hn
    rcases h'.made hn with hn | ⟨hid, hes⟩
    · exact (h.made hn).imp_right fun ⟨hid, hes⟩ => ⟨List.mem_append_left _ hid, hes⟩
    · exact .inr ⟨List.mem_append_right _ hid, hes⟩

/-- A place that has its node already keeps it; else one node is made. -/
theorem makes_nodeFor (hg : Indexed d g) {linear source id : Nat}
    (h : g.nodeFor d linear source = .ok (id, g')) :
    Makes d g [id] g' ∧ g'.byLinear[linear]? = some id := by
  unfold nodeFor at h
  split at h
  · -- The place has its node already.
    rename_i id₁ hid
    cases h
    obtain ⟨n, -, hn, -⟩ := hg.named hid
    exact ⟨⟨Grows.refl g, hg, by simpa using size_of_node hn, .inl, fun _ ha => ha⟩, hid⟩
  · rename_i hnew
    unfold instructionAt at h
    split at h
    · -- A new node, at the position behind all others.
      rename_i head hhead
      cases h
      refine ⟨⟨grows_withNode hnew head, hg.withNode hnew hhead, ?_, ?_, fun _ ha => ha⟩, ?_⟩
      · intro id hid
        rw [List.mem_singleton.1 hid]
        show g.nodes.size < (g.nodes.push _).size
        rw [Array.size_push]
        exact Nat.lt_succ_self _
      · intro id n hn
        change (g.nodes.push _)[id]? = some n at hn
        rw [getElem?_push_node] at hn
        split at hn
        · rename_i hid
          cases hn
          exact .inr ⟨List.mem_singleton.2 hid, rfl⟩
        · exact .inl hn
      · show (g.byLinear.insert linear g.nodes.size)[linear]? = some g.nodes.size
        rw [AddressMap.getElem?_insert, if_pos rfl]
    · cases h

/-- One node for each of several places. -/
theorem makes_nodesFor (hg : Indexed d g) {source : Nat} {targets ids : List Nat}
    (h : g.nodesFor d source targets = .ok (ids, g')) :
    Makes d g ids g' ∧ g'.Names targets ids := by
  induction targets generalizing g ids with
  | nil =>
    cases h
    exact ⟨.refl hg, .nil⟩
  | cons t targets ih =>
    simp only [nodesFor, bind, Except.bind] at h
    split at h
    · cases h
    · rename_i p hnode
      split at h
      · cases h
      · rename_i q hnodes
        cases h
        obtain ⟨hfirst, hid⟩ := makes_nodeFor hg hnode
        obtain ⟨hrest, hnames⟩ := ih hfirst.indexed hnodes
        exact ⟨hfirst.trans hrest, .cons (hrest.grows.named hid) hnames⟩

/-- The end is made when it is first asked for, and has no edges. -/
theorem makes_stopNode (hg : Indexed d g) (linear : Nat) :
    Makes d g [(g.stopNode linear).1] (g.stopNode linear).2 := by
  obtain ⟨id, g', hstop, hgrows, hindexed, hid⟩ := stopNode_spec hg linear
  obtain ⟨n, hn, -⟩ := hindexed.stop hid
  rw [hstop]
  refine ⟨hgrows, hindexed, by simpa using size_of_node hn, ?_, ?_⟩
  · intro k m hm
    unfold stopNode at hstop
    split at hstop
    · cases hstop
      exact .inl hm
    · cases hstop
      change (g.nodes.push _)[k]? = some m at hm
      rw [getElem?_push_node] at hm
      split at hm
      · rename_i hk
        cases hm
        exact .inr ⟨List.mem_singleton.2 hk, rfl⟩
      · exact .inl hm
  · have hsame := (adds_stopNode g linear).unresolved
    rw [hstop] at hsame
    intro a ha
    rwa [hsame]

/-- A block that ends in front of a place has one edge, to the node there. -/
theorem makes_endBefore (hg : Indexed d g) {body : Array Instruction} {linear source : Nat}
    {b : BlockBody} (h : endBefore d g body linear source = .ok (b, g')) :
    b.instructions = body.toList ∧ ∃ id, b.edges = [id] ∧ Makes d g b.edges g' := by
  simp only [endBefore, bind, Except.bind] at h
  split at h
  · cases h
  · rename_i p hnode
    cases h
    exact ⟨rfl, p.1, rfl, (makes_nodeFor hg hnode).1⟩

/-! ### What a filled node has -/

/-- How a block ends: with one way on and no jump, or with a jump that has no way on. -/
inductive Ends (g : FlowGraph) (is : List Instruction) : List Nat → Prop
  | onward (id : Nat) (hlast : ∀ i ∈ is.getLast?, i.mnemonic.isJump = false) : Ends g is [id]
  | lost {i : Instruction} (hlast : is.getLast? = some i) (hjump : i.mnemonic.isJump = true)
      (hrecord : i.linear ∈ g.unresolved) : Ends g is []

/-- What a node has when it is filled. -/
inductive Shaped (d : Disassembly) (g : FlowGraph) (n : Node) : Prop
  | branch {i : Instruction} {t : Address} (hk : n.kind = .branch)
      (hi : d.find? n.linear = some i) (ht : i.target? = some t) (his : n.instructions = [i])
      (hes : g.Names [t.linear, i.nextLinear] n.edges)
  | switch {i : Instruction} (hk : n.kind = .switch) (hi : d.find? n.linear = some i)
      (his : n.instructions = [i]) (hcs : n.cases = i.cases.map (·.value))
      (hes : g.Names (i.cases.map fun c => (i.caseTarget c).linear) n.edges)
  | block (hk : n.kind = .block) (hends : Ends g n.instructions n.edges)
  | outer (hk : n.kind = .start ∨ n.kind = .stop)

/-- How a block ends does not change while jumps are only added to the list. -/
theorem Ends.mono {is : List Instruction} {es : List Nat} (h : Ends g is es)
    (hu : ∀ a ∈ g.unresolved, a ∈ g'.unresolved) : Ends g' is es := by
  cases h with
  | onward id hlast => exact .onward id hlast
  | lost hlast hjump hrecord => exact .lost hlast hjump (hu _ hrecord)

/-- A node keeps its shape while the graph grows. -/
theorem Shaped.mono {n : Node} (h : Shaped d g n)
    (hn : ∀ {a id : Nat}, g.byLinear[a]? = some id → g'.byLinear[a]? = some id)
    (hu : ∀ a ∈ g.unresolved, a ∈ g'.unresolved) : Shaped d g' n := by
  cases h with
  | branch hk hi ht his hes => exact .branch hk hi ht his (hes.mono hn)
  | switch hk hi his hcs hes => exact .switch hk hi his hcs (hes.mono hn)
  | block hk hends => exact .block hk (hends.mono hu)
  | outer hk => exact .outer hk

/-- The last instruction of a block that goes on is no jump, whatever the disassembly. -/
theorem ends_of_fillsBlock (hg : Indexed d g) {body : Array Instruction} {i : Instruction}
    {b : BlockBody} (h : FillsBlock d g body i (.ok (b, g')))
    (hbody : ∀ j ∈ body.toList.getLast?, j.mnemonic.isJump = false) :
    Makes d g b.edges g' ∧ Ends g' b.instructions b.edges := by
  -- The outcome is made a variable, so that failing cases can be told apart by it.
  generalize hres : Except.ok (b, g') = res at h
  induction h with
  | cut hne hstarts =>
    obtain ⟨his, id, hes, hmakes⟩ := makes_endBefore hg hres.symm
    refine ⟨hmakes, ?_⟩
    rw [hes, his]
    exact .onward id hbody
  | jump hhold ht =>
    obtain ⟨his, id, hes, hmakes⟩ := makes_endBefore hg hres.symm
    refine ⟨hmakes, ?_⟩
    rw [hes, his]
    exact .onward id hbody
  | @lost body i hhold hjump ht =>
    cases hres
    refine ⟨⟨⟨id, id, id⟩, ⟨hg.named, hg.known, hg.stop, hg.size⟩, by simp, .inl, ?_⟩,
      .lost (by simp) hjump (Array.mem_push_self ..)⟩
    intro a ha
    exact Array.mem_push.2 (.inl ha)
  | @stop body i hhold hjump hstop =>
    cases hres
    refine ⟨makes_stopNode hg i.linear, .onward _ ?_⟩
    intro j hj
    obtain rfl : i = j := by simpa using hj
    exact hjump
  | fault => cases hres
  | @next body i next res hhold hjump hgo hnext _ ih =>
    -- The last instruction of the body so far is the one just taken up, and it is no jump.
    refine ih ?_ hres
    intro j hj
    obtain rfl : i = j := by simpa using hj
    exact hjump

/-! ### Filling one node -/

/-- An instruction that is asked for and found is one of the disassembly. -/
theorem find?_of_instructionAt {linear source : Nat} {i : Instruction}
    (h : instructionAt d linear source = .ok i) : d.find? linear = some i := by
  unfold instructionAt at h
  split at h
  · rename_i j hj
    cases h
    exact hj
  · cases h

/-- **Filling a node** makes the nodes it leads to, and shapes it, whatever the disassembly says.
    Only success is assumed; a place without an instruction is a failure. -/
theorem makes_of_fill (hg : Indexed d g) {id : Nat} {n : Node} (hn : g.nodes[id]? = some n)
    (hstart : n.kind ≠ .start) (hstop : n.kind ≠ .stop) (h : fill d g id = some (.ok g')) :
    ∃ n' g₁, Makes d g n'.edges g₁ ∧ g' = g₁.setNode id n' ∧ n'.kind = n.kind ∧
      n'.linear = n.linear ∧ Shaped d g₁ n' := by
  unfold fill at h
  simp only [hn] at h
  split at h
  · rename_i hk
    exact absurd hk hstart
  · rename_i hk
    exact absurd hk hstop
  · rename_i hk
    -- A branch: both nodes are asked for at once, target first.
    obtain ⟨head, hhead, h⟩ := ok_of_liftM_bind h nofun
    split at h
    · rename_i t ht
      obtain ⟨⟨edges, g₁⟩, hnodes, h⟩ := ok_of_liftM_bind h nofun
      obtain ⟨hmakes, hnames⟩ := makes_nodesFor hg hnodes
      cases h
      exact ⟨_, g₁, hmakes, rfl, rfl, rfl,
        .branch hk (find?_of_instructionAt hhead) ht rfl hnames⟩
    · cases h
  · rename_i hk
    -- A switch: one node for each case.
    obtain ⟨head, hhead, h⟩ := ok_of_liftM_bind h nofun
    obtain ⟨⟨edges, g₁⟩, hnodes, h⟩ := ok_of_liftM_bind h nofun
    obtain ⟨hmakes, hnames⟩ := makes_nodesFor hg hnodes
    cases h
    exact ⟨_, g₁, hmakes, rfl, rfl, rfl, .switch hk (find?_of_instructionAt hhead) rfl rfl hnames⟩
  · rename_i hk
    -- A block: what it makes is told by how it went on.
    obtain ⟨head, hhead, h⟩ := ok_of_liftM_bind h nofun
    cases hres : fillBlock d g #[] head with
    | none =>
      rw [hres] at h
      cases h
    | some res =>
      cases res with
      | error e =>
        rw [hres] at h
        cases h
      | ok p =>
        obtain ⟨b, g₁⟩ := p
        rw [hres] at h
        cases h
        obtain ⟨hmakes, hends⟩ := ends_of_fillsBlock hg (fillsBlock_of_fillBlock hres) (by simp)
        exact ⟨_, g₁, hmakes, rfl, rfl, rfl, .block hk hends⟩

/-! ### Node after node -/

/-- What is true of the graph when the nodes at positions up to `k` are filled. -/
structure Raised (d : Disassembly) (g : FlowGraph) (k : Nat) : Prop where
  indexed : Indexed d g
  start : ∃ n id, g.nodes[0]? = some n ∧ n.kind = .start ∧ n.edges = [id] ∧
    g.byLinear[d.entry.linear]? = some id
  shaped : ∀ {id : Nat} {n}, id ≤ k → g.nodes[id]? = some n → Shaped d g n
  /-- A node gets its edges when it is filled. -/
  bare : ∀ {id : Nat} {n}, k < id → g.nodes[id]? = some n → n.edges = []
  used : ∀ {id : Nat} {n}, g.nodes[id]? = some n → ∀ e ∈ n.edges, e < g.size
  reached : ∀ {id : Nat}, id < g.size → Relation.ReflTransGen g.Edge 0 id

theorem edge_of_node {id next : Nat} {n : Node} (hn : g.nodes[id]? = some n)
    (he : next ∈ n.edges) : g.Edge id next := by
  rw [Edge, successors_of_node hn]
  exact he

theorem node_of_edge {id next : Nat} (h : g.Edge id next) :
    ∃ n, g.nodes[id]? = some n ∧ next ∈ n.edges := by
  unfold Edge successors at h
  split at h
  · rename_i n hn
    exact ⟨n, hn, h⟩
  · exact absurd h List.not_mem_nil

/-- At first there are the start and the node it leads to. -/
theorem raised_started (h : started d = .ok g) : Raised d g 0 := by
  simp only [started, bind, Except.bind] at h
  split at h
  · cases h
  · rename_i p hnode
    obtain ⟨first, g₁⟩ := p
    cases h
    obtain ⟨hmakes, hfirst⟩ := makes_nodeFor (indexed_initial d) hnode
    have hzero : g₁.nodes[0]? = some { kind := .start, linear := 0 } := hmakes.grows.node rfl
    have hnode (k : Nat) :
        (g₁.setNode 0 { kind := .start, linear := 0, edges := [first] }).nodes[k]? =
          if 0 = k then g₁.nodes[k]?.map fun _ => { kind := .start, linear := 0, edges := [first] }
          else g₁.nodes[k]? := getElem?_setNode ..
    have hzero' := hnode 0
    rw [if_pos rfl, hzero] at hzero'
    have hsize : (g₁.setNode 0 { kind := .start, linear := 0, edges := [first] }).size = g₁.size :=
      Array.size_setIfInBounds
    -- Of what the start does not lead to there is nothing but itself.
    have hmade {id : Nat} {n : Node} (hid : id ≠ 0)
        (hn : (g₁.setNode 0 { kind := .start, linear := 0, edges := [first] }).nodes[id]? =
          some n) :
        id = first ∧ n.edges = [] := by
      rw [hnode, if_neg (Ne.symm hid)] at hn
      rcases hmakes.made hn with hold | ⟨hid', hes⟩
      · have hlt := size_of_node hold
        simp only [initial, size, List.size_toArray, List.length_cons, List.length_nil] at hlt
        omega
      · exact ⟨List.mem_singleton.1 hid', hes⟩
    refine ⟨hmakes.indexed.setNode hzero (fun hk => by cases hk) rfl rfl,
      ⟨_, first, hzero', rfl, rfl, hfirst⟩, ?_, ?_, ?_, ?_⟩
    · intro id n hid hn
      obtain rfl := Nat.le_zero.1 hid
      rw [hzero'] at hn
      cases hn
      exact .outer (.inl rfl)
    · intro id n hid hn
      exact (hmade (Nat.ne_of_gt hid) hn).2
    · intro id n hn e he
      rw [hsize]
      by_cases hid : id = 0
      · subst hid
        rw [hzero'] at hn
        cases hn
        exact hmakes.used e he
      · rw [(hmade hid hn).2] at he
        exact absurd he List.not_mem_nil
    · intro id hid
      by_cases hid' : id = 0
      · rw [hid']
      · obtain ⟨n, hn⟩ := exists_node hid
        rw [(hmade hid' hn).1]
        exact .single (edge_of_node hzero' List.mem_cons_self)

/-- All nodes are still reached when a node is given its edges, and so are those made for it. A node
    has no edges before it is filled, so writing it takes none away. -/
theorem Raised.reached_setNode {k : Nat} {n n' : Node} {g₁ : FlowGraph} (h : Raised d g k)
    (hn : g.nodes[k + 1]? = some n) (hmakes : Makes d g n'.edges g₁) {id : Nat}
    (hid : id < (g₁.setNode (k + 1) n').size) :
    Relation.ReflTransGen (g₁.setNode (k + 1) n').Edge 0 id := by
  -- The node had no edges yet, so all edges there were are still there.
  have hedge : ∀ a b, g.Edge a b → (g₁.setNode (k + 1) n').Edge a b := by
    intro a b hab
    obtain ⟨m, hm, hb⟩ := node_of_edge hab
    have ha : a ≠ k + 1 := by
      rintro rfl
      rw [h.bare (Nat.lt_succ_self k) hm] at hb
      exact absurd hb List.not_mem_nil
    refine edge_of_node ?_ hb
    rw [getElem?_setNode, if_neg (Ne.symm ha), hmakes.grows.node hm]
  have hreach {id : Nat} (hid : id < g.size) :
      Relation.ReflTransGen (g₁.setNode (k + 1) n').Edge 0 id :=
    Relation.ReflTransGen.mono (fun a b => hedge a b) _ _ (h.reached hid)
  by_cases hlt : id < g.size
  · exact hreach hlt
  · -- A node that was made for this one is one of its edges.
    have hsize : (g₁.setNode (k + 1) n').size = g₁.size := Array.size_setIfInBounds
    rw [hsize] at hid
    obtain ⟨m, hm⟩ := exists_node hid
    rcases hmakes.made hm with hm₀ | ⟨hmem, -⟩
    · exact absurd (size_of_node hm₀) hlt
    · refine (hreach (size_of_node hn)).tail (edge_of_node (n := n') ?_ hmem)
      rw [getElem?_setNode, if_pos rfl, hmakes.grows.node hn]
      rfl

/-- A node that is shaped while nodes are made keeps the graph in order. -/
theorem Raised.setNode {k : Nat} {n n' : Node} {g₁ : FlowGraph} (h : Raised d g k)
    (hn : g.nodes[k + 1]? = some n) (hmakes : Makes d g n'.edges g₁)
    (hstop : n.kind ≠ .stop) (hkind : n'.kind = n.kind) (hlinear : n'.linear = n.linear)
    (hshaped : Shaped d g₁ n') : Raised d (g₁.setNode (k + 1) n') (k + 1) := by
  have hthere : (g₁.setNode (k + 1) n').nodes[k + 1]? = some n' := by
    rw [getElem?_setNode, if_pos rfl, hmakes.grows.node hn]
    rfl
  -- The node that is written is at one position only, and the others are those of `g₁`.
  have helse {id : Nat} (hid : id ≠ k + 1) :
      (g₁.setNode (k + 1) n').nodes[id]? = g₁.nodes[id]? := by
    rw [getElem?_setNode, if_neg (Ne.symm hid)]
  have hold {id : Nat} {m : Node} (hid : id ≠ k + 1) (hm : g.nodes[id]? = some m) :
      (g₁.setNode (k + 1) n').nodes[id]? = some m := (helse hid).trans (hmakes.grows.node hm)
  have hsize : (g₁.setNode (k + 1) n').size = g₁.size := Array.size_setIfInBounds
  have hle := hmakes.grows.size_le
  have hfilled : ∀ e ∈ n'.edges, e < (g₁.setNode (k + 1) n').size := by
    rw [hsize]
    exact hmakes.used
  refine ⟨hmakes.indexed.setNode (hmakes.grows.node hn) hstop hkind hlinear, ?_, ?_, ?_, ?_,
    h.reached_setNode hn hmakes⟩
  · obtain ⟨m, id, hm, hk, hes, hid⟩ := h.start
    exact ⟨m, id, hold (Nat.zero_ne_add_one k) hm, hk, hes, hmakes.grows.named hid⟩
  · intro id m hid hm
    by_cases hsame : id = k + 1
    · subst hsame
      rw [hthere] at hm
      cases hm
      exact hshaped.mono (fun ha => ha) fun _ ha => ha
    · -- Positions are in use from the front, so the node was there before.
      have hlt : id < g.size := Nat.lt_of_lt_of_le (by omega) (size_of_node hn)
      obtain ⟨m₀, hm₀⟩ := exists_node hlt
      rw [hold hsame hm₀] at hm
      cases hm
      exact (h.shaped (by omega) hm₀).mono hmakes.grows.named hmakes.unresolved
  · -- Behind the node that is filled, all nodes are bare, also those just made.
    intro id m hid hm
    rw [helse (by omega)] at hm
    rcases hmakes.made hm with hm₀ | ⟨-, hes⟩
    · exact h.bare (by omega) hm₀
    · exact hes
  · intro id m hm e he
    by_cases hsame : id = k + 1
    · subst hsame
      rw [hthere] at hm
      cases hm
      exact hfilled e he
    · rw [helse hsame] at hm
      rcases hmakes.made hm with hm₀ | ⟨-, hes⟩
      · rw [hsize]
        exact Nat.lt_of_lt_of_le (h.used hm₀ e he) hle
      · rw [hes] at he
        exact absurd he List.not_mem_nil

/-- **Filling the next node keeps the graph in order.** Start and end are left as they are; any
    other node is shaped by `makes_of_fill`. -/
theorem Raised.step {k : Nat} (h : Raised d g k) (hfill : fill d g (k + 1) = some (.ok g')) :
    Raised d g' (k + 1) := by
  by_cases hself : ∀ n, g.nodes[k + 1]? = some n → n.kind = .start ∨ n.kind = .stop
  · rw [fill_self fun {n} => hself n] at hfill
    cases hfill
    refine ⟨h.indexed, h.start, ?_, fun hid => h.bare (by omega), h.used, h.reached⟩
    intro id n hid hn
    rcases Nat.le_or_eq_of_le_succ hid with hle | rfl
    · exact h.shaped hle hn
    · exact .outer (hself n hn)
  · push Not at hself
    obtain ⟨n, hn, hstart, hstop⟩ := hself
    obtain ⟨n', g₁, hmakes, rfl, hkind, hlinear, hshaped⟩ :=
      makes_of_fill h.indexed hn hstart hstop hfill
    exact h.setNode hn hmakes hstop hkind hlinear hshaped

/-- So it is when any number of nodes are filled, by induction on how many. -/
theorem raised_of_filledTo {k : Nat} (h : filledTo d k = some (.ok g)) : Raised d g k := by
  induction k generalizing g with
  | zero =>
    rw [filledTo_zero] at h
    exact raised_started (Option.some.inj h)
  | succ k ih =>
    rw [filledTo_succ] at h
    cases hprev : filledTo d k with
    | none =>
      rw [hprev] at h
      cases h
    | some prev =>
      rw [hprev] at h
      cases prev with
      | error e => cases h
      | ok g₀ => exact (ih hprev).step h

/-- When a graph is finished, all its nodes have been filled. -/
theorem raised_of_build (hg : build d = some (.ok g)) : Raised d g (d.size + 1) :=
  raised_of_filledTo (filledTo_of_build hg)

/-! ### The finished graph -/

/-- The structure of a graph. Nodes are known by their positions. -/
structure InOrder (g : FlowGraph) (d : Disassembly) : Prop where
  edges : ∀ {id : Nat} {n}, g.nodes[id]? = some n → ∀ e ∈ n.edges, e < g.size
  /-- The start leads to the node of the entry. -/
  start : ∃ n id, g.nodes[0]? = some n ∧ n.kind = .start ∧ n.edges = [id] ∧
    g.byLinear[d.entry.linear]? = some id
  onlyStart : ∀ {id : Nat} {n}, g.nodes[id]? = some n → n.kind = .start → id = 0
  /-- A place has at most one node, and each node but the start and the end has its place. -/
  named : ∀ {a id : Nat}, g.byLinear[a]? = some id ↔
    ∃ n, g.nodes[id]? = some n ∧ n.linear = a ∧ n.kind ≠ .start ∧ n.kind ≠ .stop
  kind : ∀ {id : Nat} {n}, g.nodes[id]? = some n → n.kind ≠ .start → n.kind ≠ .stop →
    ∃ i, d.find? n.linear = some i ∧ n.kind = .ofInstruction i
  stop : ∀ {id : Nat}, g.stop = some id ↔ ∃ n, g.nodes[id]? = some n ∧ n.kind = .stop
  stopEmpty : ∀ {id : Nat} {n}, g.nodes[id]? = some n → n.kind = .stop →
    n.edges = [] ∧ n.instructions = []
  reached : ∀ {id : Nat}, id < g.size → Relation.ReflTransGen g.Edge 0 id
  /-- A branch leads to its target and to the place behind it, in this order. -/
  branch : ∀ {id : Nat} {n}, g.nodes[id]? = some n → n.kind = .branch →
    ∃ i t taken onward, d.find? n.linear = some i ∧ i.target? = some t ∧ n.instructions = [i] ∧
      n.edges = [taken, onward] ∧ g.byLinear[t.linear]? = some taken ∧
      g.byLinear[i.nextLinear]? = some onward
  /-- A switch leads to the places of its cases, in their order. -/
  switch : ∀ {id : Nat} {n}, g.nodes[id]? = some n → n.kind = .switch →
    ∃ i, d.find? n.linear = some i ∧ n.instructions = [i] ∧ n.cases = i.cases.map (·.value) ∧
      n.edges.length = n.cases.length ∧
      g.Names (i.cases.map fun c => (i.caseTarget c).linear) n.edges
  /-- A block has at most one way on, and none exactly if it ends with a jump that is recorded. -/
  block : ∀ {id : Nat} {n}, g.nodes[id]? = some n → n.kind = .block → n.edges.length ≤ 1 ∧
    (n.edges = [] ↔
      ∃ i, n.instructions.getLast? = some i ∧ i.mnemonic.isJump = true ∧ i.linear ∈ g.unresolved)

/-- The start is the first node alone, and the end is where the graph says it is. -/
theorem Indexed.outer (h : Indexed d g) {id : Nat} {n : Node} (hn : g.nodes[id]? = some n) :
    (n.kind = .start → id = 0) ∧ (n.kind = .stop → g.stop = some id) := by
  rcases h.known hn with ⟨hid, hk⟩ | hstop | hname
  · refine ⟨fun _ => hid, fun hk' => ?_⟩
    rw [hk] at hk'
    cases hk'
  · obtain ⟨m, hm, hk, -⟩ := h.stop hstop
    rw [hn] at hm
    cases hm
    refine ⟨fun hk' => ?_, fun _ => hstop⟩
    rw [hk] at hk'
    cases hk'
  · obtain ⟨m, i, hm, -, -, hk⟩ := h.named hname
    rw [hn] at hm
    cases hm
    exact ⟨fun hk' => absurd (hk.symm.trans hk') (ofInstruction_ne_start i),
      fun hk' => absurd (hk.symm.trans hk') (ofInstruction_ne_stop i)⟩

/-- A name leads to the node of its place, and each node but the start and the end has its name. -/
theorem Indexed.named_iff (h : Indexed d g) {a id : Nat} : g.byLinear[a]? = some id ↔
    ∃ n, g.nodes[id]? = some n ∧ n.linear = a ∧ n.kind ≠ .start ∧ n.kind ≠ .stop := by
  constructor
  · intro ha
    obtain ⟨n, i, hn, hl, -, hk⟩ := h.named ha
    exact ⟨n, hn, hl, hk ▸ ofInstruction_ne_start i, hk ▸ ofInstruction_ne_stop i⟩
  · rintro ⟨n, hn, rfl, hstart, hstop⟩
    exact (h.head hn hstart hstop).1

/-- A block has at most one way on, and none exactly if it ends with a jump that is recorded. -/
theorem Ends.edges_iff {is : List Instruction} {es : List Nat} (h : Ends g is es) :
    es.length ≤ 1 ∧ (es = [] ↔
      ∃ i, is.getLast? = some i ∧ i.mnemonic.isJump = true ∧ i.linear ∈ g.unresolved) := by
  cases h with
  | onward id hlast =>
    refine ⟨Nat.le_refl 1, fun he => (List.cons_ne_nil _ _ he).elim, ?_⟩
    rintro ⟨i, hi, hjump, -⟩
    rw [hlast i hi] at hjump
    cases hjump
  | @lost i hlast hjump hrecord =>
    exact ⟨Nat.zero_le 1, fun _ => ⟨i, hlast, hjump, hrecord⟩, fun _ => rfl⟩

/-- The nodes of two places are two, in the order of the places. -/
theorem Names.pair {a b : Nat} {ids : List Nat} (h : g.Names [a, b] ids) :
    ∃ x y, ids = [x, y] ∧ g.byLinear[a]? = some x ∧ g.byLinear[b]? = some y := by
  cases h with
  | @cons _ x _ rest hx hrest =>
    cases hrest with
    | @cons _ y _ rest hy hrest =>
      cases hrest
      exact ⟨x, y, rfl, hx, hy⟩

/-- A graph with all nodes filled is in order. Each clause is read off what was kept on the way. -/
theorem Raised.inOrder (h : Raised d g (d.size + 1)) : g.InOrder d := by
  have hshaped {id : Nat} {n : Node} (hn : g.nodes[id]? = some n) : Shaped d g n := by
    have hlt : id < g.nodes.size := size_of_node hn
    have hsize := h.indexed.size_le
    exact h.shaped (by omega) hn
  refine ⟨h.used, h.start, fun hn => (h.indexed.outer hn).1, h.indexed.named_iff,
    fun hn hstart hstop => (h.indexed.head hn hstart hstop).2, ?_, ?_, h.reached, ?_, ?_, ?_⟩
  · intro id
    constructor
    · intro hs
      obtain ⟨n, hn, hk, -⟩ := h.indexed.stop hs
      exact ⟨n, hn, hk⟩
    · rintro ⟨n, hn, hk⟩
      exact (h.indexed.outer hn).2 hk
  · intro id n hn hk
    obtain ⟨m, hm, -, his, hes⟩ := h.indexed.stop ((h.indexed.outer hn).2 hk)
    rw [hn] at hm
    cases hm
    exact ⟨hes, his⟩
  · intro id n hn hk
    -- A shape fits its kind, so the others are ruled out by the kind of the node.
    cases hshaped hn with
    | @branch i t _ hi ht his hes =>
      obtain ⟨taken, onward, hes, htaken, honward⟩ := hes.pair
      exact ⟨i, t, taken, onward, hi, ht, his, hes, htaken, honward⟩
    | switch hk' => simp [hk] at hk'
    | block hk' => simp [hk] at hk'
    | outer hk' => simp [hk] at hk'
  · intro id n hn hk
    cases hshaped hn with
    | @switch i _ hi his hcs hes =>
      refine ⟨i, hi, his, hcs, ?_, hes⟩
      rw [hcs, List.length_map, ← hes.length_eq, List.length_map]
    | branch hk' => simp [hk] at hk'
    | block hk' => simp [hk] at hk'
    | outer hk' => simp [hk] at hk'
  · intro id n hn hk
    cases hshaped hn with
    | block _ hends => exact hends.edges_iff
    | branch hk' => simp [hk] at hk'
    | switch hk' => simp [hk] at hk'
    | outer hk' => simp [hk] at hk'

end FlowGraph

/-- **Every flow graph is in order**, whatever disassembly it is built of: one that a function
    has, or one whose instructions, labels, exits, records, entry or index were changed by hand.

    Two things that could be fields of their own are derived here. The place of an
    instruction is `Instruction.linear`, computed from its address, and that of a record is
    `Unresolved.linear`; so an instruction that was edited is taken to have the place its address
    says. A node is known by its position in the graph, so its number cannot differ from that. -/
theorem inOrder_of_build {d : Disassembly} {g : FlowGraph}
    (hg : FlowGraph.build d = some (.ok g)) : g.InOrder d :=
  (FlowGraph.raised_of_build hg).inOrder

/-- A branch to the jump behind it, edited by hand: the jump is recorded as one that is not
    followed, the branch as an exit, and two entries of the index lead nowhere. -/
def patched : Disassembly where
  entry := ⟨0, 0x100⟩
  instructions := #[
    { address := ⟨0, 0x100⟩, mnemonic := .jcc, operands := [.condition .e, .relative 0],
      length := 2 },
    { address := ⟨0, 0x102⟩, mnemonic := .jmp, operands := [.relative (-4)], length := 2 }]
  labels := ∅
  exits := .ofList [0x100]
  unresolved := [⟨⟨0x10, 2⟩, .externalTarget⟩]
  callees := []
  index := .ofList [(0x100, 0), (0x102, 1), (0x104, 1), (0x107, 2)]

/-- The edited disassembly still has a graph. -/
theorem exists_graph_patched : ∃ g, FlowGraph.build patched = some (.ok g) := by
  have hsize : patched.size = 4 := by decide +kernel
  have hbranch : patched.find? 0x100 = some patched.instructions[0] := by decide +kernel
  have hjump : patched.find? 0x102 = some patched.instructions[1] := by decide +kernel
  have hgo (g : FlowGraph) (f : FlowGraph → ExceptT Fault Option FlowGraph) :
      bind (m := ExceptT Fault Option) (some (.ok g)) f = f g := rfl
  have hlost (g : FlowGraph) : FlowGraph.fillBlock patched g #[] patched.instructions[1] =
      some (.ok (⟨[patched.instructions[1]], []⟩,
        { g with unresolved := g.unresolved.push 0x102 })) :=
    FlowGraph.FillsBlock.fillBlock_eq (.lost (.inl rfl) rfl (by decide +kernel))
  have hends : ∃ g, FlowGraph.buildNodes patched = some (.ok g) := by
    rw [FlowGraph.buildNodes_eq, hsize]
    simp only [FlowGraph.filledTo_succ, FlowGraph.filledTo_zero]
    rw [FlowGraph.started_eq hbranch, hgo, FlowGraph.fill_branch rfl rfl hbranch rfl rfl, hgo,
      FlowGraph.fill_block rfl rfl hjump, hlost]
    exact ⟨_, rfl⟩
  obtain ⟨g, hg⟩ := hends
  exact ⟨g, by rw [FlowGraph.build, hg]; rfl⟩

/-- Its graph is in order all the same. -/
theorem inOrder_patched : ∃ g, FlowGraph.build patched = some (.ok g) ∧ g.InOrder patched := by
  obtain ⟨g, hg⟩ := exists_graph_patched
  exact ⟨g, hg, inOrder_of_build hg⟩

end RealMode
