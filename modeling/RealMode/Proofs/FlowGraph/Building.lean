import RealMode.Proofs.FlowGraph.Filling

namespace RealMode.FlowGraph

/-!
# Building the whole graph

* `filledTo` — the graph when its first nodes are filled, and `Built` — what is true of it;
* `Reflects` — the graph shows the control flow of a disassembly: every node but the end
  holds what control goes through from its place on;
* `build_spec` — a graph that is built reflects its disassembly, and building never fails.
-/

variable {d : Disassembly} {g g' : FlowGraph}

/-! ### Node after node -/

/-- The graph with its start, before any other node is filled. -/
def started (d : Disassembly) : Except Fault FlowGraph := do
  let (first, g) ← (initial d.entry).nodeFor d d.entry.linear d.entry.linear
  return g.setNode 0 { kind := .start, linear := 0, edges := [first] }

/-- The graph when the nodes at positions up to `k` are filled. -/
def filledTo (d : Disassembly) (k : Nat) : ExceptT Fault Option FlowGraph := do
  (List.range' 1 k).foldlM (fill d) (← started d)

/-- The loop over all nodes is filling up to one more than there are instructions. Positions behind
    the last node are passed over. -/
theorem buildNodes_eq (d : Disassembly) : buildNodes d = filledTo d (d.size + 1) := by
  unfold buildNodes filledTo started
  dsimp only
  cases (initial d.entry).nodeFor d d.entry.linear d.entry.linear with
  | error e => rfl
  | ok p => rfl

/-- With no node filled there is the start. -/
theorem filledTo_zero (d : Disassembly) : filledTo d 0 = some (started d) := by
  unfold filledTo
  cases started d with
  | error e => rfl
  | ok g => rfl

/-- One node more is filled last. This is the equation that all inductions over building use. -/
theorem filledTo_succ (d : Disassembly) (k : Nat) :
    filledTo d (k + 1) = filledTo d k >>= fun g => fill d g (k + 1) := by
  unfold filledTo
  rw [List.range'_concat]
  simp only [List.foldlM_append, List.foldlM_cons, List.foldlM_nil, bind_assoc, bind_pure,
    Nat.one_mul, Nat.add_comm 1 k]

/-- At first there is the start at position zero, the node of the entry behind it, and one edge
    between them. -/
theorem started_eq {head : Instruction} (hhead : d.find? d.entry.linear = some head) :
    started d = .ok { initial d.entry with
      nodes := #[{ kind := .start, linear := 0, edges := [1] },
        { kind := .ofInstruction head, linear := d.entry.linear }]
      byLinear := (∅ : AddressMap Nat).insert d.entry.linear 1 } := by
  have hnone : (initial d.entry).byLinear[d.entry.linear]? = none :=
    Std.ExtTreeMap.getElem?_empty
  simp only [started, nodeFor, hnone, instructionAt, hhead]
  rfl

/-! ### What is true all along -/

/-- What is true of the graph when the nodes at positions up to `k` are filled. -/
structure Built (d : Disassembly) (g : FlowGraph) (k : Nat) : Prop where
  indexed : Indexed d g
  start : ∃ n id, g.nodes[0]? = some n ∧ n.instructions = [] ∧ n.edges = [id] ∧
    g.byLinear[d.entry.linear]? = some id
  filled : ∀ {id}, id ≤ k → Filled d g id

/-- A graph that has its start only is indexed, since the start needs no name. -/
theorem indexed_initial (d : Disassembly) : Indexed d (initial d.entry) := by
  refine ⟨?_, ?_, ?_, rfl⟩
  · intro a id ha
    rw [initial, Std.ExtTreeMap.getElem?_empty] at ha
    cases ha
  · intro id n hn
    have hlt := (Array.getElem?_eq_some_iff.1 hn).1
    have hid : id = 0 := by
      simp only [initial, List.size_toArray, List.length_cons, List.length_nil] at hlt
      omega
    subst hid
    cases hn
    exact .inl ⟨rfl, rfl⟩
  · intro id hs
    cases hs

/-- The start leads to the node of the entry, which is there because the entry of a well-formed
    disassembly is an instruction. No node but the start counts as filled yet. -/
theorem built_started (hd : d.WellFormed) : ∃ g, started d = .ok g ∧ Built d g 0 := by
  obtain ⟨head, hhead⟩ := hd.entry
  obtain ⟨first, g, hnode, hgrows, hindexed, hfirst⟩ :=
    nodeFor_spec (indexed_initial d) hhead d.entry.linear
  have hzero : g.nodes[0]? = some { kind := .start, linear := 0 } := hgrows.node rfl
  have hindexed' : Indexed d (g.setNode 0 { kind := .start, linear := 0, edges := [first] }) :=
    hindexed.setNode hzero (fun hk => by cases hk) rfl rfl
  have hzero' : (g.setNode 0 { kind := .start, linear := 0, edges := [first] }).nodes[0]? =
      some { kind := .start, linear := 0, edges := [first] } := by
    rw [getElem?_setNode, if_pos rfl, hzero]
    rfl
  refine ⟨_, by simp only [started, hnode]; rfl, hindexed',
    ⟨_, first, hzero', rfl, rfl, hfirst⟩, ?_⟩
  intro id hid a ha
  obtain rfl := Nat.le_zero.1 hid
  -- The start has no instruction of its own.
  obtain ⟨n, i, hn, -, -, hk⟩ := hindexed'.named ha
  rw [hzero'] at hn
  cases hn
  exact absurd hk.symm (ofInstruction_ne_start i)

/-- A node that was filled before stays filled. Filling another node adds names and nodes, and these
    do not change what it stands for. -/
theorem Fills.keeps {id k : Nat} (h : Fills d g id g') (hindexed : Indexed d g) (hk : k < id)
    (hfilled : Filled d g k) : Filled d g' k := by
  intro a ha
  cases hn : g.nodes[k]? with
  | none =>
    -- Positions are in use from the front, so there is nothing at `id` either.
    have hsize : g.nodes.size ≤ k := Array.getElem?_eq_none_iff.1 hn
    have hsame : g' = g := h.idle (Array.getElem?_eq_none (by omega))
    subst hsame
    exact hfilled ha
  | some n =>
    obtain ⟨n', i, hn', hna, -, hkind⟩ := h.indexed.named ha
    rw [h.node (Nat.ne_of_lt hk) hn] at hn'
    cases hn'
    obtain ⟨hname, -⟩ := hindexed.head hn (hkind ▸ ofInstruction_ne_start i)
      (hkind ▸ ofInstruction_ne_stop i)
    rw [hna] at hname
    obtain ⟨m, j, hm, hj, hleads⟩ := hfilled hname
    exact ⟨m, j, h.node (Nat.ne_of_lt hk) hm, hj, hleads.mono h.named h.stop⟩

/-- One more node is filled: the new one by the step, and the ones before it are kept. -/
theorem Built.step {k : Nat} (hb : Built d g k) (h : Fills d g (k + 1) g') :
    Built d g' (k + 1) := by
  refine ⟨h.indexed, ?_, ?_⟩
  · obtain ⟨n, id, hn, his, hes, hid⟩ := hb.start
    exact ⟨n, id, h.node (Nat.zero_ne_add_one k) hn, his, hes, h.named hid⟩
  · intro id hid
    rcases Nat.le_or_eq_of_le_succ hid with hle | rfl
    · exact h.keeps hb.indexed (Nat.lt_succ_of_le hle) (hb.filled hle)
    · exact h.filled

/-- **Filling node after node never fails**, and keeps what is true of the graph all along. It may
    still not end. -/
theorem filledTo_spec (hd : d.WellFormed) (k : Nat) {res : Except Fault FlowGraph}
    (hres : filledTo d k = some res) : ∃ g, res = .ok g ∧ Built d g k := by
  induction k generalizing res with
  | zero =>
    rw [filledTo_zero] at hres
    cases hres
    exact built_started hd
  | succ k ih =>
    rw [filledTo_succ] at hres
    cases hprev : filledTo d k with
    | none =>
      rw [hprev] at hres
      cases hres
    | some prev =>
      obtain ⟨g, rfl, hbuilt⟩ := ih hprev
      rw [hprev] at hres
      have hfill : fill d g (k + 1) = some res := hres
      obtain ⟨g', rfl, hfills⟩ := fill_spec hd hbuilt.indexed hfill
      exact ⟨g', rfl, hbuilt.step hfills⟩

/-! ### The finished graph -/

/-- The graph shows the control flow of a disassembly. -/
structure Reflects (d : Disassembly) (g : FlowGraph) : Prop where
  start : ∃ n id, g.nodes[0]? = some n ∧ n.instructions = [] ∧ n.edges = [id] ∧
    g.byLinear[d.entry.linear]? = some id
  node : ∀ {a id : Nat}, g.byLinear[a]? = some id → ∃ n i, g.nodes[id]? = some n ∧
    d.find? a = some i ∧ Leads d g i n.instructions n.edges
  stop : ∀ {id : Nat}, g.stop = some id → ∃ n, g.nodes[id]? = some n ∧ n.instructions = [] ∧
    n.edges = []
  known : ∀ {id : Nat} {n}, g.nodes[id]? = some n →
    id = 0 ∧ n.kind = .start ∨ g.stop = some id ∧ n.kind = .stop ∨
      g.byLinear[n.linear]? = some id ∧ n.kind ≠ .start ∧ n.kind ≠ .stop

/-- There are no more nodes than instructions, with the start and the end, because names are places
    of instructions and differ from node to node. -/
theorem Indexed.size_le (h : Indexed d g) : g.nodes.size ≤ d.size + 2 := by
  have hnamed : g.byLinear.size ≤ d.size := by
    apply AddressMap.size_le_of_contains
    intro a ha
    obtain ⟨id, hid⟩ := (AddressMap.contains_iff_exists _ _).1 ha
    obtain ⟨-, i, -, -, hi, -⟩ := h.named hid
    exact (Disassembly.mem_of_find? hi).2.2.2
  have hstop : g.stop.toList.length ≤ 1 := by
    cases g.stop <;> simp
  have hsize := h.size
  omega

/-- When all positions that there can be are filled, the graph reflects its disassembly. -/
theorem Built.reflects (h : Built d g (d.size + 1)) : Reflects d g := by
  refine ⟨h.start, ?_, ?_, ?_⟩
  · intro a id ha
    obtain ⟨n, -, hn, -⟩ := h.indexed.named ha
    have hlt := (Array.getElem?_eq_some_iff.1 hn).1
    have hsize := h.indexed.size_le
    exact h.filled (by omega) ha
  · intro id hs
    obtain ⟨n, hn, -, hrest⟩ := h.indexed.stop hs
    exact ⟨n, hn, hrest⟩
  · intro id n hn
    rcases h.indexed.known hn with hzero | hs | ha
    · exact .inl hzero
    · obtain ⟨m, hm, hk, -⟩ := h.indexed.stop hs
      rw [hn] at hm
      cases hm
      exact .inr (.inl ⟨hs, hk⟩)
    · obtain ⟨m, i, hm, -, -, hk⟩ := h.indexed.named ha
      rw [hn] at hm
      cases hm
      exact .inr (.inr ⟨ha, hk ▸ ofInstruction_ne_start i, hk ▸ ofInstruction_ne_stop i⟩)

/-- **A graph that is built reflects its disassembly**, and building never fails. The failures in
    its code are for disassemblies that are not well-formed. -/
theorem build_spec (hd : d.WellFormed) {res : Except FlowError FlowGraph}
    (hres : build d = some res) : ∃ g, res = .ok g ∧ Reflects d g := by
  unfold build at hres
  rw [buildNodes_eq] at hres
  cases hnodes : filledTo d (d.size + 1) with
  | none =>
    rw [hnodes] at hres
    cases hres
  | some res' =>
    obtain ⟨g, rfl, hbuilt⟩ := filledTo_spec hd _ hnodes
    rw [hnodes] at hres
    cases hres
    exact ⟨g, rfl, hbuilt.reflects⟩

end RealMode.FlowGraph
