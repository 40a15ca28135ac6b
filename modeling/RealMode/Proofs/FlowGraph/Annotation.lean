import RealMode.Proofs.FlowGraph.Building
import RealMode.Survey

namespace RealMode

/-!
# Annotating a graph, and how an analysis can fail

* `FlowGraph.Annotates` — the same graph with the locals that each node reads and writes;
* `FlowGraph.annotates_of_annotate` — that is what annotating does, and
  `FlowGraph.Reflects.annotate` — it never fails on the graph of a function;
* `analyze_fails_in_disassembly` — so an analysis fails in the disassembly or not at all.
-/

/-! ### Instructions of a node -/

namespace FlowGraph

variable {d : Disassembly} {g g' : FlowGraph}

/-- Everything a node holds is an instruction of the disassembly, listed at its own place. -/
theorem Leads.find? {i : Instruction} {is : List Instruction} {es : List Nat}
    (h : Leads d g i is es) (hi : d.find? i.linear = some i) :
    ∀ j ∈ is, d.find? j.linear = some j := by
  induction h with
  | turn _ _ =>
    intro j hj
    rw [List.mem_singleton.1 hj]
    exact hi
  | jump _ _ => exact fun j hj => absurd hj List.not_mem_nil
  | stop _ _ _ =>
    intro j hj
    rw [List.mem_singleton.1 hj]
    exact hi
  | next _ _ hn _ ih =>
    intro j hj
    rcases List.mem_cons.1 hj with rfl | hj
    · exact hi
    · exact ih (Disassembly.find?_linear hn) j hj

/-- The same for a node of the whole graph, the start and the end included: these hold nothing. -/
theorem Reflects.find? (h : Reflects d g) {id : Nat} {n : Node} (hn : g.nodes[id]? = some n) :
    ∀ j ∈ n.instructions, d.find? j.linear = some j := by
  rcases h.known hn with ⟨rfl, -⟩ | ⟨hs, -⟩ | ⟨ha, -⟩
  · obtain ⟨m, -, hm, his, -⟩ := h.start
    rw [hn] at hm
    cases hm
    rw [his]
    exact fun j hj => absurd hj List.not_mem_nil
  · obtain ⟨m, hm, his, -⟩ := h.stop hs
    rw [hn] at hm
    cases hm
    rw [his]
    exact fun j hj => absurd hj List.not_mem_nil
  · obtain ⟨m, i, hm, hi, hleads⟩ := h.node ha
    rw [hn] at hm
    cases hm
    exact hleads.find? (Disassembly.find?_linear hi)

/-! ### Annotated graphs -/

/-- The second graph is the first with the locals that each node reads and writes. -/
structure Annotates (g g' : FlowGraph) : Prop where
  size : g'.size = g.size
  byLinear : g'.byLinear = g.byLinear
  stop : g'.stop = g.stop
  node : ∀ {id : Nat} {n}, g.nodes[id]? = some n →
    ∃ u, Usage.foldList n.instructions = .ok u ∧ g'.nodes[id]? = some { n with usage := u }

/-- Annotating gives each node the use of its instructions and leaves all else as it is: positions,
    names, edges and the end. -/
theorem annotates_of_annotate (h : g.annotate = .ok g') : Annotates g g' := by
  unfold annotate at h
  cases hm : g.nodes.toList.mapM annotateNode with
  | error e => simp [hm, bind, Except.bind] at h
  | ok ns =>
    simp only [hm, bind, Except.bind, pure, Except.pure, Except.ok.injEq] at h
    subst h
    refine ⟨?_, rfl, rfl, ?_⟩
    · show ns.toArray.size = g.nodes.size
      rw [List.size_toArray, length_of_mapM_ok hm, Array.length_toList]
    · intro id n hn
      rw [← Array.getElem?_toList] at hn
      obtain ⟨n', hn', hnode⟩ := getElem?_of_mapM_ok hm hn
      rw [annotateNode] at hnode
      cases hu : Usage.foldList n.instructions with
      | error e => simp [hu, bind, Except.bind] at hnode
      | ok u =>
        simp only [hu, bind, Except.bind, pure, Except.pure, Except.ok.injEq] at hnode
        refine ⟨u, rfl, ?_⟩
        show ns.toArray[id]? = _
        rw [List.getElem?_toArray, hn', hnode]

/-- A node of the annotated graph is one of the graph, with its use. So kinds and places can be read
    off either of the two. -/
theorem Annotates.exists_node (h : Annotates g g') {id : Nat} {n : Node}
    (hn : g'.nodes[id]? = some n) :
    ∃ m, g.nodes[id]? = some m ∧ n.kind = m.kind ∧ n.linear = m.linear := by
  have hlt : id < g.size := by
    rw [← h.size]
    exact (Array.getElem?_eq_some_iff.1 hn).1
  have hm : g.nodes[id]? = some (g.nodes[id]) := Array.getElem?_eq_getElem hlt
  obtain ⟨u, -, hn'⟩ := h.node hm
  rw [hn] at hn'
  cases hn'
  exact ⟨_, hm, rfl, rfl⟩

/-- A run of instructions that have a use has one, as putting two uses together never fails. -/
theorem foldList_of_usage {is : List Instruction} (h : ∀ i ∈ is, ∃ u, i.usage = .ok u) :
    ∃ u, Usage.foldList is = .ok u := by
  apply exists_foldlM_ok
  intro acc i hi
  obtain ⟨u, hu⟩ := h i hi
  exact ⟨acc.andThen u, by simp [hu, bind, Except.bind, pure, Except.pure]⟩

/-- **Annotating the graph of a function never fails.** Every instruction in it is one of the
    disassembly, and those have a use. -/
theorem Reflects.annotate (h : Reflects d g) (hd : d.WellFormed) : ∃ g', g.annotate = .ok g' := by
  have hnodes : ∀ n ∈ g.nodes.toList, ∃ n', annotateNode n = .ok n' := by
    intro n hn
    obtain ⟨id, hid⟩ := List.mem_iff_getElem?.1 hn
    rw [Array.getElem?_toList] at hid
    obtain ⟨u, hu⟩ := foldList_of_usage fun i hi => hd.usage (h.find? hid i hi)
    exact ⟨{ n with usage := u }, by simp [annotateNode, hu, bind, Except.bind, pure, Except.pure]⟩
  obtain ⟨ns, hns⟩ := exists_mapM_ok hnodes
  exact ⟨{ g with nodes := ns.toArray }, by
    simp [FlowGraph.annotate, hns, bind, Except.bind, pure, Except.pure]⟩

end FlowGraph

/-! ### How an analysis can fail -/

/-- A graph that is built from the disassembly of a function is annotated without fail. -/
theorem FlowGraph.annotate_of_build {r : Routine} {d : Disassembly} {g : FlowGraph}
    (hd : r.disassemble = .ok d) (hg : FlowGraph.build d = some (.ok g)) :
    ∃ g', g.annotate = .ok g' := by
  have hwell := wellFormed_of_disassemble hd
  obtain ⟨g₁, he, hreflects⟩ := FlowGraph.build_spec hwell hg
  cases he
  exact hreflects.annotate hwell

/-- Building the graph of a function does not fail, as what is disassembled is well-formed. -/
theorem FlowGraph.build_ne_error {r : Routine} {d : Disassembly} (hd : r.disassemble = .ok d)
    (e : FlowError) : FlowGraph.build d ≠ some (.error e) := by
  intro hg
  obtain ⟨g, he, -⟩ := FlowGraph.build_spec (wellFormed_of_disassemble hd) hg
  cases he

/-- An analysis ends in failure if its disassembly does, with the same reason. -/
theorem Routine.analyze_of_error {r : Routine} {f : FlowError} (hd : r.disassemble = .error f) :
    r.analyze = some (.error (.flow f)) := by
  unfold analyze
  rw [hd]
  rfl

/-- An analysis that gets through gives what its parts give: the disassembly, and its graph with the
    uses of the nodes. -/
theorem Routine.analyze_of_annotate {r : Routine} {d : Disassembly} {g g' : FlowGraph}
    (hd : r.disassemble = .ok d) (hg : FlowGraph.build d = some (.ok g))
    (ha : g.annotate = .ok g') : r.analyze = some (.ok ⟨d, g'⟩) := by
  unfold analyze
  rw [hd]
  show (ExceptT.adapt AnalysisError.flow (ExceptT.mk (FlowGraph.build d)) >>= fun graph => _ :
    ExceptT AnalysisError Option _).run = _
  rw [hg]
  show (liftM (g.annotate.mapError AnalysisError.operand) >>= fun annotated => _ :
    ExceptT AnalysisError Option _).run = _
  rw [ha]
  rfl

/-- An analysis does not end if its graph is never finished. -/
theorem Routine.analyze_of_none {r : Routine} {d : Disassembly} (hd : r.disassemble = .ok d)
    (hg : FlowGraph.build d = none) : r.analyze = none := by
  unfold analyze
  rw [hd]
  show (ExceptT.adapt AnalysisError.flow (ExceptT.mk (FlowGraph.build d)) >>= fun graph => _ :
    ExceptT AnalysisError Option _).run = _
  rw [hg]
  rfl

/-- **Analyses fail in the disassembly or not at all.** Once a function is disassembled, its
    graph is built and annotated without fail, whatever the image, the entry, the options and
    the templates are. So an analysis that ends fails exactly if the disassembly does, and
    for the same reason. -/
theorem analyze_fails_in_disassembly (s : Survey) (entry : Address) :
    (∀ d, (s.routine entry).disassemble = .ok d →
      (∀ e, FlowGraph.build d ≠ some (.error e)) ∧
      ∀ g, FlowGraph.build d = some (.ok g) → ∃ g', g.annotate = .ok g') ∧
    ∀ e, s.analyze entry = some (.error e) ↔
      ∃ f, (s.routine entry).disassemble = .error f ∧ e = .flow f := by
  refine ⟨fun d hd => ⟨FlowGraph.build_ne_error hd, fun g hg => FlowGraph.annotate_of_build hd hg⟩,
    fun e => ?_⟩
  show (s.routine entry).analyze = some (.error e) ↔ _
  cases hd : (s.routine entry).disassemble with
  | error f =>
    rw [Routine.analyze_of_error hd]
    constructor
    · intro h
      cases h
      exact ⟨f, rfl, rfl⟩
    · rintro ⟨f', hf, rfl⟩
      cases hf
      rfl
  | ok d =>
    -- Every later step succeeds, so there is no failure to explain.
    refine ⟨fun h => ?_, fun ⟨f, hf, _⟩ => by cases hf⟩
    cases hg : FlowGraph.build d with
    | none =>
      rw [Routine.analyze_of_none hd hg] at h
      cases h
    | some built =>
      cases built with
      | error e' => exact absurd hg (FlowGraph.build_ne_error hd e')
      | ok g =>
        obtain ⟨g', ha⟩ := FlowGraph.annotate_of_build hd hg
        rw [Routine.analyze_of_annotate hd hg ha] at h
        cases h

end RealMode
