import RealMode.Proofs.FlowGraph.Termination
import RealMode.Proofs.Lists

namespace RealMode

/-!
# Runs of a function and paths of its graph

* `FlowGraph.Path` — nodes that control can go through, one after another;
* `Disassembly.erased` — a run without the jumps that are followed;
* `FlowGraph.Leads.split` — a run through a node stops inside it or goes on at one of its
  edges, and `FlowGraph.Leads.join` — the other way round;
* `graph_refines_runs` — runs from the entry and paths from the start tell the same
  instructions.
-/

/-- The run without the jumps that are followed. -/
def Disassembly.erased (d : Disassembly) (is : List Instruction) : List Instruction :=
  is.filter (!d.isFollowed ·)

namespace FlowGraph

variable {d : Disassembly} {g : FlowGraph}

/-- The instructions of the node at a position. -/
def instructionsAt (g : FlowGraph) (id : Nat) : List Instruction :=
  match g.nodes[id]? with
  | some n => n.instructions
  | none => []

/-- The nodes that control can go through from a node on, one after another. -/
inductive Path (g : FlowGraph) : Nat → List Nat → Prop
  | last {id : Nat} (hid : id < g.size) : Path g id [id]
  | step {id next : Nat} {ids : List Nat} (he : next ∈ g.successors id) (h : Path g next ids) :
      Path g id (id :: ids)

/-! ### Small facts -/

/-- An instruction that is no jump to be followed stays in the run. -/
theorem erased_cons_of_not_followed {i : Instruction} (hf : d.isFollowed i = false)
    (is : List Instruction) : d.erased (i :: is) = i :: d.erased is := by
  rw [Disassembly.erased, List.filter_cons, hf]
  rfl

/-- A jump that is followed is left out of the run. -/
theorem erased_cons_of_followed {i : Instruction} (hf : d.isFollowed i = true)
    (is : List Instruction) : d.erased (i :: is) = d.erased is := by
  rw [Disassembly.erased, List.filter_cons, hf]
  rfl

theorem instructionsAt_of_node {id : Nat} {n : Node} (hn : g.nodes[id]? = some n) :
    g.instructionsAt id = n.instructions := by
  rw [instructionsAt, hn]

theorem successors_of_node {id : Nat} {n : Node} (hn : g.nodes[id]? = some n) :
    g.successors id = n.edges := by
  rw [successors, hn]

theorem size_of_node {id : Nat} {n : Node} (hn : g.nodes[id]? = some n) : id < g.size :=
  (Array.getElem?_eq_some_iff.1 hn).1

/-- Each place has its node among those named for the places. -/
theorem Names.exists_id {targets ids : List Nat} (h : g.Names targets ids) {b : Nat}
    (hb : b ∈ targets) : ∃ e ∈ ids, g.byLinear[b]? = some e :=
  exists_mem_of_forall₂ h hb

/-- Each node named for a list of places has its place there. -/
theorem Names.exists_place {targets ids : List Nat} (h : g.Names targets ids) {e : Nat}
    (he : e ∈ ids) : ∃ b ∈ targets, g.byLinear[b]? = some e :=
  exists_mem_of_forall₂_right h he

/-- A run is empty, or begins with the instruction at its place and goes on where that one
    leads. -/
theorem run_cases {a : Nat} {i : Instruction} {run : List Instruction} (h : d.Run a run)
    (hi : d.find? a = some i) :
    run = [] ∨ run = [i] ∨ ∃ b rest, b ∈ d.successors i ∧ d.Run b rest ∧ run = i :: rest := by
  cases h with
  | nil => exact .inl rfl
  | last hi' =>
    rw [hi] at hi'
    cases hi'
    exact .inr (.inl rfl)
  | @step _ b _ rest hi' hb hrest =>
    rw [hi] at hi'
    cases hi'
    exact .inr (.inr ⟨b, rest, hb, hrest, rfl⟩)

/-! ### Runs through one node -/

/-- A run through a node stops inside it, or goes through all of it and on at an edge. The rest of
    the run is shorter, which carries the induction in `Reflects.path_of_run`. -/
theorem Leads.split {a : Nat} {i : Instruction} {is run : List Instruction} {es : List Nat}
    (h : Leads d g i is es) (hi : d.find? a = some i) (hrun : d.Run a run) :
    d.erased run <+: is ∨
      ∃ e b rest, e ∈ es ∧ g.byLinear[b]? = some e ∧ d.Run b rest ∧ rest.length < run.length ∧
        d.erased run = is ++ d.erased rest := by
  -- The induction is on what the node holds; the run goes along with it or stops.
  induction h generalizing a run with
  | @turn i es hf he =>
    rcases run_cases hrun hi with rfl | rfl | ⟨b, rest, hb, hrest, rfl⟩
    · exact .inl (List.nil_prefix ..)
    · left
      rw [erased_cons_of_not_followed hf]
      exact List.prefix_rfl
    · right
      obtain ⟨e, he', hbe⟩ := he.exists_id hb
      exact ⟨e, b, rest, he', hbe, hrest, Nat.lt_succ_self _, erased_cons_of_not_followed hf rest⟩
  | @jump i es hf he =>
    rcases run_cases hrun hi with rfl | rfl | ⟨b, rest, hb, hrest, rfl⟩
    · exact .inl (List.nil_prefix ..)
    · -- The jump is erased, so nothing is left of the run.
      left
      rw [erased_cons_of_followed hf]
      exact List.nil_prefix ..
    · right
      obtain ⟨e, he', hbe⟩ := he.exists_id hb
      exact ⟨e, b, rest, he', hbe, hrest, Nat.lt_succ_self _, erased_cons_of_followed hf rest⟩
  | @stop i id hf hs hid =>
    rcases run_cases hrun hi with rfl | rfl | ⟨b, rest, hb, -, -⟩
    · exact .inl (List.nil_prefix ..)
    · left
      rw [erased_cons_of_not_followed hf]
      exact List.prefix_rfl
    · -- Control ends here, so the run cannot have gone on.
      rw [hs] at hb
      exact absurd hb List.not_mem_nil
  | @next i next is es hf hs hn _ ih =>
    rcases run_cases hrun hi with rfl | rfl | ⟨b, rest, hb, hrest, rfl⟩
    · exact .inl (List.nil_prefix ..)
    · left
      rw [erased_cons_of_not_followed hf]
      exact List.prefix_cons_inj i |>.2 (List.nil_prefix ..)
    · -- Inside a node control goes to the next instruction only.
      rw [hs, List.mem_singleton] at hb
      subst hb
      rw [erased_cons_of_not_followed hf]
      rcases ih hn hrest with hpre | ⟨e, b, rest', he, hbe, hrest', hlt, heq⟩
      · exact .inl (List.prefix_cons_inj i |>.2 hpre)
      · exact .inr ⟨e, b, rest', he, hbe, hrest', Nat.lt_succ_of_lt hlt, by rw [heq]; rfl⟩

/-- All that a node holds is a run, and a run at one of its edges goes on from it. -/
theorem Leads.join {a : Nat} {i : Instruction} {is : List Instruction} {es : List Nat}
    (h : Leads d g i is es) (hi : d.find? a = some i) :
    (∃ run, d.Run a run ∧ d.erased run = is) ∧
      ∀ e ∈ es, g.stop = some e ∨ ∃ b, g.byLinear[b]? = some e ∧
        ∀ rest, d.Run b rest → ∃ run, d.Run a run ∧ d.erased run = is ++ d.erased rest := by
  induction h generalizing a with
  | @turn i es hf he =>
    refine ⟨⟨[i], .last hi, erased_cons_of_not_followed hf []⟩, fun e hmem => .inr ?_⟩
    obtain ⟨b, hb, hbe⟩ := he.exists_place hmem
    exact ⟨b, hbe, fun rest hrest =>
      ⟨i :: rest, .step hi hb hrest, erased_cons_of_not_followed hf rest⟩⟩
  | @jump i es hf he =>
    -- The empty run will do, as the jump would be erased anyway.
    refine ⟨⟨[], .nil a, rfl⟩, fun e hmem => .inr ?_⟩
    obtain ⟨b, hb, hbe⟩ := he.exists_place hmem
    exact ⟨b, hbe, fun rest hrest =>
      ⟨i :: rest, .step hi hb hrest, erased_cons_of_followed hf rest⟩⟩
  | @stop i id hf hs hid =>
    refine ⟨⟨[i], .last hi, erased_cons_of_not_followed hf []⟩, fun e hmem => .inl ?_⟩
    rw [List.mem_singleton.1 hmem]
    exact hid
  | @next i next is es hf hs hn _ ih =>
    -- Runs of the rest are put behind this instruction.
    obtain ⟨⟨run, hrun, hrest⟩, hedges⟩ := ih hn
    have hb : i.nextLinear ∈ d.successors i := by
      rw [hs]
      exact List.mem_cons_self
    refine ⟨⟨i :: run, .step hi hb hrun, by rw [erased_cons_of_not_followed hf, hrest]⟩,
      fun e hmem => ?_⟩
    refine (hedges e hmem).imp_right fun ⟨b, hbe, hjoin⟩ => ⟨b, hbe, fun rest hrest => ?_⟩
    obtain ⟨run', hrun', heq⟩ := hjoin rest hrest
    exact ⟨i :: run', .step hi hb hrun', by rw [erased_cons_of_not_followed hf, heq]; rfl⟩

/-! ### Runs and paths -/

/-- Every run from the place of a node is told by a path from that node, up to where it stops in the
    last node. The induction is on the length of the run, node by node. -/
theorem Reflects.path_of_run (h : Reflects d g) {run : List Instruction} {a id : Nat}
    (hrun : d.Run a run) (hid : g.byLinear[a]? = some id) :
    ∃ ids last pre, g.Path id (ids ++ [last]) ∧ pre <+: g.instructionsAt last ∧
      d.erased run = ids.flatMap g.instructionsAt ++ pre := by
  -- What is left of the run behind a node is shorter than the run.
  induction hlen : run.length using Nat.strongRecOn generalizing run a id with
  | ind len ih =>
    subst hlen
    obtain ⟨n, i, hn, hi, hleads⟩ := h.node hid
    rcases hleads.split hi hrun with hpre | ⟨e, b, rest, he, hbe, hrest, hlt, heq⟩
    · exact ⟨[], id, d.erased run, .last (size_of_node hn), instructionsAt_of_node hn ▸ hpre, rfl⟩
    · obtain ⟨ids, last, pre, hpath, hpre, hrest'⟩ := ih rest.length hlt hrest hbe rfl
      refine ⟨id :: ids, last, pre, .step (successors_of_node hn ▸ he) hpath, hpre, ?_⟩
      rw [heq, hrest', List.flatMap_cons, instructionsAt_of_node hn, List.append_assoc]

/-- Every path from a node tells a run from its place, put together from its last node to its
    first. -/
theorem Reflects.run_of_path (h : Reflects d g) {ids : List Nat} {a id : Nat}
    (hpath : g.Path id ids) (hid : g.byLinear[a]? = some id) :
    ∃ run, d.Run a run ∧ d.erased run = ids.flatMap g.instructionsAt := by
  induction hpath generalizing a with
  | @last id hlt =>
    obtain ⟨n, i, hn, hi, hleads⟩ := h.node hid
    obtain ⟨run, hrun, heq⟩ := (hleads.join hi).1
    refine ⟨run, hrun, ?_⟩
    rw [heq, List.flatMap_singleton, instructionsAt_of_node hn]
  | @step id next ids he hpath ih =>
    obtain ⟨n, i, hn, hi, hleads⟩ := h.node hid
    rw [successors_of_node hn] at he
    rw [List.flatMap_cons, instructionsAt_of_node hn]
    rcases (hleads.join hi).2 next he with hstop | ⟨b, hbe, hjoin⟩
    · -- The end holds nothing and leads nowhere, so the path stops there.
      obtain ⟨m, hm, his, hes⟩ := h.stop hstop
      have hnil : ids.flatMap g.instructionsAt = [] := by
        cases hpath with
        | last _ => rw [List.flatMap_singleton, instructionsAt_of_node hm, his]
        | step he' _ =>
          rw [successors_of_node hm, hes] at he'
          exact absurd he' List.not_mem_nil
      obtain ⟨run, hrun, heq⟩ := (hleads.join hi).1
      exact ⟨run, hrun, by rw [heq, hnil, List.append_nil]⟩
    · obtain ⟨rest, hrest, heq⟩ := ih hbe
      obtain ⟨run, hrun, heq'⟩ := hjoin rest hrest
      exact ⟨run, hrun, by rw [heq', heq]⟩

end FlowGraph

/-- **The graph refines the control flow of its function.** Every run from the entry, without
    the jumps that are followed, is told by a path from the start, whose last node may be cut
    short; and every path from the start tells such a run. -/
theorem graph_refines_runs {r : Routine} {d : Disassembly} {g : FlowGraph}
    (hd : r.disassemble = .ok d) (hg : FlowGraph.build d = some (.ok g)) :
    (∀ run, d.Run d.entry.linear run → ∃ ids last pre, g.Path 0 (ids ++ [last]) ∧
      pre <+: g.instructionsAt last ∧ d.erased run = ids.flatMap g.instructionsAt ++ pre) ∧
    ∀ ids, g.Path 0 ids →
      ∃ run, d.Run d.entry.linear run ∧ d.erased run = ids.flatMap g.instructionsAt := by
  obtain ⟨g₁, he, hreflects⟩ := FlowGraph.build_spec (wellFormed_of_disassemble hd) hg
  cases he
  -- The start holds nothing and leads to the node of the entry alone.
  obtain ⟨n, id, hn, his, hes, hid⟩ := hreflects.start
  have hstart : g.instructionsAt 0 = [] := by
    rw [FlowGraph.instructionsAt_of_node hn, his]
  have hedge : g.successors 0 = [id] := by
    rw [FlowGraph.successors_of_node hn, hes]
  refine ⟨fun run hrun => ?_, fun ids hpath => ?_⟩
  · obtain ⟨ids, last, pre, hpath, hpre, heq⟩ := hreflects.path_of_run hrun hid
    refine ⟨0 :: ids, last, pre, .step (hedge ▸ List.mem_cons_self) hpath, hpre, ?_⟩
    rw [heq, List.flatMap_cons, hstart, List.nil_append]
  · cases hpath with
    | last _ => exact ⟨[], .nil _, by rw [List.flatMap_singleton, hstart]; rfl⟩
    | step hnext hpath =>
      rw [hedge, List.mem_singleton] at hnext
      subst hnext
      obtain ⟨run, hrun, heq⟩ := hreflects.run_of_path hpath hid
      exact ⟨run, hrun, by rw [heq, List.flatMap_cons, hstart, List.nil_append]⟩

/-- The countdown has a loop and a jump that is followed, so its runs are as long as one likes and
    differ from what the paths tell. -/
theorem graph_refines_runs_countdown :
    ∃ d g, countdown.disassemble = .ok d ∧ FlowGraph.build d = some (.ok g) ∧
      (∀ run, d.Run d.entry.linear run → ∃ ids last pre, g.Path 0 (ids ++ [last]) ∧
        pre <+: g.instructionsAt last ∧ d.erased run = ids.flatMap g.instructionsAt ++ pre) ∧
      ∀ ids, g.Path 0 ids →
        ∃ run, d.Run d.entry.linear run ∧ d.erased run = ids.flatMap g.instructionsAt := by
  obtain ⟨d, g, hd, hg⟩ := exists_graph_countdown
  exact ⟨d, g, hd, hg, graph_refines_runs hd hg⟩

end RealMode
