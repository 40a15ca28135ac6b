import RealMode.Proofs.FlowGraph.LivePaths
import RealMode.Proofs.FlowGraph.Structure

namespace RealMode

/-!
# Liveness is reading before writing along some run

The fixpoint speaks of nodes and paths. Here it is brought down to single instructions and
runs, so that it no longer matters how code is cut into nodes.

* `Instruction.Reads`, `Instruction.Writes` — what one instruction does to a local;
* `ReadsFirst` — a list of instructions reads a local before writing it, and
  `mem_foldList_iff` — the use of a node says whether it does;
* `Disassembly.LiveFrom` — some run from a place reads a local before writing it;
* `mem_atEntry_iff_run` — a local is live at a node exactly if there is such a run from its
  place.
-/

/-! ### Reading and writing -/

namespace Instruction

/-- The instruction reads the local. -/
def Reads (i : Instruction) (l : Local) : Prop := ∃ s, i.required = .ok s ∧ l ∈ s

/-- The instruction writes the local. -/
def Writes (i : Instruction) (l : Local) : Prop := ∃ s, i.defined = .ok s ∧ l ∈ s

variable {i : Instruction} {u : Usage} {l : Local}

theorem reads_iff (hu : i.usage = .ok u) : i.Reads l ↔ l ∈ u.required := by
  have hreq : i.required = .ok u.required := by
    rw [required, hu]
    rfl
  rw [Reads, hreq]
  constructor
  · rintro ⟨s, hs, hl⟩
    cases hs
    exact hl
  · exact fun hl => ⟨_, rfl, hl⟩

theorem writes_iff (hu : i.usage = .ok u) : i.Writes l ↔ l ∈ u.defined := by
  have hdef : i.defined = .ok u.defined := by
    rw [defined, hu]
    rfl
  rw [Writes, hdef]
  constructor
  · rintro ⟨s, hs, hl⟩
    cases hs
    exact hl
  · exact fun hl => ⟨_, rfl, hl⟩

end Instruction

/-- The instructions, one after another, read the local before writing it. -/
def ReadsFirst (l : Local) : List Instruction → Prop
  | [] => False
  | i :: is => i.Reads l ∨ ¬ i.Writes l ∧ ReadsFirst l is

/-- Behind a use, a list of instructions adds what it reads first of what is not yet defined. The
    accumulator stays arbitrary for the induction. -/
theorem mem_foldlM_iff {is : List Instruction} {acc u : Usage} (l : Local)
    (h : is.foldlM (fun acc i => do return acc.andThen (← i.usage)) acc =
      (.ok u : Except UnsupportedOperand Usage)) :
    (l ∈ u.required ↔ l ∈ acc.required ∨ l ∉ acc.defined ∧ ReadsFirst l is) ∧
      (l ∈ u.defined ↔ l ∈ acc.defined ∨ ∃ i ∈ is, i.Writes l) := by
  induction is generalizing acc with
  | nil =>
    rw [List.foldlM_nil] at h
    cases h
    simp [ReadsFirst]
  | cons i is ih =>
    rw [List.foldlM_cons] at h
    cases hu : i.usage with
    | error e => simp [hu, bind, Except.bind] at h
    | ok v =>
      simp only [hu, bind, Except.bind, pure, Except.pure] at h
      obtain ⟨hreq, hdef⟩ := ih h
      rw [hreq, hdef]
      simp only [Usage.andThen, LocalSet.mem_union, LocalSet.mem_sdiff, ReadsFirst,
        Instruction.reads_iff hu, List.exists_mem_cons_iff, Instruction.writes_iff hu]
      refine ⟨?_, or_assoc⟩
      -- What is defined before hides every read that follows.
      by_cases hdefined : l ∈ acc.defined
      · simp [hdefined]
      · simp [hdefined, or_assoc]

/-- **The use of a node says what it reads first and what it writes.** -/
theorem mem_foldList_iff {is : List Instruction} {u : Usage} (l : Local)
    (h : Usage.foldList is = .ok u) :
    (l ∈ u.required ↔ ReadsFirst l is) ∧ (l ∈ u.defined ↔ ∃ i ∈ is, i.Writes l) := by
  have hboth := mem_foldlM_iff l h
  simpa only [LocalSet.not_mem_empty, false_or, not_false_iff, true_and] using hboth

/-! ### Live runs -/

/-- Some run from the place reads the local before writing it. -/
inductive Disassembly.LiveFrom (d : Disassembly) (l : Local) : Nat → Prop
  | read {a : Nat} {i : Instruction} (hi : d.find? a = some i) (hr : i.Reads l) : LiveFrom d l a
  | pass {a b : Nat} {i : Instruction} (hi : d.find? a = some i) (hw : ¬ i.Writes l)
      (hb : b ∈ d.successors i) (h : LiveFrom d l b) : LiveFrom d l a

/-- A run that goes on behind its first instruction goes on where that one leads. -/
theorem Disassembly.Run.tail {d : Disassembly} {a : Nat} {i : Instruction}
    {rest : List Instruction} (h : d.Run a (i :: rest)) (hne : rest ≠ []) :
    ∃ b, d.find? a = some i ∧ b ∈ d.successors i ∧ d.Run b rest := by
  cases h with
  | last _ => exact absurd rfl hne
  | step hi hb hrest => exact ⟨_, hi, hb, hrest⟩

/-- A local is live from a place if a run from there ends in reading it and does not write it
    before. -/
theorem Disassembly.liveFrom_iff {d : Disassembly} {l : Local} {a : Nat} :
    d.LiveFrom l a ↔
      ∃ is i, d.Run a (is ++ [i]) ∧ i.Reads l ∧ ∀ j ∈ is, ¬ j.Writes l := by
  constructor
  · intro h
    induction h with
    | @read a i hi hr => exact ⟨[], i, .last hi, hr, fun j hj => absurd hj List.not_mem_nil⟩
    | @pass a b i hi hw hb _ ih =>
      obtain ⟨is, i', hrun, hr, hno⟩ := ih
      refine ⟨i :: is, i', .step hi hb hrun, hr, ?_⟩
      intro j hj
      rcases List.mem_cons.1 hj with rfl | hj
      · exact hw
      · exact hno j hj
  · rintro ⟨is, i, hrun, hr, hno⟩
    -- The run is taken apart at its front, one instruction that does not write at a time.
    induction is generalizing a with
    | nil =>
      cases hrun with
      | last hi => exact .read hi hr
      | step hi _ _ => exact .read hi hr
    | cons j is ih =>
      have hj := hno j List.mem_cons_self
      have hrest := fun k hk => hno k (List.mem_cons_of_mem _ hk)
      obtain ⟨b, hi, hb, hrun⟩ :=
        hrun.tail (List.append_ne_nil_of_right_ne_nil _ (List.cons_ne_nil _ _))
      exact .pass hi hj hb (ih hrun hrest)

/-! ### Nodes and runs -/

namespace FlowGraph

variable {d : Disassembly} {g g' : FlowGraph} {l : Local}

/-- A jump that is followed reads and writes nothing, so that no node holds it makes no difference
    to what is live. -/
theorem silent_of_followed (hd : d.WellFormed) {a : Nat} {i : Instruction}
    (hi : d.find? a = some i) (hf : d.isFollowed i = true) : ¬ i.Reads l ∧ ¬ i.Writes l := by
  have hu := hd.usage_followed hi hf
  rw [Instruction.reads_iff hu, Instruction.writes_iff hu]
  exact ⟨LocalSet.not_mem_empty l, LocalSet.not_mem_empty l⟩

/-- What a node reads first is live from its place, along the run through the node. -/
theorem Leads.liveFrom_of_readsFirst {a : Nat} {i : Instruction} {is : List Instruction}
    {es : List Nat} (h : Leads d g i is es) (hi : d.find? a = some i) (hr : ReadsFirst l is) :
    d.LiveFrom l a := by
  induction h generalizing a with
  | turn _ _ => exact .read hi (hr.resolve_right fun hno => hno.2)
  -- A jump that is followed is in no node, so it is not what reads.
  | jump _ _ => exact hr.elim
  | stop _ _ _ => exact .read hi (hr.resolve_right fun hno => hno.2)
  | next _ hs hn _ ih =>
    rcases hr with hr | ⟨hw, hr⟩
    · exact .read hi hr
    · exact .pass hi hw (hs ▸ List.mem_cons_self) (ih hn hr)

/-- What is live behind a node that does not write it is live from its place. The end has no place,
    and nothing is live there. -/
theorem Leads.liveFrom_of_edge (hd : d.WellFormed) {a e : Nat} {i : Instruction}
    {is : List Instruction} {es : List Nat} (h : Leads d g i is es) (hi : d.find? a = some i)
    (hw : ∀ j ∈ is, ¬ j.Writes l) (he : e ∈ es) :
    g.stop = some e ∨ ∃ b, g.byLinear[b]? = some e ∧ (d.LiveFrom l b → d.LiveFrom l a) := by
  induction h generalizing a with
  | turn _ hnames =>
    obtain ⟨b, hb, hbe⟩ := hnames.exists_place he
    exact .inr ⟨b, hbe, .pass hi (hw _ List.mem_cons_self) hb⟩
  | jump hf hnames =>
    obtain ⟨b, hb, hbe⟩ := hnames.exists_place he
    exact .inr ⟨b, hbe, .pass hi (silent_of_followed hd hi hf).2 hb⟩
  | stop _ _ hid =>
    rw [List.mem_singleton.1 he]
    exact .inl hid
  | next _ hs hn _ ih =>
    refine (ih hn (fun j hj => hw j (List.mem_cons_of_mem _ hj)) he).imp_right ?_
    rintro ⟨b, hbe, hlive⟩
    exact ⟨b, hbe, fun h => .pass hi (hw _ List.mem_cons_self) (hs ▸ List.mem_cons_self) (hlive h)⟩

/-- The node at a place, with its use told by the instructions that it holds. -/
theorem Reflects.annotated (h : Reflects d g) (ha : Annotates g g') {a id : Nat}
    (hid : g.byLinear[a]? = some id) :
    ∃ n i, g'.nodes[id]? = some n ∧ d.find? a = some i ∧ Leads d g i n.instructions n.edges ∧
      (l ∈ n.usage.required ↔ ReadsFirst l n.instructions) ∧
      (l ∈ n.usage.defined ↔ ∃ j ∈ n.instructions, j.Writes l) := by
  obtain ⟨n, i, hn, hi, hleads⟩ := h.node hid
  obtain ⟨u, hu, hn'⟩ := ha.node hn
  obtain ⟨hreq, hdef⟩ := mem_foldList_iff l hu
  exact ⟨_, i, hn', hi, hleads, hreq, hdef⟩

/-- Nothing is live at the end, which reads nothing and leads nowhere. -/
theorem Reflects.not_live_stop (h : Reflects d g) (ha : Annotates g g') {id : Nat}
    (hs : g.stop = some id) : ¬ g'.Live l id := by
  obtain ⟨n, hn, his, hes⟩ := h.stop hs
  obtain ⟨u, hu, hn'⟩ := ha.node hn
  rw [his] at hu
  cases hu
  intro hlive
  cases hlive with
  | read hm hr =>
    rw [hn'] at hm
    cases hm
    exact LocalSet.not_mem_empty l hr
  | pass hm _ he _ =>
    rw [hn'] at hm
    cases hm
    rw [hes] at he
    exact absurd he List.not_mem_nil

/-- What some path reads first, some run does, node after node along the path. -/
theorem Reflects.liveFrom_of_live (h : Reflects d g) (hd : d.WellFormed) (ha : Annotates g g')
    {a id : Nat} (hlive : g'.Live l id) (hid : g.byLinear[a]? = some id) : d.LiveFrom l a := by
  induction hlive generalizing a with
  | read hm hr =>
    obtain ⟨n, i, hn, hi, hleads, hreq, -⟩ := h.annotated (l := l) ha hid
    rw [hn] at hm
    cases hm
    exact hleads.liveFrom_of_readsFirst hi (hreq.1 hr)
  | @pass id e m hm hw he hnext ih =>
    obtain ⟨n, i, hn, hi, hleads, -, hdef⟩ := h.annotated (l := l) ha hid
    rw [hn] at hm
    cases hm
    have hno : ∀ j ∈ m.instructions, ¬ j.Writes l := fun j hj hwj => hw (hdef.2 ⟨j, hj, hwj⟩)
    rcases hleads.liveFrom_of_edge hd hi hno he with hstop | ⟨b, hbe, hback⟩
    · exact absurd hnext (h.not_live_stop ha hstop)
    · exact hback (ih hbe)

/-- What a run reads first, a node or some path behind it does. The induction is on the run, which
    may be anywhere inside the node, so the node is given by what is left of it. -/
theorem Reflects.live_of_liveFrom (h : Reflects d g) (hd : d.WellFormed) (ha : Annotates g g')
    {a : Nat} (hlive : d.LiveFrom l a) {i : Instruction} {is : List Instruction} {es : List Nat}
    (hi : d.find? a = some i) (hleads : Leads d g i is es) :
    ReadsFirst l is ∨ (∀ j ∈ is, ¬ j.Writes l) ∧ ∃ e ∈ es, g'.Live l e := by
  induction hlive generalizing i is es with
  | read hi' hr =>
    rw [hi] at hi'
    cases hi'
    cases hleads with
    | turn _ _ => exact .inl (.inl hr)
    | jump hf _ => exact absurd hr (silent_of_followed hd hi hf).1
    | stop _ _ _ => exact .inl (.inl hr)
    | next _ _ _ _ => exact .inl (.inl hr)
  | @pass a b first hi' hw hb _ ih =>
    rw [hi] at hi'
    cases hi'
    -- Where control goes on at another node, the local is live there.
    have hedge (hnames : g.Names (d.successors first) es) : ∃ e ∈ es, g'.Live l e := by
      obtain ⟨e, he, hbe⟩ := hnames.exists_id hb
      obtain ⟨n, k, hn, hk, hleads', hreq, hdef⟩ := h.annotated (l := l) ha hbe
      refine ⟨e, he, ?_⟩
      rcases ih hk hleads' with hfirst | ⟨hno, e', he', hlive'⟩
      · exact .read hn (hreq.2 hfirst)
      · refine .pass hn (fun hdefined => ?_) he' hlive'
        obtain ⟨j, hj, hwj⟩ := hdef.1 hdefined
        exact hno j hj hwj
    cases hleads with
    | turn _ hnames =>
      refine .inr ⟨fun j hj => ?_, hedge hnames⟩
      rw [List.mem_singleton.1 hj]
      exact hw
    | jump _ hnames => exact .inr ⟨fun j hj => absurd hj List.not_mem_nil, hedge hnames⟩
    | stop _ hs _ =>
      rw [hs] at hb
      exact absurd hb List.not_mem_nil
    | next _ hs hn hrest =>
      rw [hs, List.mem_singleton] at hb
      subst hb
      rcases ih hn hrest with hfirst | ⟨hno, hlive⟩
      · exact .inl (.inr ⟨hw, hfirst⟩)
      · refine .inr ⟨fun j hj => ?_, hlive⟩
        rcases List.mem_cons.1 hj with rfl | hj
        · exact hw
        · exact hno j hj

/-- **Paths and runs agree on what is live** at the place of a node. -/
theorem Reflects.live_iff (h : Reflects d g) (hd : d.WellFormed) (ha : Annotates g g')
    {a id : Nat} (hid : g.byLinear[a]? = some id) : g'.Live l id ↔ d.LiveFrom l a := by
  refine ⟨fun hlive => h.liveFrom_of_live hd ha hlive hid, fun hlive => ?_⟩
  obtain ⟨n, i, hn, hi, hleads, hreq, hdef⟩ := h.annotated (l := l) ha hid
  rcases h.live_of_liveFrom hd ha hlive hi hleads with hfirst | ⟨hno, e, he, hnext⟩
  · exact .read hn (hreq.2 hfirst)
  · refine .pass hn (fun hdefined => ?_) he hnext
    obtain ⟨j, hj, hwj⟩ := hdef.1 hdefined
    exact hno j hj hwj

/-- The start stands for the entry: it holds nothing and leads there. -/
theorem Reflects.live_start_iff (h : Reflects d g) (hd : d.WellFormed) (ha : Annotates g g') :
    g'.Live l 0 ↔ d.LiveFrom l d.entry.linear := by
  obtain ⟨n, id, hn, his, hes, hid⟩ := h.start
  obtain ⟨u, hu, hn'⟩ := ha.node hn
  rw [his] at hu
  cases hu
  rw [← h.live_iff hd ha hid]
  constructor
  · intro hlive
    cases hlive with
    | read hm hr =>
      rw [hn'] at hm
      cases hm
      exact absurd hr (LocalSet.not_mem_empty l)
    | pass hm _ he hnext =>
      rw [hn'] at hm
      cases hm
      rw [hes, List.mem_singleton] at he
      exact he ▸ hnext
  · intro hlive
    exact .pass hn' (LocalSet.not_mem_empty l) (hes ▸ List.mem_cons_self) hlive

end FlowGraph

/-- The place that control is at in front of a node: the start stands at the entry, and the
    end is behind all instructions. -/
def Disassembly.placeOf? (d : Disassembly) (n : Node) : Option Nat :=
  match n.kind with
  | .start => some d.entry.linear
  | .stop => none
  | _ => some n.linear

/-- **Liveness is exact on runs.** A local is live at a node exactly if some run from the place
    of the node ends in an instruction that reads it, and none before that one writes it. -/
theorem mem_atEntry_iff_run {r : Routine} {d : Disassembly} {g g' : FlowGraph}
    (hd : r.disassemble = .ok d) (hg : FlowGraph.build d = some (.ok g))
    (ha : g.annotate = .ok g') {id : Nat} {n : Node} (hn : g'.nodes[id]? = some n) (l : Local) :
    l ∈ (Liveness.compute g').atEntry id ↔
      ∃ a, d.placeOf? n = some a ∧
        ∃ is i, d.Run a (is ++ [i]) ∧ i.Reads l ∧ ∀ j ∈ is, ¬ j.Writes l := by
  have hwell := wellFormed_of_disassemble hd
  obtain ⟨g₁, he, hreflects⟩ := FlowGraph.build_spec hwell hg
  cases he
  have hannotates := FlowGraph.annotates_of_annotate ha
  obtain ⟨m, hm, hkind, hlinear⟩ := hannotates.exists_node hn
  rw [Liveness.mem_atEntry_iff]
  simp only [← Disassembly.liveFrom_iff]
  -- Only the end has no place, and nothing is live there.
  rcases hreflects.known hm with ⟨rfl, hk⟩ | ⟨hs, hk⟩ | ⟨hid, hstart, hstop⟩
  · have hplace : d.placeOf? n = some d.entry.linear := by
      rw [Disassembly.placeOf?, hkind, hk]
    rw [hplace, hreflects.live_start_iff hwell hannotates]
    simp
  · have hplace : d.placeOf? n = none := by
      rw [Disassembly.placeOf?, hkind, hk]
    have hdead := hreflects.not_live_stop (l := l) hannotates hs
    simp [hplace, hdead]
  · have hplace : d.placeOf? n = some m.linear := by
      rw [← hkind] at hstart hstop
      rw [← hlinear]
      unfold Disassembly.placeOf?
      split
      · contradiction
      · contradiction
      · rfl
    rw [hplace, hreflects.live_iff hwell hannotates hid]
    simp

/-- At the node of the entry, which holds the first instruction of the countdown. -/
theorem mem_atEntry_iff_run_countdown :
    ∃ d g g' id n, countdown.disassemble = .ok d ∧ FlowGraph.build d = some (.ok g) ∧
      g.annotate = .ok g' ∧ g'.byLinear[countdown.entry.linear]? = some id ∧
      g'.nodes[id]? = some n ∧ n.kind ≠ .start ∧ n.linear = countdown.entry.linear ∧
      ∀ l, l ∈ (Liveness.compute g').atEntry id ↔
        ∃ a, d.placeOf? n = some a ∧
          ∃ is i, d.Run a (is ++ [i]) ∧ i.Reads l ∧ ∀ j ∈ is, ¬ j.Writes l := by
  obtain ⟨d, g, hd, hg⟩ := exists_graph_countdown
  obtain ⟨g', ha⟩ := FlowGraph.annotate_of_build hd hg
  have hentry : d.entry = countdown.entry := (Routine.entry_of_disassemble hd).1
  have horder := (FlowGraph.raised_of_build hg).inOrder
  have hannotates := FlowGraph.annotates_of_annotate ha
  obtain ⟨-, id, -, -, -, hid⟩ := horder.start
  rw [hentry] at hid
  obtain ⟨m, hm, hlinear, hstart, -⟩ := horder.named.1 hid
  obtain ⟨u, -, hn⟩ := hannotates.node hm
  exact ⟨d, g, g', id, _, hd, hg, ha, hannotates.byLinear ▸ hid, hn, hstart, hlinear,
    mem_atEntry_iff_run hd hg ha hn⟩

end RealMode
