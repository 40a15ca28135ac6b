import Mathlib.Data.List.Nodup
import RealMode.Proofs.FlowGraph.Annotation
import RealMode.Proofs.FlowGraph.Blocks
import RealMode.Proofs.Lists

namespace RealMode

/-!
# The nodes of a graph partition its function

* `FlowGraph.Joined` — two instructions one behind the other in a node, with no place between
  them where a node may begin;
* `FlowGraph.Laid` — what is true while nodes are filled, `FlowGraph.laid_of_filledTo` — that
  it is, by filling node after node;
* `Disassembly.MeetsOnce` — control falls through to each place from one instruction at most,
  as in all programs below the end of the first segment (`meetsOnce_of_top_le`);
* `FlowGraph.position_unique` — so each instruction has one place in the graph;
* `nodes_partition` — each instruction that is no jump to be followed is in one node, once.
-/

namespace FlowGraph

variable {d : Disassembly} {g g' : FlowGraph}

/-- The instructions of all nodes, node after node. -/
def contents (g : FlowGraph) : List Instruction := g.nodes.toList.flatMap Node.instructions

/-- Control falls through from `i` to `next`, and no node has to begin between them. -/
structure Joined (d : Disassembly) (i next : Instruction) : Prop where
  kind : NodeKind.ofInstruction i = .block
  falls : d.fallsThrough i = true
  found : d.find? i.nextLinear = some next
  label : d.isLabel next.linear = false
  entry : next.linear ≠ d.entry.linear
  nextKind : NodeKind.ofInstruction next = .block

/-! ### Node after node -/

/-- What is true of the graph when the nodes at positions up to `k` are filled. -/
structure Laid (d : Disassembly) (g : FlowGraph) (k : Nat) : Prop where
  built : Built d g k
  named : ∀ {a : Nat}, g.byLinear.contains a = true → Begins d a
  joined : ∀ id ≤ k, (g.instructionsAt id).IsChain (Joined d)
  /-- A block ends where another node begins, or with a jump that is followed. -/
  stops : ∀ id ≤ k, ∀ i ∈ (g.instructionsAt id).getLast?, NodeKind.ofInstruction i = .block →
    d.fallsThrough i = true → ∀ next, d.find? i.nextLinear = some next →
      d.isFollowed next = true ∨ Begins d next.linear
  unresolved : g.unresolved.toList =
    (((List.range (k + 1)).flatMap g.instructionsAt).filter (·.mnemonic.isJump)).map
      Instruction.linear

/-- The entry has had its node from the start, so no block goes on across it. -/
theorem joined_of_inside {k : Nat} (hb : Built d g k) {i next : Instruction}
    (h : Inside d g i next) : Joined d i next := by
  obtain ⟨hkind, honward⟩ := h
  obtain ⟨hjump, hstop⟩ := onward?_cases honward
  obtain ⟨hfind, hstarts⟩ := onward?_eq_some honward
  simp only [startsNode, Bool.or_eq_false_iff, bne_eq_false_iff_eq] at hstop hstarts
  obtain ⟨-, id, -, -, -, hid⟩ := hb.start
  refine ⟨hkind, ?_, hfind, hstarts.1.1, ?_, hstarts.2⟩
  · exact Disassembly.fallsThrough_iff.2
      ⟨hjump, hstop.1, (ofInstruction_eq_block hkind).2, hstop.2⟩
  · intro hentry
    have hnamed := (AddressMap.contains_iff_exists _ _).2 ⟨id, hid⟩
    rw [← hentry, hstarts.1.2] at hnamed
    cases hnamed

/-- Where a block stops though control falls through, another node begins: it stopped at a label, at
    a branch or switch, or at a node made before. -/
theorem begins_of_stop (hnamed : ∀ {a : Nat}, g.byLinear.contains a = true → Begins d a)
    {i next : Instruction} (hfalls : d.fallsThrough i = true)
    (hnext : d.find? i.nextLinear = some next) (hstop : onward? d g i ≠ some next) :
    Begins d next.linear := by
  obtain ⟨hjump, hret, -, hexit⟩ := Disassembly.fallsThrough_iff.1 hfalls
  have hstarts : startsNode d g next = true := by
    by_contra hgo
    rw [Bool.not_eq_true] at hgo
    exact hstop (by simp [onward?, hjump, hret, hexit, hnext, Option.filter, hgo])
  simp only [startsNode, Bool.or_eq_true, bne_iff_ne] at hstarts
  rcases hstarts with (hlabel | hname) | hkind
  · exact .label hlabel
  · exact hnamed hname
  · exact .turn (Disassembly.find?_linear hnext) hkind

/-- Nodes that were filled before hold what they held. -/
theorem Fills.instructionsAt {k id : Nat} (h : Fills d g (k + 1) g') (hid : id ≤ k) :
    g'.instructionsAt id = g.instructionsAt id := by
  cases hn : g.nodes[id]? with
  | some n => rw [instructionsAt_of_node hn, instructionsAt_of_node (h.node (by omega) hn)]
  | none =>
    -- Positions are in use from the front, so there was nothing to fill.
    have hsize := Array.getElem?_eq_none_iff.1 hn
    rw [h.idle (Array.getElem?_eq_none (by omega))]

/-- At first no node holds an instruction, and the only place with a node is the entry. -/
theorem laid_started (hd : d.WellFormed) (h : started d = .ok g) : Laid d g 0 := by
  obtain ⟨g₁, hstarted, hbuilt⟩ := built_started hd
  rw [h] at hstarted
  cases hstarted
  obtain ⟨head, hhead⟩ := hd.entry
  rw [started_eq hhead] at h
  cases h
  refine ⟨hbuilt, fun ha => ?_, fun id hid => ?_, fun id hid i hi => ?_, rfl⟩
  · rw [AddressMap.contains_insert, Std.ExtTreeMap.contains_empty] at ha
    exact .entry (ha.resolve_left Bool.false_ne_true)
  · obtain rfl := Nat.le_zero.1 hid
    exact .nil
  · obtain rfl := Nat.le_zero.1 hid
    cases hi

/-- **Filling the next node keeps what is laid.** What `fill_lays` says of one node is added to what
    is true of those before it. -/
theorem Laid.step (hd : d.WellFormed) (hlab : Labelled d) {k : Nat} (h : Laid d g k)
    (hfill : fill d g (k + 1) = some (.ok g')) : Laid d g' (k + 1) := by
  obtain ⟨g₁, hg₁, hfills⟩ := fill_spec hd h.built.indexed hfill
  cases hg₁
  have hlays := fill_lays hd hlab h.built.indexed (Nat.succ_ne_zero k) hfill
  refine ⟨h.built.step hfills, fun ha => (hlays.named ha).elim h.named fun ha => ha,
    ?_, ?_, ?_⟩
  · -- Nodes that were filled before are as they were, and the new one is what was laid.
    intro id hid
    rcases Nat.le_or_eq_of_le_succ hid with hle | rfl
    · rw [hfills.instructionsAt hle]
      exact h.joined id hle
    · exact hlays.chain.imp fun _ _ => joined_of_inside h.built
  · intro id hid i hi hkind hfalls next hnext
    rcases Nat.le_or_eq_of_le_succ hid with hle | rfl
    · rw [hfills.instructionsAt hle] at hi
      exact h.stops id hle i hi hkind hfalls next hnext
    · -- If the walk of the block would go on, it was cut in front of a jump that is followed.
      by_cases hgo : onward? d g i = some next
      · exact .inl (hlays.last i hi hkind next hgo)
      · exact .inr (begins_of_stop h.named hfalls hnext hgo)
  · -- The records come in the order of the nodes.
    have hkept : (List.range (k + 1)).flatMap g'.instructionsAt =
        (List.range (k + 1)).flatMap g.instructionsAt := by
      apply List.flatMap_congr
      intro id hid
      exact hfills.instructionsAt (Nat.le_of_lt_succ (List.mem_range.1 hid))
    rw [hlays.unresolved, h.unresolved, List.range_succ (n := k + 1), List.flatMap_append, hkept]
    simp

/-- So it is when any number of nodes are filled, by induction on how many. -/
theorem laid_of_filledTo (hd : d.WellFormed) (hlab : Labelled d) {k : Nat}
    (h : filledTo d k = some (.ok g)) : Laid d g k := by
  induction k generalizing g with
  | zero =>
    rw [filledTo_zero] at h
    exact laid_started hd (Option.some.inj h)
  | succ k ih =>
    rw [filledTo_succ] at h
    cases hprev : filledTo d k with
    | none =>
      rw [hprev] at h
      cases h
    | some prev =>
      obtain ⟨g₀, rfl, -⟩ := filledTo_spec hd k hprev
      rw [hprev] at h
      exact (ih hprev).step hd hlab h

/-- A graph that is built is one with all nodes filled. -/
theorem filledTo_of_build (h : build d = some (.ok g)) :
    filledTo d (d.size + 1) = some (.ok g) := by
  unfold build at h
  rw [buildNodes_eq] at h
  cases hnodes : filledTo d (d.size + 1) with
  | none =>
    rw [hnodes] at h
    cases h
  | some res =>
    rw [hnodes] at h
    cases res with
    | error e => cases h
    | ok g₁ =>
      cases h
      rfl

/-! ### The whole graph -/

/-- The contents of a graph, position by position. Positions without a node add nothing, so any
    bound above the number of nodes will do. -/
theorem contents_eq {n : Nat} (h : g.nodes.size ≤ n) :
    g.contents = (List.range n).flatMap g.instructionsAt := by
  rw [contents, ← flatMap_range g.nodes.toList Node.instructions (by simpa using h)]
  apply List.flatMap_congr
  intro k _
  rw [Array.getElem?_toList, instructionsAt]
  cases g.nodes[k]? <;> rfl

/-- What a node holds begins with the instruction that leads through it, if it holds anything. -/
theorem Leads.head? {i j : Instruction} {is : List Instruction} {es : List Nat}
    (h : Leads d g i is es) (hj : is[0]? = some j) : j = i := by
  cases h with
  | turn hf he => simpa [eq_comm] using hj
  | jump hf he => simp at hj
  | stop hf hs hid => simpa [eq_comm] using hj
  | next hf hs hn h => simpa [eq_comm] using hj

/-- Nothing that a node holds is a jump that is followed. -/
theorem Leads.not_followed {i : Instruction} {is : List Instruction} {es : List Nat}
    (h : Leads d g i is es) : ∀ j ∈ is, d.isFollowed j = false := by
  induction h with
  | turn hf he => simpa using hf
  | jump hf he => simp
  | stop hf hs hid => simpa using hf
  | next hf hs hn h ih => simpa using ⟨hf, ih⟩

/-- A node that holds something is named by what it begins with. -/
theorem Reflects.leads (h : Reflects d g) {id : Nat} (hne : g.instructionsAt id ≠ []) :
    ∃ i es, g.byLinear[i.linear]? = some id ∧ d.find? i.linear = some i ∧
      Leads d g i (g.instructionsAt id) es := by
  cases hn : g.nodes[id]? with
  | none => exact absurd (by rw [instructionsAt, hn]) hne
  | some n =>
    rw [instructionsAt_of_node hn] at hne ⊢
    rcases h.known hn with ⟨rfl, -⟩ | ⟨hstop, -⟩ | ⟨hname, -⟩
    · obtain ⟨m, -, hm, hnil, -⟩ := h.start
      rw [hn] at hm
      cases hm
      exact absurd hnil hne
    · obtain ⟨m, hm, hnil, -⟩ := h.stop hstop
      rw [hn] at hm
      cases hm
      exact absurd hnil hne
    · obtain ⟨m, i, hm, hi, hleads⟩ := h.node hname
      rw [hn] at hm
      cases hm
      have hlinear := Disassembly.linear_of_find? hi
      exact ⟨i, n.edges, hlinear ▸ hname, Disassembly.find?_linear hi, hleads⟩

/-- What a node holds is an instruction of the disassembly, and no jump that is followed. -/
theorem Reflects.holds (h : Reflects d g) {id : Nat} {i : Instruction}
    (hi : i ∈ g.instructionsAt id) : d.find? i.linear = some i ∧ d.isFollowed i = false := by
  obtain ⟨head, es, -, hhead, hleads⟩ := h.leads (List.ne_nil_of_mem hi)
  exact ⟨hleads.find? hhead i hi, hleads.not_followed i hi⟩

/-! ### Each instruction has one place -/

/-- An instruction behind another one in a node is joined to it. -/
theorem Laid.joined_of_getElem? {k : Nat} (h : Laid d g k) {id p : Nat} {i : Instruction}
    (hid : id ≤ k) (hi : (g.instructionsAt id)[p + 1]? = some i) :
    ∃ j, (g.instructionsAt id)[p]? = some j ∧ Joined d j i := by
  obtain ⟨hlt, rfl⟩ := List.getElem?_eq_some_iff.1 hi
  exact ⟨_, List.getElem?_eq_getElem (by omega),
    List.isChain_iff_getElem.1 (h.joined id hid) p hlt⟩

end FlowGraph

/-- Control falls through to each place from one instruction at most. -/
def Disassembly.MeetsOnce (d : Disassembly) : Prop :=
  ∀ ⦃k l : Nat⦄ ⦃i j : Instruction⦄, d.find? k = some i → d.find? l = some j →
    d.fallsThrough i = true → d.fallsThrough j = true → i.nextLinear = j.nextLinear → i = j

/-- Below the end of the first segment, the place behind an instruction is where its bytes end,
    and no two end at the same place. -/
theorem meetsOnce_of_top_le {r : Routine} {d : Disassembly} (hd : r.disassemble = .ok d)
    (hbase : 0 < r.image.base) (htop : r.image.top ≤ segmentSize) : d.MeetsOnce := by
  have hwf := wellFormed_of_disassemble hd
  obtain ⟨w, hw⟩ := Routine.finished_of_disassemble hd
  -- Where control falls through to is in the image, so not at the bottom of a segment.
  have hends {k : Nat} {i : Instruction} (hi : d.find? k = some i)
      (hfalls : d.fallsThrough i = true) :
      ¬ i.ReachesSegmentEnd ∧ i.nextLinear = k + i.length.toNat ∧ 0 < i.length.toNat := by
    obtain ⟨hjump, hret, hswitch, hexit⟩ := Disassembly.fallsThrough_iff.1 hfalls
    obtain ⟨next, hnext⟩ := hw.fall hi hjump hret hswitch hexit
    have hbounds := (hw.provides hi).bounds
    have hlow := (hw.provides hnext).bounds.2.1
    rw [Disassembly.linear_of_find? hnext] at hlow
    have hreach : ¬ i.ReachesSegmentEnd := by
      intro hreach
      have hwrap := Instruction.nextLinear_of_reachesSegmentEnd hreach
      omega
    refine ⟨hreach, ?_, hbounds.1⟩
    rw [Instruction.nextLinear_of_inside hreach, Disassembly.linear_of_find? hi]
  intro k l i j hi hj hfi hfj hsame
  obtain ⟨hinside, hend, hpos⟩ := hends hi hfi
  obtain ⟨hinside', hend', hpos'⟩ := hends hj hfj
  rcases Nat.lt_trichotomy k l with hlt | rfl | hgt
  · have hapart := (Routine.apart_of_disassemble hd hi hj hlt).resolve_right hinside
    omega
  · rw [hi] at hj
    exact Option.some.inj hj
  · have hapart := (Routine.apart_of_disassemble hd hj hi hgt).resolve_right hinside'
    omega

namespace FlowGraph

variable {d : Disassembly} {g g' : FlowGraph}

/-- No node begins between two instructions that are joined: the second is not the entry, no label
    and no turn, and no branch falls through to it. -/
theorem not_begins_of_joined (hd : d.WellFormed) (hmeet : d.MeetsOnce) {k : Nat}
    {i next : Instruction} (hi : d.find? k = some i) (h : Joined d i next) :
    ¬ Begins d next.linear := by
  have hlinear := Disassembly.linear_of_find? h.found
  intro hbegins
  cases hbegins with
  | entry he => exact h.entry he
  | label hl =>
    rw [h.label] at hl
    cases hl
  | turn hj hk =>
    rw [hlinear, h.found] at hj
    cases hj
    exact hk h.nextKind
  | @fall k' j hj hb hnext =>
    -- Control would fall through from a branch as well.
    have hfalls : d.fallsThrough j = true := Disassembly.fallsThrough_iff.2
      ⟨Mnemonic.isJump_of_isConditionalBranch hb, Mnemonic.isReturn_of_isConditionalBranch hb,
        Mnemonic.ne_switch_of_isConditionalBranch hb, hd.not_isExit hj (.inr (.inl hb))⟩
    obtain rfl := hmeet hi hj h.falls hfalls (by rw [hnext, hlinear])
    rw [(ofInstruction_eq_block h.kind).1] at hb
    cases hb

/-- What is not first in a node begins none, whichever node was made first. -/
theorem Laid.not_named (hd : d.WellFormed) (hmeet : d.MeetsOnce) {k : Nat} (h : Laid d g k)
    (hr : Reflects d g) {id p : Nat} {i : Instruction} (hid : id ≤ k)
    (hi : (g.instructionsAt id)[p + 1]? = some i) : g.byLinear.contains i.linear = false := by
  obtain ⟨j, hj, hjoined⟩ := h.joined_of_getElem? hid hi
  rw [Bool.eq_false_iff]
  intro hnamed
  exact not_begins_of_joined hd hmeet (hr.holds (List.mem_of_getElem? hj)).1 hjoined
    (h.named hnamed)

/-- **Each instruction has one place in the graph.** Two places are taken back to the front of their
    nodes, one instruction at a time: control falls through to each from one instruction only, and
    the first of a node names it. -/
theorem position_unique (hd : d.WellFormed) (hmeet : d.MeetsOnce) {k : Nat} (h : Laid d g k)
    (hr : Reflects d g) {a b p q : Nat} {i : Instruction} (ha : a ≤ k) (hb : b ≤ k)
    (hp : (g.instructionsAt a)[p]? = some i) (hq : (g.instructionsAt b)[q]? = some i) :
    a = b ∧ p = q := by
  have hfirst {id : Nat} {i : Instruction} (hi : (g.instructionsAt id)[0]? = some i) :
      g.byLinear[i.linear]? = some id := by
    obtain ⟨head, es, hname, -, hleads⟩ :=
      hr.leads (List.ne_nil_of_mem (List.mem_of_getElem? hi))
    rwa [hleads.head? hi]
  have hlater {id p : Nat} {i : Instruction} (hid : id ≤ k)
      (hi : (g.instructionsAt id)[p + 1]? = some i) : g.byLinear[i.linear]? = none := by
    have hunnamed := h.not_named hd hmeet hr hid hi
    rwa [Bool.eq_false_iff, Ne, AddressMap.contains_iff_exists, ← Option.isSome_iff_exists,
      Option.not_isSome_iff_eq_none] at hunnamed
  -- The induction goes back to the front of the node, one instruction at a time.
  induction p generalizing q i with
  | zero =>
    cases q with
    | zero =>
      have hsame := (hfirst hp).symm.trans (hfirst hq)
      exact ⟨Option.some.inj hsame, rfl⟩
    | succ q =>
      have hname := hfirst hp
      rw [hlater hb hq] at hname
      cases hname
  | succ p ih =>
    cases q with
    | zero =>
      have hname := hfirst hq
      rw [hlater ha hp] at hname
      cases hname
    | succ q =>
      obtain ⟨j, hj, hjoined⟩ := h.joined_of_getElem? ha hp
      obtain ⟨j', hj', hjoined'⟩ := h.joined_of_getElem? hb hq
      have hmeets : j.nextLinear = j'.nextLinear := by
        rw [← Disassembly.linear_of_find? hjoined.found,
          Disassembly.linear_of_find? hjoined'.found]
      obtain rfl := hmeet (hr.holds (List.mem_of_getElem? hj)).1
        (hr.holds (List.mem_of_getElem? hj')).1 hjoined.falls hjoined'.falls hmeets
      exact (ih hj hj').imp_right (congrArg (· + 1))

/-! ### The partition -/

/-- The nodes of a graph partition the instructions of a disassembly. -/
structure Partitions (d : Disassembly) (g : FlowGraph) : Prop where
  /-- Each instruction but the jumps that are followed is in one node, and there once. -/
  each : g.contents.Perm (d.encoded.filter (!d.isFollowed ·))
  once : g.contents.Nodup
  /-- Only the first instruction of a node is a label, the entry or the start of a node. -/
  inner : ∀ n ∈ g.nodes.toList, ∀ i ∈ n.instructions.tail, d.isLabel i.linear = false ∧
    i.linear ≠ d.entry.linear ∧ g.byLinear.contains i.linear = false
  /-- Each jump that is not followed is listed once. -/
  unresolved : g.unresolved.toList.Perm (d.unresolved.map Unresolved.linear)
  unresolved_once : g.unresolved.toList.Nodup

/-- What a graph contains is what one of its nodes holds. -/
theorem mem_contents_iff {i : Instruction} :
    i ∈ g.contents ↔ ∃ id, i ∈ g.instructionsAt id := by
  rw [contents_eq (Nat.le_refl _), List.mem_flatMap]
  constructor
  · rintro ⟨id, -, hi⟩
    exact ⟨id, hi⟩
  · rintro ⟨id, hi⟩
    refine ⟨id, List.mem_range.2 ?_, hi⟩
    by_contra hout
    rw [instructionsAt, Array.getElem?_eq_none (by omega)] at hi
    exact absurd hi List.not_mem_nil

/-- No instruction is in a graph twice, neither in two nodes nor in one. -/
theorem nodup_contents (hd : d.WellFormed) (hmeet : d.MeetsOnce) (h : Laid d g (d.size + 1))
    (hr : Reflects d g) : g.contents.Nodup := by
  have hsize := h.built.indexed.size_le
  rw [contents_eq (n := d.size + 2) hsize, List.nodup_flatMap]
  have hle {id : Nat} (hid : id ∈ List.range (d.size + 2)) : id ≤ d.size + 1 :=
    Nat.le_of_lt_succ (List.mem_range.1 hid)
  refine ⟨fun id hid => ?_, ?_⟩
  · rw [List.nodup_iff_getElem?_ne_getElem?]
    intro p q hlt hq hsame
    have hlater := List.getElem?_eq_getElem hq
    have hpos := position_unique hd hmeet h hr (hle hid) (hle hid) (hsame.trans hlater) hlater
    omega
  · refine List.pairwise_lt_range.imp_of_mem fun {a b} ha hb hlt i hi hj => ?_
    obtain ⟨p, hp⟩ := List.mem_iff_getElem?.1 hi
    obtain ⟨q, hq⟩ := List.mem_iff_getElem?.1 hj
    have hpos := position_unique hd hmeet h hr (hle ha) (hle hb) hp hq
    omega

/-- Control comes to all that is not a jump to be followed, so a node holds it: some path tells the
    run to it. -/
theorem Reflects.covers (h : Reflects d g) {i : Instruction} {is : List Instruction}
    (hrun : d.Run d.entry.linear (is ++ [i])) (hf : d.isFollowed i = false) :
    i ∈ g.contents := by
  obtain ⟨-, id, -, -, -, hid⟩ := h.start
  obtain ⟨ids, last, pre, -, hpre, herased⟩ := h.path_of_run hrun hid
  have hi : i ∈ d.erased (is ++ [i]) := by
    simp [Disassembly.erased, hf]
  rw [herased, List.mem_append, List.mem_flatMap] at hi
  rcases hi with ⟨id, -, hi⟩ | hi
  · exact mem_contents_iff.2 ⟨id, hi⟩
  · exact mem_contents_iff.2 ⟨last, hpre.subset hi⟩

/-- All nodes are filled at the end. -/
theorem Laid.le_of_node (h : Laid d g (d.size + 1)) {id : Nat} {n : Node}
    (hn : g.nodes[id]? = some n) : id ≤ d.size + 1 := by
  have hlt : id < g.nodes.size := size_of_node hn
  have hsize := h.built.indexed.size_le
  omega

/-- Only the first instruction of a node is a label, the entry or the start of a node. -/
theorem Laid.inner (hd : d.WellFormed) (hmeet : d.MeetsOnce) (h : Laid d g (d.size + 1)) {n : Node}
    (hn : n ∈ g.nodes.toList) {i : Instruction} (hi : i ∈ n.instructions.tail) :
    d.isLabel i.linear = false ∧ i.linear ≠ d.entry.linear ∧
      g.byLinear.contains i.linear = false := by
  obtain ⟨id, hid⟩ := List.mem_iff_getElem?.1 hn
  rw [Array.getElem?_toList] at hid
  obtain ⟨p, hp⟩ := List.mem_iff_getElem?.1 hi
  rw [List.getElem?_tail, ← instructionsAt_of_node hid] at hp
  have hle := h.le_of_node hid
  obtain ⟨j, -, hjoined⟩ := h.joined_of_getElem? hle hp
  exact ⟨hjoined.label, hjoined.entry, h.not_named hd hmeet h.built.reflects hle hp⟩

/-- The jumps without a way on are the jumps in the nodes, in the order in which the nodes were
    filled. -/
theorem Laid.unresolved_eq (h : Laid d g (d.size + 1)) : g.unresolved.toList =
    (g.contents.filter (·.mnemonic.isJump)).map Instruction.linear := by
  rw [h.unresolved, ← contents_eq h.built.indexed.size_le]

/-- No jump is listed twice, as no instruction is in the graph twice and different instructions are
    at different places. -/
theorem nodup_unresolved (h : Laid d g (d.size + 1)) (hnodup : g.contents.Nodup) :
    g.unresolved.toList.Nodup := by
  rw [h.unresolved_eq]
  refine List.Nodup.map_on ?_ (hnodup.filter _)
  -- What a node holds is found at its own place.
  have hfound {i : Instruction} (hi : i ∈ g.contents.filter (·.mnemonic.isJump)) :
      d.find? i.linear = some i := by
    obtain ⟨id, hi⟩ := mem_contents_iff.1 (List.mem_of_mem_filter hi)
    exact (h.built.reflects.holds hi).1
  intro i hi j hj hlinear
  have hsame := hfound hi
  rw [hlinear, hfound hj] at hsame
  exact (Option.some.inj hsame).symm

end FlowGraph

open FlowGraph

namespace Walk.Finished

variable {r : Routine} {w : Walk} {d : Disassembly} {g : FlowGraph}

/-- Control goes to labels, or straight on: what the walk followed it made labels. -/
theorem labelled (h : w.Finished r d) (he : Exact w) (hd : d.WellFormed) : Labelled d := by
  intro k i hi b hb
  rcases (h.mem_successors_iff he hd hi b).1 hb with htransfer | hfalls
  · exact .inl ((h.isLabel_iff he b).2 ⟨k, (h.mem_transfers_iff he hi b).1 htransfer⟩)
  · exact .inr hfalls

/-- **The nodes hold every instruction but the jumps that are followed.** -/
theorem mem_contents_iff (h : w.Finished r d) (he : Exact w) (hd : d.WellFormed)
    (hreach : ∀ {k i}, d.find? k = some i → Arrives r w k) (hr : Reflects d g)
    (i : Instruction) :
    i ∈ g.contents ↔ d.find? i.linear = some i ∧ d.isFollowed i = false := by
  constructor
  · intro hi
    obtain ⟨id, hi⟩ := FlowGraph.mem_contents_iff.1 hi
    exact hr.holds hi
  · rintro ⟨hi, hf⟩
    obtain ⟨is, hrun⟩ := h.exists_run he hd (hreach hi) hi
    exact hr.covers hrun hf

end Walk.Finished

/-- In what is disassembled, control goes to labels wherever it does not go straight on. -/
theorem Routine.labelled_of_disassemble {r : Routine} {d : Disassembly}
    (hfold : SwitchTemplate.FoldStraight r.templates) (hd : r.disassemble = .ok d) :
    Labelled d := by
  obtain ⟨w, hw⟩ := Routine.finished_of_disassemble hd
  exact hw.labelled (Walk.exact_of_walk hfold hw.walk) (wellFormed_of_disassemble hd)

/-- **A graph is laid when it is built**, all of its nodes being filled then. -/
theorem laid_of_build {r : Routine} {d : Disassembly} {g : FlowGraph}
    (hfold : SwitchTemplate.FoldStraight r.templates) (hd : r.disassemble = .ok d)
    (hg : build d = some (.ok g)) : Laid d g (d.size + 1) :=
  laid_of_filledTo (wellFormed_of_disassemble hd) (Routine.labelled_of_disassemble hfold hd)
    (filledTo_of_build hg)

/-- The nodes of a graph that is built hold every instruction but the jumps that are followed. -/
theorem mem_contents_of_build {r : Routine} {d : Disassembly} {g : FlowGraph}
    (hfold : SwitchTemplate.FoldStraight r.templates) (hd : r.disassemble = .ok d)
    (hg : build d = some (.ok g)) (i : Instruction) :
    i ∈ g.contents ↔ d.find? i.linear = some i ∧ d.isFollowed i = false := by
  obtain ⟨w, hw⟩ := Routine.finished_of_disassemble hd
  have hreach {k : Nat} {i : Instruction} (hi : d.find? k = some i) : Walk.Arrives r w k := by
    obtain ⟨j, hj, -⟩ := hw.shows.found hi
    exact Walk.arrives_of_walk hfold hw.walk hj
  exact hw.mem_contents_iff (Walk.exact_of_walk hfold hw.walk) (wellFormed_of_disassemble hd) hreach
    (laid_of_build hfold hd hg).built.reflects i

/-- **The nodes partition the instructions**, where control falls through to each place from
    one instruction at most. -/
theorem partitions_of_meetsOnce {r : Routine} {d : Disassembly} {g : FlowGraph}
    (hfold : SwitchTemplate.FoldStraight r.templates) (hd : r.disassemble = .ok d)
    (hmeet : d.MeetsOnce) (hg : build d = some (.ok g)) : Partitions d g := by
  have hwf := wellFormed_of_disassemble hd
  obtain ⟨w, hw⟩ := Routine.finished_of_disassemble hd
  have hexact := Walk.exact_of_walk hfold hw.walk
  have hlaid := laid_of_build hfold hd hg
  have hmem := mem_contents_of_build hfold hd hg
  have hnodup := nodup_contents hwf hmeet hlaid hlaid.built.reflects
  have hnodup' := nodup_unresolved hlaid hnodup
  refine ⟨?_, hnodup, fun n hn i hi => hlaid.inner hwf hmeet hn hi, ?_, hnodup'⟩
  · -- Neither list has anything twice, so it is enough that they have the same members.
    have hencoded : d.encoded.Nodup :=
      (Routine.ordered_encoded hd).imp fun hlt he => by rw [he] at hlt; omega
    rw [List.perm_ext_iff_of_nodup hnodup (hencoded.filter _)]
    intro i
    rw [hmem, Routine.find?_iff_mem_encoded hd, List.mem_filter]
    simp
  · rw [List.perm_ext_iff_of_nodup hnodup' (hw.nodup_unresolved hexact)]
    intro k
    rw [hlaid.unresolved_eq, hw.mem_unresolved_iff hexact, List.mem_map]
    constructor
    · rintro ⟨i, hi, rfl⟩
      rw [List.mem_filter, hmem] at hi
      exact ⟨i, hi.1.1, hi.2, hi.1.2⟩
    · rintro ⟨i, hi, hjump, hf⟩
      refine ⟨i, List.mem_filter.2 ⟨(hmem i).2 ⟨Disassembly.find?_linear hi, hf⟩, hjump⟩, ?_⟩
      exact Disassembly.linear_of_find? hi

/-! ### Flat programs -/

/-- A flat program is placed behind its header, and ends in the first segment. -/
theorem Image.bounds_of_parseCom {bytes : List UInt8} {image : Image}
    (h : Image.parseCom bytes = .ok image) :
    0 < image.base ∧ image.top ≤ segmentSize ∧ image.memory.size ≤ segmentSize := by
  unfold parseCom at h
  split at h
  · cases h
  · split at h
    · cases h
    · rename_i hsize
      cases h
      have hbytes : (Memory.ofList bytes).size = bytes.length := by
        rw [Memory.size_eq, Memory.bytes_ofList]
      have horigin : comOrigin.linear = 0x100 := rfl
      simp only [top, hbytes, horigin, segmentSize, comLimit] at hsize ⊢
      omega

/-- **The nodes of a flat program's graph partition its instructions.** Its graph is always
    finished; each instruction but the jumps that are followed is in one node, once; nodes are
    entered at their first instruction only; and the jumps without a way on are those that the
    disassembly records. -/
theorem nodes_partition {bytes : List UInt8} {r : Routine} {d : Disassembly}
    (hcom : Image.parseCom bytes = .ok r.image)
    (htemplates : r.templates = SwitchTemplate.standard) (hd : r.disassemble = .ok d) :
    ∃ g, build d = some (.ok g) ∧ Partitions d g := by
  obtain ⟨hbase, htop, hsize⟩ := Image.bounds_of_parseCom hcom
  obtain ⟨g, hg⟩ := build_of_size_le hd hsize
  have hfold : SwitchTemplate.FoldStraight r.templates :=
    htemplates ▸ SwitchTemplate.foldStraight_standard
  exact ⟨g, hg, partitions_of_meetsOnce hfold hd (meetsOnce_of_top_le hd hbase htop) hg⟩

/-- `jz` across a jump to the one at the end, which leads where `ax` says. -/
def detour : Routine where
  image := {
    memory := .ofList [0x74, 0x02, 0xEB, 0x01, 0x90, 0xFF, 0xE0]
    base := 0x100
    entry := ⟨0, 0x100⟩
    stack := some ⟨0, 0xFFFE⟩
    format := .com }
  entry := ⟨0, 0x100⟩

/-- The graph of the detour leaves out the jump that is followed and lists the other one. -/
theorem nodes_partition_detour :
    Image.parseCom [0x74, 0x02, 0xEB, 0x01, 0x90, 0xFF, 0xE0] = .ok detour.image ∧
      ∃ d, detour.disassemble = .ok d ∧ d.unresolved.map Unresolved.linear = [0x105] ∧
        ∃ g, build d = some (.ok g) ∧ Partitions d g := by
  have hcom : Image.parseCom [0x74, 0x02, 0xEB, 0x01, 0x90, 0xFF, 0xE0] = .ok detour.image := rfl
  obtain ⟨d, hd, hunresolved⟩ := Routine.exists_disassembly (r := detour)
    (P := fun d => d.unresolved.map Unresolved.linear = [0x105]) (by decide +kernel)
  exact ⟨hcom, d, hd, hunresolved, nodes_partition hcom rfl hd⟩

end RealMode
