import RealMode.Proofs.Disassembly.Reach
import RealMode.Proofs.FlowGraph.Refinement

namespace RealMode.FlowGraph

/-!
# Where nodes begin and what blocks hold

* `Begins` — the places where a node may begin, `Labelled` — control goes to labels, or
  straight on;
* `Adds` — what making nodes adds, for each of the functions that make nodes;
* `Inside` — inside a block, an instruction follows another one;
* `Lays` — what filling a node with a list of instructions does, `fillBlock_lays` and
  `fill_lays` — that it does so.
-/

variable {d : Disassembly} {g g' : FlowGraph}

/-- A node may begin at the place: it is the entry, a label, or the place of a branch or
    switch, or control falls through to it from a branch. -/
inductive Begins (d : Disassembly) (a : Nat) : Prop
  | entry (h : a = d.entry.linear)
  | label (h : d.isLabel a = true)
  | turn {i : Instruction} (hi : d.find? a = some i) (hk : NodeKind.ofInstruction i ≠ .block)
  | fall {k : Nat} {i : Instruction} (hi : d.find? k = some i)
      (hb : i.mnemonic.isConditionalBranch = true) (ha : i.nextLinear = a)

/-- Control goes to a label wherever it does not go straight on. -/
def Labelled (d : Disassembly) : Prop :=
  ∀ ⦃k : Nat⦄ ⦃i : Instruction⦄, d.find? k = some i → ∀ b ∈ d.successors i,
    d.isLabel b = true ∨ d.fallsThrough i = true ∧ i.nextLinear = b

/-! ### Making nodes -/

/-- Making nodes adds names of places with a property, and no jump without a way on. -/
structure Adds (P : Nat → Prop) (g g' : FlowGraph) : Prop where
  named : ∀ {a : Nat}, g'.byLinear.contains a = true → g.byLinear.contains a = true ∨ P a
  unresolved : g'.unresolved = g.unresolved

/-- Asking for the node at a place names that place at most, and leaves the jumps without a way on
    as they are. -/
theorem adds_nodeFor {linear source id : Nat} (h : g.nodeFor d linear source = .ok (id, g')) :
    Adds (· = linear) g g' := by
  unfold nodeFor at h
  split at h
  · cases h
    exact ⟨.inl, rfl⟩
  · unfold instructionAt at h
    split at h
    · cases h
      exact ⟨fun ha => (AddressMap.contains_insert ..).1 ha, rfl⟩
    · cases h

/-- Asking for the nodes at several places names none but those. -/
theorem adds_nodesFor {source : Nat} {targets ids : List Nat}
    (h : g.nodesFor d source targets = .ok (ids, g')) : Adds (· ∈ targets) g g' := by
  induction targets generalizing g ids with
  | nil =>
    cases h
    exact ⟨.inl, rfl⟩
  | cons t targets ih =>
    simp only [nodesFor, bind, Except.bind] at h
    split at h
    · cases h
    · rename_i p hnode
      split at h
      · cases h
      · rename_i q hnodes
        cases h
        have hfirst := adds_nodeFor hnode
        have hrest := ih hnodes
        refine ⟨fun ha => ?_, hrest.unresolved.trans hfirst.unresolved⟩
        rcases hrest.named ha with ha | ha
        · exact (hfirst.named ha).imp_right fun he => List.mem_cons.2 (.inl he)
        · exact .inr (List.mem_cons_of_mem _ ha)

/-- The end of the graph has no place, so making it names nothing. -/
theorem adds_stopNode (g : FlowGraph) (linear : Nat) :
    Adds (fun _ => False) g (g.stopNode linear).2 := by
  unfold stopNode
  split
  · exact ⟨.inl, rfl⟩
  · exact ⟨.inl, rfl⟩

/-- A block that ends in front of a place holds what it held, and names that place at most. -/
theorem adds_endBefore {body : Array Instruction} {linear source : Nat} {b : BlockBody}
    (h : endBefore d g body linear source = .ok (b, g')) :
    b.instructions = body.toList ∧ Adds (· = linear) g g' := by
  simp only [endBefore, bind, Except.bind] at h
  split at h
  · cases h
  · rename_i p hnode
    cases h
    exact ⟨rfl, adds_nodeFor hnode⟩

/-! ### Blocks -/

/-- Inside a block, an instruction follows another one. -/
def Inside (d : Disassembly) (g : FlowGraph) (i next : Instruction) : Prop :=
  NodeKind.ofInstruction i = .block ∧ onward? d g i = some next

/-- What filling a node with a list of instructions does. -/
structure Lays (d : Disassembly) (g : FlowGraph) (is : List Instruction) (g' : FlowGraph) :
    Prop where
  chain : is.IsChain (Inside d g)
  /-- A block goes on as long as it can: what is left out is a jump that is followed. -/
  last : ∀ i ∈ is.getLast?, NodeKind.ofInstruction i = .block →
    ∀ next, onward? d g i = some next → d.isFollowed next = true
  named : ∀ {a : Nat}, g'.byLinear.contains a = true →
    g.byLinear.contains a = true ∨ Begins d a
  unresolved : g'.unresolved.toList =
    g.unresolved.toList ++ (is.filter (·.mnemonic.isJump)).map Instruction.linear

section Adds

variable {P : Nat → Prop} (h : Adds P g g')
  (hP : ∀ a, P a → g.byLinear.contains a = true ∨ Begins d a)
include h hP

/-- Making nodes where nodes may begin lays nothing: no instruction, and no jump. -/
theorem Adds.lays_nil : Lays d g [] g' :=
  ⟨.nil, by simp, fun ha => (h.named ha).elim .inl (hP _), by simp [h.unresolved]⟩

/-- A last instruction that is no jump is laid on its own. If it belongs into a block, the walk must
    not go on behind it, or the block would have. -/
theorem Adds.lays_singleton {i : Instruction} (hjump : i.mnemonic.isJump = false)
    (hlast : NodeKind.ofInstruction i = .block → onward? d g i = none) : Lays d g [i] g' := by
  refine ⟨.singleton i, fun j hj hk next hnext => ?_, (h.lays_nil hP).named, ?_⟩
  · obtain rfl : i = j := by simpa using hj
    rw [hlast hk] at hnext
    cases hnext
  · simp [h.unresolved, hjump]

end Adds

/-- A block holds nothing from an instruction on only if it may end in front of it. -/
def EndsBefore (d : Disassembly) (g : FlowGraph) (i : Instruction) : Prop :=
  startsNode d g i = true ∨ d.isFollowed i = true

/-- A block that goes on with an instruction holds it, and what it holds from the next one on. If
    that is nothing, the block ends in front of the next one for one of the reasons in
    `EndsBefore`. -/
theorem Lays.cons {is : List Instruction} {i next : Instruction} (h : Lays d g is g')
    (hk : NodeKind.ofInstruction i = .block) (hjump : i.mnemonic.isJump = false)
    (hstop : (i.mnemonic.isReturn || d.isExit i.linear) = false)
    (hnext : d.find? i.nextLinear = some next)
    (hhead : ∀ j ∈ is.head?, j = next ∧ startsNode d g next = false)
    (hempty : is = [] → EndsBefore d g next) : Lays d g (i :: is) g' := by
  -- The walk goes on here exactly if the next instruction begins no node.
  have honward : onward? d g i = if startsNode d g next then none else some next := by
    cases hstarts : startsNode d g next <;>
      simp [onward?, hjump, hstop, hnext, Option.filter, hstarts]
  refine ⟨?_, ?_, h.named, ?_⟩
  · cases is with
    | nil => exact .singleton i
    | cons j rest =>
      obtain ⟨rfl, hstarts⟩ := hhead j rfl
      refine List.isChain_cons_cons.2 ⟨⟨hk, ?_⟩, h.chain⟩
      rw [honward, hstarts]
      rfl
  · cases is with
    | nil =>
      intro i' hi' _ next' hnext'
      obtain rfl : i = i' := by simpa using hi'
      rw [honward] at hnext'
      split at hnext'
      · cases hnext'
      · rename_i hstarts
        cases hnext'
        exact (hempty rfl).resolve_left hstarts
    | cons j rest => exact fun i' hi' => h.last i' (by simpa using hi')
  · rw [h.unresolved, List.filter_cons_of_neg (by simp [hjump])]

/-- A jump that is followed leads to a label, as it does not go straight on. -/
theorem isLabel_of_followed (hd : d.WellFormed) (hlab : Labelled d) {i : Instruction}
    {t : Address} (hi : d.find? i.linear = some i) (ht : d.followed? i = some t) :
    d.isLabel t.linear = true := by
  have hjump := (Disassembly.followed?_eq_some_iff.1 ht).1
  have hmem : t.linear ∈ d.successors i := by
    simp [hd.successors_jump hi hjump, ht]
  refine (hlab hi _ hmem).resolve_right fun hfalls => ?_
  rw [(Disassembly.fallsThrough_iff.1 hfalls.1).1] at hjump
  cases hjump

/-- **A block holds instructions that follow one another**, and begins nodes only where they may
    begin. What it lays from an instruction on begins with it, and it lays nothing only where it may
    end in front of it. -/
theorem fillBlock_lays (hd : d.WellFormed) (hlab : Labelled d) {body : Array Instruction}
    {i : Instruction} {b : BlockBody} (h : fillBlock d g body i = some (.ok (b, g')))
    (hi : d.find? i.linear = some i) (hblock : body = #[] → NodeKind.ofInstruction i = .block) :
    ∃ is, b.instructions = body.toList ++ is ∧ Lays d g is g' ∧
      (∀ j ∈ is.head?, j = i ∧ (body ≠ #[] → startsNode d g i = false)) ∧
      (is = [] → EndsBefore d g i) := by
  rw [fillBlock_eq_some_iff] at h
  generalize hres : (.ok (b, g') : Except Fault (BlockBody × FlowGraph)) = res at h
  -- The induction is on how the block goes on; each case lays at most one instruction.
  induction h with
  | @cut body i hbody hstarts =>
    obtain ⟨hb, hadds⟩ := adds_endBefore hres.symm
    refine ⟨[], by simp [hb], hadds.lays_nil ?_, by simp, fun _ => .inl hstarts⟩
    rintro a rfl
    -- Of the reasons to end here, each makes the place one where a node may begin.
    simp only [startsNode, Bool.or_eq_true, bne_iff_ne] at hstarts
    rcases hstarts with (hlabel | hnamed) | hkind
    · exact .inr (.label hlabel)
    · exact .inl hnamed
    · exact .inr (.turn hi hkind)
  | @jump body i t hhold ht =>
    obtain ⟨hb, hadds⟩ := adds_endBefore hres.symm
    refine ⟨[], by simp [hb], hadds.lays_nil ?_, by simp, fun _ => .inr ?_⟩
    · rintro a rfl
      exact .inr (.label (isLabel_of_followed hd hlab hi ht))
    · rw [Disassembly.isFollowed, ht]
      rfl
  | @lost body i hhold hjump ht =>
    cases hres
    refine ⟨[i], by simp, ⟨.singleton i, ?_, .inl, by simp [hjump]⟩,
      by simpa using hhold.resolve_left, by simp⟩
    intro j hj _ next hnext
    obtain rfl : i = j := by simpa using hj
    rw [(onward?_cases hnext).1] at hjump
    cases hjump
  | @stop body i hhold hjump hstop =>
    cases hres
    refine ⟨[i], by simp, ?_, by simpa using hhold.resolve_left, by simp⟩
    refine (adds_stopNode g i.linear).lays_singleton (fun _ h => h.elim) hjump fun _ => ?_
    rw [onward?, hstop, Bool.or_true, if_pos rfl]
  | fault => cases hres
  | @next body i next res hhold hjump hgo hnext _ ih =>
    obtain ⟨is, hb, hlays, hnexthead, hempty⟩ :=
      ih (Disassembly.find?_linear hnext) (by simp) hres
    refine ⟨i :: is, by simp [hb], ?_, by simpa using hhold.resolve_left, by simp⟩
    -- The rest was laid from the next instruction on, and this one is put in front.
    refine hlays.cons (hhold.block hblock) hjump hgo hnext (fun j hj => ?_) hempty
    exact (hnexthead j hj).imp_right fun hstarts => hstarts (by simp)

/-! ### Nodes -/

/-- A node that was written reads back with the instructions it was given. -/
theorem instructionsAt_setNode {id : Nat} {n : Node} (hn : g.nodes[id]? = some n) (n' : Node) :
    (g.setNode id n').instructionsAt id = n'.instructions := by
  apply instructionsAt_of_node
  rw [getElem?_setNode, if_pos rfl, hn]
  rfl

/-- A node that begins with no instruction holds none: the end is made empty and never written, and
    there is no start but the one at position zero. -/
theorem Indexed.instructionsAt_eq_nil (h : Indexed d g) {id : Nat} (hid : id ≠ 0)
    (hself : ∀ n, g.nodes[id]? = some n → n.kind = .start ∨ n.kind = .stop) :
    g.instructionsAt id = [] := by
  unfold instructionsAt
  split
  · rename_i n hn
    rcases h.known hn with ⟨hzero, -⟩ | hstop | hname
    · exact absurd hzero hid
    · obtain ⟨m, hm, -, hnil, -⟩ := h.stop hstop
      rw [hn] at hm
      cases hm
      exact hnil
    · obtain ⟨m, i, hm, -, -, hk⟩ := h.named hname
      rw [hn] at hm
      cases hm
      rcases hself n hn with hs | hs
      · exact absurd (hk.symm.trans hs) (ofInstruction_ne_start i)
      · exact absurd (hk.symm.trans hs) (ofInstruction_ne_stop i)
  · rfl

/-- A branch or switch begins nodes where it leads to, and these are labels or fall behind the
    branch, so nodes may begin there. It is alone in its node. -/
theorem lays_turn (hlab : Labelled d) {k source id : Nat} {i : Instruction} {n n' : Node}
    {ids : List Nat} {g₁ : FlowGraph} (hn : g.nodes[id]? = some n) (hgrows : Grows g g₁)
    (hi : d.find? k = some i) (hk : NodeKind.ofInstruction i ≠ .block)
    (hnodes : g.nodesFor d source (d.successors i) = .ok (ids, g₁))
    (hn' : n'.instructions = [i]) :
    Lays d g ((g₁.setNode id n').instructionsAt id) (g₁.setNode id n') := by
  have hadds : Adds (· ∈ d.successors i) g (g₁.setNode id n') :=
    ⟨(adds_nodesFor hnodes).named, (adds_nodesFor hnodes).unresolved⟩
  have hjump := isJump_of_ofInstruction_ne_block hk
  rw [instructionsAt_setNode (hgrows.node hn), hn']
  refine hadds.lays_singleton (fun a ha => .inr ?_) hjump fun hblock => absurd hblock hk
  rcases hlab hi a ha with hlabel | ⟨hfalls, hnext⟩
  · exact .label hlabel
  · -- Control falls through a branch, but not through a switch.
    have hnoswitch := (Disassembly.fallsThrough_iff.1 hfalls).2.2.1
    rcases ofInstruction_cases i with ⟨-, hswitch⟩ | ⟨-, hbranch⟩ | ⟨hblock, -⟩
    · exact absurd hswitch hnoswitch
    · exact .fall hi hbranch hnext
    · exact absurd hblock hk

/-- **Filling a node lays what it holds**, whatever its kind is: nothing for the end, one
    instruction for a branch or a switch, a chain of them for a block. -/
theorem fill_lays (hd : d.WellFormed) (hlab : Labelled d) (h : Indexed d g) {id : Nat}
    (hid : id ≠ 0) (hres : fill d g id = some (.ok g')) : Lays d g (g'.instructionsAt id) g' := by
  by_cases hself : ∀ n, g.nodes[id]? = some n → n.kind = .start ∨ n.kind = .stop
  · -- There is no node to fill, or it is the start or the end.
    rw [fill_self (fun {n} => hself n)] at hres
    cases hres
    rw [h.instructionsAt_eq_nil hid hself]
    exact ⟨.nil, by simp, .inl, by simp⟩
  · push Not at hself
    obtain ⟨n, hn, hstart, hstop⟩ := hself
    obtain ⟨-, i, hi, hki⟩ := h.head hn hstart hstop
    by_cases hk : NodeKind.ofInstruction i = .block
    · have hil := Disassembly.find?_linear hi
      rw [fill_block hn (hki.trans hk) hi, Option.map_eq_some_iff] at hres
      obtain ⟨res, hblock, hres⟩ := hres
      obtain ⟨b, g₁, rfl, hgrows, -⟩ := fillBlock_spec hd h hblock hil fun _ => hk
      cases hres
      -- The body was empty at first, so what the block holds is what was laid.
      obtain ⟨is, hb, hlays, -, -⟩ := fillBlock_lays hd hlab hblock hil fun _ => hk
      rw [instructionsAt_setNode (hgrows.node hn)]
      have his : b.instructions = is := by simpa using hb
      rw [his]
      exact ⟨hlays.chain, hlays.last, hlays.named, hlays.unresolved⟩
    · obtain ⟨edges, g₁, n', hnodes, hgrows, -, -, hfill, -, -, hn', -⟩ :=
        fill_turn hd h hn hi hki hk
      rw [hfill] at hres
      cases hres
      exact lays_turn hlab hn hgrows hi hk hnodes hn'

end RealMode.FlowGraph
