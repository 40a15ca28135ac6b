import RealMode.Proofs.FlowGraph.Refit

namespace RealMode

/-!
# What fusion keeps of an analysis

The two loads of a fused pair use as much as the double load does, so a node uses the same with
fusion and without it if it holds both loads or none. A node may begin at the second one.

* `Disassembly.KeepsPairs` — control comes to the second load of each pair through the first
  alone, and `FlowGraph.keepsPairs_of_meetsOnce` — when that is so;
* `FlowGraph.Uncut` — a list of instructions has both loads of each pair, or none;
  `FlowGraph.uncut_instructionsAt` — nodes are such, and `FlowGraph.Uncut.foldlM_eq` — so they
  use the same;
* `fusion_preserves_analysis` — what an analysis tells is the same with fusion and without it.

`pointerLoad` at its second instruction is a function that is entered between two loads: with
fusion, the node of its entry uses nothing.
-/

/-! ### Pairs that stay together -/

/-- Control comes to the second load of each pair through the first one alone. -/
def Disassembly.KeepsPairs (d : Disassembly) : Prop :=
  ∀ p ∈ d.loadPairs, p.2.linear ≠ d.entry.linear ∧
    ∀ i ∈ d.encoded, p.2.linear ∈ d.successors i → i = p.1

instance (d : Disassembly) : Decidable d.KeepsPairs :=
  inferInstanceAs (Decidable (∀ p ∈ d.loadPairs, p.2.linear ≠ d.entry.linear ∧
    ∀ i ∈ d.encoded, p.2.linear ∈ d.successors i → i = p.1))

namespace FlowGraph

variable {r : Routine} {d d' : Disassembly} {g g' : FlowGraph} {f : Instruction → Instruction}
  {p : Instruction × Instruction}

/-- What is known of a pair of loads in a disassembly. -/
structure LoadPair (d : Disassembly) (p : Instruction × Instruction) : Prop where
  first : d.find? p.1.linear = some p.1
  second : d.find? p.2.linear = some p.2
  mov_first : p.1.mnemonic = .mov
  mov_second : p.2.mnemonic = .mov
  next : p.1.nextLinear = p.2.linear
  label : d.isLabel p.2.linear = false

/-- What fusion asks of two loads holds for the pairs of a disassembly: both are there, one right
    behind the other, and the second is no label. -/
theorem loadPair_of_mem (hd : r.disassemble = .ok d) (hf : Fusion.Fusing d.labels d.encoded f)
    (hp : p ∈ d.loadPairs) : LoadPair d p := by
  obtain ⟨hfirst, hsecond, hpair⟩ := hf.pair p hp
  obtain ⟨_, _, _, _, ha, hb, -, hnext, hlabel, -⟩ := Fusion.pair?_cases hpair
  exact ⟨(Routine.find?_iff_mem_encoded hd).2 ⟨hfirst, rfl⟩,
    (Routine.find?_iff_mem_encoded hd).2 ⟨hsecond, rfl⟩, Fusion.mov_of_wordLoad? ha,
    Fusion.mov_of_wordLoad? hb, hnext, hlabel⟩

theorem LoadPair.falls (h : LoadPair d p) (hd : r.disassemble = .ok d) :
    d.fallsThrough p.1 = true := by
  have hexit : d.isExit p.1.linear = false := by
    rw [Bool.eq_false_iff]
    intro hx
    have hm := (wellFormed_of_disassemble hd).exit h.first hx
    rw [h.mov_first] at hm
    exact absurd hm (by decide)
  rw [Disassembly.fallsThrough_iff, h.mov_first]
  exact ⟨rfl, rfl, by decide, hexit⟩

/-- Instructions of a node, none of which is separated from the other load of its pair. -/
structure Uncut (d : Disassembly) (is : List Instruction) : Prop where
  joined : is.IsChain (Joined d)
  encoded : ∀ i ∈ is, i ∈ d.encoded
  head : ∀ i ∈ is.head?, ∀ p ∈ d.loadPairs, p.2 ≠ i
  last : ∀ i ∈ is.getLast?, ∀ p ∈ d.loadPairs, p.1 ≠ i

theorem Joined.mem_successors {i next : Instruction} (h : Joined d i next) :
    next.linear ∈ d.successors i := by
  obtain ⟨hjump, hret, hswitch, hexit⟩ := Disassembly.fallsThrough_iff.1 h.falls
  rw [Disassembly.successors_plain (by simp [hret, hexit]) hjump (ofInstruction_eq_block h.kind).1
    hswitch, Disassembly.linear_of_find? h.found]
  exact List.mem_singleton_self _

/-- Behind an instruction that begins no pair, nothing is separated either: the next one could only
    be the second load of a pair that begins there. -/
theorem Uncut.behind (hkeeps : d.KeepsPairs) (is : List Instruction) {i : Instruction}
    {rest : List Instruction} (h : Uncut d (is ++ i :: rest))
    (hfirst : ∀ p ∈ d.loadPairs, p.1 ≠ i) : Uncut d rest := by
  have hjoined : (i :: rest).IsChain (Joined d) := (List.isChain_append.1 h.joined).2.1
  refine ⟨hjoined.tail, fun j hj => h.encoded j (by simp [hj]), ?_, fun j hj => h.last j ?_⟩
  · rintro j hj p hp rfl
    have hlink := (hjoined.rel_head? hj).mem_successors
    exact hfirst p hp ((hkeeps p hp).2 i (h.encoded i (by simp)) hlink).symm
  · simp [List.getLast?_append, List.getLast?_cons, Option.mem_def.1 hj]

/-- No instruction is the second load of one pair and the first of another. -/
theorem first_ne_second {q : Instruction × Instruction}
    (hf : Fusion.Fusing d.labels d.encoded f) (hp : p ∈ d.loadPairs) (hq : q ∈ d.loadPairs) :
    q.1 ≠ p.2 := by
  intro hsame
  obtain ⟨_, _, _, _, -, -, -, -, -, -, hsecond⟩ := Fusion.pair?_cases (hf.pair p hp).2.2
  obtain ⟨_, _, _, _, -, -, -, -, -, hfirst, -⟩ := Fusion.pair?_cases (hf.pair q hq).2.2
  rw [← hsame, hfirst] at hsecond
  cases congrArg Instruction.mnemonic hsecond

/-- **Instructions that are not cut use the same with fusion and without it.** -/
theorem Uncut.foldlM_eq (hd : r.disassemble = .ok d) (hkeeps : d.KeepsPairs)
    (hf : Fusion.Fusing d.labels d.encoded f) {is : List Instruction} (h : Uncut d is)
    (acc : Usage) :
    (is.map f).foldlM (fun acc i => do return acc.andThen (← i.usage)) acc =
      is.foldlM (fun acc i => do return acc.andThen (← i.usage)) acc := by
  have hkept {i : Instruction} (hi : i ∈ d.encoded) (hfirst : ∀ p ∈ d.loadPairs, p.1 ≠ i)
      (hsecond : ∀ p ∈ d.loadPairs, p.2 ≠ i) : f i = i := by
    refine (hf.kept i hi).resolve_right ?_
    rintro ⟨p, hp, rfl | rfl⟩
    · exact hfirst p hp rfl
    · exact hsecond p hp rfl
  -- The induction takes the two loads of a pair at once.
  induction is using List.twoStepInduction generalizing acc with
  | nil => rfl
  | singleton i =>
    rw [List.map_singleton, hkept (h.encoded i (by simp)) (h.last i (by simp)) (h.head i (by simp))]
  | cons_cons i j rest ih ih' =>
    by_cases hfirst : ∃ p ∈ d.loadPairs, p.1 = i
    · obtain ⟨p, hp, rfl⟩ := hfirst
      have hload := loadPair_of_mem hd hf hp
      have hfound := (h.joined.rel_head? (y := j) rfl).found
      rw [hload.next, hload.second] at hfound
      cases hfound
      have hrest : Uncut d rest :=
        Uncut.behind hkeeps [p.1] h fun q hq => first_ne_second hf hp hq
      exact Fusion.foldlM_of_pair? (hf.pair p hp).2.2 (ih hrest) acc
    · push Not at hfirst
      have hrest : Uncut d (j :: rest) := Uncut.behind hkeeps [] h hfirst
      have hsame := hkept (h.encoded i (by simp)) hfirst (h.head i (by simp))
      rw [List.map_cons, hsame, List.foldlM_cons, List.foldlM_cons]
      congr
      funext acc
      exact ih' j hrest acc

/-- No node begins at the second load of a pair that stays together. -/
theorem not_begins_second (hd : r.disassemble = .ok d) (hkeeps : d.KeepsPairs)
    (hp : p ∈ d.loadPairs) (hload : LoadPair d p) : ¬ Begins d p.2.linear := by
  have hwf := wellFormed_of_disassemble hd
  intro hbegins
  cases hbegins with
  | entry he => exact (hkeeps p hp).1 he
  | label hl =>
    rw [hload.label] at hl
    cases hl
  | turn hi hk =>
    rw [hload.second] at hi
    cases hi
    exact hk (by rw [NodeKind.ofInstruction, hload.mov_second]; rfl)
  | @fall k i hi hb hnext =>
    obtain ⟨t, ht⟩ := hwf.branch hi hb
    have hsucc : p.2.linear ∈ d.successors i := by
      simp [hwf.successors_branch hi hb ht, hnext]
    obtain rfl := (hkeeps p hp).2 i ((Routine.find?_iff_mem_encoded hd).1 hi).1 hsucc
    rw [hload.mov_first] at hb
    cases hb

/-- Nodes do not cut pairs that stay together: no node begins at the second load, and none ends
    behind the first. -/
theorem uncut_instructionsAt (hd : r.disassemble = .ok d) (hkeeps : d.KeepsPairs)
    (hf : Fusion.Fusing d.labels d.encoded f) {k id : Nat} (h : Laid d g k) (hr : Reflects d g)
    (hid : id ≤ k) : Uncut d (g.instructionsAt id) := by
  refine ⟨h.joined id hid, ?_, ?_, ?_⟩
  · intro i hi
    exact ((Routine.find?_iff_mem_encoded hd).1 (hr.holds hi).1).1
  · rintro i hi p hp rfl
    rw [List.head?_eq_getElem?] at hi
    obtain ⟨head, es, hname, -, hleads⟩ :=
      hr.leads (List.ne_nil_of_mem (List.mem_of_getElem? hi))
    rw [← hleads.head? hi] at hname
    exact not_begins_second hd hkeeps hp (loadPair_of_mem hd hf hp)
      (h.named ((AddressMap.contains_iff_exists _ _).2 ⟨id, hname⟩))
  · rintro i hi p hp rfl
    have hload := loadPair_of_mem hd hf hp
    have hkind : NodeKind.ofInstruction p.1 = .block := by
      rw [NodeKind.ofInstruction, hload.mov_first]
      rfl
    rcases h.stops id hid p.1 hi hkind (hload.falls hd) p.2 (hload.next ▸ hload.second) with
      hjump | hbegins
    · rw [Disassembly.isFollowed_of_not_isJump (by rw [hload.mov_second]; rfl)] at hjump
      cases hjump
    · exact not_begins_second hd hkeeps hp hload hbegins

/-! ### Graphs with and without fusion -/

/-- What is read off the nodes of two annotated graphs, one with the loads replaced, is the same if
    it is so node by node. -/
theorem Annotates.map_refit {α : Type} {π : Node → α} {h h' : FlowGraph} (ha : Annotates g h)
    (ha' : Annotates (g.refit f) h')
    (hπ : ∀ {id : Nat} {n : Node} {u u' : Usage}, g.nodes[id]? = some n →
      Usage.foldList n.instructions = .ok u → Usage.foldList (n.instructions.map f) = .ok u' →
      π { n.refit f with usage := u' } = π { n with usage := u }) :
    h'.nodes.map π = h.nodes.map π := by
  apply Array.ext_getElem?
  intro id
  rw [Array.getElem?_map, Array.getElem?_map]
  cases hn : g.nodes[id]? with
  | none =>
    have hsize := Array.getElem?_eq_none_iff.1 hn
    have hout : h.nodes.size = g.nodes.size := ha.size
    have hout' : h'.nodes.size = (g.refit f).nodes.size := ha'.size
    rw [refit, Array.size_map] at hout'
    rw [Array.getElem?_eq_none (by omega), Array.getElem?_eq_none (by omega)]
  | some n =>
    obtain ⟨u, hu, hnode⟩ := ha.node hn
    obtain ⟨u', hu', hnode'⟩ := ha'.node (by rw [getElem?_refit, hn]; rfl)
    rw [hnode, hnode', Option.map_some, Option.map_some, hπ hn hu hu']

/-- Two loads that control comes to one after the other stay together, where control falls
    through to each place from one instruction at most. -/
theorem keepsPairs_of_meetsOnce (hfold : SwitchTemplate.FoldStraight r.templates)
    (hd : r.disassemble = .ok d) (hf : Fusion.Fusing d.labels d.encoded f) (hmeet : d.MeetsOnce)
    (hentry : ∀ p ∈ d.loadPairs, p.2.linear ≠ d.entry.linear) : d.KeepsPairs := by
  have hlab := Routine.labelled_of_disassemble hfold hd
  intro p hp
  have hload := loadPair_of_mem hd hf hp
  refine ⟨hentry p hp, fun i hi hmem => ?_⟩
  have hfound := (Routine.find?_iff_mem_encoded hd).2 ⟨hi, rfl⟩
  rcases hlab hfound _ hmem with hlabel | ⟨hfalls, hnext⟩
  · rw [hload.label] at hlabel
    cases hlabel
  · exact hmeet hfound hload.first hfalls (hload.falls hd) (hnext.trans hload.next.symm)

end FlowGraph

/-- The parts of a node that do not tell what its instructions do. -/
def Node.shape (n : Node) : NodeKind × Nat × List Nat × List UInt16 :=
  (n.kind, n.linear, n.edges, n.cases)

open FlowGraph

/-- **Fusion keeps what an analysis tells.** A function can be disassembled with fusion exactly if
    it can be without; the two graphs have the same nodes in the same order; and each node uses
    the same, provided that control comes to the second load of each fused pair through the first
    alone. In an image within the first segment that is so as soon as the entry is no second
    load. -/
theorem fusion_preserves_analysis {r : Routine}
    (htemplates : r.templates = SwitchTemplate.standard) :
    (r.withFusion true).disassemble.isOk = (r.withFusion false).disassemble.isOk ∧
    ∀ {d d' : Disassembly} {g g' h h' : FlowGraph}, (r.withFusion false).disassemble = .ok d →
      (r.withFusion true).disassemble = .ok d' → build d = some (.ok g) →
      build d' = some (.ok g') → g.annotate = .ok h → g'.annotate = .ok h' →
      h'.nodes.map Node.shape = h.nodes.map Node.shape ∧
      (d.KeepsPairs → h'.nodes.map Node.usage = h.nodes.map Node.usage) ∧
      (0 < r.image.base → r.image.top ≤ segmentSize →
        (∀ p ∈ d.loadPairs, p.2.linear ≠ d.entry.linear) → d.KeepsPairs) := by
  have hfold : SwitchTemplate.FoldStraight (r.withFusion false).templates := by
    show SwitchTemplate.FoldStraight r.templates
    rw [htemplates]
    exact SwitchTemplate.foldStraight_standard
  refine ⟨(r.isOk_withFusion true).trans (r.isOk_withFusion false).symm, ?_⟩
  intro d d' g g' h h' hd hd' hg hg' ha ha'
  have hfusing := Routine.fusing_of_disassemble hd hd'
  -- The graph with fusion is the other one with its loads replaced.
  obtain rfl := build_withFusion hd hd' hg hg'
  have hann := annotates_of_annotate ha
  have hann' := annotates_of_annotate ha'
  refine ⟨hann.map_refit hann' fun _ _ _ => rfl, fun hkeeps => ?_, fun hbase htop => ?_⟩
  · have hlaid := laid_of_build hfold hd hg
    refine hann.map_refit hann' fun {id n u u'} hn hu hu' => ?_
    -- A node holds both loads of each pair or none, so its use is the same.
    have huncut := uncut_instructionsAt hd hkeeps hfusing hlaid hlaid.built.reflects
      (hlaid.le_of_node hn)
    rw [instructionsAt_of_node hn] at huncut
    have hsame : Usage.foldList (n.instructions.map d'.inPlaceOf) = Usage.foldList n.instructions :=
      huncut.foldlM_eq hd hkeeps hfusing {}
    rw [hsame, hu] at hu'
    exact (Except.ok.inj hu').symm
  · exact keepsPairs_of_meetsOnce hfold hd hfusing (meetsOnce_of_top_le hd hbase htop)

/-- A function in an image of at most one segment has a graph, and one that is annotated. -/
theorem FlowGraph.exists_annotated {r : Routine} {d : Disassembly} (hd : r.disassemble = .ok d)
    (hsize : r.image.memory.size ≤ segmentSize) :
    ∃ g h, build d = some (.ok g) ∧ g.annotate = .ok h := by
  obtain ⟨g, hg⟩ := build_of_size_le hd hsize
  obtain ⟨h, ha⟩ := annotate_of_build hd hg
  exact ⟨g, h, hg, ha⟩

/-- `mov ax, [bx]`, `mov dx, [bx+2]`, and a jump back to the first of them. -/
def pointerLoad (entry : Address) : Routine where
  image := .ofBytes [0x8B, 0x07, 0x8B, 0x57, 0x02, 0xEB, 0xF9] ⟨0, 0x100⟩ entry
  entry

/-- Entered at its first instruction, the function has a pair that stays together, and fusion keeps
    what each node uses. -/
theorem fusion_preserves_analysis_pointerLoad :
    ∃ d d' g g' h h', ((pointerLoad ⟨0, 0x100⟩).withFusion false).disassemble = .ok d ∧
      ((pointerLoad ⟨0, 0x100⟩).withFusion true).disassemble = .ok d' ∧
      build d = some (.ok g) ∧ build d' = some (.ok g') ∧ g.annotate = .ok h ∧
      g'.annotate = .ok h' ∧ d.loadPairs ≠ [] ∧ d.KeepsPairs ∧
      h'.nodes.map Node.shape = h.nodes.map Node.shape ∧
      h'.nodes.map Node.usage = h.nodes.map Node.usage := by
  obtain ⟨d, hd, hpairs, hentry⟩ := Routine.exists_disassembly
    (r := (pointerLoad ⟨0, 0x100⟩).withFusion false)
    (P := fun d => d.loadPairs ≠ [] ∧ ∀ p ∈ d.loadPairs, p.2.linear ≠ d.entry.linear)
    (by decide +kernel)
  obtain ⟨d', hd', -⟩ := Routine.exists_disassembly
    (r := (pointerLoad ⟨0, 0x100⟩).withFusion true) (P := fun _ => True) (by decide +kernel)
  obtain ⟨g, h, hg, ha⟩ := exists_annotated hd (by decide)
  obtain ⟨g', h', hg', ha'⟩ := exists_annotated hd' (by decide)
  obtain ⟨-, hall⟩ := fusion_preserves_analysis (r := pointerLoad ⟨0, 0x100⟩) rfl
  obtain ⟨hshape, husage, hkeeps⟩ := hall hd hd' hg hg' ha ha'
  have hkeeps := hkeeps (by decide) (by decide) hentry
  exact ⟨d, d', g, g', h, h', hd, hd', hg, hg', ha, ha', hpairs, hkeeps, hshape, husage hkeeps⟩

/-- An instruction in front of a jump that is followed is alone in its node. -/
theorem FlowGraph.Leads.eq_singleton {d : Disassembly} {g : FlowGraph} {i : Instruction}
    {is : List Instruction} {es : List Nat} (h : Leads d g i is es) (hf : d.isFollowed i = false)
    (hnext : ∀ j, d.find? i.nextLinear = some j → d.isFollowed j = true) : is = [i] := by
  cases h with
  | turn _ _ => rfl
  | jump hf' _ =>
    rw [hf] at hf'
    cases hf'
  | stop _ _ _ => rfl
  | @next _ j _ _ _ _ hj h =>
    have hjump := hnext j hj
    cases h with
    | jump _ _ => rfl
    | turn hf' _ =>
      rw [hjump] at hf'
      cases hf'
    | stop hf' _ _ =>
      rw [hjump] at hf'
      cases hf'
    | next hf' _ _ _ =>
      rw [hjump] at hf'
      cases hf'

/-- At the entry stands an instruction with a given use, in front of a jump that is followed. -/
def Disassembly.EntryUses (d : Disassembly) (u : Usage) : Prop :=
  ∃ i ∈ d.encoded, i.linear = d.entry.linear ∧ d.isFollowed i = false ∧
    (∀ j ∈ d.encoded, j.linear = i.nextLinear → d.isFollowed j = true) ∧
    (Usage.foldList [i]).toOption = some u

instance (d : Disassembly) (u : Usage) : Decidable (d.EntryUses u) :=
  inferInstanceAs (Decidable (∃ i ∈ d.encoded, _))

/-- Such an instruction is all that the node of the entry holds. -/
theorem FlowGraph.usage_of_entry {r : Routine} {d : Disassembly} {g h : FlowGraph} {u : Usage}
    (hd : r.disassemble = .ok d) (hg : build d = some (.ok g)) (ha : g.annotate = .ok h)
    (hi : d.EntryUses u) :
    ∃ id, g.byLinear[d.entry.linear]? = some id ∧ h.nodes[id]?.map Node.usage = some u := by
  obtain ⟨i, hi, hentry, hf, hnext, hu⟩ := hi
  obtain ⟨g₁, hg₁, hreflects⟩ := build_spec (wellFormed_of_disassemble hd) hg
  cases hg₁
  obtain ⟨-, id, -, -, -, hid⟩ := hreflects.start
  obtain ⟨n, j, hn, hj, hleads⟩ := hreflects.node hid
  rw [← hentry, (Routine.find?_iff_mem_encoded hd).2 ⟨hi, rfl⟩] at hj
  cases hj
  have halone := hleads.eq_singleton hf fun j hj =>
    hnext j ((Routine.find?_iff_mem_encoded hd).1 hj).1 (Disassembly.linear_of_find? hj)
  obtain ⟨u', hu', hnode⟩ := (annotates_of_annotate ha).node hn
  rw [halone] at hu'
  rw [hu'] at hu
  cases hu
  exact ⟨id, hid, by rw [hnode]; rfl⟩

/-- **A load is lost if control enters between the two.** The second load is the head of the node of
    the entry, where fusion leaves a `nop`. -/
theorem pointerLoad_loses_load :
    ∃ d d' g g' h h', ((pointerLoad ⟨0, 0x102⟩).withFusion false).disassemble = .ok d ∧
      ((pointerLoad ⟨0, 0x102⟩).withFusion true).disassemble = .ok d' ∧
      build d = some (.ok g) ∧ build d' = some (.ok g') ∧ g.annotate = .ok h ∧
      g'.annotate = .ok h' ∧ h'.nodes.map Node.usage ≠ h.nodes.map Node.usage := by
  obtain ⟨d, hd, hload⟩ := Routine.exists_disassembly
    (r := (pointerLoad ⟨0, 0x102⟩).withFusion false)
    (P := (·.EntryUses (.of [.bl, .bh, .ds] [.dl, .dh]))) (by decide +kernel)
  obtain ⟨d', hd', hnop⟩ := Routine.exists_disassembly
    (r := (pointerLoad ⟨0, 0x102⟩).withFusion true)
    (P := (·.EntryUses {})) (by decide +kernel)
  obtain ⟨g, h, hg, ha⟩ := exists_annotated hd (by decide)
  obtain ⟨g', h', hg', ha'⟩ := exists_annotated hd' (by decide)
  refine ⟨d, d', g, g', h, h', hd, hd', hg, hg', ha, ha', fun hsame => ?_⟩
  obtain rfl := build_withFusion hd hd' hg hg'
  obtain ⟨id, hid, hu⟩ := usage_of_entry hd hg ha hload
  obtain ⟨id', hid', hu'⟩ := usage_of_entry hd' hg' ha' hnop
  rw [(Routine.refits_of_disassemble hd hd').entry, byLinear_refit, hid] at hid'
  cases hid'
  rw [← Array.getElem?_map, hsame, Array.getElem?_map, hu] at hu'
  exact absurd hu' (by decide)

end RealMode
