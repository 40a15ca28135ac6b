import RealMode.Proofs.Disassembly.Guards
import RealMode.Proofs.FlowGraph.Structure
import RealMode.Proofs.TableJump

namespace RealMode

open Dispatch

/-!
# Switches go where their dispatches went

A switch stands for three instructions that are still in the image. Started with the index at a
value in range, they jump to the place that the case of that value leads to.

* `Walk.word?_of_tableWords`, `Walk.case_switchOf` — the words of a table, and the cases made of
  them;
* `FlowGraph.SwitchesTo` — a graph leads from a switch to a node for a value, and
  `FlowGraph.switchesTo_of_build` — a graph that is built does, to where the case leads;
* `BoundsCheck.Original` — the instructions of the image that a check and its switch stand for;
* `switch_goes_where_dispatch_goes` — all of it for the switches of a disassembly.
-/

/-! ### The table of a switch -/

namespace Walk

variable {r : Routine} {m : SwitchMatch} {words : List UInt16}

/-- There is a word of the image for each value in range. -/
theorem word?_of_tableWords {seg : UInt16} (h : tableWords r seg m = .ok words) {v : UInt16}
    (hv : v ≤ m.max) : ∃ word, words[v.toNat]? = some word ∧
      r.image.word? (Address.mk seg (m.table + 2 * v)).linear = some word := by
  have hrange : (List.range m.caseCount)[v.toNat]? = some v.toNat := by
    apply List.getElem?_range
    rw [SwitchMatch.caseCount]
    exact Nat.lt_succ_of_le (UInt16.le_iff_toNat_le.1 hv)
  obtain ⟨word, hword, hread⟩ := getElem?_of_mapM_ok h hrange
  refine ⟨word, hword, ?_⟩
  simp only [UInt16.ofNat_toNat, UInt16.mul_comm v] at hread
  split at hread
  · rename_i word' hslot
    cases hread
    exact hslot
  · cases hread

/-- The case at the position of a value is that of the value, and leads to its word. -/
theorem case_switchOf {v word : UInt16} (hword : words[v.toNat]? = some word)
    (jump : Instruction) (index : Register) :
    ∃ k, (switchOf jump index words).cases[v.toNat]? = some k ∧ k.value = v ∧
      (switchOf jump index words).caseTarget k = ⟨jump.address.seg, word⟩ := by
  refine ⟨⟨v, (word - jump.next.off).toInt16⟩, ?_, rfl, caseTarget_word ..⟩
  rw [cases_switchOf, tableCases, List.getElem?_map, List.getElem?_zipIdx, hword]
  simp

end Walk

/-! ### The node of a switch -/

namespace FlowGraph

variable {r : Routine} {d : Disassembly} {g : FlowGraph} {s : Instruction}

/-- A switch has a node, and the edge for a value leads to the node at a place. -/
def SwitchesTo (g : FlowGraph) (s : Instruction) (v : UInt16) (a : Address) : Prop :=
  ∃ id n e target, g.byLinear[s.linear]? = some id ∧ g.nodes[id]? = some n ∧ n.kind = .switch ∧
    n.instructions = [s] ∧ n.cases[v.toNat]? = some v ∧ n.edges[v.toNat]? = some e ∧
    g.nodes[e]? = some target ∧ target.linear = a.linear

/-- A switch is the first instruction of its node, so the node is named by it. -/
theorem exists_node_of_switch (htemplates : r.templates = SwitchTemplate.standard)
    (hd : r.disassemble = .ok d) (hg : build d = some (.ok g)) (hs : s ∈ d.encoded)
    (hm : s.mnemonic = .switch) : ∃ id, g.byLinear[s.linear]? = some id := by
  have hfold : SwitchTemplate.FoldStraight r.templates :=
    htemplates ▸ SwitchTemplate.foldStraight_standard
  have hlaid := laid_of_build hfold hd hg
  have hheld : s ∈ g.contents := by
    rw [mem_contents_of_build hfold hd hg]
    exact ⟨(Routine.find?_iff_mem_encoded hd).2 ⟨hs, rfl⟩,
      Disassembly.isFollowed_of_not_isJump (by rw [hm]; rfl)⟩
  obtain ⟨id, hid⟩ := mem_contents_iff.1 hheld
  obtain ⟨p, hp⟩ := List.mem_iff_getElem?.1 hid
  obtain ⟨i, es, hname, -, hleads⟩ := hlaid.built.reflects.leads (List.ne_nil_of_mem hid)
  cases p with
  | zero =>
    rw [← hleads.head? hp] at hname
    exact ⟨id, hname⟩
  | succ p =>
    -- What is behind another instruction in a node is no switch.
    obtain ⟨n, -, hn, -⟩ := hlaid.built.indexed.named hname
    obtain ⟨j, -, hjoined⟩ := hlaid.joined_of_getElem? (hlaid.le_of_node hn) hp
    have hkind := hjoined.nextKind
    rw [NodeKind.ofInstruction, if_pos hm] at hkind
    cases hkind

/-- **A graph leads from a switch to the nodes where its cases lead.** -/
theorem switchesTo_of_build (htemplates : r.templates = SwitchTemplate.standard)
    (hd : r.disassemble = .ok d) (hg : build d = some (.ok g)) (hs : s ∈ d.encoded)
    (hm : s.mnemonic = .switch) {v : UInt16} {k : SwitchCase} (hk : s.cases[v.toNat]? = some k)
    (hv : k.value = v) : g.SwitchesTo s v (s.caseTarget k) := by
  have horder := (raised_of_build hg).inOrder
  have hfound : d.find? s.linear = some s := (Routine.find?_iff_mem_encoded hd).2 ⟨hs, rfl⟩
  obtain ⟨id, hid⟩ := exists_node_of_switch htemplates hd hg hs hm
  obtain ⟨n, hn, hlinear, hstart, hstop⟩ := horder.named.1 hid
  have hkind : n.kind = .switch := by
    obtain ⟨i, hi, hkind⟩ := horder.kind hn hstart hstop
    rw [hlinear, hfound] at hi
    cases hi
    rw [hkind, NodeKind.ofInstruction, if_pos hm]
  obtain ⟨i, hi, hinstructions, hcases, -, hnames⟩ := horder.switch hn hkind
  rw [hlinear, hfound] at hi
  cases hi
  have hplace : (s.cases.map fun c => (s.caseTarget c).linear)[v.toNat]? =
      some (s.caseTarget k).linear := by
    rw [List.getElem?_map, hk, Option.map_some]
  obtain ⟨e, he, hname⟩ := exists_getElem?_of_forall₂ hnames hplace
  obtain ⟨target, htarget, hplace, -⟩ := horder.named.1 hname
  refine ⟨id, n, e, target, hid, hn, hkind, hinstructions, ?_, he, htarget, hplace⟩
  rw [hcases, List.getElem?_map, hk, Option.map_some, hv]

end FlowGraph

/-! ### The dispatch behind a switch -/

/-- The image has a comparison and a dispatch where the check has its comparison, two instructions
    without effect and the switch. -/
structure BoundsCheck.Original (c : BoundsCheck) (r : Routine) (base : Register)
    (place : MemoryOperand) (add xchg jump : Instruction) : Prop where
  compare : r.decodeAt c.compare.address = .ok c.compare
  first : r.decodeAt c.first.address = .ok add
  second : r.decodeAt c.second.address = .ok xchg
  switch : r.decodeAt c.switch.address = .ok jump
  scaled : Scaled c.index base place add xchg jump

/-- **A switch goes where its dispatch went**, with the standard templates. It has a word register
    for its index and the cases from zero to the bound that the index is compared with, no more than
    the limit. The image has an `add`, an `xchg` and a jump where the switch was recovered: for each
    value in range they go from any registers with that value of the index to the place that the
    case of the value leads to, which is a word of the table. In a flow graph, the edge for the
    value leads there too. -/
theorem switch_goes_where_dispatch_goes {r : Routine} {d : Disassembly} {s : Instruction}
    (htemplates : r.templates = SwitchTemplate.standard) (hd : r.disassemble = .ok d)
    (hs : s ∈ d.encoded) (hm : s.mnemonic = .switch) :
    ∃ c : BoundsCheck, c.In d ∧ c.switch = s ∧
      c.bound.toNat + 1 ≤ r.options.maxCases.toNat ∧
      ∃ base place add xchg jump, c.Original r base place add xchg jump ∧
        ∀ v ≤ c.bound, ∃ k word, s.cases[v.toNat]? = some k ∧ k.value = v ∧
          s.caseTarget k = ⟨s.address.seg, word⟩ ∧
          r.image.word? (Address.mk s.address.seg (place.disp + 2 * v)).linear = some word ∧
          (∀ σ : RegisterFile, σ.get c.index = v →
            goesTo? r.image add xchg jump σ = some ⟨s.address.seg, word⟩) ∧
          ∀ g, FlowGraph.build d = some (.ok g) → g.SwitchesTo s v (s.caseTarget k) := by
  obtain ⟨w, hw⟩ := Routine.finished_of_disassemble hd
  obtain ⟨m, words, compare, guard, add, xchg, jump, hrec⟩ :=
    hw.exists_recovers htemplates hd hs hm
  -- The base of the jump is not told by the match, but by its instructions.
  obtain ⟨base, place, hscaled, hdisp⟩ := exists_scaled hrec.recognized.scaled
  have hin := hrec.boundsCheck hw hd hs
  -- The switch stands where the jump stood.
  have hsame : s.address = jump.address := by
    rw [hrec.switch]
    rfl
  refine ⟨checkOf m compare guard add xchg s, hin, rfl, hrec.limit, base, place, add, xchg, jump,
    ⟨?_, ?_, ?_, ?_, hscaled⟩, fun v hv => ?_⟩
  · exact hrec.decoded compare (by simp)
  · exact hrec.decoded add (by simp)
  · exact hrec.decoded xchg (by simp)
  · show r.decodeAt s.address = .ok jump
    rw [hsame]
    exact hrec.decoded jump (by simp)
  · -- The word of the table is one and the same for the case, for the jump and for the edge.
    obtain ⟨word, hword, hread⟩ := Walk.word?_of_tableWords hrec.table hv
    obtain ⟨k, hk, hvalue, htarget⟩ := Walk.case_switchOf hword jump m.index
    rw [← hrec.switch] at hk htarget
    rw [← hdisp] at hread
    rw [hsame]
    refine ⟨k, word, hk, hvalue, htarget, hread, fun σ hσ => ?_, fun g hg =>
      FlowGraph.switchesTo_of_build htemplates hd hg hs hm hk hvalue⟩
    have hindex : σ.get m.index = v := hσ
    rw [hscaled.goesTo?_eq, hindex, hread, Option.map_some]

/-- With one in the index, the dispatch of the chooser goes to the second case of its switch. -/
theorem switch_goes_where_dispatch_goes_chooser :
    ∃ d, chooser.disassemble = .ok d ∧ ∃ s ∈ d.encoded, s.mnemonic = .switch ∧
      s.cases.map s.caseTarget = [⟨0, 0x100⟩, ⟨0, 0x113⟩] ∧
      ∃ c : BoundsCheck, c.In d ∧ c.switch = s ∧ c.bound = 1 ∧
        ∃ base place add xchg jump, c.Original chooser base place add xchg jump ∧
          ∀ σ : RegisterFile, σ.get c.index = 1 →
            goesTo? chooser.image add xchg jump σ = some ⟨0, 0x113⟩ := by
  obtain ⟨d, hd, s, hs, hm, htargets⟩ := Routine.exists_disassembly (r := chooser)
    (P := fun d => ∃ s ∈ d.find? 0x10A, s.mnemonic = .switch ∧
      s.cases.map s.caseTarget = [⟨0, 0x100⟩, ⟨0, 0x113⟩])
    (by decide +kernel)
  have hencoded : s ∈ d.encoded := ((Routine.find?_iff_mem_encoded hd).1 hs).1
  obtain ⟨c, hin, hswitch, -, base, place, add, xchg, jump, horiginal, hgoes⟩ :=
    switch_goes_where_dispatch_goes (r := chooser) rfl hd hencoded hm
  have hbound : c.bound = 1 := by
    have hlength := congrArg List.length hin.cases
    have hcases := congrArg List.length htargets
    rw [List.length_map] at hcases
    rw [hswitch, List.length_map, List.length_map, List.length_range, hcases] at hlength
    rw [← UInt16.toNat_inj]
    exact (Nat.succ.inj hlength).symm
  refine ⟨d, hd, s, hencoded, hm, htargets, c, hin, hswitch, hbound, base, place, add, xchg, jump,
    horiginal, fun σ hσ => ?_⟩
  obtain ⟨k, word, hk, -, htarget, -, hdispatch, -⟩ := hgoes 1 (by rw [hbound]; decide)
  have hsecond : some (s.caseTarget k) = some ⟨0, 0x113⟩ := by
    have hmap := congrArg (·[1]?) htargets
    simp only [List.getElem?_map] at hmap
    change Option.map s.caseTarget s.cases[(1 : UInt16).toNat]? = _ at hmap
    rw [hk] at hmap
    exact hmap
  rw [hdispatch σ hσ, ← htarget, hsecond]

end RealMode
