import RealMode.Proofs.FlowGraph.Termination

namespace RealMode

/-!
# A graph that is never finished

One byte more than a segment is enough: `nop` at the entry, and behind it a ring of
`add al, 4` that fills the segment and comes back to the first of them. Nothing branches,
so no place but the entry begins a node, and the ring is entered by falling through.

* `Ring.routine` — that function, `Ring.link` — its instructions, one after another;
* `Ring.disassemble_routine` — it is disassembled without fail, and `Ring.circles` — the block
  at its entry is walked for ever;
* `build_ends_iff` — when the graph of a function is finished.
-/

namespace Ring

/-- A `nop`, and as many bytes `04` as a segment has. -/
def bytes : List UInt8 := 0x90 :: List.replicate 65536 0x04

/-- The function at the start of the bytes. -/
def routine : Routine where
  image := .ofBytes bytes ⟨0, 0⟩ ⟨0, 0⟩
  entry := ⟨0, 0⟩

/-- The number of instructions. -/
def size : Nat := 32769

/-- The place of the instruction with number `k`: zero, one, three, five and so on. -/
def place (k : Nat) : Nat := 2 * k - 1

def address (k : Nat) : Address := ⟨0, UInt16.ofNat (place k)⟩

/-- The instruction with number `k`. -/
def link (k : Nat) : Instruction :=
  if k = 0 then { address := address k, mnemonic := .nop, width := .word, length := 1 }
  else
    { address := address k
      mnemonic := .add
      operands := [.register .al, .imm8 0x04]
      width := .byte
      length := 2 }

/-- The number of the instruction behind the one with number `k`. -/
def behind (k : Nat) : Nat := if k + 1 = size then 1 else k + 1

/-! ### The instructions -/

theorem length_bytes : bytes.length = 65537 := by
  rw [bytes, List.length_cons, List.length_replicate]

/-- The bytes are loaded at the bottom of memory, so a place in the first segment is its own
    offset. -/
theorem base_image : routine.image.base = 0 := rfl

theorem bytes_image : routine.image.memory.bytes = bytes := rfl

/-- Each of the places fits into the segment. The addresses are offsets of 16 bits, and no place is
    cut off by that. -/
theorem linear_address {k : Nat} (hk : k < size) : (address k).linear = place k := by
  have hsmall : place k < 65536 := by
    simp only [place, size] at hk ⊢
    omega
  show (0 : UInt16).toNat * 16 + (UInt16.ofNat (place k)).toNat = place k
  rw [UInt16.toNat_ofNat_of_lt' hsmall]
  simp

theorem linear_link {k : Nat} (hk : k < size) : (link k).linear = place k := by
  rw [← linear_address hk]
  unfold link
  split <;> rfl

/-- Different instructions are at different places. Subtraction stops at zero, and only the first
    place uses that. -/
theorem place_inj {j k : Nat} (h : place j = place k) : j = k := by
  simp only [place] at h
  omega

theorem mnemonic_link (k : Nat) : (link k).mnemonic = .nop ∨ (link k).mnemonic = .add := by
  unfold link
  split
  · exact .inl rfl
  · exact .inr rfl

theorem behind_lt {k : Nat} (hk : k < size) : behind k < size := by
  unfold behind
  split
  · decide
  · omega

/-- Nothing leads back to the `nop` at the entry, so the ring goes around without it. -/
theorem behind_pos (k : Nat) : 0 < behind k := by
  unfold behind
  split
  · exact Nat.one_pos
  · exact Nat.succ_pos k

/-- Each instruction is followed by the next, and the last by the first of the ring: its second byte
    is the last of the segment, so the offset behind wraps around. -/
theorem next_link {k : Nat} (hk : k < size) : (link k).next = address (behind k) := by
  by_cases hzero : k = 0
  · subst hzero
    rfl
  · have hoff : UInt16.ofNat (place k) + 2 = UInt16.ofNat (place (behind k)) := by
      rw [← UInt16.toNat_inj, UInt16.toNat_add, UInt16.toNat_ofNat', UInt16.toNat_ofNat']
      show (place k % 65536 + 2) % 65536 = place (behind k) % 65536
      -- Two bytes further, and from the end of the segment to its second byte.
      unfold behind
      split
      · rename_i hlast
        simp only [place, size] at hlast ⊢
        omega
      · simp only [place]
        omega
    rw [link, if_neg hzero]
    show (⟨0, UInt16.ofNat (place k) + 2⟩ : Address) = ⟨0, UInt16.ofNat (place (behind k))⟩
    rw [hoff]

theorem nextLinear_link {k : Nat} (hk : k < size) : (link k).nextLinear = place (behind k) := by
  rw [Instruction.nextLinear, next_link hk, linear_address (behind_lt hk)]

/-- The bytes decode to the instructions. The bytes at a place are never listed one by one: all
    behind the first are equal. -/
theorem decodeAt_address {k : Nat} (hk : k < size) :
    routine.decodeAt (address k) = .ok (link k) := by
  have hsmall : place k < bytes.length := by
    rw [length_bytes]
    simp only [place, size] at hk ⊢
    omega
  have hbytes : routine.image.bytesFrom? (place k) = some (bytes.drop (place k)) := by
    have hin : routine.image.contains (place k) = true := by
      rw [Image.contains, Image.top, base_image, Memory.size_eq, bytes_image, Bool.and_eq_true,
        decide_eq_true_eq, decide_eq_true_eq, Nat.zero_add]
      exact ⟨Nat.zero_le _, hsmall⟩
    rw [Image.bytesFrom?, if_pos hin, base_image, Memory.suffix?_eq, bytes_image, Nat.sub_zero,
      if_pos hsmall]
  rw [Routine.decodeAt, linear_address hk, hbytes]
  cases k with
  | zero => rfl
  | succ k =>
    have hdrop : bytes.drop (place (k + 1)) =
        0x04 :: 0x04 :: List.replicate (65534 - 2 * k) 0x04 := by
      have hplace : place (k + 1) = 2 * k + 1 := by
        simp only [place]
        omega
      have hleft : 65536 - 2 * k = 65534 - 2 * k + 1 + 1 := by
        simp only [size] at hk
        omega
      rw [bytes, hplace, List.drop_succ_cons, List.drop_replicate, hleft, List.replicate_succ,
        List.replicate_succ]
    rw [hdrop]
    rfl

/-! ### Walking around the ring -/

/-- The first `k` instructions. -/
def table : Nat → AddressMap Instruction
  | 0 => ∅
  | k + 1 => (table k).insert (place k) (link k)

/-- What the table of the first `k` instructions holds, and under which places. -/
theorem getElem?_table (k a : Nat) (i : Instruction) :
    (table k)[a]? = some i ↔ ∃ j < k, place j = a ∧ link j = i := by
  induction k with
  | zero =>
    rw [table, Std.ExtTreeMap.getElem?_empty]
    constructor
    · intro h
      cases h
    · rintro ⟨j, hj, -⟩
      exact absurd hj (Nat.not_lt_zero j)
  | succ k ih =>
    rw [table, AddressMap.getElem?_insert]
    split
    · rename_i ha
      constructor
      · intro h
        exact ⟨k, Nat.lt_succ_self k, ha, Option.some.inj h⟩
      · rintro ⟨j, -, hj, hi⟩
        rw [place_inj (ha.trans hj.symm), hi]
    · rename_i ha
      rw [ih]
      constructor
      · rintro ⟨j, hj, hrest⟩
        exact ⟨j, Nat.lt_succ_of_lt hj, hrest⟩
      · rintro ⟨j, hj, hplace, hlink⟩
        have hne : j ≠ k := fun he => ha (he ▸ hplace)
        exact ⟨j, by omega, hplace, hlink⟩

/-- The table knows the place of an instruction exactly if it is one of the first `k`. -/
theorem contains_table (k j : Nat) : (table k).contains (place j) = true ↔ j < k := by
  rw [AddressMap.contains_iff_exists]
  constructor
  · rintro ⟨i, hi⟩
    obtain ⟨j', hj', hplace, -⟩ := (getElem?_table k _ i).1 hi
    exact place_inj hplace ▸ hj'
  · intro hj
    exact ⟨link j, (getElem?_table k _ _).2 ⟨j, hj, rfl, rfl⟩⟩

/-- The table has one entry for each instruction put into it, as their places differ. -/
theorem size_table (k : Nat) : (table k).size = k := by
  induction k with
  | zero => exact Std.ExtTreeMap.size_empty
  | succ k ih =>
    have hnew : ¬ (table k).contains (place k) = true := by
      rw [contains_table]
      exact Nat.lt_irrefl k
    rw [table, Std.ExtTreeMap.size_insert, if_neg hnew, ih]

/-- A value found below a place is one of the table, whatever the search passed on its way. -/
theorem mem_of_nearestBelow? {α : Type} {m : AddressMap α} {reach linear : Nat} {v : α}
    (h : Walk.nearestBelow? m reach linear = some v) : ∃ a : Nat, m[a]? = some v := by
  induction reach generalizing linear with
  | zero => cases h
  | succ reach ih =>
    cases linear with
    | zero => cases h
    | succ linear =>
      rw [Walk.nearestBelow?] at h
      split at h
      · rename_i v' hv
        cases h
        exact ⟨linear, hv⟩
      · exact ih h

/-- The state of the walk with the first `k` instructions decoded. -/
def state (cursor : Option Cursor) (k : Nat) : Walk := { cursor, decoded := table k }

-- Stated for every `k`, so that nothing ever computes the table of all instructions.
theorem decoded_state (cursor : Option Cursor) (k : Nat) : (state cursor k).decoded = table k := rfl

theorem labels_state (cursor : Option Cursor) (k a : Nat) :
    (state cursor k).labels.contains a = false := rfl

theorem exits_state (cursor : Option Cursor) (k a : Nat) :
    (state cursor k).exits.contains a = false := rfl

/-- No instruction shares bytes with those before it: each begins where the one before ends. -/
theorem overlaps_link {k : Nat} (hk : k < size) (cursor : Option Cursor) :
    (state cursor k).overlaps (link k) = false := by
  -- The nearest one below ends where this one begins.
  have hcovered : Walk.isCovered (table k) (place k) = false := by
    unfold Walk.isCovered
    split
    · rename_i i hi
      obtain ⟨a, ha⟩ := mem_of_nearestBelow? hi
      obtain ⟨j, hj, -, rfl⟩ := (getElem?_table k a i).1 ha
      have hbehind : behind j = j + 1 := by
        rw [behind, if_neg (by omega)]
      rw [nextLinear_link (by omega), hbehind, decide_eq_false_iff_not]
      simp only [place]
      omega
    · rfl
  -- All others begin below.
  have hcovers (n : Nat) : Walk.covers (table k) (place k) n = false := by
    rw [Walk.covers, List.any_eq_false]
    intro a ha hold
    rw [List.mem_range'_1] at ha
    obtain ⟨i, hi⟩ := (AddressMap.contains_iff_exists _ _).1 hold
    obtain ⟨j, hj, hplace, -⟩ := (getElem?_table k a i).1 hi
    simp only [place] at ha hplace
    omega
  rw [Walk.overlaps, linear_link hk]
  show (Walk.isCovered (table k) (place k) || Walk.covers (table k) (place k) _) = false
  rw [hcovered, hcovers, Bool.or_false]

/-- Control goes straight on behind each instruction, and nothing else is noted. -/
theorem goOn_link (w : Walk) (k : Nat) (ah : Option UInt8) :
    w.goOn routine (link k) ah = { w with cursor := some ⟨(link k).next, ah⟩ } := by
  have hexit : routine.isExit (link k) ah = false := by
    have hvector : (link k).vector? = none := by
      rcases mnemonic_link k with hm | hm <;> simp [Instruction.vector?, hm]
    rw [Routine.isExit, hvector]
  rcases mnemonic_link k with hm | hm
  · simp [Walk.goOn, hm, hexit, Mnemonic.isJump, Mnemonic.isConditionalBranch, Mnemonic.isReturn,
      Mnemonic.isCall]
  · simp [Walk.goOn, hm, hexit, Mnemonic.isJump, Mnemonic.isConditionalBranch, Mnemonic.isReturn,
      Mnemonic.isCall]

theorem ahAfter_link (k : Nat) : (link k).ahAfter none = none := by
  have hloads : (link k).loadsAh? = none := by
    rcases mnemonic_link k with hm | hm <;> simp [Instruction.loadsAh?, hm]
  rw [Instruction.ahAfter, hloads]
  simp only
  split
  · split <;> rfl
  · rfl

/-- At the place of an instruction that is new, the walk decodes it: the limit is not reached, and
    nothing overlaps. -/
theorem decodes_link {k : Nat} (hk : k < size) :
    Walk.Decodes routine (state (some ⟨address k, none⟩) k) ⟨address k, none⟩ (link k) where
  cursor := rfl
  new := by
    rw [Bool.eq_false_iff]
    show ¬ (table k).contains (address k).linear = true
    rw [linear_address hk, contains_table]
    exact Nat.lt_irrefl k
  room := by
    show (table k).size < 65536
    rw [size_table]
    simp only [size] at hk
    omega
  decodeAt := decodeAt_address hk
  clear := overlaps_link hk _

/-- One step of the walk takes up one instruction and moves on to the next. -/
theorem step?_link {k : Nat} (hk : k < size) :
    (state (some ⟨address k, none⟩) k).step? routine =
      some (.ok (state (some ⟨address (behind k), none⟩) (k + 1))) := by
  rw [Walk.step?_of_decodes (decodes_link hk), goOn_link, ahAfter_link, next_link hk,
    linear_address hk]
  rfl

/-- Behind the last instruction the walk comes to one that it knows, where its run ends. No other
    run waits. -/
theorem step?_around :
    (state (some ⟨address 1, none⟩) size).step? routine = some (.ok (state none size)) := by
  have hold : (table size).contains (address 1).linear = true := by
    rw [linear_address (by decide), contains_table]
    decide
  show some ((state (some ⟨address 1, none⟩) size).visit routine ⟨address 1, none⟩) = _
  rw [Walk.visit]
  exact congrArg some (if_pos hold)

/-- **The walk goes once around the ring**, in as many steps as there are instructions and one more.
    The induction is on the instructions taken up so far. -/
theorem walk_routine : routine.walk = .ok (state none size) := by
  have hrun {k : Nat} (hk : k < size) :
      Walk.run routine { queue := Worklist.push {} routine.entry } =
        Walk.run routine (state (some ⟨address k, none⟩) k) := by
    induction k with
    | zero =>
      exact Walk.run_of_step? rfl
    | succ k ih =>
      have hbehind : behind k = k + 1 := by
        rw [behind, if_neg (by omega)]
      rw [ih (by omega), Walk.run_of_step? (step?_link (by omega)), hbehind]
  have hin : routine.image.contains routine.entry.linear = true := by
    rw [Image.contains, Image.top, base_image, Memory.size_eq, bytes_image, length_bytes]
    decide
  rw [Routine.walk, if_pos hin, hrun (show size - 1 < size by decide),
    Walk.run_of_step? (step?_link (by decide))]
  show Walk.run routine (state (some ⟨address 1, none⟩) size) = _
  rw [Walk.run_of_step? step?_around, Walk.run_of_done rfl]

/-! ### The disassembly -/

/-- Control falls from each instruction to another one, so the final check finds nothing amiss. -/
theorem unresolvedFlow?_state : (state none size).unresolvedFlow? = none := by
  have hfall : (state none size).brokenFall? = none := by
    rw [Walk.brokenFall?, Option.map_eq_none_iff, List.find?_eq_none]
    intro i hi
    obtain ⟨a, ha⟩ := (AddressMap.mem_items_iff _).1 hi
    obtain ⟨j, hj, -, rfl⟩ := (getElem?_table size a i).1 ha
    have hnext : (table size).contains (link j).nextLinear = true := by
      rw [nextLinear_link hj, contains_table]
      exact behind_lt hj
    show ¬ ((state none size).fallsThrough (link j) &&
      !(table size).contains (link j).nextLinear) = true
    rw [hnext, Bool.not_true, Bool.and_false]
    exact Bool.false_ne_true
  rw [Walk.unresolvedFlow?, hfall]
  rfl

/-- What the disassembly holds: the instructions, and nothing that would end a block. -/
structure Shown (d : Disassembly) : Prop where
  entry : d.entry = address 0
  found : ∀ {k : Nat}, k < size → d.find? (place k) = some (link k)
  isLabel : ∀ a, d.isLabel a = false
  isExit : ∀ a, d.isExit a = false

/-- **The function is disassembled without fail**, and shows its instructions as they were decoded:
    fusion changes loads only, and there are none. -/
theorem disassemble_routine : ∃ d, routine.disassemble = .ok d ∧ Shown d := by
  obtain ⟨d, hfinish⟩ := Walk.exists_finish (r := routine) unresolvedFlow?_state
  have hd : routine.disassemble = .ok d := Routine.disassemble_of_walk walk_routine hfinish
  have hfinished := Walk.finished_of_finish walk_routine hfinish
  refine ⟨d, hd, ⟨hfinished.entry, ?_, ?_, ?_⟩⟩
  · intro k hk
    have hdecoded : (state none size).decoded[place k]? = some (link k) := by
      rw [decoded_state, getElem?_table]
      exact ⟨k, hk, rfl, rfl⟩
    obtain ⟨i, hi, hfused⟩ := hfinished.shows.shown hdecoded
    -- Fusion changes loads only.
    rcases hfused with rfl | ⟨-, -, hmov, -⟩
    · exact hi
    · rcases mnemonic_link k with hm | hm <;> rw [hm] at hmov <;> cases hmov
  · intro a
    rw [Disassembly.isLabel, hfinished.labels, labels_state]
  · intro a
    rw [Disassembly.isExit, hfinished.exits, exits_state]

/-! ### The block at the entry -/

variable {d : Disassembly} {g : FlowGraph}

/-- From each instruction the walk of a block goes to the next, as long as only the entry begins a
    node. -/
theorem onward?_link (h : Shown d) (hnodes : ∀ a, g.byLinear.contains a = true → a = 0) {k : Nat}
    (hk : k < size) : FlowGraph.onward? d g (link k) = some (link (behind k)) := by
  have hgo : ((link k).mnemonic.isJump || ((link k).mnemonic.isReturn ||
      d.isExit (link k).linear)) = false := by
    rw [h.isExit]
    rcases mnemonic_link k with hm | hm <;> rw [hm] <;> rfl
  have hstarts : FlowGraph.startsNode d g (link (behind k)) = false := by
    have hnode : g.byLinear.contains (link (behind k)).linear = false := by
      rw [Bool.eq_false_iff, linear_link (behind_lt hk)]
      intro hold
      have hzero := hnodes _ hold
      have hpos := behind_pos k
      simp only [place] at hzero
      omega
    have hkind : NodeKind.ofInstruction (link (behind k)) = .block := by
      rcases mnemonic_link (behind k) with hm | hm <;> rw [NodeKind.ofInstruction, hm] <;> rfl
    rw [FlowGraph.startsNode, h.isLabel, hnode, hkind]
    rfl
  rw [FlowGraph.onward?, hgo, if_neg Bool.false_ne_true, nextLinear_link hk,
    h.found (behind_lt hk), Option.filter_some, hstarts]
  rfl

/-- The walk of the block at the entry goes from one instruction to the next, once around. -/
theorem visited?_link (h : Shown d) (hnodes : ∀ a, g.byLinear.contains a = true → a = 0) {k : Nat}
    (hk : k < size) : FlowGraph.visited? d g (link 0) k = some (link k) := by
  induction k with
  | zero => rfl
  | succ k ih =>
    have hbehind : behind k = k + 1 := by
      rw [behind, if_neg (by omega)]
    rw [FlowGraph.visited?, ih (by omega), Option.bind_some, onward?_link h hnodes (by omega),
      hbehind]

/-- **The block at the entry is walked for ever**: behind the last instruction its walk is at the
    first of the ring again. No node is made on the way, so nothing stops it. -/
theorem circles (h : Shown d) : FlowGraph.Circles d := by
  have hlinear : d.entry.linear = place 0 := by
    rw [h.entry]
    exact linear_address (by decide)
  have hentry : d.find? d.entry.linear = some (link 0) := by
    rw [hlinear]
    exact h.found (by decide)
  obtain ⟨g, hstarted, hnode, hby⟩ : ∃ g, FlowGraph.started d = .ok g ∧
      g.nodes[1]? = some { kind := .block, linear := d.entry.linear } ∧
      g.byLinear = (∅ : AddressMap Nat).insert d.entry.linear 1 :=
    ⟨_, FlowGraph.started_eq hentry, rfl, rfl⟩
  have hfilled : FlowGraph.filledTo d 0 = some (.ok g) := by
    rw [FlowGraph.filledTo_zero, hstarted]
  refine ⟨0, Nat.zero_le _, g, _, link 0, hfilled, hnode, rfl, hentry, ?_⟩
  have hnodes (a : Nat) (ha : g.byLinear.contains a = true) : a = 0 := by
    obtain ⟨id, hid⟩ := (AddressMap.contains_iff_exists _ _).1 ha
    rw [hby, AddressMap.getElem?_insert, Std.ExtTreeMap.getElem?_empty] at hid
    split at hid
    · rename_i he
      rw [← he, hlinear]
      rfl
    · cases hid
  have hlast := visited?_link h hnodes (show size - 1 < size by decide)
  have hagain : FlowGraph.visited? d g (link 0) size = some (link 1) := by
    show (FlowGraph.visited? d g (link 0) (size - 1)).bind _ = _
    rw [hlast, Option.bind_some, onward?_link h hnodes (by decide)]
    rfl
  exact ⟨1, size, link 1, link 1, by decide, visited?_link h hnodes (by decide), hagain, rfl⟩

/-- The image is one byte too long for `build_ends_iff` to promise an end. -/
theorem size_image : routine.image.memory.size = segmentSize + 1 := by
  rw [Memory.size_eq, bytes_image, length_bytes]
  rfl

end Ring

/-! ### When graphs are finished -/

/-- **The graph of a function is finished exactly if no block comes to a place twice** while it is
    built, and that takes an image of more than one segment. In a smaller one, a walk that goes
    around for ever would come to the entry, where a node begins. -/
theorem build_ends_iff {r : Routine} {d : Disassembly} (hd : r.disassemble = .ok d) :
    ((∃ g, FlowGraph.build d = some (.ok g)) ↔ ¬ FlowGraph.Circles d) ∧
      (r.image.memory.size ≤ segmentSize → ¬ FlowGraph.Circles d) := by
  refine ⟨⟨?_, ?_⟩, FlowGraph.not_circles_of_size_le hd⟩
  · rintro ⟨g, hg⟩ hcircles
    rw [(FlowGraph.build_eq_none_iff_circles d).2 hcircles] at hg
    cases hg
  · intro hno
    cases hbuild : FlowGraph.build d with
    | none => exact absurd ((FlowGraph.build_eq_none_iff_circles d).1 hbuild) hno
    | some res =>
      obtain ⟨g, rfl, -⟩ := FlowGraph.build_spec (wellFormed_of_disassemble hd) hbuild
      exact ⟨g, rfl⟩

/-- The graph of the countdown is finished, though its code has a loop: a branch closes it, and a
    branch is no part of a block. -/
theorem build_ends_countdown :
    ∃ d g, countdown.disassemble = .ok d ∧ FlowGraph.build d = some (.ok g) ∧
      ¬ FlowGraph.Circles d := by
  obtain ⟨d, g, hd, hg⟩ := exists_graph_countdown
  exact ⟨d, g, hd, hg, (build_ends_iff hd).1.1 ⟨g, hg⟩⟩

/-- One byte more than a segment is enough for a graph that is never finished, so the bound is the
    best there is. -/
theorem build_ring_never_ends :
    Ring.routine.image.memory.size = segmentSize + 1 ∧
      ∃ d, Ring.routine.disassemble = .ok d ∧ FlowGraph.Circles d ∧ FlowGraph.build d = none := by
  obtain ⟨d, hd, hshown⟩ := Ring.disassemble_routine
  have hcircles := Ring.circles hshown
  exact ⟨Ring.size_image, d, hd, hcircles, (FlowGraph.build_eq_none_iff_circles d).2 hcircles⟩

end RealMode
