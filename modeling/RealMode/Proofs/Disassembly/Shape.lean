import RealMode.Proofs.Walk.Effort

namespace RealMode

/-!
# The shape of a disassembly

The instructions of a disassembly are those of the image, in order, each at its place and of its
length, though recovery may have put another operation in the place of the decoded one.

* `Instruction.Rewrite` — one such replacement, a chain of them if templates work on what others
  have left;
* `Walk.Rewritten` — every instruction of a walk is a decoded one or a rewriting of it, and
  `Walk.rewritten_of_move` — every move keeps that;
* `Walk.target?_entryJump` — the jump in front of a listing leads to the entry;
* `Disassembly.position?_iff` — positions are those of the encoded instructions;
* `wellShaped_of_disassemble` — all of it together.
-/

/-! ### Rewritings -/

namespace Instruction

/-- The bytes of an instruction are seen as another operation. -/
inductive Rewrite (i : Instruction) : Instruction → Prop
  | nop : Rewrite i i.neutralized
  | switch (index : Register) (cs : List SwitchCase) :
    Rewrite i { i.withOperation .switch (.register index :: cs.map .case) with width := .word }
  | load (high low : Register) (m : MemoryOperand) :
    Rewrite i { i.withOperation .words2dword [.register high, .register low, .memory m] with
      width := .dword }

variable {i j : Instruction}

/-- A rewriting stays where it is, and as long as it is, so displacements keep their meaning. -/
theorem Rewrite.shape (h : Rewrite j i) : i.address = j.address ∧ i.length = j.length := by
  cases h <;> exact ⟨rfl, rfl⟩

/-- A rewriting makes one of three operations: one without effect, a switch, or a double load. -/
theorem Rewrite.mnemonic (h : Rewrite j i) : i.mnemonic ∈ [.nop, .switch, .words2dword] := by
  cases h <;> simp [withOperation, neutralized]

/-- So does a chain of rewritings, however long. -/
theorem shape_of_rewrites (h : Relation.ReflTransGen Rewrite j i) :
    i.address = j.address ∧ i.length = j.length := by
  induction h with
  | refl => exact ⟨rfl, rfl⟩
  | tail _ hlast ih => exact ⟨hlast.shape.1.trans ih.1, hlast.shape.2.trans ih.2⟩

/-- What is rewritten is another operation, by its last rewriting; or nothing was rewritten. -/
theorem cases_of_rewrites (h : Relation.ReflTransGen Rewrite j i) :
    i = j ∨ i.mnemonic ∈ [.nop, .switch, .words2dword] ∧ Relation.TransGen Rewrite j i := by
  rcases Relation.reflTransGen_iff_eq_or_transGen.1 h with rfl | hchain
  · exact .inl rfl
  · obtain ⟨k, -, hlast⟩ := Relation.TransGen.tail'_iff.1 hchain
    exact .inr ⟨hlast.mnemonic, hchain⟩

end Instruction

open Instruction (Rewrite)

/-- The switch in the place of a jump is a rewriting of it. -/
theorem Walk.rewrite_switchOf (jump : Instruction) (index : Register) (words : List UInt16) :
    Rewrite jump (switchOf jump index words) := by
  have hsame : switchOf jump index words = { jump.withOperation .switch
      (.register index :: (tableCases jump words).map .case) with width := .word } := by
    rw [← operands_switchOf]
    rfl
  rw [hsame]
  exact .switch index _

namespace Fusion

/-- Of a fused pair, the first load becomes a double load, and the second one an operation without
    effect. -/
theorem rewrites_of_pair? {labels : AddressSet} {a b a' b' : Instruction}
    (h : pair? labels a b = some (a', b')) : Rewrite a a' ∧ Rewrite b b' := by
  obtain ⟨lo, hi, m, n, -, -, -, -, -, rfl, rfl⟩ := pair?_cases h
  exact ⟨.load hi lo _, .nop⟩

/-- Fusion rewrites its loads and nothing else, each in its place. -/
theorem forall₂_rewrites_fuse (labels : AddressSet) (is : List Instruction) :
    List.Forall₂ (Relation.ReflTransGen Rewrite) is (fuse labels is) :=
  forall₂_fuse_of (fun _ => .refl) (fun hpair => (rewrites_of_pair? hpair).imp .single .single) is

end Fusion

/-! ### Rewritings of a walk -/

namespace Walk

variable {r : Routine} {w w' : Walk}

/-- Every instruction of the walk is what is decoded in its place, or a rewriting of that. -/
def Rewritten (r : Routine) (w : Walk) : Prop :=
  ∀ ⦃k : Nat⦄ ⦃i : Instruction⦄, w.decoded[k]? = some i →
    ∃ j, r.decodeAt i.address = .ok j ∧ Relation.ReflTransGen Rewrite j i

/-- Recovering a dispatch rewrites its jump and the folded instructions, which may have been
    rewritten before by another template. -/
theorem Rewritten.recover {linear : Nat} {dispatches : List Nat} {jump : Instruction}
    (h : Rewritten r w) (hj : w.decoded[linear]? = some jump) (m : SwitchMatch)
    (words : List UInt16) : Rewritten r ({ w with dispatches }.withSwitch jump m words) := by
  intro k i hi
  rw [(withSwitch_frame { w with dispatches } jump m words).1] at hi
  have hswitch : ∃ j, r.decodeAt jump.address = .ok j ∧
      Relation.ReflTransGen Rewrite j (switchOf jump m.index words) := by
    obtain ⟨j, hdec, hchain⟩ := h hj
    exact ⟨j, hdec, hchain.tail (rewrite_switchOf jump m.index words)⟩
  rcases cases_of_putSwitch hi with ⟨-, -, -, rfl⟩ | ⟨i', hi' | ⟨-, rfl⟩, rfl⟩ | ⟨-, hi⟩
  · exact hswitch
  · obtain ⟨j, hdec, hchain⟩ := h hi'
    exact ⟨j, hdec, hchain.tail .nop⟩
  · -- A template may fold the very jump that it has recognized.
    obtain ⟨j, hdec, hchain⟩ := hswitch
    exact ⟨j, hdec, hchain.tail .nop⟩
  · exact h hi

/-- **Every move decodes or rewrites.** So what is at a place never has another origin than the
    bytes there. -/
theorem rewritten_of_move (h : Rewritten r w) (hm : Move r w w') : Rewritten r w' := by
  cases hm with
  | @decode c i hdec w' ho =>
    intro k j hj
    rw [decoded_of_onward ho, hdec.getElem?_insert] at hj
    split at hj
    · cases hj
      rw [Routine.address_of_decodeAt hdec.decodeAt]
      exact ⟨i, hdec.decodeAt, .refl⟩
    · exact h hj
  | recover hc hds hj hm hcount hwords => exact h.recover hj _ _
  | stop hc hwhy => exact h
  | vanish hc hds hj => exact h
  | refuse hc hds hj hm => exact h
  | start hc hds hq => exact h
  | turn hc hds hq => exact h

/-- So it is at the end of every walk, whatever the templates were. -/
theorem rewritten_of_walk (h : r.walk = .ok w) : Rewritten r w := by
  refine (run_induction rewritten_of_move ?_ (run_of_walk h).2).1
  intro k i hi
  rw [Std.ExtTreeMap.getElem?_empty] at hi
  cases hi

/-- What is listed is a rewriting of what the walk has decoded, place by place. -/
theorem forall₂_rewrites (r : Routine) (w : Walk) :
    List.Forall₂ (Relation.ReflTransGen Rewrite) w.decoded.items (w.fusedItems r) := by
  unfold fusedItems
  split
  · exact Fusion.forall₂_rewrites_fuse _ _
  · exact List.forall₂_same.2 fun i _ => .refl

/-- The instructions of the listing, too, are what is decoded in their places, or rewritings. -/
theorem rewrites_of_mem_fusedItems (h : Rewritten r w) {i : Instruction}
    (hi : i ∈ w.fusedItems r) :
    ∃ j, r.decodeAt i.address = .ok j ∧ Relation.ReflTransGen Rewrite j i := by
  obtain ⟨n, hn⟩ := List.mem_iff_getElem?.1 hi
  have hlen := (forall₂_rewrites r w).length_eq
  have hlt : n < w.decoded.items.length := by
    rw [hlen]
    exact (List.getElem?_eq_some_iff.1 hn).1
  have hchain := (forall₂_rewrites r w).get hlt (hlen ▸ hlt)
  have hget : (w.fusedItems r).get ⟨n, hlen ▸ hlt⟩ = i := (List.getElem?_eq_some_iff.1 hn).2
  rw [hget] at hchain
  obtain ⟨k, hk⟩ := (AddressMap.mem_items_iff _).1 (List.get_mem _ _)
  obtain ⟨j, hdec, hbefore⟩ := h hk
  rw [(Instruction.shape_of_rewrites hchain).1]
  exact ⟨j, hdec, hbefore.trans hchain⟩

/-! ### The jump to the entry -/

/-- The jump in front of a listing leads to the entry: near if the segments are the same, and else
    far. -/
theorem target?_entryJump (lowest entry : Address) :
    (entryJump lowest entry).target? = some entry := by
  unfold entryJump
  split
  · rename_i hseg
    -- A jump without bytes counts from its own place.
    have hback : lowest.off + 0 + (entry.off - lowest.off) = entry.off := by
      rw [UInt16.add_zero, UInt16.add_comm, UInt16.sub_add_cancel]
    show some (⟨lowest.seg, lowest.off + 0 + (entry.off - lowest.off).toInt16.toUInt16⟩ : Address)
      = some entry
    rw [UInt16.toUInt16_toInt16, hback, hseg]
  · rfl

/-- It has no bytes, and is said to be at the lowest place. -/
theorem shape_entryJump (lowest entry : Address) :
    (entryJump lowest entry).isSynthetic = true ∧ (entryJump lowest entry).address = lowest := by
  unfold entryJump
  split <;> exact ⟨rfl, rfl⟩

end Walk

/-! ### Positions -/

namespace Disassembly

/-- Encoded instructions have bytes. -/
theorem not_isSynthetic_of_mem_encoded {d : Disassembly} {i : Instruction} (hi : i ∈ d.encoded) :
    i.isSynthetic = false := by
  simpa using (List.mem_filter.1 hi).2

/-- Two encoded instructions at one place are at one position, as places increase along the list. -/
theorem eq_of_linear_eq {d : Disassembly}
    (hordered : d.encoded.Pairwise (fun i j => i.linear < j.linear)) {m n : Nat}
    {i j : Instruction} (hi : d.instructions.toList[m]? = some i)
    (hj : d.instructions.toList[n]? = some j) (hsi : i.isSynthetic = false)
    (hsj : j.isSynthetic = false) (hsame : i.linear = j.linear) : m = n := by
  rw [encoded, List.pairwise_filter, List.pairwise_iff_getElem] at hordered
  obtain ⟨hm, rfl⟩ := List.getElem?_eq_some_iff.1 hi
  obtain ⟨hn, rfl⟩ := List.getElem?_eq_some_iff.1 hj
  rcases Nat.lt_trichotomy m n with hlt | heq | hgt
  · have hless := hordered m n hm hn hlt (by rw [hsi, Bool.not_false]) (by rw [hsj, Bool.not_false])
    omega
  · exact heq
  · have hless := hordered n m hn hm hgt (by rw [hsj, Bool.not_false]) (by rw [hsi, Bool.not_false])
    omega

/-- **Positions are those of the encoded instructions**, if their places are all different. -/
theorem position?_iff {d : Disassembly} (hindex : d.index = indexOf d.instructions.toList)
    (hordered : d.encoded.Pairwise (fun i j => i.linear < j.linear)) {k pos : Nat} :
    d.position? k = some pos ↔
      ∃ i, d.instructions[pos]? = some i ∧ i.isSynthetic = false ∧ i.linear = k := by
  constructor
  · intro h
    simp only [position?, Option.bind_eq_bind, Option.bind_eq_some_iff] at h
    obtain ⟨pos', -, i, hi, hcheck⟩ := h
    split at hcheck
    · rename_i hfits
      cases hcheck
      exact ⟨i, hi, Bool.eq_false_iff.2 hfits.2, hfits.1⟩
    · cases hcheck
  · rintro ⟨i, hi, hs, rfl⟩
    have hmem : i ∈ d.instructions.toList :=
      List.mem_iff_getElem?.2 ⟨pos, by rw [Array.getElem?_toList, hi]⟩
    obtain ⟨pos', hpos'⟩ := exists_indexOf hmem hs
    obtain ⟨j, hj, hlinear, hsj⟩ := getElem?_of_indexOf hpos'
    rw [Array.getElem?_toList] at hj
    -- The index may name another position only if two instructions stand at one place.
    have hsame : pos' = pos := by
      refine eq_of_linear_eq hordered ?_ ?_ hsj hs hlinear
      · rwa [Array.getElem?_toList]
      · rwa [Array.getElem?_toList]
    rw [← hindex, hsame] at hpos'
    simp [position?, hpos', hi, hs]

/-! ### Well-shaped disassemblies -/

/-- The shape of a disassembly of code in an image. -/
structure WellShaped (image : Image) (d : Disassembly) : Prop where
  /-- Encoded instructions stand in the order of their places. -/
  ordered : d.encoded.Pairwise (fun i j => i.linear < j.linear)
  /-- The entry is the place of one of them. -/
  entry : ∃ i ∈ d.encoded, i.linear = d.entry.linear
  /-- Their bytes are in the image. -/
  inside : ∀ i ∈ d.encoded, ∀ a ∈ i.bytes, image.contains a = true
  /-- Each has the place and the length of what is decoded there, and is that instruction or a
      rewriting of it. -/
  origin : ∀ i ∈ d.encoded, ∃ bs j, image.bytesFrom? i.linear = some bs ∧
    decode bs i.address = .ok j ∧ i.address = j.address ∧ i.length = j.length ∧
    (i = j ∨ i.mnemonic ∈ [.nop, .switch, .words2dword] ∧ Relation.TransGen Rewrite j i)
  /-- Something without bytes is listed exactly if the entry is not the lowest place. -/
  synthetic : (∃ i ∈ d.instructions.toList, i.isSynthetic = true) ↔
    ∃ i ∈ d.encoded, i.linear < d.entry.linear
  /-- It is a jump to the entry in front of all others, at the lowest place. -/
  front : ∀ i ∈ d.instructions.toList, i.isSynthetic = true →
    d.instructions.toList = i :: d.encoded ∧ i.target? = some d.entry ∧
      (∃ j ∈ d.encoded, i.linear = j.linear) ∧ ∀ j ∈ d.encoded, i.linear ≤ j.linear
  /-- The positions are those of the encoded instructions. -/
  position : ∀ k pos, d.position? k = some pos ↔
    ∃ i, d.instructions[pos]? = some i ∧ i.isSynthetic = false ∧ i.linear = k
  /-- The size counts them. -/
  size : d.size = d.encoded.length

end Disassembly

namespace Walk

variable {r : Routine} {w : Walk} {d : Disassembly}

/-- A disassembly counts its encoded instructions, by the size of its index. -/
theorem size_eq_length_encoded (hs : Sound r w) (h : w.finish r = .ok d) :
    d.size = d.encoded.length := by
  rw [size_of_finish hs h, encoded_of_finish hs h, ← (forall₂_rewrites r w).length_eq,
    AddressMap.items, List.length_map, Std.ExtTreeMap.length_toList]

/-- The first encoded instruction is the lowest, and a jump to the entry stands in front of it
    exactly if it is not the entry. -/
def Fronted (d : Disassembly) : Prop :=
  ∃ first ∈ d.encoded, (∀ j ∈ d.encoded, first.linear ≤ j.linear) ∧
    d.instructions.toList = if first.linear = d.entry.linear then d.encoded
      else entryJump first.address d.entry :: d.encoded

/-- A listing is fronted: what is decoded first in the order of places is compared with the
    entry. -/
theorem front_of_finish (hs : Sound r w) (hentry : ∃ i ∈ d.encoded, i.linear = d.entry.linear)
    (h : w.finish r = .ok d) : Fronted d := by
  have hordered := linear_fusedItems hs
  rw [← encoded_of_finish hs h, List.pairwise_map] at hordered
  obtain ⟨-, hsame, hinstructions, -⟩ := finish_cases h
  have hlisting : d.instructions.toList = withEntryJump d.entry d.encoded := by
    rw [hinstructions, listing_eq, encoded_of_finish hs h, hsame]
  unfold Fronted
  cases hlist : d.encoded with
  | nil =>
    rw [hlist] at hentry
    obtain ⟨i, hi, -⟩ := hentry
    exact absurd hi List.not_mem_nil
  | cons first rest =>
    rw [hlist] at hordered hlisting
    refine ⟨first, List.mem_cons_self, fun j hj => ?_, hlisting⟩
    rcases List.mem_cons.1 hj with rfl | hj
    · exact Nat.le_refl _
    · exact Nat.le_of_lt ((List.pairwise_cons.1 hordered).1 j hj)

/-- Something without bytes is listed exactly if the entry is not the lowest place. -/
theorem Fronted.exists_synthetic_iff (h : Fronted d)
    (hentry : ∃ i ∈ d.encoded, i.linear = d.entry.linear) :
    (∃ i ∈ d.instructions.toList, i.isSynthetic = true) ↔
      ∃ i ∈ d.encoded, i.linear < d.entry.linear := by
  obtain ⟨first, hfirst, hlowest, hlist⟩ := h
  constructor
  · rintro ⟨i, hi, hsynthetic⟩
    have hhigher : first.linear ≠ d.entry.linear := by
      intro hsame
      rw [hlist, if_pos hsame] at hi
      rw [Disassembly.not_isSynthetic_of_mem_encoded hi] at hsynthetic
      cases hsynthetic
    obtain ⟨j, hj, hplace⟩ := hentry
    exact ⟨first, hfirst, by have := hlowest j hj; omega⟩
  · rintro ⟨i, hi, hlower⟩
    have hhigher : first.linear ≠ d.entry.linear := by
      have := hlowest i hi
      omega
    rw [hlist, if_neg hhigher]
    exact ⟨_, List.mem_cons_self, (shape_entryJump _ _).1⟩

/-- What has no bytes is the jump to the entry, in front of all others. -/
theorem Fronted.eq_entryJump (h : Fronted d) {i : Instruction} (hi : i ∈ d.instructions.toList)
    (hsynthetic : i.isSynthetic = true) :
    d.instructions.toList = i :: d.encoded ∧ i.target? = some d.entry ∧
      (∃ j ∈ d.encoded, i.linear = j.linear) ∧ ∀ j ∈ d.encoded, i.linear ≤ j.linear := by
  obtain ⟨first, hfirst, hlowest, hlist⟩ := h
  rw [hlist] at hi ⊢
  split at hi
  · rw [Disassembly.not_isSynthetic_of_mem_encoded hi] at hsynthetic
    cases hsynthetic
  · rename_i hhigher
    have hjump : i = entryJump first.address d.entry := by
      rcases List.mem_cons.1 hi with rfl | hi
      · rfl
      · rw [Disassembly.not_isSynthetic_of_mem_encoded hi] at hsynthetic
        cases hsynthetic
    have hplace : i.linear = first.linear := by
      rw [hjump]
      exact congrArg Address.linear (shape_entryJump _ _).2
    rw [if_neg hhigher, hplace, hjump]
    exact ⟨rfl, target?_entryJump _ _, ⟨first, hfirst, rfl⟩, hlowest⟩

end Walk

/-- **Every disassembly is well shaped**, whatever its templates are: in order, inside the image,
    true to the bytes, and with an index that has every instruction at its position. -/
theorem wellShaped_of_disassemble {r : Routine} {d : Disassembly} (hd : r.disassemble = .ok d) :
    d.entry = r.entry ∧ d.WellShaped r.image := by
  obtain ⟨w, hwalk, hfinish⟩ := Routine.disassemble_cases hd
  obtain ⟨hs, -⟩ := Walk.sound_of_walk hwalk
  obtain ⟨-, hsame, hinstructions, hindex, -⟩ := Walk.finish_cases hfinish
  have hordered := Routine.ordered_encoded hd
  have hfound {i : Instruction} (hi : i ∈ d.encoded) : d.find? i.linear = some i :=
    (Routine.find?_iff_mem_encoded hd).2 ⟨hi, rfl⟩
  have hentry : ∃ i ∈ d.encoded, i.linear = d.entry.linear := by
    obtain ⟨i, hi⟩ := (wellFormed_of_disassemble hd).entry
    exact ⟨i, (Routine.find?_iff_mem_encoded hd).1 hi⟩
  have hfront := Walk.front_of_finish hs hentry hfinish
  refine ⟨hsame, ⟨hordered, hentry, ?_, ?_, hfront.exists_synthetic_iff hentry,
    fun i hi hsynthetic => hfront.eq_entryJump hi hsynthetic, ?_,
    Walk.size_eq_length_encoded hs hfinish⟩⟩
  · intro i hi a ha
    -- All bytes are in the image, as they were when the instruction was decoded.
    have hbounds := (Routine.provides_of_disassemble hd (hfound hi)).bounds
    simp only [Instruction.bytes, Finset.mem_Ico] at ha
    simp only [Image.contains, Bool.and_eq_true, decide_eq_true_eq]
    omega
  · intro i hi
    rw [Walk.encoded_of_finish hs hfinish] at hi
    -- What was decoded at the place was rewritten some number of times.
    obtain ⟨j, hdec, hchain⟩ :=
      Walk.rewrites_of_mem_fusedItems (Walk.rewritten_of_walk hwalk) hi
    obtain ⟨bs, hbs, hj⟩ := Routine.decode_of_decodeAt hdec
    obtain ⟨haddress, hlength⟩ := Instruction.shape_of_rewrites hchain
    exact ⟨bs, j, hbs, hj, haddress, hlength, Instruction.cases_of_rewrites hchain⟩
  · exact fun k pos => Disassembly.position?_iff (by rw [hindex, hinstructions]) hordered

/-- `inc ax` and `ret`, with the entry at the jump back to them. -/
def loopback : Routine where
  image := .ofBytes [0x40, 0xC3, 0xEB, 0xFC] ⟨0, 0x100⟩ ⟨0, 0x102⟩
  entry := ⟨0, 0x102⟩

/-- Control comes in behind the two lowest instructions, so a jump to the entry is listed in front
    of them. -/
theorem wellShaped_loopback :
    ∃ d, loopback.disassemble = .ok d ∧ d.encoded.length = 3 ∧
      (∃ i ∈ d.instructions.toList, i.isSynthetic = true) ∧ d.WellShaped loopback.image := by
  obtain ⟨d, hd, hlength, hsynthetic⟩ := Routine.exists_disassembly (r := loopback)
    (P := fun d => d.encoded.length = 3 ∧ ∃ i ∈ d.instructions.toList, i.isSynthetic = true)
    (by decide +kernel)
  exact ⟨d, hd, hlength, hsynthetic, (wellShaped_of_disassemble hd).2⟩

end RealMode
