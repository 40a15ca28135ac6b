import RealMode.Proofs.Decode.Locality
import RealMode.Proofs.Disassembly.SideTables
import RealMode.Proofs.Walk.Dispatches
import RealMode.Proofs.Walk.Heading

namespace RealMode

open Dispatch

/-!
# What a disassembly depends on

A disassembly is made from the bytes of its instructions, from the words of its jump tables, and
from what cannot be decoded behind the calls that end the process. Whatever else is in the image is
data, and does not matter.

* `Image.SameLayout` — images that differ in their bytes only;
* `Routine.AgreesOn` — another image has all that a disassembly was made from;
* `Walk.Finished.found_of_cursor` — a walk that comes to a disassembly decodes nowhere else;
* `Walk.Finished.step?_alike` — so it takes the same step in both images;
* `disassemble_of_agreesOn` — and the disassembly is the same.
-/

/-! ### Images that differ in their bytes only -/

namespace Image

/-- The byte at a linear address. -/
def byte? (image : Image) (linear : Nat) : Option UInt8 :=
  (image.bytesFrom? linear).bind List.head?

/-- The images are as long, at the same place and adjusted in the same words, for one loader. -/
structure SameLayout (image image' : Image) : Prop where
  base : image'.base = image.base
  size : image'.memory.size = image.memory.size
  format : image'.format = image.format
  relocations : image'.relocations = image.relocations

variable {image image' : Image} {linear : Nat} {bs : List UInt8}

/-- Images of one layout have the same places. -/
theorem SameLayout.contains (h : image.SameLayout image') (linear : Nat) :
    image'.contains linear = image.contains linear := by
  rw [Image.contains, Image.contains, top, top, h.base, h.size]

/-- Inside an image, there are the bytes from a place to its end. -/
theorem bytesFrom?_of_contains (h : image.contains linear = true) :
    image.bytesFrom? linear = some (image.memory.bytes.drop (linear - image.base)) := by
  have hin := h
  simp only [Image.contains, Bool.and_eq_true, decide_eq_true_eq, top, Memory.size_eq] at hin
  rw [bytesFrom?, if_pos h, Memory.suffix?_eq, if_pos (by omega)]

/-- There are bytes from a place on only if it is inside the image. -/
theorem contains_of_bytesFrom? (h : image.bytesFrom? linear = some bs) :
    image.contains linear = true := by
  unfold bytesFrom? at h
  split at h
  · assumption
  · cases h

/-- The bytes from a place on are those at it and behind it, so a statement about single bytes is
    one about what is decoded. -/
theorem getElem?_of_bytesFrom? (h : image.bytesFrom? linear = some bs) (n : Nat) :
    bs[n]? = image.byte? (linear + n) := by
  obtain ⟨hbase, htop⟩ := length_of_bytesFrom? h
  have hbytes := h
  rw [bytesFrom?_of_contains (contains_of_bytesFrom? h), Option.some.injEq] at hbytes
  by_cases hin : image.contains (linear + n) = true
  · have hplace : linear + n - image.base = linear - image.base + n := by omega
    rw [byte?, bytesFrom?_of_contains hin, Option.bind_some, List.head?_drop, hplace, ← hbytes,
      List.getElem?_drop]
  · -- Behind the last byte there is none on either side.
    have hnone : image.bytesFrom? (linear + n) = none := by rw [bytesFrom?, if_neg hin]
    have hout : bs.length ≤ n := by
      simp only [Image.contains, Bool.and_eq_true, decide_eq_true_eq] at hin
      omega
    rw [byte?, hnone, Option.bind_none, List.getElem?_eq_none hout]

/-- Where the bytes of two images are the same one by one, what is decoded from there on begins
    alike. -/
theorem SameLayout.take_eq (h : image.SameLayout image') {n : Nat}
    (hbs : image.bytesFrom? linear = some bs)
    (hbytes : ∀ a, linear ≤ a → a < linear + n → image'.byte? a = image.byte? a) :
    ∃ bs', image'.bytesFrom? linear = some bs' ∧ bs'.take n = bs.take n := by
  have hin : image'.contains linear = true := by
    rw [h.contains]
    exact contains_of_bytesFrom? hbs
  refine ⟨_, bytesFrom?_of_contains hin, List.ext_getElem? fun k => ?_⟩
  rw [List.getElem?_take, List.getElem?_take]
  split
  · rename_i hk
    rw [getElem?_of_bytesFrom? (bytesFrom?_of_contains hin), getElem?_of_bytesFrom? hbs]
    exact hbytes _ (by omega) (by omega)
  · rfl

end Image

/-! ### What a disassembly is made from -/

namespace Routine

/-- The offset of the table that a switch was made from: the displacement of the jump that is
    decoded in its place. -/
def tableOffset? (r : Routine) (s : Instruction) : Option UInt16 := do
  let jump ← (r.decodeAt s.address).toOption
  let memory ← jump.memoryOperand?
  return memory.disp

/-- The places of the words of that table, one for each case. -/
def tableSlots (r : Routine) (s : Instruction) : List Address :=
  match r.tableOffset? s with
  | none => []
  | some offset => s.cases.map fun c => ⟨s.address.seg, offset + c.value * 2⟩

/-- Another image agrees with that of the function on what the disassembly was made from. -/
structure AgreesOn (r : Routine) (d : Disassembly) (image : Image) : Prop where
  /-- It has the bytes of the instructions. -/
  code : ∀ i ∈ d.encoded, ∀ a ∈ i.bytes, image.byte? a = r.image.byte? a
  /-- It has the words of the jump tables. -/
  tables : ∀ s ∈ d.switches, ∀ slot ∈ r.tableSlots s,
    image.word? slot.linear = r.image.word? slot.linear
  /-- What cannot be decoded behind the end of the process cannot be decoded there either. -/
  exits : ∀ i ∈ d.encoded, d.isExit i.linear = true → (r.decodeAt i.next).isOk = false →
    ({ r with image }.decodeAt i.next).isOk = false

instance (r : Routine) (d : Disassembly) (image : Image) : Decidable (r.AgreesOn d image) :=
  decidable_of_iff
    ((∀ i ∈ d.encoded, ∀ a ∈ i.bytes, image.byte? a = r.image.byte? a) ∧
      (∀ s ∈ d.switches, ∀ slot ∈ r.tableSlots s,
        image.word? slot.linear = r.image.word? slot.linear) ∧
      ∀ i ∈ d.encoded, d.isExit i.linear = true → (r.decodeAt i.next).isOk = false →
        ({ r with image }.decodeAt i.next).isOk = false)
    ⟨fun h => ⟨h.1, h.2.1, h.2.2⟩, fun h => ⟨h.code, h.tables, h.exits⟩⟩

variable {r : Routine} {image : Image} {i j : Instruction} {a b : Address}

/-- The length of an instruction is that of its bytes, not of the address it is seen at; two
    addresses of one place give instructions of one length. -/
theorem length_of_decodeAt (hi : r.decodeAt a = .ok i) (hj : r.decodeAt b = .ok j)
    (hsame : a.linear = b.linear) : i.length = j.length := by
  obtain ⟨bs, hbs, hi⟩ := decode_of_decodeAt hi
  obtain ⟨bs', hbs', hj⟩ := decode_of_decodeAt hj
  rw [hsame, hbs', Option.some.injEq] at hbs
  subst hbs
  rw [decode_of_take hi rfl b] at hj
  cases hj
  rfl

/-- An instruction is decoded in every image that has its bytes. -/
theorem decodeAt_of_bytes (hlayout : r.image.SameLayout image) (h : r.decodeAt a = .ok i)
    (hbytes : ∀ k ∈ i.bytes, image.byte? k = r.image.byte? k) :
    { r with image }.decodeAt a = .ok i := by
  obtain rfl : i.address = a := address_of_decodeAt h
  obtain ⟨bs, hbs, hdecode⟩ := decode_of_decodeAt h
  obtain ⟨bs', hbs', htake⟩ := hlayout.take_eq (n := i.length.toNat) hbs fun k hle hlt =>
    hbytes k (Finset.mem_Ico.2 ⟨hle, hlt⟩)
  have hdecode' : decode bs' i.address = .ok i := decode_of_take hdecode htake i.address
  simp only [decodeAt, hbs', hdecode']

/-- Which transfers leave the program is told by the layout, by the relocations and by the loader,
    and not by any byte. -/
theorem leavesProgram_alike (hlayout : r.image.SameLayout image) (i : Instruction) (t : Address) :
    { r with image }.leavesProgram i t = r.leavesProgram i t := by
  simp only [leavesProgram, hlayout.contains, Image.hasRelocationTable, Image.isRelocated,
    hlayout.format, hlayout.relocations]

/-- Whether the process ends is told by what is known of `ah`, or by what cannot be decoded behind
    the call. This is the one place where bytes that are not part of an instruction matter. -/
theorem isExit_of_isExit {r' : Routine} {ah : Option UInt8} (h : r.isExit i ah = true)
    (hfails : (r.decodeAt i.next).isOk = false → (r'.decodeAt i.next).isOk = false) :
    r'.isExit i ah = true := by
  rw [isExit_iff] at h ⊢
  obtain ⟨v, hv, h20 | h27 | ⟨h21, hknown | ⟨hah, hfail⟩⟩⟩ := h
  · exact ⟨v, hv, .inl h20⟩
  · exact ⟨v, hv, .inr (.inl h27)⟩
  · exact ⟨v, hv, .inr (.inr ⟨h21, .inl hknown⟩)⟩
  · exact ⟨v, hv, .inr (.inr ⟨h21, .inr ⟨hah, hfails hfail⟩⟩)⟩

/-- Each word of a recovered switch has its place in the table, counted from the displacement of the
    jump. -/
theorem mem_tableSlots {jump : Instruction} {index : Register} {words : List UInt16}
    {table : UInt16} {value : Nat}
    (hoffset : r.tableOffset? (Walk.switchOf jump index words) = some table)
    (hlt : value < words.length) :
    ⟨jump.address.seg, table + UInt16.ofNat value * 2⟩ ∈
      r.tableSlots (Walk.switchOf jump index words) := by
  have hmem : (words[value], value) ∈ words.zipIdx := by
    simp [List.mem_zipIdx_iff_getElem?, hlt]
  simp only [tableSlots, hoffset, List.mem_map, Walk.cases_switchOf, Walk.tableCases]
  exact ⟨_, ⟨_, hmem, rfl⟩, rfl⟩

end Routine

/-! ### Where a finished walk has been -/

namespace Walk

variable {r : Routine} {w w' : Walk} {n : Nat}

/-- Behind an instruction that neither sends control away nor ends the process, the walk goes on at
    the next one. -/
theorem cursor_goOn {i : Instruction} {ah : Option UInt8} (hj : i.mnemonic.isJump = false)
    (hb : i.mnemonic.isConditionalBranch = false) (hr : i.mnemonic.isReturn = false)
    (hx : r.isExit i ah = false) : (w.goOn r i ah).cursor = some ⟨i.next, ah⟩ := by
  simp only [goOn, hj, hb, hr, hx, Bool.false_eq_true, if_false]
  split
  · split
    · rfl
    · split <;> rfl
  · rfl

/-- The jump in the place of a switch is decoded with the table as its displacement. -/
theorem tableOffset?_switchOf {linear : Nat} {dispatches : List Nat} {jump : Instruction}
    {m : SwitchMatch} {words : List UInt16} (htemplates : r.templates = SwitchTemplate.standard)
    (hn : after r n = some w) (hc : w.cursor = none)
    (hds : w.dispatches = linear :: dispatches) (hj : w.decoded[linear]? = some jump)
    (hm : SwitchTemplate.firstMatch? r.templates (w.window jump) = some m)
    (hcount : m.caseCount ≤ r.options.maxCases.toNat)
    (hwords : tableWords r jump.address.seg m = .ok words) :
    r.tableOffset? (switchOf jump m.index words) = some m.table := by
  obtain ⟨hs, he⟩ := sound_exact_of_after (htemplates ▸ SwitchTemplate.foldStraight_standard) hn
  -- A dispatch that waits is still the jump that was decoded.
  obtain ⟨-, j, hj', hjump, -⟩ := he.awaited (k := linear) (.inr (hds ▸ List.mem_cons_self))
  rw [hj] at hj'
  cases hj'
  have hdec : r.decodeAt (switchOf jump m.index words).address = .ok jump :=
    (hs.provided hj).decodeAt_of_isJump hjump
  obtain ⟨compare, guard, add, xchg, hrec⟩ :=
    recovers_of_recover htemplates hs he hc hds hj hm hcount hwords
  obtain ⟨base, place, hscaled, hdisp⟩ := exists_scaled hrec.recognized.scaled
  simp [Routine.tableOffset?, hdec, Except.toOption, hscaled.jump.2, hdisp]

namespace Finished

variable {d : Disassembly} {c : Cursor} {i : Instruction} {k : Nat} (h : w'.Finished r d)
include h

/-- **A walk that comes to a disassembly decodes at its instructions only.** Where it looks,
    something is decoded in the end, and that is found in the disassembly. -/
theorem found_of_cursor (hn : after r n = some w) (hc : w.cursor = some c) :
    ∃ e, d.find? c.address.linear = some e := by
  obtain ⟨i, hi⟩ := (AddressMap.contains_iff_exists _ _).1
    (decoded_of_cursor h.walk h.complete hn hc)
  obtain ⟨e, he, -⟩ := h.shows.shown hi
  exact ⟨e, he⟩

/-- What recovery and fusion leave alone is found as it was, whenever in the walk it was decoded. -/
theorem find?_of_after (htemplates : r.templates = SwitchTemplate.standard)
    (hn : after r n = some w) (hi : w.decoded[k]? = some i)
    (hmnemonic : i.mnemonic ∉ [.add, .xchg, .mov])
    (hjump : i.mnemonic.isJump = false) : d.find? k = some i := by
  simp only [List.mem_cons, List.not_mem_nil, or_false, not_or] at hmnemonic
  obtain ⟨hadd, hxchg, hmov⟩ := hmnemonic
  apply h.find?_of_decoded hmov
  refine walk_induction (P := fun w => w.decoded[k]? = some i) h.walk hn hi fun hw hi hm => ?_
  obtain ⟨hs, he⟩ := sound_exact_of_after (htemplates ▸ SwitchTemplate.foldStraight_standard) hw
  refine lasting_of_move htemplates hs he hm hi ⟨hadd, hxchg⟩ fun hj => ?_
  rw [hjump] at hj
  cases hj

/-- A recovered switch is found in the place of its jump. -/
theorem find?_switchOf {linear : Nat} {dispatches : List Nat} {jump : Instruction}
    {m : SwitchMatch} {words : List UInt16} (htemplates : r.templates = SwitchTemplate.standard)
    (hn : after r n = some w) (hds : w.dispatches = linear :: dispatches)
    (hj : w.decoded[linear]? = some jump)
    (hm : SwitchTemplate.firstMatch? r.templates (w.window jump) = some m)
    (hnext : after r (n + 1) = some ({ w with dispatches }.withSwitch jump m words)) :
    d.find? linear = some (switchOf jump m.index words) := by
  have hfold : SwitchTemplate.FoldStraight r.templates :=
    htemplates ▸ SwitchTemplate.foldStraight_standard
  obtain ⟨hs, he⟩ := sound_exact_of_after hfold hn
  have hwait : w.Awaits linear := .inr (hds ▸ List.mem_cons_self)
  refine h.find?_of_after htemplates hnext ?_ (show Mnemonic.switch ∉ _ by decide) rfl
  rw [(withSwitch_frame { w with dispatches } jump m words).1, hs.linear hj,
    getElem?_putSwitch (not_mem_folded he hs hfold hwait hj hm), if_pos rfl]
  show w.decoded[linear]?.map _ = _
  rw [hj]
  rfl

end Finished

/-! ### The same steps in both images -/

namespace Finished

variable {d : Disassembly} {image : Image} {c : Cursor} {i : Instruction}
  (h : w'.Finished r d) (hagrees : r.AgreesOn d image)
include h hagrees

/-- The table of a recovered switch has the same words. -/
theorem tableWords_alike {linear : Nat} {dispatches : List Nat} {jump : Instruction}
    {m : SwitchMatch} {words : List UInt16} (htemplates : r.templates = SwitchTemplate.standard)
    (hn : after r n = some w) (hc : w.cursor = none)
    (hds : w.dispatches = linear :: dispatches) (hj : w.decoded[linear]? = some jump)
    (hm : SwitchTemplate.firstMatch? r.templates (w.window jump) = some m)
    (hcount : m.caseCount ≤ r.options.maxCases.toNat)
    (hwords : tableWords r jump.address.seg m = .ok words)
    (hnext : after r (n + 1) = some ({ w with dispatches }.withSwitch jump m words)) :
    tableWords { r with image } jump.address.seg m = .ok words := by
  have hswitch := h.find?_switchOf htemplates hn hds hj hm hnext
  have hmem : switchOf jump m.index words ∈ d.switches :=
    List.mem_filter.2 ⟨(Disassembly.mem_of_find? hswitch).1, decide_eq_true rfl⟩
  have hoffset := tableOffset?_switchOf htemplates hn hc hds hj hm hcount hwords
  rw [← hwords]
  apply mapM_congr
  intro value hvalue
  have hlt : value < words.length := by
    rw [length_tableWords hwords]
    exact List.mem_range.1 hvalue
  simp only [hagrees.tables _ hmem _ (Routine.mem_tableSlots hoffset hlt)]

/-- A dispatch is recovered alike: the window in front of it is decoded already, and the table has
    the same words. -/
theorem recover_alike {w₁ : Walk} {linear : Nat} {dispatches : List Nat}
    (htemplates : r.templates = SwitchTemplate.standard) (hn : after r n = some w)
    (hc : w.cursor = none) (hds : w.dispatches = linear :: dispatches)
    (hstep : w.step? r = some (.ok w₁)) (hr : { w with dispatches }.recover r linear = .ok w₁) :
    { w with dispatches }.recover { r with image } linear = .ok w₁ := by
  unfold recover at hr ⊢
  split at hr
  · exact hr
  · rename_i jump hj
    split at hr
    · rename_i m hm
      simp only [hm]
      unfold apply at hr ⊢
      split at hr
      · cases hr
      · rename_i hcount
        split at hr
        · cases hr
        · rename_i words hwords
          cases hr
          -- The template sees the walk alone; only the table is read from the image.
          simp only [if_neg hcount, h.tableWords_alike hagrees htemplates hn hc hds hj hm
            (Nat.le_of_not_lt hcount) hwords (after_succ hn hstep)]
    · rename_i hm
      simp only [hm]
      exact hr

variable (hd : r.disassemble = .ok d) (hlayout : r.image.SameLayout image)
include hd hlayout

/-- At the places of its instructions, a disassembly is decoded alike, from the bytes that the
    images have in common. -/
theorem decodeAt_alike {a : Address} (hfound : ∃ e, d.find? a.linear = some e)
    (hi : r.decodeAt a = .ok i) : { r with image }.decodeAt a = .ok i := by
  obtain ⟨e, he⟩ := hfound
  obtain ⟨j, hj, hlength, -⟩ := h.provides he
  obtain ⟨hmem, hlinear⟩ := (Routine.find?_iff_mem_encoded hd).1 he
  have hsame : i.length = j.length := Routine.length_of_decodeAt hi hj hlinear.symm
  have haddress : i.address = a := Routine.address_of_decodeAt hi
  have hbytes : i.bytes = e.bytes := by
    rw [Instruction.bytes, Instruction.bytes, hsame, hlength, hlinear, Instruction.linear, haddress]
  refine Routine.decodeAt_of_bytes hlayout hi fun k hk => hagrees.code e hmem k ?_
  rwa [← hbytes]

variable (htemplates : r.templates = SwitchTemplate.standard)
include htemplates

/-- The process ends at the same places, because what cannot be decoded behind an exit cannot be
    decoded there in the other image either. -/
theorem isExit_alike (hn : after r n = some w) (hdec : Decodes r w c i)
    (hkind : i.mnemonic.isJump = false ∧ i.mnemonic.isConditionalBranch = false ∧
      i.mnemonic.isReturn = false) :
    { r with image }.isExit i (i.ahAfter c.ah) = r.isExit i (i.ahAfter c.ah) := by
  have hnext := after_succ hn (step?_of_decodes hdec)
  cases hx : r.isExit i (i.ahAfter c.ah) with
  | true =>
    have hint := Routine.int_of_isExit hx
    have hself := h.find?_of_after (k := i.linear) (i := i) htemplates hnext
      (by rw [decoded_of_onward (onward_goOn ..), hdec.getElem?_insert, if_pos rfl])
      (by rw [hint]; decide) (by rw [hint]; rfl)
    -- It is decoded once, so what was known of `ah` is what the table of exits tells.
    have hexit : d.isExit i.linear = true := by
      obtain ⟨m, hm⟩ := exists_after_of_walk h.walk
      have hdecoded := (h.find?_iff_decoded (by rw [hint]; decide)).1 hself
      rw [Disassembly.isExit, h.exits]
      exact ((tables_of_after htemplates hm).exits i.linear).2
        ⟨i, _, hdecoded, ⟨n, w, c, i, hn, hdec, rfl, rfl⟩, hx⟩
    exact Routine.isExit_of_isExit hx
      (hagrees.exits i ((Routine.find?_iff_mem_encoded hd).1 hself).1 hexit)
  | false =>
    obtain ⟨hj, hb, hr⟩ := hkind
    have hfound := h.found_of_cursor hnext (cursor_goOn hj hb hr hx)
    rw [Bool.eq_false_iff] at hx ⊢
    refine fun hx' => hx (Routine.isExit_of_isExit hx' fun hfails => ?_)
    -- The walk goes on behind the instruction, so what is decoded there is an instruction of `d`.
    cases hi : r.decodeAt i.next with
    | error e => rfl
    | ok j =>
      rw [h.decodeAt_alike hagrees hd hlayout hfound hi] at hfails
      cases hfails

/-- Behind an instruction, the walk goes on alike: nothing it asks depends on other bytes. -/
theorem goOn_alike (hn : after r n = some w) (hdec : Decodes r w c i) (w₁ : Walk) :
    w₁.goOn { r with image } i (i.ahAfter c.ah) = w₁.goOn r i (i.ahAfter c.ah) := by
  have hleaves := Routine.leavesProgram_alike hlayout i
  simp only [goOn, hleaves]
  by_cases hj : i.mnemonic.isJump = true
  · rw [if_pos hj, if_pos hj]
  · by_cases hb : i.mnemonic.isConditionalBranch = true
    · rw [if_neg hj, if_neg hj, if_pos hb, if_pos hb]
    · by_cases hr : i.mnemonic.isReturn = true
      · rw [if_neg hj, if_neg hj, if_neg hb, if_neg hb, if_pos hr, if_pos hr]
      · rw [h.isExit_alike hagrees hd hlayout htemplates hn hdec
          ⟨Bool.eq_false_iff.2 hj, Bool.eq_false_iff.2 hb, Bool.eq_false_iff.2 hr⟩]

/-- At the cursor, the walk does alike, since what it decodes there is an instruction of the
    disassembly. -/
theorem visit_alike {w₁ : Walk} (hn : after r n = some w) (hc : w.cursor = some c)
    (hv : w.visit r c = .ok w₁) : w.visit { r with image } c = .ok w₁ := by
  have hfound := h.found_of_cursor hn hc
  unfold visit at hv ⊢
  split at hv
  · rename_i hold
    rw [if_pos hold]
    exact hv
  · rename_i hnew
    rw [if_neg hnew]
    split at hv
    · cases hv
    · rename_i hroom
      rw [if_neg hroom]
      split at hv
      · cases hv
      · rename_i i hi
        -- What is decoded here is in the disassembly, so the images agree on its bytes.
        rw [h.decodeAt_alike hagrees hd hlayout hfound hi]
        split at hv
        · rename_i hover
          simp only [if_pos hover]
          exact hv
        · rename_i hclear
          have hdec : Decodes r w c i := ⟨hc, Bool.eq_false_iff.2 hnew, Nat.lt_of_not_le hroom, hi,
            Bool.eq_false_iff.2 hclear⟩
          simp only [if_neg hclear, h.goOn_alike hagrees hd hlayout htemplates hn hdec]
          exact hv

/-- **The walk takes the same step in both images**, as long as they agree on what it looks at
    there. -/
theorem step?_alike {w₁ : Walk} (hn : after r n = some w) (hstep : w.step? r = some (.ok w₁)) :
    w.step? { r with image } = some (.ok w₁) := by
  have hsame := hstep
  unfold step? at hsame ⊢
  split at hsame
  · rename_i c hc
    exact congrArg some (h.visit_alike hagrees hd hlayout htemplates hn hc (Option.some.inj hsame))
  · rename_i hc
    split at hsame
    · rename_i linear dispatches hds
      exact congrArg some
        (h.recover_alike hagrees htemplates hn hc hds hstep (Option.some.inj hsame))
    · -- Turning to what is queued or put off asks nothing of the image.
      exact hsame

/-- So the walk is the same after any number of steps. -/
theorem after_alike (hn : after r n = some w) : after { r with image } n = some w := by
  induction n generalizing w with
  | zero => exact hn
  | succ n ih =>
    obtain ⟨w₀, hw₀, hstep⟩ := after_succ_iff.1 hn
    exact after_succ (ih hw₀) (h.step?_alike hagrees hd hlayout htemplates hw₀ hstep)

/-- And it comes to the same end, so the disassembly is the same. -/
theorem walk_alike : { r with image }.walk = .ok w' := by
  have hin := (run_of_walk h.walk).1
  obtain ⟨m, hm⟩ := exists_after_of_walk h.walk
  exact walk_of_after ((hlayout.contains _).trans hin)
    (h.after_alike hagrees hd hlayout htemplates hm) (step?_eq_none_of_step? (done_of_walk h.walk))

end Finished

end Walk

/-! ### Whole disassemblies -/

/-- **Data bytes do not matter.** With the standard templates, a function has the same disassembly
    in every image of one layout that has the bytes of its instructions, the words of its jump
    tables, and nothing to decode behind its exits where there was nothing before. -/
theorem disassemble_of_agreesOn {r : Routine} {d : Disassembly} {image : Image}
    (htemplates : r.templates = SwitchTemplate.standard) (hd : r.disassemble = .ok d)
    (hlayout : r.image.SameLayout image) (hagrees : r.AgreesOn d image) :
    { r with image }.disassemble = .ok d := by
  obtain ⟨w, hwalk, hfinish⟩ := Routine.disassemble_cases hd
  have hfinished := Walk.finished_of_finish hwalk hfinish
  exact Routine.disassemble_of_walk (hfinished.walk_alike hagrees hd hlayout htemplates) hfinish

/-- A dispatch with two cases. The first ends the process in front of the byte `stop`, the second
    returns; nothing comes to the bytes `gap` in front of the table. -/
def menu (gap stop : UInt8) : Routine where
  image := .ofBytes
    [0x3D, 0x01, 0x00, 0x76, 0x02, 0xEB, 0x11, 0x01, 0xC0, 0x93, 0x2E, 0xFF, 0xA7, 0x11, 0x01,
      gap, gap, 0x15, 0x01, 0x18, 0x01, 0xCD, 0x21, stop, 0xC3]
    ⟨0, 0x100⟩ ⟨0, 0x100⟩
  entry := ⟨0, 0x100⟩

/-- The bytes between the code and its table, and the byte behind the exit, may be replaced: neither
    is an instruction, and nothing can be decoded behind the exit in either image. -/
theorem disassemble_of_agreesOn_menu :
    ∃ d, (menu 0x00 0x66).disassemble = .ok d ∧
      (menu 0x00 0x66).image.SameLayout (menu 0xC3 0x67).image ∧
      (menu 0x00 0x66).AgreesOn d (menu 0xC3 0x67).image ∧
      d.switches.length = 1 ∧ d.exits.toList = [0x115] ∧
      (menu 0xC3 0x67).disassemble = .ok d := by
  obtain ⟨d, hd, hagrees, hswitches, hexits⟩ := Routine.exists_disassembly (r := menu 0x00 0x66)
    (P := fun d => (menu 0x00 0x66).AgreesOn d (menu 0xC3 0x67).image ∧ d.switches.length = 1 ∧
      d.exits.toList = [0x115])
    (by decide +kernel)
  have hlayout : (menu 0x00 0x66).image.SameLayout (menu 0xC3 0x67).image := ⟨rfl, rfl, rfl, rfl⟩
  have hother : { menu 0x00 0x66 with image := (menu 0xC3 0x67).image } = menu 0xC3 0x67 := rfl
  refine ⟨d, hd, hlayout, hagrees, hswitches, hexits, ?_⟩
  rw [← hother]
  exact disassemble_of_agreesOn rfl hd hlayout hagrees

end RealMode
