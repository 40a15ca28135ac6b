import RealMode.Proofs.Decode.Operands
import RealMode.Proofs.Instruction.WrittenForm

namespace RealMode

/-!
# What the written form tells of the locals used

Two instructions that are written the same need not be the same: `add ax, bx` has two encodings,
and numbers are written without their width.  What an instruction reads and writes depends on the
parts that are told, with one exception:

* `Instruction.Alike` — instructions with the same operation, repetition and operands but for
  values, that work on bytes alike wherever that makes a difference; `alike_of_text` says that
  decoded instructions that are written the same are of this kind;
* `Mnemonic.readsSource` — the operations that read memory through a segment they do not name;
  the segment is `ds` unless a byte in front of the instruction says otherwise, and no byte in
  front of it is written but a repetition;
* `Instruction.Alike.usage` — alike instructions use the same locals, if they read memory through
  the same unnamed segment or through none; `sourceSegment_of_required` says that the condition
  is needed;
* `usage_told_by_text` — decoded instructions that are written the same write the same locals,
  and read the same exactly if the unnamed segment is the same;
* `movsb_hides_segment` — a copy from `cs` and one from `es` that are written the same.
-/

/-! ### Operands that are written the same -/

namespace Operand

variable {o p : Operand}

/-- Operands that differ in a value only use the same locals, since a value is no local. -/
theorem usage?_of_face (h : o.face = p.face) (access : Access) :
    o.usage? access = p.usage? access := by
  cases o <;> cases p <;> simp_all [face, usage?]

/-- The width of a register or a place in memory is part of what is written. -/
theorem width?_of_face (h : o.face = p.face) : o.width? = p.width? := by
  cases o <;> cases p <;> simp_all [face, width?]

/-- The condition of a branch is part of what is written. -/
theorem condition?_of_face (h : o.face = p.face) : o.condition? = p.condition? := by
  cases o <;> cases p <;> simp_all [face, condition?]

end Operand

/-! ### Unnamed segments and widths -/

/-- Whether an operation reads memory through a segment that it does not name. -/
def Mnemonic.readsSource (m : Mnemonic) : Bool := m matches .xlat | .movs | .cmps | .lods | .outs

namespace Instruction

/-- Whether the locals that an instruction uses without naming them depend on its width: so it is
    for a string operation, and for a product or quotient unless the factors are all named. -/
def DependsOnWidth (i : Instruction) : Prop :=
  i.mnemonic.isString = true ∨
    i.mnemonic.usesWidth = true ∧ ¬ (i.mnemonic = .imul ∧ 1 < i.operands.length)

/-- Instructions with the same operation, repetition and operands, but for values, that work on
    bytes alike if it matters. -/
structure Alike (i j : Instruction) : Prop where
  mnemonic : i.mnemonic = j.mnemonic
  repetition : i.repetition = j.repetition
  faces : List.Forall₂ (fun o p : Operand => o.face = p.face) i.operands j.operands
  byte : i.DependsOnWidth → (i.width = .byte ↔ j.width = .byte)

/-- What an instruction uses is what its operands use, what it uses without naming it, and flags;
    only the first of these can fail. -/
theorem usage_of_explicitUsage {i : Instruction} {e : Usage} (h : i.explicitUsage = .ok e) :
    i.usage = .ok ((e.union i.implicitUsage).union i.flagUsage) := by
  rw [usage, h]
  rfl

/-- The same read backwards: an instruction that has a use has one of its operands, and the rest is
    added to it. -/
theorem usage_cases {i : Instruction} {u : Usage} (h : i.usage = .ok u) :
    ∃ e, i.explicitUsage = .ok e ∧ u = (e.union i.implicitUsage).union i.flagUsage := by
  cases he : i.explicitUsage with
  | error e =>
    rw [usage, he] at h
    cases h
  | ok e =>
    rw [usage_of_explicitUsage he] at h
    exact ⟨e, rfl, (Except.ok.inj h).symm⟩

namespace Alike

variable {i j : Instruction}

/-- Alike instructions branch on the same condition. -/
theorem condition? (h : i.Alike j) : i.condition? = j.condition? := by
  have hfaces := h.faces
  unfold Instruction.condition?
  generalize i.operands = os, j.operands = ps at hfaces ⊢
  induction hfaces with
  | nil => rfl
  | cons hface _ ih =>
    rw [List.findSome?_cons, List.findSome?_cons, Operand.condition?_of_face hface, ih]

/-- Operands at the same position of alike instructions are used in the same way. -/
theorem operandUsage (h : i.Alike j) {o p : Operand} (hface : o.face = p.face) {n k : Nat}
    {u : Usage} (hu : i.operandUsage n o k = .ok u) : j.operandUsage n p k = .ok u := by
  unfold Instruction.operandUsage at hu ⊢
  simp only [← h.mnemonic, ← Operand.usage?_of_face hface]
  split at hu
  · exact hu
  · cases hu

/-- So the operands of alike instructions use the same locals together. -/
theorem explicitUsage (h : i.Alike j) {u : Usage} (hu : i.explicitUsage = .ok u) :
    j.explicitUsage = .ok u := by
  -- The way of using an operand depends on its position, so the count goes along.
  have hrun (n : Nat) {os ps : List Operand}
      (hfaces : List.Forall₂ (fun o p : Operand => o.face = p.face) os ps) (k : Nat) (acc : Usage)
      (hu : (os.zipIdx k).foldlM (fun acc x => do
        return acc.union (← i.operandUsage n x.1 x.2)) acc = .ok u) :
      (ps.zipIdx k).foldlM (fun acc x => do
        return acc.union (← j.operandUsage n x.1 x.2)) acc = .ok u := by
    induction hfaces generalizing k acc with
    | nil => exact hu
    | @cons o p os ps hface _ ih =>
      rw [List.zipIdx_cons, List.foldlM_cons] at hu ⊢
      cases ho : i.operandUsage n o k with
      | error e =>
        simp only [ho] at hu
        cases hu
      | ok v =>
        simp only [ho] at hu
        simp only [h.operandUsage hface ho]
        exact ih (k + 1) (acc.union v) hu
  unfold Instruction.explicitUsage at hu ⊢
  simp only [← h.faces.length_eq]
  exact hrun _ h.faces 0 {} hu

/-- What alike instructions use without naming it is the same, if the segment that they do not name
    is. Here the width counts, since it tells `al` from `ax`. -/
theorem impliedUsage (h : i.Alike j)
    (hs : i.mnemonic.readsSource = true → i.sourceSegment = j.sourceSegment) :
    i.impliedUsage = j.impliedUsage := by
  have hlength := h.faces.length_eq
  have hacc (hbyte : i.width = .byte ↔ j.width = .byte) :
      Register.accumulator i.width = Register.accumulator j.width := by
    revert hbyte
    cases i.width <;> cases j.width <;> decide
  obtain ⟨hm, -, -, hbyte⟩ := h
  unfold DependsOnWidth at hbyte
  unfold Instruction.impliedUsage
  rw [← hm, ← hlength]
  -- The width matters to products, quotients and the accumulator of string operations, the segment
  -- to the operations that do not name it, and neither to any other.
  cases hmnemonic : i.mnemonic with
  | mul | div | idiv =>
    have hwidth := hbyte (.inr ⟨by rw [hmnemonic]; rfl, by simp [hmnemonic]⟩)
    simp only [hwidth]
  | imul =>
    by_cases hmany : i.operands.length > 1
    · simp only [if_pos hmany]
    · have hwidth := hbyte (.inr ⟨by rw [hmnemonic]; rfl, fun h => hmany h.2⟩)
      simp only [hwidth]
  | stos | scas => simp only [hacc (hbyte (.inl (by rw [hmnemonic]; rfl)))]
  | lods => simp only [hacc (hbyte (.inl (by rw [hmnemonic]; rfl))), hs (by rw [hmnemonic]; rfl)]
  | xlat | movs | cmps | outs => simp only [hs (by rw [hmnemonic]; rfl)]
  | _ => rfl

/-- Alike instructions are repeated alike, so both count in `cx` or none does. -/
theorem repetitionUsage (h : i.Alike j) : i.repetitionUsage = j.repetitionUsage := by
  rw [Instruction.repetitionUsage, Instruction.repetitionUsage, h.mnemonic, h.repetition]

/-- Alike instructions read and write the same flags, as the operation and its condition are the
    same. -/
theorem flagUsage (h : i.Alike j) : i.flagUsage = j.flagUsage := by
  rw [Instruction.flagUsage, Instruction.flagUsage, flags, flags, h.mnemonic, h.condition?]

/-- An instruction stays alike under any override: it is not written, and this is what the exception
    is about. -/
theorem withOverride (h : i.Alike j) (s : Option SegmentRegister) :
    i.Alike { j with segmentOverride := s } :=
  ⟨h.mnemonic, h.repetition, h.faces, h.byte⟩

/-- **Alike instructions use the same locals**, if they read memory through the same unnamed segment
    or through none. -/
theorem usage (h : i.Alike j)
    (hs : i.mnemonic.readsSource = true → i.sourceSegment = j.sourceSegment) {u : Usage}
    (hu : i.usage = .ok u) : j.usage = .ok u := by
  obtain ⟨e, he, rfl⟩ := usage_cases hu
  rw [usage_of_explicitUsage (h.explicitUsage he), implicitUsage, implicitUsage,
    h.impliedUsage hs, h.repetitionUsage, h.flagUsage]

end Alike

/-- Whatever segment an instruction reads memory through, it writes the same locals, as the segment
    register is only read for that. -/
theorem usage_withOverride {i : Instruction} {u : Usage} (h : i.usage = .ok u)
    (s : Option SegmentRegister) :
    ∃ v, { i with segmentOverride := s }.usage = .ok v ∧ v.defined = u.defined := by
  obtain ⟨e, he, rfl⟩ := usage_cases h
  refine ⟨_, usage_of_explicitUsage he, ?_⟩
  -- Where a segment is read through without being named, memory or `al` is what changes.
  have himplied :
      { i with segmentOverride := s }.impliedUsage.defined = i.impliedUsage.defined := by
    obtain ⟨a, m, os, w, r, _, n⟩ := i
    cases m <;> rfl
  simp only [Usage.union, implicitUsage, himplied]
  rfl

/-! ### What an unnamed segment adds -/

/-- The segment registers that an operation with an unnamed segment reads for no other reason:
    all but `es`, where copies go and comparisons look, too. -/
def sourceLocals : List Local := [.cs, .ss, .ds, .fs, .gs]

/-- A segment register is known by which of these locals it is. -/
theorem sourceSegment_of_locals {s t : SegmentRegister}
    (h : ∀ l ∈ sourceLocals, l ∈ s.locals ↔ l ∈ t.locals) : s = t := by
  revert h
  cases s <;> cases t <;> decide

/-- What such an operation reads without naming it is the segment, and something fixed that has none
    of these locals in it. -/
theorem required_impliedUsage {i : Instruction} (hm : i.mnemonic.readsSource = true) :
    ∃ fixed, i.impliedUsage.required = fixed ∪ i.sourceSegment.locals ∧
      ∀ l ∈ sourceLocals, l ∉ fixed := by
  unfold impliedUsage
  cases hmnemonic : i.mnemonic with
  | xlat | movs | cmps | lods | outs => exact ⟨_, rfl, by decide⟩
  | _ => simp [hmnemonic, Mnemonic.readsSource] at hm

/-- So among the locals it reads, the segment can be found again. -/
theorem mem_required_iff {i : Instruction} {u : Usage} (hm : i.mnemonic.readsSource = true)
    (ho : i.operands = []) (hu : i.usage = .ok u) {l : Local} (hl : l ∈ sourceLocals) :
    l ∈ u.required ↔ l ∈ i.sourceSegment.locals := by
  obtain ⟨fixed, hfixed, hnone⟩ := required_impliedUsage hm
  have hrepetition : ∀ l ∈ sourceLocals, l ∉ i.repetitionUsage.required := by
    unfold repetitionUsage
    split <;> decide
  have hflags : i.flagUsage.required = ∅ := by
    have hreads : i.mnemonic.profile.reads = ∅ := by
      revert hm
      cases i.mnemonic <;> decide
    simp only [flagUsage, hreads, condition?, ho]
    rfl
  have hexplicit : i.explicitUsage = .ok {} := by
    rw [explicitUsage, ho]
    rfl
  rw [usage_of_explicitUsage hexplicit] at hu
  obtain rfl := Except.ok.inj hu
  have hother : l ∉ fixed ∧ l ∉ i.repetitionUsage.required := ⟨hnone l hl, hrepetition l hl⟩
  simp only [Membership.mem] at hother ⊢
  simp [Usage.union, implicitUsage, hfixed, hflags, hother]

/-- Instructions that read the same locals, with an operation that reads memory through an unnamed
    segment, read it through the same segment. -/
theorem sourceSegment_of_required {i j : Instruction} {u v : Usage}
    (hi : i.mnemonic.readsSource = true) (hj : j.mnemonic.readsSource = true)
    (hoi : i.operands = []) (hoj : j.operands = []) (hu : i.usage = .ok u) (hv : j.usage = .ok v)
    (h : u.required = v.required) : i.sourceSegment = j.sourceSegment := by
  apply sourceSegment_of_locals
  intro l hl
  rw [← mem_required_iff hi hoi hu hl, ← mem_required_iff hj hoj hv hl, h]

end Instruction

/-! ### Decoded instructions -/

/-- No operation takes a condition but a conditional branch. -/
theorem Mnemonic.label_notMem {m : Mnemonic} {form : List Access} {arity : Nat} (hm : m ≠ .jcc)
    (h : m.form? arity = some form) : .label ∉ form := by
  have hforms : ∀ form ∈ m.profile.forms, .label ∉ form := by
    revert hm
    cases m <;> decide
  exact hforms form (List.mem_of_find?_eq_some h)

/-- The operands of a decoded instruction are written, but for the condition of a branch. -/
theorem isPlain_of_decode {bs : List UInt8} {a : Address} {i : Instruction}
    (h : decode bs a = .ok i) (hm : i.mnemonic ≠ .jcc) : ∀ o ∈ i.operands, o.IsPlain := by
  obtain ⟨form, hform, hfit⟩ := allFit_of_decode h
  have hlabel := Mnemonic.label_notMem hm hform
  intro o ho
  obtain ⟨k, hk⟩ := List.mem_iff_getElem?.1 ho
  obtain ⟨access, u, haccess, hu⟩ := Operand.usage?_of_allFit hfit hk
  have hne : access ≠ .label := fun he => hlabel (he ▸ List.mem_of_getElem? haccess)
  cases o with
  | condition | case => simp [Operand.usage?, hne] at hu
  | immediate | register | segment | memory | relative | far => exact ⟨rfl, rfl⟩

/-- A decoded instruction has no entries of a switch. -/
theorem case?_of_decode {bs : List UInt8} {a : Address} {i : Instruction}
    (h : decode bs a = .ok i) : ∀ o ∈ i.operands, o.case? = none := by
  by_cases hm : i.mnemonic = .jcc
  · obtain ⟨c, d, ho⟩ := operands_of_decode_jcc h hm
    simp [ho, Operand.case?]
  · exact fun o ho => (isPlain_of_decode h hm o ho).2

/-- The operations that read memory through an unnamed segment name nothing at all. -/
theorem operands_of_readsSource {bs : List UInt8} {a : Address} {i : Instruction}
    (h : decode bs a = .ok i) (hm : i.mnemonic.readsSource = true) : i.operands = [] := by
  obtain ⟨form, hform, hfit⟩ := allFit_of_decode h
  have hforms : i.mnemonic.profile.forms = [[]] := by
    revert hm
    cases i.mnemonic <;> decide
  have hnil : form = [] := by
    have hmem := List.mem_of_find?_eq_some hform
    rwa [hforms, List.mem_singleton] at hmem
  subst hnil
  exact List.eq_nil_of_length_eq_zero (Access.length_of_allFit hfit).symm

/-- A decoded product or quotient with a part that it does not name has one operand, whose width is
    written. -/
theorem operand_of_usesWidth {bs : List UInt8} {a : Address} {i : Instruction}
    (h : decode bs a = .ok i) (hm : i.mnemonic.usesWidth = true)
    (hfew : ¬ (i.mnemonic = .imul ∧ 1 < i.operands.length)) : ∃ o, i.operands = [o] := by
  obtain ⟨form, hform, hfit⟩ := allFit_of_decode h
  have hforms : ∀ form ∈ i.mnemonic.profile.forms,
      form.length = 1 ∨ i.mnemonic = .imul ∧ 1 < form.length := by
    revert hm
    cases i.mnemonic <;> decide
  rw [← List.length_eq_one_iff, ← Access.length_of_allFit hfit]
  rw [← Access.length_of_allFit hfit] at hfew
  exact (hforms form (List.mem_of_find?_eq_some hform)).resolve_right hfew

section

variable {bs cs : List UInt8} {a b : Address} {i j : Instruction}

/-- The name tells the condition of a branch, which is not written among the operands. -/
theorem map_face_of_title (hi : decode bs a = .ok i) (hj : decode cs b = .ok j)
    (htitle : i.title = j.title)
    (hshown : i.shownOperands.map Operand.face = j.shownOperands.map Operand.face) :
    i.operands.map Operand.face = j.operands.map Operand.face := by
  have hm : i.mnemonic = j.mnemonic := congrArg Title.mnemonic htitle
  by_cases hjcc : i.mnemonic = .jcc
  · obtain ⟨c, d, ho⟩ := operands_of_decode_jcc hi hjcc
    obtain ⟨c', d', ho'⟩ := operands_of_decode_jcc hj (hm ▸ hjcc)
    have htold {i : Instruction} {c : Condition} {d : Int16} (hjcc : i.mnemonic = .jcc)
        (ho : i.operands = [.condition c, .relative d]) : i.title.condition = some c := by
      rw [Instruction.title, if_pos hjcc, Instruction.condition?, ho]
      rfl
    have hc := htold hjcc ho
    rw [htitle, htold (hm ▸ hjcc) ho'] at hc
    rw [ho, ho', Option.some.inj hc]
    rfl
  · have hall {bs : List UInt8} {a : Address} {i : Instruction} (hi : decode bs a = .ok i)
        (hjcc : i.mnemonic ≠ .jcc) : i.shownOperands = i.operands := by
      apply List.filter_eq_self.2
      exact fun o ho => by rw [(isPlain_of_decode hi hjcc o ho).1]; rfl
    rwa [hall hi hjcc, hall hj (hm ▸ hjcc)] at hshown

/-- Whether a product or quotient works on bytes is told by its operand. -/
theorem width_of_faces (hi : decode bs a = .ok i) (hj : decode cs b = .ok j)
    (hm : i.mnemonic = j.mnemonic) (huses : i.mnemonic.usesWidth = true)
    (hfew : ¬ (i.mnemonic = .imul ∧ 1 < i.operands.length))
    (hfaces : i.operands.map Operand.face = j.operands.map Operand.face) : i.width = j.width := by
  have hlength : i.operands.length = j.operands.length := by
    simpa using congrArg List.length hfaces
  obtain ⟨o, ho⟩ := operand_of_usesWidth hi huses hfew
  obtain ⟨p, hp⟩ := operand_of_usesWidth hj (hm ▸ huses) (hm ▸ hlength ▸ hfew)
  have hface : o.face = p.face := by simpa [ho, hp] using hfaces
  have hwidth := width_of_decode hi huses ho
  rw [Operand.width?_of_face hface, width_of_decode hj (hm ▸ huses) hp] at hwidth
  exact (Option.some.inj hwidth).symm

/-- **Decoded instructions that are written the same are alike.** What is not written is a value, or
    a width that nothing depends on, or a segment. -/
theorem alike_of_text (hi : decode bs a = .ok i) (hj : decode cs b = .ok j)
    (h : i.text = j.text) : i.Alike j := by
  obtain ⟨hrepetition, htitle, hshown⟩ :=
    Instruction.told_of_text (case?_of_decode hi) (case?_of_decode hj) h
  have hm : i.mnemonic = j.mnemonic := congrArg Title.mnemonic htitle
  have hfaces := map_face_of_title hi hj htitle hshown
  refine ⟨hm, hrepetition, ?_, ?_⟩
  · rwa [← List.forall₂_eq_eq_eq, List.forall₂_map_left_iff, List.forall₂_map_right_iff] at hfaces
  · rintro (hstring | ⟨huses, hfew⟩)
    · simpa [Instruction.title, ← hm, hstring] using congrArg Title.byte htitle
    · rw [width_of_faces hi hj hm huses hfew hfaces]

/-- **What the written form tells of the locals used.** Decoded instructions that are written the
    same write the same locals.  They read the same locals, too, unless the operation reads memory
    through a segment that is not written, and the two do so through different segments. -/
theorem usage_told_by_text (hi : decode bs a = .ok i) (hj : decode cs b = .ok j)
    (htext : i.text = j.text) :
    i.mnemonic = j.mnemonic ∧ ∃ readsᵢ readsⱼ writes,
      i.required = .ok readsᵢ ∧ j.required = .ok readsⱼ ∧
      i.defined = .ok writes ∧ j.defined = .ok writes ∧
      (readsᵢ = readsⱼ ↔ (i.mnemonic.readsSource = true → i.sourceSegment = j.sourceSegment)) := by
  have halike := alike_of_text hi hj htext
  obtain ⟨u, hu⟩ := usage_of_decode hi
  obtain ⟨v, hv, hdefined⟩ : ∃ v, j.usage = .ok v ∧ v.defined = u.defined := by
    -- With the segment of `i`, the instruction `j` uses what `i` does.
    have hsame := (halike.withOverride i.segmentOverride).usage (fun _ => rfl) hu
    exact Instruction.usage_withOverride hsame j.segmentOverride
  refine ⟨halike.mnemonic, u.required, v.required, u.defined, ?_, ?_, ?_, ?_, ?_⟩
  · rw [Instruction.required, hu]
    rfl
  · rw [Instruction.required, hv]
    rfl
  · rw [Instruction.defined, hu]
    rfl
  · rw [Instruction.defined, hv]
    exact congrArg Except.ok hdefined
  · constructor
    · intro hreads hm
      have hm' : j.mnemonic.readsSource = true := halike.mnemonic ▸ hm
      exact Instruction.sourceSegment_of_required hm hm' (operands_of_readsSource hi hm)
        (operands_of_readsSource hj hm') hu hv hreads
    · intro hs
      have hsame := halike.usage hs hu
      rw [hv] at hsame
      rw [Except.ok.inj hsame]

end

/-- A copy of a byte from `ds`, once with a prefix that says so and once with one that does not
    matter. -/
theorem usage_told_by_text_movsb : ∃ i j,
    decode [0x3E, 0xA4] ⟨0, 0x100⟩ = .ok i ∧ decode [0xF0, 0xA4] ⟨0, 0x100⟩ = .ok j ∧ i ≠ j ∧
      i.text = "movsb" ∧ i.text = j.text ∧ i.required = j.required ∧ i.defined = j.defined := by
  refine ⟨_, _, rfl, rfl, by decide, by decide, by decide, ?_⟩
  obtain ⟨-, readsᵢ, readsⱼ, writes, hrᵢ, hrⱼ, hwᵢ, hwⱼ, hreads⟩ :=
    @usage_told_by_text [0x3E, 0xA4] [0xF0, 0xA4] ⟨0, 0x100⟩ ⟨0, 0x100⟩ _ _ rfl rfl (by decide)
  rw [hrᵢ, hrⱼ, hwᵢ, hwⱼ, hreads.2 fun _ => by decide]
  exact ⟨rfl, rfl⟩

/-- A copy of a byte from `cs` and one from `es` have the same length and the same written form,
    but read different locals. -/
theorem movsb_hides_segment : ∃ i j,
    decode [0x2E, 0xA4] ⟨0, 0x100⟩ = .ok i ∧ decode [0x26, 0xA4] ⟨0, 0x100⟩ = .ok j ∧
      i.length = j.length ∧ i.text = j.text ∧ i.required ≠ j.required :=
  ⟨_, _, rfl, rfl, by decide, by decide, by decide⟩

end RealMode
