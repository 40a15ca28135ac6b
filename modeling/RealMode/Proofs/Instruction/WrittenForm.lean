import Mathlib.Data.List.Nodup
import RealMode.Instruction.Text

namespace RealMode

open Text

/-!
# What the written form of an instruction tells

The written form is not meant to be read back: numbers have no width, a segment is left out where it
is the usual one, and conditions are part of a name. It tells, all the same, what an instruction
does and with which registers.

* `append_mark_inj`, `intercalate_inj` — a text is taken apart at a character that is not part of
  what stands in front of it;
* `MemoryOperand.face_of_text` — the text of a place in memory tells how it is addressed;
* `Operand.face` — an operand but for its value, `Instruction.face_of_operandText` — its text tells
  that much;
* `Title` — what the written name tells; `Title.find?_name` looks it up among all there are;
* `Instruction.parts_of_text` — repetition, name and operands are written apart from each other;
* `Instruction.told_of_text` — all of this together.
-/

/-! ### Taking text apart -/

section Split

variable {c : Char} {xs ys as bs sep : List Char}

/-- A text up to the first mark is what stands in front of the mark, if that has none in it. -/
theorem takeWhile_of_mark (hx : c ∉ xs) : (xs ++ c :: as).takeWhile (· ≠ c) = xs := by
  rw [List.takeWhile_append_of_pos fun x h => by simpa using ne_of_mem_of_not_mem h hx]
  simp

/-- Texts that are equal are equal up to a mark, and behind it. -/
theorem append_mark_inj (hx : c ∉ xs) (hy : c ∉ ys) (h : xs ++ c :: as = ys ++ c :: bs) :
    xs = ys ∧ as = bs := by
  obtain rfl : xs = ys := by rw [← takeWhile_of_mark hx, h, takeWhile_of_mark hy]
  exact ⟨rfl, (List.cons.inj (List.append_cancel_left h)).2⟩

/-- Words that end at a mark, or with the text, are equal if the texts are, and so is what follows
    them. -/
theorem append_word_inj (hx : c ∉ xs) (hy : c ∉ ys) (has : as = [] ∨ ∃ s, as = c :: s)
    (hbs : bs = [] ∨ ∃ s, bs = c :: s) (h : xs ++ as = ys ++ bs) : xs = ys ∧ as = bs := by
  rcases has with rfl | ⟨s, rfl⟩
  · rcases hbs with rfl | ⟨t, rfl⟩
    · simpa using h
    · exact absurd (by simp : c ∈ ys ++ c :: t) (by simpa [← h] using hx)
  · rcases hbs with rfl | ⟨t, rfl⟩
    · exact absurd (by simp : c ∈ xs ++ c :: s) (by simpa [h] using hy)
    · obtain ⟨rfl, rfl⟩ := append_mark_inj hx hy h
      exact ⟨rfl, rfl⟩

/-- Lists are divided the same way, if no part has the mark that divides them. -/
theorem intercalate_inj {xss yss : List (List Char)} (hx : ∀ xs ∈ xss, c ∉ xs)
    (hy : ∀ ys ∈ yss, c ∉ ys) (hxss : xss ≠ []) (hyss : yss ≠ [])
    (h : (c :: sep).intercalate xss = (c :: sep).intercalate yss) : xss = yss := by
  induction xss generalizing yss with
  | nil => exact absurd rfl hxss
  | cons xs xss ih =>
    obtain ⟨ys, yss, rfl⟩ := List.exists_cons_of_ne_nil hyss
    have hxs := hx xs (by simp)
    have hys := hy ys (by simp)
    -- One piece cannot be many: it has no mark in it, and many have one between them.
    match xss, yss with
    | [], [] => simpa using h
    | [], ys' :: yss =>
      rw [List.intercalate_singleton, List.intercalate_cons_cons] at h
      exact absurd (by simp : c ∈ ys ++ c :: sep ++ _) (h ▸ hxs)
    | xs' :: xss, [] =>
      rw [List.intercalate_singleton, List.intercalate_cons_cons] at h
      exact absurd (by simp : c ∈ xs ++ c :: sep ++ _) (h ▸ hys)
    | xs' :: xss, ys' :: yss =>
      rw [List.intercalate_cons_cons, List.intercalate_cons_cons, List.append_assoc,
        List.append_assoc] at h
      obtain ⟨rfl, hrest⟩ := append_mark_inj hxs hys h
      have hsame : xs' :: xss = ys' :: yss :=
        ih (fun x h => hx x (List.mem_cons_of_mem _ h)) (fun y h => hy y (List.mem_cons_of_mem _ h))
          (by simp) (by simp) (List.append_cancel_left hrest)
      rw [hsame]

end Split

/-! ### Numbers -/

/-- A number is written with the sixteen digits and no other character. -/
theorem mem_hexDigits {letter c : Char} {n : Nat} (h : c ∈ hexDigits letter n) :
    ∃ d < 16, c = hexDigit letter d := by
  fun_induction hexDigits letter n with
  | case1 n hn => exact ⟨n, hn, List.mem_singleton.1 h⟩
  | case2 n hn ih =>
    rcases List.mem_append.1 h with h | h
    · exact ih h
    · exact ⟨n % 16, Nat.mod_lt _ (by decide), List.mem_singleton.1 h⟩

/-- The characters of a number in hexadecimal form are those of its mark, and digits. -/
theorem mem_render {f : Hex} {n : Nat} {c : Char} (h : c ∈ (f.render n).toList) :
    c ∈ f.mark.toList ∨ ∃ d < 16, c = hexDigit f.letter d := by
  rw [Hex.render, String.toList_append, String.toList_ofList, padZeros] at h
  rcases List.mem_append.1 h with h | h
  · exact .inl h
  · rcases List.mem_append.1 h with h | h
    · exact .inr ⟨0, by decide, (List.mem_replicate.1 h).2⟩
    · exact .inr (mem_hexDigits h)

/-- A character that is no digit does not occur in a number, outside of its mark. So a comma or a
    bracket never comes from a number. -/
theorem not_mem_render {f : Hex} {c : Char} (hmark : c ∉ f.mark.toList)
    (hdigit : ∀ d < 16, hexDigit f.letter d ≠ c) (n : Nat) : c ∉ (f.render n).toList := by
  intro h
  rcases mem_render h with h | ⟨d, hd, rfl⟩
  · exact hmark h
  · exact hdigit d hd rfl

/-! ### Places in memory -/

namespace MemoryOperand

/-- The segment as it is written: not at all, if it is the default one. -/
def segmentText (m : MemoryOperand) : List Char :=
  if m.segment = m.defaultSegment then [] else m.segment.name.toList ++ [':']

/-- A place in memory is written as its width, its segment if need be, and the place in brackets. -/
theorem toList_text (m : MemoryOperand) :
    m.text.toList = m.width.name.toList ++ ' ' :: (m.segmentText ++ '[' ::
      (m.placeText.toList ++ [']'])) := by
  unfold text segmentText
  split <;> simp

/-- The sign of a displacement that is written. -/
def signText (d : Int16) : List Char :=
  if d.toInt = 0 then [] else if d.toInt < 0 then ['-'] else ['+']

/-- A displacement is written as its sign and a number, or not at all; a number begins with a zero,
    since it has a mark. -/
theorem dispText_eq (d : Int16) : ∃ rest, (dispText d).toList = signText d ++ rest ∧
    (rest = [] ∨ ∃ s, rest = '0' :: s) := by
  unfold dispText signText
  split
  · exact ⟨[], rfl, .inl rfl⟩
  · have hdigits (n : Nat) : ∃ s, (Hex.plain.render n).toList = '0' :: s := by
      rw [Hex.render, String.toList_append]
      exact ⟨_, rfl⟩
    obtain ⟨s, hs⟩ := hdigits d.toInt.natAbs
    split
    · exact ⟨'0' :: s, by rw [String.toList_append, hs]; rfl, .inr ⟨s, rfl⟩⟩
    · exact ⟨'0' :: s, by rw [String.toList_append, hs]; rfl, .inr ⟨s, rfl⟩⟩

/-- Up to the first digit, a place is written by its addressing mode and a sign. So the mode can be
    read off what stands in front of the digits. -/
theorem placeText_eq (m : MemoryOperand) :
    ∃ sign rest, m.placeText.toList = m.mode.text.toList ++ sign ++ rest ∧
      (sign = [] ∨ sign = ['+'] ∨ sign = ['-']) ∧ (rest = [] ∨ ∃ s, rest = '0' :: s) := by
  unfold placeText
  split
  · rename_i hdirect
    rw [hdirect, Hex.render, String.toList_append]
    exact ⟨[], _, rfl, .inl rfl, .inr ⟨_, rfl⟩⟩
  · obtain ⟨rest, hrest, hzero⟩ := dispText_eq m.disp.toInt16
    refine ⟨signText m.disp.toInt16, rest, ?_, ?_, hzero⟩
    · rw [String.toList_append, hrest, List.append_assoc]
    · unfold signText
      split
      · exact .inl rfl
      · split
        · exact .inr (.inr rfl)
        · exact .inr (.inl rfl)

end MemoryOperand

theorem Width.name_inj {v w : Width} (h : v.name.toList = w.name.toList) : v = w := by
  revert h
  cases v <;> cases w <;> decide

/-- Addressing modes are told apart by their texts, also with a sign behind them: no text of a mode
    is another one with a sign. -/
theorem AddressMode.text_inj {m n : AddressMode} {s t : List Char}
    (hs : s = [] ∨ s = ['+'] ∨ s = ['-']) (ht : t = [] ∨ t = ['+'] ∨ t = ['-'])
    (h : m.text.toList ++ s = n.text.toList ++ t) : m = n := by
  revert h
  rcases hs with rfl | rfl | rfl <;> rcases ht with rfl | rfl | rfl <;>
    cases m <;> cases n <;> decide

namespace MemoryOperand

variable {m n : MemoryOperand}

/-- Places that are written the same have the same addressing mode. -/
theorem mode_of_placeText (h : m.placeText.toList = n.placeText.toList) : m.mode = n.mode := by
  obtain ⟨s, rest, hm, hs, hrest⟩ := m.placeText_eq
  obtain ⟨t, rest', hn, ht, hrest'⟩ := n.placeText_eq
  -- A number starts with a zero, and nothing in front of it has one.
  have hzero (mode : AddressMode) {sign : List Char}
      (hsign : sign = [] ∨ sign = ['+'] ∨ sign = ['-']) : '0' ∉ mode.text.toList ++ sign := by
    rcases hsign with rfl | rfl | rfl <;> cases mode <;> decide
  rw [hm, hn] at h
  exact AddressMode.text_inj hs ht
    (append_word_inj (hzero _ hs) (hzero _ ht) hrest hrest' h).1

/-- Of places with the same mode, the written segment tells the segment, since where none is written
    it is the default one of the mode. -/
theorem segment_of_segmentText (hmode : m.mode = n.mode) (h : m.segmentText = n.segmentText) :
    m.segment = n.segment := by
  unfold segmentText at h
  rw [defaultSegment, defaultSegment, hmode] at h
  revert h
  generalize n.mode.defaultSegment = d
  cases m.segment <;> cases n.segment <;> cases d <;> decide

/-- **Places that are written the same are addressed the same**, but for the displacement. -/
theorem face_of_text (h : m.text = n.text) :
    m.mode = n.mode ∧ m.segment = n.segment ∧ m.width = n.width := by
  have hlist := congrArg String.toList h
  have hblank (w : Width) : ' ' ∉ w.name.toList := by cases w <;> decide
  have hbracket (m : MemoryOperand) : '[' ∉ m.segmentText := by
    unfold segmentText
    split
    · simp
    · cases m.segment <;> decide
  -- The width ends at the blank, the segment at the bracket; which segment is left out depends on
  -- the mode, so that comes first.
  rw [toList_text, toList_text] at hlist
  obtain ⟨hwidth, hlist⟩ := append_mark_inj (hblank _) (hblank _) hlist
  obtain ⟨hsegment, hlist⟩ := append_mark_inj (hbracket _) (hbracket _) hlist
  have hmode := mode_of_placeText (List.append_cancel_right hlist)
  exact ⟨hmode, segment_of_segmentText hmode hsegment, Width.name_inj hwidth⟩

end MemoryOperand

/-! ### Operands -/

/-- What the written form of an operand tells of it: the register, or how a place in memory is
    addressed, but no value. -/
inductive Face where
  | register (r : Register)
  | segment (s : SegmentRegister)
  | memory (mode : AddressMode) (segment : SegmentRegister) (width : Width)
  | condition (c : Condition)
  | entry
  | value
deriving DecidableEq, Repr

namespace Operand

def face : Operand → Face
  | .register r => .register r
  | .segment s => .segment s
  | .memory m => .memory m.mode m.segment m.width
  | .condition c => .condition c
  | .case _ => .entry
  | .immediate _ _ | .relative _ | .far _ => .value

/-- An operand that is written behind the name of its operation, and no entry of a switch. -/
def IsPlain (o : Operand) : Prop := o.condition? = none ∧ o.case? = none

end Operand

/-- Whether a text begins with a small letter, as no number does. -/
def startsSmall (cs : List Char) : Bool := cs.head?.any Char.isLower

/-- Registers have names in small letters, without the characters that divide operands or enclose
    places. -/
theorem Register.chars_name (r : Register) :
    startsSmall r.name.toList = true ∧ ',' ∉ r.name.toList ∧ '[' ∉ r.name.toList := by
  cases r <;> decide

theorem SegmentRegister.chars_name (s : SegmentRegister) :
    startsSmall s.name.toList = true ∧ ',' ∉ s.name.toList ∧ '[' ∉ s.name.toList := by
  cases s <;> decide

theorem Register.name_inj {r r' : Register} (h : r.name = r'.name) : r = r' := by
  revert h
  cases r <;> cases r' <;> decide

theorem SegmentRegister.name_inj {s s' : SegmentRegister} (h : s.name = s'.name) : s = s' := by
  revert h
  cases s <;> cases s' <;> decide

/-- No register has the name of a segment register. -/
theorem Register.name_ne_segment (r : Register) (s : SegmentRegister) : r.name ≠ s.name := by
  cases r <;> cases s <;> decide

/-- There is no comma in a place, so commas divide operands only. -/
theorem MemoryOperand.comma_placeText (m : MemoryOperand) : ',' ∉ m.placeText.toList := by
  have hnumber (n : Nat) : ',' ∉ (Hex.plain.render n).toList :=
    not_mem_render (by decide) (by decide) n
  have hdisp (d : Int16) : ',' ∉ (dispText d).toList := by
    unfold dispText
    split
    · simp
    · split <;> simp [hnumber]
  unfold placeText
  split
  · exact hnumber _
  · rw [String.toList_append, List.mem_append, not_or]
    refine ⟨?_, hdisp _⟩
    cases m.mode <;> decide

/-- A place in memory begins with the name of its width, and is the one operand with brackets. -/
theorem MemoryOperand.chars_text (m : MemoryOperand) :
    startsSmall m.text.toList = true ∧ ',' ∉ m.text.toList ∧ '[' ∈ m.text.toList := by
  have hwidth (w : Width) (rest : List Char) : startsSmall (w.name.toList ++ rest) = true ∧
      ',' ∉ w.name.toList := by
    cases w <;> simp [startsSmall, Width.name]
  have hsegment : ',' ∉ m.segmentText := by
    unfold segmentText
    split
    · simp
    · simp [m.segment.chars_name]
  rw [toList_text]
  refine ⟨(hwidth _ _).1, ?_, by simp⟩
  simp [(hwidth m.width []).2, hsegment, m.comma_placeText]

/-- An address begins with a digit or a capital letter, so it is not taken for a name. -/
theorem Address.chars_text (a : Address) :
    startsSmall a.text.toList = false ∧ ',' ∉ a.text.toList := by
  have hdigit : ∀ d < 16, (hexDigit 'A' d).isLower = false ∧ hexDigit 'A' d ≠ ',' := by decide
  have hchar : ∀ c ∈ a.text.toList, c.isLower = false ∧ c ≠ ',' := by
    have hnumber (n : Nat) : ∀ c ∈ (Hex.word.render n).toList, c.isLower = false ∧ c ≠ ',' := by
      intro c hc
      rcases mem_render hc with hc | ⟨d, hd, rfl⟩
      · cases hc
      · exact hdigit d hd
    intro c hc
    simp only [text, String.toList_append, List.mem_append] at hc
    rcases hc with (hc | hc) | hc
    · exact hnumber _ c hc
    · obtain rfl : c = ':' := by simpa using hc
      decide
    · exact hnumber _ c hc
  refine ⟨?_, fun h => (hchar _ h).2 rfl⟩
  cases hcs : a.text.toList with
  | nil => rfl
  | cons c cs => exact (hchar c (by simp [hcs])).1

namespace Instruction

variable {i j : Instruction} {o p : Operand}

/-- A value is written as a number or an address, which no small letter begins and no comma
    divides. -/
theorem chars_value (hv : o.face = .value) :
    startsSmall (i.operandText o).toList = false ∧ ',' ∉ (i.operandText o).toList := by
  have hmarked {f : Hex} (hf : f.mark = "0x") (hletter : f.letter = 'a') (n : Nat) :
      startsSmall (f.render n).toList = false ∧ ',' ∉ (f.render n).toList := by
    refine ⟨?_, not_mem_render (by rw [hf]; decide) (by rw [hletter]; decide) n⟩
    rw [Hex.render, String.toList_append, hf]
    simp [startsSmall]
  cases o with
  | immediate v w => exact hmarked rfl rfl _
  | relative d => exact hmarked rfl rfl _
  | far a => exact a.chars_text
  | register | segment | memory | condition | case => cases hv

/-- There is no comma in the text of an operand, so a list of operands falls apart in one way. -/
theorem comma_operandText (ho : o.IsPlain) : ',' ∉ (i.operandText o).toList := by
  cases o with
  | register r => exact r.chars_name.2.1
  | segment s => exact s.chars_name.2.1
  | memory m => exact m.chars_text.2.1
  | immediate | relative | far => exact (chars_value rfl).2
  | condition c => cases ho.1
  | case c => cases ho.2

/-- An operand that is no value is written with a small letter in front, which tells it from every
    value. -/
theorem startsSmall_of_ne_value (ho : o.IsPlain) (hv : o.face ≠ .value) :
    startsSmall (i.operandText o).toList = true := by
  cases o with
  | register r => exact r.chars_name.1
  | segment s => exact s.chars_name.1
  | memory m => exact m.chars_text.1
  | immediate | relative | far => exact absurd rfl hv
  | condition c => cases ho.1
  | case c => cases ho.2

/-- **Operands that are written the same are the same**, but for their values. The first character
    tells values from names, and a bracket tells places from registers. -/
theorem face_of_operandText (ho : o.IsPlain) (hp : p.IsPlain)
    (h : i.operandText o = j.operandText p) : o.face = p.face := by
  have hlist := congrArg String.toList h
  by_cases hv : o.face = .value
  · by_contra hne
    have hsmall := startsSmall_of_ne_value (i := j) hp fun he => hne (hv.trans he.symm)
    rw [← hlist, (chars_value hv).1] at hsmall
    cases hsmall
  · have hv' : p.face ≠ .value := by
      intro he
      have hsmall := startsSmall_of_ne_value (i := i) ho hv
      rw [hlist, (chars_value he).1] at hsmall
      cases hsmall
    -- What is left are registers, which have names of their own, and places in memory, which are
    -- written with a bracket.
    cases o with
    | register r =>
      cases p with
      | register r' => exact congrArg Face.register (Register.name_inj h)
      | segment s => exact absurd h (Register.name_ne_segment r s)
      | memory m => exact absurd (hlist ▸ m.chars_text.2.2) r.chars_name.2.2
      | condition => cases hp.1
      | case => cases hp.2
      | immediate | relative | far => exact absurd rfl hv'
    | segment s =>
      cases p with
      | register r => exact absurd h.symm (Register.name_ne_segment r s)
      | segment s' => exact congrArg Face.segment (SegmentRegister.name_inj h)
      | memory m => exact absurd (hlist ▸ m.chars_text.2.2) s.chars_name.2.2
      | condition => cases hp.1
      | case => cases hp.2
      | immediate | relative | far => exact absurd rfl hv'
    | memory m =>
      cases p with
      | register r => exact absurd (hlist ▸ m.chars_text.2.2) r.chars_name.2.2
      | segment s => exact absurd (hlist ▸ m.chars_text.2.2) s.chars_name.2.2
      | memory m' =>
        obtain ⟨hmode, hsegment, hwidth⟩ := MemoryOperand.face_of_text h
        rw [Operand.face, Operand.face, hmode, hsegment, hwidth]
      | condition => cases hp.1
      | case => cases hp.2
      | immediate | relative | far => exact absurd rfl hv'
    | condition => cases ho.1
    | case => cases ho.2
    | immediate | relative | far => exact absurd rfl hv

end Instruction

/-! ### Names -/

/-- What the written name of an instruction tells: the operation, the condition of a branch, and
    whether a string operation works on bytes. -/
structure Title where
  mnemonic : Mnemonic
  condition : Option Condition := none
  byte : Bool := false
deriving DecidableEq, Repr

namespace Title

/-- The name. -/
def name (t : Title) : String :=
  if t.mnemonic = .jcc then
    match t.condition with
    | some c => "j" ++ c.name
    | none => t.mnemonic.name
  else if t.mnemonic.isString then t.mnemonic.name ++ (if t.byte then "b" else "w")
  else t.mnemonic.name

/-- All of them. -/
def all : List Title :=
  (none :: Condition.all.map some).map (fun c => ⟨.jcc, c, false⟩) ++
  (Mnemonic.all.filter Mnemonic.isString).flatMap (fun m => [⟨m, none, true⟩, ⟨m, none, false⟩]) ++
  (Mnemonic.all.filter fun m => m ≠ .jcc ∧ m.isString = false).map (fun m => ⟨m, none, false⟩)

/-- A name is read back as what it was made of: no two titles have the same name. -/
theorem find?_name : ∀ t ∈ all, all.find? (·.name = t.name) = some t := by decide +kernel

/-- A name is one word, and no word for a repetition; so a repetition in front of it can be told. -/
theorem chars_name : ∀ t ∈ all, ' ' ∉ t.name.toList ∧ ∀ r ∈ Repetition.all, t.name ≠ r.name := by
  decide +kernel

end Title

/-- The list of all operations has every one of them. -/
theorem Mnemonic.mem_all (m : Mnemonic) : m ∈ all := by
  cases m <;> decide

namespace Instruction

/-- The title of an instruction. -/
def title (i : Instruction) : Title where
  mnemonic := i.mnemonic
  condition := if i.mnemonic = .jcc then i.condition? else none
  byte := i.mnemonic.isString && i.width = .byte

variable {i j : Instruction}

/-- The written name of an instruction is that of its title, so it has no more in it than the
    title. -/
theorem name_eq (i : Instruction) : i.name = i.title.name := by
  unfold name Title.name title
  by_cases hm : i.mnemonic = .jcc
  · cases i.condition? <;> simp [hm]
  · by_cases hs : i.mnemonic.isString = true <;> simp [hm, hs]

/-- Every instruction has one of the listed titles. -/
theorem title_mem (i : Instruction) : i.title ∈ Title.all := by
  simp only [Title.all, title, List.mem_append, List.mem_map, List.mem_flatMap, List.mem_filter,
    decide_eq_true_eq]
  by_cases hm : i.mnemonic = .jcc
  · have hcondition : i.condition? ∈ none :: Condition.all.map some := by
      cases i.condition? with
      | none => simp
      | some c => cases c <;> decide
    left; left
    exact ⟨i.condition?, hcondition, by rw [hm]; rfl⟩
  · cases hs : i.mnemonic.isString with
    | true =>
      left; right
      refine ⟨i.mnemonic, ⟨i.mnemonic.mem_all, hs⟩, ?_⟩
      cases decide (i.width = .byte) <;> simp [hm]
    | false =>
      right
      exact ⟨i.mnemonic, ⟨i.mnemonic.mem_all, hm, hs⟩, by simp [hm]⟩

/-- Instructions with the same written name have the same title. -/
theorem title_of_name (h : i.name = j.name) : i.title = j.title := by
  have hi := Title.find?_name i.title i.title_mem
  rw [← name_eq, h, name_eq, Title.find?_name j.title j.title_mem] at hi
  exact (Option.some.inj hi).symm

/-! ### Whole instructions -/

/-- The word in front of a repeated operation, with a blank behind it. -/
def repetitionText (i : Instruction) : List Char :=
  match i.repetition with
  | some r => r.name.toList ++ [' ']
  | none => []

/-- What is written behind the name. -/
def tailText (i : Instruction) : List Char :=
  match i.shownOperands.map i.operandText with
  | [] => []
  | shown => ' ' :: [',', ' '].intercalate (shown.map String.toList)

/-- An instruction is written as its repetition, its name and its operands, one behind the other. -/
theorem toList_text (i : Instruction) :
    i.text.toList = i.repetitionText ++ (i.name.toList ++ i.tailText) := by
  rw [text, String.toList_append, String.toList_append, List.append_assoc]
  congr 1
  · unfold repetitionText
    cases i.repetition with
    | none => rfl
    | some r => rw [String.toList_append]; rfl
  · congr 1
    unfold tailText
    cases i.shownOperands.map i.operandText with
    | nil => rfl
    | cons o os => rw [String.toList_append, String.toList_intercalate]; rfl

/-- Behind the name there is a blank, or nothing. -/
theorem tailText_cases (i : Instruction) : i.tailText = [] ∨ ∃ s, i.tailText = ' ' :: s := by
  unfold tailText
  split
  · exact .inl rfl
  · exact .inr ⟨_, rfl⟩

/-- A name is not taken for the word of a repetition, whatever its operands are. -/
theorem not_repetition {r : Repetition} {s : List Char} :
    r.name.toList ++ ' ' :: s ≠ i.name.toList ++ i.tailText := by
  intro h
  obtain ⟨hblank, hword⟩ := Title.chars_name i.title i.title_mem
  rw [← name_eq] at hblank hword
  have hr : ' ' ∉ r.name.toList := by cases r <;> decide
  have hname := (append_word_inj hr hblank (.inr ⟨s, rfl⟩) i.tailText_cases h).1
  exact hword r (by cases r <;> decide) (String.toList_inj.1 hname).symm

/-- The written form tells the repetition, the title and the text of the operands: none of the three
    can take a character from its neighbour. -/
theorem parts_of_text (h : i.text = j.text) :
    i.repetition = j.repetition ∧ i.title = j.title ∧ i.tailText = j.tailText := by
  have hlist := congrArg String.toList h
  rw [toList_text, toList_text] at hlist
  have hblank (i : Instruction) : ' ' ∉ i.name.toList := by
    rw [name_eq]
    exact (Title.chars_name i.title i.title_mem).1
  have hrest (he : i.name.toList ++ i.tailText = j.name.toList ++ j.tailText) :
      i.title = j.title ∧ i.tailText = j.tailText := by
    obtain ⟨hname, htail⟩ :=
      append_word_inj (hblank i) (hblank j) i.tailText_cases j.tailText_cases he
    exact ⟨title_of_name (String.toList_inj.1 hname), htail⟩
  -- A repetition is a word like a name, but no name of an operation.
  unfold repetitionText at hlist
  cases hi : i.repetition with
  | none =>
    cases hj : j.repetition with
    | none =>
      rw [hi, hj] at hlist
      exact ⟨rfl, hrest hlist⟩
    | some r =>
      rw [hi, hj] at hlist
      exact absurd (by simpa using hlist.symm) not_repetition
  | some r =>
    cases hj : j.repetition with
    | none =>
      rw [hi, hj] at hlist
      exact absurd (by simpa using hlist) not_repetition
    | some r' =>
      rw [hi, hj] at hlist
      have hword (r : Repetition) : ' ' ∉ r.name.toList := by cases r <;> decide
      simp only [List.append_assoc, List.singleton_append] at hlist
      obtain ⟨hr, he⟩ := append_mark_inj (hword r) (hword r') hlist
      refine ⟨?_, hrest he⟩
      revert hr
      cases r <;> cases r' <;> decide

/-- Lists of operands that are written the same are the same, one by one, but for values. -/
theorem map_face_of_operandText {os ps : List Operand} (ho : ∀ o ∈ os, o.IsPlain)
    (hp : ∀ p ∈ ps, p.IsPlain) (h : os.map i.operandText = ps.map j.operandText) :
    os.map Operand.face = ps.map Operand.face := by
  induction os generalizing ps with
  | nil =>
    obtain rfl : ps = [] := by simpa using h.symm
    rfl
  | cons o os ih =>
    cases ps with
    | nil => simp at h
    | cons p ps =>
      obtain ⟨htext, hrest⟩ := List.cons.inj h
      rw [List.map_cons, List.map_cons,
        face_of_operandText (ho o (by simp)) (hp p (by simp)) htext,
        ih (fun o h => ho o (by simp [h])) (fun p h => hp p (by simp [h])) hrest]

/-- What is written behind the name is divided into the texts of the operands at its commas. -/
theorem operandTexts_of_tailText (hi : ∀ o ∈ i.shownOperands, o.IsPlain)
    (hj : ∀ o ∈ j.shownOperands, o.IsPlain) (h : i.tailText = j.tailText) :
    i.shownOperands.map i.operandText = j.shownOperands.map j.operandText := by
  have hcomma {i : Instruction} (hi : ∀ o ∈ i.shownOperands, o.IsPlain) :
      ∀ t ∈ (i.shownOperands.map i.operandText).map String.toList, ',' ∉ t := by
    simp only [List.forall_mem_map]
    exact fun o ho => comma_operandText (hi o ho)
  replace hi := hcomma hi
  replace hj := hcomma hj
  unfold tailText at h
  generalize i.shownOperands.map i.operandText = ss at hi h ⊢
  generalize j.shownOperands.map j.operandText = ts at hj h ⊢
  cases ss with
  | nil =>
    cases ts with
    | nil => rfl
    | cons t ts => cases h
  | cons s ss =>
    cases ts with
    | nil => cases h
    | cons t ts =>
      have hsame := intercalate_inj hi hj (by simp) (by simp) (List.cons.inj h).2
      exact List.map_injective_iff.2 (fun _ _ => String.toList_inj.1) hsame

/-- **What the written form of an instruction tells.** Instructions that are written the same have
    the same repetition, operation and operands, but for the values among them. -/
theorem told_of_text (hi : ∀ o ∈ i.operands, o.case? = none)
    (hj : ∀ o ∈ j.operands, o.case? = none) (h : i.text = j.text) :
    i.repetition = j.repetition ∧ i.title = j.title ∧
      i.shownOperands.map Operand.face = j.shownOperands.map Operand.face := by
  have hplain {i : Instruction} (hi : ∀ o ∈ i.operands, o.case? = none) :
      ∀ o ∈ i.shownOperands, o.IsPlain := by
    intro o ho
    obtain ⟨hmem, hcondition⟩ := List.mem_filter.1 ho
    exact ⟨Option.isNone_iff_eq_none.1 hcondition, hi o hmem⟩
  obtain ⟨hrepetition, htitle, htail⟩ := parts_of_text h
  exact ⟨hrepetition, htitle, map_face_of_operandText (hplain hi) (hplain hj)
    (operandTexts_of_tailText (hplain hi) (hplain hj) htail)⟩

end Instruction

end RealMode
