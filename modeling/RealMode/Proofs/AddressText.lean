import Mathlib.Data.List.Forall2
import Mathlib.Data.List.TakeWhile
import Mathlib.Data.Nat.Digits.Defs
import Mathlib.Tactic.Ring
import RealMode.Machine.Address

namespace RealMode

open Text

/-!
# Which texts are addresses

An address is written in one way and read from many: digits may be small or capital, with any
number of zeros, a plus sign and marks `0x` in front.

* `Text.HexDigit`, `Text.Numeral` — a digit and its value, a run of digits and the number that it
  denotes in base sixteen;
* `Text.readHex?_eq_some_iff` — numerals are what is read as a number, `Text.numeral_hexDigits` —
  and what a number is written as;
* `Address.Unmarked` — a text without its marks, `Address.HalfSpells`, `Address.Spells` — the texts
  that spell an address;
* `Address.parse_eq_ok_iff` — these are read as the address, `Address.spells_text` — and its
  written form is one of them;
* `Address.parse_exact` — both together, and every other text is refused as it is.
-/

/-! ### Numerals -/

namespace Text

/-- The character is a hexadecimal digit of value `d`, small or capital. -/
def HexDigit (c : Char) (d : Nat) : Prop :=
  "0123456789abcdef".toList[d]? = some c ∨ "0123456789ABCDEF".toList[d]? = some c

/-- A nonempty run of hexadecimal digits, highest first, that denotes `n`. -/
def Numeral (cs : List Char) (n : Nat) : Prop :=
  cs ≠ [] ∧ ∃ ds, List.Forall₂ HexDigit cs ds ∧ Nat.ofDigits 16 ds.reverse = n

instance (c : Char) (d : Nat) : Decidable (HexDigit c d) := inferInstanceAs (Decidable (_ ∨ _))

variable {c : Char} {cs : List Char} {d n : Nat}

/-- Digits that follow each other in the order of characters are counted from the first one. The
    three ranges of digits are cases of this. -/
theorem hexDigit_of_le {first last : Char} {v : Nat}
    (hall : ∀ k ≤ last.toNat - first.toNat, HexDigit (Char.ofNat (first.toNat + k)) (k + v))
    (hfirst : first ≤ c) (hlast : c ≤ last) : HexDigit c (c.toNat - first.toNat + v) := by
  have hle : first.toNat ≤ c.toNat := hfirst
  have hle' : c.toNat ≤ last.toNat := hlast
  have hdigit := hall (c.toNat - first.toNat) (by omega)
  rwa [Nat.add_sub_cancel' hle, Char.ofNat_toNat] at hdigit

/-- Every character with a value lies in one of three ranges of digits, and has the value that its
    position there gives it. -/
theorem hexDigit_of_hexValue? (h : hexValue? c = some d) : HexDigit c d := by
  unfold hexValue? at h
  split at h
  · rename_i hc
    cases h
    exact hexDigit_of_le (v := 0) (by decide) hc.1 hc.2
  · split at h
    · rename_i hc
      cases h
      exact hexDigit_of_le (by decide) hc.1 hc.2
    · split at h
      · rename_i hc
        cases h
        exact hexDigit_of_le (by decide) hc.1 hc.2
      · cases h

/-- A character is read as the digit that it is; so small and capital digits are read alike, and no
    other character is read. -/
theorem hexValue?_eq_some_iff : hexValue? c = some d ↔ HexDigit c d := by
  refine ⟨hexDigit_of_hexValue?, fun h => ?_⟩
  have hsmall : ∀ k < 16, ("0123456789abcdef".toList[k]?).bind hexValue? = some k := by decide
  have hcapital : ∀ k < 16, ("0123456789ABCDEF".toList[k]?).bind hexValue? = some k := by decide
  rcases h with h | h
  · have hvalue := hsmall d (List.getElem?_eq_some_iff.1 h).1
    rwa [h] at hvalue
  · have hvalue := hcapital d (List.getElem?_eq_some_iff.1 h).1
    rwa [h] at hvalue

/-- Digits are read onto the number in front of them: the accumulator is moved up by one place for
    each digit, and their value comes behind it. -/
theorem readHexOnto?_eq_some_iff {acc : Nat} :
    readHexOnto? acc cs = some n ↔ ∃ ds, List.Forall₂ HexDigit cs ds ∧
      acc * 16 ^ ds.length + Nat.ofDigits 16 ds.reverse = n := by
  induction cs generalizing acc with
  | nil => simp [readHexOnto?]
  | cons c cs ih =>
    -- What is read first is in front of the rest, whether it counts as read or as a digit to read.
    have hshift (d : Nat) (ds : List Nat) :
        acc * 16 ^ (d :: ds).length + Nat.ofDigits 16 (d :: ds).reverse
          = (acc * 16 + d) * 16 ^ ds.length + Nat.ofDigits 16 ds.reverse := by
      rw [List.length_cons, List.reverse_cons, Nat.ofDigits_append, Nat.ofDigits_singleton,
        List.length_reverse]
      ring
    simp only [readHexOnto?, bind, Option.bind_eq_some_iff, hexValue?_eq_some_iff, ih]
    constructor
    · rintro ⟨d, hd, ds, hds, hn⟩
      exact ⟨d :: ds, .cons hd hds, (hshift d ds).trans hn⟩
    · rintro ⟨_, hall, hn⟩
      obtain ⟨d, ds, hd, hds, rfl⟩ := List.forall₂_cons_left_iff.1 hall
      exact ⟨d, hd, ds, hds, (hshift d ds).symm.trans hn⟩

/-- **Numerals are what is read as a number.** A number of any length is read, as long as it has a
    digit; bounds come later. -/
theorem readHex?_eq_some_iff : readHex? cs = some n ↔ Numeral cs n := by
  cases cs with
  | nil => simp [readHex?, Numeral]
  | cons c cs => simp [readHex?, Numeral, readHexOnto?_eq_some_iff]

/-- A numeral has no character that is not a digit, so a colon, a sign or a mark cannot hide in
    it. -/
theorem Numeral.not_mem (h : Numeral cs n) (hc : hexValue? c = none) : c ∉ cs := by
  obtain ⟨-, ds, hds, -⟩ := h
  induction hds with
  | nil => exact List.not_mem_nil
  | @cons c' d cs ds hd hds ih =>
    intro hmem
    rcases List.mem_cons.1 hmem with rfl | hmem
    · rw [hexValue?_eq_some_iff.2 hd] at hc
      cases hc
    · exact ih hmem

theorem numeral_singleton (h : HexDigit c d) : Numeral [c] d :=
  ⟨List.cons_ne_nil _ _, [d], .cons h .nil, by simp⟩

/-- One more digit at the end makes sixteen times as much, and its value. Digits are written in this
    order, last one last. -/
theorem Numeral.concat (h : Numeral cs n) (hd : HexDigit c d) :
    Numeral (cs ++ [c]) (n * 16 + d) := by
  obtain ⟨-, ds, hds, rfl⟩ := h
  refine ⟨by simp, ds ++ [d], List.rel_append hds (.cons hd .nil), ?_⟩
  rw [List.reverse_append, List.reverse_singleton, List.singleton_append, Nat.ofDigits_cons]
  ring

/-- Zeros in front change nothing, so a padded number is read as the number it is. -/
theorem Numeral.padZeros (h : Numeral cs n) (width : Nat) : Numeral (padZeros width cs) n := by
  obtain ⟨hne, ds, hds, rfl⟩ := h
  have hzeros (k : Nat) : List.Forall₂ HexDigit (List.replicate k '0') (List.replicate k 0) := by
    induction k with
    | zero => exact .nil
    | succ k ih => exact .cons (.inl rfl) ih
  refine ⟨by simp [Text.padZeros, hne], _, List.rel_append (hzeros _) hds, ?_⟩
  rw [List.reverse_append, List.reverse_replicate, Nat.ofDigits_append_replicate_zero]

/-- **A number is written as a numeral**, in small or in capital letters. -/
theorem numeral_hexDigits {letter : Char} (hletter : letter = 'a' ∨ letter = 'A') (n : Nat) :
    Numeral (hexDigits letter n) n := by
  have hdigit : ∀ d < 16, HexDigit (hexDigit letter d) d := by
    rcases hletter with rfl | rfl <;> decide
  fun_induction hexDigits letter n with
  | case1 n hn => exact numeral_singleton (hdigit n hn)
  | case2 n hn ih =>
    have h := ih.concat (hdigit (n % 16) (Nat.mod_lt _ (by decide)))
    rwa [Nat.div_add_mod'] at h

end Text

namespace Address

variable {cs rest : List Char} {a : Address} {s : String}

/-! ### Halves -/

/-- What is left of a text when all the marks `0x` that it begins with are removed. -/
def Unmarked (cs rest : List Char) : Prop :=
  (∃ k, cs = (List.replicate k ['0', 'x']).flatten ++ rest) ∧ ¬ ['0', 'x'] <+: rest

/-- The text spells one half of an address: behind its marks and a plus sign, if there is one, it is
    a numeral. -/
def HalfSpells (cs : List Char) (v : UInt16) : Prop :=
  ∃ rest digits, Unmarked cs rest ∧ (rest = digits ∨ rest = '+' :: digits) ∧
    Numeral digits v.toNat

/-- All marks are removed, and nothing else: what remains does not begin with one, and has lost
    nothing but marks. -/
theorem stripMarks_eq_iff : stripMarks cs = rest ↔ Unmarked cs rest := by
  constructor
  · rintro rfl
    fun_induction stripMarks cs with
    | case1 cs ih =>
      obtain ⟨⟨k, hk⟩, hrest⟩ := ih
      refine ⟨⟨k + 1, ?_⟩, hrest⟩
      rw [List.replicate_succ, List.flatten_cons, List.append_assoc, ← hk]
      rfl
    | case2 cs hne =>
      refine ⟨⟨0, rfl⟩, ?_⟩
      rintro ⟨cs', rfl⟩
      exact hne cs' rfl
  · rintro ⟨⟨k, rfl⟩, hrest⟩
    induction k with
    | zero =>
      show stripMarks rest = rest
      unfold stripMarks
      split
      · rename_i cs
        exact absurd ⟨cs, rfl⟩ hrest
      · rfl
    | succ k ih => exact ih

/-- A numeral may have one plus sign in front, which is the one that is stripped. No digit is a plus
    sign, so there is never a choice. -/
theorem numeral_stripPlus_iff {n : Nat} :
    Numeral (stripPlus cs) n ↔ ∃ digits, (cs = digits ∨ cs = '+' :: digits) ∧ Numeral digits n := by
  unfold stripPlus
  split
  · rename_i digits
    constructor
    · exact fun h => ⟨digits, .inr rfl, h⟩
    · rintro ⟨digits', rfl | heq, h⟩
      · -- A sign is no digit.
        exact absurd List.mem_cons_self (h.not_mem (by decide))
      · cases heq
        exact h
  · rename_i hplus
    constructor
    · exact fun h => ⟨cs, .inl rfl, h⟩
    · rintro ⟨digits, rfl | rfl, h⟩
      · exact h
      · exact absurd rfl (hplus digits)

/-- The texts that spell a half are what is read as it; numbers that are too large for a half spell
    none. -/
theorem half?_eq_some_iff {v : UInt16} : half? cs = some v ↔ HalfSpells cs v := by
  -- A word is below the bound by its type, so the spelling need not say so.
  have hword (n : Nat) :
      (if n < 65536 then some (UInt16.ofNat n) else none) = some v ↔ n = v.toNat := by
    constructor
    · intro h
      split at h
      · rename_i hn
        cases h
        exact (UInt16.toNat_ofNat_of_lt' hn).symm
      · cases h
    · rintro rfl
      rw [if_pos v.toNat_lt, UInt16.ofNat_toNat]
  simp only [half?, bind, Option.bind_eq_some_iff, readHex?_eq_some_iff, hword,
    numeral_stripPlus_iff, HalfSpells, ← stripMarks_eq_iff]
  constructor
  · rintro ⟨_, ⟨digits, hrest, hdigits⟩, rfl⟩
    exact ⟨_, digits, rfl, hrest, hdigits⟩
  · rintro ⟨_, digits, rfl, hrest, hdigits⟩
    exact ⟨_, ⟨digits, hrest, hdigits⟩, rfl⟩

/-! ### Whole addresses -/

/-- The text spells the address: its halves stand on the two sides of the first colon. -/
def Spells (s : String) (a : Address) : Prop :=
  ∃ left right, s.toList = left ++ ':' :: right ∧ ':' ∉ left ∧
    HalfSpells left a.seg ∧ HalfSpells right a.off

/-- A text is divided at the first colon. Any other one is left to the second half, which no colon
    can be part of. -/
theorem ofChars?_eq_some_iff :
    ofChars? cs = some a ↔ ∃ left right, cs = left ++ ':' :: right ∧ ':' ∉ left ∧
      half? left = some a.seg ∧ half? right = some a.off := by
  unfold ofChars?
  constructor
  · intro h
    split at h
    · cases h
    · rename_i colon right hdrop
      -- What is cut off at is a colon, as everything before it is none.
      have hcolon : colon = ':' := by
        have hhead := List.head_dropWhile_not (· != ':') (l := cs) (by simp [hdrop])
        simpa [hdrop] using hhead
      subst hcolon
      simp only [bind, Option.bind_eq_some_iff, Option.some.injEq] at h
      obtain ⟨seg, hseg, off, hoff, rfl⟩ := h
      refine ⟨cs.takeWhile (· != ':'), right, ?_, ?_, hseg, hoff⟩
      · rw [← hdrop, List.takeWhile_append_dropWhile]
      · intro hmem
        simpa using List.mem_takeWhile_imp hmem
  · rintro ⟨left, right, rfl, hleft, hseg, hoff⟩
    have hpass : ∀ c ∈ left, (c != ':') = true := by
      intro c hc
      simp [ne_of_mem_of_not_mem hc hleft]
    rw [List.dropWhile_append_of_pos hpass, List.takeWhile_append_of_pos hpass]
    simp [hseg, hoff]

/-- **The texts that spell an address are what is read as it.** -/
theorem parse_eq_ok_iff : parse s = .ok a ↔ Spells s a := by
  have hread : ofChars? s.toList = some a ↔ Spells s a := by
    simp only [ofChars?_eq_some_iff, half?_eq_some_iff, Spells]
  rw [← hread, parse]
  cases ofChars? s.toList <;> simp

/-- Every other text is refused, and the error gives it back as it is. -/
theorem parse_eq_error_iff : parse s = .error ⟨s⟩ ↔ ¬ ∃ a, Spells s a := by
  simp only [← parse_eq_ok_iff, parse]
  cases ofChars? s.toList <;> simp

/-- A numeral spells a half as it stands, without any mark or sign. -/
theorem halfSpells_of_numeral {v : UInt16} (h : Numeral cs v.toNat) : HalfSpells cs v := by
  refine ⟨cs, cs, ⟨⟨0, rfl⟩, ?_⟩, .inl rfl, h⟩
  rintro ⟨cs', rfl⟩
  exact h.not_mem (c := 'x') (by decide) (by simp)

/-- **The written form of an address spells it**: its halves are numerals, and the only colon is the
    one between them. -/
theorem spells_text (a : Address) : Spells a.text a := by
  have hhalf (v : UInt16) : Numeral (Hex.word.render v.toNat).toList v.toNat := by
    rw [Hex.render, String.toList_append, String.toList_ofList]
    exact (numeral_hexDigits (.inr rfl) _).padZeros _
  refine ⟨_, _, ?_, (hhalf a.seg).not_mem (by decide), halfSpells_of_numeral (hhalf a.seg),
    halfSpells_of_numeral (hhalf a.off)⟩
  rw [text, String.toList_append, String.toList_append, List.append_assoc]
  rfl

/-- **Addresses are read exactly.** Each is read back from its written form. A text is read as an
    address if and only if it has a colon, and each of the parts before and behind the first one is
    a numeral below 65536, with a plus sign in front or none, when all marks `0x` are removed; any
    other text is refused and given back as it is. -/
theorem parse_exact :
    (∀ a : Address, parse a.text = .ok a) ∧
      ∀ s : String, (∀ a, parse s = .ok a ↔ Spells s a) ∧
        (parse s = .error ⟨s⟩ ↔ ¬ ∃ a, Spells s a) := by
  refine ⟨fun a => ?_, fun s => ⟨fun a => ?_, ?_⟩⟩
  · exact parse_eq_ok_iff.2 a.spells_text
  · exact parse_eq_ok_iff
  · exact parse_eq_error_iff

example : parse "0x0x+001a:FFFF" = .ok ⟨0x1A, 0xFFFF⟩ := by decide

-- A mark behind the sign is not removed, and `x` is no digit.
example : parse "+0x1A:FFFF" = .error ⟨"+0x1A:FFFF"⟩ := by decide

end Address

end RealMode
