import Mathlib.Data.List.Range
import RealMode.Image.Basic

namespace RealMode

/-!
# Which files are programs

A header has fourteen words that nobody has checked; they say where the load module begins and ends,
and where the table of relocations is. Here the loader is compared with a list of conditions on the
words of a file, each read by its position.

* `wordAt` — a word of a file, `Header.ofFile` — the words at its front;
* `ProgramFile.checks` — the conditions in order, each with the error of a file that fails it;
* `ProgramFile.parseMz_eq` — a file that fails none is loaded, any other is refused for the first;
* `ProgramFile.Loads` — an image is what the words of a file say;
* `ProgramFile.strictParse` — the same loader, which stops where anything is taken from outside of
  the file or below zero. It never does (`ProgramFile.agrees_strictParse`);
* `parseMz_exact` — all of this together.
-/

/-! ### Words of a file -/

/-- The word at an offset of a file, low byte first. -/
def wordAt (bytes : List UInt8) (off : Nat) : UInt16 :=
  littleEndian (bytes.getD off 0) (bytes.getD (off + 1) 0)

/-- A word behind a part that is dropped is one of the whole, that much further on. -/
theorem wordAt_drop (bytes : List UInt8) (n off : Nat) :
    wordAt (bytes.drop n) off = wordAt bytes (n + off) := by
  simp [wordAt, List.getD_eq_getElem?_getD, Nat.add_assoc]

/-- A word inside a part that is taken is one of the whole. -/
theorem wordAt_take {bytes : List UInt8} {n off : Nat} (h : off + 2 ≤ n) :
    wordAt (bytes.take n) off = wordAt bytes off := by
  have hlow : off < n := by omega
  have hhigh : off + 1 < n := by omega
  simp [wordAt, List.getD_eq_getElem?_getD, hlow, hhigh]

/-- A block of bytes has a word where it has two bytes. -/
theorem Memory.word?_eq (m : Memory) (i : Nat) :
    m.word? i = if i + 2 ≤ m.bytes.length then some (wordAt m.bytes i) else none := by
  rw [word?, suffix?_eq]
  by_cases h : i + 2 ≤ m.bytes.length
  · have hlow : i < m.bytes.length := by omega
    have hhigh : i + 1 < m.bytes.length := by omega
    rw [if_pos hlow, if_pos h, List.drop_eq_getElem_cons hlow, List.drop_eq_getElem_cons hhigh]
    simp [wordAt, hlow, hhigh]
  · -- There is one byte at the most.
    have hlength : (m.bytes.drop i).length < 2 := by
      rw [List.length_drop]
      omega
    rw [if_neg h]
    split
    · rename_i hsuffix
      split at hsuffix
      · rw [Option.some.inj hsuffix, List.length_cons, List.length_cons] at hlength
        omega
      · cases hsuffix
    · rfl

namespace Header

/-- The words at the front of a file. -/
def ofFile (bytes : List UInt8) : Header where
  magic := wordAt bytes 0
  lastPageBytes := wordAt bytes 2
  pages := wordAt bytes 4
  relocationCount := wordAt bytes 6
  paragraphs := wordAt bytes 8
  minAlloc := wordAt bytes 10
  maxAlloc := wordAt bytes 12
  ss := wordAt bytes 14
  sp := wordAt bytes 16
  checksum := wordAt bytes 18
  ip := wordAt bytes 20
  cs := wordAt bytes 22
  relocationOffset := wordAt bytes 24
  overlay := wordAt bytes 26

/-- The words of a part, read two bytes at a time, are its words by position. An odd byte at the end
    is left over. -/
theorem words_eq (bs : List UInt8) :
    words bs = (List.range (bs.length / 2)).map fun k => wordAt bs (2 * k) := by
  fun_induction words bs with
  | case1 low high bs ih =>
    have hhalf : (low :: high :: bs).length / 2 = bs.length / 2 + 1 := by
      simp only [List.length_cons]
      omega
    rw [ih, hhalf, List.range_succ_eq_map, List.map_cons, List.map_map]
    congr 1
  | case2 bs hshort =>
    match bs with
    | [] => rfl
    | [b] => simp
    | low :: high :: bs => exact absurd rfl (hshort low high bs)

/-- A file has a header exactly if it is long enough. -/
theorem parse?_eq (bytes : List UInt8) :
    parse? bytes = if fixedSize ≤ bytes.length then some (ofFile bytes) else none := by
  have hwords : words (bytes.take fixedSize) =
      (List.range (min fixedSize bytes.length / 2)).map fun k => wordAt bytes (2 * k) := by
    rw [words_eq, List.length_take]
    apply List.map_congr_left
    intro k hk
    have hlt := List.mem_range.1 hk
    exact wordAt_take (by omega)
  unfold parse?
  rw [hwords]
  split_ifs with h
  · rw [Nat.min_eq_left h]
    rfl
  · split
    · rename_i heq
      have hlength := congrArg List.length heq
      simp only [List.length_map, List.length_range, List.length_cons, List.length_nil,
        fixedSize] at h hlength
      omega
    · rfl

theorem size_eq (h : Header) : h.size = 16 * h.paragraphs.toNat := Nat.mul_comm ..

end Header

/-- The relocation table by position: the offset comes first in each entry, then the segment. -/
theorem relocationEntries_eq (count : Nat) (bs : List UInt8) (h : 4 * count ≤ bs.length) :
    relocationEntries count bs =
      (List.range count).map fun k => ⟨wordAt bs (4 * k + 2), wordAt bs (4 * k)⟩ := by
  induction count generalizing bs with
  | zero => rfl
  | succ count ih =>
    match bs with
    | o₀ :: o₁ :: s₀ :: s₁ :: bs =>
      have hrest : 4 * count ≤ bs.length := by
        simp only [List.length_cons] at h
        omega
      rw [relocationEntries, ih bs hrest, List.range_succ_eq_map, List.map_cons, List.map_map]
      rfl
    | [] | [_] | [_, _] | [_, _, _] =>
      simp only [List.length_cons, List.length_nil] at h
      omega

/-! ### Checks -/

namespace ProgramFile

variable {α : Type} {bytes : List UInt8}

/-- A condition on a file, and the error of a file that does not meet it. -/
structure Check where
  holds : Bool
  error : LoadError

/-- The error of the first check that fails. -/
def firstFault? (checks : List Check) : Option LoadError :=
  (checks.find? (!·.holds)).map Check.error

/-- What comes of checks that are made in front of something. -/
def guarded (checks : List Check) (x : Except LoadError α) : Except LoadError α :=
  match firstFault? checks with
  | some e => .error e
  | none => x

/-- If the first check fails, its error is the one that counts, whatever comes behind it. -/
theorem firstFault?_cons (c : Check) (cs : List Check) :
    firstFault? (c :: cs) = if c.holds then firstFault? cs else some c.error := by
  cases h : c.holds
  · simp [firstFault?, h]
  · simp [firstFault?, h]

theorem guarded_of_fails {c : Check} {cs : List Check} {x : Except LoadError α}
    (h : c.holds = false) : guarded (c :: cs) x = .error c.error := by
  simp [guarded, firstFault?_cons, h]

theorem guarded_of_holds {c : Check} {cs : List Check} {x : Except LoadError α}
    (h : c.holds = true) : guarded (c :: cs) x = guarded cs x := by
  simp [guarded, firstFault?_cons, h]

/-- One check more in front: a test of the loader that ends with an error, and what follows it, as a
    list of checks. This lemma takes the loader apart, test by test. -/
theorem guarded_cons {p : Prop} [Decidable p] {holds : Bool} {e : LoadError} {cs : List Check}
    {x y : Except LoadError α} (hp : holds = true ↔ ¬ p) (h : ¬ p → y = guarded cs x) :
    (if p then .error e else y) = guarded (⟨holds, e⟩ :: cs) x := by
  by_cases hp' : p
  · rw [if_pos hp', guarded_of_fails (by simp [Bool.eq_false_iff, hp, hp'])]
  · rw [if_neg hp', guarded_of_holds (hp.2 hp'), h hp']

/-- Checks made in front of a computation are made in front of what follows it, too. -/
theorem guarded_bind {β : Type} (cs : List Check) (x : Except LoadError α)
    (f : α → Except LoadError β) : (guarded cs x >>= f) = guarded cs (x >>= f) := by
  unfold guarded
  cases firstFault? cs <;> rfl

/-- The place that entry `k` of the relocation table names. -/
def site (bytes : List UInt8) (k : Nat) : Nat :=
  let entry := (Header.ofFile bytes).relocationOffset.toNat + 4 * k
  16 * (wordAt bytes (entry + 2)).toNat + (wordAt bytes entry).toNat

/-- Each entry of the relocation table must leave room for a word in a module of `size` bytes. -/
def siteChecks (bytes : List UInt8) (size : Nat) : List Check :=
  (List.range (Header.ofFile bytes).relocationCount.toNat).map fun k =>
    ⟨site bytes k + 2 ≤ size, .relocationSiteOutOfBounds (site bytes k)⟩

/-- What a file is checked for, in order. -/
def checks (bytes : List UInt8) : List Check :=
  let h := Header.ofFile bytes
  let start := 16 * h.paragraphs.toNat
  [ ⟨28 ≤ bytes.length, .tooSmall⟩,
    ⟨h.magic = 0x5A4D ∨ h.magic = 0x4D5A, .invalidMagic⟩,
    ⟨28 ≤ start ∧ start ≤ bytes.length, .headerOutOfBounds⟩,
    ⟨start ≤ h.fileEnd ∧ h.fileEnd ≤ bytes.length, .loadModuleOutOfBounds⟩,
    ⟨h.relocationOffset.toNat + 4 * h.relocationCount.toNat ≤ bytes.length,
      .relocationsOutOfBounds⟩ ] ++ siteChecks bytes (h.fileEnd - start)

/-- A file that passes all checks. -/
structure WellFormed (bytes : List UInt8) : Prop where
  long : 28 ≤ bytes.length
  magic : (Header.ofFile bytes).magic = 0x5A4D ∨ (Header.ofFile bytes).magic = 0x4D5A
  header : 28 ≤ 16 * (Header.ofFile bytes).paragraphs.toNat ∧
    16 * (Header.ofFile bytes).paragraphs.toNat ≤ bytes.length
  module : 16 * (Header.ofFile bytes).paragraphs.toNat ≤ (Header.ofFile bytes).fileEnd ∧
    (Header.ofFile bytes).fileEnd ≤ bytes.length
  table : (Header.ofFile bytes).relocationOffset.toNat +
    4 * (Header.ofFile bytes).relocationCount.toNat ≤ bytes.length
  sites : ∀ k < (Header.ofFile bytes).relocationCount.toNat, site bytes k + 2 ≤
    (Header.ofFile bytes).fileEnd - 16 * (Header.ofFile bytes).paragraphs.toNat

/-- The conditions of the structure are those of the list. One is for reading, the other says which
    of them comes first. -/
theorem wellFormed_iff : WellFormed bytes ↔ firstFault? (checks bytes) = none := by
  have hall : firstFault? (checks bytes) = none ↔ ∀ c ∈ checks bytes, c.holds = true := by
    simp [firstFault?]
  rw [hall]
  simp only [checks, siteChecks, List.forall_mem_append, List.forall_mem_cons, List.forall_mem_map,
    List.mem_range, decide_eq_true_eq]
  constructor
  · rintro ⟨hlong, hmagic, hheader, hmodule, htable, hsites⟩
    exact ⟨⟨hlong, hmagic, hheader, hmodule, htable, by simp⟩, hsites⟩
  · rintro ⟨⟨hlong, hmagic, hheader, hmodule, htable, -⟩, hsites⟩
    exact ⟨hlong, hmagic, hheader, hmodule, htable, hsites⟩

/-- The places that the loader adjusts. -/
def sites (bytes : List UInt8) : AddressSet :=
  (List.range (Header.ofFile bytes).relocationCount.toNat).foldl
    (fun sites k => sites.insert (site bytes k)) ∅

/-- The program in a file that passes all checks. -/
def program (bytes : List UInt8) : Image where
  memory := .ofList ((bytes.drop (Header.ofFile bytes).size).take
    ((Header.ofFile bytes).fileEnd - (Header.ofFile bytes).size))
  base := 0
  relocations := sites bytes
  entry := ⟨(Header.ofFile bytes).cs, (Header.ofFile bytes).ip⟩
  stack := some ⟨(Header.ofFile bytes).ss, (Header.ofFile bytes).sp⟩
  format := .mz

/-- Sites are checked one after another. -/
theorem relocationSites_eq (size : Nat) (entries : List Address) :
    Image.relocationSites size entries =
      guarded (entries.map fun a => ⟨a.linear + 2 ≤ size, .relocationSiteOutOfBounds a.linear⟩)
        (.ok (entries.foldl (fun sites a => sites.insert a.linear) ∅)) := by
  unfold Image.relocationSites
  generalize (∅ : AddressSet) = known
  induction entries generalizing known with
  | nil => rfl
  | cons a entries ih =>
    rw [List.foldlM_cons, List.map_cons, List.foldl_cons, ← guarded_cons (p := size < a.linear + 2)
      (by simp) fun _ => ih (known.insert a.linear)]
    split <;> rfl

/-- The relocations of a file that has all of its table. -/
theorem relocationSites_of_table {size : Nat}
    (h : (Header.ofFile bytes).relocationOffset.toNat +
      4 * (Header.ofFile bytes).relocationCount.toNat ≤ bytes.length) :
    Image.relocationSites size (relocationEntries (Header.ofFile bytes).relocationCount.toNat
        (bytes.drop (Header.ofFile bytes).relocationOffset.toNat)) =
      guarded (siteChecks bytes size) (.ok (sites bytes)) := by
  have hlinear (k : Nat) : (Address.mk
      (wordAt (bytes.drop (Header.ofFile bytes).relocationOffset.toNat) (4 * k + 2))
      (wordAt (bytes.drop (Header.ofFile bytes).relocationOffset.toNat) (4 * k))).linear =
        site bytes k := by
    rw [wordAt_drop, wordAt_drop, Address.linear, site, Nat.mul_comm, Nat.add_assoc]
  have hfits : 4 * (Header.ofFile bytes).relocationCount.toNat ≤
      (bytes.drop (Header.ofFile bytes).relocationOffset.toNat).length := by
    rw [List.length_drop]
    omega
  rw [relocationEntries_eq _ _ hfits, relocationSites_eq, List.map_map, List.foldl_map]
  simp only [Function.comp_def, hlinear, siteChecks, sites]

/-- **A file is loaded if it passes all checks**, and refused for the first that it fails
    otherwise. -/
theorem parseMz_eq (bytes : List UInt8) :
    Image.parseMz bytes = guarded (checks bytes) (.ok (program bytes)) := by
  have hsize := (Header.ofFile bytes).size_eq
  unfold Image.parseMz
  rw [Header.parse?_eq]
  by_cases hlong : Header.fixedSize ≤ bytes.length
  case neg =>
    rw [if_neg hlong]
    exact (guarded_of_fails (c := ⟨28 ≤ bytes.length, .tooSmall⟩) (decide_eq_false hlong)).symm
  rw [if_pos hlong]
  refine Eq.trans ?_
    (guarded_of_holds (c := ⟨28 ≤ bytes.length, .tooSmall⟩) (decide_eq_true hlong)).symm
  refine guarded_cons (by simp [Header.hasMagic, Header.isMagic, or_iff_not_imp_left]) fun _ => ?_
  refine guarded_cons (by simp [Header.fixedSize, hsize]) fun _ => ?_
  refine guarded_cons (by simp [hsize]) fun _ => ?_
  refine guarded_cons (by simp) fun htable => ?_
  rw [← hsize]
  exact (congrArg (· >>= _) (relocationSites_of_table (Nat.le_of_not_lt htable))).trans
    (guarded_bind ..)

/-! ### What is loaded -/

/-- The image is what the words of the file say. -/
structure Loads (bytes : List UInt8) (image : Image) : Prop where
  size : image.memory.size =
    (Header.ofFile bytes).fileEnd - 16 * (Header.ofFile bytes).paragraphs.toNat
  byte : ∀ k < image.memory.size,
    image.memory.bytes[k]? = bytes[16 * (Header.ofFile bytes).paragraphs.toNat + k]?
  base : image.base = 0
  relocated : ∀ s, image.isRelocated s = true ↔
    ∃ k < (Header.ofFile bytes).relocationCount.toNat, site bytes k = s
  /-- Every place that the loader adjusts has a word in the image. -/
  word : ∀ s, image.isRelocated s = true →
    image.word? s = some (wordAt bytes (16 * (Header.ofFile bytes).paragraphs.toNat + s))
  entry : image.entry = ⟨(Header.ofFile bytes).cs, (Header.ofFile bytes).ip⟩
  stack : image.stack = some ⟨(Header.ofFile bytes).ss, (Header.ofFile bytes).sp⟩
  format : image.format = .mz

/-- A set that elements are inserted into one by one holds those, and what it held before. -/
theorem contains_foldl_insert (f : Nat → Nat) (ks : List Nat) (known : AddressSet) (s : Nat) :
    (ks.foldl (fun sites k => sites.insert (f k)) known).contains s = true ↔
      known.contains s = true ∨ ∃ k ∈ ks, f k = s := by
  induction ks generalizing known with
  | nil => simp
  | cons k ks ih =>
    rw [List.foldl_cons, ih, Std.ExtTreeSet.contains_insert]
    simp [or_assoc, or_left_comm]

/-- The places that the loader adjusts are those that the table names, each once however often it is
    named. -/
theorem contains_sites_iff {s : Nat} :
    (sites bytes).contains s = true ↔
      ∃ k < (Header.ofFile bytes).relocationCount.toNat, site bytes k = s := by
  rw [sites, contains_foldl_insert]
  simp

/-- The program of a file that passes all checks is what its words say. -/
theorem loads_program (h : WellFormed bytes) : Loads bytes (program bytes) := by
  have hsize := (Header.ofFile bytes).size_eq
  obtain ⟨hstart, hend⟩ := h.module
  rw [← hsize] at hstart
  have hlength : (program bytes).memory.bytes.length =
      (Header.ofFile bytes).fileEnd - (Header.ofFile bytes).size := by
    rw [program, Memory.bytes_ofList, List.length_take, List.length_drop]
    omega
  have hmemory : (program bytes).memory.size = (program bytes).memory.bytes.length :=
    Memory.size_eq _
  refine ⟨by rw [hmemory, hlength, hsize], fun k hk => ?_, rfl, fun s => contains_sites_iff,
    fun s hs => ?_, rfl, rfl, rfl⟩
  · rw [hmemory, hlength] at hk
    rw [program, Memory.bytes_ofList, List.getElem?_take_of_lt hk, List.getElem?_drop, hsize]
  · obtain ⟨k, hk, rfl⟩ := contains_sites_iff.1 hs
    -- A site has room for its word, so the word is inside the load module.
    have hroom := h.sites k hk
    rw [← hsize] at hroom
    have hin : (program bytes).contains (site bytes k) = true := by
      have hbase : (program bytes).base = 0 := rfl
      simp only [Image.contains, Image.top, hmemory, hlength, hbase, Bool.and_eq_true,
        decide_eq_true_eq]
      omega
    rw [Image.word?, if_pos hin, Memory.word?_eq, if_pos (by rw [hlength]; exact hroom)]
    show some (wordAt ((bytes.drop _).take _) (site bytes k)) = _
    rw [wordAt_take hroom, wordAt_drop, hsize]

/-! ### Nothing out of range -/

/-- What is left of `a`, if `b` can be taken away. -/
def sub? (a b : Nat) : Option Nat := if b ≤ a then some (a - b) else none

/-- The bytes from `low` up to `high`, if all of them are there. -/
def slice? (bytes : List UInt8) (low high : Nat) : Option (List UInt8) :=
  if low ≤ high ∧ high ≤ bytes.length then some ((bytes.drop low).take (high - low)) else none

/-- The word at an offset, if both its bytes are there. -/
def word? (bytes : List UInt8) (off : Nat) : Option UInt16 :=
  (slice? bytes off (off + 2)).map (wordAt · 0)

/-- The words at the front, if all of them are there. -/
def header? (bytes : List UInt8) : Option Header := do
  return {
    magic := ← word? bytes 0
    lastPageBytes := ← word? bytes 2
    pages := ← word? bytes 4
    relocationCount := ← word? bytes 6
    paragraphs := ← word? bytes 8
    minAlloc := ← word? bytes 10
    maxAlloc := ← word? bytes 12
    ss := ← word? bytes 14
    sp := ← word? bytes 16
    checksum := ← word? bytes 18
    ip := ← word? bytes 20
    cs := ← word? bytes 22
    relocationOffset := ← word? bytes 24
    overlay := ← word? bytes 26 }

/-- Where the load module ends, if its last page can be taken away. -/
def fileEnd? (h : Header) : Option Nat :=
  let full := h.pages.toNat * Header.pageSize
  if h.lastPageBytes = 0 ∨ h.pages = 0 then some full
  else (sub? full Header.pageSize).map (· + h.lastPageBytes.toNat)

/-- The sites of the relocation table, read word by word. -/
def strictSites (bytes : List UInt8) (h : Header) (size : Nat) :
    ExceptT LoadError Option AddressSet :=
  (List.range h.relocationCount.toNat).foldlM (fun sites k => do
    let off ← word? bytes (h.relocationOffset.toNat + 4 * k)
    let seg ← word? bytes (h.relocationOffset.toNat + 4 * k + 2)
    let site := (Address.mk seg off).linear
    if site + 2 > size then throw (.relocationSiteOutOfBounds site)
    return sites.insert site) ∅

/-- Loads a relocatable program, but gives nothing where anything is taken from outside of the file
    or below zero. -/
def strictParse (bytes : List UInt8) : ExceptT LoadError Option Image := do
  if bytes.length < Header.fixedSize then throw .tooSmall
  let header ← header? bytes
  if !header.hasMagic then throw .invalidMagic
  let fileEnd ← fileEnd? header
  if header.size < Header.fixedSize ∨ header.size > bytes.length then throw .headerOutOfBounds
  if fileEnd < header.size ∨ fileEnd > bytes.length then throw .loadModuleOutOfBounds
  let code ← slice? bytes header.size fileEnd
  if header.relocationOffset.toNat + 4 * header.relocationCount.toNat > bytes.length then
    throw .relocationsOutOfBounds
  let sites ← strictSites bytes header code.length
  return {
    memory := .ofList code
    base := 0
    relocations := sites
    entry := ⟨header.cs, header.ip⟩
    stack := some ⟨header.ss, header.sp⟩
    format := .mz }

/-- A word that is inside the file is read without fail. -/
theorem word?_eq {off : Nat} (h : off + 2 ≤ bytes.length) :
    word? bytes off = some (wordAt bytes off) := by
  rw [word?, slice?, if_pos ⟨by omega, h⟩, Option.map_some, wordAt_take (by omega), wordAt_drop]
  rfl

/-- The words at the front of a file that is long enough are all there. -/
theorem header?_eq (h : Header.fixedSize ≤ bytes.length) :
    header? bytes = some (Header.ofFile bytes) := by
  unfold Header.fixedSize at h
  have hword {off : Nat} (hoff : off ≤ 26) : word? bytes off = some (wordAt bytes off) :=
    word?_eq (by omega)
  simp [header?, hword]
  rfl

/-- The end of the load module is never below zero: the last page is taken away only if there is
    one. -/
theorem fileEnd?_eq (h : Header) : fileEnd? h = some h.fileEnd := by
  unfold fileEnd? Header.fileEnd
  split
  · rfl
  · rename_i hfull
    have hpages : 0 < h.pages.toNat := by
      rw [not_or, ← UInt16.toNat_inj] at hfull
      exact Nat.pos_of_ne_zero fun h0 => hfull.2 (by rw [← UInt16.toNat_inj, h0]; rfl)
    have hpage : Header.pageSize ≤ h.pages.toNat * Header.pageSize :=
      Nat.le_mul_of_pos_left _ hpages
    simp only [sub?, if_pos hpage, Option.map_some]

/-- The strict computation comes to its end, with the same outcome. -/
def Agrees (x : ExceptT LoadError Option α) (y : Except LoadError α) : Prop := x.run = some y

/-- Two computations that agree still do behind others that agree. The second ones need to agree
    only on what the first can give. -/
theorem Agrees.bind {β : Type} {x : ExceptT LoadError Option α} {y : Except LoadError α}
    {f : α → ExceptT LoadError Option β} {g : α → Except LoadError β} (h : Agrees x y)
    (hf : ∀ a, y = .ok a → Agrees (f a) (g a)) : Agrees (x >>= f) (y >>= g) := by
  unfold Agrees at h
  rw [Agrees, ExceptT.run_bind, h]
  cases y with
  | error e => rfl
  | ok a => exact hf a rfl

/-- They agree behind a test that both make, in the same words. -/
theorem Agrees.ite {p : Prop} [Decidable p] {e : LoadError} {f : Unit → ExceptT LoadError Option α}
    {y : Except LoadError α} (h : ¬ p → Agrees (f ()) y) :
    Agrees (if p then throw e >>= f else f ()) (if p then .error e else y) := by
  by_cases hp : p
  · rw [if_pos hp, if_pos hp]
    rfl
  · rw [if_neg hp, if_neg hp]
    exact h hp

/-- A part that the strict computation alone may fail at can be left out if it does not. -/
theorem Agrees.lift {β : Type} {o : Option β} {b : β} {f : β → ExceptT LoadError Option α}
    {y : Except LoadError α} (ho : o = some b) (h : Agrees (f b) y) : Agrees (liftM o >>= f) y := by
  subst ho
  exact h

/-- Loops agree if each of their steps does. -/
theorem Agrees.foldlM {β : Type} {f : α → β → ExceptT LoadError Option α}
    {g : α → β → Except LoadError α} {bs : List β} (h : ∀ b ∈ bs, ∀ a, Agrees (f a b) (g a b))
    (a : α) : Agrees (bs.foldlM f a) (bs.foldlM g a) := by
  induction bs generalizing a with
  | nil => rfl
  | cons b bs ih =>
    rw [List.foldlM_cons, List.foldlM_cons]
    exact (h b (by simp) a).bind fun a _ => ih (fun b hb => h b (by simp [hb])) a

/-- The relocation table of a file that has all of it is read without leaving the file. -/
theorem agrees_strictSites {size : Nat}
    (h : (Header.ofFile bytes).relocationOffset.toNat +
      4 * (Header.ofFile bytes).relocationCount.toNat ≤ bytes.length) :
    Agrees (strictSites bytes (Header.ofFile bytes) size)
      (Image.relocationSites size (relocationEntries (Header.ofFile bytes).relocationCount.toNat
        (bytes.drop (Header.ofFile bytes).relocationOffset.toNat))) := by
  rw [relocationEntries_eq _ _ (by rw [List.length_drop]; omega), Image.relocationSites,
    List.foldlM_map]
  refine Agrees.foldlM (fun k hk sites => ?_) ∅
  have hk := List.mem_range.1 hk
  refine .lift (word?_eq (by omega)) (.lift (word?_eq (by omega)) ?_)
  rw [wordAt_drop, wordAt_drop]
  exact .ite fun _ => rfl

/-- **Nothing is taken from outside of a file, or below zero.** Each test of the loader is there for
    one of the parts that the strict loader could fail at behind it. -/
theorem agrees_strictParse (bytes : List UInt8) :
    Agrees (strictParse bytes) (Image.parseMz bytes) := by
  unfold strictParse Image.parseMz
  rw [Header.parse?_eq]
  by_cases hlong : Header.fixedSize ≤ bytes.length
  case neg =>
    rw [if_neg hlong, if_pos (Nat.lt_of_not_le hlong)]
    rfl
  rw [if_pos hlong, if_neg (Nat.not_lt_of_le hlong)]
  refine .lift (header?_eq hlong) (.ite fun _ => ?_)
  refine .lift (fileEnd?_eq _) (.ite fun _ => .ite fun hmodule => ?_)
  refine .lift (if_pos (by omega)) (.ite fun htable => ?_)
  have hsize : ((bytes.drop (Header.ofFile bytes).size).take ((Header.ofFile bytes).fileEnd -
      (Header.ofFile bytes).size)).length =
        (Header.ofFile bytes).fileEnd - (Header.ofFile bytes).size := by
    rw [List.length_take, List.length_drop]
    omega
  rw [hsize]
  exact (agrees_strictSites (Nat.le_of_not_lt htable)).bind fun sites _ => rfl

end ProgramFile

open ProgramFile

/-- **The loader takes the files that are well formed, and no others.** Any other file is refused
    for the first check that it fails; nothing is taken from outside of a file or below zero; and an
    image is what the words of its file say. -/
theorem parseMz_exact (bytes : List UInt8) :
    ((∃ image, Image.parseMz bytes = .ok image) ↔ WellFormed bytes) ∧
    (∀ e, Image.parseMz bytes = .error e ↔ firstFault? (checks bytes) = some e) ∧
    (∀ image, Image.parseMz bytes = .ok image → Loads bytes image) ∧
    (strictParse bytes).run = some (Image.parseMz bytes) := by
  have hparse := parseMz_eq bytes
  refine ⟨?_, ?_, ?_, agrees_strictParse bytes⟩
  · rw [wellFormed_iff, hparse, guarded]
    cases firstFault? (checks bytes) <;> simp
  · rw [hparse, guarded]
    cases firstFault? (checks bytes) <;> simp
  · intro image himage
    rw [hparse, guarded] at himage
    cases hfault : firstFault? (checks bytes) with
    | some e =>
      rw [hfault] at himage
      cases himage
    | none =>
      rw [hfault] at himage
      cases himage
      exact loads_program (wellFormed_iff.2 hfault)

/-- `mov ax, 0` and `ret` behind a header of two paragraphs; the loader adjusts the zero. -/
def smallProgram : List UInt8 :=
  [0x4D, 0x5A, 0x24, 0x00, 0x01, 0x00, 0x01, 0x00, 0x02, 0x00, 0x00, 0x00, 0xFF, 0xFF, 0x00, 0x00,
    0x00, 0x01, 0x00, 0x00, 0x00, 0x00, 0x00, 0x00, 0x1C, 0x00, 0x00, 0x00, 0x01, 0x00, 0x00, 0x00,
    0xB8, 0x00, 0x00, 0xC3]

/-- A small file is loaded, with its one relocation at the word behind the opcode. -/
theorem parseMz_exact_smallProgram :
    ∃ image, Image.parseMz smallProgram = .ok image ∧ Loads smallProgram image ∧
      image.isRelocated 1 = true ∧ image.word? 1 = some 0 := by
  obtain ⟨hok, -, hloads, -⟩ := parseMz_exact smallProgram
  obtain ⟨image, himage⟩ := hok.2 (wellFormed_iff.2 (by decide))
  have h := hloads image himage
  have hsite : image.isRelocated 1 = true := (h.relocated 1).2 ⟨0, by decide, by decide⟩
  exact ⟨image, himage, h, hsite, (h.word 1 hsite).trans (by decide)⟩

end RealMode
