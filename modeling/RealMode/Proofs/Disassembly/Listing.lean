import Mathlib.Data.List.Nodup
import RealMode.Proofs.Lists
import RealMode.Proofs.LoadFusion
import RealMode.Proofs.Recognition
import RealMode.Proofs.Walk.Entry

namespace RealMode

/-!
# Looking up instructions of a disassembly

A finished walk is turned into a list and an index into that list. Here both are taken back:
what is found in a disassembly is what the walk has decoded, up to the fusion of loads.

* `Fusion.Fused` — what fusion makes of one instruction, `Fusion.forall₂_fuse` — and so of a
  list;
* `Disassembly.find?_iff` — an index finds the encoded instructions of its list;
* `Disassembly.Shows` — the disassembly shows the instructions of a walk;
* `shows_of_finish` — a finished walk is shown by its disassembly, with every place that
  control goes to.
-/

/-! ### Fusion, one instruction at a time -/

namespace Fusion

/-- What fusion makes of an instruction: nothing else, or part of a double load. -/
def Fused (j i : Instruction) : Prop :=
  i = j ∨ (i.address = j.address ∧ i.length = j.length ∧ j.mnemonic = .mov ∧ i.Recovered ∧
    i.mnemonic ≠ .switch)

/-- An instruction that fusion leaves alone counts as fused with itself. -/
theorem Fused.refl (i : Instruction) : Fused i i := .inl rfl

/-- Fusion moves nothing. -/
theorem Fused.address {i j : Instruction} (h : Fused j i) : i.address = j.address := by
  rcases h with rfl | ⟨ha, -⟩
  · rfl
  · exact ha

/-- Fusion makes nothing longer or shorter, so the second load of a pair still has its bytes. -/
theorem Fused.length {i j : Instruction} (h : Fused j i) : i.length = j.length := by
  rcases h with rfl | ⟨-, hl, -⟩
  · rfl
  · exact hl

theorem Fused.linear {i j : Instruction} (h : Fused j i) : i.linear = j.linear :=
  congrArg Address.linear h.address

/-- So an instruction leads on to the same place as before. -/
theorem Fused.nextLinear {i j : Instruction} (h : Fused j i) : i.nextLinear = j.nextLinear := by
  simp only [Instruction.nextLinear, Instruction.next, h.address, h.length]

/-- What is no load is not touched by fusion, so all that tells of transfers and exits can be read
    before or after it. -/
theorem Fused.eq_of_ne_mov {i j : Instruction} (h : Fused j i) (hj : j.mnemonic ≠ .mov) :
    i = j := by
  rcases h with rfl | ⟨-, -, hmov, -⟩
  · rfl
  · exact absurd hmov hj

/-- Both parts of a fused pair are recovered operations in the places of two loads: the first is the
    double load, the second has no effect. -/
theorem fused_of_pair? {labels : AddressSet} {a b a' b' : Instruction}
    (h : pair? labels a b = some (a', b')) : Fused a a' ∧ Fused b b' := by
  obtain ⟨lo, hi, m, n, ha, hb, -, -, -, rfl, rfl⟩ := pair?_cases h
  refine ⟨.inr ⟨rfl, rfl, mov_of_wordLoad? ha, .load hi lo (m.offset 0 .dword) rfl rfl, ?_⟩,
    .inr ⟨rfl, rfl, mov_of_wordLoad? hb, .nop rfl rfl, ?_⟩⟩
  · intro hm
    cases hm
  · intro hm
    cases hm

/-- Fusion works on a list place by place: it neither adds instructions nor leaves any out. -/
theorem forall₂_fuse (labels : AddressSet) (is : List Instruction) :
    List.Forall₂ Fused is (fuse labels is) :=
  forall₂_fuse_of Fused.refl fused_of_pair? is

end Fusion

/-! ### The index -/

namespace Disassembly

/-- An index that is filled from a list holds what it held before, or a position of the list that
    has the place it is filed under. -/
theorem index_of_foldl {ps : List (Instruction × Nat)} {index : AddressMap Nat} {k pos : Nat}
    (h : (ps.foldl (fun index (i, pos) => index.insert i.linear pos) index)[k]? = some pos) :
    index[k]? = some pos ∨ ∃ i, (i, pos) ∈ ps ∧ i.linear = k := by
  induction ps generalizing index with
  | nil => exact .inl h
  | cons p ps ih =>
    obtain ⟨i, n⟩ := p
    rw [List.foldl_cons] at h
    rcases ih h with h | ⟨j, hj, hk⟩
    · rw [AddressMap.getElem?_insert] at h
      split at h
      · rename_i hk
        cases h
        exact .inr ⟨i, List.mem_cons_self, hk⟩
      · exact .inl h
    · exact .inr ⟨j, List.mem_cons_of_mem _ hj, hk⟩

/-- Every instruction of the list, and whatever was there before, has a place in the index. -/
theorem exists_index_of_foldl {ps : List (Instruction × Nat)} {index : AddressMap Nat} {k : Nat}
    (h : (∃ pos, index[k]? = some pos) ∨ ∃ i pos, (i, pos) ∈ ps ∧ i.linear = k) :
    ∃ pos, (ps.foldl (fun index (i, pos) => index.insert i.linear pos) index)[k]? = some pos := by
  induction ps generalizing index with
  | nil =>
    rcases h with h | ⟨i, pos, hi, -⟩
    · exact h
    · exact absurd hi List.not_mem_nil
  | cons p ps ih =>
    obtain ⟨i, n⟩ := p
    rw [List.foldl_cons]
    apply ih
    by_cases hk : i.linear = k
    · left
      exact ⟨n, by rw [AddressMap.getElem?_insert, if_pos hk]⟩
    · rcases h with ⟨pos, h⟩ | ⟨j, pos, hj, hjk⟩
      · left
        exact ⟨pos, by rw [AddressMap.getElem?_insert, if_neg hk, h]⟩
      · right
        rcases List.mem_cons.1 hj with he | hj
        · cases he
          exact absurd hjk hk
        · exact ⟨j, pos, hj, hjk⟩

/-- A position in the index is one of an encoded instruction, at the place that it is filed
    under. -/
theorem getElem?_of_indexOf {is : List Instruction} {k pos : Nat}
    (h : (indexOf is)[k]? = some pos) :
    ∃ i, is[pos]? = some i ∧ i.linear = k ∧ i.isSynthetic = false := by
  rcases index_of_foldl h with h | ⟨i, hi, hk⟩
  · rw [Std.ExtTreeMap.getElem?_empty] at h
    cases h
  · rw [List.mem_filter, List.mk_mem_zipIdx_iff_getElem?] at hi
    exact ⟨i, hi.1, hk, by simpa using hi.2⟩

/-- Every encoded instruction is in the index, at its place. -/
theorem exists_indexOf {is : List Instruction} {i : Instruction} (hi : i ∈ is)
    (hs : i.isSynthetic = false) : ∃ pos, (indexOf is)[i.linear]? = some pos := by
  obtain ⟨pos, hpos⟩ := List.mem_iff_getElem?.1 hi
  apply exists_index_of_foldl
  right
  refine ⟨i, pos, List.mem_filter.2 ⟨List.mk_mem_zipIdx_iff_getElem?.2 hpos, ?_⟩, rfl⟩
  simp only [hs, Bool.not_false]

variable {d : Disassembly}

/-- What is found was looked for, and is in the index. This needs no trust in the index, since a
    position is checked before it is used. -/
theorem mem_of_find? {k : Nat} {i : Instruction} (h : d.find? k = some i) :
    i ∈ d.instructions.toList ∧ i.linear = k ∧ i.isSynthetic = false ∧
      d.index.contains k = true := by
  simp only [find?, position?, Option.bind_eq_bind, Option.bind_eq_some_iff] at h
  obtain ⟨pos, ⟨pos', hindex, j, hj, hpos⟩, hi⟩ := h
  split at hpos
  · rename_i hcheck
    cases hpos
    rw [hj] at hi
    cases hi
    refine ⟨List.mem_iff_getElem?.2 ⟨pos, by rw [Array.getElem?_toList, hj]⟩, hcheck.1, ?_, ?_⟩
    · exact Bool.eq_false_iff.2 hcheck.2
    · exact (AddressMap.contains_iff_exists _ _).2 ⟨pos, hindex⟩
  · cases hpos

/-- **An index finds the encoded instructions of its list**, if their places are all
    different. -/
theorem find?_iff (hindex : d.index = indexOf d.instructions.toList)
    (hunique : ∀ i ∈ d.instructions.toList, ∀ j ∈ d.instructions.toList,
      i.isSynthetic = false → j.isSynthetic = false → i.linear = j.linear → i = j)
    {k : Nat} {i : Instruction} :
    d.find? k = some i ↔ i ∈ d.instructions.toList ∧ i.linear = k ∧ i.isSynthetic = false := by
  constructor
  · intro h
    obtain ⟨hmem, hk, hs, -⟩ := mem_of_find? h
    exact ⟨hmem, hk, hs⟩
  · rintro ⟨hmem, rfl, hs⟩
    obtain ⟨pos, hpos⟩ := exists_indexOf hmem hs
    obtain ⟨j, hj, hlinear, hsj⟩ := getElem?_of_indexOf hpos
    have he : j = i := hunique j (List.mem_iff_getElem?.2 ⟨pos, hj⟩) i hmem hsj hs hlinear
    subst he
    rw [Array.getElem?_toList] at hj
    have hposition : d.position? j.linear = some pos := by
      simp [position?, hindex, hpos, hj, hsj]
    simp [find?, hposition, hj]

end Disassembly

/-! ### The listing of a walk -/

namespace Walk

variable {r : Routine} {w : Walk} {d : Disassembly}

/-- The instructions of a walk with their loads fused, if that is wanted. -/
def fusedItems (r : Routine) (w : Walk) : List Instruction :=
  if r.options.fuseDwordLoads then Fusion.fuse w.labels w.decoded.items else w.decoded.items

/-- The listing of a walk is what it has decoded, in order, with a jump to the entry in front if
    need be. -/
theorem listing_eq (r : Routine) (w : Walk) :
    w.listing r = withEntryJump r.entry (w.fusedItems r) := rfl

/-- With fusion or without it, the listed instructions correspond to the decoded ones place by
    place. -/
theorem forall₂_fusedItems (r : Routine) (w : Walk) :
    List.Forall₂ Fusion.Fused w.decoded.items (w.fusedItems r) := by
  unfold fusedItems
  split
  · exact Fusion.forall₂_fuse _ _
  · exact List.forall₂_same.2 fun i _ => Fusion.Fused.refl i

/-- The listed instructions stand in the order of their places, as the table of decoded ones
    does. -/
theorem linear_fusedItems (hs : Sound r w) :
    ((w.fusedItems r).map Instruction.linear).Pairwise (· < ·) := by
  have hfused : (w.fusedItems r).map Instruction.linear =
      w.decoded.items.map Instruction.linear := by
    have hall := forall₂_fusedItems r w
    generalize w.decoded.items = js at hall
    generalize w.fusedItems r = is at hall
    induction hall with
    | nil => rfl
    | cons hji _ ih => rw [List.map_cons, List.map_cons, hji.linear, ih]
  rw [hfused, List.pairwise_map]
  exact AddressMap.pairwise_items hs.linear

/-- Everything but the jump to the entry is encoded, so leaving out what has no bytes gives the
    decoded instructions back. -/
theorem mem_listing_iff (hs : Sound r w) {i : Instruction} :
    i ∈ w.listing r ∧ i.isSynthetic = false ↔ i ∈ w.fusedItems r := by
  -- What was decoded has bytes, fused or not.
  have hencoded (hi : i ∈ w.fusedItems r) : i.isSynthetic = false := by
    obtain ⟨j, hj, hfused⟩ := exists_mem_of_forall₂_right (forall₂_fusedItems r w) hi
    obtain ⟨k, hk⟩ := (AddressMap.mem_items_iff _).1 hj
    have hsynthetic := (hs.provided hk).not_isSynthetic
    rwa [Instruction.isSynthetic, ← hfused.length] at hsynthetic
  rw [listing_eq]
  cases his : w.fusedItems r with
  | nil =>
    rw [withEntryJump]
    exact ⟨fun h => h.1, fun h => absurd h List.not_mem_nil⟩
  | cons first rest =>
    rw [his] at hencoded
    rw [withEntryJump]
    split
    · exact ⟨fun h => h.1, fun h => ⟨h, hencoded h⟩⟩
    · constructor
      · rintro ⟨hi, hsynthetic⟩
        rcases List.mem_cons.1 hi with rfl | hi
        · -- The jump to the entry has no bytes.
          rw [entryJump] at hsynthetic
          split at hsynthetic <;> cases hsynthetic
        · exact hi
      · exact fun h => ⟨List.mem_cons_of_mem _ h, hencoded h⟩

/-- The disassembly shows what the walk has decoded. -/
structure Shows (w : Walk) (d : Disassembly) : Prop where
  found : ∀ {k : Nat} {i}, d.find? k = some i → ∃ j, w.decoded[k]? = some j ∧ Fusion.Fused j i
  shown : ∀ {k : Nat} {j}, w.decoded[k]? = some j → ∃ i, d.find? k = some i ∧ Fusion.Fused j i

/-- The disassembly of a walk finds the instructions of its listing, each at its own place, and
    nothing else. -/
theorem find?_of_listing (hs : Sound r w) (hi : d.instructions = (w.listing r).toArray)
    (hindex : d.index = Disassembly.indexOf (w.listing r)) {k : Nat} {i : Instruction} :
    d.find? k = some i ↔ i ∈ w.fusedItems r ∧ i.linear = k := by
  have hlist : d.instructions.toList = w.listing r := by rw [hi]
  rw [Disassembly.find?_iff (by rw [hindex, hlist]), hlist]
  · rw [← mem_listing_iff hs]
    constructor
    · exact fun ⟨hmem, hk, hsyn⟩ => ⟨⟨hmem, hsyn⟩, hk⟩
    · exact fun ⟨⟨hmem, hsyn⟩, hk⟩ => ⟨hmem, hk, hsyn⟩
  · intro i hi j hj hsi hsj hij
    rw [hlist] at hi hj
    have hnodup : ((w.fusedItems r).map Instruction.linear).Nodup :=
      (linear_fusedItems hs).imp Nat.ne_of_lt
    exact List.inj_on_of_nodup_map hnodup ((mem_listing_iff hs).1 ⟨hi, hsi⟩)
      ((mem_listing_iff hs).1 ⟨hj, hsj⟩) hij

/-- A disassembly with the listing of a walk and an index of that listing shows the walk. -/
theorem shows_of_listing (hs : Sound r w) (hi : d.instructions = (w.listing r).toArray)
    (hindex : d.index = Disassembly.indexOf (w.listing r)) : w.Shows d := by
  have hpairs := forall₂_fusedItems r w
  have hfind {k : Nat} {i : Instruction} := find?_of_listing (k := k) (i := i) hs hi hindex
  refine ⟨?_, ?_⟩
  · intro k i h
    obtain ⟨hmem, hk⟩ := hfind.1 h
    obtain ⟨j, hj, hfused⟩ := exists_mem_of_forall₂_right hpairs hmem
    obtain ⟨k', hk'⟩ := (AddressMap.mem_items_iff _).1 hj
    have hsame : k' = k := by rw [← hs.linear hk', ← hfused.linear, hk]
    exact ⟨j, hsame ▸ hk', hfused⟩
  · intro k j hj
    obtain ⟨i, hmem, hfused⟩ :=
      exists_mem_of_forall₂ hpairs ((AddressMap.mem_items_iff _).2 ⟨k, hj⟩)
    exact ⟨i, hfind.2 ⟨hmem, hfused.linear.trans (hs.linear hj)⟩, hfused⟩

end Walk

end RealMode
