import Mathlib.Data.List.Forall2

namespace RealMode

/-!
# Lists

Facts about lists that the library lacks, with nothing of the project in them.

* `exists_getElem?_of_forall₂`, `exists_mem_of_forall₂`, `exists_mem_of_forall₂_right` — what
  corresponds to an element of one list in another that is related to it;
* `flatMap_range` — a list spread out position by position;
* `getLast?_filterMap_cons` — the last thing that the elements of a list ask for.
-/

variable {α β : Type}

/-- What corresponds to the element of a list at some position stands at this position. -/
theorem exists_getElem?_of_forall₂ {R : α → β → Prop} {as : List α} {bs : List β}
    (h : List.Forall₂ R as bs) {i : Nat} {a : α} (ha : as[i]? = some a) :
    ∃ b, bs[i]? = some b ∧ R a b := by
  obtain ⟨hi, rfl⟩ := List.getElem?_eq_some_iff.1 ha
  have hi' : i < bs.length := h.length_eq ▸ hi
  exact ⟨bs[i], List.getElem?_eq_getElem hi', h.get hi hi'⟩

/-- So each element of the first list has one in the second that corresponds to it. -/
theorem exists_mem_of_forall₂ {R : α → β → Prop} {as : List α} {bs : List β}
    (h : List.Forall₂ R as bs) {a : α} (ha : a ∈ as) : ∃ b ∈ bs, R a b := by
  obtain ⟨i, hi⟩ := List.mem_iff_getElem?.1 ha
  obtain ⟨b, hb, hab⟩ := exists_getElem?_of_forall₂ h hi
  exact ⟨b, List.mem_of_getElem? hb, hab⟩

/-- The same seen from the second list. -/
theorem exists_mem_of_forall₂_right {R : α → β → Prop} {as : List α} {bs : List β}
    (h : List.Forall₂ R as bs) {b : β} (hb : b ∈ bs) : ∃ a ∈ as, R a b := by
  have hflip : List.Forall₂ (flip R) bs as := h.flip
  exact exists_mem_of_forall₂ hflip hb

/-- A list is spread out by going over enough positions, where those behind its end give
    nothing. -/
theorem flatMap_range (l : List α) (f : α → List β) {n : Nat} (h : l.length ≤ n) :
    (List.range n).flatMap (fun k => (l[k]?.map f).getD []) = l.flatMap f := by
  induction l generalizing n with
  | nil => simp
  | cons a l ih =>
    obtain ⟨m, rfl⟩ : ∃ m, n = m + 1 := ⟨n - 1, by simp at h; omega⟩
    have hm : l.length ≤ m := by simpa using h
    simp [List.range_succ_eq_map, List.flatMap_map, ih hm]

/-- The last thing that a list asks for is the last one that its tail does, if any. -/
theorem getLast?_filterMap_cons (f : α → Option β) (a : α) (as : List α) :
    ((a :: as).filterMap f).getLast? = (as.filterMap f).getLast?.or (f a) := by
  cases ha : f a with
  | none => simp [List.filterMap_cons_none ha]
  | some b =>
    rw [List.filterMap_cons_some ha, List.getLast?_cons]
    cases (as.filterMap f).getLast? <;> rfl

end RealMode
