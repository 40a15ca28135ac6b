import RealMode.Machine.AddressMap

namespace RealMode.AddressMap

/-!
# Looking things up in tables of linear addresses

The library states its lemmas for any order of the keys; here they are read for numbers.

* `getElem?_insert`, `getElem?_modify`, `contains_insert` — what a change does to a look-up;
* `mem_items_iff`, `keys_pairwise`, `pairwise_items` — a table as the list of what it holds, in
  order;
* `size_le_of_contains` — a table with fewer keys is smaller.
-/

variable {α : Type} (m : AddressMap α)

/-- What is put into a table is found at its own key, and everything else where it was. -/
theorem getElem?_insert (k a : Nat) (v : α) :
    (m.insert k v)[a]? = if k = a then some v else m[a]? := by
  rw [Std.ExtTreeMap.getElem?_insert]
  simp only [Nat.compare_eq_eq]

/-- A change at one key changes what is found there, if anything is, and nothing else. -/
theorem getElem?_modify (k a : Nat) (f : α → α) :
    (m.modify k f)[a]? = if k = a then m[a]?.map f else m[a]? := by
  rw [Std.ExtTreeMap.getElem?_modify]
  simp only [Nat.compare_eq_eq]
  split
  · rename_i h
    rw [h]
  · rfl

/-- A table has a key if something is found at it. -/
theorem contains_iff_exists (k : Nat) : m.contains k = true ↔ ∃ v, m[k]? = some v := by
  rw [Std.ExtTreeMap.contains_eq_isSome_getElem?, Option.isSome_iff_exists]

/-- A table to which a key is added has this one and those it had. -/
theorem contains_insert (k a : Nat) (v : α) :
    (m.insert k v).contains a = true ↔ m.contains a = true ∨ a = k := by
  rw [contains_iff_exists, contains_iff_exists, getElem?_insert]
  split
  · rename_i hk
    simp [hk]
  · rename_i hk
    simp [Ne.symm hk]

/-- The items of a table are what is found in it at some key. -/
theorem mem_items_iff {v : α} : v ∈ m.items ↔ ∃ k : Nat, m[k]? = some v := by
  simp only [items, List.mem_map, Prod.exists, exists_eq_right,
    Std.ExtTreeMap.mem_toList_iff_getElem?_eq_some]

/-- The keys of a table increase along its list, so a table that is turned into a list is in
    order. -/
theorem keys_pairwise : (m.toList.map (·.1)).Pairwise (· < ·) := by
  have h := Std.ExtTreeMap.ordered_keys_toList (t := m)
  rw [List.pairwise_map]
  exact h.imp fun hab => Nat.compare_eq_lt.1 hab

/-- Things that are kept at their own places stand in the order of the places. This is how a listing
    comes to be sorted without ever being sorted. -/
theorem pairwise_items {m : AddressMap α} {f : α → Nat}
    (h : ∀ {k : Nat} {a}, m[k]? = some a → f a = k) : m.items.Pairwise (fun a b => f a < f b) := by
  rw [items, List.pairwise_map]
  refine (List.pairwise_map.1 m.keys_pairwise).imp_of_mem fun {p q} hp hq hlt => ?_
  rw [h (Std.ExtTreeMap.mem_toList_iff_getElem?_eq_some.1 hp),
    h (Std.ExtTreeMap.mem_toList_iff_getElem?_eq_some.1 hq)]
  exact hlt

/-- A table with fewer keys is smaller, whatever it holds at them. -/
theorem size_le_of_contains {β : Type} {m : AddressMap α} {m' : AddressMap β}
    (h : ∀ k, m.contains k = true → m'.contains k = true) : m.size ≤ m'.size := by
  rw [← Std.ExtTreeMap.length_keys, ← Std.ExtTreeMap.length_keys]
  apply Std.ExtTreeMap.nodup_keys.length_le_of_subset
  intro k hk
  rw [Std.ExtTreeMap.mem_keys, ← Std.ExtTreeMap.contains_iff_mem] at hk ⊢
  exact h k hk

end RealMode.AddressMap
