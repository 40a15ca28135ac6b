import RealMode.FlowGraph.Basic

namespace RealMode

/-!
# Liveness

A local is live at a node if some way on from there reads it before writing it.

* `Liveness` — the locals that are live at the entry and at the exit of each node;
* `Liveness.update` — lets a node have what its successors need now, in place of what it had;
* `Liveness.sweep` — updates every node, last to first;
* `Liveness.Rising` — no node has more than its successors need, so an update only adds;
* `Liveness.fixpoint` — sweeps until nothing changes. Sets only grow, and they cannot grow
  forever (`Liveness.room`).
-/

/-- The locals that are live at the entry and at the exit of each node. -/
structure Liveness where
  liveIn : Array LocalSet
  liveOut : Array LocalSet
deriving DecidableEq, Repr

namespace Liveness

/-- The locals that are live at the entry of a node. -/
def atEntry (l : Liveness) (id : Nat) : LocalSet := l.liveIn.getD id ∅

/-- The locals that are live at the exit of a node. -/
def atExit (l : Liveness) (id : Nat) : LocalSet := l.liveOut.getD id ∅

/-- Nothing is live anywhere. -/
def blank (g : FlowGraph) : Liveness := ⟨Array.replicate g.size ∅, Array.replicate g.size ∅⟩

/-- The locals that are live at the exit of a node, by what its successors need. -/
def outOf (live : Array LocalSet) (edges : List Nat) : LocalSet :=
  edges.foldl (fun s e => s ∪ live.getD e ∅) ∅

/-- The locals that a node needs: those it reads, and those that are live at its exit and
    that it does not write. -/
def transfer (n : Node) (out : LocalSet) : LocalSet := n.usage.required ∪ out \ n.usage.defined

/-- Puts what is live at a node by its successors in place of what was so before. -/
def update (g : FlowGraph) (id : Nat) : Liveness → Liveness
  | ⟨ins, outs⟩ =>
    match g.nodes[id]? with
    | some n =>
      let out := outOf ins n.edges
      ⟨ins.setIfInBounds id (transfer n out), outs.setIfInBounds id out⟩
    | none => ⟨ins, outs⟩

/-- Updates every node, last to first. -/
def sweep (g : FlowGraph) (l : Liveness) : Liveness := (List.range g.size).foldr (update g) l

/-! ### Updates only add -/

/-- There are two sets for each node, with no more in them than its successors need. -/
structure Rising (g : FlowGraph) (l : Liveness) : Prop where
  size_liveIn : l.liveIn.size = g.size
  size_liveOut : l.liveOut.size = g.size
  entry : ∀ {id n}, g.nodes[id]? = some n → l.atEntry id ⊆ transfer n (outOf l.liveIn n.edges)
  exit : ∀ {id n}, g.nodes[id]? = some n → l.atExit id ⊆ outOf l.liveIn n.edges

/-- A list of empty sets has nothing in it anywhere, also beyond its end. -/
theorem getD_replicate (n id : Nat) : (Array.replicate n (∅ : LocalSet)).getD id ∅ = ∅ := by
  rw [Array.getD_eq_getD_getElem?, Array.getElem?_replicate]
  split <;> rfl

@[simp] theorem atEntry_blank (g : FlowGraph) (id : Nat) : (blank g).atEntry id = ∅ :=
  getD_replicate g.size id

@[simp] theorem atExit_blank (g : FlowGraph) (id : Nat) : (blank g).atExit id = ∅ :=
  getD_replicate g.size id

/-- To begin with nothing is in any set, so no node has more than its successors need. -/
theorem rising_blank (g : FlowGraph) : Rising g (blank g) := by
  refine ⟨Array.size_replicate, Array.size_replicate, fun {id n} _ => ?_, fun {id n} _ => ?_⟩
  · rw [atEntry_blank]
    exact BitSet.empty_subset _
  · rw [atExit_blank]
    exact BitSet.empty_subset _

/-- A local is live at an exit if it is at the entry of some successor. -/
theorem has_outOf {live : Array LocalSet} (edges : List Nat) (i : Nat) :
    (outOf live edges).has i = true ↔ ∃ e ∈ edges, (live.getD e ∅).has i = true := by
  -- The union grows from the left, so the induction is over any set to begin with.
  have hfold (s : LocalSet) : (edges.foldl (fun s e => s ∪ live.getD e ∅) s).has i = true ↔
      s.has i = true ∨ ∃ e ∈ edges, (live.getD e ∅).has i = true := by
    induction edges generalizing s with
    | nil => simp
    | cons e edges ih =>
      rw [List.foldl_cons, ih, BitSet.has_union, Bool.or_eq_true, or_assoc]
      simp only [List.mem_cons, exists_eq_or_imp]
  rw [outOf, hfold, BitSet.has_empty]
  simp only [Bool.false_eq_true, false_or]

/-- The more is live at the entries, the more is live at the exits in front of them. -/
theorem outOf_mono {a b : Array LocalSet} (h : ∀ e, a.getD e ∅ ⊆ b.getD e ∅) (edges : List Nat) :
    outOf a edges ⊆ outOf b edges := by
  intro i hi
  rw [has_outOf] at hi ⊢
  exact hi.imp fun e he => he.imp_right (h e i)

/-- The more is live at the exit of a node, the more the node needs at its entry. -/
theorem transfer_mono {a b : LocalSet} (n : Node) (h : a ⊆ b) : transfer n a ⊆ transfer n b :=
  BitSet.union_mono_right _ (BitSet.sdiff_mono_left _ h)

/-- Replacing one of the sets changes what is found at its position and nowhere else. -/
theorem getD_setIfInBounds {live : Array LocalSet} {id : Nat} (hid : id < live.size)
    (s : LocalSet) (k : Nat) :
    (live.setIfInBounds id s).getD k ∅ = if id = k then s else live.getD k ∅ := by
  rw [Array.getD_eq_getD_getElem?, Array.getElem?_setIfInBounds]
  by_cases hk : id = k
  · rw [if_pos hk, if_pos hk, if_pos (hk ▸ hid), Option.getD_some]
  · rw [if_neg hk, if_neg hk, Array.getD_eq_getD_getElem?]

namespace Rising

variable {g : FlowGraph} {l : Liveness} {id : Nat} {n : Node}

/-- An update puts what the node needs at its entry, and leaves the other entries alone. -/
theorem atEntry_update (h : Rising g l) (hn : g.nodes[id]? = some n) (k : Nat) :
    (update g id l).atEntry k =
      if id = k then transfer n (outOf l.liveIn n.edges) else l.atEntry k := by
  have hid : id < l.liveIn.size := h.size_liveIn ▸ (Array.getElem?_eq_some_iff.1 hn).1
  simp only [update, hn]
  exact getD_setIfInBounds hid _ k

/-- An update puts what the successors need at the exit of the node, and leaves the other exits
    alone. -/
theorem atExit_update (h : Rising g l) (hn : g.nodes[id]? = some n) (k : Nat) :
    (update g id l).atExit k = if id = k then outOf l.liveIn n.edges else l.atExit k := by
  have hid : id < l.liveOut.size := h.size_liveOut ▸ (Array.getElem?_eq_some_iff.1 hn).1
  simp only [update, hn]
  exact getD_setIfInBounds hid _ k

/-- An update takes nothing away from what is live at the entries, since no node had more than its
    successors need. -/
theorem atEntry_subset_update (h : Rising g l) (id k : Nat) :
    l.atEntry k ⊆ (update g id l).atEntry k := by
  cases hn : g.nodes[id]? with
  | none =>
    simp only [update, hn]
    exact BitSet.subset_refl _
  | some n =>
    rw [h.atEntry_update hn]
    by_cases hk : id = k
    · rw [if_pos hk]
      exact h.entry (hk ▸ hn)
    · rw [if_neg hk]
      exact BitSet.subset_refl _

/-- An update keeps sets rising: what the successors need has only grown since. -/
theorem update (h : Rising g l) (id : Nat) : Rising g (update g id l) := by
  cases hn : g.nodes[id]? with
  | none =>
    simp only [Liveness.update, hn]
    exact h
  | some n =>
    -- Successors need no less than before, so what was not too much is still not.
    have hout (m : Node) :
        outOf l.liveIn m.edges ⊆ outOf (Liveness.update g id l).liveIn m.edges :=
      outOf_mono (h.atEntry_subset_update id) m.edges
    refine ⟨?_, ?_, fun {k m} hm i hi => ?_, fun {k m} hm i hi => ?_⟩
    · simp only [Liveness.update, hn, Array.size_setIfInBounds]
      exact h.size_liveIn
    · simp only [Liveness.update, hn, Array.size_setIfInBounds]
      exact h.size_liveOut
    · apply transfer_mono m (hout m)
      rw [h.atEntry_update hn] at hi
      split at hi
      · rename_i hk
        cases hn.symm.trans (hk ▸ hm)
        exact hi
      · exact h.entry hm i hi
    · apply hout m
      rw [h.atExit_update hn] at hi
      split at hi
      · rename_i hk
        cases hn.symm.trans (hk ▸ hm)
        exact hi
      · exact h.exit hm i hi

/-- So do updates of any nodes, one after another. -/
theorem foldr (h : Rising g l) (ids : List Nat) : Rising g (ids.foldr (Liveness.update g) l) := by
  induction ids with
  | nil => exact h
  | cons id ids ih => exact ih.update id

/-- A sweep keeps sets rising, so the sets of one sweep are where the next may begin. -/
theorem sweep (h : Rising g l) : Rising g (sweep g l) := h.foldr _

end Rising

/-! ### Sets cannot grow forever -/

/-- How much some sets can still grow. -/
def missing (sets : List LocalSet) : Nat := sets.foldr (fun s n => s.complement.toBits + n) 0

/-- How much the sets can still grow. -/
def room (l : Liveness) : Nat := missing l.liveIn.toList + missing l.liveOut.toList

/-- Where one set of a list gives way to one with less missing, less is missing in all. -/
theorem missing_set_lt {sets : List LocalSet} {i : Nat} {a b : LocalSet} (hi : sets[i]? = some a)
    (hb : b.complement.toBits < a.complement.toBits) : missing (sets.set i b) < missing sets := by
  induction sets generalizing i with
  | nil => simp at hi
  | cons s sets ih =>
    cases i with
    | zero =>
      simp only [List.getElem?_cons_zero, Option.some.injEq] at hi
      subst hi
      simp only [missing, List.set_cons_zero, List.foldr_cons]
      omega
    | succ i =>
      rw [List.getElem?_cons_succ] at hi
      have := ih hi
      simp only [missing, List.set_cons_succ, List.foldr_cons] at this ⊢
      omega

/-- A larger set in the place of another changes nothing, or leaves less missing in all of them
    together. -/
theorem missing_setIfInBounds {live : Array LocalSet} {id : Nat} {s : LocalSet}
    (hid : id < live.size) (h : live.getD id ∅ ⊆ s) :
    live.setIfInBounds id s = live ∨
      missing (live.setIfInBounds id s).toList < missing live.toList := by
  have hget : live[id]? = some (live.getD id ∅) := by
    rw [Array.getD_eq_getD_getElem?, Array.getElem?_eq_getElem hid, Option.getD_some]
  by_cases hs : s = live.getD id ∅
  · left
    apply Array.ext_getElem?
    intro k
    rw [Array.getElem?_setIfInBounds]
    split
    · rename_i hk
      subst hk
      rw [hget, hs]
    · rfl
  · right
    rw [Array.toList_setIfInBounds]
    rw [← Array.getElem?_toList] at hget
    exact missing_set_lt hget (BitSet.toBits_complement_lt_of_subset h hs)

namespace Rising

variable {g : FlowGraph} {l : Liveness}

/-- An update changes nothing, or leaves less room for the sets to grow. -/
theorem room_update (h : Rising g l) (id : Nat) :
    Liveness.update g id l = l ∨ room (Liveness.update g id l) < room l := by
  cases hn : g.nodes[id]? with
  | none =>
    left
    simp only [Liveness.update, hn]
  | some n =>
    have hid : id < g.size := (Array.getElem?_eq_some_iff.1 hn).1
    have hin := missing_setIfInBounds (h.size_liveIn ▸ hid) (h.entry hn)
    have hout := missing_setIfInBounds (h.size_liveOut ▸ hid) (h.exit hn)
    simp only [Liveness.update, hn, room]
    rcases hin with hin | hin
    · rcases hout with hout | hout
      · left
        rw [hin, hout]
      · right
        rw [hin]
        omega
    · right
      rcases hout with hout | hout
      · rw [hout]
        omega
      · omega

/-- Updates change nothing, or leave less room: a change that one of them makes is not undone by the
    others. -/
theorem room_foldr (h : Rising g l) (ids : List Nat) :
    ids.foldr (Liveness.update g) l = l ∨ room (ids.foldr (Liveness.update g) l) < room l := by
  induction ids with
  | nil =>
    left
    rfl
  | cons id ids ih =>
    rw [List.foldr_cons]
    have hid := (h.foldr ids).room_update id
    rcases ih with ih | ih
    · rw [ih] at hid ⊢
      exact hid
    · right
      rcases hid with hid | hid
      · rw [hid]
        exact ih
      · omega

/-- A sweep changes nothing, or leaves less room. So sweeping comes to an end. -/
theorem room_sweep (h : Rising g l) :
    Liveness.sweep g l = l ∨ room (Liveness.sweep g l) < room l :=
  h.room_foldr (List.range g.size)

end Rising

/-! ### The fixpoint -/

-- `hsweep` is used by `decreasing_by`, which the linter does not see.
set_option linter.unusedVariables false in
/-- Sweeps until nothing changes. -/
def fixpoint (g : FlowGraph) (l : Liveness) (h : Rising g l) : Liveness :=
  if hsweep : sweep g l = l then l else fixpoint g (sweep g l) h.sweep
termination_by room l
decreasing_by
  rcases h.room_sweep with e | e
  · exact absurd e hsweep
  · exact e

/-- The live locals of an annotated flow graph. -/
def compute (g : FlowGraph) : Liveness := fixpoint g (blank g) (rising_blank g)

end Liveness

end RealMode
