import RealMode.FlowGraph.Liveness

namespace RealMode

/-!
# Liveness is reading before writing along some path

* `LocalSet.mem_union`, `LocalSet.mem_sdiff` — membership in sets of locals;
* `FlowGraph.Live` — some path from a node reads a local before any node on it writes it;
* `Liveness.sound_fixpoint` — sweeping finds nothing else;
* `Liveness.Solves` — every node has what its successors need, as it does at the end of sweeping
  (`Liveness.solves_fixpoint`);
* `Liveness.mem_atEntry_iff` — so the fixpoint finds exactly the live locals.
-/

/-! ### Sets of locals -/

namespace LocalSet

/-- A union has the locals of both sets. The sets are bit masks, so this is about their bits. -/
@[simp] theorem mem_union (l : Local) (a b : LocalSet) : l ∈ a ∪ b ↔ l ∈ a ∨ l ∈ b := by
  show (a ∪ b).has l.index = true ↔ a.has l.index = true ∨ b.has l.index = true
  rw [BitSet.has_union, Bool.or_eq_true]

@[simp] theorem mem_sdiff (l : Local) (a b : LocalSet) : l ∈ a \ b ↔ l ∈ a ∧ l ∉ b := by
  show (a \ b).has l.index = true ↔ a.has l.index = true ∧ ¬ b.has l.index = true
  rw [BitSet.has_sdiff, Bool.and_eq_true, Bool.not_eq_true', Bool.not_eq_true]

@[simp] theorem not_mem_empty (l : Local) : l ∉ (∅ : LocalSet) := by
  show ¬ (∅ : LocalSet).has l.index = true
  rw [BitSet.has_empty]
  exact Bool.false_ne_true

end LocalSet

/-- Some path from the node reads the local before any node on it writes it. -/
inductive FlowGraph.Live (g : FlowGraph) (l : Local) : Nat → Prop
  | read {id : Nat} {n : Node} (hn : g.nodes[id]? = some n) (hr : l ∈ n.usage.required) :
      Live g l id
  | pass {id e : Nat} {n : Node} (hn : g.nodes[id]? = some n) (hw : l ∉ n.usage.defined)
      (he : e ∈ n.edges) (h : Live g l e) : Live g l id

namespace Liveness

variable {g : FlowGraph} {l : Local} {live : Liveness}

/-! ### One update -/

/-- Behind a node is live what is live at the entry of some node it leads to. -/
theorem mem_outOf {sets : Array LocalSet} (edges : List Nat) :
    l ∈ outOf sets edges ↔ ∃ e ∈ edges, l ∈ sets.getD e ∅ :=
  has_outOf edges l.index

/-- In front of a node is live what the node reads, and what is live behind it unless the node
    writes it. -/
theorem mem_transfer (n : Node) (out : LocalSet) :
    l ∈ transfer n out ↔ l ∈ n.usage.required ∨ l ∈ out ∧ l ∉ n.usage.defined := by
  rw [transfer, LocalSet.mem_union, LocalSet.mem_sdiff]

/-- What is needed at the entry of a node is needed at its exit, but for what it reads. -/
def Solves (g : FlowGraph) (live : Liveness) : Prop :=
  ∀ ⦃id n⦄, g.nodes[id]? = some n →
    live.atExit id = outOf live.liveIn n.edges ∧ live.atEntry id = transfer n (live.atExit id)

/-- Everything marked as live is live. -/
def Sound (g : FlowGraph) (live : Liveness) : Prop :=
  ∀ {l id}, l ∈ live.atEntry id → g.Live l id

/-- One update marks live locals only: what it newly marks is read by the node, or is live at a
    successor and not written by the node. -/
theorem Sound.update (h : Sound g live) (hr : Rising g live) (id : Nat) :
    Sound g (update g id live) := by
  intro l k hk
  cases hn : g.nodes[id]? with
  | none =>
    simp only [Liveness.update, hn] at hk
    exact h hk
  | some n =>
    rw [hr.atEntry_update hn] at hk
    split at hk
    · rename_i hid
      subst hid
      rcases (mem_transfer n _).1 hk with hread | ⟨hout, hw⟩
      · exact .read hn hread
      · obtain ⟨e, he, hle⟩ := (mem_outOf n.edges).1 hout
        exact .pass hn hw he (h hle)
    · exact h hk

/-! ### Sweeps -/

/-- So does a whole sweep, one update after another. The sets keep rising on the way, which each
    update needs. -/
theorem Sound.sweep (h : Sound g live) (hr : Rising g live) : Sound g (sweep g live) := by
  unfold Liveness.sweep
  induction List.range g.size with
  | nil => exact h
  | cons id ids ih => exact ih.update (hr.foldr ids) id

/-- A sweep that changes nothing has no update that changes anything: as sets only rise, no update
    can take back what another did. -/
theorem Rising.update_of_sweep (hr : Rising g live) (h : Liveness.sweep g live = live) {id : Nat}
    (hid : id < g.size) : Liveness.update g id live = live := by
  have hfold (ids : List Nat) (hids : ids.foldr (Liveness.update g) live = live) :
      ∀ id ∈ ids, Liveness.update g id live = live := by
    induction ids with
    | nil => exact fun id hmem => absurd hmem List.not_mem_nil
    | cons id ids ih =>
      -- Room is only ever lost, so if none is lost in the end, none was lost on the way.
      rw [List.foldr_cons] at hids
      have hrest : ids.foldr (Liveness.update g) live = live := by
        rcases hr.room_foldr ids with hroom | hroom
        · exact hroom
        · rcases (hr.foldr ids).room_update id with h | h
          · rw [← h, hids]
          · rw [hids] at h
            omega
      intro k hk
      rcases List.mem_cons.1 hk with rfl | hk
      · rw [hrest] at hids
        exact hids
      · exact ih hrest k hk
  exact hfold _ h id (List.mem_range.2 hid)

/-- Where a sweep changes nothing, every node has what its successors need, although the sets were
    overwritten in place while the sweep went on. -/
theorem Rising.solves_of_sweep (hr : Rising g live) (h : Liveness.sweep g live = live) :
    Solves g live := by
  intro id n hn
  have hupdate := hr.update_of_sweep h (Array.getElem?_eq_some_iff.1 hn).1
  have hexit : live.atExit id = outOf live.liveIn n.edges := by
    have hid := hr.atExit_update hn id
    rwa [hupdate, if_pos rfl] at hid
  have hentry : live.atEntry id = transfer n (outOf live.liveIn n.edges) := by
    have hid := hr.atEntry_update hn id
    rwa [hupdate, if_pos rfl] at hid
  exact ⟨hexit, hexit ▸ hentry⟩

/-- Live locals are marked wherever every node has what its successors need, by induction on the
    path that ends in reading the local. -/
theorem Solves.mem_atEntry (h : Solves g live) {id : Nat} (hl : g.Live l id) :
    l ∈ live.atEntry id := by
  -- What needs a local hands it on backwards along the path.
  induction hl with
  | read hn hread =>
    rw [(h hn).2]
    exact (mem_transfer _ _).2 (.inl hread)
  | pass hn hw he _ ih =>
    rw [(h hn).2, (h hn).1]
    exact (mem_transfer _ _).2 (.inr ⟨(mem_outOf _).2 ⟨_, he, ih⟩, hw⟩)

/-! ### The fixpoint -/

theorem rising_fixpoint (h : Rising g live) : Rising g (fixpoint g live h) := by
  fun_induction fixpoint g live h with
  | case1 live h hfix => exact h
  | case2 live h hfix ih => exact ih

/-- Sweeping marks live locals only, through to its end. -/
theorem sound_fixpoint (h : Rising g live) (hs : Sound g live) : Sound g (fixpoint g live h) := by
  fun_induction fixpoint g live h with
  | case1 live h hfix => exact hs
  | case2 live h hfix ih => exact ih (hs.sweep h)

theorem sweep_fixpoint (h : Rising g live) : sweep g (fixpoint g live h) = fixpoint g live h := by
  fun_induction fixpoint g live h with
  | case1 live h hfix => exact hfix
  | case2 live h hfix ih => exact ih

/-- So there every node has what its successors need. -/
theorem solves_fixpoint (h : Rising g live) : Solves g (fixpoint g live h) :=
  (rising_fixpoint h).solves_of_sweep (sweep_fixpoint h)

/-- **The fixpoint finds exactly the live locals**: no others by `sound_fixpoint`, and all of them
    because it is a solution. -/
theorem mem_atEntry_iff (g : FlowGraph) (l : Local) (id : Nat) :
    l ∈ (compute g).atEntry id ↔ g.Live l id := by
  constructor
  · -- At first nothing is marked.
    apply sound_fixpoint
    intro l id hl
    rw [atEntry_blank] at hl
    exact absurd hl (LocalSet.not_mem_empty l)
  · exact (solves_fixpoint (rising_blank g)).mem_atEntry

end Liveness

end RealMode
