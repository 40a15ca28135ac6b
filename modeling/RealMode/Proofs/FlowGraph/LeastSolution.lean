import Mathlib.Logic.Function.Iterate
import RealMode.Proofs.FlowGraph.LivePaths

namespace RealMode

/-!
# The live locals are the least solution

Sweeping starts from empty sets and overwrites them in place, so in the middle of it they solve
nothing. It comes to an end on every graph, and there the sets are the least ones that pass on what
the nodes need.

* `FlowGraph.ReadsAfter` — a path along the edges that leaves a local alone until it reads it, and
  `FlowGraph.live_iff_readsAfter` — a local is live where such a path starts;
* `Liveness.exists_iterate_eq_fixpoint` — sweeping ends after some number of sweeps, the first that
  changes nothing;
* `Liveness.compute_is_least` — what it ends with is live by such paths, and less than any other
  solution.
-/

namespace FlowGraph

variable {g : FlowGraph} {l : Local}

/-- The locals that a node reads and writes. -/
def usageOf (g : FlowGraph) (id : Nat) : Usage :=
  match g.nodes[id]? with
  | some n => n.usage
  | none => {}

/-- Where there is a node, its use is the one that annotating gave it. -/
theorem usageOf_of_node {id : Nat} {n : Node} (hn : g.nodes[id]? = some n) :
    g.usageOf id = n.usage := by
  rw [usageOf, hn]

/-- A path goes along edges for `k` steps without a node that writes the local, and there comes to
    one that reads it. -/
structure ReadsAfter (g : FlowGraph) (l : Local) (path : Nat → Nat) (k : Nat) : Prop where
  along : ∀ i < k, path (i + 1) ∈ g.successors (path i)
  kept : ∀ i < k, l ∉ (g.usageOf (path i)).defined
  read : l ∈ (g.usageOf (path k)).required

/-- A path that reads the local before writing it keeps it live from its start on. The proof goes
    along the path from its end, where the local is read. -/
theorem ReadsAfter.live {path : Nat → Nat} {k : Nat} (h : g.ReadsAfter l path k) :
    g.Live l (path 0) := by
  induction k generalizing path with
  | zero =>
    have hread := h.read
    cases hn : g.nodes[path 0]? with
    | none =>
      rw [usageOf, hn] at hread
      exact absurd hread (LocalSet.not_mem_empty l)
    | some n =>
      rw [usageOf_of_node hn] at hread
      exact .read hn hread
  | succ k ih =>
    -- From the second node on, the path is one step shorter.
    have hrest : g.ReadsAfter l (fun i => path (i + 1)) k :=
      ⟨fun i hi => h.along (i + 1) (by omega), fun i hi => h.kept (i + 1) (by omega), h.read⟩
    have hedge := h.along 0 (by omega)
    have hkept := h.kept 0 (by omega)
    cases hn : g.nodes[path 0]? with
    | none =>
      rw [successors, hn] at hedge
      exact absurd hedge List.not_mem_nil
    | some n =>
      rw [successors, hn] at hedge
      rw [usageOf_of_node hn] at hkept
      exact .pass hn hkept hedge (ih hrest)

/-- A live local comes with such a path: it is empty where the node itself reads the local, and one
    edge longer where the local comes from behind. -/
theorem Live.readsAfter {id : Nat} (h : g.Live l id) :
    ∃ path k, path 0 = id ∧ g.ReadsAfter l path k := by
  induction h with
  | @read id n hn hr =>
    refine ⟨fun _ => id, 0, rfl, fun i hi => by omega, fun i hi => by omega, ?_⟩
    show l ∈ (g.usageOf id).required
    rw [usageOf_of_node hn]
    exact hr
  | @pass id e n hn hw he _ ih =>
    obtain ⟨path, k, rfl, hpath⟩ := ih
    refine ⟨fun i => if i = 0 then id else path (i - 1), k + 1, rfl, fun i hi => ?_, fun i hi => ?_,
      hpath.read⟩
    · cases i with
      | zero =>
        show path 0 ∈ g.successors id
        rw [successors, hn]
        exact he
      | succ i => exact hpath.along i (by omega)
    · cases i with
      | zero =>
        show l ∉ (g.usageOf id).defined
        rw [usageOf_of_node hn]
        exact hw
      | succ i => exact hpath.kept i (by omega)

/-- **A local is live where a path starts that reads it before writing it.** The inductive notion
    and the explicit path say the same. -/
theorem live_iff_readsAfter {id : Nat} :
    g.Live l id ↔ ∃ path k, path 0 = id ∧ g.ReadsAfter l path k := by
  constructor
  · exact Live.readsAfter
  · rintro ⟨path, k, rfl, h⟩
    exact h.live

end FlowGraph

namespace Liveness

variable {g : FlowGraph} {live : Liveness}

/-- What is live at an exit of a solution is so at the entry of a successor, and the other way
    round. -/
theorem Solves.mem_atExit_iff (h : Solves g live) {id : Nat} {n : Node}
    (hn : g.nodes[id]? = some n) (l : Local) :
    l ∈ live.atExit id ↔ ∃ e ∈ g.successors id, l ∈ live.atEntry e := by
  rw [(h hn).1, mem_outOf, FlowGraph.successors, hn]
  rfl

/-- Nothing is live at a position behind the last node, since the sets that rise to the solution
    hold only what the graph needs. -/
theorem Rising.atExit_eq_empty (h : Rising g live) {id : Nat} (hn : g.nodes[id]? = none) :
    live.atExit id = ∅ := by
  have hsize : live.liveOut.size ≤ id := by
    rw [h.size_liveOut]
    exact Array.getElem?_eq_none_iff.1 hn
  rw [atExit, Array.getD_eq_getD_getElem?, Array.getElem?_eq_none hsize]
  rfl

/-- **Sweeping ends**, with the first sweep that changes nothing. The recursion of `fixpoint` is
    followed sweep by sweep, so the number of sweeps comes out as well. -/
theorem exists_iterate_eq_fixpoint (h : Rising g live) :
    ∃ k, (sweep g)^[k] live = fixpoint g live h ∧
      ∀ j < k, (sweep g)^[j + 1] live ≠ (sweep g)^[j] live := by
  fun_induction fixpoint g live h with
  | case1 live h hfix => exact ⟨0, rfl, fun j hj => absurd hj (Nat.not_lt_zero j)⟩
  | case2 live h hfix ih =>
    obtain ⟨k, hk, hbefore⟩ := ih
    refine ⟨k + 1, hk, fun j hj => ?_⟩
    cases j with
    | zero => exact hfix
    | succ j => exact hbefore j (by omega)

/-- The same for the sets that sweeping ends with, at every position, whether or not there is a
    node. -/
theorem mem_atExit_iff (g : FlowGraph) (l : Local) (id : Nat) :
    l ∈ (compute g).atExit id ↔ ∃ e ∈ g.successors id, l ∈ (compute g).atEntry e := by
  cases hn : g.nodes[id]? with
  | some n => exact (solves_fixpoint (rising_blank g)).mem_atExit_iff hn l
  | none =>
    have hempty : (compute g).atExit id = ∅ :=
      (rising_fixpoint (rising_blank g)).atExit_eq_empty hn
    rw [hempty, FlowGraph.successors, hn]
    simp

/-- **The live locals are the least solution.** On every graph sweeping from empty sets ends, with
    the first sweep that changes nothing. A local is then live at the entry of a node exactly if a
    path from there reads it before writing it, and at the exit exactly if it is so at the entry of
    a successor. So the sets pass on what the nodes need, and no others that do so are smaller. -/
theorem compute_is_least (g : FlowGraph) :
    (∃ k, (sweep g)^[k] (blank g) = compute g ∧ sweep g (compute g) = compute g ∧
      ∀ j < k, (sweep g)^[j + 1] (blank g) ≠ (sweep g)^[j] (blank g)) ∧
    (∀ l id, l ∈ (compute g).atEntry id ↔ ∃ path k, path 0 = id ∧ g.ReadsAfter l path k) ∧
    (∀ l id, l ∈ (compute g).atExit id ↔ ∃ e ∈ g.successors id, l ∈ (compute g).atEntry e) ∧
    Solves g (compute g) ∧
    ∀ other, Solves g other → ∀ l id,
      (l ∈ (compute g).atEntry id → l ∈ other.atEntry id) ∧
      (l ∈ (compute g).atExit id → l ∈ other.atExit id) := by
  have hrising := rising_blank g
  -- What is live has a path that reads it, and every solution marks that path.
  have hentry {other : Liveness} (hother : Solves g other) (l : Local) (id : Nat)
      (hl : l ∈ (compute g).atEntry id) : l ∈ other.atEntry id :=
    hother.mem_atEntry ((mem_atEntry_iff g l id).1 hl)
  refine ⟨?_, fun l id => ?_, mem_atExit_iff g, solves_fixpoint hrising,
    fun other hother l id => ⟨hentry hother l id, fun hl => ?_⟩⟩
  · obtain ⟨k, hk, hbefore⟩ := exists_iterate_eq_fixpoint hrising
    exact ⟨k, hk, sweep_fixpoint hrising, hbefore⟩
  · rw [mem_atEntry_iff, FlowGraph.live_iff_readsAfter]
  · -- At an exit the local is live at the entry of a successor, where the above applies.
    obtain ⟨e, he, hle⟩ := (mem_atExit_iff g l id).1 hl
    cases hn : g.nodes[id]? with
    | none =>
      rw [FlowGraph.successors, hn] at he
      exact absurd he List.not_mem_nil
    | some n => exact (hother.mem_atExit_iff hn l).2 ⟨e, he, hentry hother l e hle⟩

end Liveness

end RealMode
