import RealMode.Proofs.FlowGraph.BlockWalk

namespace RealMode

/-!
# Small images have finished graphs

Inside a segment the place behind an instruction wraps around, so the walk of a block can
come back to where it was only by going once around a whole segment. In an image of at most
one segment's size that leads it across the entry, where a node begins.

* `FlowGraph.Lap` — a walk that never stops, seen through the places it comes to;
* `FlowGraph.not_circles_of_size_le` — no block of a small image is walked for ever.
-/

namespace FlowGraph

/-- The places of a walk that never stops, in an image from `base` to `top`: each one is in the
    image with its bytes, and the next is behind them, possibly after wrapping. -/
structure Lap (base top : Nat) (place length : Nat → Nat) : Prop where
  pos : ∀ n, 0 < length n
  base_le : ∀ n, base ≤ place n
  le_top : ∀ n, place n + length n ≤ top
  next : ∀ n, place (n + 1) = place n + length n ∨
    place (n + 1) + segmentSize = place n + length n

namespace Lap

variable {base top : Nat} {place length : Nat → Nat}

/-- A walk that does not wrap climbs: each instruction has at least one byte. -/
theorem climb (h : Lap base top place length) {m : Nat}
    (hstep : ∀ k, place (m + k + 1) = place (m + k) + length (m + k)) (k : Nat) :
    m + k ≤ place (m + k) + m := by
  induction k with
  | zero => omega
  | succ k ih =>
    have hk := hstep k
    have hpos := h.pos (m + k)
    rw [← Nat.add_assoc, hk]
    omega

/-- A walk wraps again and again, for it cannot climb for ever. -/
theorem exists_wrap (h : Lap base top place length) (m : Nat) :
    ∃ n, m ≤ n ∧ place (n + 1) + segmentSize = place n + length n := by
  by_contra hnone
  have hstep (k : Nat) : place (m + k + 1) = place (m + k) + length (m + k) :=
    (h.next (m + k)).resolve_right fun hwrap => hnone ⟨m + k, Nat.le_add_right m k, hwrap⟩
  have hclimb := h.climb hstep (top + 1)
  have htop := h.le_top (m + (top + 1))
  omega

/-- In an image of one segment at most, a walk wraps to the bottom. -/
theorem base_of_wrap (h : Lap base top place length) (hsize : top ≤ base + segmentSize) {n : Nat}
    (hwrap : place (n + 1) + segmentSize = place n + length n) : place (n + 1) = base := by
  have hbase := h.base_le (n + 1)
  have htop := h.le_top n
  omega

/-- In an image of one segment at most, a walk goes through every byte on its way around. -/
theorem exists_cover (h : Lap base top place length) {e m : Nat} (htop : e < top)
    (hm : place m ≤ e) (hsize : top ≤ base + segmentSize) :
    ∃ n, m ≤ n ∧ place n ≤ e ∧ e < place n + length n := by
  by_contra hnone
  -- As long as it is below the byte, the walk does not wrap and stays below.
  have hbelow (k : Nat) : place (m + k) ≤ e ∧
      place (m + k + 1) = place (m + k) + length (m + k) := by
    have hstep {n : Nat} (hn : m ≤ n) (hle : place n ≤ e) :
        place (n + 1) = place n + length n := by
      have hcover : ¬ e < place n + length n := fun hlt => hnone ⟨n, hn, hle, hlt⟩
      refine (h.next n).resolve_right fun hwrap => ?_
      have hbase' := h.base_le (n + 1)
      omega
    induction k with
    | zero => exact ⟨hm, hstep (Nat.le_refl m) hm⟩
    | succ k ih =>
      have hcover : ¬ e < place (m + k) + length (m + k) := fun hlt =>
        hnone ⟨m + k, Nat.le_add_right m k, ih.1, hlt⟩
      have hle : place (m + (k + 1)) ≤ e := by
        rw [← Nat.add_assoc, ih.2]
        omega
      exact ⟨hle, hstep (Nat.le_add_right m (k + 1)) hle⟩
  have hclimb := h.climb (fun k => (hbelow k).2) (e + 1)
  have hle := (hbelow (e + 1)).1
  omega

end Lap

/-- A walk that never stops goes around in the image. -/
theorem exists_lap {r : Routine} {d : Disassembly} {g : FlowGraph} {head : Instruction}
    (hd : r.disassemble = .ok d) (hhead : d.find? head.linear = some head)
    (hall : ∀ n, (visited? d g head n).isSome = true) :
    ∃ seen : Nat → Instruction, (∀ n, visited? d g head n = some (seen n)) ∧
      Lap r.image.base r.image.top (fun n => (seen n).linear) (fun n => (seen n).length.toNat) := by
  choose seen hseen using fun n => Option.isSome_iff_exists.1 (hall n)
  have hprovides (n : Nat) : r.Provides (seen n) :=
    Routine.provides_of_disassemble hd (find?_of_visited? hhead (hseen n))
  refine ⟨seen, hseen, ⟨fun n => (hprovides n).bounds.1, fun n => (hprovides n).bounds.2.1,
    fun n => (hprovides n).bounds.2.2, fun n => ?_⟩⟩
  have hnext := onward?_of_visited? (hseen n) (hseen (n + 1))
  have hlinear := Disassembly.linear_of_find? (onward?_eq_some hnext).1
  show (seen (n + 1)).linear = _ ∨ (seen (n + 1)).linear + segmentSize = _
  rw [hlinear]
  exact (seen n).nextLinear_cases

/-- **No block of a small image is walked for ever**: its walk would come to the entry, which
    begins a node. -/
theorem not_circles_of_size_le {r : Routine} {d : Disassembly} (hd : r.disassemble = .ok d)
    (hsize : r.image.memory.size ≤ segmentSize) : ¬ Circles d := by
  rintro ⟨k, -, g, n, head, hg, -, -, hhead, hrevisits⟩
  obtain ⟨g₁, he, hbuilt⟩ := filledTo_spec (wellFormed_of_disassemble hd) k hg
  cases he
  have hl : d.find? head.linear = some head := Disassembly.find?_linear hhead
  obtain ⟨seen, hseen, hlap⟩ := exists_lap hd hl ((endless_iff_revisits hl).2 hrevisits)
  obtain ⟨hentry, hin, hclear⟩ := Routine.entry_of_disassemble hd
  simp only [Image.contains, Bool.and_eq_true, decide_eq_true_eq] at hin
  have hsmall : r.image.top ≤ r.image.base + segmentSize := by
    rw [Image.top]
    omega
  -- Behind a wrap the walk is at the bottom, from where it climbs to the entry.
  obtain ⟨w, -, hwrap⟩ := hlap.exists_wrap 0
  have hbottom := hlap.base_of_wrap hsmall hwrap
  obtain ⟨m, hm, hle, hlt⟩ := hlap.exists_cover hin.2 (by rw [hbottom]; exact hin.1) hsmall
  have hfind : d.find? (seen m).linear = some (seen m) := find?_of_visited? hl (hseen m)
  have hthere : (seen m).linear = r.entry.linear := by
    rcases hclear hfind with hge | hends
    · omega
    · omega
  -- But the node of the entry was made first of all, so the walk stops in front of it.
  obtain ⟨m', rfl⟩ : ∃ m', m = m' + 1 := ⟨m - 1, by omega⟩
  have hstarts := (onward?_eq_some (onward?_of_visited? (hseen m') (hseen (m' + 1)))).2
  obtain ⟨-, id, -, -, -, hid⟩ := hbuilt.start
  have hcontains : g.byLinear.contains (seen (m' + 1)).linear = true := by
    rw [hthere, ← hentry]
    exact (AddressMap.contains_iff_exists _ _).2 ⟨id, hid⟩
  rw [startsNode, hcontains, Bool.or_true, Bool.true_or] at hstarts
  cases hstarts

/-- Graphs of small images are finished. -/
theorem build_of_size_le {r : Routine} {d : Disassembly} (hd : r.disassemble = .ok d)
    (hsize : r.image.memory.size ≤ segmentSize) : ∃ g, build d = some (.ok g) := by
  cases hbuild : build d with
  | none => exact absurd ((build_eq_none_iff_circles d).1 hbuild) (not_circles_of_size_le hd hsize)
  | some res =>
    obtain ⟨g, rfl, -⟩ := build_spec (wellFormed_of_disassemble hd) hbuild
    exact ⟨g, rfl⟩

end FlowGraph

/-- `mov cx, 3`, a loop of `dec cx` and `jnz`, and a jump to the `ret` behind it. -/
def countdown : Routine where
  image := .ofBytes [0xB9, 0x03, 0x00, 0x49, 0x75, 0xFD, 0xEB, 0x00, 0xC3] ⟨0, 0x100⟩ ⟨0, 0x100⟩
  entry := ⟨0, 0x100⟩

theorem isOk_disassemble_countdown : countdown.disassemble.isOk = true := by
  decide +kernel

theorem exists_graph_countdown :
    ∃ d g, countdown.disassemble = .ok d ∧ FlowGraph.build d = some (.ok g) := by
  have hok := isOk_disassemble_countdown
  cases hd : countdown.disassemble with
  | error e =>
    rw [hd] at hok
    cases hok
  | ok d =>
    obtain ⟨g, hg⟩ := FlowGraph.build_of_size_le hd (by decide)
    exact ⟨d, g, rfl, hg⟩

end RealMode
