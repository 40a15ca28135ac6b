import Mathlib.Order.Interval.Finset.Nat
import RealMode.Proofs.Disassembly.ControlFlow
import RealMode.Proofs.FlowGraph.Termination
import RealMode.Proofs.Walk.Apart

namespace RealMode

/-!
# The bytes of the instructions of a disassembly

* `Disassembly.encoded` — the instructions that have bytes in the image, in the order of their
  places, and `Routine.find?_iff_mem_encoded` — they are the ones that are found;
* `Instruction.bytes` — the linear addresses of the bytes of an instruction;
* `Routine.apart_of_disassemble` — an instruction ends before the next one begins, unless its
  bytes go up to the end of its segment;
* `encoded_disjoint` — instructions share no bytes, in images that end below the end of the
  first segment without exception.

At the end of a segment they may share bytes: `straddle` is a program whose `ret 0xC3` lies
across it, with another `ret` inside.
-/

/-- The instructions that have bytes in the image. -/
def Disassembly.encoded (d : Disassembly) : List Instruction :=
  d.instructions.toList.filter (!·.isSynthetic)

/-- The linear addresses of the bytes of an instruction. -/
def Instruction.bytes (i : Instruction) : Finset Nat :=
  Finset.Ico i.linear (i.linear + i.length.toNat)

/-- A property of a disassembly that can be computed. Programs that serve as examples are shown to
    have theirs in this way. -/
theorem Routine.exists_disassembly {r : Routine} {P : Disassembly → Prop} [DecidablePred P]
    (h : r.disassemble.toOption.any (decide <| P ·) = true) :
    ∃ d, r.disassemble = .ok d ∧ P d := by
  cases hd : r.disassemble with
  | error e =>
    rw [hd] at h
    cases h
  | ok d =>
    rw [hd] at h
    exact ⟨d, rfl, of_decide_eq_true h⟩

/-! ### The listing without the jump to the entry -/

namespace Walk

variable {r : Routine} {w : Walk} {d : Disassembly}

/-- The encoded instructions are those of the walk, with their loads fused; the jump to the entry
    has no bytes and is left out. -/
theorem encoded_of_finish (hs : Sound r w) (h : w.finish r = .ok d) :
    d.encoded = w.fusedItems r := by
  obtain ⟨-, -, hinstructions, -⟩ := finish_cases h
  have hbytes (i : Instruction) (hi : i ∈ w.fusedItems r) : (!i.isSynthetic) = true := by
    rw [((mem_listing_iff hs).2 hi).2, Bool.not_false]
  have hall := List.filter_eq_self.2 hbytes
  rw [Disassembly.encoded, hinstructions, listing_eq]
  show (withEntryJump r.entry (w.fusedItems r)).filter _ = _
  unfold withEntryJump
  split
  · rename_i hnil
    rw [hnil]
    rfl
  · split
    · exact hall
    · -- The jump to the entry has no bytes.
      rw [List.filter_cons_of_neg, hall]
      unfold entryJump
      split <;> simp [Instruction.isSynthetic]

end Walk

namespace Routine

variable {r : Routine} {d : Disassembly}

/-- **What is found is what is encoded.** So a statement about all that can be found is one about a
    list. -/
theorem find?_iff_mem_encoded (hd : r.disassemble = .ok d) {k : Nat} {i : Instruction} :
    d.find? k = some i ↔ i ∈ d.encoded ∧ i.linear = k := by
  obtain ⟨w, hwalk, hfinish⟩ := disassemble_cases hd
  obtain ⟨hsound, -⟩ := Walk.sound_of_walk hwalk
  obtain ⟨-, -, hinstructions, hindex, -⟩ := Walk.finish_cases hfinish
  rw [Walk.encoded_of_finish hsound hfinish]
  exact Walk.find?_of_listing hsound hinstructions hindex

/-- Encoded instructions stand in the order of their places, so no two are at the same place. -/
theorem ordered_encoded (hd : r.disassemble = .ok d) :
    d.encoded.Pairwise (fun i j => i.linear < j.linear) := by
  obtain ⟨w, hwalk, hfinish⟩ := disassemble_cases hd
  obtain ⟨hsound, -⟩ := Walk.sound_of_walk hwalk
  rw [Walk.encoded_of_finish hsound hfinish]
  exact List.pairwise_map.1 (Walk.linear_fusedItems hsound)

/-- An instruction ends before the next one begins, unless its bytes go up to the end of its
    segment, where the place behind it wraps around. -/
theorem apart_of_disassemble (hd : r.disassemble = .ok d) {k l : Nat} {i j : Instruction}
    (hi : d.find? k = some i) (hj : d.find? l = some j) (hlt : k < l) :
    k + i.length.toNat ≤ l ∨ i.ReachesSegmentEnd := by
  obtain ⟨w, hw⟩ := finished_of_disassemble hd
  obtain ⟨i', hi', hfused⟩ := hw.shows.found hi
  obtain ⟨j', hj', -⟩ := hw.shows.found hj
  rw [Instruction.ReachesSegmentEnd, hfused.address, hfused.length]
  exact Walk.apart_of_walk hw.walk hi' hj' hlt

end Routine

/-! ### Shared bytes -/

/-- Instructions of which one ends where the other begins, or before, share no bytes. -/
theorem Instruction.disjoint_bytes {i j : Instruction}
    (h : i.linear + i.length.toNat ≤ j.linear) : Disjoint i.bytes j.bytes := by
  rw [Finset.disjoint_left]
  intro a ha hb
  simp only [bytes, Finset.mem_Ico] at ha hb
  omega

/-- **Instructions share no bytes**, unless those of the lower one go up to the end of its
    segment; and none do in an image that ends below the end of the first segment. -/
theorem encoded_disjoint {r : Routine} {d : Disassembly} (hd : r.disassemble = .ok d) :
    d.encoded.Pairwise (fun i j => Disjoint i.bytes j.bytes ∨ i.ReachesSegmentEnd) ∧
      (r.image.top < segmentSize →
        d.encoded.Pairwise (fun i j => Disjoint i.bytes j.bytes)) := by
  have hfound {i : Instruction} (hi : i ∈ d.encoded) : d.find? i.linear = some i :=
    (Routine.find?_iff_mem_encoded hd).2 ⟨hi, rfl⟩
  have hapart : d.encoded.Pairwise
      (fun i j => Disjoint i.bytes j.bytes ∨ i.ReachesSegmentEnd) := by
    refine (Routine.ordered_encoded hd).imp_of_mem fun hi hj hlt => ?_
    exact (Routine.apart_of_disassemble hd (hfound hi) (hfound hj) hlt).imp_left
      Instruction.disjoint_bytes
  refine ⟨hapart, fun htop => hapart.imp_of_mem fun {i j} hi hj h => h.resolve_right ?_⟩
  -- An offset is no more than the place, so the end of a segment is outside the image.
  intro hreach
  have hbounds := (Routine.provides_of_disassemble hd (hfound hi)).bounds.2.2
  have hlinear := i.linear_eq
  rw [Instruction.ReachesSegmentEnd] at hreach
  omega

/-- The instructions of the countdown share no bytes, since the image ends far below the end of the
    segment. -/
theorem encoded_disjoint_countdown :
    ∃ d, countdown.disassemble = .ok d ∧
      d.encoded.Pairwise (fun i j => Disjoint i.bytes j.bytes) := by
  obtain ⟨d, -, hd, -⟩ := exists_graph_countdown
  exact ⟨d, hd, (encoded_disjoint hd).2 (by decide)⟩

/-- `jz` to the second byte of the `ret 0xC3` behind it, four bytes below the end of the
    segment. -/
def straddle : Routine where
  image := .ofBytes [0x74, 0x01, 0xC2, 0xC3, 0x00] ⟨0, 0xFFFC⟩ ⟨0, 0xFFFC⟩
  entry := ⟨0, 0xFFFC⟩

/-- **At the end of a segment, instructions may share bytes.** The place behind the lower `ret`
    wraps to the start of the segment, so it does not count as reaching across the other one. -/
theorem straddle_shares_bytes :
    ∃ d, straddle.disassemble = .ok d ∧ ∃ i ∈ d.encoded, ∃ j ∈ d.encoded,
      i ≠ j ∧ ¬ Disjoint i.bytes j.bytes :=
  Routine.exists_disassembly (by decide +kernel)

end RealMode
