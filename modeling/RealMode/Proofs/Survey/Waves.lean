import RealMode.Proofs.AddressMap
import RealMode.Proofs.FlowGraph.Annotation

namespace RealMode

/-!
# The waves of a survey as a queue

A wave is analyzed entry by entry, and the callees that come to light wait behind those that
came to light before. So the waves of a run are one queue, first in, first out.

* `Survey.Enrolls` — what enrolling entries does, `Survey.enroll_spec` — that it does so;
* `Survey.drain` — a queue of entries analyzed one after another, `Survey.runWaves_eq_drain` —
  that is what the waves of a run amount to;
* `Survey.drain_induction` — what each analyzed entry preserves is true at the end, or where
  an analysis goes on for ever.
-/

/-! ### Visited places -/

namespace Visited

/-- Behind an entry that was marked, its place is visited, and what was visited before. -/
theorem mem_insert {v : Visited} {a : Address} {k : Nat} :
    k ∈ (v.insert a).places ↔ a.linear = k ∨ k ∈ v.places := by
  show k ∈ v.places.insert a.linear ↔ _
  rw [Std.ExtTreeSet.mem_insert, Nat.compare_eq_eq]

/-- The test on an entry is one on its place: other addresses of the place count as visited, too. -/
theorem contains_iff {v : Visited} {a : Address} : v.contains a = true ↔ a.linear ∈ v.places :=
  Std.ExtTreeSet.contains_iff_mem

/-- Two sets of visited places are the same if they have the same members. -/
theorem ext_places {v v' : Visited} (h : ∀ k, k ∈ v.places ↔ k ∈ v'.places) : v = v' := by
  have hplaces : v.places = v'.places := Std.ExtTreeSet.ext_mem h
  cases v
  cases v'
  cases hplaces
  rfl

end Visited

namespace Survey

/-! ### Enrolling -/

/-- Of a list of entries, some are new; all of them are visited then. -/
structure Enrolls (v : Visited) (as fresh : List Address) (v' : Visited) : Prop where
  subset : ∀ a ∈ fresh, a ∈ as
  unseen : ∀ a ∈ fresh, a.linear ∉ v.places
  nodup : (fresh.map Address.linear).Nodup
  mem : ∀ {k : Nat}, k ∈ v'.places ↔ k ∈ v.places ∨ k ∈ fresh.map Address.linear
  all : ∀ a ∈ as, a.linear ∈ v'.places

/-- Enrolling picks out the entries at places that were not visited, the first of each place, and
    marks them all. -/
theorem enroll_spec (v : Visited) (as : List Address) :
    Enrolls v as (enroll v as).1 (enroll v as).2 := by
  induction as generalizing v with
  | nil => exact ⟨by simp [enroll], by simp [enroll], by simp [enroll], by simp [enroll], by simp⟩
  | cons a as ih =>
    unfold enroll
    split
    · rename_i hseen
      -- The place was seen, so the entry is left out; it is visited all the same.
      have h := ih v
      refine ⟨fun b hb => List.mem_cons_of_mem a (h.subset b hb), h.unseen, h.nodup, h.mem, ?_⟩
      intro b hb
      rcases List.mem_cons.1 hb with rfl | hb
      · exact h.mem.2 (.inl (Visited.contains_iff.1 hseen))
      · exact h.all b hb
    · rename_i hnew
      have h := ih (v.insert a)
      -- The place is new, and marked before the others are looked at.
      have hfresh : a.linear ∉ v.places := fun hmem => hnew (Visited.contains_iff.2 hmem)
      refine ⟨?_, ?_, ?_, ?_, ?_⟩
      · intro b hb
        rcases List.mem_cons.1 hb with rfl | hb
        · exact List.mem_cons_self
        · exact List.mem_cons_of_mem a (h.subset b hb)
      · intro b hb
        rcases List.mem_cons.1 hb with rfl | hb
        · exact hfresh
        · exact fun hmem => h.unseen b hb (Visited.mem_insert.2 (.inr hmem))
      · -- The place of `a` is visited when the others are enrolled.
        refine List.nodup_cons.2 ⟨fun hmem => ?_, h.nodup⟩
        obtain ⟨b, hb, hba⟩ := List.mem_map.1 hmem
        exact h.unseen b hb (Visited.mem_insert.2 (.inl hba.symm))
      · intro k
        rw [h.mem, Visited.mem_insert, List.map_cons, List.mem_cons]
        constructor
        · rintro ((rfl | hk) | hk)
          · exact .inr (.inl rfl)
          · exact .inl hk
          · exact .inr (.inr hk)
        · rintro (hk | rfl | hk)
          · exact .inl (.inr hk)
          · exact .inl (.inl rfl)
          · exact .inr hk
      · intro b hb
        rcases List.mem_cons.1 hb with rfl | hb
        · exact h.mem.2 (.inl (Visited.mem_insert.2 (.inl rfl)))
        · exact h.all b hb

/-! ### The queue -/

/-- Analyzes entries one after another; callees that are new line up behind the others. -/
def drain (s : Survey) (queue : List Address) : Option Survey :=
  match queue with
  | [] => some s
  | a :: rest =>
    match s.analyze a with
    | none => none
    | some result => drain (s.note a result).1 (rest ++ (s.note a result).2)
termination_by s.visited.left + queue.length
decreasing_by
  have hnote := left_note s a result
  rw [List.length_append, List.length_cons]
  omega

theorem drain_nil (s : Survey) : s.drain [] = some s := by
  rw [drain]

theorem drain_cons (s : Survey) (a : Address) (rest : List Address) :
    s.drain (a :: rest) = (s.analyze a).bind fun result =>
      (s.note a result).1.drain (rest ++ (s.note a result).2) := by
  rw [drain]
  cases s.analyze a <;> rfl

/-- What stands behind a wave in the queue comes before the callees of the wave. The induction is on
    the wave. -/
theorem drain_append (s : Survey) (wave queue : List Address) :
    s.drain (wave ++ queue) = (s.analyzeWave wave).bind fun p => p.1.drain (queue ++ p.2) := by
  induction wave generalizing s queue with
  | nil =>
    show s.drain queue = s.drain (queue ++ [])
    rw [List.append_nil]
  | cons a wave ih =>
    rw [List.cons_append, drain_cons]
    show _ = (do
      let p := s.note a (← s.analyze a)
      let q ← p.1.analyzeWave wave
      return (q.1, p.2 ++ q.2) : Option (Survey × List Address)).bind _
    cases s.analyze a with
    | none => rfl
    | some result =>
      show (s.note a result).1.drain (wave ++ queue ++ (s.note a result).2) = _
      rw [List.append_assoc, ih]
      cases hwave : (s.note a result).1.analyzeWave wave with
      | none => simp [hwave]
      | some p => simp [hwave, List.append_assoc]

/-- **The waves of a run are one queue**, so results can be followed one by one, without regard to
    where one wave ends and the next begins. -/
theorem runWaves_eq_drain (s : Survey) (wave : List Address) : s.runWaves wave = s.drain wave := by
  have hdrain := drain_append s wave []
  rw [List.append_nil] at hdrain
  rw [hdrain]
  fun_induction runWaves s wave with
  | case1 s wave hwave => rw [hwave]; rfl
  | case2 s wave s' hwave => rw [hwave, Option.bind_some, List.append_nil, drain_nil]
  | case3 s wave s' a next hwave ih =>
    have hnext := drain_append s' (a :: next) []
    rw [List.append_nil] at hnext
    rw [ih hnext, hwave, Option.bind_some, List.nil_append, hnext]

/-- A run drains the queue of the entries that are new. -/
theorem run_eq_drain (s : Survey) (entries : List Address) :
    s.run entries = ({ s with visited := (enroll s.visited entries).2 }.drain
      (enroll s.visited entries).1).map sortFailures := by
  rw [← runWaves_eq_drain]
  rfl

/-- **What each analyzed entry preserves** is true when the queue is drained. If it never is, it is
    true where the analysis of an entry goes on for ever, with that entry in front of the queue. -/
theorem drain_induction {P : Survey → List Address → Prop}
    (hstep : ∀ {s : Survey} {a : Address} {rest : List Address} {result}, P s (a :: rest) →
      s.analyze a = some result → P (s.note a result).1 (rest ++ (s.note a result).2))
    {s : Survey} {queue : List Address} (h : P s queue) :
    (∃ t, s.drain queue = some t ∧ P t []) ∨
      s.drain queue = none ∧ ∃ t a rest, P t (a :: rest) ∧ t.analyze a = none := by
  fun_induction drain s queue with
  | case1 s => exact .inl ⟨s, rfl, h⟩
  | case2 s a rest hnone => exact .inr ⟨rfl, s, a, rest, h, hnone⟩
  | case3 s a rest result hsome ih => exact ih (hstep h hsome)

/-- The same of a queue that is drained. -/
theorem of_drain {P : Survey → List Address → Prop}
    (hstep : ∀ {s : Survey} {a : Address} {rest : List Address} {result}, P s (a :: rest) →
      s.analyze a = some result → P (s.note a result).1 (rest ++ (s.note a result).2))
    {s t : Survey} {queue : List Address} (h : P s queue) (hdrain : s.drain queue = some t) :
    P t [] := by
  rcases drain_induction hstep h with ⟨t', ht', hP⟩ | ⟨hnone, -⟩
  · rw [hdrain] at ht'
    cases ht'
    exact hP
  · rw [hdrain] at hnone
    cases hnone

end Survey

end RealMode
