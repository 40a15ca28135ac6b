import Mathlib.Data.List.Perm.Basic
import Mathlib.Logic.Relation
import RealMode.Proofs.Survey.Waves

namespace RealMode

/-!
# Keeping track of a survey

* `Survey.Notes` — the results a survey has taken note of, `Survey.onward` — the entries it
  goes on with behind a result;
* `Survey.Tracks` — what is true of a survey and its queue at any time: each visited place
  has its result or waits, and was come to from a given entry by calls;
* `Survey.ComesUp` — an entry is given to a run, or the run comes to it by calls;
* `Survey.Since` — what a run adds to the results that were there before;
* `Survey.run_spec` — a whole run keeps track, because each analyzed entry does.
-/

/-- The linear address of the entry. -/
def Failure.linear (x : Failure) : Nat := x.entry.linear

/-- An analyzed function has the disassembly of its entry. -/
theorem Survey.disassembly_of_analyze {s : Survey} {a : Address} {f : AnalyzedFunction}
    (h : s.analyze a = some (.ok f)) : (s.routine a).disassemble = .ok f.disassembly := by
  unfold analyze at h
  cases hd : (s.routine a).disassemble with
  | error e =>
    rw [Routine.analyze_of_error hd] at h
    cases h
  | ok d =>
    cases hg : FlowGraph.build d with
    | none =>
      rw [Routine.analyze_of_none hd hg] at h
      cases h
    | some res =>
      cases res with
      | error e => exact absurd hg (FlowGraph.build_ne_error hd e)
      | ok g =>
        obtain ⟨g', ha⟩ := FlowGraph.annotate_of_build hd hg
        rw [Routine.analyze_of_annotate hd hg ha] at h
        cases h
        rfl

theorem Survey.entry_of_analyze {s : Survey} {a : Address} {f : AnalyzedFunction}
    (h : s.analyze a = some (.ok f)) : f.entry = a :=
  (Routine.entry_of_disassemble (disassembly_of_analyze h)).1

namespace Survey

variable {s s' o : Survey} {given queue rest : List Address} {a : Address}
  {result : Except AnalysisError AnalyzedFunction}

/-! ### Results -/

/-- The survey has taken note of the result of an analysis. -/
def Notes (s : Survey) (a : Address) : Except AnalysisError AnalyzedFunction → Prop
  | .ok f => s.functions[a.linear]? = some f ∧ f.entry = a
  | .error error => ⟨a, error⟩ ∈ s.failures

/-- The entries that a survey goes on with behind a result. -/
def onward (s : Survey) : Except AnalysisError AnalyzedFunction → List Address
  | .ok f => if s.followCalls then f.disassembly.callees else []
  | .error _ => []

/-- Two surveys analyze in the same way. -/
structure Shares (s s' : Survey) : Prop where
  image : s.image = s'.image
  options : s.options = s'.options
  templates : s.templates = s'.templates
  followCalls : s.followCalls = s'.followCalls

/-- Surveys that share image, options and templates analyze an entry alike. -/
theorem Shares.analyze (h : Shares s s') (a : Address) : s.analyze a = s'.analyze a := by
  simp only [Survey.analyze, routine, h.image, h.options, h.templates]

theorem Shares.onward (h : Shares s s') : s.onward result = s'.onward result := by
  cases result <;> simp only [Survey.onward, h.followCalls]

theorem Shares.trans {s'' : Survey} (h : Shares s s') (h' : Shares s' s'') : Shares s s'' :=
  ⟨h.image.trans h'.image, h.options.trans h'.options, h.templates.trans h'.templates,
    h.followCalls.trans h'.followCalls⟩

theorem Shares.symm (h : Shares s s') : Shares s' s :=
  ⟨h.image.symm, h.options.symm, h.templates.symm, h.followCalls.symm⟩

/-- Taking note of a result changes nothing about how to analyze. -/
theorem shares_note (s : Survey) (a : Address) (result : Except AnalysisError AnalyzedFunction) :
    Shares (s.note a result).1 s := by
  cases result <;> exact ⟨rfl, rfl, rfl, rfl⟩

/-- Taking note of a result enrolls the entries to go on with, and no others. -/
theorem enrolls_note (s : Survey) (a : Address)
    (result : Except AnalysisError AnalyzedFunction) :
    Enrolls s.visited (s.onward result) (s.note a result).2 (s.note a result).1.visited := by
  cases result with
  | error e => exact enroll_spec s.visited []
  | ok f =>
    show Enrolls s.visited (if s.followCalls then f.disassembly.callees else [])
      (s.freshCallees f).1 (s.freshCallees f).2
    unfold freshCallees
    split
    · exact enroll_spec s.visited f.disassembly.callees
    · exact enroll_spec s.visited []

/-- A result that is taken note of at a new place leaves the others as they are: its place had no
    function that it could replace. -/
theorem notes_note_iff (hnew : s.functions[a.linear]? = none) (h : s.analyze a = some result)
    {b : Address} {r : Except AnalysisError AnalyzedFunction} :
    (s.note a result).1.Notes b r ↔ s.Notes b r ∨ b = a ∧ r = result := by
  cases result with
  | error e =>
    cases r with
    | error e' =>
      show ⟨b, e'⟩ ∈ s.failures ++ [⟨a, e⟩] ↔ _
      simp [Notes]
    | ok f => simp [Notes, note]
  | ok f =>
    cases r with
    | error e' => simp [Notes, note]
    | ok f' =>
      show (s.functions.insert a.linear f)[b.linear]? = some f' ∧ f'.entry = b ↔ _
      rw [AddressMap.getElem?_insert]
      have hentry := entry_of_analyze h
      constructor
      · rintro ⟨hf, rfl⟩
        split at hf
        · cases hf
          exact .inr ⟨hentry, rfl⟩
        · exact .inl ⟨hf, rfl⟩
      · rintro (⟨hf, rfl⟩ | ⟨rfl, hr⟩)
        · refine ⟨?_, rfl⟩
          rw [if_neg, hf]
          -- An old function at this place is impossible, as the place is new.
          intro hplace
          rw [← hplace, hnew] at hf
          cases hf
        · cases hr
          exact ⟨if_pos rfl, hentry⟩

/-! ### The state of a survey -/

/-- The entry was given, or comes behind a result. -/
def Named (s : Survey) (given : List Address) (a : Address) : Prop :=
  a ∈ given ∨ ∃ b r, s.Notes b r ∧ a ∈ s.onward r

/-- The survey goes on from one place to another. -/
def Leads (s : Survey) (j k : Nat) : Prop :=
  ∃ b r, s.Notes b r ∧ b.linear = j ∧ ∃ c ∈ s.onward r, c.linear = k

/-- What is true of a survey with a queue, when all of `given` was given. -/
structure Tracks (given : List Address) (s : Survey) (queue : List Address) : Prop where
  entry : ∀ {k : Nat} {f}, s.functions[k]? = some f → f.entry.linear = k
  visited : ∀ {k : Nat}, k ∈ s.visited.places ↔
    (∃ a r, s.Notes a r ∧ a.linear = k) ∨ k ∈ queue.map Address.linear
  apart : ∀ {k : Nat} {f}, s.functions[k]? = some f →
    k ∉ s.failures.map Failure.linear ++ queue.map Address.linear
  nodup : (s.failures.map Failure.linear ++ queue.map Address.linear).Nodup
  enrolled : ∀ a ∈ given, a.linear ∈ s.visited.places
  onward : ∀ {a : Address} {r}, s.Notes a r → ∀ c ∈ s.onward r, c.linear ∈ s.visited.places
  origin : ∀ {a : Address}, (∃ r, s.Notes a r) ∨ a ∈ queue → s.Named given a
  reached : ∀ {k : Nat}, k ∈ s.visited.places →
    ∃ a ∈ given, Relation.ReflTransGen s.Leads a.linear k

/-- What is named stays named while results are added. -/
theorem Named.mono (hshares : Shares s' s) (hnotes : ∀ {b r}, s.Notes b r → s'.Notes b r)
    (h : s.Named given a) : s'.Named given a := by
  rcases h with h | ⟨b, r, hb, ha⟩
  · exact .inl h
  · exact .inr ⟨b, r, hnotes hb, by rwa [hshares.onward]⟩

/-- A survey goes on from where it did, while results are added. -/
theorem Leads.mono (hshares : Shares s' s) (hnotes : ∀ {b r}, s.Notes b r → s'.Notes b r)
    {j k : Nat} (h : s.Leads j k) : s'.Leads j k := by
  obtain ⟨b, r, hb, hj, c, hc, hk⟩ := h
  exact ⟨b, r, hnotes hb, hj, c, by rwa [hshares.onward], hk⟩

section Note

variable (h : Tracks given s (a :: rest))
include h

/-- The entry in front of the queue has no function yet. -/
theorem Tracks.new : s.functions[a.linear]? = none := by
  cases hf : s.functions[a.linear]? with
  | none => rfl
  | some f => exact absurd (by simp) (h.apart hf)

/-- What waits in the queue is marked as visited already. -/
theorem Tracks.mem_queue : a.linear ∈ s.visited.places :=
  h.visited.2 (.inr (by simp))

/-- The places of failures are visited, as failures are results. -/
theorem Tracks.mem_failures {k : Nat} (hk : k ∈ s.failures.map Failure.linear) :
    k ∈ s.visited.places := by
  obtain ⟨x, hx, rfl⟩ := List.mem_map.1 hk
  exact h.visited.2 (.inl ⟨x.entry, .error x.error, hx, rfl⟩)

/-- Each place of a failure or in the queue comes once, also behind one more result. The entry moves
    from the queue to the failures or leaves both, and what is new was visited nowhere before. -/
theorem Tracks.nodup_note (result : Except AnalysisError AnalyzedFunction) :
    ((s.note a result).1.failures.map Failure.linear ++
      (rest ++ (s.note a result).2).map Address.linear).Nodup := by
  cases result with
  | error e =>
    have hnodup := h.nodup
    show ((s.failures ++ [Failure.mk a e]).map Failure.linear ++
      (rest ++ []).map Address.linear).Nodup
    simpa [Failure.linear] using hnodup
  | ok f =>
    have henrolls := enrolls_note s a (.ok f)
    have hnodup : (s.failures.map Failure.linear ++ rest.map Address.linear).Nodup :=
      h.nodup.sublist (List.append_sublist_append_left _ |>.2 (List.sublist_cons_self ..))
    show (s.failures.map Failure.linear ++ (rest ++ (s.note a (.ok f)).2).map Address.linear).Nodup
    rw [List.map_append, ← List.append_assoc]
    refine hnodup.append henrolls.nodup ?_
    -- What is enrolled was not visited, and all the rest was.
    intro k hk hfresh
    obtain ⟨c, hc, rfl⟩ := List.mem_map.1 hfresh
    refine henrolls.unseen c hc ?_
    rcases List.mem_append.1 hk with hk | hk
    · exact h.mem_failures hk
    · exact h.visited.2 (.inr (List.mem_cons_of_mem _ hk))

/-- A function has its place for itself, also behind one more result. -/
theorem Tracks.apart_note {k : Nat} {f : AnalyzedFunction}
    (hf : (s.note a result).1.functions[k]? = some f) :
    k ∉ (s.note a result).1.failures.map Failure.linear ++
      (rest ++ (s.note a result).2).map Address.linear := by
  cases result with
  | error e =>
    have hapart := h.apart hf
    show k ∉ (s.failures ++ [Failure.mk a e]).map Failure.linear ++ (rest ++ []).map Address.linear
    simpa [Failure.linear] using hapart
  | ok f' =>
    have henrolls := enrolls_note s a (.ok f')
    change (s.functions.insert a.linear f')[k]? = some f at hf
    rw [AddressMap.getElem?_insert] at hf
    -- The place of a function is visited, so nothing that is new is at it.
    have hseen : k ∈ s.visited.places := by
      split at hf
      · rename_i hk
        exact hk ▸ h.mem_queue
      · exact h.visited.2 (.inl ⟨f.entry, .ok f, ⟨by rw [h.entry hf, hf], rfl⟩, h.entry hf⟩)
    -- Nor is it among the failures, or still waiting.
    have hbefore : k ∉ s.failures.map Failure.linear ++ rest.map Address.linear := by
      split at hf
      · rename_i hk
        rw [← hk]
        have hnodup := h.nodup
        rw [List.map_cons, List.nodup_middle, List.nodup_cons] at hnodup
        exact hnodup.1
      · intro hk
        refine h.apart hf (List.mem_append.2 ?_)
        exact (List.mem_append.1 hk).imp_right (List.mem_cons_of_mem _)
    show k ∉ s.failures.map Failure.linear ++ (rest ++ (s.note a (.ok f')).2).map Address.linear
    rw [List.map_append, ← List.append_assoc, List.mem_append]
    rintro (hk | hk)
    · exact hbefore hk
    · obtain ⟨c, hc, rfl⟩ := List.mem_map.1 hk
      exact henrolls.unseen c hc hseen

/-- What one more result brings into the queue is named by that result, and what was named before
    still is. -/
theorem Tracks.origin_note (hanalyze : s.analyze a = some result) {b : Address}
    (hb : (∃ r, (s.note a result).1.Notes b r) ∨ b ∈ rest ++ (s.note a result).2) :
    (s.note a result).1.Named given b := by
  have hshares := shares_note s a result
  have hnotes {b : Address} {r : Except AnalysisError AnalyzedFunction} :
      (s.note a result).1.Notes b r ↔ s.Notes b r ∨ b = a ∧ r = result :=
    notes_note_iff h.new hanalyze
  have hold (hb : (∃ r, s.Notes b r) ∨ b ∈ a :: rest) : (s.note a result).1.Named given b :=
    (h.origin hb).mono hshares fun hb => hnotes.2 (.inl hb)
  rcases hb with ⟨r, hb⟩ | hb
  · rcases hnotes.1 hb with hb | ⟨rfl, rfl⟩
    · exact hold (.inl ⟨r, hb⟩)
    · exact hold (.inr List.mem_cons_self)
  · rcases List.mem_append.1 hb with hb | hb
    · exact hold (.inr (List.mem_cons_of_mem a hb))
    · refine .inr ⟨a, result, hnotes.2 (.inr ⟨rfl, rfl⟩), ?_⟩
      rw [hshares.onward]
      exact (enrolls_note s a result).subset b hb

/-- Calls lead from the given entries to what is visited, also behind one more result: to the new
    places over the one it is for. -/
theorem Tracks.reached_note (hanalyze : s.analyze a = some result) {k : Nat}
    (hk : k ∈ (s.note a result).1.visited.places) :
    ∃ b ∈ given, Relation.ReflTransGen (s.note a result).1.Leads b.linear k := by
  have hshares := shares_note s a result
  have henrolls := enrolls_note s a result
  have hnotes {b : Address} {r : Except AnalysisError AnalyzedFunction} :
      (s.note a result).1.Notes b r ↔ s.Notes b r ∨ b = a ∧ r = result :=
    notes_note_iff h.new hanalyze
  have hold {k : Nat} (hk : k ∈ s.visited.places) :
      ∃ b ∈ given, Relation.ReflTransGen (s.note a result).1.Leads b.linear k := by
    obtain ⟨b, hb, hpath⟩ := h.reached hk
    refine ⟨b, hb, Relation.ReflTransGen.mono (fun i j hij => ?_) _ _ hpath⟩
    exact Leads.mono hshares (fun hb => hnotes.2 (.inl hb)) hij
  rcases henrolls.mem.1 hk with hk | hk
  · exact hold hk
  · -- What is new is one call away from `a`.
    obtain ⟨c, hc, rfl⟩ := List.mem_map.1 hk
    obtain ⟨b, hb, hpath⟩ := hold h.mem_queue
    refine ⟨b, hb, hpath.tail ⟨a, result, hnotes.2 (.inr ⟨rfl, rfl⟩), rfl, c, ?_, rfl⟩⟩
    rw [hshares.onward]
    exact henrolls.subset c hc

/-- **Taking note of a result keeps track.** This is the step of all inductions over a run, one
    clause after another. -/
theorem Tracks.note (hanalyze : s.analyze a = some result) :
    Tracks given (s.note a result).1 (rest ++ (s.note a result).2) := by
  have hshares := shares_note s a result
  have henrolls := enrolls_note s a result
  have hnotes {b : Address} {r : Except AnalysisError AnalyzedFunction} :
      (s.note a result).1.Notes b r ↔ s.Notes b r ∨ b = a ∧ r = result :=
    notes_note_iff h.new hanalyze
  have hhere : (s.note a result).1.Notes a result := hnotes.2 (.inr ⟨rfl, rfl⟩)
  refine ⟨?_, ?_, h.apart_note, h.nodup_note result, ?_, ?_, h.origin_note hanalyze,
    h.reached_note hanalyze⟩
  · -- Each function is at the place of its entry.
    intro k f hf
    cases result with
    | error e => exact h.entry hf
    | ok f' =>
      change (s.functions.insert a.linear f')[k]? = some f at hf
      rw [AddressMap.getElem?_insert] at hf
      split at hf
      · rename_i hk
        cases hf
        rw [entry_of_analyze hanalyze, hk]
      · exact h.entry hf
  · intro k
    -- The entry moves from the queue to the results; the rest of the queue and what is new wait.
    rw [henrolls.mem, h.visited, List.map_append, List.mem_append, List.map_cons, List.mem_cons]
    constructor
    · rintro ((⟨b, r, hb, hk⟩ | rfl | hk) | hk)
      · exact .inl ⟨b, r, hnotes.2 (.inl hb), hk⟩
      · exact .inl ⟨a, result, hhere, rfl⟩
      · exact .inr (.inl hk)
      · exact .inr (.inr hk)
    · rintro (⟨b, r, hb, hk⟩ | hk | hk)
      · rcases hnotes.1 hb with hb | ⟨rfl, rfl⟩
        · exact .inl (.inl ⟨b, r, hb, hk⟩)
        · exact .inl (.inr (.inl hk.symm))
      · exact .inl (.inr (.inr hk))
      · exact .inr hk
  · intro b hb
    exact henrolls.mem.2 (.inl (h.enrolled b hb))
  · intro b r hb c hc
    -- Behind old results nothing changes, and behind the new one all entries were enrolled.
    rw [hshares.onward] at hc
    rcases hnotes.1 hb with hb | ⟨rfl, rfl⟩
    · exact henrolls.mem.2 (.inl (h.onward hb c hc))
    · exact henrolls.all c hc

end Note

/-! ### Whole runs -/

theorem notes_sortFailures_iff {r : Except AnalysisError AnalyzedFunction} :
    s.sortFailures.Notes a r ↔ s.Notes a r := by
  cases r with
  | ok f => exact Iff.rfl
  | error e => exact (List.mergeSort_perm ..).mem_iff

theorem shares_sortFailures (s : Survey) : Shares s.sortFailures s := ⟨rfl, rfl, rfl, rfl⟩

theorem perm_sortFailures (s : Survey) : s.sortFailures.failures.Perm s.failures :=
  List.mergeSort_perm ..

theorem Tracks.sortFailures (h : Tracks given s []) : Tracks given s.sortFailures [] := by
  have hshares := shares_sortFailures s
  have hperm := (perm_sortFailures s).map Failure.linear
  have hnotes {b : Address} {r : Except AnalysisError AnalyzedFunction} (hb : s.Notes b r) :
      s.sortFailures.Notes b r := notes_sortFailures_iff.2 hb
  refine ⟨h.entry, ?_, ?_, ?_, h.enrolled, ?_, ?_, ?_⟩
  · intro k
    simp only [notes_sortFailures_iff]
    exact h.visited
  · intro k f hf
    rw [List.map_nil, List.append_nil, hperm.mem_iff]
    simpa using h.apart hf
  · rw [List.map_nil, List.append_nil, hperm.nodup_iff]
    simpa using h.nodup
  · intro b r hb
    exact h.onward (notes_sortFailures_iff.1 hb)
  · intro b hb
    refine (h.origin ?_).mono hshares hnotes
    exact hb.imp_left fun ⟨r, hr⟩ => ⟨r, notes_sortFailures_iff.1 hr⟩
  · intro k hk
    obtain ⟨b, hb, hpath⟩ := h.reached hk
    exact ⟨b, hb, Relation.ReflTransGen.mono (fun _ _ hjk => hjk.mono hshares hnotes) _ _ hpath⟩

theorem sorted_sortFailures (s : Survey) :
    s.sortFailures.failures.Pairwise (·.linear ≤ ·.linear) := by
  have hsorted : s.sortFailures.failures.Pairwise
      (fun x y => decide (x.entry.linear ≤ y.entry.linear) = true) := by
    refine List.pairwise_mergeSort ?_ ?_ s.failures
    · intro x y z
      simp only [decide_eq_true_eq]
      omega
    · intro x y
      simp only [Bool.or_eq_true, decide_eq_true_eq]
      omega
  exact hsorted.imp fun hle => of_decide_eq_true hle

/-- Failures at different places are in strict order when they are sorted. -/
theorem Tracks.increasing (h : Tracks given s []) :
    s.sortFailures.failures.Pairwise (·.linear < ·.linear) := by
  have hnodup : (s.sortFailures.failures.map Failure.linear).Nodup := by
    simpa using h.sortFailures.nodup
  refine ((sorted_sortFailures s).and (List.pairwise_map.1 hnodup)).imp ?_
  rintro x y ⟨hle, hne⟩
  exact Nat.lt_of_le_of_ne hle hne

/-- The entries of a run are enrolled, and its survey is on track, with the new ones in the
    queue. -/
theorem Tracks.enroll (h : Tracks given s []) (entries : List Address) :
    Tracks (given ++ entries) { s with visited := (enroll s.visited entries).2 }
      (Survey.enroll s.visited entries).1 := by
  have henrolls := enroll_spec s.visited entries
  have hgiven {b : Address} (hb : b ∈ given) : b ∈ given ++ entries := List.mem_append_left _ hb
  have hseen {b : Address} {r : Except AnalysisError AnalyzedFunction} (hb : s.Notes b r) :
      b.linear ∈ s.visited.places := h.visited.2 (.inl ⟨b, r, hb, rfl⟩)
  -- What is enrolled was not visited, so it is no place of a result.
  have hunseen {k : Nat} (hk : k ∈ s.visited.places) :
      k ∉ (Survey.enroll s.visited entries).1.map Address.linear := by
    intro hfresh
    obtain ⟨c, hc, rfl⟩ := List.mem_map.1 hfresh
    exact henrolls.unseen c hc hk
  refine ⟨h.entry, ?_, ?_, ?_, ?_, ?_, ?_, ?_⟩
  · intro k
    show k ∈ (Survey.enroll s.visited entries).2.places ↔ _
    rw [henrolls.mem, h.visited, List.map_nil]
    simp only [List.not_mem_nil, or_false]
    rfl
  · intro k f hf
    have hplace : k ∈ s.visited.places :=
      h.visited.2 (.inl ⟨f.entry, .ok f, ⟨by rw [h.entry hf, hf], rfl⟩, h.entry hf⟩)
    rw [List.mem_append]
    rintro (hk | hk)
    · exact h.apart hf (List.mem_append_left _ hk)
    · exact hunseen hplace hk
  · have hnodup := h.nodup
    rw [List.map_nil, List.append_nil] at hnodup
    refine hnodup.append henrolls.nodup ?_
    intro k hk hfresh
    obtain ⟨x, hx, rfl⟩ := List.mem_map.1 hk
    exact hunseen (hseen (b := x.entry) (r := .error x.error) hx) hfresh
  · intro b hb
    rcases List.mem_append.1 hb with hb | hb
    · exact henrolls.mem.2 (.inl (h.enrolled b hb))
    · exact henrolls.all b hb
  · intro b r hb c hc
    exact henrolls.mem.2 (.inl (h.onward hb c hc))
  · rintro b (hb | hb)
    · rcases h.origin (.inl hb) with hb | hb
      · exact .inl (hgiven hb)
      · exact .inr hb
    · exact .inl (List.mem_append_right _ (henrolls.subset b hb))
  · intro k hk
    rcases henrolls.mem.1 hk with hk | hk
    · obtain ⟨b, hb, hpath⟩ := h.reached hk
      exact ⟨b, hgiven hb, hpath⟩
    · obtain ⟨c, hc, rfl⟩ := List.mem_map.1 hk
      exact ⟨c, List.mem_append_right _ (henrolls.subset c hc), .refl⟩

/-- An entry comes up in a run from the survey `o`: it is given to the run, or a function that
    came up before calls it and the survey goes on with calls. Either way its place was not
    visited yet when the run began, since the run passes over what was. -/
inductive ComesUp (o : Survey) (entries : List Address) : Address → Prop
  | given {a : Address} (ha : a ∈ entries) (hnew : a.linear ∉ o.visited.places) :
      ComesUp o entries a
  | onward {a b : Address} {r : Except AnalysisError AnalyzedFunction}
      (hb : ComesUp o entries b) (hanalyze : o.analyze b = some r) (ha : a ∈ o.onward r)
      (hnew : a.linear ∉ o.visited.places) : ComesUp o entries a

/-- What comes up in a run was not visited when the run began. -/
theorem ComesUp.unseen {entries : List Address} (h : ComesUp o entries a) :
    a.linear ∉ o.visited.places := by
  cases h with
  | given _ hnew => exact hnew
  | onward _ _ _ hnew => exact hnew

/-- What a run of `entries` has done since the survey was `o`: results were added at places
    that were not visited then, and `o` would have come to the same. What waits in the queue has
    come up in the run, so this also says where the run is when an analysis does not end. -/
structure Since (o : Survey) (entries : List Address) (s : Survey) (queue : List Address) :
    Prop where
  shares : Shares s o
  kept : ∀ {b : Address} {r}, o.Notes b r → s.Notes b r
  fresh : ∀ {b : Address} {r}, s.Notes b r →
    o.Notes b r ∨ b.linear ∉ o.visited.places ∧ o.analyze b = some r
  seen : ∀ {k : Nat}, k ∈ o.visited.places → k ∈ s.visited.places
  comesUp : ∀ b ∈ queue, o.ComesUp entries b

/-- One more result keeps that: it is at a place that came up, and the callees that are new come
    up behind it. -/
theorem Since.note {entries : List Address} (h : Since o entries s (a :: rest))
    (ht : Tracks given s (a :: rest)) (hanalyze : s.analyze a = some result) :
    Since o entries (s.note a result).1 (rest ++ (s.note a result).2) := by
  have henrolls := enrolls_note s a result
  have hnotes {b : Address} {r : Except AnalysisError AnalyzedFunction} :
      (s.note a result).1.Notes b r ↔ s.Notes b r ∨ b = a ∧ r = result :=
    notes_note_iff ht.new hanalyze
  have ha := h.comesUp a List.mem_cons_self
  have hresult : o.analyze a = some result := by rw [← h.shares.analyze, hanalyze]
  refine ⟨(shares_note s a result).trans h.shares, fun hb => hnotes.2 (.inl (h.kept hb)), ?_,
    fun hk => henrolls.mem.2 (.inl (h.seen hk)), ?_⟩
  · intro b r hb
    rcases hnotes.1 hb with hb | ⟨rfl, rfl⟩
    · exact h.fresh hb
    · exact .inr ⟨ha.unseen, hresult⟩
  · intro b hb
    rcases List.mem_append.1 hb with hb | hb
    · exact h.comesUp b (List.mem_cons_of_mem a hb)
    · refine ha.onward hresult ?_ fun hk => henrolls.unseen b hb (h.seen hk)
      rw [← h.shares.onward]
      exact henrolls.subset b hb

/-- What is enrolled at the start of a run has come up: it was given to it, and is new. -/
theorem since_enroll (s : Survey) (entries : List Address) :
    Since s entries { s with visited := (enroll s.visited entries).2 }
      (enroll s.visited entries).1 := by
  have henrolls := enroll_spec s.visited entries
  exact ⟨⟨rfl, rfl, rfl, rfl⟩, id, .inl, fun hk => henrolls.mem.2 (.inl hk),
    fun b hb => .given (henrolls.subset b hb) (henrolls.unseen b hb)⟩

/-- **What a run does**: it keeps track, and adds results at new places only. It goes on for
    ever only if the analysis of an entry does that was given to it or that it came to by calls. -/
theorem run_spec (h : Tracks given s []) (entries : List Address) :
    (∃ s', s.run entries = some s' ∧ Tracks (given ++ entries) s' [] ∧ Since s entries s' [] ∧
      s'.failures.Pairwise (·.linear < ·.linear)) ∨
    s.run entries = none ∧ ∃ b, s.ComesUp entries b ∧ s.analyze b = none := by
  rw [run_eq_drain]
  rcases drain_induction
    (P := fun t queue => Tracks (given ++ entries) t queue ∧ Since s entries t queue)
    (fun ht hanalyze => ⟨ht.1.note hanalyze, ht.2.note ht.1 hanalyze⟩)
    ⟨h.enroll entries, since_enroll s entries⟩
    with ⟨t, ht, htracks, hdone⟩ | ⟨hnone, t, b, rest, ⟨-, hdone⟩, hb⟩
  · refine .inl ⟨t.sortFailures, by rw [ht]; rfl, htracks.sortFailures, ?_, htracks.increasing⟩
    exact ⟨(shares_sortFailures t).trans hdone.shares,
      fun hb => notes_sortFailures_iff.2 (hdone.kept hb),
      fun hb => hdone.fresh (notes_sortFailures_iff.1 hb), hdone.seen, hdone.comesUp⟩
  · -- The entry at the head of the queue is the one that is not done with.
    refine .inr ⟨by rw [hnone]; rfl, b, hdone.comesUp b List.mem_cons_self, ?_⟩
    rw [← hdone.shares.analyze, hb]

end Survey

end RealMode
