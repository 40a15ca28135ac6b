import RealMode.Proofs.FlowGraph.Termination
import RealMode.Proofs.Survey.Tracking

namespace RealMode

/-!
# What surveys discover

* `Survey.Command`, `Survey.performAll` — runs and new templates, one after another;
* `Survey.FirstVisit` — the survey at the start of the run that came to a place first;
* `Survey.Passes` — two surveys that differ at one place only, which the second passes over;
* `Survey.Explored` — what is true of a survey after any commands: it has the closure of the
  given entries under calls, each place with one result. `survey_is_call_closure` — that it is.
-/

namespace Survey

variable {s s' t : Survey} {given queue : List Address} {a : Address}

/-! ### Commands -/

/-- What can be done to a survey. -/
inductive Command where
  | run (entries : List Address)
  | addTemplate (t : SwitchTemplate)

/-- The entries that a command gives. -/
def Command.entries : Command → List Address
  | .run entries => entries
  | .addTemplate _ => []

/-- The survey after a command; nothing if a run does not end. -/
def perform (s : Survey) : Command → Option Survey
  | .run entries => s.run entries
  | .addTemplate t => some (s.addTemplate t)

/-- The survey after several commands. -/
def performAll (s : Survey) (cs : List Command) : Option Survey := cs.foldlM perform s

/-- A survey before any run. -/
def blank (image : Image) (options : Options) (templates : List SwitchTemplate)
    (followCalls : Bool) : Survey :=
  { image, options, templates, followCalls }

/-- The last command is performed on what the others come to. -/
theorem performAll_concat (s : Survey) (cs : List Command) (c : Command) :
    s.performAll (cs ++ [c]) = (s.performAll cs).bind fun t => t.perform c := by
  simp only [performAll, List.foldlM_append, List.foldlM_cons, List.foldlM_nil, bind_pure]
  rfl

/-- Commands that end are performed one after another. -/
theorem performAll_concat_eq_some {cs : List Command} {c : Command}
    (h : s.performAll (cs ++ [c]) = some t) :
    ∃ s', s.performAll cs = some s' ∧ s'.perform c = some t := by
  rw [performAll_concat] at h
  exact Option.bind_eq_some_iff.1 h

/-- The survey `s` is that at the start of the run that came to the place first. -/
def FirstVisit (start : Survey) (cs : List Command) (k : Nat) (s : Survey) : Prop :=
  ∃ before entries after s', cs = before ++ .run entries :: after ∧
    start.performAll before = some s ∧ s.run entries = some s' ∧
    k ∉ s.visited.places ∧ k ∈ s'.visited.places

/-- What came first stays first when more commands follow. -/
theorem FirstVisit.concat {start : Survey} {cs : List Command} {k : Nat}
    (h : FirstVisit start cs k s) (c : Command) : FirstVisit start (cs ++ [c]) k s := by
  obtain ⟨before, entries, after, s', rfl, hrest⟩ := h
  exact ⟨before, entries, after ++ [c], s', by simp, hrest⟩

/-- What is true after commands of a blank survey. -/
structure Recorded (start : Survey) (cs : List Command) (s : Survey) : Prop where
  tracks : Tracks (cs.flatMap Command.entries) s []
  increasing : s.failures.Pairwise (·.linear < ·.linear)
  followCalls : s.followCalls = start.followCalls
  image : s.image = start.image
  first : ∀ {a : Address} {r}, s.Notes a r →
    ∃ s₀, FirstVisit start cs a.linear s₀ ∧ s₀.analyze a = some r

section Blank

variable (image : Image) (options : Options) (templates : List SwitchTemplate)
  (followCalls : Bool)

theorem not_notes_blank (a : Address) (r : Except AnalysisError AnalyzedFunction) :
    ¬ (blank image options templates followCalls).Notes a r := by
  cases r with
  | ok f =>
    rintro ⟨hf, -⟩
    rw [blank, Std.ExtTreeMap.getElem?_empty] at hf
    cases hf
  | error e => exact List.not_mem_nil

/-- A blank survey is on track: nothing was given, and nothing is known. -/
theorem tracks_blank : Tracks [] (blank image options templates followCalls) [] := by
  have hnone : ∀ k, k ∉ (blank image options templates followCalls).visited.places :=
    fun k hk => Std.ExtTreeSet.not_mem_empty hk
  have hnot := not_notes_blank image options templates followCalls
  refine ⟨?_, ?_, ?_, List.nodup_nil, by simp, ?_, ?_, ?_⟩
  · intro k f hf
    rw [blank, Std.ExtTreeMap.getElem?_empty] at hf
    cases hf
  · intro k
    refine ⟨fun hk => absurd hk (hnone k), ?_⟩
    rintro (⟨a, r, hr, -⟩ | hk)
    · exact absurd hr (hnot a r)
    · exact absurd hk List.not_mem_nil
  · intro k f hf
    exact List.not_mem_nil
  · intro a r hr
    exact absurd hr (hnot a r)
  · rintro a (⟨r, hr⟩ | ha)
    · exact absurd hr (hnot a r)
    · exact absurd ha List.not_mem_nil
  · intro k hk
    exact absurd hk (hnone k)

end Blank

/-- A new template leaves track of what was done, for results that were noted before are not taken
    back. -/
theorem Tracks.addTemplate (h : Tracks given s []) (t : SwitchTemplate) :
    Tracks given (s.addTemplate t) [] :=
  ⟨h.entry, h.visited, h.apart, h.nodup, h.enrolled, h.onward, h.origin, h.reached⟩

/-- **Commands keep a record.** A command that does not end is a run in which an entry comes up
    whose analysis does not end. The induction takes commands off at the end, where they were
    performed last. -/
theorem recorded_of_performAll {start : Survey} (hstart : Recorded start [] start)
    (cs : List Command) :
    (∃ s, start.performAll cs = some s ∧ Recorded start cs s) ∨
    start.performAll cs = none ∧ ∃ before entries after s₀ a, cs = before ++ .run entries :: after ∧
      start.performAll before = some s₀ ∧ s₀.run entries = none ∧ s₀.ComesUp entries a ∧
      s₀.analyze a = none := by
  induction cs using List.reverseRecOn with
  | nil => exact .inl ⟨start, rfl, hstart⟩
  | append_singleton cs c ih =>
    rw [performAll_concat]
    rcases ih with ⟨s, hs, hrecorded⟩ | ⟨hnone, before, entries, after, s₀, a, rfl, hrest⟩
    · have hgiven : (cs ++ [c]).flatMap Command.entries =
          cs.flatMap Command.entries ++ c.entries := by simp
      cases c with
      | addTemplate t =>
        refine .inl ⟨s.addTemplate t, by rw [hs]; rfl, ?_, hrecorded.increasing,
          hrecorded.followCalls, hrecorded.image, ?_⟩
        · rw [hgiven]
          exact (List.append_nil _).symm ▸ hrecorded.tracks.addTemplate t
        · intro a r hr
          obtain ⟨s₀, hfirst, hanalyze⟩ := hrecorded.first hr
          exact ⟨s₀, hfirst.concat _, hanalyze⟩
      | run entries =>
        rcases run_spec hrecorded.tracks entries with
          ⟨s', hrun, htracks, hsince, hincreasing⟩ | ⟨hrun, a, hcomes, ha⟩
        · refine .inl ⟨s', by rw [hs]; exact hrun, hgiven ▸ htracks, hincreasing,
            hsince.shares.followCalls.trans hrecorded.followCalls,
            hsince.shares.image.trans hrecorded.image, ?_⟩
          intro a r hr
          -- A result is an old one, or this run came to its place first.
          rcases hsince.fresh hr with hr' | ⟨hunseen, hanalyze⟩
          · obtain ⟨s₀, hfirst, hanalyze⟩ := hrecorded.first hr'
            exact ⟨s₀, hfirst.concat _, hanalyze⟩
          · exact ⟨s, ⟨cs, entries, [], s', rfl, hs, hrun, hunseen,
              htracks.visited.2 (.inl ⟨a, r, hr, rfl⟩)⟩, hanalyze⟩
        · -- The run does not end, so this is the command to name.
          exact .inr ⟨by rw [hs]; exact hrun, cs, entries, [], s, a, rfl, hs, hrun, hcomes, ha⟩
    · -- An earlier one did not end, and was named before.
      exact .inr ⟨by rw [hnone]; rfl, before, entries, after ++ [c], s₀, a, by simp, hrest⟩

/-! ### Failures -/

/-- The second survey has passed over a place at which the first one has no function. -/
structure Passes (p : Nat) (s s' : Survey) : Prop where
  shares : Shares s' s
  functions : s'.functions = s.functions
  visited : ∀ {k : Nat}, k ∈ s'.visited.places ↔ k ∈ s.visited.places ∨ k = p
  failures : s'.failures = s.failures.filter (·.linear ≠ p)

/-- The survey with a place marked, so that it will be passed over. -/
def passOver (s : Survey) (a : Address) : Survey := { s with visited := s.visited.insert a }

/-- Of entries that are enrolled, only those at the place are missing, and all others are new in one
    survey exactly if they are in the other. -/
theorem enroll_passes {p : Nat} {v v' : Visited}
    (hv : ∀ {k : Nat}, k ∈ v'.places ↔ k ∈ v.places ∨ k = p) (as : List Address) :
    (enroll v' as).1 = (enroll v as).1.filter (·.linear ≠ p) ∧
      ∀ {k : Nat}, k ∈ (enroll v' as).2.places ↔ k ∈ (enroll v as).2.places ∨ k = p := by
  induction as generalizing v v' with
  | nil => exact ⟨rfl, hv⟩
  | cons a as ih =>
    have hcontains : v'.contains a = true ↔ v.contains a = true ∨ a.linear = p := by
      rw [Visited.contains_iff, Visited.contains_iff, hv]
    by_cases hseen : v.contains a = true
    · rw [enroll, enroll, if_pos hseen, if_pos (hcontains.2 (.inl hseen))]
      exact ih hv
    · by_cases hp : a.linear = p
      · -- The one enrolls the place and the other has it already.
        rw [enroll, enroll, if_neg hseen, if_pos (hcontains.2 (.inr hp))]
        have hv' {k : Nat} : k ∈ v'.places ↔ k ∈ (v.insert a).places ∨ k = p := by
          rw [hv, Visited.mem_insert, hp]
          constructor
          · rintro (hk | hk)
            · exact .inl (.inr hk)
            · exact .inr hk
          · rintro ((rfl | hk) | hk)
            · exact .inr rfl
            · exact .inl hk
            · exact .inr hk
        simpa [hp] using ih hv'
      · -- Both enroll it.
        have hseen' : ¬ v'.contains a = true := fun h => (hcontains.1 h).elim hseen hp
        rw [enroll, enroll, if_neg hseen, if_neg hseen']
        have hv' {k : Nat} : k ∈ (v'.insert a).places ↔ k ∈ (v.insert a).places ∨ k = p := by
          rw [Visited.mem_insert, Visited.mem_insert, hv, or_assoc]
        simpa [hp] using ih hv'

/-- A result at another place is noted in both surveys. -/
theorem Passes.note {p : Nat} (h : Passes p s s') (hp : a.linear ≠ p)
    (result : Except AnalysisError AnalyzedFunction) :
    Passes p (s.note a result).1 (s'.note a result).1 ∧
      (s'.note a result).2 = (s.note a result).2.filter (·.linear ≠ p) := by
  have hshares := (shares_note s' a result).trans (h.shares.trans (shares_note s a result).symm)
  cases result with
  | error e =>
    refine ⟨⟨hshares, h.functions, h.visited, ?_⟩, rfl⟩
    show s'.failures ++ [Failure.mk a e] = (s.failures ++ [Failure.mk a e]).filter _
    simp [h.failures, Failure.linear, hp]
  | ok f =>
    have hfresh : (s'.freshCallees f).1 = (s.freshCallees f).1.filter (·.linear ≠ p) ∧
        ∀ {k : Nat}, k ∈ (s'.freshCallees f).2.places ↔
          k ∈ (s.freshCallees f).2.places ∨ k = p := by
      unfold freshCallees
      rw [h.shares.followCalls]
      split
      · exact enroll_passes h.visited _
      · exact ⟨rfl, h.visited⟩
    refine ⟨⟨hshares, ?_, hfresh.2, h.failures⟩, hfresh.1⟩
    show s'.functions.insert a.linear f = s.functions.insert a.linear f
    rw [h.functions]

/-- A failure at the place is noted in the first survey alone. -/
theorem Passes.note_error {p : Nat} (h : Passes p s s') (hp : a.linear = p) (e : AnalysisError) :
    Passes p (s.note a (.error e)).1 s' := by
  refine ⟨h.shares.trans (shares_note s a (.error e)).symm, h.functions, h.visited, ?_⟩
  show s'.failures = (s.failures ++ [Failure.mk a e]).filter _
  simp [h.failures, Failure.linear, hp]

/-- Functions stay where they are while a queue is drained. -/
theorem contains_of_drain {p : Nat} (h : s.drain queue = some t)
    (hp : s.functions.contains p = true) : t.functions.contains p = true := by
  refine of_drain (P := fun s _ => s.functions.contains p = true) ?_ hp h
  intro s a rest result hs _
  cases result with
  | error e => exact hs
  | ok f => exact (AddressMap.contains_insert ..).2 (.inl hs)

/-- A queue is drained alike in both surveys, but for the entries at the place. It has no function
    at the end, so each result there is a failure, which leads to no more entries. -/
theorem Passes.drain {p : Nat} (h : Passes p s s') (hdrain : s.drain queue = some t)
    (hp : t.functions.contains p = false) :
    ∃ t', s'.drain (queue.filter (·.linear ≠ p)) = some t' ∧ Passes p t t' := by
  fun_induction Survey.drain s queue generalizing s' with
  | case1 s =>
    cases hdrain
    exact ⟨s', drain_nil s', h⟩
  | case2 => cases hdrain
  | case3 s a rest result hanalyze ih =>
    by_cases ha : a.linear = p
    · -- The place has no function in the end, so this analysis failed.
      cases result with
      | ok f =>
        have hinsert : (s.note a (.ok f)).1.functions.contains p = true :=
          (AddressMap.contains_insert ..).2 (.inr ha.symm)
        rw [contains_of_drain hdrain hinsert] at hp
        cases hp
      | error e =>
        obtain ⟨t', ht', hpasses⟩ := ih (h.note_error ha e) hdrain
        refine ⟨t', ?_, hpasses⟩
        have hnil : (s.note a (.error e)).2 = [] := rfl
        rw [hnil, List.append_nil] at ht'
        rw [List.filter_cons_of_neg (by simpa using ha)]
        exact ht'
    · obtain ⟨hnote, hqueue⟩ := h.note ha result
      obtain ⟨t', ht', hpasses⟩ := ih hnote hdrain
      refine ⟨t', ?_, hpasses⟩
      rw [List.filter_cons_of_pos (by simpa using ha), drain_cons, h.shares.analyze, hanalyze,
        Option.bind_some, hqueue, ← List.filter_append]
      exact ht'

/-- Sorting and leaving out go together if the places differ, for then sorting has one outcome
    only. -/
theorem Passes.sortFailures {p : Nat} (h : Passes p s s')
    (hnodup : (s.failures.map Failure.linear).Nodup) : Passes p s.sortFailures s'.sortFailures := by
  refine ⟨(shares_sortFailures s').trans (h.shares.trans (shares_sortFailures s).symm),
    h.functions, h.visited, ?_⟩
  refine List.Perm.eq_of_pairwise ?_ (sorted_sortFailures s') ((sorted_sortFailures s).filter _) ?_
  · intro x y hx hy hxy hyx
    rw [(perm_sortFailures s').mem_iff, h.failures, List.mem_filter] at hx
    rw [List.mem_filter, (perm_sortFailures s).mem_iff] at hy
    exact List.inj_on_of_nodup_map hnodup hx.1 hy.1 (Nat.le_antisymm hxy hyx)
  · refine (perm_sortFailures s').trans ?_
    rw [h.failures]
    exact ((perm_sortFailures s).filter _).symm

/-- A run of the second survey ends as a run of the first does, but for the place. -/
theorem Passes.run {p : Nat} {entries : List Address} (h : Passes p s s')
    (ht : Tracks given s []) (hrun : s.run entries = some t)
    (hp : t.functions.contains p = false) : ∃ t', s'.run entries = some t' ∧ Passes p t t' := by
  rw [run_eq_drain, Option.map_eq_some_iff] at hrun
  obtain ⟨t₀, hdrain, rfl⟩ := hrun
  obtain ⟨hwave, hvisited⟩ := enroll_passes h.visited entries
  have hstart : Passes p { s with visited := (enroll s.visited entries).2 }
      { s' with visited := (enroll s'.visited entries).2 } :=
    ⟨⟨h.shares.image, h.shares.options, h.shares.templates, h.shares.followCalls⟩, h.functions,
      hvisited, h.failures⟩
  obtain ⟨t', ht', hpasses⟩ := hstart.drain hdrain hp
  have hnodup : (t₀.failures.map Failure.linear).Nodup := by
    have htracks := of_drain (fun h hanalyze => h.note hanalyze) (ht.enroll entries) hdrain
    simpa using htracks.nodup
  refine ⟨t'.sortFailures, ?_, hpasses.sortFailures hnodup⟩
  rw [run_eq_drain, hwave, ht']
  rfl

/-- A function that was there before a command is there behind it. -/
theorem contains_of_perform {c : Command} {p : Nat} (h : s.perform c = some t)
    (hp : s.functions.contains p = true) :
    t.functions.contains p = true := by
  cases c with
  | addTemplate t =>
    cases h
    exact hp
  | run entries =>
    change s.run entries = some t at h
    rw [run_eq_drain, Option.map_eq_some_iff] at h
    obtain ⟨t₀, hdrain, rfl⟩ := h
    show t₀.functions.contains p = true
    exact contains_of_drain hdrain hp

/-- **A place without a function makes no difference elsewhere**: commands come to the same if
    it is passed over from the start. -/
theorem Passes.performAll {start start' : Survey} {cs : List Command} {p : Nat}
    (h : Passes p start start') (hstart : Recorded start [] start)
    (hs : start.performAll cs = some s) (hp : s.functions.contains p = false) :
    ∃ s', start'.performAll cs = some s' ∧ Passes p s s' := by
  induction cs using List.reverseRecOn generalizing s with
  | nil =>
    cases hs
    exact ⟨start', rfl, h⟩
  | append_singleton cs c ih =>
    obtain ⟨s₁, hs₁, hc⟩ := performAll_concat_eq_some hs
    have ht : Tracks (cs.flatMap Command.entries) s₁ [] := by
      rcases recorded_of_performAll hstart cs with ⟨s₂, hs₂, hrecorded⟩ | ⟨hnone, -⟩
      · rw [hs₁] at hs₂
        cases hs₂
        exact hrecorded.tracks
      · rw [hs₁] at hnone
        cases hnone
    -- Functions are never lost, so the place had none before the last command either.
    have hp₁ : s₁.functions.contains p = false := by
      by_contra hcontains
      rw [Bool.not_eq_false] at hcontains
      rw [contains_of_perform hc hcontains] at hp
      cases hp
    obtain ⟨s₁', hs₁', hpasses⟩ := ih hs₁ hp₁
    rw [performAll_concat, hs₁', Option.bind_some]
    cases c with
    | addTemplate t =>
      cases hc
      refine ⟨_, rfl, ⟨⟨hpasses.shares.image, hpasses.shares.options, ?_,
        hpasses.shares.followCalls⟩, hpasses.functions, hpasses.visited, hpasses.failures⟩⟩
      show s₁'.templates ++ [t] = s₁.templates ++ [t]
      rw [hpasses.shares.templates]
    | run entries => exact hpasses.run ht hc hp

/-! ### What a survey has in the end -/

/-- The function at one place calls the one at another. -/
def Calls (s : Survey) (j k : Nat) : Prop :=
  ∃ f, s.functions[j]? = some f ∧ ∃ c ∈ f.disassembly.callees, c.linear = k

/-- What commands have made of a blank survey. -/
structure Explored (start : Survey) (cs : List Command) (s : Survey) : Prop where
  /-- A visited place has a function or a failure. -/
  visited : ∀ {k : Nat}, k ∈ s.visited.places ↔
    s.functions.contains k = true ∨ k ∈ s.failures.map Failure.linear
  /-- No place has both. -/
  disjoint : ∀ {k : Nat}, s.functions.contains k = true → k ∉ s.failures.map Failure.linear
  increasing : s.failures.Pairwise (·.linear < ·.linear)
  entry : ∀ {k : Nat} {f}, s.functions[k]? = some f → f.entry.linear = k
  /-- A result is that of the analysis in the run that came to the place first. -/
  function : ∀ {k : Nat} {f}, s.functions[k]? = some f →
    ∃ s₀, FirstVisit start cs k s₀ ∧ s₀.analyze f.entry = some (.ok f)
  failure : ∀ x ∈ s.failures,
    ∃ s₀, FirstVisit start cs x.linear s₀ ∧ s₀.analyze x.entry = some (.error x.error)
  /-- If calls are followed, the visited places are those that calls lead to from the given
      entries. -/
  closure : start.followCalls = true → ∀ {k : Nat}, k ∈ s.visited.places ↔
    ∃ a ∈ cs.flatMap Command.entries, Relation.ReflTransGen s.Calls a.linear k
  alone : start.followCalls = false → ∀ {k : Nat}, k ∈ s.visited.places ↔
    ∃ a ∈ cs.flatMap Command.entries, a.linear = k
  /-- A failure makes no difference elsewhere: all else is as if it were passed over. -/
  spared : ∀ x ∈ s.failures, ∃ s', (start.passOver x.entry).performAll cs = some s' ∧
    s'.functions = s.functions ∧ s'.visited = s.visited ∧
    s'.failures = s.failures.filter (·.linear ≠ x.linear)

/-- The visited places are those that the survey goes on to from the given entries, as nothing waits
    any more. -/
theorem Tracks.visited_iff (h : Tracks given s []) {k : Nat} : k ∈ s.visited.places ↔
    ∃ a ∈ given, Relation.ReflTransGen s.Leads a.linear k := by
  refine ⟨h.reached, ?_⟩
  rintro ⟨a, ha, hpath⟩
  induction hpath with
  | refl => exact h.enrolled a ha
  | tail _ hstep _ =>
    obtain ⟨b, r, hb, -, c, hc, rfl⟩ := hstep
    exact h.onward hb c hc

/-- A function that a survey has is the result it noted for that entry. -/
theorem Tracks.notes_of_function (h : Tracks given s queue) {k : Nat} {f : AnalyzedFunction}
    (hf : s.functions[k]? = some f) : s.Notes f.entry (.ok f) :=
  ⟨by rw [h.entry hf, hf], rfl⟩

/-- A survey that follows calls goes on to what its functions call. -/
theorem Tracks.leads_iff_calls (h : Tracks given s queue) (hfollow : s.followCalls = true)
    {j k : Nat} : s.Leads j k ↔ s.Calls j k := by
  constructor
  · rintro ⟨b, r, hb, rfl, c, hc, hk⟩
    cases r with
    | error e => exact absurd hc List.not_mem_nil
    | ok f =>
      rw [Survey.onward, if_pos hfollow] at hc
      exact ⟨f, hb.1, c, hc, hk⟩
  · rintro ⟨f, hf, c, hc, hk⟩
    exact ⟨f.entry, .ok f, h.notes_of_function hf, h.entry hf, c,
      by rw [Survey.onward, if_pos hfollow]; exact hc, hk⟩

/-- A survey that does not follow calls goes on to nothing. -/
theorem not_leads (hfollow : s.followCalls = false) {j k : Nat} : ¬ s.Leads j k := by
  rintro ⟨b, r, -, -, c, hc, -⟩
  cases r <;> simp [onward, hfollow] at hc

/-- Before any command, the record is empty. -/
theorem recorded_blank (image : Image) (options : Options) (templates : List SwitchTemplate)
    (followCalls : Bool) : Recorded (blank image options templates followCalls) []
      (blank image options templates followCalls) :=
  ⟨tracks_blank .., List.Pairwise.nil, rfl, rfl,
    fun {a r} hr => absurd hr (not_notes_blank _ _ _ _ a r)⟩

/-- A blank survey with a mark passes over the marked place and nothing else. -/
theorem passes_blank (image : Image) (options : Options) (templates : List SwitchTemplate)
    (followCalls : Bool) (a : Address) :
    Passes a.linear (blank image options templates followCalls)
      ((blank image options templates followCalls).passOver a) := by
  refine ⟨⟨rfl, rfl, rfl, rfl⟩, rfl, ?_, rfl⟩
  intro k
  show k ∈ (Visited.insert _ a).places ↔ _
  rw [Visited.mem_insert, or_comm, eq_comm]

/-- What was recorded of the commands makes the survey explored. The parts on calls are taken from
    the track, and the part on failures from the survey that passes over the place. -/
theorem Recorded.explored {image : Image} {options : Options} {templates : List SwitchTemplate}
    {followCalls : Bool} {cs : List Command}
    (h : Recorded (blank image options templates followCalls) cs s)
    (hs : (blank image options templates followCalls).performAll cs = some s) :
    Explored (blank image options templates followCalls) cs s := by
  have ht := h.tracks
  have hdisjoint {k : Nat} (hk : s.functions.contains k = true) :
      k ∉ s.failures.map Failure.linear := by
    obtain ⟨f, hf⟩ := (AddressMap.contains_iff_exists ..).1 hk
    simpa using ht.apart hf
  refine ⟨?_, hdisjoint, h.increasing, ht.entry, ?_, fun x hx => h.first (r := .error x.error) hx,
    ?_, ?_, ?_⟩
  · -- A visited place has a result, since nothing waits any more.
    intro k
    rw [ht.visited]
    constructor
    · rintro (⟨a, r, hr, rfl⟩ | hk)
      · cases r with
        | ok f => exact .inl ((AddressMap.contains_iff_exists ..).2 ⟨f, hr.1⟩)
        | error e => exact .inr (List.mem_map.2 ⟨⟨a, e⟩, hr, rfl⟩)
      · exact absurd hk List.not_mem_nil
    · rintro (hk | hk)
      · obtain ⟨f, hf⟩ := (AddressMap.contains_iff_exists ..).1 hk
        exact .inl ⟨f.entry, .ok f, ht.notes_of_function hf, ht.entry hf⟩
      · obtain ⟨x, hx, rfl⟩ := List.mem_map.1 hk
        exact .inl ⟨x.entry, .error x.error, hx, rfl⟩
  · intro k f hf
    obtain ⟨s₀, hfirst, hanalyze⟩ := h.first (ht.notes_of_function hf)
    exact ⟨s₀, ht.entry hf ▸ hfirst, hanalyze⟩
  · intro hcalls k
    -- Going on behind a result is calling, as calls are followed.
    have heq : s.Leads = s.Calls := by
      funext i j
      exact propext (ht.leads_iff_calls (h.followCalls.trans hcalls))
    rw [ht.visited_iff, heq]
  · intro hcalls k
    rw [ht.visited_iff]
    constructor
    · rintro ⟨a, ha, hpath⟩
      cases hpath with
      | refl => exact ⟨a, ha, rfl⟩
      | tail _ hstep => exact absurd hstep (not_leads (h.followCalls.trans hcalls))
    · rintro ⟨a, ha, rfl⟩
      exact ⟨a, ha, .refl⟩
  · intro x hx
    have hplace : x.linear ∈ s.failures.map Failure.linear := List.mem_map_of_mem hx
    have hnone : s.functions.contains x.linear = false := by
      by_contra hk
      exact hdisjoint (Bool.not_eq_false _ ▸ hk) hplace
    -- The failure is taken out by passing over its place from the start.
    obtain ⟨s', hs', hpasses⟩ :=
      (passes_blank image options templates followCalls x.entry).performAll
        (recorded_blank image options templates followCalls) hs hnone
    refine ⟨s', hs', hpasses.functions, ?_, hpasses.failures⟩
    -- The place itself is visited in both.
    refine Visited.ext_places fun k => ?_
    rw [hpasses.visited]
    refine ⟨fun hk => hk.elim id ?_, .inl⟩
    rintro rfl
    exact ht.visited.2 (.inl ⟨x.entry, .error x.error, hx, rfl⟩)

/-- The analysis of a function ends if the image is no larger than a segment, because its graph is
    finished. -/
theorem analyze_of_size_le (hsize : s.image.memory.size ≤ segmentSize) (a : Address) :
    s.analyze a ≠ none := by
  intro hnone
  unfold analyze at hnone
  cases hd : (s.routine a).disassemble with
  | error e =>
    rw [Routine.analyze_of_error hd] at hnone
    cases hnone
  | ok d =>
    obtain ⟨g, hg⟩ := FlowGraph.build_of_size_le hd hsize
    obtain ⟨g', ha⟩ := FlowGraph.annotate_of_build hd hg
    rw [Routine.analyze_of_annotate hd hg ha] at hnone
    cases hnone

/-- So do all commands, since nothing else in a run can go on for ever. -/
theorem performAll_of_size_le {image : Image} (hsize : image.memory.size ≤ segmentSize)
    (options : Options) (templates : List SwitchTemplate) (followCalls : Bool)
    (cs : List Command) :
    ∃ s, (blank image options templates followCalls).performAll cs = some s := by
  have hstart := recorded_blank image options templates followCalls
  rcases recorded_of_performAll hstart cs with
    ⟨s, hs, -⟩ | ⟨-, before, entries, after, s₀, a, -, hs₀, -, -, ha⟩
  · exact ⟨s, hs⟩
  · rcases recorded_of_performAll hstart before with ⟨s, hs, hrecorded⟩ | ⟨hnone, -⟩
    · rw [hs₀] at hs
      cases hs
      exact absurd ha (analyze_of_size_le (hrecorded.image ▸ hsize) a)
    · rw [hs₀] at hnone
      cases hnone

end Survey

/-- **A survey has exactly the closure of its entries under calls.** After any runs and new
    templates, each place that was come to has one result, that of its analysis when it was
    come to first. A run goes on for ever only if an entry comes up in it, given to the run or
    called from what the run has analyzed, whose analysis does. -/
theorem survey_is_call_closure (image : Image) (options : Options)
    (templates : List SwitchTemplate) (followCalls : Bool) (cs : List Survey.Command) :
    ((Survey.blank image options templates followCalls).performAll cs = none →
      ∃ before entries after s a, cs = before ++ .run entries :: after ∧
        (Survey.blank image options templates followCalls).performAll before = some s ∧
        s.run entries = none ∧ s.ComesUp entries a ∧ s.analyze a = none) ∧
    ∀ s, (Survey.blank image options templates followCalls).performAll cs = some s →
      Survey.Explored (Survey.blank image options templates followCalls) cs s := by
  rcases Survey.recorded_of_performAll
    (Survey.recorded_blank image options templates followCalls) cs with
    ⟨s, hs, hrecorded⟩ | ⟨hnone, hendless⟩
  · rw [hs]
    refine ⟨fun hnone => ?_, fun s' hs' => ?_⟩
    · cases hnone
    · cases hs'
      exact hrecorded.explored hs
  · rw [hnone]
    exact ⟨fun _ => hendless, fun s hs => by cases hs⟩

/-- Two functions that call each other; the first one also calls a third, whose only byte
    cannot be decoded. -/
def duet : Image := .ofBytes
  [0xE8, 0x04, 0x00, 0xE8, 0x05, 0x00, 0xC3, 0xE8, 0xF6, 0xFF, 0xC3, 0x66] ⟨0, 0x100⟩ ⟨0, 0x100⟩

/-- Two runs with a new template between them; the second run gives the second function by
    another address. -/
def duetTour : List Survey.Command :=
  [.run [⟨0, 0x100⟩], .addTemplate .biasedRange, .run [⟨0x10, 7⟩, ⟨0, 0x10B⟩]]

/-- The duet ends: its image is a few bytes long. -/
theorem survey_is_call_closure_duet :
    ∃ s, (Survey.blank duet {} SwitchTemplate.standard true).performAll duetTour = some s ∧
      Survey.Explored (Survey.blank duet {} SwitchTemplate.standard true) duetTour s := by
  have hsize : duet.memory.size ≤ segmentSize := by decide
  obtain ⟨s, hs⟩ := Survey.performAll_of_size_le hsize {} SwitchTemplate.standard true duetTour
  exact ⟨s, hs, (survey_is_call_closure ..).2 s hs⟩

end RealMode
