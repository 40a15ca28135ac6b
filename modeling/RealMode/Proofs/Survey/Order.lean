import RealMode.Proofs.Survey.Discovery

namespace RealMode

/-!
# The order of runs does not matter

Two lists of runs that give the same entries come to the same survey, if no place goes by
two addresses: then the entries that come up are a set that is closed under calls, whichever
comes first.

* `Survey.ClosedUnderCalls` — a set of entries whose analyses end and lead to entries of the
  set only;
* `Survey.Stays` — a survey that has not left such a set, `Survey.Stays.performAll` — runs from
  entries of the set do not leave it;
* `Survey.Ran` — what runs alone do to a blank survey;
* `discovery_order_irrelevant` — two surveys that are given the same come to the same.
-/

namespace Survey

variable {s t o : Survey} {given : List Address} {S : Address → Prop}

/-! ### Sets of entries that are never left -/

/-- The analyses of a set of entries end, and lead to entries of the set only. -/
def ClosedUnderCalls (o : Survey) (S : Address → Prop) : Prop :=
  ∀ {a : Address}, S a → ∃ r, o.analyze a = some r ∧ ∀ c ∈ o.onward r, S c

/-- A survey that analyzes as `o` does has not left a set of entries. -/
structure Stays (o : Survey) (S : Address → Prop) (given : List Address) (t : Survey)
    (queue : List Address) : Prop where
  tracks : Tracks given t queue
  shares : Shares t o
  notes : ∀ {a : Address} {r}, t.Notes a r → S a ∧ o.analyze a = some r
  queue : ∀ a ∈ queue, S a

/-- One more result stays in the set: the entry was in it, and so are the callees that its function
    has. -/
theorem Stays.note (hS : o.ClosedUnderCalls S) {a : Address} {rest : List Address}
    {result : Except AnalysisError AnalyzedFunction} (h : Stays o S given t (a :: rest))
    (hanalyze : t.analyze a = some result) :
    Stays o S given (t.note a result).1 (rest ++ (t.note a result).2) := by
  have ha := h.queue a List.mem_cons_self
  have hresult : o.analyze a = some result := by rw [← h.shares.analyze, hanalyze]
  obtain ⟨r, hr, honward⟩ := hS ha
  obtain rfl : r = result := Option.some.inj (hr.symm.trans hresult)
  refine ⟨h.tracks.note hanalyze, (shares_note t a r).trans h.shares, ?_, ?_⟩
  · intro b r' hb
    rcases (notes_note_iff h.tracks.new hanalyze).1 hb with hb | ⟨rfl, rfl⟩
    · exact h.notes hb
    · exact ⟨ha, hr⟩
  · intro b hb
    rcases List.mem_append.1 hb with hb | hb
    · exact h.queue b (List.mem_cons_of_mem a hb)
    · have hcallee := (enrolls_note t a r).subset b hb
      rw [h.shares.onward] at hcallee
      exact honward b hcallee

/-- A run from entries of the set ends, and does not leave it. -/
theorem Stays.run (hS : o.ClosedUnderCalls S) (h : Stays o S given t [])
    {entries : List Address} (hentries : ∀ a ∈ entries, S a) :
    ∃ t', t.run entries = some t' ∧ Stays o S (given ++ entries) t' [] := by
  have hstart : Stays o S (given ++ entries)
      { t with visited := (enroll t.visited entries).2 } (enroll t.visited entries).1 :=
    ⟨h.tracks.enroll entries,
      ⟨h.shares.image, h.shares.options, h.shares.templates, h.shares.followCalls⟩, h.notes,
      fun a ha => hentries a ((enroll_spec t.visited entries).subset a ha)⟩
  rw [run_eq_drain]
  rcases drain_induction (fun ht hanalyze => ht.note hS hanalyze) hstart with
    ⟨t', ht', hstays⟩ | ⟨-, t', a, rest, hstays, hnone⟩
  · refine ⟨t'.sortFailures, by rw [ht']; rfl, hstays.tracks.sortFailures,
      (shares_sortFailures t').trans hstays.shares, ?_, hstays.queue⟩
    exact fun hb => hstays.notes (notes_sortFailures_iff.1 hb)
  · -- The analysis of every entry of the set ends.
    obtain ⟨r, hr, -⟩ := hS (hstays.queue a List.mem_cons_self)
    rw [hstays.shares.analyze, hr] at hnone
    cases hnone

theorem performAll_cons (s : Survey) (c : Command) (cs : List Command) :
    s.performAll (c :: cs) = (s.perform c).bind fun t => t.performAll cs := by
  rw [performAll, List.foldlM_cons]
  rfl

/-- **Runs from entries of the set end, and do not leave it.** -/
theorem Stays.performAll (hS : o.ClosedUnderCalls S) (h : Stays o S given t [])
    {runs : List (List Address)} (hruns : ∀ a ∈ runs.flatten, S a) :
    ∃ t', t.performAll (runs.map .run) = some t' ∧ Stays o S (given ++ runs.flatten) t' [] := by
  induction runs generalizing t given with
  | nil => exact ⟨t, rfl, by simpa using h⟩
  | cons entries runs ih =>
    obtain ⟨t₁, ht₁, hstays⟩ := h.run hS fun a ha => hruns a (List.mem_append_left _ ha)
    obtain ⟨t₂, ht₂, hstays⟩ := ih hstays fun a ha => hruns a (List.mem_append_right entries ha)
    refine ⟨t₂, ?_, ?_⟩
    · rw [List.map_cons, performAll_cons, show t.perform (.run entries) = some t₁ from ht₁]
      exact ht₂
    · rw [List.flatten_cons, ← List.append_assoc]
      exact hstays

theorem stays_blank (image : Image) (options : Options) (templates : List SwitchTemplate)
    (followCalls : Bool) (S : Address → Prop) :
    Stays (blank image options templates followCalls) S []
      (blank image options templates followCalls) [] :=
  ⟨tracks_blank .., ⟨rfl, rfl, rfl, rfl⟩,
    fun {a r} hr => absurd hr (not_notes_blank _ _ _ _ a r), by simp⟩

/-- The addresses that a function calls, as far as it can be disassembled. -/
def calleesAt (s : Survey) (a : Address) : List Address :=
  match (s.routine a).disassemble with
  | .ok d => d.callees
  | .error _ => []

/-- A finite set of entries is closed under calls if their disassemblies call no other. -/
theorem closedUnderCalls_of_calleesAt (hsize : s.image.memory.size ≤ segmentSize)
    {as : List Address} (h : ∀ a ∈ as, ∀ c ∈ s.calleesAt a, c ∈ as) :
    s.ClosedUnderCalls (· ∈ as) := by
  intro a ha
  obtain ⟨r, hr⟩ := Option.ne_none_iff_exists'.1 (analyze_of_size_le hsize a)
  refine ⟨r, hr, fun c hc => ?_⟩
  cases r with
  | error e => exact absurd hc List.not_mem_nil
  | ok f =>
    have hcallees : s.calleesAt a = f.disassembly.callees := by
      rw [calleesAt, disassembly_of_analyze hr]
    rw [onward] at hc
    split at hc
    · exact h a ha c (hcallees ▸ hc)
    · exact absurd hc List.not_mem_nil

/-! ### What runs come to -/

/-- What runs alone do to a blank survey. -/
structure Ran (start : Survey) (runs : List (List Address)) (s : Survey) : Prop where
  tracks : Tracks runs.flatten s []
  shares : Shares s start
  increasing : s.failures.Pairwise (·.linear < ·.linear)
  results : ∀ {a : Address} {r}, s.Notes a r → start.analyze a = some r

/-- Runs that end are recorded, and without new templates all results are those of the survey at the
    start. -/
theorem ran_of_performAll {image : Image} {options : Options} {templates : List SwitchTemplate}
    {followCalls : Bool} {runs : List (List Address)}
    (h : (blank image options templates followCalls).performAll (runs.map .run) = some s) :
    Ran (blank image options templates followCalls) runs s := by
  induction runs using List.reverseRecOn generalizing s with
  | nil =>
    cases h
    exact ⟨tracks_blank .., ⟨rfl, rfl, rfl, rfl⟩, .nil,
      fun {a r} hr => absurd hr (not_notes_blank _ _ _ _ a r)⟩
  | append_singleton runs entries ih =>
    rw [List.map_append] at h
    obtain ⟨s₁, hs₁, hrun⟩ := performAll_concat_eq_some h
    have hran := ih hs₁
    change s₁.run entries = some s at hrun
    rcases run_spec hran.tracks entries with ⟨s', hrun', htracks, hsince, hincreasing⟩ | ⟨hnone, -⟩
    · rw [hrun] at hrun'
      cases hrun'
      refine ⟨by simpa using htracks, hsince.shares.trans hran.shares, hincreasing, ?_⟩
      intro a r hr
      -- Without new templates the survey analyzes as it did at the start.
      rcases hsince.fresh hr with hr | ⟨-, hr⟩
      · exact hran.results hr
      · rw [← hr, hran.shares.analyze]
    · rw [hrun] at hnone
      cases hnone

/-- If no place goes by two addresses, a survey has the results of all it names. -/
theorem Ran.notes_of_named {start : Survey} {runs : List (List Address)} (h : Ran start runs s)
    (hplaces : ∀ {a b : Address}, s.Named runs.flatten a → s.Named runs.flatten b →
      a.linear = b.linear → a = b) {a : Address} (ha : s.Named runs.flatten a) :
    ∃ r, s.Notes a r := by
  have hvisited : a.linear ∈ s.visited.places := by
    rcases ha with ha | ⟨b, r, hb, hc⟩
    · exact h.tracks.enrolled a ha
    · exact h.tracks.onward hb a hc
  rcases h.tracks.visited.1 hvisited with ⟨b, r, hb, hplace⟩ | hqueue
  · obtain rfl := hplaces (h.tracks.origin (.inl ⟨r, hb⟩)) ha hplace
    exact ⟨r, hb⟩
  · exact absurd hqueue List.not_mem_nil

/-- A survey names a set of entries that is closed under calls, for what its functions call is named
    as well. -/
theorem Ran.closedUnderCalls {start : Survey} {runs : List (List Address)} (h : Ran start runs s)
    (hplaces : ∀ {a b : Address}, s.Named runs.flatten a → s.Named runs.flatten b →
      a.linear = b.linear → a = b) : start.ClosedUnderCalls (s.Named runs.flatten) := by
  intro a ha
  obtain ⟨r, hr⟩ := h.notes_of_named hplaces ha
  refine ⟨r, h.results hr, fun c hc => .inr ⟨a, r, hr, ?_⟩⟩
  rwa [h.shares.onward]

/-- A survey that does not leave what another one names comes to no other results, since the other
    has a result for all it names. -/
theorem Ran.notes_of_stays {start : Survey} {runs : List (List Address)} (h : Ran start runs s)
    (hplaces : ∀ {a b : Address}, s.Named runs.flatten a → s.Named runs.flatten b →
      a.linear = b.linear → a = b) {given : List Address}
    (ht : Stays start (s.Named runs.flatten) given t []) {a : Address}
    {r : Except AnalysisError AnalyzedFunction} (hr : t.Notes a r) : s.Notes a r := by
  obtain ⟨hnamed, hanalyze⟩ := ht.notes hr
  obtain ⟨r', hr'⟩ := h.notes_of_named hplaces hnamed
  obtain rfl : r = r' := Option.some.inj (hanalyze.symm.trans (h.results hr'))
  exact hr'

/-- Two surveys with the same results have the same functions, place by place. -/
theorem functions_eq_of_notes {given given' : List Address} (hs : Tracks given s [])
    (ht : Tracks given' t []) (h : ∀ {a : Address} {r}, s.Notes a r ↔ t.Notes a r) :
    s.functions = t.functions := by
  refine Std.ExtTreeMap.ext_getElem? fun k => Option.ext fun f => ?_
  constructor
  · intro hf
    have hnotes := h.1 (hs.notes_of_function hf)
    rw [← hs.entry hf]
    exact hnotes.1
  · intro hf
    have hnotes := h.2 (ht.notes_of_function hf)
    rw [← ht.entry hf]
    exact hnotes.1

/-- Two surveys with the same results have the same failures, in the same order. -/
theorem failures_eq_of_notes (hs : s.failures.Pairwise (·.linear < ·.linear))
    (ht : t.failures.Pairwise (·.linear < ·.linear))
    (h : ∀ {a : Address} {r}, s.Notes a r ↔ t.Notes a r) : s.failures = t.failures := by
  have hnodup {l : List Failure} (hl : l.Pairwise (·.linear < ·.linear)) : l.Nodup := by
    refine hl.imp ?_
    rintro x y hlt rfl
    exact Nat.lt_irrefl _ hlt
  have hmem (x : Failure) : x ∈ s.failures ↔ x ∈ t.failures :=
    h (a := x.entry) (r := .error x.error)
  refine List.Perm.eq_of_pairwise ?_ hs ht
    ((List.perm_ext_iff_of_nodup (hnodup hs) (hnodup ht)).2 hmem)
  intro x y _ _ hxy hyx
  exact absurd hyx (Nat.lt_asymm hxy)

/-- The address is that of a function which an analyzed function calls. -/
def Called (s : Survey) (a : Address) : Prop :=
  ∃ (k : Nat) (f : AnalyzedFunction), s.functions[k]? = some f ∧ a ∈ f.disassembly.callees

/-- What a survey names is given or called. -/
theorem Named.given_or_called {given : List Address} {a : Address} (h : s.Named given a) :
    a ∈ given ∨ s.Called a := by
  rcases h with h | ⟨b, r, hb, ha⟩
  · exact .inl h
  · cases r with
    | error e => exact absurd ha List.not_mem_nil
    | ok f =>
      refine .inr ⟨b.linear, f, hb.1, ?_⟩
      rw [onward] at ha
      split at ha
      · exact ha
      · exact absurd ha List.not_mem_nil

end Survey

/-- **The order of runs does not matter.** Take two lists of runs that give the same entries, in
    any order, with any repetitions, split over any number of runs. If the first one ends and
    no two addresses of those that are given or called there are of one place, then the second
    one ends too, with the same functions and the same failures. -/
theorem discovery_order_irrelevant {image : Image} {options : Options}
    {templates : List SwitchTemplate} {followCalls : Bool} {runs runs' : List (List Address)}
    {s : Survey}
    (hs : (Survey.blank image options templates followCalls).performAll (runs.map .run) = some s)
    (hsame : ∀ a, a ∈ runs.flatten ↔ a ∈ runs'.flatten)
    (hplaces : ∀ a b, a ∈ runs.flatten ∨ s.Called a → b ∈ runs.flatten ∨ s.Called b →
      a.linear = b.linear → a = b) :
    ∃ s', (Survey.blank image options templates followCalls).performAll (runs'.map .run) = some s' ∧
      s'.functions = s.functions ∧ s'.failures = s.failures := by
  have hran := Survey.ran_of_performAll hs
  have hinj {a b : Address} (ha : s.Named runs.flatten a) (hb : s.Named runs.flatten b)
      (hab : a.linear = b.linear) : a = b := hplaces a b ha.given_or_called hb.given_or_called hab
  obtain ⟨s', hs', hstays⟩ := (Survey.stays_blank image options templates followCalls _).performAll
    (hran.closedUnderCalls hinj) fun a ha => .inl ((hsame a).2 ha)
  have hran' := Survey.ran_of_performAll hs'
  have hforth {a : Address} {r : Except AnalysisError AnalyzedFunction} (hr : s'.Notes a r) :
      s.Notes a r := hran.notes_of_stays hinj hstays hr
  -- What the second survey names, the first one names too.
  have hnamed {a : Address} (ha : s'.Named runs'.flatten a) : s.Named runs.flatten a := by
    rcases ha with ha | ⟨b, r, hb, ha⟩
    · exact .inl ((hsame a).2 ha)
    · refine .inr ⟨b, r, hforth hb, ?_⟩
      rwa [hran.shares.onward, ← hran'.shares.onward]
  have hinj' {a b : Address} (ha : s'.Named runs'.flatten a) (hb : s'.Named runs'.flatten b)
      (hab : a.linear = b.linear) : a = b := hinj (hnamed ha) (hnamed hb) hab
  -- So the first one comes to no other results than the second either.
  obtain ⟨s₁, hs₁, hstays'⟩ := (Survey.stays_blank image options templates followCalls _).performAll
    (hran'.closedUnderCalls hinj') fun a ha => .inl ((hsame a).1 ha)
  rw [hs] at hs₁
  cases hs₁
  have hnotes {a : Address} {r : Except AnalysisError AnalyzedFunction} :
      s'.Notes a r ↔ s.Notes a r := ⟨hforth, hran'.notes_of_stays hinj' hstays'⟩
  exact ⟨s', hs', Survey.functions_eq_of_notes hran'.tracks hran.tracks hnotes,
    Survey.failures_eq_of_notes hran'.increasing hran.increasing hnotes⟩

/-- Some runs over two functions that call each other, and a third that fails. -/
def duetRuns : List (List Address) := [[⟨0, 0x100⟩], [⟨0, 0x10B⟩, ⟨0, 0x100⟩]]

/-- The same entries in another order, one of them twice. -/
def duetRuns' : List (List Address) := [[⟨0, 0x10B⟩, ⟨0, 0x10B⟩], [], [⟨0, 0x100⟩]]

/-- The two lists of runs over the duet come to the same, and both end. -/
theorem discovery_order_irrelevant_duet :
    ∃ s s', (Survey.blank duet {} SwitchTemplate.standard true).performAll (duetRuns.map .run) =
        some s ∧
      (Survey.blank duet {} SwitchTemplate.standard true).performAll (duetRuns'.map .run) =
        some s' ∧
      s'.functions = s.functions ∧ s'.failures = s.failures := by
  -- The functions of the program call each other and nothing else.
  have hclosed : (Survey.blank duet {} SwitchTemplate.standard true).ClosedUnderCalls
      (· ∈ [⟨0, 0x100⟩, ⟨0, 0x107⟩, ⟨0, 0x10B⟩]) :=
    Survey.closedUnderCalls_of_calleesAt (by decide) (by decide +kernel)
  have hgiven : ∀ a ∈ duetRuns.flatten,
      a ∈ ([⟨0, 0x100⟩, ⟨0, 0x107⟩, ⟨0, 0x10B⟩] : List Address) := by decide
  obtain ⟨s, hs, hstays⟩ :=
    (Survey.stays_blank duet {} SwitchTemplate.standard true _).performAll hclosed hgiven
  have hnamed (a : Address) (ha : a ∈ duetRuns.flatten ∨ s.Called a) :
      a ∈ ([⟨0, 0x100⟩, ⟨0, 0x107⟩, ⟨0, 0x10B⟩] : List Address) := by
    rcases ha with ha | ⟨k, f, hf, ha⟩
    · exact hgiven a ha
    · obtain ⟨hentry, hanalyze⟩ := hstays.notes (hstays.tracks.notes_of_function hf)
      obtain ⟨r, hr, honward⟩ := hclosed hentry
      obtain rfl := Option.some.inj (hanalyze.symm.trans hr)
      exact honward a ha
  have hplaces : ∀ a ∈ ([⟨0, 0x100⟩, ⟨0, 0x107⟩, ⟨0, 0x10B⟩] : List Address),
      ∀ b ∈ ([⟨0, 0x100⟩, ⟨0, 0x107⟩, ⟨0, 0x10B⟩] : List Address),
        a.linear = b.linear → a = b := by decide
  have hsame (a : Address) : a ∈ duetRuns.flatten ↔ a ∈ duetRuns'.flatten := by
    simp only [duetRuns, duetRuns', List.flatten_cons, List.flatten_nil, List.mem_append,
      List.mem_cons, List.not_mem_nil]
    tauto
  obtain ⟨s', hs', hequal⟩ := discovery_order_irrelevant hs hsame
    fun a b ha hb => hplaces a (hnamed a ha) b (hnamed b hb)
  exact ⟨s, s', hs, hs', hequal⟩

end RealMode
