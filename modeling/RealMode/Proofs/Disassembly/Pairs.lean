import RealMode.Proofs.Disassembly.Encoded

namespace RealMode

/-!
# Disassemblies with and without fusion

* `Fusion.pairs` — the pairs of loads that fusion takes for one, `Disassembly.loadPairs` — those
  of a disassembly;
* `Routine.withFusion` — the same function with fusion or without it. The walk does not look at
  that choice (`Routine.walk_withFusion`), so one disassembly succeeds exactly if the other does
  (`Routine.isOk_withFusion`);
* `Disassembly.Refits` — one disassembly is another with its loads replaced by what fusion makes
  of them, and `Routine.refits_of_disassemble` — the two disassemblies of a function are such;
* `Routine.fusing_of_disassemble` — what is replaced are the pairs, and nothing else.
-/

/-! ### Pairs -/

namespace Fusion

/-- The pairs of loads that are fused, from left to right. -/
def pairs (labels : AddressSet) : List Instruction → List (Instruction × Instruction)
  | a :: b :: rest =>
    if (pair? labels a b).isSome then (a, b) :: pairs labels rest else pairs labels (b :: rest)
  | _ => []

variable {labels : AddressSet} {is : List Instruction} {f : Instruction → Instruction}

/-- Fusion is the rewriting of its pairs: it replaces the loads of each of them as `pair?` says,
    and keeps what is in none. -/
structure Fusing (labels : AddressSet) (is : List Instruction) (f : Instruction → Instruction) :
    Prop where
  kept : ∀ i ∈ is, f i = i ∨ ∃ p ∈ pairs labels is, i = p.1 ∨ i = p.2
  pair : ∀ p ∈ pairs labels is, p.1 ∈ is ∧ p.2 ∈ is ∧
    pair? labels p.1 p.2 = some (f p.1, f p.2)

/-- Whatever rewrites a list as fusion does is the rewriting of its pairs. -/
theorem fusing_of_map (h : fuse labels is = is.map f) : Fusing labels is f := by
  -- The pairs are taken out by the same recursion as fusion, which is the one to induct on.
  induction is using pairs.induct labels with
  | case1 a b rest hsome ih =>
    obtain ⟨⟨a', b'⟩, hab⟩ := Option.isSome_iff_exists.1 hsome
    rw [fuse_of_pair? hab] at h
    obtain ⟨rfl, rfl, hrest⟩ : a' = f a ∧ b' = f b ∧ fuse labels rest = rest.map f := by
      simpa using h
    have hpairs : pairs labels (a :: b :: rest) = (a, b) :: pairs labels rest := by
      rw [pairs, if_pos hsome]
    obtain ⟨hkept, hpair⟩ := ih hrest
    refine ⟨fun i hi => ?_, fun p hp => ?_⟩
    · simp only [List.mem_cons] at hi
      rcases hi with rfl | rfl | hi
      · exact .inr ⟨(i, b), by simp [hpairs], .inl rfl⟩
      · exact .inr ⟨(a, i), by simp [hpairs], .inr rfl⟩
      · refine (hkept i hi).imp_right fun ⟨p, hp, hmem⟩ => ⟨p, ?_, hmem⟩
        simp [hpairs, hp]
    · rw [hpairs, List.mem_cons] at hp
      rcases hp with rfl | hp
      · exact ⟨by simp, by simp, hab⟩
      · obtain ⟨hfirst, hsecond, hq⟩ := hpair p hp
        exact ⟨by simp [hfirst], by simp [hsecond], hq⟩
  | case2 a b rest hnone ih =>
    have hab : pair? labels a b = none := by simpa using hnone
    rw [fuse_of_unpaired (by simp [hab])] at h
    obtain ⟨ha, hrest⟩ : a = f a ∧ fuse labels (b :: rest) = (b :: rest).map f := by
      simpa using h
    have hpairs : pairs labels (a :: b :: rest) = pairs labels (b :: rest) := by
      rw [pairs, if_neg hnone]
    obtain ⟨hkept, hpair⟩ := ih hrest
    -- No pair begins here, so the pairs are those of the rest.
    rw [← hpairs] at hkept hpair
    refine ⟨fun i hi => ?_, fun p hp => ?_⟩
    · rcases List.mem_cons.1 hi with rfl | hi
      · exact .inl ha.symm
      · exact hkept i hi
    · obtain ⟨hfirst, hsecond, hq⟩ := hpair p hp
      exact ⟨List.mem_cons_of_mem a hfirst, List.mem_cons_of_mem a hsecond, hq⟩
  | case3 is hshort =>
    have hpairs : pairs labels is = [] := by
      rw [pairs]
      exact hshort
    have hfuse : fuse labels is = is := by
      rw [fuse, fuseCounting]
      exact hshort
    have hmap : is.map f = is.map id := by rw [← h, hfuse, List.map_id]
    exact ⟨fun i hi => .inl (List.map_inj_left.1 hmap i hi), by simp [hpairs]⟩

end Fusion

namespace Routine

/-- The same function with fusion or without it. -/
def withFusion (r : Routine) (fuses : Bool) : Routine :=
  { r with options := { r.options with fuseDwordLoads := fuses } }

/-- A walk takes the same steps with fusion and without it. -/
theorem run_withFusion (r : Routine) (fuses : Bool) (w : Walk) :
    w.run (r.withFusion fuses) = w.run r := by
  have hstep (w : Walk) : w.step? (r.withFusion fuses) = w.step? r := rfl
  fun_induction Walk.run r w with
  | case1 w h => exact Walk.run_of_done ((hstep w).trans h)
  | case2 w e h =>
    rw [Walk.run]
    split <;> simp_all
  | case3 w w' h ih => rw [Walk.run_of_step? ((hstep w).trans h), ih]

/-- A walk does not look at the choice, which concerns the listing alone. -/
theorem walk_withFusion (r : Routine) (fuses : Bool) : (r.withFusion fuses).walk = r.walk := by
  unfold walk
  rw [run_withFusion]
  rfl

/-- A function has a disassembly with fusion if it has one without, since the flow of a walk is
    checked before anything is fused. -/
theorem isOk_withFusion (r : Routine) (fuses : Bool) :
    (r.withFusion fuses).disassemble.isOk = r.disassemble.isOk := by
  unfold disassemble
  rw [walk_withFusion]
  cases hw : r.walk with
  | error e => rfl
  | ok w =>
    show (Except.mapError _ (w.finish (r.withFusion fuses))).isOk =
      (Except.mapError _ (w.finish r)).isOk
    unfold Walk.finish
    split <;> rfl

end Routine

/-! ### Replaced instructions -/

namespace Disassembly

/-- The pairs of loads that fusion would take for one. -/
def loadPairs (d : Disassembly) : List (Instruction × Instruction) :=
  Fusion.pairs d.labels d.encoded

/-- The instruction in the place of another one. -/
def inPlaceOf (d : Disassembly) (i : Instruction) : Instruction := (d.find? i.linear).getD i

/-- The second disassembly is the first with its instructions replaced by what fusion makes of
    them. -/
structure Refits (f : Instruction → Instruction) (d d' : Disassembly) : Prop where
  entry : d'.entry = d.entry
  labels : d'.labels = d.labels
  exits : d'.exits = d.exits
  unresolved : d'.unresolved = d.unresolved
  size : d'.size = d.size
  found : ∀ k, d'.find? k = (d.find? k).map f
  fused : ∀ {k : Nat} {i}, d.find? k = some i → Fusion.Fused i (f i)

end Disassembly

namespace Walk

variable {r : Routine} {w : Walk} {d d' : Disassembly}

/-- What is in the index of a disassembly is what can be found in it. -/
theorem contains_index_iff (hs : Sound r w) (h : w.finish r = .ok d) (k : Nat) :
    d.index.contains k = true ↔ ∃ i, d.find? k = some i := by
  obtain ⟨-, -, hinstructions, hindex, -⟩ := finish_cases h
  constructor
  · intro hk
    obtain ⟨pos, hpos⟩ := (AddressMap.contains_iff_exists _ _).1 hk
    rw [hindex] at hpos
    obtain ⟨i, hi, hlinear, hsynthetic⟩ := Disassembly.getElem?_of_indexOf hpos
    exact ⟨i, (find?_of_listing hs hinstructions hindex).2
      ⟨(mem_listing_iff hs).1 ⟨List.mem_of_getElem? hi, hsynthetic⟩, hlinear⟩⟩
  · rintro ⟨i, hi⟩
    exact (Disassembly.mem_of_find? hi).2.2.2

end Walk

namespace Routine

variable {r : Routine} {d d' : Disassembly}
  (hd : (r.withFusion false).disassemble = .ok d)
  (hd' : (r.withFusion true).disassemble = .ok d')
include hd hd'

/-- Both disassemblies of a function are made from the same walk, one with its loads fused and the
    other as it is. -/
theorem finish_withFusion :
    ∃ w, r.walk = .ok w ∧ w.finish (r.withFusion false) = .ok d ∧
      w.finish (r.withFusion true) = .ok d' := by
  obtain ⟨w, hwalk, hfinish⟩ := disassemble_cases hd
  obtain ⟨w', hwalk', hfinish'⟩ := disassemble_cases hd'
  rw [walk_withFusion] at hwalk hwalk'
  rw [hwalk] at hwalk'
  cases hwalk'
  exact ⟨w, hwalk, hfinish, hfinish'⟩

/-- The encoded instructions of one disassembly are those of the other with their loads fused, by
    the labels that both of them have. -/
theorem encoded_withFusion : d'.encoded = Fusion.fuse d.labels d.encoded := by
  obtain ⟨w, hwalk, hfinish, hfinish'⟩ := finish_withFusion hd hd'
  have hs (fuses : Bool) : Walk.Sound (r.withFusion fuses) w :=
    (Walk.sound_of_walk ((walk_withFusion r fuses).trans hwalk)).1
  obtain ⟨-, -, -, -, hlabels, -⟩ := Walk.finish_cases hfinish
  rw [Walk.encoded_of_finish (hs true) hfinish', Walk.encoded_of_finish (hs false) hfinish, hlabels]
  rfl

/-- Each instruction has one in its place that fusion makes of it, found under the same linear
    address. -/
theorem forall₂_encoded :
    List.Forall₂ (fun i i' => d'.inPlaceOf i = i' ∧ Fusion.Fused i i') d.encoded d'.encoded := by
  have hencoded := encoded_withFusion hd hd'
  have hfused := Fusion.forall₂_fuse d.labels d.encoded
  rw [← hencoded, List.forall₂_iff_zip] at hfused
  refine List.forall₂_iff_zip.2 ⟨hfused.1, fun {i i'} hzip => ?_⟩
  have hpair := hfused.2 hzip
  have hi' := (find?_iff_mem_encoded hd').2 ⟨(List.of_mem_zip hzip).2, hpair.linear⟩
  exact ⟨by rw [Disassembly.inPlaceOf, hi', Option.getD_some], hpair⟩

/-- So one list of encoded instructions is the other with each instruction replaced by what is in
    its place. -/
theorem encoded_eq_map : d'.encoded = d.encoded.map d'.inPlaceOf := by
  have hall := (forall₂_encoded hd hd').imp fun _ _ h => h.1
  rw [← List.forall₂_map_left_iff, List.forall₂_eq_eq_eq] at hall
  exact hall.symm

/-- **The instructions that differ are the loads that are fused**, and they differ by their fusion
    alone. -/
theorem fusing_of_disassemble : Fusion.Fusing d.labels d.encoded d'.inPlaceOf :=
  Fusion.fusing_of_map ((encoded_withFusion hd hd').symm.trans (encoded_eq_map hd hd'))

/-- **The two disassemblies of a function differ in what fusion makes of its loads.** Entry, labels,
    exits and records are the same. -/
theorem refits_of_disassemble : d.Refits d'.inPlaceOf d' := by
  -- Both disassemblies show the same walk.
  obtain ⟨w, hwalk, hfinish, hfinish'⟩ := finish_withFusion hd hd'
  have hw := Walk.finished_of_finish ((walk_withFusion r _).trans hwalk) hfinish
  have hw' := Walk.finished_of_finish ((walk_withFusion r _).trans hwalk) hfinish'
  have hfused {k : Nat} {i : Instruction} (hi : d.find? k = some i) :
      Fusion.Fused i (d'.inPlaceOf i) := by
    have hall := (forall₂_encoded hd hd').imp fun _ _ h => h.2
    rw [encoded_eq_map hd hd', List.forall₂_map_right_iff, List.forall₂_same] at hall
    exact hall i ((find?_iff_mem_encoded hd).1 hi).1
  -- A place has an instruction in one of them exactly if it has in the other.
  have hfound (k : Nat) : d'.find? k = (d.find? k).map d'.inPlaceOf := by
    ext i'
    rw [find?_iff_mem_encoded hd', encoded_eq_map hd hd', List.mem_map, Option.map_eq_some_iff]
    constructor
    · rintro ⟨⟨i, hi, rfl⟩, hlinear⟩
      have hi := (find?_iff_mem_encoded hd).2 ⟨hi, rfl⟩
      rw [(hfused hi).linear] at hlinear
      exact ⟨i, hlinear ▸ hi, rfl⟩
    · rintro ⟨i, hi, rfl⟩
      refine ⟨⟨i, ((find?_iff_mem_encoded hd).1 hi).1, rfl⟩, ?_⟩
      rw [(hfused hi).linear, Disassembly.linear_of_find? hi]
  have hindex (k : Nat) : d'.index.contains k = true ↔ d.index.contains k = true := by
    rw [Walk.contains_index_iff hw'.sound hfinish', Walk.contains_index_iff hw.sound hfinish,
      hfound]
    simp
  exact ⟨hw'.entry.trans hw.entry.symm, hw'.labels.trans hw.labels.symm,
    hw'.exits.trans hw.exits.symm, hw'.unresolved.trans hw.unresolved.symm,
    Nat.le_antisymm (AddressMap.size_le_of_contains fun k => (hindex k).1)
      (AddressMap.size_le_of_contains fun k => (hindex k).2), hfound, hfused⟩

end Routine

end RealMode
