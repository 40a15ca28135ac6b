import Mathlib.Data.List.Chain
import Mathlib.Data.List.Forall2
import Mathlib.Data.Option.Basic
import RealMode.Fusion
import RealMode.Instruction.Usage

namespace RealMode

/-!
# Fusing loads, one list at a time

A double load uses what its two loads use, so a list of instructions uses the same with its pairs
fused, and so does every part of it from the start that has both loads of a pair or none.

* `Fusion.pair?_cases` — what is known of two loads that are fused, and what they become;
* `Fusion.andThen_of_pair?` — two loads in turn use what the double load uses;
* `Fusion.fuse_induction` — lists by the way they are fused: an instruction is kept, or two loads
  are taken at once;
* `Fusion.isChain_fuse` — no two neighbours that could be fused are left;
* `Fusion.CreatedAt` — a double load stands in the second list where the first has none;
* `Fusion.Condenses` — the second list is the first with some pairs of loads in it fused;
* `Fusion.fuse_condenses` — fusion does that, leaves no pair behind, and so is done in one pass.
-/

/-! ### Pairs of loads -/

/-- The locals that an address in memory is formed of. -/
def MemoryOperand.locals (m : MemoryOperand) : LocalSet := m.mode.locals ∪ m.segment.locals

namespace Usage

@[simp] theorem union_empty (u : Usage) : u.union {} = u := by simp [union]

@[simp] theorem empty_union (u : Usage) : Usage.union {} u = u := by simp [union]

@[simp] theorem andThen_empty (u : Usage) : u.andThen {} = u := by simp [andThen]

end Usage

namespace Fusion

variable {labels : AddressSet} {is js : List Instruction} {a b a' b' : Instruction} {k n : Nat}

/-- A word load is a `mov` from memory to a register, with these two operands. -/
theorem wordLoad?_eq_some {i : Instruction} {r : Register} {m : MemoryOperand}
    (h : wordLoad? i = some (r, m)) :
    i.mnemonic = .mov ∧ i.operands = [.register r, .memory m] := by
  unfold wordLoad? at h
  split at h
  · rename_i r' m' hm ho
    split at h
    · cases h
      exact ⟨hm, ho⟩
    · cases h
  · cases h

theorem mov_of_wordLoad? {i : Instruction} {p : Register × MemoryOperand}
    (h : wordLoad? i = some p) : i.mnemonic = .mov :=
  (wordLoad?_eq_some h).1

/-- What is known of two loads that are fused, and what they become: both read the same place but
    for the offset of two, one stands right behind the other, and the second is no label. -/
theorem pair?_cases (h : pair? labels a b = some (a', b')) :
    ∃ lo hi m n, wordLoad? a = some (lo, m) ∧ wordLoad? b = some (hi, n) ∧ n = m.offset 2 .word ∧
      a.nextLinear = b.linear ∧ labels.contains b.linear = false ∧
      a' = { a.withOperation .words2dword
        [.register hi, .register lo, .memory (m.offset 0 .dword)] with width := .dword } ∧
      b' = b.neutralized := by
  unfold pair? at h
  obtain ⟨⟨lo, m⟩, ha, h⟩ := Option.bind_eq_some_iff.1 h
  obtain ⟨⟨hi, n⟩, hb, h⟩ := Option.bind_eq_some_iff.1 h
  -- What is left are the conditions on the pair, one after another.
  obtain ⟨-, -, h⟩ := Option.bind_eq_some_iff.1 h
  obtain ⟨⟨⟩, hnext, h⟩ := Option.bind_eq_some_iff.1 h
  obtain ⟨⟨⟩, hlabel, h⟩ := Option.bind_eq_some_iff.1 h
  cases h
  obtain ⟨hn, hnext⟩ := (Option.guard_eq_some' _).1 hnext
  obtain ⟨hlabel, -⟩ := (Option.guard_eq_some' _).1 hlabel
  exact ⟨lo, hi, m, n, ha, hb, hn, hnext, Bool.eq_false_iff.2 hlabel, rfl, rfl⟩

/-- Two loads, no one else, are taken for a pair. -/
theorem pair?_of_not_mov (h : a.mnemonic ≠ .mov ∨ b.mnemonic ≠ .mov) : pair? labels a b = none := by
  rw [Option.eq_none_iff_forall_ne_some]
  intro p hp
  obtain ⟨_, _, _, _, ha, hb, -⟩ := pair?_cases hp
  rcases h with h | h
  · exact h (mov_of_wordLoad? ha)
  · exact h (mov_of_wordLoad? hb)

/-- What comes out of a pair is no load any more, so it is in no pair of a second pass. -/
theorem not_mov_of_pair? (h : pair? labels a b = some (a', b')) :
    a'.mnemonic ≠ .mov ∧ b'.mnemonic ≠ .mov := by
  obtain ⟨_, _, _, _, -, -, -, -, -, rfl, rfl⟩ := pair?_cases h
  exact ⟨by simp [Instruction.withOperation],
    by simp [Instruction.neutralized, Instruction.withOperation]⟩

/-- The operations of loads, fused or not, use nothing but their operands. -/
theorem usage_eq_explicitUsage {i : Instruction}
    (hm : i.mnemonic = .mov ∨ i.mnemonic = .words2dword ∨ i.mnemonic = .nop)
    (hc : i.condition? = none) : i.usage = i.explicitUsage := by
  have hplain : i.mnemonic.isString = false ∧ i.mnemonic.profile.reads.locals = ∅ ∧
      i.mnemonic.flags.written.locals = ∅ := by
    rcases hm with hm | hm | hm <;> rw [hm] <;> decide
  obtain ⟨hstring, hreads, hwrites⟩ := hplain
  have himplied : i.impliedUsage = {} := by
    rcases hm with hm | hm | hm <;> simp [Instruction.impliedUsage, hm]
  have hflags : i.flagUsage = {} := by
    simp [Instruction.flagUsage, Instruction.flags, hc, hreads, hwrites]
  rw [Instruction.usage, Instruction.implicitUsage, himplied, Instruction.repetitionUsage, hstring,
    hflags]
  cases i.explicitUsage with
  | error e => rfl
  | ok u => simp [bind, Except.bind, pure, Except.pure]

/-- A load uses the registers of its address, and defines the register that it loads. -/
theorem usage_of_wordLoad? {i : Instruction} {r : Register} {m : MemoryOperand}
    (h : wordLoad? i = some (r, m)) : i.usage = .ok ⟨m.locals, r.locals⟩ := by
  obtain ⟨hm, ho⟩ := wordLoad?_eq_some h
  have hcondition : i.condition? = none := by
    rw [Instruction.condition?, ho]
    rfl
  have hroles : Mnemonic.mov.role? 0 2 = some .write ∧ Mnemonic.mov.role? 1 2 = some .read := by
    decide
  rw [usage_eq_explicitUsage (.inl hm) hcondition]
  simp [Instruction.explicitUsage, Instruction.operandUsage, hm, ho, hroles, Operand.usage?,
    Access.usage, Usage.union, Usage.reads, bind, Except.bind, pure, Except.pure,
    MemoryOperand.locals]

/-- A double load uses what the two loads use. -/
theorem usage_of_pair? (h : pair? labels a b = some (a', b')) :
    ∃ (m : MemoryOperand) (lo hi : Register), a.usage = .ok ⟨m.locals, lo.locals⟩ ∧
      b.usage = .ok ⟨m.locals, hi.locals⟩ ∧
      a'.usage = .ok ⟨m.locals, hi.locals ∪ lo.locals⟩ ∧ b'.usage = .ok {} := by
  obtain ⟨lo, hi, m, n, ha, hb, rfl, -, -, rfl, rfl⟩ := pair?_cases h
  refine ⟨m, lo, hi, usage_of_wordLoad? ha, (usage_of_wordLoad? hb :), ?_, ?_⟩
  · rw [usage_eq_explicitUsage (.inr (.inl rfl)) rfl]
    have hroles : Mnemonic.words2dword.role? 0 3 = some .write ∧
        Mnemonic.words2dword.role? 1 3 = some .write ∧
        Mnemonic.words2dword.role? 2 3 = some .read := by decide
    simp [Instruction.explicitUsage, Instruction.operandUsage, Instruction.withOperation, hroles,
      Operand.usage?, Access.usage, Usage.union, Usage.reads, bind, Except.bind, pure, Except.pure,
      MemoryOperand.locals, MemoryOperand.offset]
  · rw [usage_eq_explicitUsage (.inr (.inr rfl)) rfl]
    rfl

/-- **Two loads in turn use what the double load uses**, whatever was used before. -/
theorem andThen_of_pair? (h : pair? labels a b = some (a', b')) (acc : Usage) :
    ∃ ua ub ua', a.usage = .ok ua ∧ b.usage = .ok ub ∧ a'.usage = .ok ua' ∧ b'.usage = .ok {} ∧
      (acc.andThen ua).andThen ub = acc.andThen ua' := by
  obtain ⟨m, lo, hi, ha, hb, ha', hb'⟩ := usage_of_pair? h
  refine ⟨_, _, _, ha, hb, ha', hb', ?_⟩
  unfold Usage.andThen
  congr 1
  · -- What the second load reads, the first has read before.
    apply BitSet.ext_has
    intro l _
    simp only [BitSet.has_union, BitSet.has_sdiff]
    grind
  · apply BitSet.ext_has
    intro l _
    simp only [BitSet.has_union]
    grind

/-- Two loads in front of a list use what the double load in front of it uses. -/
theorem foldlM_of_pair? (h : pair? labels a b = some (a', b'))
    (hrest : ∀ acc : Usage, js.foldlM (fun acc i => do return acc.andThen (← i.usage)) acc =
      is.foldlM (fun acc i => do return acc.andThen (← i.usage)) acc) (acc : Usage) :
    (a' :: b' :: js).foldlM (fun acc i => do return acc.andThen (← i.usage)) acc =
      (a :: b :: is).foldlM (fun acc i => do return acc.andThen (← i.usage)) acc := by
  obtain ⟨ua, ub, ua', ha, hb, ha', hb', hsame⟩ := andThen_of_pair? h acc
  simp only [List.foldlM_cons, ha, hb, ha', hb', bind, Except.bind, pure, Except.pure,
    Usage.andThen_empty, hsame]
  exact hrest _

/-! ### From left to right -/

/-- A pair in front is taken, counted, and passed over as a whole. -/
theorem fuseCounting_of_pair? (h : pair? labels a b = some (a', b')) :
    fuseCounting labels (a :: b :: is) =
      (a' :: b' :: fuse labels is, fusedCount labels is + 1) := by
  simp only [fuseCounting, h, fuse, fusedCount]

/-- An instruction that forms no pair with the next is kept, and fusion goes on with the next. -/
theorem fuseCounting_of_unpaired (h : ∀ b ∈ is.head?, pair? labels a b = none) :
    fuseCounting labels (a :: is) = (a :: fuse labels is, fusedCount labels is) := by
  cases is with
  | nil => rfl
  | cons b is => simp only [fuseCounting, h b rfl, fuse, fusedCount]

theorem fuse_of_pair? (h : pair? labels a b = some (a', b')) :
    fuse labels (a :: b :: is) = a' :: b' :: fuse labels is :=
  congrArg Prod.fst (fuseCounting_of_pair? h)

theorem fuse_of_unpaired (h : ∀ b ∈ is.head?, pair? labels a b = none) :
    fuse labels (a :: is) = a :: fuse labels is :=
  congrArg Prod.fst (fuseCounting_of_unpaired h)

/-- Lists by the way they are fused: two instructions shorter behind a pair, else one shorter. The
    steps of plain induction on the list would end between two loads. -/
theorem fuse_induction {motive : List Instruction → Prop} (labels : AddressSet)
    (is : List Instruction) (nil : motive [])
    (pair : ∀ {a b a' b' is}, pair? labels a b = some (a', b') → motive is →
      motive (a :: b :: is))
    (kept : ∀ {a is}, (∀ b ∈ is.head?, pair? labels a b = none) → motive is →
      motive (a :: is)) : motive is := by
  induction is using fuseCounting.induct labels with
  | case1 a b is a' b' hpair _ _ _ ih => exact pair hpair ih
  | case2 a b is hnone _ _ _ ih =>
    refine kept (fun b' hb' => ?_) ih
    obtain rfl : b = b' := Option.some.inj hb'
    exact hnone
  | case3 is hshort =>
    match is with
    | [] => exact nil
    | [a] => exact kept (by simp) nil
    | a :: b :: is => exact absurd rfl (hshort a b is)

/-- Fusion works on a list place by place: what holds of the loads of a pair and what they become
    holds everywhere. -/
theorem forall₂_fuse_of {R : Instruction → Instruction → Prop} (refl : ∀ i, R i i)
    (pair : ∀ {a b a' b'}, pair? labels a b = some (a', b') → R a a' ∧ R b b')
    (is : List Instruction) : List.Forall₂ R is (fuse labels is) := by
  induction is using fuse_induction labels with
  | nil => exact .nil
  | pair hpair ih =>
    obtain ⟨ha, hb⟩ := pair hpair
    rw [fuse_of_pair? hpair]
    exact .cons ha (.cons hb ih)
  | kept hnone ih =>
    rw [fuse_of_unpaired hnone]
    exact .cons (refl _) ih

/-- A list that is fused begins as it began before, or with what is no load: its head either
    stayed, or came out of a pair. -/
theorem head?_fuse {x : Instruction} (hx : x ∈ (fuse labels is).head?) :
    x ∈ is.head? ∨ x.mnemonic ≠ .mov := by
  induction is using fuse_induction labels with
  | nil => exact .inl hx
  | pair hpair _ =>
    rw [fuse_of_pair? hpair, List.head?_cons, Option.mem_some_iff] at hx
    subst hx
    exact .inr (not_mov_of_pair? hpair).1
  | kept hnone _ =>
    rw [fuse_of_unpaired hnone] at hx
    exact .inl hx

/-- **No pair is left behind.** Of two neighbours in a list that is fused, the second is not one
    that the first could be fused with: what stayed was no pair before, and what came out of a
    pair is no load. -/
theorem isChain_fuse (labels : AddressSet) (is : List Instruction) :
    (fuse labels is).IsChain fun a b => pair? labels a b = none := by
  induction is using fuse_induction labels with
  | nil => exact .nil
  | pair hpair ih =>
    obtain ⟨hfirst, hsecond⟩ := not_mov_of_pair? hpair
    rw [fuse_of_pair? hpair, List.isChain_cons, List.isChain_cons]
    exact ⟨fun _ _ => pair?_of_not_mov (.inl hfirst),
      fun _ _ => pair?_of_not_mov (.inl hsecond), ih⟩
  | @kept a is hnone ih =>
    rw [fuse_of_unpaired hnone, List.isChain_cons]
    refine ⟨fun x hx => ?_, ih⟩
    rcases head?_fuse hx with hx | hx
    · exact hnone x hx
    · exact pair?_of_not_mov (.inr hx)

/-- A list without a pair in it stays as it is. -/
theorem fuseCounting_of_isChain (h : is.IsChain fun a b => pair? labels a b = none) :
    fuseCounting labels is = (is, 0) := by
  induction is with
  | nil => rfl
  | cons a is ih =>
    rw [List.isChain_cons] at h
    rw [fuseCounting_of_unpaired h.1, fuse, fusedCount, ih h.2]

/-- **A second pass finds nothing to fuse**, since the first has left no pair behind. -/
theorem fuseCounting_fuse (labels : AddressSet) (is : List Instruction) :
    fuseCounting labels (fuse labels is) = (fuse labels is, 0) :=
  fuseCounting_of_isChain (isChain_fuse labels is)

/-! ### Double loads that are created -/

/-- The second instruction is a double load, and the first is not. -/
def Created (p : Instruction × Instruction) : Prop :=
  p.1.mnemonic ≠ .words2dword ∧ p.2.mnemonic = .words2dword

instance : DecidablePred Created := fun p =>
  inferInstanceAs (Decidable (p.1.mnemonic ≠ .words2dword ∧ p.2.mnemonic = .words2dword))

/-- The second list has a double load at position `k` where the first has none. -/
def CreatedAt (is js : List Instruction) (k : Nat) : Prop :=
  ∃ p, (is.zip js)[k]? = some p ∧ Created p

@[simp] theorem not_createdAt_nil : ¬ CreatedAt [] js k := by simp [CreatedAt]

@[simp] theorem createdAt_zero :
    CreatedAt (a :: is) (a' :: js) 0 ↔ Created (a, a') := by
  simp [CreatedAt]

@[simp] theorem createdAt_succ :
    CreatedAt (a :: is) (a' :: js) (k + 1) ↔ CreatedAt is js k := by
  simp [CreatedAt]

theorem not_created_same : ¬ Created (a, a) := fun h => h.1 h.2

/-- Of a pair, the first instruction is created and the second is not, so a pair counts once. -/
theorem created_of_pair? (h : pair? labels a b = some (a', b')) :
    Created (a, a') ∧ ¬ Created (b, b') := by
  obtain ⟨_, _, _, _, ha, -, -, -, -, rfl, rfl⟩ := pair?_cases h
  refine ⟨⟨?_, rfl⟩, fun hb => ?_⟩
  · rw [mov_of_wordLoad? ha]
    decide
  · cases hb.2

/-- What is created, and what follows it, was a pair. By induction on the way the list is fused, so
    that the position is never between two loads. -/
theorem pair_of_createdAt (h : CreatedAt is (fuse labels is) k) :
    ∃ a b a' b', pair? labels a b = some (a', b') ∧ is[k]? = some a ∧ is[k + 1]? = some b ∧
      (fuse labels is)[k]? = some a' ∧ (fuse labels is)[k + 1]? = some b' := by
  induction is using fuse_induction labels generalizing k with
  | nil => exact absurd h not_createdAt_nil
  | @pair a b a' b' is hpair ih =>
    rw [fuse_of_pair? hpair] at h ⊢
    match k with
    | 0 => exact ⟨a, b, a', b', hpair, rfl, rfl, rfl, rfl⟩
    | 1 => exact absurd (createdAt_zero.1 (createdAt_succ.1 h)) (created_of_pair? hpair).2
    | k + 2 => exact ih (createdAt_succ.1 (createdAt_succ.1 h))
  | @kept a is hnone ih =>
    rw [fuse_of_unpaired hnone] at h ⊢
    match k with
    | 0 => exact absurd (createdAt_zero.1 h) not_created_same
    | k + 1 => exact ih (createdAt_succ.1 h)

/-- What is neither created nor follows what is created stays. -/
theorem getElem?_fuse (hk : ¬ CreatedAt is (fuse labels is) k)
    (hbefore : ∀ j, CreatedAt is (fuse labels is) j → k ≠ j + 1) :
    (fuse labels is)[k]? = is[k]? := by
  induction is using fuse_induction labels generalizing k with
  | nil => rfl
  | @pair a b a' b' is hpair ih =>
    rw [fuse_of_pair? hpair] at hk hbefore ⊢
    have hcreated := (created_of_pair? hpair).1
    match k with
    | 0 => exact absurd (createdAt_zero.2 hcreated) hk
    | 1 => exact absurd rfl (hbefore 0 (createdAt_zero.2 hcreated))
    | k + 2 =>
      refine ih (fun h => hk (createdAt_succ.2 (createdAt_succ.2 h))) fun j hj => ?_
      have := hbefore (j + 2) (createdAt_succ.2 (createdAt_succ.2 hj))
      omega
  | @kept a is hnone ih =>
    rw [fuse_of_unpaired hnone] at hk hbefore ⊢
    match k with
    | 0 => rfl
    | k + 1 =>
      refine ih (fun h => hk (createdAt_succ.2 h)) fun j hj => ?_
      have := hbefore (j + 1) (createdAt_succ.2 hj)
      omega

/-- The number of pairs, which fusion counts as it goes, is that of the double loads created. These
    can be counted in the two lists afterwards. -/
theorem fusedCount_eq (labels : AddressSet) (is : List Instruction) :
    fusedCount labels is = (is.zip (fuse labels is)).countP (Created ·) := by
  induction is using fuse_induction labels with
  | nil => rfl
  | pair hpair ih =>
    obtain ⟨hfirst, hsecond⟩ := created_of_pair? hpair
    rw [fuse_of_pair? hpair, fusedCount, fuseCounting_of_pair? hpair]
    simp [hfirst, hsecond, ih]
  | kept hnone ih =>
    rw [fuse_of_unpaired hnone, fusedCount, fuseCounting_of_unpaired hnone]
    simp [not_created_same, ih]

/-- Fusion leaves all places and lengths as they are: a double load has those of the first load, and
    the second load leaves behind an instruction without effect. -/
theorem map_fuse (labels : AddressSet) (is : List Instruction) :
    (fuse labels is).map (fun i => (i.address, i.length)) =
      is.map (fun i => (i.address, i.length)) := by
  have hall : List.Forall₂ (fun i j : Instruction => (i.address, i.length) = (j.address, j.length))
      is (fuse labels is) := by
    apply forall₂_fuse_of
    · exact fun i => rfl
    · intro a b a' b' hpair
      obtain ⟨_, _, _, _, -, -, -, -, -, rfl, rfl⟩ := pair?_cases hpair
      exact ⟨rfl, rfl⟩
  rw [← List.forall₂_map_right_iff, ← List.forall₂_map_left_iff, List.forall₂_eq_eq_eq] at hall
  exact hall.symm

/-- **The first instructions of a list use the same with its pairs fused**, unless the last of them
    is the first load of a pair. -/
theorem foldlM_take_fuse (h : ∀ j, CreatedAt is (fuse labels is) j → k ≠ j + 1) (acc : Usage) :
    ((fuse labels is).take k).foldlM (fun acc i => do return acc.andThen (← i.usage)) acc =
      (is.take k).foldlM (fun acc i => do return acc.andThen (← i.usage)) acc := by
  induction is using fuse_induction labels generalizing k acc with
  | nil => rfl
  | @pair a b a' b' is hpair ih =>
    rw [fuse_of_pair? hpair] at h ⊢
    match k with
    | 0 => rfl
    -- A part of one instruction would end between the two loads.
    | 1 => exact absurd rfl (h 0 (createdAt_zero.2 (created_of_pair? hpair).1))
    | k + 2 =>
      refine foldlM_of_pair? hpair (ih fun j hj => ?_) acc
      have := h (j + 2) (createdAt_succ.2 (createdAt_succ.2 hj))
      omega
  | @kept a is hnone ih =>
    rw [fuse_of_unpaired hnone] at h ⊢
    match k with
    | 0 => rfl
    | k + 1 =>
      rw [List.take_succ_cons, List.take_succ_cons, List.foldlM_cons, List.foldlM_cons]
      congr
      funext acc
      refine ih (fun j hj => ?_) acc
      have := h (j + 1) (createdAt_succ.2 hj)
      omega

/-! ### Whole lists -/

/-- The second list is the first with `n` pairs of loads fused. -/
structure Condenses (labels : AddressSet) (is js : List Instruction) (n : Nat) : Prop where
  length : js.length = is.length
  places : js.map (fun i => (i.address, i.length)) = is.map (fun i => (i.address, i.length))
  /-- A double load stands for two loads that nothing branches between, and the second of them has
      no effect any more. -/
  loads : ∀ {k}, CreatedAt is js k → ∃ a b lo hi m, is[k]? = some a ∧ is[k + 1]? = some b ∧
    wordLoad? a = some (lo, m) ∧ wordLoad? b = some (hi, m.offset 2 .word) ∧
    js[k]? = some { a.withOperation .words2dword
      [.register hi, .register lo, .memory (m.offset 0 .dword)] with width := .dword } ∧
    js[k + 1]? = some b.neutralized ∧ labels.contains b.linear = false
  /-- Nothing else changes. -/
  kept : ∀ {k}, ¬ CreatedAt is js k → (∀ j, CreatedAt is js j → k ≠ j + 1) → js[k]? = is[k]?
  usage : Usage.foldList js = Usage.foldList is
  /-- Parts from the start use the same, unless they end between two loads. -/
  partUsage : ∀ {k}, (∀ j, CreatedAt is js j → k ≠ j + 1) →
    Usage.foldList (js.take k) = Usage.foldList (is.take k)
  count : n = (is.zip js).countP (Created ·)

/-- **Fusion is sound and complete.** A list keeps its length, its places and what it uses, also up
    to any position that is not between the two loads of a pair; and the number of pairs is that of
    the double loads created. No two neighbours that could be fused are left behind, whatever the
    runs of loads were like, so that a second pass changes nothing and counts nothing. -/
theorem fuse_condenses (labels : AddressSet) (is : List Instruction) :
    Condenses labels is (fuse labels is) (fusedCount labels is) ∧
      ((fuse labels is).IsChain fun a b => pair? labels a b = none) ∧
      fuse labels (fuse labels is) = fuse labels is ∧
      fusedCount labels (fuse labels is) = 0 := by
  have hagain := fuseCounting_fuse labels is
  have hplaces := map_fuse labels is
  have hlength : (fuse labels is).length = is.length := by
    simpa using congrArg List.length hplaces
  have hpart {k : Nat} (h : ∀ j, CreatedAt is (fuse labels is) j → k ≠ j + 1) :
      Usage.foldList ((fuse labels is).take k) = Usage.foldList (is.take k) :=
    foldlM_take_fuse h {}
  refine ⟨⟨hlength, hplaces, fun {k} h => ?_, getElem?_fuse, ?_, hpart, fusedCount_eq labels is⟩,
    isChain_fuse labels is, (congrArg Prod.fst hagain :), congrArg Prod.snd hagain⟩
  · obtain ⟨a, b, a', b', hpair, ha, hb, ha', hb'⟩ := pair_of_createdAt h
    obtain ⟨lo, hi, m, n, hlo, hhi, rfl, -, hlabel, rfl, rfl⟩ := pair?_cases hpair
    exact ⟨a, b, lo, hi, m, ha, hb, hlo, hhi, ha', hb', hlabel⟩
  · -- A list does not end between two loads that are fused.
    have hend : ∀ j, CreatedAt is (fuse labels is) j → is.length ≠ j + 1 := by
      intro j hj hk
      obtain ⟨_, _, _, _, -, -, hb, -⟩ := pair_of_createdAt hj
      rw [← hk, List.getElem?_eq_none (Nat.le_refl _)] at hb
      cases hb
    have hall := hpart hend
    rwa [List.take_length, ← hlength, List.take_length] at hall

-- Of three loads in a row, the first two are taken together.
example :
    let load (r : Register) (off disp : UInt16) : Instruction :=
      { address := ⟨0, off⟩, mnemonic := .mov, length := 3,
        operands := [.register r, .memory ⟨.bx, disp, .ds, .word⟩] }
    (fuse ∅ [load .ax 0x100 0, load .cx 0x103 2, load .dx 0x106 4]).map Instruction.mnemonic =
      [.words2dword, .nop, .mov] := by
  decide

end Fusion

end RealMode
