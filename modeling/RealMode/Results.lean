namespace RealMode

/-!
# Computations that may fail

Facts about `Except` that the library lacks, with nothing of the project in them: going over a
list with a function that may fail, and steps that may fail in a computation that may also never
end. They stand in front of everything else because walks need them to be seen to end.

* `mapM_eq_ok_iff` — a list is gone over without failure exactly if the function succeeds on each
  element, and `length_of_mapM_ok`, `getElem?_of_mapM_ok`, `exists_mapM_ok` — what follows;
* `exists_foldlM_ok` — a fold succeeds if each of its steps does;
* `ok_of_liftM_bind` — a step in front of something that is not an error has succeeded.
-/

variable {α β ε : Type}

/-! ### Going over a list -/

/-- A list is gone over without failure exactly if the function succeeds on each element, and
    then the results stand in the order of the elements. -/
theorem mapM_eq_ok_iff {f : α → Except ε β} {as : List α} {bs : List β} :
    as.mapM f = .ok bs ↔ as.map f = bs.map .ok := by
  induction as generalizing bs with
  | nil =>
    rw [List.mapM_nil, List.map_nil]
    cases bs with
    | nil => exact ⟨fun _ => rfl, fun _ => rfl⟩
    | cons b bs => exact ⟨nofun, nofun⟩
  | cons a as ih =>
    rw [List.mapM_cons, List.map_cons]
    cases ha : f a with
    | error e =>
      refine ⟨nofun, fun h => ?_⟩
      cases bs <;> cases h
    | ok b =>
      -- The head has succeeded, so all is up to the rest.
      show (do return b :: (← as.mapM f) : Except ε (List β)) = .ok bs ↔ _
      cases bs with
      | nil =>
        refine ⟨fun h => ?_, nofun⟩
        cases has : as.mapM f <;> rw [has] at h <;> cases h
      | cons b' bs =>
        rw [List.map_cons, List.cons.injEq, ← ih]
        cases as.mapM f with
        | error e => exact ⟨nofun, nofun⟩
        | ok bs' =>
          simp only [bind, Except.bind, pure, Except.pure, Except.ok.injEq, List.cons.injEq]

/-- One result for each element. -/
theorem length_of_mapM_ok {f : α → Except ε β} {as : List α} {bs : List β}
    (h : as.mapM f = .ok bs) : bs.length = as.length := by
  simpa using (congrArg List.length (mapM_eq_ok_iff.1 h)).symm

/-- The result at a position is that of the element at this position. -/
theorem getElem?_of_mapM_ok {f : α → Except ε β} {as : List α} {bs : List β}
    (h : as.mapM f = .ok bs) {i : Nat} {a : α} (ha : as[i]? = some a) :
    ∃ b, bs[i]? = some b ∧ f a = .ok b := by
  have hat := congrArg (fun rs => rs[i]?) (mapM_eq_ok_iff.1 h)
  simp only [List.getElem?_map, ha, Option.map_some] at hat
  obtain ⟨b, hb, hfa⟩ := Option.map_eq_some_iff.1 hat.symm
  exact ⟨b, hb, hfa.symm⟩

/-- A function that fails on no element of a list goes over the whole list. -/
theorem exists_mapM_ok {f : α → Except ε β} {as : List α} (h : ∀ a ∈ as, ∃ b, f a = .ok b) :
    ∃ bs, as.mapM f = .ok bs := by
  induction as with
  | nil => exact ⟨[], rfl⟩
  | cons a as ih =>
    obtain ⟨b, hb⟩ := h a List.mem_cons_self
    obtain ⟨bs, hbs⟩ := ih fun a' ha => h a' (List.mem_cons_of_mem _ ha)
    exact ⟨b :: bs, by rw [List.mapM_cons, hb, hbs]; rfl⟩

/-- Functions that agree on the elements of a list go over it alike, failures included. -/
theorem mapM_congr {f g : α → Except ε β} {as : List α} (h : ∀ a ∈ as, f a = g a) :
    as.mapM f = as.mapM g := by
  induction as with
  | nil => rfl
  | cons a as ih =>
    rw [List.mapM_cons, List.mapM_cons, h a List.mem_cons_self,
      ih fun b hb => h b (List.mem_cons_of_mem a hb)]

/-- A fold succeeds if each of its steps does, whatever the value that it has come to. -/
theorem exists_foldlM_ok {f : β → α → Except ε β} {as : List α}
    (h : ∀ b, ∀ a ∈ as, ∃ b', f b a = .ok b') (b : β) : ∃ b', as.foldlM f b = .ok b' := by
  induction as generalizing b with
  | nil => exact ⟨b, rfl⟩
  | cons a as ih =>
    obtain ⟨b', hb⟩ := h b a List.mem_cons_self
    rw [List.foldlM_cons, hb]
    exact ih (fun b a ha => h b a (List.mem_cons_of_mem _ ha)) b'

/-! ### Steps of a computation that may never end -/

/-- A step that succeeds goes on with its result. -/
theorem liftM_ok_bind (a : α) (f : α → ExceptT ε Option β) :
    (liftM (Except.ok a : Except ε α) >>= f) = f a := rfl

/-- A step has succeeded if what it is the first part of comes to no error: the whole has a
    result then, or it never ends, and the step alone can be to blame for neither. -/
theorem ok_of_liftM_bind {x : Except ε α} {f : α → ExceptT ε Option β}
    {res : Option (Except ε β)} (h : (liftM x >>= f) = res) (hres : ∀ e, res ≠ some (.error e)) :
    ∃ a, x = .ok a ∧ f a = res := by
  cases x with
  | error e => exact absurd h.symm (hres e)
  | ok a => exact ⟨a, rfl, h⟩

end RealMode
