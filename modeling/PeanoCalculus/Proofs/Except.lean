/-! # Results taken apart

    When a computation made of steps succeeds, every step of it did.  These lemmas give the
    intermediate results their names, so that a proof can follow a computation step by step
    instead of splitting on each of its failures. -/

namespace PeanoCalculus

universe u v

variable {ε : Type u} {α β : Type v}

/-- A sequence of two steps succeeds when the first does and the second does on its result. -/
theorem bind_eq_ok {x : Except ε α} {f : α → Except ε β} {b : β} :
    (x >>= f) = .ok b ↔ ∃ a, x = .ok a ∧ f a = .ok b := by
  cases x with
  | error err =>
      constructor
      · intro h; exact nomatch h
      · rintro ⟨a, ha, -⟩; exact nomatch ha
  | ok a =>
      constructor
      · intro h; exact ⟨a, rfl, h⟩
      · rintro ⟨a', ha, hf⟩
        injection ha with ha
        subst ha
        exact hf

/-- A sequence of two steps fails when the first does, or when the second does on the result of the
    first. -/
theorem bind_eq_error {x : Except ε α} {f : α → Except ε β} {err : ε} :
    (x >>= f) = .error err ↔ x = .error err ∨ ∃ a, x = .ok a ∧ f a = .error err := by
  cases x with
  | error err' =>
      constructor
      · intro h
        exact .inl (congrArg Except.error (Except.error.inj h))
      · rintro (h | ⟨a, ha, -⟩)
        · exact congrArg Except.error (Except.error.inj h)
        · cases ha
  | ok a =>
      constructor
      · intro h
        exact .inr ⟨a, rfl, h⟩
      · rintro (h | ⟨a', ha, hf⟩)
        · cases h
        · cases ha
          exact hf

/-- A list is read when its head and its tail are. -/
theorem mapM_cons_eq_ok {γ : Type v} {f : γ → Except ε α} {c : γ} {cs : List γ} {as : List α} :
    (c :: cs).mapM f = .ok as ↔
      ∃ a rest, f c = .ok a ∧ cs.mapM f = .ok rest ∧ as = a :: rest := by
  rw [List.mapM_cons, bind_eq_ok]
  constructor
  · rintro ⟨a, ha, h⟩
    obtain ⟨rest, hrest, h⟩ := bind_eq_ok.mp h
    exact ⟨a, rest, ha, hrest, (Except.ok.inj h).symm⟩
  · rintro ⟨a, rest, ha, hrest, rfl⟩
    exact ⟨a, ha, bind_eq_ok.mpr ⟨rest, hrest, rfl⟩⟩

/-- A list is read when each of its items is. -/
theorem exists_mapM_eq_ok {γ : Type v} {f : γ → Except ε α} {cs : List γ}
    (h : ∀ c ∈ cs, ∃ a, f c = .ok a) : ∃ as, cs.mapM f = .ok as := by
  induction cs with
  | nil => exact ⟨[], rfl⟩
  | cons c cs ih =>
      obtain ⟨a, ha⟩ := h c List.mem_cons_self
      obtain ⟨as, has⟩ := ih fun c' hc' => h c' (List.mem_cons_of_mem c hc')
      exact ⟨a :: as, mapM_cons_eq_ok.mpr ⟨a, as, ha, has, rfl⟩⟩

/-- What is read from a list is read from its items. -/
theorem mem_of_mapM_eq_ok {γ : Type v} {f : γ → Except ε α} {cs : List γ} {as : List α}
    (h : cs.mapM f = .ok as) (a : α) : a ∈ as ↔ ∃ c ∈ cs, f c = .ok a := by
  induction cs generalizing as with
  | nil =>
      obtain rfl := Except.ok.inj h
      exact iff_of_false List.not_mem_nil fun ⟨c, hc, _⟩ => List.not_mem_nil hc
  | cons c cs ih =>
      obtain ⟨b, rest, hb, hrest, rfl⟩ := mapM_cons_eq_ok.mp h
      rw [List.mem_cons, ih hrest]
      constructor
      · rintro (rfl | ⟨c', hc', ha⟩)
        · exact ⟨c, List.mem_cons_self, hb⟩
        · exact ⟨c', List.mem_cons_of_mem c hc', ha⟩
      · rintro ⟨c', hc', ha⟩
        rcases List.mem_cons.mp hc' with rfl | hc'
        · exact .inl (Except.ok.inj (ha.symm.trans hb))
        · exact .inr ⟨c', hc', ha⟩

/-- Renaming errors changes no success. -/
theorem mapError_eq_ok {ε' : Type u} {g : ε → ε'} {x : Except ε α} {a : α} :
    x.mapError g = .ok a ↔ x = .ok a := by
  cases x with
  | error err => constructor <;> (intro h; cases h)
  | ok b => constructor <;> (intro h; cases h; rfl)

/-- A test that the result of a computation passes tells that there is a result. -/
theorem exists_ok_of_any {ε α : Type} {x : Except ε α} {test : α → Bool}
    (h : x.toOption.any test = true) : ∃ a, x = .ok a ∧ test a = true := by
  cases x with
  | error e => exact nomatch h
  | ok a => exact ⟨a, rfl, h⟩

/-- The error of a computation that has no result. -/
def failure? {ε α : Type} : Except ε α → Option ε
  | .error err => some err
  | .ok _ => none

theorem failure?_eq_some {ε α : Type} {x : Except ε α} {err : ε} :
    failure? x = some err ↔ x = .error err := by
  cases x with
  | error err' =>
      rw [Except.error.injEq]
      exact Option.some_inj
  | ok a => constructor <;> (intro h; cases h)

end PeanoCalculus
