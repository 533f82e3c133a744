import PeanoCalculus.Grammar.Reader
import PeanoCalculus.Proofs.Except
import PeanoCalculus.Proofs.Text.Balanced

/-! # Laws of the readers

    What a compound reader returns, and how it fails, in terms of its parts.  Readers recover from
    soft faults only, so each law on failures keeps the kinds of faults apart: a hard fault and
    the want of text pass through every reader unchanged, a soft one may be given up.

    A repetition stops, at the latest, where the text does.  `many_induct` is the induction over
    its rounds; whatever is shown of a loop is shown by it. -/

namespace PeanoCalculus.Grammar

variable {α β : Type} {s rest : List Char} {fault : Fault} {trace : Trace}

/-- No other form is tried after this fault. -/
def Fault.IsFinal (fault : Fault) : Prop :=
  ∀ trace, fault ≠ .soft trace

theorem isFinal_hard (trace : Trace) : (Fault.hard trace).IsFinal := by
  intro trace' h
  cases h

theorem isFinal_incomplete : Fault.incomplete.IsFinal := by
  intro trace h
  cases h

/-! ## One reader after another -/

section Sequence

variable {r : Reader α} {f : α → Reader β} {a : α} {b : β} {mid : List Char}

/-- Two readers succeed one after the other when the second does on what the first leaves. -/
theorem Reader.bind_eq_ok : (r >>= f) s = .ok (b, rest) ↔
    ∃ a mid, r s = .ok (a, mid) ∧ f a mid = .ok (b, rest) := by
  show (r s >>= fun p => f p.1 p.2) = _ ↔ _
  rw [PeanoCalculus.bind_eq_ok]
  constructor
  · rintro ⟨⟨a, mid⟩, hr, hf⟩
    exact ⟨a, mid, hr, hf⟩
  · rintro ⟨a, mid, hr, hf⟩
    exact ⟨(a, mid), hr, hf⟩

/-- They fail when the first does, or the second on what the first leaves. -/
theorem Reader.bind_eq_error : (r >>= f) s = .error fault ↔
    r s = .error fault ∨ ∃ a mid, r s = .ok (a, mid) ∧ f a mid = .error fault := by
  show (r s >>= fun p => f p.1 p.2) = _ ↔ _
  rw [PeanoCalculus.bind_eq_error]
  constructor
  · rintro (hr | ⟨⟨a, mid⟩, hr, hf⟩)
    · exact .inl hr
    · exact .inr ⟨a, mid, hr, hf⟩
  · rintro (hr | ⟨a, mid, hr, hf⟩)
    · exact .inl hr
    · exact .inr ⟨(a, mid), hr, hf⟩

theorem Reader.bind_of_ok (h : r s = .ok (a, mid)) : (r >>= f) s = f a mid := by
  show (r s >>= fun p => f p.1 p.2) = _
  rw [h]
  rfl

theorem Reader.bind_of_error (h : r s = .error fault) : (r >>= f) s = .error fault :=
  Reader.bind_eq_error.mpr (.inl h)

theorem Reader.pure_eq_ok {a' : α} :
    (pure a : Reader α) s = .ok (a', rest) ↔ a' = a ∧ rest = s := by
  show Except.ok (a, s) = Except.ok (a', rest) ↔ _
  rw [Except.ok.injEq, Prod.mk.injEq]
  exact and_congr eq_comm eq_comm

theorem Reader.pure_ne_error : (pure a : Reader α) s ≠ .error fault := by
  intro h
  cases h

/-- Only the reader can fail, not what is made of its result. -/
theorem Reader.map_eq_error {g : α → β} :
    (do let a ← r; return g a : Reader β) s = .error fault ↔ r s = .error fault := by
  refine Reader.bind_eq_error.trans ⟨?_, .inl⟩
  rintro (hr | ⟨_, _, _, hret⟩)
  · exact hr
  · exact absurd hret Reader.pure_ne_error

end Sequence

/-! ## Single characters -/

theorem exactly_eq_ok {c : Char} : exactly c s = .ok ((), rest) ↔ s = c :: rest := by
  simp only [exactly]
  split
  · next hc =>
      obtain ⟨t, rfl⟩ := List.head?_eq_some_iff.mp hc
      rw [Except.ok.injEq, Prod.mk.injEq, List.cons.injEq]
      exact ⟨fun h => ⟨rfl, h.2⟩, fun h => ⟨rfl, h.2⟩⟩
  · next hc =>
      constructor
      · intro h
        cases h
      · rintro rfl
        exact absurd rfl hc

theorem exactly_cons (c : Char) (s : List Char) : exactly c (c :: s) = .ok ((), s) :=
  exactly_eq_ok.mpr rfl

theorem exactly_eq_error {c : Char} : exactly c s = .error fault ↔
    s.head? ≠ some c ∧ fault = .soft [⟨s, .missing c⟩] := by
  simp only [exactly]
  by_cases hc : s.head? = some c
  · rw [if_pos hc]
    constructor
    · intro h
      cases h
    · intro h
      exact absurd hc h.1
  · rw [if_neg hc, Except.error.injEq]
    exact ⟨fun h => ⟨hc, h.symm⟩, fun h => h.2.symm⟩

theorem satisfying_eq_ok {kind : Char → Bool} {c : Char} :
    satisfying kind s = .ok (c, rest) ↔ kind c = true ∧ s = c :: rest := by
  cases s with
  | nil =>
      constructor
      · intro h
        cases h
      · rintro ⟨-, h⟩
        cases h
  | cons d s =>
      simp only [satisfying, List.head?_cons, Option.filter_some, List.tail_cons, List.cons.injEq]
      by_cases hd : kind d = true
      · simp only [if_pos hd, Except.ok.injEq, Prod.mk.injEq]
        exact ⟨fun h => ⟨h.1 ▸ hd, h⟩, fun h => h.2⟩
      · simp only [if_neg hd]
        constructor
        · intro h
          cases h
        · rintro ⟨hc, rfl, -⟩
          exact absurd hc hd

theorem satisfying_eq_error {kind : Char → Bool} (h : satisfying kind s = .error fault) :
    fault = .soft [⟨s, .failed .kind⟩] := by
  simp only [satisfying] at h
  split at h
  · cases h
  · exact (Except.error.inj h).symm

theorem satisfying_of_not {kind : Char → Bool} (h : ∀ c ∈ s.head?, kind c = false) :
    satisfying kind s = .error (.soft [⟨s, .failed .kind⟩]) := by
  simp only [satisfying, Option.filter_eq_none_iff.mpr fun c hc => Bool.eq_false_iff.mp (h c hc)]

/-- The characters of a kind end where one of another kind follows. -/
theorem allOf_append {kind : Char → Bool} {w : List Char} (hw : ∀ c ∈ w, kind c = true)
    (hrest : ∀ c ∈ rest.head?, kind c = false) : allOf kind (w ++ rest) = .ok (w, rest) := by
  simp only [allOf, Text.run_append hw hrest]

theorem spelled_eq_ok {word : List Char} : spelled word s = .ok ((), rest) ↔ s = word ++ rest := by
  simp only [spelled]
  constructor
  · intro h
    split at h
    · next hword =>
        obtain ⟨t, rfl⟩ := List.isPrefixOf_iff_prefix.mp hword
        rw [List.drop_left, Except.ok.injEq, Prod.mk.injEq] at h
        rw [h.2]
    · cases h
  · rintro rfl
    rw [if_pos (List.isPrefixOf_iff_prefix.mpr ⟨rest, rfl⟩), List.drop_left]

theorem spelled_eq_error {word : List Char} (h : spelled word s = .error fault) :
    fault = .soft [⟨s, .failed .spelling⟩] := by
  simp only [spelled] at h
  split at h
  · cases h
  · exact (Except.error.inj h).symm

/-! ## Faults -/

section Recovering

variable {r : Reader α} {other : Trace → Reader α} {x : α × List Char}

theorem recovering_of_ok (h : r s = .ok x) : recovering r other s = .ok x := by
  simp only [recovering, h]

theorem recovering_of_soft (h : r s = .error (.soft trace)) :
    recovering r other s = other trace s := by
  simp only [recovering, h]

theorem recovering_eq_ok : recovering r other s = .ok x ↔
    r s = .ok x ∨ ∃ trace, r s = .error (.soft trace) ∧ other trace s = .ok x := by
  constructor
  · intro h
    simp only [recovering] at h
    split at h
    · next trace hr => exact .inr ⟨trace, hr, h⟩
    · exact .inl h
  · rintro (h | ⟨trace, hr, h⟩)
    · exact recovering_of_ok h
    · rw [recovering_of_soft hr, h]

theorem recovering_eq_error : recovering r other s = .error fault ↔
    r s = .error fault ∧ fault.IsFinal ∨
      ∃ trace, r s = .error (.soft trace) ∧ other trace s = .error fault := by
  constructor
  · intro h
    simp only [recovering] at h
    split at h
    · next trace hr => exact .inr ⟨trace, hr, h⟩
    · next hsoft => exact .inl ⟨h, fun trace hfault => hsoft trace (hfault ▸ h)⟩
  · rintro (⟨hr, hfinal⟩ | ⟨trace, hr, h⟩)
    · simp only [recovering]
      split
      · next trace hr' => exact absurd (Except.error.inj (hr.symm.trans hr')) (hfinal trace)
      · exact hr
    · rw [recovering_of_soft hr, h]

theorem committed_eq_ok : committed r s = .ok x ↔ r s = .ok x := by
  refine recovering_eq_ok.trans ⟨?_, .inl⟩
  rintro (h | ⟨trace, -, h⟩)
  · exact h
  · cases h

/-- A committed reader fails for good, with the trace of the reader. -/
theorem committed_eq_error (h : committed r s = .error fault) :
    fault = .incomplete ∧ r s = .error .incomplete ∨
      ∃ trace, fault = .hard trace ∧ (r s = .error (.soft trace) ∨ r s = .error (.hard trace)) := by
  rcases recovering_eq_error.mp h with ⟨hr, hfinal⟩ | ⟨trace, hr, hhard⟩
  · cases fault with
    | soft trace => exact absurd rfl (hfinal trace)
    | hard trace => exact .inr ⟨trace, rfl, .inr hr⟩
    | incomplete => exact .inl ⟨rfl, hr⟩
  · exact .inr ⟨trace, (Except.error.inj hhard).symm, .inl hr⟩

theorem committed_ne_soft : committed r s ≠ .error (.soft trace) := by
  intro h
  rcases committed_eq_error h with ⟨hfault, -⟩ | ⟨_, hfault, -⟩ <;> cases hfault

theorem inside_eq_ok {name : String} : inside name r s = .ok x ↔ r s = .ok x :=
  mapError_eq_ok

theorem inside_eq_error {name : String} : inside name r s = .error fault ↔
    ∃ fault', r s = .error fault' ∧ fault = fault'.noted ⟨s, .inside name⟩ := by
  simp only [inside]
  cases r s with
  | error fault' =>
      constructor
      · intro h
        exact ⟨fault', rfl, (Except.error.inj h).symm⟩
      · rintro ⟨fault', hr, rfl⟩
        rw [Except.error.inj hr]
        rfl
  | ok x =>
      constructor
      · intro h
        cases h
      · rintro ⟨fault', hr, -⟩
        cases hr

end Recovering

/-! ## Alternatives -/

section Alternatives

variable {r : Reader α} {more : List (Reader α)} {x : α × List Char}

theorem firstOf_of_ok (h : r s = .ok x) : firstOf r more s = .ok x := by
  cases more <;> exact recovering_of_ok h

theorem firstOf_of_soft {next : Reader α} (h : r s = .error (.soft trace)) :
    firstOf r (next :: more) s = firstOf next more s :=
  recovering_of_soft h

theorem firstOf_nil_of_soft (h : r s = .error (.soft trace)) :
    firstOf r [] s = .error (.soft (trace ++ [⟨s, .failed .choice⟩])) :=
  recovering_of_soft h

/-- What a choice returns is returned by one of its forms. -/
theorem firstOf_eq_ok (h : firstOf r more s = .ok x) : ∃ form ∈ r :: more, form s = .ok x := by
  induction more generalizing r with
  | nil =>
      rcases recovering_eq_ok.mp h with h | ⟨_, _, h⟩
      · exact ⟨r, List.mem_cons_self, h⟩
      · cases h
  | cons next more ih =>
      rcases recovering_eq_ok.mp h with h | ⟨_, _, h⟩
      · exact ⟨r, List.mem_cons_self, h⟩
      · obtain ⟨form, hform, h⟩ := ih h
        exact ⟨form, List.mem_cons_of_mem r hform, h⟩

/-- A choice fails for good because one of its forms does. -/
theorem firstOf_eq_final (h : firstOf r more s = .error fault) (hfinal : fault.IsFinal) :
    ∃ form ∈ r :: more, form s = .error fault := by
  induction more generalizing r with
  | nil =>
      rcases recovering_eq_error.mp h with ⟨h, -⟩ | ⟨_, _, h⟩
      · exact ⟨r, List.mem_cons_self, h⟩
      · exact absurd (Except.error.inj h).symm (hfinal _)
  | cons next more ih =>
      rcases recovering_eq_error.mp h with ⟨h, -⟩ | ⟨_, _, h⟩
      · exact ⟨r, List.mem_cons_self, h⟩
      · obtain ⟨form, hform, h⟩ := ih h
        exact ⟨form, List.mem_cons_of_mem r hform, h⟩

/-- A choice fails softly as the last of its forms does. -/
theorem firstOf_eq_soft {last : Reader α} (h : firstOf r more s = .error (.soft trace))
    (hlast : (r :: more).getLast? = some last) :
    ∃ trace', last s = .error (.soft trace') ∧ trace = trace' ++ [⟨s, .failed .choice⟩] := by
  induction more generalizing r with
  | nil =>
      obtain rfl := Option.some.inj hlast
      rcases recovering_eq_error.mp h with ⟨-, hfinal⟩ | ⟨trace', hr, h⟩
      · exact absurd rfl (hfinal trace)
      · exact ⟨trace', hr, (Fault.soft.inj (Except.error.inj h)).symm⟩
  | cons next more ih =>
      rcases recovering_eq_error.mp h with ⟨-, hfinal⟩ | ⟨_, _, h⟩
      · exact absurd rfl (hfinal trace)
      · exact ih h (List.getLast?_cons_cons.symm.trans hlast)

theorem optional_of_ok {a : α} (h : r s = .ok (a, rest)) : optional r s = .ok (some a, rest) :=
  recovering_of_ok (Reader.bind_of_ok h)

theorem optional_of_soft (h : r s = .error (.soft trace)) : optional r s = .ok (none, s) :=
  recovering_of_soft (Reader.bind_of_error h)

/-- An optional form is there, or is not and takes nothing. -/
theorem optional_eq_ok {o : Option α} (h : optional r s = .ok (o, rest)) :
    (∃ a, o = some a ∧ r s = .ok (a, rest)) ∨ o = none ∧ rest = s := by
  rcases recovering_eq_ok.mp h with h | ⟨_, _, h⟩
  · obtain ⟨a, mid, hr, hret⟩ := Reader.bind_eq_ok.mp h
    obtain ⟨rfl, rfl⟩ := Reader.pure_eq_ok.mp hret
    exact .inl ⟨a, rfl, hr⟩
  · exact .inr (Reader.pure_eq_ok.mp h)

theorem optional_eq_error (h : optional r s = .error fault) :
    r s = .error fault ∧ fault.IsFinal := by
  rcases recovering_eq_error.mp h with ⟨h, hfinal⟩ | ⟨_, _, h⟩
  · exact ⟨Reader.map_eq_error.mp h, hfinal⟩
  · exact absurd h Reader.pure_ne_error

end Alternatives

/-! ## Repetitions -/

section Repetition

variable {item : Reader β} {join : α → β → α}

theorem repeated_succ (n : Nat) (left : α) (s : List Char) : repeated item join (n + 1) left s =
    match item s with
    | .ok (next, rest) =>
      if rest.length < s.length then repeated item join n (join left next) rest
      else .error (.soft [⟨s, .failed .repetition⟩])
    | .error (.soft _) => .ok (left, s)
    | .error fault => .error fault :=
  rfl

/-- **THE ROUNDS OF A REPETITION**: one more item and then the rest, an item that takes nothing, a
    soft fault, at which the repetition ends, or a fault that it passes on. -/
theorem many_induct {motive : α → List Char → Except Fault (α × List Char) → Prop}
    (item_read : ∀ {left s next rest result}, item s = .ok (next, rest) → rest.length < s.length →
      motive (join left next) rest result → motive left s result)
    (stalled : ∀ {left s next rest}, item s = .ok (next, rest) → ¬ rest.length < s.length →
      motive left s (.error (.soft [⟨s, .failed .repetition⟩])))
    (ended : ∀ {left s trace}, item s = .error (.soft trace) → motive left s (.ok (left, s)))
    (failed : ∀ {left s fault}, item s = .error fault → fault.IsFinal →
      motive left s (.error fault))
    (left : α) (s : List Char) : motive left s (many item join left s) := by
  have hrounds : ∀ n left s, s.length < n → motive left s (repeated item join n left s) := by
    intro n
    induction n with
    | zero => intro left s hn; exact absurd hn (Nat.not_lt_zero _)
    | succ n ih =>
        intro left s hn
        rw [repeated_succ]
        split
        · next next rest hitem =>
            by_cases hlt : rest.length < s.length
            · rw [if_pos hlt]
              exact item_read hitem hlt
                (ih _ _ (Nat.lt_of_lt_of_le hlt (Nat.le_of_lt_succ hn)))
            · rw [if_neg hlt]
              exact stalled hitem hlt
        · next trace hitem => exact ended hitem
        · next fault hsoft hitem => exact failed hitem fun trace h => hsoft trace h
  exact hrounds (s.length + 1) left s (Nat.lt_succ_self _)

/-- The bound of a repetition does not matter as long as it exceeds the length of the text. -/
theorem repeated_eq_many {n : Nat} {left : α} (hn : s.length < n) :
    repeated item join n left s = many item join left s := by
  have hbounds : ∀ n m left s, s.length < n → s.length < m →
      repeated item join n left s = repeated item join m left s := by
    intro n
    induction n with
    | zero => intro m left s hn; exact absurd hn (Nat.not_lt_zero _)
    | succ n ih =>
        intro m left s hn hm
        obtain ⟨m, rfl⟩ : ∃ k, m = k + 1 := ⟨m - 1, by omega⟩
        rw [repeated_succ, repeated_succ]
        split
        · next next rest _ =>
            by_cases hlt : rest.length < s.length
            · rw [if_pos hlt, if_pos hlt]
              exact ih m _ _ (by omega) (by omega)
            · rw [if_neg hlt, if_neg hlt]
        · rfl
        · rfl
  exact hbounds n _ left s hn (Nat.lt_succ_self _)

theorem many_of_ok {next : β} (h : item s = .ok (next, rest)) (hlt : rest.length < s.length)
    (left : α) : many item join left s = many item join (join left next) rest := by
  show repeated item join (s.length + 1) left s = _
  simp only [repeated_succ, h, if_pos hlt]
  exact repeated_eq_many hlt

theorem many_of_soft (h : item s = .error (.soft trace)) (left : α) :
    many item join left s = .ok (left, s) := by
  show repeated item join (s.length + 1) left s = _
  simp only [repeated_succ, h]

end Repetition

end PeanoCalculus.Grammar
