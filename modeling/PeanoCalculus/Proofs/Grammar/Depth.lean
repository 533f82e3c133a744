import PeanoCalculus.Proofs.Grammar.Soundness

/-! # The depth is enough

    A reader called beyond the bound on the depth would ask for more text.  No text leads there.
    Whoever calls a reader further down has read a sign before, so the text left for it is
    shorter: by a parenthesis from term to term, and by a sign for every two levels from formula
    to formula.  Only the length of the text matters here, not what stands in it.

    A repetition has a bound of its own, and stays within it whatever its items are
    (`many_induct`). -/

namespace PeanoCalculus.Grammar

variable {α β : Type}

/-- On texts of fewer than `k` characters the reader does not ask for more text. -/
def Settles (k : Nat) (reader : Reader α) : Prop :=
  ∀ ⦃s⦄, s.length < k → reader s ≠ .error .incomplete

section Compound

variable {j k : Nat} {P : List Char → α → Prop} {r : Reader α} {more : List (Reader α)}

theorem Settles.mono (h : Settles k r) (hjk : j ≤ k) : Settles j r :=
  fun _ hs => h (Nat.lt_of_lt_of_le hs hjk)

theorem exactly_settles (k : Nat) (c : Char) : Settles k (exactly c) := by
  intro s _ hread
  cases (exactly_eq_error.mp hread).2

theorem Settles.map (h : Settles k r) (g : α → β) : Settles k (do let a ← r; return g a) :=
  fun _ hs hread => h hs (Reader.map_eq_error.mp hread)

/-- What a reader leaves is not longer than what it was given. -/
theorem Consumes.length_le (h : Consumes P r) {s rest : List Char} {a : α}
    (hread : r s = .ok (a, rest)) : rest.length ≤ s.length := by
  obtain ⟨w, rfl, -⟩ := h hread
  rw [List.length_append]
  exact Nat.le_add_left _ _

theorem Settles.bind {f : α → Reader β} (hr : Settles k r) (hconsumes : Consumes P r)
    (hf : ∀ a, Settles k (f a)) : Settles k (r >>= f) := by
  intro s hs h
  rcases Reader.bind_eq_error.mp h with h | ⟨a, mid, hread, h⟩
  · exact hr hs h
  · exact hf a (Nat.lt_of_le_of_lt (hconsumes.length_le hread) hs) h

/-- Behind a sign there is one character less. -/
theorem settles_after {f : Unit → Reader α} (h : ∀ u, Settles j (f u)) (sign : Char)
    (hk : k ≤ j + 1) : Settles k (exactly sign >>= f) := by
  intro s hs hread
  rcases Reader.bind_eq_error.mp hread with hsign | ⟨u, mid, hsign, hafter⟩
  · exact exactly_settles k sign hs hsign
  · rw [exactly_eq_ok.mp hsign, List.length_cons] at hs
    exact h u (by omega) hafter

theorem Settles.committed (h : Settles k r) : Settles k (committed r) := by
  intro s hs hread
  rcases committed_eq_error hread with ⟨-, hread⟩ | ⟨trace, hfault, -⟩
  · exact h hs hread
  · cases hfault

theorem Settles.inside (h : Settles k r) (name : String) : Settles k (inside name r) := by
  intro s hs hread
  obtain ⟨fault, hread, hnoted⟩ := inside_eq_error.mp hread
  cases fault with
  | incomplete => exact h hs hread
  | soft trace => cases hnoted
  | hard trace => cases hnoted

theorem Settles.optional (h : Settles k r) : Settles k (optional r) :=
  fun _ hs hread => h hs (optional_eq_error hread).1

theorem firstOf_settles (h : ∀ form ∈ r :: more, Settles k form) : Settles k (firstOf r more) := by
  intro s hs hread
  obtain ⟨form, hform, hread⟩ := firstOf_eq_final hread isFinal_incomplete
  exact h form hform hs hread

theorem many_settles {item : Reader β} {join : α → β → α} (h : Settles k item) (left : α) :
    Settles k (many item join left) := by
  intro s hs
  refine many_induct (motive := fun _ s result => s.length < k → result ≠ .error .incomplete)
    ?_ ?_ ?_ ?_ left s hs
  · intro left s next rest result _ hlt ih hs
    exact ih (Nat.lt_trans hlt hs)
  · intro left s next rest _ _ _ hresult
    cases hresult
  · intro left s trace _ _ hresult
    cases hresult
  · intro left s fault hitem _ hs hresult
    exact h hs (Except.error.inj hresult ▸ hitem)

end Compound

section Readers

variable {j k : Nat} {r inner again whole : Reader Expr}

theorem joined_settles {P : List Char → Expr → Prop} (h : Settles k r) (hconsumes : Consumes P r)
    (sign : Char) (name : String) (join : Expr → Expr → Expr) :
    Settles k (joined sign name join r) := by
  refine h.bind hconsumes fun first => many_settles ?_ first
  exact settles_after (fun _ => (h.inside name).committed) sign (Nat.le_succ k)

theorem enclosed_settles {P : List Char → α → Prop} {r : Reader α} (h : Settles j r)
    (hconsumes : Consumes P r) (hk : k ≤ j + 1) : Settles k (enclosed r) := by
  have hclosing : Settles j closing := ((exactly_settles j ')').inside _).committed
  refine settles_after (fun _ => ?_) '(' hk
  exact h.committed.bind hconsumes.committed fun a => hclosing.map fun _ => a

theorem name_settles (k : Nat) (first : Char → Bool) : Settles k (name first) := by
  intro s _ hread
  cases name_eq_error hread

theorem separated_settles {P : List Char → Expr → Prop} (h : Settles k r)
    (hconsumes : Consumes P r) (mark : Char) : Settles k (separated mark r) :=
  h.bind hconsumes fun first =>
    many_settles (settles_after (fun _ => h) mark (Nat.le_succ k)) [first]

theorem application_settles (h : Settles j inner) (hconsumes : Consumes (TermPhrase .sum) inner)
    (hk : k ≤ j + 1) (first : Char → Bool) (alone : String → Expr) :
    Settles k (application first alone inner) := by
  have hargs := enclosed_settles (separated_settles (h.inside "argument")
    (hconsumes.inside "argument") ',') (separated_consumes (hconsumes.inside "argument")) hk
  exact (name_settles k first).bind name_consumes fun f => hargs.optional.map _

theorem sum_settles (h : Settles k inner) (hconsumes : Consumes (TermPhrase .sum) inner) :
    Settles (k + 1) (sum inner) := by
  have hatom : Settles (k + 1) (atom inner) := by
    refine (firstOf_settles ?_).inside "term"
    intro form hform
    simp only [List.mem_cons, List.not_mem_nil, or_false] at hform
    rcases hform with rfl | rfl | rfl
    · exact application_settles h hconsumes (Nat.le_refl _) _ _
    · exact (exactly_settles (k + 1) '0').map _
    · exact enclosed_settles h hconsumes (Nat.le_refl _)
  have hprimed : Settles (k + 1) (primedAtom inner) := by
    refine hatom.bind (atom_consumes hconsumes) fun base => ?_
    intro s _ hread
    cases hread
  exact joined_settles (joined_settles hprimed (primedAtom_consumes hconsumes) _ _ _)
    (product_consumes hconsumes) _ _ _

/-- **TERMS ARE NOT TOO DEEP**: a text has fewer parentheses around each other than characters. -/
theorem termAt_settles (n : Nat) : Settles n (termAt n) := by
  induction n with
  | zero =>
      intro s hs
      exact absurd hs (Nat.not_lt_zero _)
  | succ n ih => exact sum_settles ih (termAt_consumes n)

theorem term_settles (k : Nat) : Settles k term :=
  fun _ _ => termAt_settles _ (Nat.lt_succ_self _)

theorem equation_settles (k : Nat) : Settles k equation := by
  refine (term_settles k).bind term_consumes fun left => ?_
  have hsign := ((exactly_settles k '=').inside "'='").committed
  have hconsumes : Consumes (fun w _ => w = ['=']) (committed (inside "'='" (exactly '='))) :=
    fun _ _ _ hread => ⟨['='], exactly_eq_ok.mp (inside_eq_ok.mp (committed_eq_ok.mp hread)), rfl⟩
  exact hsign.bind hconsumes fun _ => ((term_settles k).inside _).committed.map _

theorem quantified_settles (h : Settles j again) (hk : k ≤ j + 1) :
    Settles k (quantified again) := by
  intro s hs hread
  rcases Reader.bind_eq_error.mp hread with hsign | ⟨q, mid, hsign, hafter⟩
  · obtain ⟨form, hform, hread⟩ := firstOf_eq_final hsign isFinal_incomplete
    simp only [List.mem_cons, List.not_mem_nil, or_false] at hform
    rcases hform with rfl | rfl <;>
      exact (exactly_settles k _).map _ hs hread
  · rw [quantifierSign_eq_ok.mp hsign, List.length_cons] at hs
    have hbound : Settles j (do let x ← inside "quantified variable" (name Char.isLower)
                                let body ← again
                                return (x, body) : Reader (String × Expr)) :=
      ((name_settles j _).inside _).bind (name_consumes.inside _) fun x => h.map _
    exact hbound.committed.map _ (by omega) hafter

theorem unary_settles (hagain : Settles j again) (hwhole : Settles j whole)
    (hconsumes : Consumes (FormulaPhrase .implication) whole) :
    Settles (j + 1) (unary again whole) := by
  refine (firstOf_settles ?_).inside "formula"
  intro form hform
  simp only [List.mem_cons, List.not_mem_nil, or_false] at hform
  rcases hform with rfl | rfl | rfl | rfl
  · exact settles_after (fun _ => hagain.committed.map _) '!' (Nat.le_refl _)
  · exact quantified_settles hagain (Nat.le_refl _)
  · intro s hs hread
    simp only [formulaGroup] at hread
    split at hread
    · cases hread
    · exact enclosed_settles hwhole hconsumes (Nat.le_refl _) hs hread
  · refine firstOf_settles ?_
    intro form hform
    simp only [List.mem_cons, List.not_mem_nil, or_false] at hform
    rcases hform with rfl | rfl
    · exact application_settles (term_settles j) term_consumes (Nat.le_refl _) _ _
    · exact equation_settles (j + 1)

theorem implication_settles (hunary : Settles k r) (hwhole : Settles j whole) (hk : k ≤ j + 1)
    (hconsumes : Consumes (FormulaPhrase .unary) r) : Settles k (implication r whole) := by
  have hconjunction := joined_settles hunary hconsumes '&' "formula after '&'" .and
  have hdisjunction : Settles k (disjunction r) :=
    joined_settles hconjunction (conjunction_consumes hconsumes) _ _ _
  refine hdisjunction.bind (disjunction_consumes hconsumes) fun left => ?_
  refine Settles.map (Settles.optional ?_) _
  intro s hs hread
  rcases Reader.bind_eq_error.mp hread with harrow | ⟨_, mid, harrow, hright⟩
  · cases spelled_eq_error harrow
  · rw [spelled_eq_ok.mp harrow] at hs
    simp only [List.length_append, List.length_cons] at hs
    exact (hwhole.inside _).committed (by omega) hright

/-- **FORMULAS ARE NOT TOO DEEP**: on two levels a sign is read. -/
theorem formulaAt_settles (n : Nat) :
    Settles ((n + 1) / 2) (unaryAt n) ∧ Settles (n / 2) (formulaAt n) := by
  induction n with
  | zero =>
      constructor <;>
        · intro s hs
          exact absurd hs (Nat.not_lt_zero _)
  | succ n ih =>
      obtain ⟨hunary, hformula⟩ := formulaAt_consumes n
      constructor
      · rw [show (n + 1 + 1) / 2 = n / 2 + 1 by omega]
        exact unary_settles (ih.1.mono (by omega)) ih.2 hformula
      · exact implication_settles ih.1 ih.2 (by omega) hunary

/-- Reading a formula never asks for more text. -/
theorem formula_ne_incomplete (s : List Char) : formula s ≠ .error .incomplete :=
  (formulaAt_settles _).2 (by omega)

end Readers

end PeanoCalculus.Grammar
