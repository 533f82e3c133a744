import PeanoCalculus.Proofs.Grammar.Phrase
import PeanoCalculus.Proofs.Grammar.Reader

/-! # What the readers accept

    A reader that succeeds has consumed a phrase of its level, and the tree it returns is the
    tree of that phrase (`Consumes`).  Each level is sound if the readers of the terms and formulas
    inside it are, so one induction on the bound ties the knot for terms, another for formulas.

    The loops over operands and over arguments are one and the same: what has been read so far is
    a phrase, and with a sign and one more part it is a longer one (`many_consumes`). -/

namespace PeanoCalculus.Grammar

variable {α β : Type}

/-- A reader, on success, has consumed a text that stands in the relation `P` to the result. -/
def Consumes (P : List Char → α → Prop) (reader : Reader α) : Prop :=
  ∀ ⦃s a rest⦄, reader s = .ok (a, rest) → ∃ w, s = w ++ rest ∧ P w a

/-! ## Compound readers -/

section Compound

variable {P : List Char → α → Prop} {r : Reader α} {more : List (Reader α)}

theorem Consumes.committed (h : Consumes P r) : Consumes P (committed r) :=
  fun _ _ _ hread => h (committed_eq_ok.mp hread)

theorem Consumes.inside (h : Consumes P r) (name : String) : Consumes P (inside name r) :=
  fun _ _ _ hread => h (inside_eq_ok.mp hread)

/-- What a choice consumes, one of its forms does. -/
theorem firstOf_consumes (h : ∀ form ∈ r :: more, Consumes P form) :
    Consumes P (firstOf r more) := by
  intro s a rest hread
  obtain ⟨form, hform, hread⟩ := firstOf_eq_ok hread
  exact h form hform hread

/-- The sign before a part is consumed with it. -/
theorem Consumes.after (h : Consumes P r) (sign : Char) :
    Consumes (fun w a => ∃ u, w = sign :: u ∧ P u a) (do exactly sign; r) := by
  intro s a rest hread
  obtain ⟨_, mid, hsign, hread⟩ := Reader.bind_eq_ok.mp hread
  obtain ⟨w, rfl, hw⟩ := h hread
  exact ⟨sign :: w, exactly_eq_ok.mp hsign, w, rfl, hw⟩

/-- What a repetition consumes makes a longer phrase of what was read before it. -/
theorem many_consumes {item : Reader β} {join : α → β → α} {I : List Char → β → Prop}
    (hitem : Consumes I item) (hjoin : ∀ v w l x, P v l → I w x → P (v ++ w) (join l x))
    {left a : α} {s rest v : List Char} (hv : P v left)
    (hread : many item join left s = .ok (a, rest)) : ∃ w, s = w ++ rest ∧ P (v ++ w) a := by
  refine many_induct (motive := fun left s result => ∀ v a rest, P v left →
    result = .ok (a, rest) → ∃ w, s = w ++ rest ∧ P (v ++ w) a) ?_ ?_ ?_ ?_ left s v a rest hv hread
  · intro left s next mid result hnext _ ih v a rest hv hresult
    obtain ⟨u, rfl, hu⟩ := hitem hnext
    obtain ⟨w, rfl, hw⟩ := ih (v ++ u) a rest (hjoin v u left next hv hu) hresult
    refine ⟨u ++ w, (List.append_assoc ..).symm, ?_⟩
    rw [← List.append_assoc]
    exact hw
  · intro left s next mid _ _ v a rest _ hresult
    cases hresult
  · intro left s trace _ v a rest hv hresult
    cases hresult
    exact ⟨[], rfl, (List.append_nil v).symm ▸ hv⟩
  · intro left s fault _ _ v a rest _ hresult
    cases hresult

end Compound

/-- Operands and the signs between them are consumed as one phrase. -/
theorem joined_consumes {sign : Char} {name : String} {join : Expr → Expr → Expr}
    {operand : Reader Expr} {P Q : List Char → Expr → Prop} (hoperand : Consumes P operand)
    (hlift : ∀ w e, P w e → Q w e)
    (hjoin : ∀ v w l r, Q v l → P w r → Q (v ++ sign :: w) (join l r)) :
    Consumes Q (joined sign name join operand) := by
  intro s e rest hread
  obtain ⟨first, mid, hfirst, hmore⟩ := Reader.bind_eq_ok.mp hread
  obtain ⟨v, rfl, hv⟩ := hoperand hfirst
  obtain ⟨w, rfl, hw⟩ := many_consumes (P := Q) ((hoperand.inside name).committed.after sign)
    (fun v _ l r hl ⟨u, hu, hr⟩ => hu ▸ hjoin v u l r hl hr) (hlift v first hv) hmore
  exact ⟨v ++ w, (List.append_assoc ..).symm, hw⟩

/-! ## Names and parentheses -/

theorem closing_eq_ok {s rest : List Char} : closing s = .ok ((), rest) ↔ s = ')' :: rest :=
  committed_eq_ok.trans (inside_eq_ok.trans exactly_eq_ok)

/-- What is read in parentheses stands between them. -/
theorem enclosed_eq_ok {r : Reader α} {a : α} {s rest : List Char} :
    enclosed r s = .ok (a, rest) ↔ ∃ t, s = '(' :: t ∧ r t = .ok (a, ')' :: rest) := by
  constructor
  · intro hread
    obtain ⟨_, t, hopen, hread⟩ := Reader.bind_eq_ok.mp hread
    obtain ⟨a', mid, hinner, hread⟩ := Reader.bind_eq_ok.mp hread
    obtain ⟨_, end', hclosing, hret⟩ := Reader.bind_eq_ok.mp hread
    obtain ⟨rfl, rfl⟩ := Reader.pure_eq_ok.mp hret
    rw [closing_eq_ok.mp hclosing] at hinner
    exact ⟨t, exactly_eq_ok.mp hopen, committed_eq_ok.mp hinner⟩
  · rintro ⟨t, rfl, hinner⟩
    refine (Reader.bind_of_ok (exactly_cons '(' t)).trans ?_
    refine (Reader.bind_of_ok (committed_eq_ok.mpr hinner)).trans ?_
    exact Reader.bind_of_ok (closing_eq_ok.mpr rfl)

theorem enclosed_consumes {P : List Char → α → Prop} {r : Reader α} (h : Consumes P r) :
    Consumes (fun w a => ∃ u, w = '(' :: (u ++ [')']) ∧ P u a) (enclosed r) := by
  intro s a rest hread
  obtain ⟨t, rfl, hinner⟩ := enclosed_eq_ok.mp hread
  obtain ⟨u, rfl, hu⟩ := h hinner
  refine ⟨'(' :: (u ++ [')']), ?_, u, rfl, hu⟩
  rw [List.cons_append, List.append_assoc]
  rfl

/-- A name is a letter and all the digits that follow it. -/
theorem name_eq_ok {first : Char → Bool} {s rest : List Char} {x : String} :
    name first s = .ok (x, rest) ↔
      isName first x = true ∧ s = x.toList ++ rest ∧ ∀ c ∈ rest.head?, c.isDigit = false := by
  constructor
  · intro hread
    obtain ⟨c, mid, hc, hread⟩ := Reader.bind_eq_ok.mp hread
    obtain ⟨digits, end', hdigits, hret⟩ := Reader.bind_eq_ok.mp hread
    obtain ⟨rfl, rfl⟩ := Reader.pure_eq_ok.mp hret
    obtain ⟨hfirst, rfl⟩ := satisfying_eq_ok.mp hc
    obtain ⟨rfl, rfl⟩ := Prod.mk.inj (Except.ok.inj hdigits)
    refine ⟨isName_ofList hfirst (List.all_eq_true.mp List.all_takeWhile), ?_, ?_⟩
    · rw [String.toList_ofList, List.cons_append, List.takeWhile_append_dropWhile]
    · intro d hd
      have hdrop := List.head?_dropWhile_not Char.isDigit mid
      rw [show (mid.dropWhile Char.isDigit).head? = some d from hd] at hdrop
      exact hdrop
  · rintro ⟨hname, rfl, hrest⟩
    obtain ⟨c, digits, hx, hc, hdigits⟩ := isName_iff.mp hname
    rw [hx, List.cons_append]
    refine (Reader.bind_of_ok (satisfying_eq_ok.mpr ⟨hc, rfl⟩)).trans ?_
    refine (Reader.bind_of_ok (allOf_append hdigits hrest)).trans ?_
    rw [← hx, String.ofList_toList]
    rfl

theorem name_consumes {first : Char → Bool} :
    Consumes (fun w x => w = x.toList) (name first) :=
  fun _ x _ hread => ⟨x.toList, (name_eq_ok.mp hread).2.1, rfl⟩

theorem name_eq_error {first : Char → Bool} {s : List Char} {fault : Fault}
    (h : name first s = .error fault) : fault = .soft [⟨s, .failed .kind⟩] := by
  rcases Reader.bind_eq_error.mp h with hfirst | ⟨_, _, _, hdigits⟩
  · exact satisfying_eq_error hfirst
  · cases hdigits

/-! ## Terms -/

/-- Arguments, without the parentheses around them. -/
theorem separated_consumes {item : Reader Expr} (h : Consumes (TermPhrase .sum) item) :
    Consumes (fun w args => AllArguments (w ++ [')']) args) (separated ',' item) := by
  intro s args rest hread
  obtain ⟨first, mid, hfirst, hmore⟩ := Reader.bind_eq_ok.mp hread
  obtain ⟨v, rfl, hv⟩ := h hfirst
  obtain ⟨w, rfl, hw⟩ := many_consumes (P := fun w args => AllArguments (w ++ [')']) args)
    (h.after ',') (fun v _ l r hl ⟨u, hu, hr⟩ => hu ▸ hl.snoc hr) (allArguments_last hv) hmore
  exact ⟨v ++ w, (List.append_assoc ..).symm, hw⟩

/-- A name is consumed alone or with its arguments. -/
theorem application_consumes {first : Char → Bool} {alone : String → Expr} {inner : Reader Expr}
    {Q : List Char → Expr → Prop} (hinner : Consumes (TermPhrase .sum) inner)
    (halone : ∀ f, isName first f = true → Q f.toList (alone f))
    (happly : ∀ f w args, AllArguments w args → isName first f = true →
      Q (f.toList ++ '(' :: w) (.apply f args)) :
    Consumes Q (application first alone inner) := by
  intro s e rest hread
  obtain ⟨f, mid, hname, hafter⟩ := Reader.bind_eq_ok.mp hread
  obtain ⟨args?, end', hargs, hret⟩ := Reader.bind_eq_ok.mp hafter
  obtain ⟨hf, rfl, -⟩ := name_eq_ok.mp hname
  rcases optional_eq_ok hargs with ⟨args, rfl, henclosed⟩ | ⟨rfl, rfl⟩
  · obtain ⟨rfl, rfl⟩ := Reader.pure_eq_ok.mp hret
    obtain ⟨_, rfl, u, rfl, hu⟩ :=
      enclosed_consumes (separated_consumes (hinner.inside "argument")) henclosed
    exact ⟨f.toList ++ '(' :: (u ++ [')']), (List.append_assoc ..).symm, happly f _ args hu hf⟩
  · obtain ⟨rfl, rfl⟩ := Reader.pure_eq_ok.mp hret
    exact ⟨f.toList, rfl, halone f hf⟩

theorem atom_consumes {inner : Reader Expr} (h : Consumes (TermPhrase .sum) inner) :
    Consumes (TermPhrase .atom) (atom inner) := by
  refine (firstOf_consumes ?_).inside "term"
  intro form hform
  simp only [List.mem_cons, List.not_mem_nil, or_false] at hform
  rcases hform with rfl | rfl | rfl
  · exact application_consumes h (fun _ => .var) (fun _ _ _ => AllArguments.function)
  · intro s e rest hread
    obtain ⟨_, mid, hzero, hret⟩ := Reader.bind_eq_ok.mp hread
    obtain ⟨rfl, rfl⟩ := Reader.pure_eq_ok.mp hret
    exact ⟨['0'], exactly_eq_ok.mp hzero, .zero⟩
  · intro s e rest hread
    obtain ⟨_, rfl, u, rfl, hu⟩ := enclosed_consumes h hread
    exact ⟨_, rfl, .group hu⟩

theorem primedAtom_consumes {inner : Reader Expr} (h : Consumes (TermPhrase .sum) inner) :
    Consumes (TermPhrase .primed) (primedAtom inner) := by
  intro s e rest hread
  obtain ⟨base, mid, hbase, hafter⟩ := Reader.bind_eq_ok.mp hread
  obtain ⟨marks, end', hmarks, hret⟩ := Reader.bind_eq_ok.mp hafter
  obtain ⟨v, rfl, hv⟩ := atom_consumes h hbase
  obtain ⟨rfl, rfl⟩ := Reader.pure_eq_ok.mp hret
  obtain ⟨rfl, rfl⟩ := Prod.mk.inj (Except.ok.inj hmarks)
  refine ⟨v ++ mid.takeWhile isPrime, ?_, .primes hv (List.all_eq_true.mp List.all_takeWhile)⟩
  rw [List.append_assoc, List.takeWhile_append_dropWhile]

theorem product_consumes {inner : Reader Expr} (h : Consumes (TermPhrase .sum) inner) :
    Consumes (TermPhrase .product) (product inner) :=
  joined_consumes (primedAtom_consumes h) (fun _ _ => .primed) (fun _ _ _ _ => .times)

theorem sum_consumes {inner : Reader Expr} (h : Consumes (TermPhrase .sum) inner) :
    Consumes (TermPhrase .sum) (sum inner) :=
  joined_consumes (product_consumes h) (fun _ _ => .product) (fun _ _ _ _ => .plus)

/-- **SOUNDNESS OF READING TERMS**, at every depth. -/
theorem termAt_consumes (n : Nat) : Consumes (TermPhrase .sum) (termAt n) := by
  induction n with
  | zero =>
      intro s e rest hread
      cases hread
  | succ n ih => exact sum_consumes ih

theorem term_consumes : Consumes (TermPhrase .sum) term :=
  fun _ _ _ hread => termAt_consumes _ hread

/-! ## Formulas -/

theorem equation_consumes : Consumes (FormulaPhrase .unary) equation := by
  intro s e rest hread
  obtain ⟨left, mid, hleft, hread⟩ := Reader.bind_eq_ok.mp hread
  obtain ⟨_, mid', hsign, hread⟩ := Reader.bind_eq_ok.mp hread
  obtain ⟨right, end', hright, hret⟩ := Reader.bind_eq_ok.mp hread
  obtain ⟨rfl, rfl⟩ := Reader.pure_eq_ok.mp hret
  obtain ⟨v, rfl, hv⟩ := term_consumes hleft
  obtain rfl := exactly_eq_ok.mp (inside_eq_ok.mp (committed_eq_ok.mp hsign))
  obtain ⟨w, rfl, hw⟩ := (term_consumes.inside _).committed hright
  exact ⟨v ++ '=' :: w, by rw [List.append_assoc, List.cons_append], .equals hv hw⟩

theorem predicate_consumes : Consumes (FormulaPhrase .unary) predicate := by
  refine firstOf_consumes ?_
  intro form hform
  simp only [List.mem_cons, List.not_mem_nil, or_false] at hform
  rcases hform with rfl | rfl
  · exact application_consumes term_consumes (fun _ => .letter)
      (fun _ _ _ => AllArguments.predicate)
  · exact equation_consumes

/-- A formula group that is read is one that does not go on as a term. -/
theorem formulaGroup_eq_ok {whole : Reader Expr} {s : List Char} {x : Expr × List Char}
    (h : formulaGroup whole s = .ok x) : enclosed whole s = .ok x := by
  simp only [formulaGroup] at h
  split at h
  · cases h
  · exact h

/-- The sign of a quantifier is one character. -/
theorem quantifierSign_eq_ok {s rest : List Char} {q : Quantifier} :
    quantifierSign s = .ok (q, rest) ↔ s = q.symbol :: rest := by
  constructor
  · intro hread
    obtain ⟨form, hform, hread⟩ := firstOf_eq_ok hread
    simp only [List.mem_cons, List.not_mem_nil, or_false] at hform
    rcases hform with rfl | rfl <;>
      · obtain ⟨_, mid, hsign, hret⟩ := Reader.bind_eq_ok.mp hread
        obtain ⟨rfl, rfl⟩ := Reader.pure_eq_ok.mp hret
        exact exactly_eq_ok.mp hsign
  · rintro rfl
    cases q <;> rfl

/-- A quantified formula: the sign, the variable with all its digits, and the body. -/
theorem quantified_eq_ok {again : Reader Expr} {s rest : List Char} {e : Expr} :
    quantified again s = .ok (e, rest) ↔ ∃ q x t body, s = q.symbol :: (x.toList ++ t) ∧
      isName Char.isLower x = true ∧ (∀ c ∈ t.head?, c.isDigit = false) ∧
      again t = .ok (body, rest) ∧ e = .quantified q x body := by
  constructor
  · intro hread
    obtain ⟨q, mid, hsign, hread⟩ := Reader.bind_eq_ok.mp hread
    obtain ⟨⟨x, body⟩, end', hbound, hret⟩ := Reader.bind_eq_ok.mp hread
    obtain ⟨rfl, rfl⟩ := Reader.pure_eq_ok.mp hret
    obtain ⟨x', t, hname, hread⟩ := Reader.bind_eq_ok.mp (committed_eq_ok.mp hbound)
    obtain ⟨body', end', hbody, hret⟩ := Reader.bind_eq_ok.mp hread
    obtain ⟨heq, rfl⟩ := Reader.pure_eq_ok.mp hret
    obtain ⟨rfl, rfl⟩ := Prod.mk.inj heq
    obtain ⟨hx, rfl, hdigit⟩ := name_eq_ok.mp (inside_eq_ok.mp hname)
    exact ⟨q, x, t, body, quantifierSign_eq_ok.mp hsign, hx, hdigit, hbody, rfl⟩
  · rintro ⟨q, x, t, body, rfl, hx, hdigit, hbody, rfl⟩
    refine (Reader.bind_of_ok (quantifierSign_eq_ok.mpr rfl)).trans ?_
    have hbound : (do let x ← inside "quantified variable" (name Char.isLower)
                      let body ← again
                      return (x, body) : Reader (String × Expr)) (x.toList ++ t) =
        .ok ((x, body), rest) := by
      refine (Reader.bind_of_ok (inside_eq_ok.mpr (name_eq_ok.mpr ⟨hx, rfl, hdigit⟩))).trans ?_
      exact Reader.bind_of_ok hbody
    exact Reader.bind_of_ok (committed_eq_ok.mpr hbound)

theorem quantified_consumes {again : Reader Expr} (h : Consumes (FormulaPhrase .unary) again) :
    Consumes (FormulaPhrase .unary) (quantified again) := by
  intro s e rest hread
  obtain ⟨q, x, t, body, rfl, hx, hdigit, hbody, rfl⟩ := quantified_eq_ok.mp hread
  obtain ⟨w, rfl, hw⟩ := h hbody
  refine ⟨q.symbol :: (x.toList ++ w), ?_, .quantified hx ?_ hw⟩
  · rw [List.cons_append, List.append_assoc]
  · intro c hc
    refine hdigit c ?_
    cases w with
    | nil => cases hc
    | cons d w => exact hc

theorem negation_consumes {again : Reader Expr} (h : Consumes (FormulaPhrase .unary) again) :
    Consumes (FormulaPhrase .unary) (negation again) := by
  intro s e rest hread
  obtain ⟨_, mid, hsign, hread⟩ := Reader.bind_eq_ok.mp hread
  obtain ⟨body, end', hbody, hret⟩ := Reader.bind_eq_ok.mp hread
  obtain ⟨rfl, rfl⟩ := Reader.pure_eq_ok.mp hret
  obtain ⟨w, rfl, hw⟩ := h.committed hbody
  exact ⟨'!' :: w, exactly_eq_ok.mp hsign, .negation hw⟩

theorem unary_consumes {again whole : Reader Expr}
    (hagain : Consumes (FormulaPhrase .unary) again)
    (hwhole : Consumes (FormulaPhrase .implication) whole) :
    Consumes (FormulaPhrase .unary) (unary again whole) := by
  refine (firstOf_consumes ?_).inside "formula"
  intro form hform
  simp only [List.mem_cons, List.not_mem_nil, or_false] at hform
  rcases hform with rfl | rfl | rfl | rfl
  · exact negation_consumes hagain
  · exact quantified_consumes hagain
  · intro s e rest hread
    obtain ⟨_, rfl, u, rfl, hu⟩ := enclosed_consumes hwhole (formulaGroup_eq_ok hread)
    exact ⟨_, rfl, .group hu⟩
  · exact predicate_consumes

theorem conjunction_consumes {unaryFormula : Reader Expr}
    (h : Consumes (FormulaPhrase .unary) unaryFormula) :
    Consumes (FormulaPhrase .conjunction) (conjunction unaryFormula) :=
  joined_consumes h (fun _ _ => .unary) (fun _ _ _ _ => .and)

theorem disjunction_consumes {unaryFormula : Reader Expr}
    (h : Consumes (FormulaPhrase .unary) unaryFormula) :
    Consumes (FormulaPhrase .disjunction) (disjunction unaryFormula) :=
  joined_consumes (conjunction_consumes h) (fun _ _ => .conjunction) (fun _ _ _ _ => .or)

theorem implication_consumes {unaryFormula whole : Reader Expr}
    (hunary : Consumes (FormulaPhrase .unary) unaryFormula)
    (hwhole : Consumes (FormulaPhrase .implication) whole) :
    Consumes (FormulaPhrase .implication) (implication unaryFormula whole) := by
  intro s e rest hread
  obtain ⟨left, mid, hleft, hafter⟩ := Reader.bind_eq_ok.mp hread
  obtain ⟨right?, end', hright, hret⟩ := Reader.bind_eq_ok.mp hafter
  obtain ⟨v, rfl, hv⟩ := disjunction_consumes hunary hleft
  rcases optional_eq_ok hright with ⟨right, rfl, harrowed⟩ | ⟨rfl, rfl⟩
  · obtain ⟨rfl, rfl⟩ := Reader.pure_eq_ok.mp hret
    obtain ⟨_, mid', harrow, hwholeRead⟩ := Reader.bind_eq_ok.mp harrowed
    obtain rfl := spelled_eq_ok.mp harrow
    obtain ⟨w, rfl, hw⟩ := (hwhole.inside _).committed hwholeRead
    refine ⟨v ++ '-' :: '>' :: w, ?_, .implies hv hw⟩
    rw [List.append_assoc, List.cons_append, List.cons_append]
    rfl
  · obtain ⟨rfl, rfl⟩ := Reader.pure_eq_ok.mp hret
    exact ⟨v, rfl, .disjunction hv⟩

/-- **SOUNDNESS OF READING FORMULAS**, at every depth. -/
theorem formulaAt_consumes (n : Nat) : Consumes (FormulaPhrase .unary) (unaryAt n) ∧
    Consumes (FormulaPhrase .implication) (formulaAt n) := by
  induction n with
  | zero =>
      constructor <;>
        · intro s e rest hread
          cases hread
  | succ n ih => exact ⟨unary_consumes ih.1 ih.2, implication_consumes ih.1 ih.2⟩

theorem formula_consumes : Consumes (FormulaPhrase .implication) formula :=
  fun _ _ _ hread => (formulaAt_consumes _).2 hread

/-! ## Whole texts -/

/-- A reader that has to take a whole text succeeds on phrases only. -/
theorem readAll_eq_ok {P : List Char → Expr → Prop} {reader : Reader Expr}
    (hreader : Consumes P reader) {text : String} {e : Expr} (h : readAll reader text = .ok e) :
    P (Text.squeeze text.toList) e := by
  simp only [readAll] at h
  split at h
  · next e' hread =>
      cases h
      obtain ⟨w, hw, hP⟩ := hreader hread
      rw [hw, List.append_nil]
      exact hP
  · cases h
  · cases h

/-- An accepted formula text is a phrase. -/
theorem formulaPhrase_of_parse {text : String} {e : Expr} (h : parseFormula text = .ok e) :
    FormulaPhrase .implication (Text.squeeze text.toList) e :=
  readAll_eq_ok formula_consumes h

/-- An accepted term text is a phrase. -/
theorem termPhrase_of_parse {text : String} {e : Expr} (h : parseTerm text = .ok e) :
    TermPhrase .sum (Text.squeeze text.toList) e :=
  readAll_eq_ok term_consumes h

/-- What is read as a formula is a well-formed formula. -/
theorem isFormula_of_parse {text : String} {e : Expr} (h : parseFormula text = .ok e) :
    e.IsFormula :=
  (formulaPhrase_of_parse h).isFormula

end PeanoCalculus.Grammar
