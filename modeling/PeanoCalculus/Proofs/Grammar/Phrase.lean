import PeanoCalculus.Expr.Printer
import PeanoCalculus.Grammar.Formula
import PeanoCalculus.Proofs.Expr.WellFormed
import PeanoCalculus.Proofs.Text.Balanced

/-! # The grammar as a relation

    The rules of the grammar, one constructor a rule, without saying how a text is searched for
    them.  `TermPhrase level s e` and `FormulaPhrase level s e` say that the whole of `s` is a
    phrase of the given level and that `e` is its tree.  Left-recursive rules build trees that
    lean left, and the primes after an atom are counted together with those inside it.

    Only one rule looks at its surroundings: the body of a quantifier does not begin with a digit,
    since a name takes all the digits that follow it.

    Here are the facts about phrases that do not depend on how they are read: their trees are
    well-formed, their texts are balanced, and their first characters tell terms apart. -/

namespace PeanoCalculus.Grammar

open PeanoCalculus.Text

/-! ## Terms -/

/-- The levels of a term, loosest first. -/
inductive TermLevel where
  | sum
  | product
  | primed
  | atom

/-- Further arguments, each after a comma, and the closing parenthesis. -/
def argumentsText : List (List Char) → List Char
  | [] => [')']
  | s :: more => ',' :: (s ++ argumentsText more)

/-- The text is a term of the given level with the given tree. -/
inductive TermPhrase : TermLevel → List Char → Expr → Prop where
  | plus {s t : List Char} {l r : Expr} : TermPhrase .sum s l → TermPhrase .product t r →
      TermPhrase .sum (s ++ '+' :: t) (.plus l r)
  | product {s : List Char} {e : Expr} : TermPhrase .product s e → TermPhrase .sum s e
  | times {s t : List Char} {l r : Expr} : TermPhrase .product s l → TermPhrase .primed t r →
      TermPhrase .product (s ++ '*' :: t) (.times l r)
  | primed {s : List Char} {e : Expr} : TermPhrase .primed s e → TermPhrase .product s e
  | primes {s marks : List Char} {e : Expr} : TermPhrase .atom s e →
      (∀ c ∈ marks, isPrime c = true) → TermPhrase .primed (s ++ marks) (e.primed marks.length)
  | zero : TermPhrase .atom ['0'] .zero
  | group {s : List Char} {e : Expr} : TermPhrase .sum s e →
      TermPhrase .atom ('(' :: (s ++ [')'])) e
  | var {x : String} : isName Char.isLower x = true → TermPhrase .atom x.toList (.var x)
  | apply {f : String} {s : List Char} {a : Expr} {more : List (List Char × Expr)} :
      isName Char.isLower f = true → TermPhrase .sum s a →
      (∀ part ∈ more, TermPhrase .sum part.1 part.2) →
      TermPhrase .atom (f.toList ++ '(' :: (s ++ argumentsText (more.map Prod.fst)))
        (.apply f (a :: more.map Prod.snd))

/-! ## Formulas -/

/-- The levels of a formula, loosest first. -/
inductive FormulaLevel where
  | implication
  | disjunction
  | conjunction
  | unary

/-- The text is a formula of the given level with the given tree. -/
inductive FormulaPhrase : FormulaLevel → List Char → Expr → Prop where
  | implies {s t : List Char} {l r : Expr} : FormulaPhrase .disjunction s l →
      FormulaPhrase .implication t r →
      FormulaPhrase .implication (s ++ '-' :: '>' :: t) (.implies l r)
  | disjunction {s : List Char} {e : Expr} : FormulaPhrase .disjunction s e →
      FormulaPhrase .implication s e
  | or {s t : List Char} {l r : Expr} : FormulaPhrase .disjunction s l →
      FormulaPhrase .conjunction t r → FormulaPhrase .disjunction (s ++ '|' :: t) (.or l r)
  | conjunction {s : List Char} {e : Expr} : FormulaPhrase .conjunction s e →
      FormulaPhrase .disjunction s e
  | and {s t : List Char} {l r : Expr} : FormulaPhrase .conjunction s l →
      FormulaPhrase .unary t r → FormulaPhrase .conjunction (s ++ '&' :: t) (.and l r)
  | unary {s : List Char} {e : Expr} : FormulaPhrase .unary s e → FormulaPhrase .conjunction s e
  | negation {s : List Char} {e : Expr} : FormulaPhrase .unary s e →
      FormulaPhrase .unary ('!' :: s) (.negation e)
  | quantified {q : Quantifier} {x : String} {s : List Char} {e : Expr} :
      isName Char.isLower x = true → (∀ c ∈ s.head?, c.isDigit = false) →
      FormulaPhrase .unary s e →
      FormulaPhrase .unary (q.symbol :: (x.toList ++ s)) (.quantified q x e)
  | group {s : List Char} {e : Expr} : FormulaPhrase .implication s e →
      FormulaPhrase .unary ('(' :: (s ++ [')'])) e
  | letter {p : String} : isName Char.isUpper p = true →
      FormulaPhrase .unary p.toList (.letter p)
  | apply {p : String} {s : List Char} {a : Expr} {more : List (List Char × Expr)} :
      isName Char.isUpper p = true → TermPhrase .sum s a →
      (∀ part ∈ more, TermPhrase .sum part.1 part.2) →
      FormulaPhrase .unary (p.toList ++ '(' :: (s ++ argumentsText (more.map Prod.fst)))
        (.apply p (a :: more.map Prod.snd))
  | equals {s t : List Char} {l r : Expr} : TermPhrase .sum s l → TermPhrase .sum t r →
      FormulaPhrase .unary (s ++ '=' :: t) (.equals l r)

/-! ## Arguments -/

/-- The text of all arguments, up to the closing parenthesis, and their trees. -/
def AllArguments (w : List Char) (args : List Expr) : Prop :=
  ∃ s a, ∃ more : List (List Char × Expr), TermPhrase .sum s a ∧
    (∀ part ∈ more, TermPhrase .sum part.1 part.2) ∧
    w = s ++ argumentsText (more.map Prod.fst) ∧ args = a :: more.map Prod.snd

theorem allArguments_last {s : List Char} {a : Expr} (ha : TermPhrase .sum s a) :
    AllArguments (s ++ [')']) [a] :=
  ⟨s, a, [], ha, List.forall_mem_nil _, rfl, rfl⟩

/-- One more argument goes between the others and the closing parenthesis. -/
theorem argumentsText_snoc {v s t : List Char} {texts : List (List Char)}
    (h : v ++ [')'] = s ++ argumentsText texts) :
    v ++ ',' :: t ++ [')'] = s ++ argumentsText (texts ++ [t]) := by
  induction texts generalizing s with
  | nil =>
      rw [List.append_cancel_right h, List.append_assoc]
      rfl
  | cons u texts ih =>
      have := ih (s := s ++ ',' :: u) (by rw [h, List.append_assoc]; rfl)
      rw [this, List.append_assoc]
      rfl

theorem AllArguments.snoc {v w : List Char} {args : List Expr} {a : Expr}
    (h : AllArguments (v ++ [')']) args) (ha : TermPhrase .sum w a) :
    AllArguments (v ++ ',' :: w ++ [')']) (args ++ [a]) := by
  obtain ⟨s, b, more, hb, hmore, htext, rfl⟩ := h
  refine ⟨s, b, more ++ [(w, a)], hb, ?_, ?_, ?_⟩
  · intro part hpart
    rcases List.mem_append.mp hpart with hpart | hpart
    · exact hmore part hpart
    · rw [List.mem_singleton.mp hpart]
      exact ha
  · rw [List.map_append]
    exact argumentsText_snoc htext
  · rw [List.map_append]
    rfl

/-- A function with its arguments. -/
theorem AllArguments.function {f : String} {w : List Char} {args : List Expr}
    (h : AllArguments w args) (hf : isName Char.isLower f = true) :
    TermPhrase .atom (f.toList ++ '(' :: w) (.apply f args) := by
  obtain ⟨s, a, more, ha, hmore, rfl, rfl⟩ := h
  exact .apply hf ha hmore

/-- A predicate with its arguments. -/
theorem AllArguments.predicate {p : String} {w : List Char} {args : List Expr}
    (h : AllArguments w args) (hp : isName Char.isUpper p = true) :
    FormulaPhrase .unary (p.toList ++ '(' :: w) (.apply p args) := by
  obtain ⟨s, a, more, ha, hmore, rfl, rfl⟩ := h
  exact .apply hp ha hmore

/-! ## The trees of phrases -/

variable {s : List Char} {e : Expr}

/-- The arguments of a phrase are well-formed when each part of it is. -/
theorem isTerm_arguments {a : Expr} {more : List (List Char × Expr)} (ha : a.IsTerm)
    (hmore : ∀ part ∈ more, part.2.IsTerm) : ∀ b ∈ a :: more.map Prod.snd, b.IsTerm := by
  intro b hb
  rcases List.mem_cons.mp hb with rfl | hb
  · exact ha
  · obtain ⟨part, hpart, rfl⟩ := List.mem_map.mp hb
    exact hmore part hpart

/-- The tree of a term phrase is a well-formed term. -/
theorem TermPhrase.isTerm {level : TermLevel} (h : TermPhrase level s e) : e.IsTerm := by
  induction h with
  | plus _ _ ihl ihr => exact .plus ihl ihr
  | product _ ih => exact ih
  | times _ _ ihl ihr => exact .times ihl ihr
  | primed _ ih => exact ih
  | primes _ _ ih => exact ih.primed _
  | zero => exact .zero
  | group _ ih => exact ih
  | var hx => exact .var hx
  | apply hf _ _ iha ihmore =>
      exact .apply hf (List.cons_ne_nil _ _) (isTerm_arguments iha ihmore)

/-- The tree of a formula phrase is a well-formed formula. -/
theorem FormulaPhrase.isFormula {level : FormulaLevel} (h : FormulaPhrase level s e) :
    e.IsFormula := by
  induction h with
  | implies _ _ ihl ihr => exact .implies ihl ihr
  | disjunction _ ih => exact ih
  | or _ _ ihl ihr => exact .or ihl ihr
  | conjunction _ ih => exact ih
  | and _ _ ihl ihr => exact .and ihl ihr
  | unary _ ih => exact ih
  | negation _ ih => exact .negation ih
  | quantified hx _ _ ih => exact .quantified hx ih
  | group _ ih => exact ih
  | letter hp => exact .letter hp
  | apply hp ha hmore =>
      exact .apply hp (isTerm_arguments ha.isTerm (fun part hpart => (hmore part hpart).isTerm))
  | equals hl hr => exact .equals hl.isTerm hr.isTerm

/-! ## The texts of phrases -/

/-- Names are made of letters and digits. -/
theorem isAlphanum_of_isName {first : Char → Bool}
    (hfirst : ∀ c, first c = true → c.isAlpha = true) {name : String}
    (h : isName first name = true) : ∀ c ∈ name.toList, c.isAlphanum = true := by
  obtain ⟨c, digits, hname, hc, hdigits⟩ := isName_iff.mp h
  rw [hname]
  intro d hd
  rcases List.mem_cons.mp hd with rfl | hd
  · exact Bool.or_eq_true_iff.mpr (.inl (hfirst _ hc))
  · exact Bool.or_eq_true_iff.mpr (.inr (hdigits d hd))

/-- Names are plain. -/
theorem isPlain_of_isName {first : Char → Bool} (hfirst : ∀ c, first c = true → c.isAlpha = true)
    {name : String} (h : isName first name = true) : ∀ c ∈ name.toList, isPlain c = true :=
  fun c hc => isPlain_of_isAlphanum (isAlphanum_of_isName hfirst h c hc)

theorem isAlpha_of_isLower (c : Char) (h : c.isLower = true) : c.isAlpha = true :=
  Bool.or_eq_true_iff.mpr (.inr h)

theorem isAlpha_of_isUpper (c : Char) (h : c.isUpper = true) : c.isAlpha = true :=
  Bool.or_eq_true_iff.mpr (.inl h)

theorem eq_of_isPrime {c : Char} (h : isPrime c = true) : c = '\'' ∨ c = '’' := by
  rcases Bool.or_eq_true_iff.mp h with heq | heq
  · exact .inl (eq_of_beq heq)
  · exact .inr (eq_of_beq heq)

/-- A list of arguments is balanced but for the parenthesis that closes it. -/
theorem exists_balanced_arguments {more : List (List Char)} (hs : Balanced true s)
    (hmore : ∀ t ∈ more, Balanced true t) :
    ∃ inner, s ++ argumentsText more = inner ++ [')'] ∧ Balanced true inner := by
  induction more generalizing s with
  | nil => exact ⟨s, rfl, hs⟩
  | cons t more ih =>
      obtain ⟨ht, hmore⟩ := List.forall_mem_cons.mp hmore
      obtain ⟨inner, heq, hinner⟩ := ih (hs.append (.comma ht)) hmore
      rw [List.append_assoc, List.cons_append] at heq
      exact ⟨inner, heq, hinner⟩

/-- With the name before it, it is balanced anywhere. -/
theorem balanced_arguments {inside : Bool} {name : List Char} {more : List (List Char)}
    (hname : ∀ c ∈ name, isPlain c = true) (hs : Balanced true s)
    (hmore : ∀ t ∈ more, Balanced true t) :
    Balanced inside (name ++ '(' :: (s ++ argumentsText more)) := by
  obtain ⟨inner, heq, hinner⟩ := exists_balanced_arguments hs hmore
  rw [heq]
  exact (Balanced.of_plain hname).append hinner.parenthesized

/-- The text of a term phrase is balanced. -/
theorem TermPhrase.balanced {level : TermLevel} (h : TermPhrase level s e) (inside : Bool) :
    Balanced inside s := by
  induction h generalizing inside with
  | plus _ _ ihl ihr => exact (ihl inside).append (.plain (by decide) (ihr inside))
  | product _ ih => exact ih inside
  | times _ _ ihl ihr => exact (ihl inside).append (.plain (by decide) (ihr inside))
  | primed _ ih => exact ih inside
  | @primes _ marks _ _ hmarks ih =>
      refine (ih inside).append (.of_plain ?_)
      intro c hc
      rcases eq_of_isPrime (hmarks c hc) with rfl | rfl <;> decide
  | zero => exact .plain (by decide) .nil
  | group _ ih => exact (ih true).parenthesized
  | var hx => exact .of_plain (isPlain_of_isName isAlpha_of_isLower hx)
  | apply hf _ _ iha ihmore =>
      refine balanced_arguments (isPlain_of_isName isAlpha_of_isLower hf) (iha true) ?_
      intro t ht
      obtain ⟨part, hpart, rfl⟩ := List.mem_map.mp ht
      exact ihmore part hpart true

/-- The text of a formula phrase is balanced. -/
theorem FormulaPhrase.balanced {level : FormulaLevel} (h : FormulaPhrase level s e)
    (inside : Bool) : Balanced inside s := by
  induction h generalizing inside with
  | implies _ _ ihl ihr =>
      exact (ihl inside).append (.plain (by decide) (.plain (by decide) (ihr inside)))
  | disjunction _ ih => exact ih inside
  | or _ _ ihl ihr => exact (ihl inside).append (.plain (by decide) (ihr inside))
  | conjunction _ ih => exact ih inside
  | and _ _ ihl ihr => exact (ihl inside).append (.plain (by decide) (ihr inside))
  | unary _ ih => exact ih inside
  | negation _ ih => exact .plain (by decide) (ih inside)
  | @quantified q x _ _ hx _ _ ih =>
      have hsign : isPlain q.symbol = true := by cases q <;> decide
      exact .plain hsign ((Balanced.of_plain (isPlain_of_isName isAlpha_of_isLower hx)).append
        (ih inside))
  | group _ ih => exact (ih true).parenthesized
  | letter hp => exact .of_plain (isPlain_of_isName isAlpha_of_isUpper hp)
  | apply hp ha hmore =>
      refine balanced_arguments (isPlain_of_isName isAlpha_of_isUpper hp) (ha.balanced true) ?_
      intro t ht
      obtain ⟨part, hpart, rfl⟩ := List.mem_map.mp ht
      exact (hmore part hpart).balanced true
  | equals hl hr => exact (hl.balanced inside).append (.plain (by decide) (hr.balanced inside))

/-- A term can begin with this text. -/
def startsTerm : List Char → Bool
  | c :: _ => c.isLower || c == '0' || c == '('
  | [] => false

/-- What starts like a term still does with more text behind it. -/
theorem startsTerm_append (h : startsTerm s = true) (t : List Char) :
    startsTerm (s ++ t) = true := by
  cases s with
  | nil => cases h
  | cons c s => exact h

/-- A term phrase starts as a term does. -/
theorem TermPhrase.startsTerm {level : TermLevel} (h : TermPhrase level s e) :
    startsTerm s = true := by
  induction h with
  | plus _ _ ihl _ => exact startsTerm_append ihl _
  | product _ ih => exact ih
  | times _ _ ihl _ => exact startsTerm_append ihl _
  | primed _ ih => exact ih
  | primes _ _ ih => exact startsTerm_append ih _
  | zero => rfl
  | group _ _ => rfl
  | var hx =>
      obtain ⟨c, digits, hname, hc, -⟩ := isName_iff.mp hx
      rw [hname]
      unfold Grammar.startsTerm
      simp only [hc, Bool.true_or]
  | apply hf _ _ _ _ =>
      obtain ⟨c, digits, hname, hc, -⟩ := isName_iff.mp hf
      rw [hname]
      unfold Grammar.startsTerm
      simp only [List.cons_append, hc, Bool.true_or]

end PeanoCalculus.Grammar
