import PeanoCalculus.Proofs.Grammar.Soundness

/-! # What the readers find

    Every phrase is read, and read as the tree it has.  A reader stops at the end of a phrase only
    if what follows cannot continue it, so each level comes with the characters that may follow
    its phrases.  The tighter the level, the more of them there are: a sign that ends a product
    leaves a sum open.

    The bound on the depth has to last for the phrase, not for the text behind it.  A term inside
    another is shorter than it by two parentheses; a formula inside another is shorter by at least
    one sign, and two levels lie between them.

    A sum does not know that it is complete before its loop has stopped.  What is shown of it is
    therefore that reading it leads to the loop with the whole phrase as left operand
    (`RunsInto`), and only then, by what follows, that it ends there. -/

namespace PeanoCalculus.Grammar

open PeanoCalculus.Text

/-! ## What may follow a phrase -/

/-- The characters that may follow a term of the given level. -/
def TermLevel.followers : TermLevel → List Char
  | .sum => ['=', ',', ')', '-', '|', '&']
  | .product => ['+', '=', ',', ')', '-', '|', '&']
  | .primed => ['*', '+', '=', ',', ')', '-', '|', '&']
  | .atom => ['\'', '’', '*', '+', '=', ',', ')', '-', '|', '&']

/-- The characters that may follow a formula of the given level. -/
def FormulaLevel.followers : FormulaLevel → List Char
  | .implication => [')']
  | .disjunction => ['-', ')']
  | .conjunction => ['|', '-', ')']
  | .unary => ['&', '|', '-', ')']

/-- A text that is empty or begins with one of the given characters. -/
def BeginsIn (signs rest : List Char) : Prop :=
  ∀ c ∈ rest.head?, c ∈ signs

theorem beginsIn_nil (signs : List Char) : BeginsIn signs [] := by
  intro c hc
  exact nomatch hc

theorem beginsIn_cons {signs : List Char} {c : Char} (hc : c ∈ signs) (rest : List Char) :
    BeginsIn signs (c :: rest) :=
  forall_head_cons hc rest

theorem BeginsIn.mono {signs signs' rest : List Char} (h : BeginsIn signs rest)
    (hsub : signs ⊆ signs') : BeginsIn signs' rest := by
  intro c hc
  exact hsub (h c hc)

/-- What is checked of all the signs holds of the one that a text begins with. -/
theorem BeginsIn.head {signs rest : List Char} {P : Char → Prop} [DecidablePred P]
    (h : BeginsIn signs rest) (hsigns : signs.all (P ·) = true) : ∀ c ∈ rest.head?, P c := by
  intro c hc
  exact of_decide_eq_true (List.all_eq_true.mp hsigns c (h c hc))

/-! ## Reading a phrase, and reading up to a loop -/

/-- The reader takes exactly the text `w`, as the tree `e`, whenever one of the signs follows. -/
def Reads (reader : Reader Expr) (signs w : List Char) (e : Expr) : Prop :=
  ∀ rest, BeginsIn signs rest → reader (w ++ rest) = .ok (e, rest)

theorem Reads.inside {reader : Reader Expr} {signs w : List Char} {e : Expr}
    (h : Reads reader signs w e) (name : String) : Reads (inside name reader) signs w e :=
  fun rest hrest => inside_eq_ok.mpr (h rest hrest)

/-- Reading `w` ends in the loop over operands with `e` as left operand. -/
def RunsInto (sign : Char) (name : String) (join : Expr → Expr → Expr) (operand : Reader Expr)
    (signs w : List Char) (e : Expr) : Prop :=
  ∀ rest, BeginsIn signs rest →
    joined sign name join operand (w ++ rest) = many (further sign name operand) join e rest

section Loop

variable {sign : Char} {name : String} {join : Expr → Expr → Expr} {operand : Reader Expr}
variable {signs v w : List Char} {e l r : Expr}

/-- A single operand leads to the loop. -/
theorem runsInto_operand (h : Reads operand signs w e) :
    RunsInto sign name join operand signs w e :=
  fun rest hrest => Reader.bind_of_ok (h rest hrest)

/-- One more operand goes once more through the loop. -/
theorem RunsInto.step (hl : RunsInto sign name join operand signs v l)
    (hr : Reads operand signs w r) (hsign : sign ∈ signs) :
    RunsInto sign name join operand signs (v ++ sign :: w) (join l r) := by
  intro rest hrest
  have hnext : further sign name operand (sign :: (w ++ rest)) = .ok (r, rest) :=
    (Reader.bind_of_ok (exactly_cons sign _)).trans
      (committed_eq_ok.mpr (hr.inside name rest hrest))
  rw [List.append_assoc, List.cons_append, hl _ (beginsIn_cons hsign _)]
  refine many_of_ok hnext ?_ l
  rw [List.length_cons, List.length_append]
  omega

/-- Where the sign of the loop does not follow, the phrase is read. -/
theorem RunsInto.reads {signs' : List Char} (h : RunsInto sign name join operand signs w e)
    (hsub : signs' ⊆ signs) (hsign : sign ∉ signs') :
    Reads (joined sign name join operand) signs' w e := by
  intro rest hrest
  rw [h rest (hrest.mono hsub)]
  refine many_of_soft (Reader.bind_of_error (exactly_eq_error.mpr ⟨?_, rfl⟩)) e
  intro hhead
  exact hsign (hrest sign hhead)

end Loop

/-! ## Names and arguments -/

/-- An argument is followed by a comma or by the closing parenthesis. -/
theorem beginsIn_argumentsText (more : List (List Char × Expr)) (rest : List Char) :
    BeginsIn TermLevel.sum.followers (argumentsText (more.map Prod.fst) ++ rest) := by
  cases more with
  | nil => exact beginsIn_cons (by decide) _
  | cons part more => exact beginsIn_cons (by decide) _

/-- An argument is shorter than the list it stands in. -/
theorem length_lt_argumentsText {t : List Char} {texts : List (List Char)} (h : t ∈ texts) :
    t.length < (argumentsText texts).length := by
  induction texts with
  | nil => cases h
  | cons u texts ih =>
      rw [argumentsText, List.length_cons, List.length_append]
      rcases List.mem_cons.mp h with rfl | h
      · omega
      · have := ih h
        omega

section Arguments

variable {item inner : Reader Expr} {s : List Char} {a : Expr} {more : List (List Char × Expr)}

/-- The further arguments are read up to the closing parenthesis. -/
theorem many_arguments_reads
    (hmore : ∀ part ∈ more, Reads item TermLevel.sum.followers part.1 part.2) (args : List Expr)
    (rest : List Char) :
    many (do exactly ','; item) (fun items next => items ++ [next]) args
      (argumentsText (more.map Prod.fst) ++ rest) =
      .ok (args ++ more.map Prod.snd, ')' :: rest) := by
  induction more generalizing args with
  | nil =>
      rw [List.map_nil, List.map_nil, List.append_nil]
      have hclosed : exactly ',' (')' :: rest) = .error (.soft [⟨')' :: rest, .missing ','⟩]) :=
        exactly_eq_error.mpr ⟨by simp, rfl⟩
      exact many_of_soft (Reader.bind_of_error hclosed) args
  | cons part more ih =>
      obtain ⟨hpart, hmore⟩ := List.forall_mem_cons.mp hmore
      simp only [List.map_cons, argumentsText, List.cons_append, List.append_assoc]
      have hnext := (Reader.bind_of_ok (f := fun _ => item) (exactly_cons ',' _)).trans
        (hpart _ (beginsIn_argumentsText more rest))
      rw [many_of_ok hnext (by simp only [List.length_cons, List.length_append]; omega), ih hmore,
        List.append_assoc]
      rfl

/-- All arguments are read up to the closing parenthesis. -/
theorem separated_reads (hs : Reads item TermLevel.sum.followers s a)
    (hmore : ∀ part ∈ more, Reads item TermLevel.sum.followers part.1 part.2)
    (rest : List Char) :
    separated ',' item (s ++ argumentsText (more.map Prod.fst) ++ rest) =
      .ok (a :: more.map Prod.snd, ')' :: rest) := by
  rw [List.append_assoc]
  exact (Reader.bind_of_ok (hs _ (beginsIn_argumentsText more rest))).trans
    (many_arguments_reads hmore [a] rest)

/-- Without an opening parenthesis there is nothing to read in parentheses. -/
theorem enclosed_of_ne {α : Type} {reader : Reader α} (h : s.head? ≠ some '(') :
    enclosed reader s = .error (.soft [⟨s, .missing '('⟩]) :=
  Reader.bind_of_error (exactly_eq_error.mpr ⟨h, rfl⟩)

variable {first : Char → Bool} {alone : String → Expr} {f : String}

/-- A name without an opening parenthesis behind it stands alone. -/
theorem application_alone (hf : isName first f = true) {rest : List Char}
    (hdigit : ∀ c ∈ rest.head?, c.isDigit = false) (hopen : rest.head? ≠ some '(') :
    application first alone inner (f.toList ++ rest) = .ok (alone f, rest) :=
  (Reader.bind_of_ok (name_eq_ok.mpr ⟨hf, rfl, hdigit⟩)).trans
    (Reader.bind_of_ok (optional_of_soft (enclosed_of_ne hopen)))

/-- A name with an opening parenthesis behind it has arguments. -/
theorem application_reads (hf : isName first f = true)
    (hs : Reads inner TermLevel.sum.followers s a)
    (hmore : ∀ part ∈ more, Reads inner TermLevel.sum.followers part.1 part.2)
    (rest : List Char) :
    application first alone inner
      (f.toList ++ '(' :: (s ++ argumentsText (more.map Prod.fst)) ++ rest) =
        .ok (.apply f (a :: more.map Prod.snd), rest) := by
  have hdigit : ∀ c ∈ ('(' :: (s ++ argumentsText (more.map Prod.fst)) ++ rest).head?,
      c.isDigit = false := forall_head_cons (by decide) _
  have hargs := separated_reads (hs.inside "argument")
    (fun part hpart => (hmore part hpart).inside "argument") rest
  rw [List.append_assoc]
  refine (Reader.bind_of_ok (name_eq_ok.mpr ⟨hf, rfl, hdigit⟩)).trans ?_
  exact Reader.bind_of_ok (optional_of_ok (enclosed_eq_ok.mpr ⟨_, rfl, hargs⟩))

/-- What does not begin with a letter of the kind is no name, with arguments or without. -/
theorem application_of_not (h : ∀ c ∈ s.head?, first c = false) :
    application first alone inner s = .error (.soft [⟨s, .failed .kind⟩]) :=
  Reader.bind_of_error (Reader.bind_of_error (satisfying_of_not h))

end Arguments

/-! ## Terms -/

/-- How a term phrase of each level is read. -/
def FoundTerm (inner : Reader Expr) : TermLevel → List Char → Expr → Prop
  | .sum => RunsInto '+' "term after '+'" .plus (product inner) TermLevel.product.followers
  | .product => RunsInto '*' "term after '*'" .times (primedAtom inner) TermLevel.primed.followers
  | .primed => Reads (primedAtom inner) TermLevel.primed.followers
  | .atom => Reads (atom inner) TermLevel.atom.followers

section Terms

variable {inner : Reader Expr} {w : List Char} {e : Expr}

theorem FoundTerm.reads_sum (h : FoundTerm inner .sum w e) :
    Reads (sum inner) TermLevel.sum.followers w e :=
  RunsInto.reads h (by decide) (by decide)

theorem FoundTerm.reads_product (h : FoundTerm inner .product w e) :
    Reads (product inner) TermLevel.product.followers w e :=
  RunsInto.reads h (by decide) (by decide)

theorem TermPhrase.ne_nil {level : TermLevel} (h : TermPhrase level w e) : w ≠ [] := by
  intro heq
  have := h.startsTerm
  rw [heq] at this
  cases this

theorem reads_zero : Reads (atom inner) TermLevel.atom.followers ['0'] .zero := by
  intro rest _
  refine inside_eq_ok.mpr ?_
  refine (firstOf_of_soft (application_of_not ?_)).trans (firstOf_of_ok rfl)
  exact forall_head_cons (by decide) rest

theorem reads_group (h : Reads inner TermLevel.sum.followers w e) :
    Reads (atom inner) TermLevel.atom.followers ('(' :: (w ++ [')'])) e := by
  intro rest _
  have hinner := h (')' :: rest) (beginsIn_cons (by decide) _)
  rw [List.cons_append, List.append_assoc]
  refine inside_eq_ok.mpr ((firstOf_of_soft (application_of_not ?_)).trans ?_)
  · exact forall_head_cons (by decide) _
  · have hzero : exactly '0' ('(' :: (w ++ ')' :: rest)) = .error (.soft [⟨_, .missing '0'⟩]) := rfl
    exact (firstOf_of_soft (Reader.bind_of_error hzero)).trans
      (firstOf_of_ok (enclosed_eq_ok.mpr ⟨_, rfl, hinner⟩))

theorem reads_primes {marks : List Char} (h : Reads (atom inner) TermLevel.atom.followers w e)
    (hmarks : ∀ c ∈ marks, isPrime c = true) :
    Reads (primedAtom inner) TermLevel.primed.followers (w ++ marks) (e.primed marks.length) := by
  intro rest hrest
  have hfollow : BeginsIn TermLevel.atom.followers (marks ++ rest) := by
    cases marks with
    | nil => exact hrest.head (by decide)
    | cons c marks =>
        refine beginsIn_cons ?_ _
        rcases eq_of_isPrime (hmarks c (List.mem_cons_self ..)) with rfl | rfl <;> decide
  rw [List.append_assoc]
  refine (Reader.bind_of_ok (h _ hfollow)).trans ?_
  exact Reader.bind_of_ok (allOf_append hmarks (hrest.head (by decide)))

theorem reads_var {x : String} (hx : isName Char.isLower x = true) :
    Reads (atom inner) TermLevel.atom.followers x.toList (.var x) := by
  intro rest hrest
  refine inside_eq_ok.mpr (firstOf_of_ok (application_alone hx (hrest.head (by decide)) ?_))
  intro hopen
  exact absurd (hrest '(' hopen) (by decide)

/-- **EVERY TERM PHRASE IS READ**, to as many levels as it has characters. -/
theorem TermPhrase.found {level : TermLevel} (h : TermPhrase level w e) {n : Nat}
    (hn : w.length ≤ n) : FoundTerm (termAt n) level w e := by
  induction h generalizing n with
  | plus _ _ ihl ihr =>
      rw [List.length_append, List.length_cons] at hn
      exact RunsInto.step (ihl (by omega)) (FoundTerm.reads_product (ihr (by omega))) (by decide)
  | product _ ih => exact runsInto_operand (FoundTerm.reads_product (ih hn))
  | times _ _ ihl ihr =>
      rw [List.length_append, List.length_cons] at hn
      exact RunsInto.step (ihl (by omega)) (ihr (by omega)) (by decide)
  | primed _ ih => exact runsInto_operand (ih hn)
  | primes _ hmarks ih =>
      rw [List.length_append] at hn
      exact reads_primes (ih (by omega)) hmarks
  | zero => exact reads_zero
  | group _ ih =>
      simp only [List.length_cons, List.length_append, List.length_nil] at hn
      obtain ⟨m, rfl⟩ : ∃ m, n = m + 1 := ⟨n - 1, by omega⟩
      exact reads_group (FoundTerm.reads_sum (ih (by omega)))
  | var hx => exact reads_var hx
  | @apply f s a more hf _ _ iha ihmore =>
      simp only [List.length_cons, List.length_append] at hn
      obtain ⟨m, rfl⟩ : ∃ m, n = m + 1 := ⟨n - 1, by omega⟩
      intro rest _
      refine inside_eq_ok.mpr (firstOf_of_ok (application_reads hf ?_ ?_ rest))
      · exact FoundTerm.reads_sum (iha (by omega))
      · intro part hpart
        have := length_lt_argumentsText (List.mem_map_of_mem (f := Prod.fst) hpart)
        exact FoundTerm.reads_sum (ihmore part hpart (by omega))

/-- A term is read up to a sign that may follow it. -/
theorem TermPhrase.reads (h : TermPhrase .sum w e) : Reads term TermLevel.sum.followers w e := by
  intro rest hrest
  refine FoundTerm.reads_sum (h.found ?_) rest hrest
  rw [List.length_append]
  exact Nat.le_add_right _ _

end Terms

/-! ## Which kind of group an opening parenthesis begins -/

theorem afterGroup_plain {c : Char} (hopen : c ≠ '(') (hclose : c ≠ ')') (n : Nat)
    (s : List Char) : afterGroup n (c :: s) = afterGroup n s := by
  cases n <;> simp [afterGroup, hclose]

/-- The search for the closing parenthesis passes over a balanced text. -/
theorem afterGroup_balanced {inside : Bool} {w : List Char} (h : Balanced inside w) (n : Nat)
    (s : List Char) : afterGroup n (w ++ s) = afterGroup n s := by
  induction h generalizing n s with
  | nil => rfl
  | @plain _ c _ hc _ ih =>
      have hopen : c ≠ '(' := by rintro rfl; exact absurd hc (by decide)
      have hclose : c ≠ ')' := by rintro rfl; exact absurd hc (by decide)
      rw [List.cons_append, afterGroup_plain hopen hclose, ih]
  | comma _ ih =>
      rw [List.cons_append, afterGroup_plain (by decide) (by decide), ih]
  | group _ _ ihs iht =>
      rw [List.cons_append, List.append_assoc, List.cons_append]
      show afterGroup (n + 1) _ = _
      rw [ihs]
      show afterGroup n _ = _
      rw [iht]

/-- What stands behind a group decides its kind. -/
theorem groupIsTerm_balanced {inside : Bool} {w : List Char} (h : Balanced inside w)
    (rest : List Char) : groupIsTerm (w ++ ')' :: rest) = rest.head?.any continuesTerm := by
  unfold groupIsTerm
  rw [afterGroup_balanced h]
  cases rest <;> rfl

/-- A phrase made of two parts begins with a group if its first part does. -/
theorem eq_open_of_append {s u t : List Char} (hs : s ≠ []) (h : s ++ u = '(' :: t) :
    ∃ t', s = '(' :: t' ∧ t = t' ++ u := by
  cases s with
  | nil => exact absurd rfl hs
  | cons d s =>
      obtain ⟨rfl, rfl⟩ := List.cons.inj h
      exact ⟨s, rfl, rfl⟩

/-- A text that begins with a name begins with nothing else. -/
theorem head?_name_ne {first : Char → Bool} {name : String} (h : isName first name = true)
    (d : Char) (hd : first d = false) (rest : List Char) :
    (name.toList ++ rest).head? ≠ some d := by
  obtain ⟨c, ds, hname, hc, -⟩ := isName_iff.mp h
  rw [hname]
  rintro ⟨⟩
  exact Bool.noConfusion (hd.symm.trans hc)

/-- No name begins with a parenthesis. -/
theorem isName_append_ne_open {first : Char → Bool} (hopen : first '(' = false) {name : String}
    (h : isName first name = true) (u t : List Char) : name.toList ++ u ≠ '(' :: t :=
  fun heq => head?_name_ne h '(' hopen u (congrArg List.head? heq)

theorem continuesTerm_of_isPrime {c : Char} (h : isPrime c = true) : continuesTerm c = true := by
  unfold continuesTerm
  rw [h, Bool.or_true]

/-- A term that begins with a group goes on behind it, at the latest with what follows the term. -/
theorem TermPhrase.groupIsTerm {level : TermLevel} {w : List Char} {e : Expr}
    (h : TermPhrase level w e) {t : List Char} (hw : w = '(' :: t) {c : Char}
    (hc : continuesTerm c = true) (rest : List Char) : groupIsTerm (t ++ c :: rest) = true := by
  induction h generalizing t c rest with
  | plus hl _ ihl _ =>
      obtain ⟨t', hs, rfl⟩ := eq_open_of_append hl.ne_nil hw
      rw [List.append_assoc]
      exact ihl hs (by decide) _
  | product _ ih => exact ih hw hc rest
  | times hl _ ihl _ =>
      obtain ⟨t', hs, rfl⟩ := eq_open_of_append hl.ne_nil hw
      rw [List.append_assoc]
      exact ihl hs (by decide) _
  | primed _ ih => exact ih hw hc rest
  | @primes _ marks _ hatom hmarks ih =>
      obtain ⟨t', hs, rfl⟩ := eq_open_of_append hatom.ne_nil hw
      rw [List.append_assoc]
      cases marks with
      | nil => exact ih hs hc rest
      | cons mark marks =>
          exact ih hs (continuesTerm_of_isPrime (hmarks mark (List.mem_cons_self ..))) _
  | zero => exact absurd (List.cons.inj hw).1 (by decide)
  | group hs _ =>
      rw [← (List.cons.inj hw).2, List.append_assoc]
      exact (groupIsTerm_balanced (hs.balanced true) _).trans hc
  | @var x hx => exact absurd ((List.append_nil _).trans hw) (isName_append_ne_open rfl hx [] t)
  | apply hf _ _ _ _ => exact absurd hw (isName_append_ne_open rfl hf _ t)

/-! ## Formulas -/

/-- How a formula phrase of each level is read. -/
def FoundFormula (n : Nat) : FormulaLevel → List Char → Expr → Prop
  | .implication => Reads (formulaAt (n + 1)) FormulaLevel.implication.followers
  | .disjunction => RunsInto '|' "formula after '|'" .or (conjunction (unaryAt n))
      FormulaLevel.conjunction.followers
  | .conjunction => RunsInto '&' "formula after '&'" .and (unaryAt n) FormulaLevel.unary.followers
  | .unary => Reads (unaryAt n) FormulaLevel.unary.followers

section Formulas

variable {again whole : Reader Expr} {s w : List Char} {e : Expr}

theorem FoundFormula.reads_disjunction {n : Nat} (h : FoundFormula n .disjunction w e) :
    Reads (disjunction (unaryAt n)) FormulaLevel.disjunction.followers w e :=
  RunsInto.reads h (by decide) (by decide)

theorem FoundFormula.reads_conjunction {n : Nat} (h : FoundFormula n .conjunction w e) :
    Reads (conjunction (unaryAt n)) FormulaLevel.conjunction.followers w e :=
  RunsInto.reads h (by decide) (by decide)

theorem FormulaPhrase.ne_nil {level : FormulaLevel} (h : FormulaPhrase level w e) : w ≠ [] := by
  induction h with
  | implies _ _ ihl _ => exact List.append_ne_nil_of_left_ne_nil ihl _
  | disjunction _ ih => exact ih
  | or _ _ ihl _ => exact List.append_ne_nil_of_left_ne_nil ihl _
  | conjunction _ ih => exact ih
  | and _ _ ihl _ => exact List.append_ne_nil_of_left_ne_nil ihl _
  | unary _ ih => exact ih
  | negation _ _ => exact List.cons_ne_nil _ _
  | quantified _ _ _ _ => exact List.cons_ne_nil _ _
  | group _ _ => exact List.cons_ne_nil _ _
  | letter hp =>
      obtain ⟨c, ds, hname, -, -⟩ := isName_iff.mp hp
      rw [hname]
      exact List.cons_ne_nil _ _
  | apply _ _ _ => exact List.append_ne_nil_of_right_ne_nil _ (List.cons_ne_nil _ _)
  | equals hl _ => exact List.append_ne_nil_of_left_ne_nil hl.ne_nil _

theorem reads_implies {unaryFormula : Reader Expr} {v : List Char} {l r : Expr}
    (hl : Reads (disjunction unaryFormula) FormulaLevel.disjunction.followers v l)
    (hr : Reads whole FormulaLevel.implication.followers w r) :
    Reads (implication unaryFormula whole) FormulaLevel.implication.followers
      (v ++ '-' :: '>' :: w) (.implies l r) := by
  intro rest hrest
  have hright : (do spelled ['-', '>']; committed (inside "formula after '->'" whole))
      ('-' :: '>' :: (w ++ rest)) = .ok (r, rest) :=
    (Reader.bind_of_ok (spelled_eq_ok.mpr rfl)).trans
      (committed_eq_ok.mpr (hr.inside _ rest hrest))
  rw [List.append_assoc, List.cons_append, List.cons_append]
  refine (Reader.bind_of_ok (hl _ (beginsIn_cons (by decide) _))).trans ?_
  exact Reader.bind_of_ok (optional_of_ok hright)

theorem reads_disjunction_alone {unaryFormula : Reader Expr}
    (h : Reads (disjunction unaryFormula) FormulaLevel.disjunction.followers w e) :
    Reads (implication unaryFormula whole) FormulaLevel.implication.followers w e := by
  intro rest hrest
  have harrow : spelled ['-', '>'] rest = .error (.soft [⟨rest, .failed .spelling⟩]) := by
    cases rest with
    | nil => rfl
    | cons c rest =>
        obtain rfl : c = ')' := List.mem_singleton.mp (hrest c rfl)
        rfl
  refine (Reader.bind_of_ok (h rest (hrest.mono (by decide)))).trans ?_
  exact Reader.bind_of_ok (optional_of_soft (Reader.bind_of_error harrow))

/-! ### Which form of a unary formula a text has -/

theorem negation_of_ne (h : s.head? ≠ some '!') :
    negation again s = .error (.soft [⟨s, .missing '!'⟩]) :=
  Reader.bind_of_error (exactly_eq_error.mpr ⟨h, rfl⟩)

theorem quantified_of_ne (hall : s.head? ≠ some '@') (hex : s.head? ≠ some '?') :
    quantified again s = .error (.soft [⟨s, .missing '?'⟩, ⟨s, .failed .choice⟩]) := by
  have hfirst : (do exactly '@'; return .universal : Reader Quantifier) s =
      .error (.soft [⟨s, .missing '@'⟩]) :=
    Reader.bind_of_error (exactly_eq_error.mpr ⟨hall, rfl⟩)
  have hlast : (do exactly '?'; return .existential : Reader Quantifier) s =
      .error (.soft [⟨s, .missing '?'⟩]) :=
    Reader.bind_of_error (exactly_eq_error.mpr ⟨hex, rfl⟩)
  exact Reader.bind_of_error ((firstOf_of_soft hfirst).trans (firstOf_nil_of_soft hlast))

theorem formulaGroup_of_ne (h : s.head? ≠ some '(') :
    formulaGroup whole s = .error (.soft [⟨s, .missing '('⟩]) := by
  simp only [formulaGroup, h, decide_false, Bool.false_and]
  exact enclosed_of_ne h

theorem formulaGroup_of_term (h : groupIsTerm s = true) :
    formulaGroup whole ('(' :: s) = .error (.soft [⟨'(' :: s, .failed .character⟩]) := by
  simp only [formulaGroup, List.head?_cons, List.tail_cons, h]
  rfl

/-- A text that begins with no sign of a unary formula, and not with a formula in parentheses, is
    read as a predicate or an equation. -/
theorem unary_of_predicate {x : Expr × List Char} {trace : Trace} (hnot : s.head? ≠ some '!')
    (hall : s.head? ≠ some '@') (hex : s.head? ≠ some '?')
    (hgroup : formulaGroup whole s = .error (.soft trace)) (h : predicate s = .ok x) :
    unary again whole s = .ok x := by
  refine inside_eq_ok.mpr ((firstOf_of_soft (negation_of_ne hnot)).trans ?_)
  refine (firstOf_of_soft (quantified_of_ne hall hex)).trans ?_
  exact (firstOf_of_soft hgroup).trans (firstOf_of_ok h)

theorem reads_negation (h : Reads again FormulaLevel.unary.followers w e) :
    Reads (unary again whole) FormulaLevel.unary.followers ('!' :: w) (.negation e) := by
  intro rest hrest
  refine inside_eq_ok.mpr (firstOf_of_ok ?_)
  refine (Reader.bind_of_ok (exactly_cons '!' _)).trans ?_
  exact Reader.bind_of_ok (committed_eq_ok.mpr (h rest hrest))

theorem reads_quantified {q : Quantifier} {x : String} (hx : isName Char.isLower x = true)
    (hdigit : ∀ c ∈ w.head?, c.isDigit = false) (hw : w ≠ [])
    (h : Reads again FormulaLevel.unary.followers w e) :
    Reads (unary again whole) FormulaLevel.unary.followers (q.symbol :: (x.toList ++ w))
      (.quantified q x e) := by
  intro rest hrest
  have hhead : ∀ d ∈ (w ++ rest).head?, d.isDigit = false := by
    cases w with
    | nil => exact absurd rfl hw
    | cons d w => exact hdigit
  have hnot : (q.symbol :: (x.toList ++ w) ++ rest).head? ≠ some '!' := by
    cases q <;> simp [Quantifier.symbol]
  refine inside_eq_ok.mpr ((firstOf_of_soft (negation_of_ne hnot)).trans (firstOf_of_ok ?_))
  refine quantified_eq_ok.mpr ⟨q, x, w ++ rest, e, ?_, hx, hhead, h rest hrest, rfl⟩
  rw [List.cons_append, List.append_assoc]

theorem reads_formula_group (hbalanced : Balanced true w)
    (h : Reads whole FormulaLevel.implication.followers w e) :
    Reads (unary again whole) FormulaLevel.unary.followers ('(' :: (w ++ [')'])) e := by
  intro rest hrest
  have hgroup : groupIsTerm (w ++ ')' :: rest) = false := by
    rw [groupIsTerm_balanced hbalanced]
    cases hhead : rest.head? with
    | none => rfl
    | some c => exact hrest.head (P := fun c => continuesTerm c = false) (by decide) c hhead
  have hread : formulaGroup whole ('(' :: (w ++ ')' :: rest)) = .ok (e, rest) := by
    simp only [formulaGroup, List.tail_cons, hgroup, Bool.and_false]
    exact enclosed_eq_ok.mpr ⟨_, rfl, h (')' :: rest) (beginsIn_cons (by decide) _)⟩
  rw [List.cons_append, List.append_assoc, List.singleton_append]
  refine inside_eq_ok.mpr ((firstOf_of_soft (negation_of_ne (by simp))).trans ?_)
  exact (firstOf_of_soft (quantified_of_ne (by simp) (by simp))).trans (firstOf_of_ok hread)

/-- What is read as a letter, with arguments or without, is read as a unary formula. -/
theorem unary_of_application {p : String} (hp : isName Char.isUpper p = true) {rest : List Char}
    {x : Expr × List Char}
    (h : application Char.isUpper .letter term (p.toList ++ rest) = .ok x) :
    unary again whole (p.toList ++ rest) = .ok x :=
  unary_of_predicate (head?_name_ne hp '!' (by decide) rest) (head?_name_ne hp '@' (by decide) rest)
    (head?_name_ne hp '?' (by decide) rest)
    (formulaGroup_of_ne (head?_name_ne hp '(' (by decide) rest)) (firstOf_of_ok h)

theorem reads_letter {p : String} (hp : isName Char.isUpper p = true) :
    Reads (unary again whole) FormulaLevel.unary.followers p.toList (.letter p) := by
  intro rest hrest
  refine unary_of_application hp (application_alone hp (hrest.head (by decide)) ?_)
  intro hopen
  exact absurd (hrest '(' hopen) (by decide)

theorem reads_predicate {p : String} (hp : isName Char.isUpper p = true) {a : Expr}
    {more : List (List Char × Expr)} (hs : TermPhrase .sum s a)
    (hmore : ∀ part ∈ more, TermPhrase .sum part.1 part.2) :
    Reads (unary again whole) FormulaLevel.unary.followers
      (p.toList ++ '(' :: (s ++ argumentsText (more.map Prod.fst)))
      (.apply p (a :: more.map Prod.snd)) := by
  intro rest _
  have hread := @application_reads term s a more Char.isUpper .letter p hp hs.reads
    (fun part hpart => (hmore part hpart).reads) rest
  rw [List.append_assoc] at hread ⊢
  exact unary_of_application hp hread

/-- A text that begins as a term, and not with a formula in parentheses, is read as an equation. -/
theorem unary_of_equation {x : Expr × List Char} (hs : startsTerm s = true)
    (hgroup : ∀ t, s = '(' :: t → groupIsTerm t = true) (h : equation s = .ok x) :
    unary again whole s = .ok x := by
  have hne : ∀ d, startsTerm [d] = false → s.head? ≠ some d := by
    intro d hd hhead
    obtain ⟨t, rfl⟩ := List.head?_eq_some_iff.mp hhead
    exact Bool.noConfusion (hd.symm.trans hs)
  have hupper : ∀ c ∈ s.head?, c.isUpper = false := by
    intro c hc
    obtain ⟨t, rfl⟩ := List.head?_eq_some_iff.mp hc
    rcases Bool.or_eq_true_iff.mp hs with hs | hs
    · rcases Bool.or_eq_true_iff.mp hs with hlower | hzero
      · exact not_isUpper (.inl hlower)
      · rw [eq_of_beq hzero]
        decide
    · rw [eq_of_beq hs]
      decide
  have hpredicate : predicate s = .ok x :=
    (firstOf_of_soft (application_of_not hupper)).trans (firstOf_of_ok h)
  by_cases hopen : s.head? = some '('
  · obtain ⟨t, rfl⟩ := List.head?_eq_some_iff.mp hopen
    exact unary_of_predicate (hne '!' rfl) (hne '@' rfl) (hne '?' rfl)
      (formulaGroup_of_term (hgroup t rfl)) hpredicate
  · exact unary_of_predicate (hne '!' rfl) (hne '@' rfl) (hne '?' rfl) (formulaGroup_of_ne hopen)
      hpredicate

theorem reads_equals {v : List Char} {l r : Expr} (hl : TermPhrase .sum v l)
    (hr : TermPhrase .sum w r) :
    Reads (unary again whole) FormulaLevel.unary.followers (v ++ '=' :: w) (.equals l r) := by
  intro rest hrest
  rw [List.append_assoc, List.cons_append]
  refine unary_of_equation (startsTerm_append hl.startsTerm _) ?_ ?_
  · intro t ht
    obtain ⟨t', hv, rfl⟩ := eq_open_of_append hl.ne_nil ht
    exact hl.groupIsTerm hv (by decide) _
  · have hright := hr.reads.inside "term after '='" rest (hrest.mono (by decide))
    refine (Reader.bind_of_ok (hl.reads _ (beginsIn_cons (by decide) _))).trans ?_
    have hsign : inside "'='" (exactly '=') ('=' :: (w ++ rest)) = .ok ((), w ++ rest) :=
      inside_eq_ok.mpr (exactly_cons '=' _)
    refine (Reader.bind_of_ok (committed_eq_ok.mpr hsign)).trans ?_
    exact Reader.bind_of_ok (committed_eq_ok.mpr hright)

/-- **EVERY FORMULA PHRASE IS READ**, to twice as many levels as it has characters. -/
theorem FormulaPhrase.found {level : FormulaLevel} (h : FormulaPhrase level w e) {n : Nat}
    (hn : 2 * w.length ≤ n) : FoundFormula n level w e := by
  induction h generalizing n with
  | implies _ _ ihl ihr =>
      simp only [List.length_append, List.length_cons] at hn
      obtain ⟨m, rfl⟩ : ∃ m, n = m + 1 := ⟨n - 1, by omega⟩
      exact reads_implies (ihl (by omega)).reads_disjunction (ihr (by omega))
  | disjunction _ ih => exact reads_disjunction_alone (ih hn).reads_disjunction
  | or _ _ ihl ihr =>
      rw [List.length_append, List.length_cons] at hn
      exact RunsInto.step (ihl (by omega)) (ihr (by omega)).reads_conjunction (by decide)
  | conjunction _ ih => exact runsInto_operand (ih hn).reads_conjunction
  | and _ _ ihl ihr =>
      rw [List.length_append, List.length_cons] at hn
      exact RunsInto.step (ihl (by omega)) (ihr (by omega)) (by decide)
  | unary _ ih => exact runsInto_operand (ih hn)
  | negation _ ih =>
      rw [List.length_cons] at hn
      obtain ⟨m, rfl⟩ : ∃ m, n = m + 1 := ⟨n - 1, by omega⟩
      exact reads_negation (ih (by omega))
  | quantified hx hdigit h ih =>
      rw [List.length_cons, List.length_append] at hn
      obtain ⟨m, rfl⟩ : ∃ m, n = m + 1 := ⟨n - 1, by omega⟩
      exact reads_quantified hx hdigit h.ne_nil (ih (by omega))
  | group h ih =>
      simp only [List.length_cons, List.length_append, List.length_nil] at hn
      obtain ⟨m, rfl⟩ : ∃ m, n = m + 2 := ⟨n - 2, by omega⟩
      exact reads_formula_group (h.balanced true) (ih (by omega))
  | letter hp =>
      obtain ⟨c, ds, hname, -, -⟩ := isName_iff.mp hp
      rw [hname, List.length_cons] at hn
      obtain ⟨m, rfl⟩ : ∃ m, n = m + 1 := ⟨n - 1, by omega⟩
      exact reads_letter hp
  | apply hp hs hmore =>
      rw [List.length_append, List.length_cons] at hn
      obtain ⟨m, rfl⟩ : ∃ m, n = m + 1 := ⟨n - 1, by omega⟩
      exact reads_predicate hp hs hmore
  | equals hl hr =>
      rw [List.length_append, List.length_cons] at hn
      obtain ⟨m, rfl⟩ : ∃ m, n = m + 1 := ⟨n - 1, by omega⟩
      exact reads_equals hl hr

/-- A formula is read up to a sign that may follow it. -/
theorem FormulaPhrase.reads (h : FormulaPhrase .implication w e) :
    Reads formula FormulaLevel.implication.followers w e := by
  intro rest hrest
  refine h.found (n := 2 * (w ++ rest).length + 1) ?_ rest hrest
  rw [List.length_append]
  omega

end Formulas

end PeanoCalculus.Grammar
