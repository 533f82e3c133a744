import PeanoCalculus.Proofs.Grammar.RoundTrip

/-! # Parse trees

    The relations `TermPhrase` and `FormulaPhrase` say which texts are phrases and which trees they
    have.  To ask whether a text is a phrase in one way only, the derivations themselves have to
    be values: `ParseTree symbol` is the type of all derivations from a symbol of the grammar, one
    constructor a rule.  Nothing is forgotten in it, neither redundant parentheses nor how a prime
    is written.  `ParseTree.text` is what a derivation derives and `ParseTree.tree` is the
    expression it stands for.

    A derivation by itself may cut a name short: the grammar derives `@x10=0` with the variable `x1`
    and the body `0=0`.  `ParseTree.Longest` says that no name is cut short, each takes all the
    digits behind it.  Only the body of a quantifier can begin with a digit, so the derivations
    that are longest are those of the phrases. -/

namespace PeanoCalculus.Grammar

open PeanoCalculus.Text

/-! ## Derivations -/

/-- The symbols that the grammar has rules for.  Arguments are meant with the parenthesis that
    closes them. -/
inductive Symbol where
  | formula (level : FormulaLevel)
  | term (level : TermLevel)
  | arguments

/-- What is derived from a symbol stands for an expression, or for a list of them. -/
def Symbol.Tree : Symbol → Type
  | .formula _ | .term _ => Expr
  | .arguments => List Expr

/-- The derivations from a symbol. -/
inductive ParseTree : Symbol → Type where
  | implies : ParseTree (.formula .disjunction) → ParseTree (.formula .implication) →
      ParseTree (.formula .implication)
  | disjunction : ParseTree (.formula .disjunction) → ParseTree (.formula .implication)
  | or : ParseTree (.formula .disjunction) → ParseTree (.formula .conjunction) →
      ParseTree (.formula .disjunction)
  | conjunction : ParseTree (.formula .conjunction) → ParseTree (.formula .disjunction)
  | and : ParseTree (.formula .conjunction) → ParseTree (.formula .unary) →
      ParseTree (.formula .conjunction)
  | unary : ParseTree (.formula .unary) → ParseTree (.formula .conjunction)
  | negation : ParseTree (.formula .unary) → ParseTree (.formula .unary)
  | quantified (q : Quantifier) (x : String) : isName Char.isLower x = true →
      ParseTree (.formula .unary) → ParseTree (.formula .unary)
  | formulaGroup : ParseTree (.formula .implication) → ParseTree (.formula .unary)
  | letter (p : String) : isName Char.isUpper p = true → ParseTree (.formula .unary)
  | predicate (p : String) : isName Char.isUpper p = true → ParseTree .arguments →
      ParseTree (.formula .unary)
  | equals : ParseTree (.term .sum) → ParseTree (.term .sum) → ParseTree (.formula .unary)
  | plus : ParseTree (.term .sum) → ParseTree (.term .product) → ParseTree (.term .sum)
  | product : ParseTree (.term .product) → ParseTree (.term .sum)
  | times : ParseTree (.term .product) → ParseTree (.term .primed) → ParseTree (.term .product)
  | primed : ParseTree (.term .primed) → ParseTree (.term .product)
  | primes (marks : List Char) : (∀ c ∈ marks, isPrime c = true) → ParseTree (.term .atom) →
      ParseTree (.term .primed)
  | zero : ParseTree (.term .atom)
  | termGroup : ParseTree (.term .sum) → ParseTree (.term .atom)
  | var (x : String) : isName Char.isLower x = true → ParseTree (.term .atom)
  | function (f : String) : isName Char.isLower f = true → ParseTree .arguments →
      ParseTree (.term .atom)
  | lastArgument : ParseTree (.term .sum) → ParseTree .arguments
  | argument : ParseTree (.term .sum) → ParseTree .arguments → ParseTree .arguments

namespace ParseTree

/-- The text that is derived. -/
def text {symbol : Symbol} : ParseTree symbol → List Char
  | .implies l r => l.text ++ '-' :: '>' :: r.text
  | .disjunction t => t.text
  | .or l r => l.text ++ '|' :: r.text
  | .conjunction t => t.text
  | .and l r => l.text ++ '&' :: r.text
  | .unary t => t.text
  | .negation t => '!' :: t.text
  | .quantified q x _ t => q.symbol :: (x.toList ++ t.text)
  | .formulaGroup t => '(' :: (t.text ++ [')'])
  | .letter p _ => p.toList
  | .predicate p _ args => p.toList ++ '(' :: args.text
  | .equals l r => l.text ++ '=' :: r.text
  | .plus l r => l.text ++ '+' :: r.text
  | .product t => t.text
  | .times l r => l.text ++ '*' :: r.text
  | .primed t => t.text
  | .primes marks _ t => t.text ++ marks
  | .zero => ['0']
  | .termGroup t => '(' :: (t.text ++ [')'])
  | .var x _ => x.toList
  | .function f _ args => f.toList ++ '(' :: args.text
  | .lastArgument t => t.text ++ [')']
  | .argument t more => t.text ++ ',' :: more.text

/-- The expression that is meant.  Groups leave no trace in it, operators of one level associate
    as they are derived, and primes are counted together. -/
def tree {symbol : Symbol} : ParseTree symbol → symbol.Tree
  | .implies l r => Expr.implies l.tree r.tree
  | .disjunction t => t.tree
  | .or l r => Expr.or l.tree r.tree
  | .conjunction t => t.tree
  | .and l r => Expr.and l.tree r.tree
  | .unary t => t.tree
  | .negation t => Expr.negation t.tree
  | .quantified q x _ t => Expr.quantified q x t.tree
  | .formulaGroup t => t.tree
  | .letter p _ => Expr.letter p
  | .predicate p _ args => Expr.apply p args.tree
  | .equals l r => Expr.equals l.tree r.tree
  | .plus l r => Expr.plus l.tree r.tree
  | .product t => t.tree
  | .times l r => Expr.times l.tree r.tree
  | .primed t => t.tree
  | .primes marks _ t => Expr.primed marks.length t.tree
  | .zero => Expr.zero
  | .termGroup t => t.tree
  | .var x _ => Expr.var x
  | .function f _ args => Expr.apply f args.tree
  | .lastArgument t => [t.tree]
  | .argument t more => (t.tree :: more.tree : List Expr)

end ParseTree

/-- A name that stands before this text has all its digits. -/
def EndsName (rest : List Char) : Prop :=
  ∀ c ∈ rest.head?, c.isDigit = false

/-- With `rest` behind the derived text, every name takes all the digits that follow it. -/
def ParseTree.Longest {symbol : Symbol} : ParseTree symbol → List Char → Prop
  | .implies l r, rest => l.Longest ('-' :: '>' :: (r.text ++ rest)) ∧ r.Longest rest
  | .disjunction t, rest => t.Longest rest
  | .or l r, rest => l.Longest ('|' :: (r.text ++ rest)) ∧ r.Longest rest
  | .conjunction t, rest => t.Longest rest
  | .and l r, rest => l.Longest ('&' :: (r.text ++ rest)) ∧ r.Longest rest
  | .unary t, rest => t.Longest rest
  | .negation t, rest => t.Longest rest
  | .quantified _ _ _ t, rest => EndsName (t.text ++ rest) ∧ t.Longest rest
  | .formulaGroup t, rest => t.Longest (')' :: rest)
  | .letter _ _, rest => EndsName rest
  | .predicate _ _ args, rest => EndsName ('(' :: (args.text ++ rest)) ∧ args.Longest rest
  | .equals l r, rest => l.Longest ('=' :: (r.text ++ rest)) ∧ r.Longest rest
  | .plus l r, rest => l.Longest ('+' :: (r.text ++ rest)) ∧ r.Longest rest
  | .product t, rest => t.Longest rest
  | .times l r, rest => l.Longest ('*' :: (r.text ++ rest)) ∧ r.Longest rest
  | .primed t, rest => t.Longest rest
  | .primes marks _ t, rest => t.Longest (marks ++ rest)
  | .zero, _ => True
  | .termGroup t, rest => t.Longest (')' :: rest)
  | .var _ _, rest => EndsName rest
  | .function _ _ args, rest => EndsName ('(' :: (args.text ++ rest)) ∧ args.Longest rest
  | .lastArgument t, rest => t.Longest (')' :: rest)
  | .argument t more, rest => t.Longest (',' :: (more.text ++ rest)) ∧ more.Longest rest

/-! ## Longest derivations are phrases -/

/-- There is a derivation of the text with the given tree, and it is longest wherever no digit
    follows. -/
def Symbol.Derives (symbol : Symbol) (w : List Char) (tree : symbol.Tree) : Prop :=
  ∃ t : ParseTree symbol, t.text = w ∧ t.tree = tree ∧ ∀ rest, EndsName rest → t.Longest rest

theorem endsName_cons {c : Char} (h : c.isDigit = false) (rest : List Char) :
    EndsName (c :: rest) :=
  forall_head_cons h rest

/-- Two derivations with a sign between them make one, by any rule that joins such parts. -/
theorem Symbol.Derives.join {a b c : Symbol} {v w : List Char} {l : a.Tree} {r : b.Tree}
    (hl : a.Derives v l) (hr : b.Derives w r) (rule : ParseTree a → ParseTree b → ParseTree c)
    {meant : a.Tree → b.Tree → c.Tree} (sign : Char) (more : List Char)
    (hsign : sign.isDigit = false)
    (htext : ∀ t u, (rule t u).text = t.text ++ sign :: (more ++ u.text))
    (htree : ∀ t u, (rule t u).tree = meant t.tree u.tree)
    (hlongest : ∀ t u rest, t.Longest (sign :: (more ++ u.text ++ rest)) → u.Longest rest →
      (rule t u).Longest rest) :
    c.Derives (v ++ sign :: (more ++ w)) (meant l r) := by
  obtain ⟨t, rfl, rfl, ht⟩ := hl
  obtain ⟨u, rfl, rfl, hu⟩ := hr
  refine ⟨rule t u, htext t u, htree t u, ?_⟩
  intro rest hrest
  exact hlongest t u rest (ht _ (endsName_cons hsign _)) (hu rest hrest)

end PeanoCalculus.Grammar
