import PeanoCalculus.Grammar.Term

/-! # Reading formulas

        Implication ::= Disjunction ['->' Implication]
        Disjunction ::= Disjunction '|' Conjunction | Conjunction
        Conjunction ::= Conjunction '&' Unary | Unary
        Unary       ::= '!' Unary | ('@' | '?') Name Unary | '(' Implication ')' | Predicate
        Predicate   ::= Letter ['(' Term {',' Term} ')'] | Term '=' Term
        Letter      ::= upper-case letter {digit}

    An opening parenthesis begins a formula or the left side of an equation, and the character
    after the matching parenthesis decides.  A group goes on as a term only with `=`, `+`, `*` or a
    prime, and no formula in parentheses is followed by one of these.

    Each level is written for given readers of the formulas inside it: unary ones behind a sign of
    negation or a quantifier, whole ones in parentheses and behind an arrow. -/

namespace PeanoCalculus.Grammar

/-- The text after the parenthesis that closes `open + 1` groups begun before it. -/
def afterGroup : Nat → List Char → Option (List Char)
  | _, [] => none
  | 0, ')' :: s => some s
  | n + 1, ')' :: s => afterGroup n s
  | n, '(' :: s => afterGroup (n + 1) s
  | n, _ :: s => afterGroup n s

/-- A character by which a term in parentheses goes on. -/
def continuesTerm (c : Char) : Bool :=
  c == '=' || c == '+' || c == '*' || isPrime c

/-- The group whose opening parenthesis stands before this text is a term.  A group that is never
    closed is none. -/
def groupIsTerm (s : List Char) : Bool :=
  match afterGroup 0 s with
  | some (c :: _) => continuesTerm c
  | _ => false

/-- Two terms with `=` between them. -/
def equation : Reader Expr := do
  let left ← term
  committed (inside "'='" (exactly '='))
  let right ← committed (inside "term after '='" term)
  return .equals left right

/-- A predicate letter, with arguments if they follow, or an equation. -/
def predicate : Reader Expr :=
  firstOf (application Char.isUpper .letter term) [equation]

/-- A formula in parentheses, unless the group goes on as a term. -/
def formulaGroup (whole : Reader Expr) : Reader Expr := fun s =>
  if s.head? = some '(' && groupIsTerm s.tail then .error (.soft [⟨s, .failed .character⟩])
  else enclosed whole s

/-- The sign of a quantifier. -/
def quantifierSign : Reader Quantifier :=
  firstOf (do exactly '@'; return .universal) [do exactly '?'; return .existential]

/-- A quantifier, one variable and a unary formula. -/
def quantified (again : Reader Expr) : Reader Expr := do
  let q ← quantifierSign
  let (x, body) ← committed do
    let x ← inside "quantified variable" (name Char.isLower)
    let body ← again
    return (x, body)
  return .quantified q x body

/-- The negation of a unary formula. -/
def negation (again : Reader Expr) : Reader Expr := do
  exactly '!'
  let body ← committed again
  return .negation body

/-- A negation, a quantified formula, a formula in parentheses, a predicate or an equation. -/
def unary (again whole : Reader Expr) : Reader Expr :=
  inside "formula" (firstOf (negation again) [quantified again, formulaGroup whole, predicate])

/-- Unary formulas joined by `&`. -/
def conjunction (unaryFormula : Reader Expr) : Reader Expr :=
  joined '&' "formula after '&'" .and unaryFormula

/-- Conjunctions joined by `|`. -/
def disjunction (unaryFormula : Reader Expr) : Reader Expr :=
  joined '|' "formula after '|'" .or (conjunction unaryFormula)

/-- Implications, grouped to the right. -/
def implication (unaryFormula whole : Reader Expr) : Reader Expr := do
  let left ← disjunction unaryFormula
  let right ← optional (do spelled ['-', '>']; committed (inside "formula after '->'" whole))
  return right.elim left (.implies left)

mutual

/-- Unary formulas with fewer than `n` levels inside each other. -/
def unaryAt : Nat → Reader Expr
  | 0 => fun _ => .error .incomplete
  | n + 1 => unary (unaryAt n) (formulaAt n)

/-- Formulas with fewer than `n` levels inside each other. -/
def formulaAt : Nat → Reader Expr
  | 0 => fun _ => .error .incomplete
  | n + 1 => implication (unaryAt n) (formulaAt n)

end

/-- The longest formula at the front of a text.  Two levels are left behind with each character. -/
def formula : Reader Expr := fun s =>
  formulaAt (2 * s.length + 2) s

/-- Read a formula. -/
def parseFormula (text : String) : Except ParseError Expr :=
  readAll formula text

end PeanoCalculus.Grammar
