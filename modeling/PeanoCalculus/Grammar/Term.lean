import PeanoCalculus.Text.Blank
import PeanoCalculus.Expr.Basic
import PeanoCalculus.Grammar.Reader

/-! # Reading terms

        Term      ::= Term '+' Product | Product
        Product   ::= Product '*' Primed | Primed
        Primed    ::= Atom {prime}
        Atom      ::= Name ['(' Term {',' Term} ')'] | '(' Term ')' | '0'
        Name      ::= lower-case letter {digit}

    The text holds no blanks.  A name takes all the digits that follow it, and a prime is an
    apostrophe, straight or typographic.

    After a comma an argument list goes on only if a term can begin there.  Otherwise the list ends
    before the comma, and it is the closing parenthesis that is missing.

    A term stands inside another only in parentheses.  Each level is written for a given reader of
    the terms inside, and `termAt` ties the knot for a bounded number of parentheses around each
    other, of which a text has no more than characters. -/

namespace PeanoCalculus.Grammar

/-- One more operand, behind its sign. -/
def further (sign : Char) (name : String) (operand : Reader Expr) : Reader Expr := do
  exactly sign
  committed (inside name operand)

/-- Operands with a sign between them, joined to the left. -/
def joined (sign : Char) (name : String) (join : Expr → Expr → Expr) (operand : Reader Expr) :
    Reader Expr := do
  let first ← operand
  many (further sign name operand) join first

/-- The closing parenthesis. -/
def closing : Reader Unit :=
  committed (inside "closing parenthesis" (exactly ')'))

/-- Something in parentheses. -/
def enclosed {α : Type} (reader : Reader α) : Reader α := do
  exactly '('
  let a ← committed reader
  closing
  return a

/-- A letter of the given kind and the digits after it. -/
def name (first : Char → Bool) : Reader String := do
  let c ← satisfying first
  let digits ← allOf Char.isDigit
  return String.ofList (c :: digits)

/-- A name and its arguments in parentheses, or the name alone. -/
def application (first : Char → Bool) (alone : String → Expr) (inner : Reader Expr) :
    Reader Expr := do
  let f ← name first
  let args ← optional (enclosed (separated ',' (inside "argument" inner)))
  return args.elim (alone f) (.apply f)

/-- A variable or a function with its arguments, zero, or a term in parentheses. -/
def atom (inner : Reader Expr) : Reader Expr :=
  inside "term" (firstOf (application Char.isLower .var inner)
    [do exactly '0'; return .zero, enclosed inner])

/-- An apostrophe, straight or typographic. -/
def isPrime (c : Char) : Bool :=
  c == '\'' || c == '’'

/-- An atom and the primes after it.  They are counted without a bound; a count cut to 32 bits is
    the same below 2^32 primes. -/
def primedAtom (inner : Reader Expr) : Reader Expr := do
  let base ← atom inner
  let marks ← allOf isPrime
  return .primed marks.length base

/-- Primed atoms joined by `*`. -/
def product (inner : Reader Expr) : Reader Expr :=
  joined '*' "term after '*'" .times (primedAtom inner)

/-- Products joined by `+`. -/
def sum (inner : Reader Expr) : Reader Expr :=
  joined '+' "term after '+'" .plus (product inner)

/-- Terms with fewer than `n` parentheses around each other. -/
def termAt : Nat → Reader Expr
  | 0 => fun _ => .error .incomplete
  | n + 1 => sum (termAt n)

/-- The longest term at the front of a text. -/
def term : Reader Expr := fun s =>
  termAt (s.length + 1) s

/-- Drop the blanks of a text and read all that is left. -/
def readAll (reader : Reader Expr) (text : String) : Except ParseError Expr :=
  let whole := Text.squeeze text.toList
  match reader whole with
  | .ok (e, []) => .ok e
  | .ok (_, rest) =>
    .error ⟨"end of formula", byteLength whole - byteLength rest, String.ofList whole⟩
  | .error fault => .error (fault.report whole)

/-- Read a term. -/
def parseTerm (text : String) : Except ParseError Expr :=
  readAll term text

end PeanoCalculus.Grammar
