import PeanoCalculus.Expr.Printer
import PeanoCalculus.Expr.Variables
import PeanoCalculus.Expr.Substitution

/-! # Matching a schema against an expression

    Matching finds what the leaves of a schema have to stand for so that the schema becomes the
    given candidate.  In *schema* mode every name of a single letter stands for something: an
    upper-case letter without arguments for a formula, a variable for a term, and a binder for a
    binder.  In *substitution* mode only the free occurrences of one variable do, so a match says
    that the candidate is the schema with some term put for that variable.

    The state of a match is threaded through the tree.  It holds the bindings found so far, the
    pairs of binders that enclose the current place, and, in substitution mode, the first place
    where the term put in would be captured.  A capture does not end the match; what it means is for
    the caller to say.

    Expressions bound to one name must agree in their canonical text. -/

namespace PeanoCalculus

/-- Which leaves of a schema stand for something. -/
inductive MatchMode where
  | schema
  | substitution (x : String)
  deriving DecidableEq

/-- A name that is one letter of the alphabet. -/
def isSingleLetter (name : String) : Bool :=
  match name.toList with
  | [c] => c.isAlpha
  | _ => false

/-- A letter without arguments stands for a formula. -/
def MatchMode.takesLetter : MatchMode → String → Bool
  | .schema, name => isSingleLetter name
  | .substitution _, _ => false

/-- A variable that no enclosing binder binds stands for a term. -/
def MatchMode.takesVariable : MatchMode → String → Bool
  | .schema, name => isSingleLetter name
  | .substitution x, name => name = x

/-- A term put for a variable under a binder that is one of the term's own free variables. -/
structure Capture where
  replaced : String
  term : Expr
  binder : String

/-- The state of a match.  The scope lists the enclosing binders of the schema, innermost first,
    each with the binder of the candidate at the same place. -/
structure Match where
  bindings : Bindings := {}
  scope : List (String × String) := []
  capture : Option Capture := none

namespace Match

/-- Pass below a pair of binders. -/
def enter (m : Match) (x y : String) : Match :=
  { m with scope := (x, y) :: m.scope }

/-- Come back from below a pair of binders. -/
def leave (m : Match) : Match :=
  { m with scope := m.scope.tail }

/-- The least of the enclosing binders that captures a variable of `t`. -/
def capturer? (m : Match) (t : Expr) : Option String :=
  (((m.scope.map Prod.snd).filter t.freeVariables.contains).foldr insertName []).head?

/-- Note a capture of `t`, put for `x` at the current place, unless one is noted already. -/
def noteCapture (m : Match) (x : String) (t : Expr) : Match :=
  match m.capture, m.capturer? t with
  | none, some binder => { m with capture := some ⟨x, t, binder⟩ }
  | _, _ => m

/-- Bind a name, or compare with what it is bound to.  In substitution mode each occurrence is
    looked at for capture, since each has binders of its own around it. -/
def bind (m : Match) (mode : MatchMode) (name : String) (e : Expr) : Option Match :=
  let bound :=
    match m.bindings.find? name with
    | none => some { m with bindings := m.bindings.insert name e }
    | some known => if known.text = e.text then some m else none
  match mode with
  | .schema => bound
  | .substitution _ => bound.map (·.noteCapture name e)

/-- Match a binder: in schema mode a single letter stands for the candidate's binder, any other name
    only for itself. -/
def bindBinder (m : Match) (mode : MatchMode) (x y : String) : Option Match :=
  if mode = .schema ∧ isSingleLetter x then m.bind mode x (.var y)
  else if x = y then some m
  else none

mutual

/-- Match a schema against a candidate, going on from the state `m`. -/
def extend (mode : MatchMode) : Expr → Expr → Match → Option Match
  | .binary op l r, c, m =>
    match c with
    | .binary op' l' r' => if op = op' then extend mode l l' m >>= extend mode r r' else none
    | _ => none
  | .negation e, c, m =>
    match c with
    | .negation e' => extend mode e e' m
    | _ => none
  | .quantified q x e, c, m =>
    match c with
    | .quantified q' y e' =>
      if q = q' then do
        let m ← m.bindBinder mode x y
        let m ← extend mode e e' (m.enter x y)
        some m.leave
      else none
    | _ => none
  | .apply f as, c, m =>
    if as.isEmpty && mode.takesLetter f then m.bind mode f c
    else
      match c with
      | .apply f' as' => if f = f' then extendAll mode as as' m else none
      | _ => none
  | .var x, c, m =>
    match m.scope.lookup x with
    | some y => if c.varName? = some y then some m else none
    | none =>
      if mode.takesVariable x then m.bind mode x c
      else if c.varName? = some x then some m
      else none
  | .successor n e, c, m =>
    match c with
    | .successor n' e' =>
      -- the common primes are taken off, the candidate keeps the others
      if n < n' then extend mode e (.primed (n' - n) e') m
      else if n = n' then extend mode e e' m
      else none
    | _ => none
  | .zero, c, m => if c.isZero then some m else none

/-- Match two argument lists of the same length, one pair after the other. -/
def extendAll (mode : MatchMode) : List Expr → List Expr → Match → Option Match
  | [], [], m => some m
  | a :: as, c :: cs, m => extend mode a c m >>= extendAll mode as cs
  | _, _, _ => none

end

end Match

/-- Match a schema: what do its letters stand for in the candidate? -/
def matchSchema (schema candidate : Expr) : Option Match :=
  Match.extend .schema schema candidate {}

/-- Match a substitution: is the candidate the formula with some term put for `x`? -/
def matchSubstitution (formula candidate : Expr) (x : String) : Option Match :=
  Match.extend (.substitution x) formula candidate {}

end PeanoCalculus
