/-! # Expressions of first-order arithmetic

    One type holds formulas and terms alike.  Nothing forbids a formula in the place of a term: the
    grammar only ever builds sensible trees, but expressions can also be put together by hand, and
    every operation is defined on all of them.

    The six binary symbols share the constructor `binary`, since substitution, free variables and
    matching treat them alike; only printing and reading tell them apart.  A chain of primes is one
    node that carries their number, and `Expr.primed` keeps it so: priming a primed term adds the
    counts.  A count is a natural number of any size.  Counts kept in 32 bits, whose sums wrap, are
    the same as long as no chain comes to 2^32 primes. -/

namespace PeanoCalculus

/-- The binary symbols: three connectives, equality, and two operations on numbers. -/
inductive Operator where
  | implies
  | or
  | and
  | equals
  | plus
  | times
  deriving DecidableEq

/-- The two quantifiers. -/
inductive Quantifier where
  | universal
  | existential
  deriving DecidableEq

/-- A formula or a term.  Predicates and functions are both `apply`; a predicate letter without
    arguments is `apply` over the empty list.  The count of `successor` has no bound: it is that of
    a 32-bit counter below 2^32 primes only. -/
inductive Expr where
  | binary (op : Operator) (left right : Expr)
  | negation (body : Expr)
  | quantified (q : Quantifier) (binder : String) (body : Expr)
  | apply (name : String) (args : List Expr)
  | var (name : String)
  | successor (count : Nat) (base : Expr)
  | zero

namespace Expr

/-! ## Equality of trees -/

mutual

/-- Two expressions are the same tree or not. -/
def decEq : (a b : Expr) → Decidable (a = b)
  | .binary o l r, .binary o' l' r' =>
    if ho : o = o' then
      match decEq l l', decEq r r' with
      | isTrue hl, isTrue hr => isTrue (by rw [ho, hl, hr])
      | isFalse hl, _ => isFalse fun h => hl (by injection h)
      | _, isFalse hr => isFalse fun h => hr (by injection h)
    else isFalse fun h => ho (by injection h)
  | .negation e, .negation e' =>
    match decEq e e' with
    | isTrue he => isTrue (by rw [he])
    | isFalse he => isFalse fun h => he (by injection h)
  | .quantified q x e, .quantified q' x' e' =>
    if hq : q = q' then
      if hx : x = x' then
        match decEq e e' with
        | isTrue he => isTrue (by rw [hq, hx, he])
        | isFalse he => isFalse fun h => he (by injection h)
      else isFalse fun h => hx (by injection h)
    else isFalse fun h => hq (by injection h)
  | .apply f as, .apply f' as' =>
    if hf : f = f' then
      match decEqList as as' with
      | isTrue ha => isTrue (by rw [hf, ha])
      | isFalse ha => isFalse fun h => ha (by injection h)
    else isFalse fun h => hf (by injection h)
  | .var x, .var x' =>
    if hx : x = x' then isTrue (by rw [hx]) else isFalse fun h => hx (by injection h)
  | .successor n e, .successor n' e' =>
    if hn : n = n' then
      match decEq e e' with
      | isTrue he => isTrue (by rw [hn, he])
      | isFalse he => isFalse fun h => he (by injection h)
    else isFalse fun h => hn (by injection h)
  | .zero, .zero => isTrue rfl
  | .binary .., .negation _ | .binary .., .quantified .. | .binary .., .apply ..
  | .binary .., .var _ | .binary .., .successor .. | .binary .., .zero
  | .negation _, .binary .. | .negation _, .quantified .. | .negation _, .apply ..
  | .negation _, .var _ | .negation _, .successor .. | .negation _, .zero
  | .quantified .., .binary .. | .quantified .., .negation _ | .quantified .., .apply ..
  | .quantified .., .var _ | .quantified .., .successor .. | .quantified .., .zero
  | .apply .., .binary .. | .apply .., .negation _ | .apply .., .quantified ..
  | .apply .., .var _ | .apply .., .successor .. | .apply .., .zero
  | .var _, .binary .. | .var _, .negation _ | .var _, .quantified ..
  | .var _, .apply .. | .var _, .successor .. | .var _, .zero
  | .successor .., .binary .. | .successor .., .negation _ | .successor .., .quantified ..
  | .successor .., .apply .. | .successor .., .var _ | .successor .., .zero
  | .zero, .binary .. | .zero, .negation _ | .zero, .quantified ..
  | .zero, .apply .. | .zero, .var _ | .zero, .successor .. => isFalse nofun

/-- Two argument lists are the same or not. -/
def decEqList : (as bs : List Expr) → Decidable (as = bs)
  | [], [] => isTrue rfl
  | a :: as, b :: bs =>
    match decEq a b, decEqList as bs with
    | isTrue ha, isTrue hs => isTrue (by rw [ha, hs])
    | isFalse ha, _ => isFalse fun h => ha (by injection h)
    | _, isFalse hs => isFalse fun h => hs (by injection h)
  | [], _ :: _ | _ :: _, [] => isFalse nofun

end

instance : DecidableEq Expr := decEq

/-! ## Building -/

@[match_pattern] abbrev implies (a b : Expr) : Expr := .binary .implies a b
@[match_pattern] abbrev or (a b : Expr) : Expr := .binary .or a b
@[match_pattern] abbrev and (a b : Expr) : Expr := .binary .and a b
@[match_pattern] abbrev equals (a b : Expr) : Expr := .binary .equals a b
@[match_pattern] abbrev plus (a b : Expr) : Expr := .binary .plus a b
@[match_pattern] abbrev times (a b : Expr) : Expr := .binary .times a b
@[match_pattern] abbrev all (x : String) (body : Expr) : Expr := .quantified .universal x body
@[match_pattern] abbrev ex (x : String) (body : Expr) : Expr := .quantified .existential x body
@[match_pattern] abbrev letter (name : String) : Expr := .apply name []

/-- Put `count` primes on an expression.  No prime leaves it as it is, and the primes of a primed
    expression are counted together with the new ones.  The sum does not wrap, as one of 32 bits
    would from 2^32 on. -/
def primed (count : Nat) (base : Expr) : Expr :=
  if count = 0 then base
  else
    match base with
    | .successor inner core => .successor (inner + count) core
    | _ => .successor count base

/-! ## Taking apart -/

/-- The two sides of an implication. -/
def implication? : Expr → Option (Expr × Expr)
  | .implies a b => some (a, b)
  | _ => none

/-- The two sides of a conjunction. -/
def conjunction? : Expr → Option (Expr × Expr)
  | .and a b => some (a, b)
  | _ => none

/-- Quantifier, binder and body of a quantified formula. -/
def quantified? : Expr → Option (Quantifier × String × Expr)
  | .quantified q x body => some (q, x, body)
  | _ => none

/-- The name of a variable. -/
def varName? : Expr → Option String
  | .var x => some x
  | _ => none

/-- The expression is the numeral zero. -/
def isZero : Expr → Bool
  | .zero => true
  | _ => false

/-- The expression has no parts: a variable, zero, or a letter without arguments. -/
def isLeaf : Expr → Bool
  | .var _ | .zero | .letter _ => true
  | _ => false

/-- How many parts the symbol at the root always has; the binder of a quantifier is one of them.  An
    application takes any number. -/
def arity? : Expr → Option Nat
  | .apply .. => none
  | .var _ | .zero => some 0
  | .negation _ | .successor .. => some 1
  | .binary .. | .quantified .. => some 2

end Expr

end PeanoCalculus
