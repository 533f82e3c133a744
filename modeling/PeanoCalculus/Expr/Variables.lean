import PeanoCalculus.Expr.Basic

/-! # Free variables

    An occurrence of a variable is free when no enclosing quantifier binds its name.  The functions
    here walk down a tree and carry the names of the binders passed on the way: an occurrence of `x`
    is bound exactly when `x` is among them.

    A term may be put for `x` without capture when no free occurrence of `x` lies under a binder
    that is a free variable of the term. -/

namespace PeanoCalculus

/-- Put a name into a list kept in increasing order without repetitions. -/
def insertName (x : String) : List String → List String
  | [] => [x]
  | y :: ys => if x < y then x :: y :: ys else if x = y then y :: ys else y :: insertName x ys

namespace Expr

mutual

/-- The variables that occur free below the given binders, in the order of their occurrences. -/
def freeOccurrences (binders : List String) : Expr → List String
  | .binary _ l r => l.freeOccurrences binders ++ r.freeOccurrences binders
  | .negation e => e.freeOccurrences binders
  | .quantified _ x e => e.freeOccurrences (x :: binders)
  | .apply _ as => freeOccurrencesIn binders as
  | .var x => if x ∈ binders then [] else [x]
  | .successor _ e => e.freeOccurrences binders
  | .zero => []

/-- The free occurrences in a list of arguments. -/
def freeOccurrencesIn (binders : List String) : List Expr → List String
  | [] => []
  | a :: as => a.freeOccurrences binders ++ freeOccurrencesIn binders as

end

/-- The names of the free variables, in increasing order. -/
def freeVariables (e : Expr) : List String :=
  (e.freeOccurrences []).foldr insertName []

mutual

/-- The variable `x` has a free occurrence. -/
def hasFree (x : String) : Expr → Bool
  | .binary _ l r => l.hasFree x || r.hasFree x
  | .negation e => e.hasFree x
  | .quantified _ y e => y ≠ x && e.hasFree x
  | .apply _ as => hasFreeIn x as
  | .var y => y = x
  | .successor _ e => e.hasFree x
  | .zero => false

/-- The variable `x` has a free occurrence in one of the arguments. -/
def hasFreeIn (x : String) : List Expr → Bool
  | [] => false
  | a :: as => a.hasFree x || hasFreeIn x as

end

mutual

/-- Below the given binders, no free occurrence of `x` lies under a binder from `captives`. -/
def freeForUnder (x : String) (captives binders : List String) : Expr → Bool
  | .binary _ l r => l.freeForUnder x captives binders && r.freeForUnder x captives binders
  | .negation e => e.freeForUnder x captives binders
  | .quantified _ y e => y = x || e.freeForUnder x captives (y :: binders)
  | .apply _ as => freeForUnderIn x captives binders as
  | .var y => y ≠ x || !binders.any (captives.contains ·)
  | .successor _ e => e.freeForUnder x captives binders
  | .zero => true

/-- The same for each argument of a list. -/
def freeForUnderIn (x : String) (captives binders : List String) : List Expr → Bool
  | [] => true
  | a :: as => a.freeForUnder x captives binders && freeForUnderIn x captives binders as

end

/-- The term `t` may be put for `x`: none of its variables is captured. -/
def isFreeFor (e : Expr) (x : String) (t : Expr) : Bool :=
  e.freeForUnder x t.freeVariables []

end Expr

end PeanoCalculus
