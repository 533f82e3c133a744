import PeanoCalculus.Expr.Basic

/-! # Substitution

    Two ways to replace parts of an expression.

    `Expr.substitute` puts a term for the free occurrences of one variable.  It renames no binder
    and checks no capture; `Expr.isFreeFor` is the check.

    `Expr.fill` replaces all named leaves at once, by a table of bindings: letters without arguments
    and variables, bound or not, and also a binder when its name is bound to a variable.  Schemas
    and templates are instantiated this way.

    Both rebuild chains of primes through `Expr.primed`, so a chain put into a chain is one
    chain. -/

namespace PeanoCalculus

/-- A finite table from names to expressions, each name at most once. -/
structure Bindings where
  entries : List (String × Expr) := []

namespace Bindings

/-- The expression a name is bound to. -/
def find? (b : Bindings) (name : String) : Option Expr :=
  b.entries.lookup name

/-- Bind a name, forgetting what it was bound to before. -/
def insert (b : Bindings) (name : String) (e : Expr) : Bindings :=
  ⟨b.entries.filter (fun entry => entry.1 ≠ name) ++ [(name, e)]⟩

/-- Bind the names of a list one after the other; of two entries for a name the later counts. -/
def ofList (pairs : List (String × Expr)) : Bindings :=
  pairs.foldl (fun b entry => b.insert entry.1 entry.2) {}

/-- Put an entry into a list of entries that is in increasing order of names. -/
def insertSorted (entry : String × Expr) : List (String × Expr) → List (String × Expr)
  | [] => [entry]
  | other :: rest =>
    if entry.1 < other.1 then entry :: other :: rest else other :: insertSorted entry rest

/-- The entries in increasing order of names. -/
def sorted (b : Bindings) : List (String × Expr) :=
  b.entries.foldr insertSorted []

end Bindings

namespace Expr

/-! ## One variable -/

mutual

/-- Put `t` for the free occurrences of `x`. -/
def substitute : Expr → String → Expr → Expr
  | .binary op l r, x, t => .binary op (l.substitute x t) (r.substitute x t)
  | .negation e, x, t => .negation (e.substitute x t)
  | .quantified q y e, x, t =>
    if y = x then .quantified q y e else .quantified q y (e.substitute x t)
  | .apply f as, x, t => .apply f (substituteIn as x t)
  | .var y, x, t => if y = x then t else .var y
  | .successor n e, x, t => primed n (e.substitute x t)
  | .zero, _, _ => .zero

/-- Put `t` for the free occurrences of `x` in each argument. -/
def substituteIn : List Expr → String → Expr → List Expr
  | [], _, _ => []
  | a :: as, x, t => a.substitute x t :: substituteIn as x t

end

/-! ## All named leaves at once -/

/-- The binder that takes the place of `x`: the variable it is bound to, if it is one. -/
def filledBinder (slots : Bindings) (x : String) : String :=
  match slots.find? x with
  | some (.var y) => y
  | _ => x

mutual

/-- Replace every leaf whose name is bound. -/
def fill (slots : Bindings) : Expr → Expr
  | .binary op l r => .binary op (l.fill slots) (r.fill slots)
  | .negation e => .negation (e.fill slots)
  | .quantified q x e => .quantified q (filledBinder slots x) (e.fill slots)
  | .apply f [] => (slots.find? f).getD (.apply f [])
  | .apply f (a :: as) => .apply f (a.fill slots :: fillIn slots as)
  | .var x => (slots.find? x).getD (.var x)
  | .successor n e => primed n (e.fill slots)
  | .zero => .zero

/-- Replace the named leaves of each argument. -/
def fillIn (slots : Bindings) : List Expr → List Expr
  | [] => []
  | a :: as => a.fill slots :: fillIn slots as

end

end Expr

end PeanoCalculus
