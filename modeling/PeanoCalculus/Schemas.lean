import PeanoCalculus.Matching

/-! # The axiom schemas

    Ten schemas of propositional logic over the letters `A`, `B`, `C`, and eight of arithmetic over
    the variables `a`, `b`, `c`.  A formula is an axiom when it matches one of them.  The quantifier
    schemas and induction have side conditions and are not in these tables.

    Schemas are numbered from 1 in each table; a label is the number, after an `A` for
    arithmetic. -/

namespace PeanoCalculus.Schemas

open PeanoCalculus.Expr

/-- The schemas of propositional logic. -/
def logic : List Expr :=
  let A := letter "A"
  let B := letter "B"
  let C := letter "C"
  [ implies A (implies B A),
    implies (implies A B) (implies (implies A (implies B C)) (implies A C)),
    implies A (implies B (and A B)),
    implies (and A B) A,
    implies (and A B) B,
    implies A (or A B),
    implies B (or A B),
    implies (implies A C) (implies (implies B C) (implies (or A B) C)),
    implies (implies A B) (implies (implies A (negation B)) (negation A)),
    implies (negation (negation A)) A ]

/-- The schemas of arithmetic. -/
def arithmetic : List Expr :=
  let a := var "a"
  let b := var "b"
  let c := var "c"
  let next := primed 1
  [ implies (equals a b) (equals (next a) (next b)),
    implies (equals a b) (implies (equals a c) (equals b c)),
    implies (equals (next a) (next b)) (equals a b),
    negation (equals (next a) zero),
    equals (plus a (next b)) (next (plus a b)),
    equals (plus a zero) a,
    equals (times a zero) zero,
    equals (times a (next b)) (plus (times a b) a) ]

/-- The number of the first schema of a table that a formula matches. -/
def firstMatch (table : List Expr) (formula : Expr) : Option Nat :=
  (table.findIdx? fun schema => (matchSchema schema formula).isSome).map (· + 1)

/-- The first schema of logic that a formula matches. -/
def matchLogic (formula : Expr) : Option Nat :=
  firstMatch logic formula

/-- The first schema of arithmetic that a formula matches. -/
def matchArithmetic (formula : Expr) : Option Nat :=
  firstMatch arithmetic formula

/-- A table with the label of each schema. -/
def labelled (sign : String) (table : List Expr) : List (String × Expr) :=
  table.zipIdx.map fun (schema, i) => (sign ++ toString (i + 1), schema)

/-- The schemas of logic with their labels. -/
def labelledLogic : List (String × Expr) :=
  labelled "" logic

/-- The schemas of arithmetic with their labels. -/
def labelledArithmetic : List (String × Expr) :=
  labelled "A" arithmetic

/-- The schema with a given label. -/
def find? (label : String) : Option Expr :=
  (labelledLogic ++ labelledArithmetic).lookup label

end PeanoCalculus.Schemas
