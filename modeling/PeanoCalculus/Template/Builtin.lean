import PeanoCalculus.Template.Basic

/-! # The built-in templates

    All five are put together from three steps that stay below a condition `C`:

    * weakening, from `E` to `C->E`;
    * lifting, the same with `E` stated first, for an `E` that holds by itself;
    * distribution, from `C->A` and `C->A->B` to `C->B`.

    The quantifier templates first rearrange `H->A->B` so that the side with the quantifier stands
    alone behind one implication, apply the rule there, and rearrange back. -/

namespace PeanoCalculus.Templates

open PeanoCalculus.Expr

/-- From `E` to `C->E`. -/
def weaken (c e : Expr) : List Expr :=
  [implies e (implies c e), implies c e]

/-- An `E` that holds by itself, and `C->E`. -/
def lift (c e : Expr) : List Expr :=
  e :: weaken c e

/-- From `C->A` and `C->A->B` to `C->B`. -/
def distribute (c a b : Expr) : List Expr :=
  [implies (implies c a) (implies (implies c (implies a b)) (implies c b)),
    implies (implies c (implies a b)) (implies c b),
    implies c b]

/-- Proves `H->H`. -/
def provesItself (h : Expr) : List Expr :=
  [implies h (implies h h),
    implies (implies h (implies h h))
      (implies (implies h (implies (implies h h) h)) (implies h h)),
    implies (implies h (implies (implies h h) h)) (implies h h),
    implies h (implies (implies h h) h),
    implies h h]

/-- Proves `H->A->@xB` from `H->A->B`: the rule is applied to `H&A->B`. -/
def generalizesConsequent (h a b : Expr) (x : String) : List Expr :=
  let both := and h a
  let goal := all x b
  [implies both h, implies both a] ++
  weaken both (implies h (implies a b)) ++
  distribute both h (implies a b) ++
  distribute both a b ++
  [implies both goal,
    implies h (implies a both)] ++
  weaken h (implies both goal) ++
  lift h (implies (implies both goal) (implies a (implies both goal))) ++
  distribute h (implies both goal) (implies a (implies both goal)) ++
  lift h (implies (implies a both) (implies (implies a (implies both goal)) (implies a goal))) ++
  distribute h (implies a both) (implies (implies a (implies both goal)) (implies a goal)) ++
  distribute h (implies a (implies both goal)) (implies a goal)

/-- Proves `H->?xB->A` from `H->B->A`: the rule is applied to `B->H->A`. -/
def generalizesAntecedent (h a b : Expr) (x : String) : List Expr :=
  let source := ex x b
  weaken b (implies h (implies b a)) ++
  [implies b (implies h b)] ++
  lift b (implies (implies h b) (implies (implies h (implies b a)) (implies h a))) ++
  distribute b (implies h b) (implies (implies h (implies b a)) (implies h a)) ++
  distribute b (implies h (implies b a)) (implies h a) ++
  [implies source (implies h a)] ++
  weaken h (implies source (implies h a)) ++
  [implies h (implies source h)] ++
  lift h (implies (implies source h) (implies (implies source (implies h a)) (implies source a))) ++
  distribute h (implies source h) (implies (implies source (implies h a)) (implies source a)) ++
  distribute h (implies source (implies h a)) (implies source a)

/-- The built-in templates. -/
def builtin : Templates where
  selfImplication := provesItself (letter "H")
  lifting := lift (letter "H") (letter "A")
  modusPonens := distribute (letter "H") (letter "A") (letter "B")
  universalRule := generalizesConsequent (letter "H") (letter "A") (letter "B") "x"
  existentialRule := generalizesAntecedent (letter "H") (letter "A") (letter "B") "x"

/-- The templates of a directory, or the built-in ones if none is given. -/
def choose : Option (String → Except FileFault String) → Except RunError Templates
  | some read => load read
  | none => .ok builtin

end PeanoCalculus.Templates
