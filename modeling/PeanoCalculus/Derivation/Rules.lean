import PeanoCalculus.Schemas
import PeanoCalculus.Grammar.Formula
import PeanoCalculus.Derivation.Basic

/-! # Checking a line

    The rules are tried in a fixed order:

    1. the quantifier rules: `?xB->A` from `B->A`, and `A->@xB` from `A->B`, where `x` is not free
       in `A`;
    2. the quantifier schemas: 11, `@xA->A[x:=t]`, and 12, `A[x:=t]->?xA`, where `t` is free for
       `x`;
    3. induction, `A[x:=0]&@x(A->A[x:=x'])->A`, where `x` is free in `A`;
    4. modus ponens;
    5. the schemas of logic, 1 to 10;
    6. the schemas of arithmetic, A1 to A8;
    7. the hypotheses.

    A rule of the first three kinds may fit the shape of a line and still fail on a side condition.
    The other rules are tried all the same; the first such failure is what is reported when no rule
    yields the line. -/

namespace PeanoCalculus

namespace Derivation

/-! ## Rules that read the shape of an implication -/

/-- A logged line with this formula, or else a hypothesis.  While a hypothesis is tracked only lines
    count. -/
def premise? (d : Derivation) (formula : Expr) : Option Premise :=
  match d.lineIndex[formula.text]? with
  | some i => some (.line i)
  | none =>
    if d.tracked.isSome then none
    else d.hypothesisIndex[formula.text]?.map .hypothesis

/-- Quantify over `x` in one side of the premise: `x` must not be free in the other side, nor in the
    tracked hypothesis. -/
def generalize (d : Derivation) (q : Quantifier) (x : String) (side : Expr) (premise : Premise) :
    Outcome :=
  if side.hasFree x then .error (.variableFree x premise)
  else
    match d.tracked with
    | none => .ok (.generalization q premise)
    | some i =>
      if d.hypotheses[i]?.any (·.hasFree x) then .error (.hypothesisVariable x i)
      else .ok (.generalization q premise)

/-- The rule that yields `?xB->A` from `B->A`. -/
def existentialRule (d : Derivation) (left right : Expr) : Option Outcome :=
  match left with
  | .ex x body => (d.premise? (.implies body right)).map (d.generalize .existential x right)
  | _ => none

/-- The rule that yields `A->@xB` from `A->B`. -/
def universalRule (d : Derivation) (left right : Expr) : Option Outcome :=
  match right with
  | .all x body => (d.premise? (.implies left body)).map (d.generalize .universal x left)
  | _ => none

end Derivation

/-- A quantifier schema: the instance must be the body with a term put for `x`, uncaptured. -/
def instantiation (schema : Nat) (body : Expr) (x : String) (candidate : Expr) : Option Outcome :=
  (matchSubstitution body candidate x).map fun m =>
    match m.capture with
    | some c => .error (.notFreeFor c.term body x)
    | none => .ok (.logic schema)

/-- Schema 11, `@xA->A[x:=t]`. -/
def universalSchema (left right : Expr) : Option Outcome :=
  match left with
  | .all x body => instantiation 11 body x right
  | _ => none

/-- Schema 12, `A[x:=t]->?xA`. -/
def existentialSchema (left right : Expr) : Option Outcome :=
  match right with
  | .ex x body => instantiation 12 body x left
  | _ => none

/-- Induction.  The line has the shape of the schema when its left side is a base and a step, and
    the step's hypothesis is the right side. -/
def inductionSchema (left right : Expr) : Option Outcome :=
  match left with
  | .and base (.all x (.implies hypothesis conclusion)) =>
    if hypothesis.text = right.text then
      if right.hasFree x ∧ base.text = (right.substitute x .zero).text ∧
          conclusion.text = (right.substitute x (.primed 1 (.var x))).text then
        some (.ok (.arithmetic 9))
      else some (.error (.inductionMismatch x))
    else none
  | _ => none

/-- The first success of a list, or else the first failure. -/
def firstSuccess : List Outcome → Option Outcome
  | [] => none
  | .ok j :: _ => some (.ok j)
  | .error f :: rest =>
    match firstSuccess rest with
    | some (.ok j) => some (.ok j)
    | _ => some (.error f)

namespace Derivation

/-- The rules for the two sides of an implication, in order. -/
def shapedRules (d : Derivation) (left right : Expr) : List Outcome :=
  [d.existentialRule left right, d.universalRule left right, universalSchema left right,
    existentialSchema left right, inductionSchema left right].filterMap id

/-- What the rules that read the shape of a formula say of it, if any of them fits. -/
def shaped (d : Derivation) (formula : Expr) : Option Outcome :=
  match formula with
  | .implies left right => firstSuccess (d.shapedRules left right)
  | _ => none

/-! ## The other rules -/

/-- The lexicographically least pair of a list. -/
def leastPair : List (Nat × Nat) → Option (Nat × Nat)
  | [] => none
  | p :: rest =>
    match leastPair rest with
    | none => some p
    | some q => if p.1 < q.1 ∨ p.1 = q.1 ∧ p.2 ≤ q.2 then some p else some q

/-- Modus ponens, from the earliest antecedent, and with it from the earliest implication. -/
def modusPonens? (d : Derivation) (formula : Expr) : Option Justification :=
  let pairs := (d.implicationIndex.getD formula.text []).filterMap fun (antecedent, j) =>
    d.lineIndex[antecedent]?.map (·, j)
  (leastPair pairs).map fun (i, j) => .modusPonens i j

/-- The first rule, from modus ponens on, that yields a formula. -/
def plain? (d : Derivation) (formula : Expr) : Option Justification :=
  d.modusPonens? formula <|>
  (Schemas.matchLogic formula).map .logic <|>
  (Schemas.matchArithmetic formula).map .arithmetic <|>
  d.hypothesisIndex[formula.text]?.map .hypothesis

/-! ## Checking -/

/-- The rule that yields a formula, or what is wrong with it. -/
def justify (d : Derivation) (formula : Expr) : Outcome :=
  match d.shaped formula with
  | some (.ok j) => .ok j
  | some (.error f) => (d.plain? formula).elim (.error f) .ok
  | none => (d.plain? formula).elim (.error .unproved) .ok

/-- Check the next line, and log it if it holds. -/
def checkFormula (d : Derivation) (formula : Expr) : Outcome × Derivation :=
  match d.justify formula with
  | .ok j => (.ok j, (d.record formula j).advance)
  | .error f => (.error f, d.advance)

/-- Read and check the next line.  A line that cannot be read takes its number too. -/
def checkLine (d : Derivation) (text : String) : Outcome × Derivation :=
  match Grammar.parseFormula text with
  | .ok formula => d.checkFormula formula
  | .error e => (.error (.unreadable e), d.advance)

/-- Check lines one after the other. -/
def checkLines (d : Derivation) : List String → List Outcome × Derivation
  | [] => ([], d)
  | text :: rest =>
    let (outcome, d) := d.checkLine text
    let (outcomes, d) := d.checkLines rest
    (outcome :: outcomes, d)

end Derivation

end PeanoCalculus
