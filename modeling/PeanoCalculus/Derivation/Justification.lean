import PeanoCalculus.Expr.Printer
import PeanoCalculus.Grammar.Fault

/-! # Why a line holds, or why it does not

    A `Justification` names the rule that yields a line and the lines or hypotheses it rests on.  A
    `Failure` says what is wrong with a line that no rule yields: it could not be read, a rule or a
    schema fits its shape but a side condition fails, or nothing fits at all.

    Lines and hypotheses are counted from 0 here and from 1 in every text. -/

namespace PeanoCalculus

/-- Indices are words of 64 bits. -/
def wordLimit : Nat :=
  UInt64.size

/-- The number by which a text calls the item with this index. -/
def ordinal (index : Nat) : String :=
  toString ((index + 1) % wordLimit)

/-- What a quantifier rule is applied to: an earlier line or a hypothesis. -/
inductive Premise where
  | line (index : Nat)
  | hypothesis (index : Nat)
  deriving DecidableEq

/-- The index of a premise among the lines or among the hypotheses. -/
def Premise.index : Premise → Nat
  | .line i | .hypothesis i => i

/-- The premise is a hypothesis. -/
def Premise.isHypothesis : Premise → Bool
  | .line _ => false
  | .hypothesis _ => true

/-- The rule that yields a line.  The schemas of logic include 11 and 12 for the quantifiers, those
    of arithmetic include 9, induction. -/
inductive Justification where
  | logic (schema : Nat)
  | arithmetic (schema : Nat)
  | modusPonens (antecedent implication : Nat)
  | hypothesis (index : Nat)
  | generalization (q : Quantifier) (premise : Premise)
  deriving DecidableEq

/-- The justification as it is printed beside a line. -/
def Justification.label : Justification → String
  | .logic n => "Ax. sch. " ++ toString n
  | .arithmetic n => "Ax. sch. A" ++ toString n
  | .modusPonens i j => "M.P. " ++ ordinal i ++ ", " ++ ordinal j
  | .hypothesis i => "Hyp. " ++ ordinal i
  | .generalization q p =>
    "Inf. rule " ++ q.symbol.toString ++ " from " ++
      (if p.isHypothesis then "hypothesis " else "") ++ ordinal p.index

/-- What is wrong with a line. -/
inductive Failure where
  | unreadable (error : Grammar.ParseError)
  /-- A quantifier rule fits, but its variable is free in the other side of the implication. -/
  | variableFree (x : String) (premise : Premise)
  /-- A quantifier rule fits, but its variable is free in the hypothesis being discharged. -/
  | hypothesisVariable (x : String) (hypothesis : Nat)
  /-- A quantifier schema fits, but the term put for its variable is captured. -/
  | notFreeFor (term formula : Expr) (x : String)
  /-- The shape is that of induction, but the base or the step is not. -/
  | inductionMismatch (x : String)
  | unproved
  deriving DecidableEq

/-- The failure in words. -/
def Failure.message : Failure → String
  | .unreadable e => e.message
  | .variableFree x p => "variable " ++ x ++ " occurs free in formula " ++ ordinal p.index
  | .hypothesisVariable x i =>
    "a rule quantifies over variable " ++ x ++ ", which occurs free in assumption " ++ ordinal i
  | .notFreeFor t f x =>
    "term " ++ t.text ++ " is not free for substitution into formula " ++ f.text ++
      " in place of variable " ++ x
  | .inductionMismatch x =>
    "formula is not an instance of the induction schema over variable " ++ x
  | .unproved => "not proved"

/-- What checking says about one line. -/
abbrev Outcome := Except Failure Justification

end PeanoCalculus
