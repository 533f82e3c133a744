import PeanoCalculus.Derivation.Rules
import PeanoCalculus.Document.Statement
import PeanoCalculus.Template.Builtin

/-! # Discharging a hypothesis

    The deduction theorem as a program.  A proof of the goal from hypotheses of which `H` is the
    last becomes a proof of `H->goal` from the others: each line is checked, and then replaced by a
    template that suits the way in which it holds.

    The first line that fails ends the work. -/

namespace PeanoCalculus

/-- A proof with its last hypothesis discharged. -/
structure Elaboration where
  /-- The hypotheses that are left. -/
  hypotheses : List Expr
  discharged : Expr
  goal : Expr
  lines : List Expr

namespace Elaboration

/-- The discharged hypothesis implies the goal. -/
def conclusion (e : Elaboration) : Expr :=
  .implies e.discharged e.goal

/-- The header of the new proof. -/
def header (e : Elaboration) : String :=
  Document.headerText (e.hypotheses.map (·.text)) e.conclusion.text

/-- The new proof ends in its conclusion. -/
def concludesGoal (e : Elaboration) : Bool :=
  e.lines.getLast?.any (·.text = e.conclusion.text)

end Elaboration

/-- What discharging gives: a new proof, or the line that fails. -/
inductive Discharge where
  | complete (elaboration : Elaboration)
  | incorrect (line : Nat) (failure : Failure)

/-- The template that turns a line into one that holds below `hypothesis`, and what fills it. -/
def templateFor (d : Derivation) (hypothesis formula : Expr) (justification : Justification) :
    Option (TemplateKind × Bindings) :=
  let slots := ({} : Bindings).insert "H" hypothesis
  if formula.text = hypothesis.text then some (.selfImplication, slots)
  else
    match justification with
    | .logic _ | .arithmetic _ | .hypothesis _ => some (.lifting, slots.insert "A" formula)
    | .modusPonens i _ =>
      (d.formulaAt? i).map fun antecedent =>
        (.modusPonens, (slots.insert "A" antecedent).insert "B" formula)
    | .generalization .universal _ =>
      match formula with
      | .implies side (.quantified _ x body) =>
        some (.universalRule, ((slots.insert "A" side).insert "B" body).insert "x" (.var x))
      | _ => none
    | .generalization .existential _ =>
      match formula with
      | .implies (.quantified _ x body) side =>
        some (.existentialRule, ((slots.insert "A" side).insert "B" body).insert "x" (.var x))
      | _ => none

/-- Check the lines of a proof and replace each of them.  Gives the new lines, or the first line
    that fails. -/
def dischargeLines (templates : Templates) (hypothesis : Expr) (d : Derivation) :
    List String → Except (Nat × Failure) (List Expr)
  | [] => .ok []
  | text :: rest =>
    match Grammar.parseFormula text with
    | .error e => .error (d.lineCount, .unreadable e)
    | .ok formula =>
      match d.checkFormula formula with
      | (.error failure, _) => .error (d.lineCount, failure)
      | (.ok justification, next) =>
        match templateFor next hypothesis formula justification with
        | none => .error (d.lineCount, .unproved)
        | some (kind, slots) => do
          let lines ← dischargeLines templates hypothesis next rest
          .ok (templates.instantiate kind slots ++ lines)

/-- Discharge the last hypothesis of a document. -/
def elaborate (templates : Templates) (document : Document) : Except RunError Discharge := do
  let ⟨hypotheses, goal⟩ ← document.statement
  let d := (Derivation.start hypotheses).trackLast
  match d.trackedHypothesis? with
  | none => .error .noHypothesis
  | some discharged =>
    match dischargeLines templates discharged d document.lines with
    | .error (line, failure) => .ok (.incorrect line failure)
    | .ok lines => .ok (.complete { hypotheses := hypotheses.dropLast, discharged, goal, lines })

end PeanoCalculus
