import PeanoCalculus.Proofs.Elaboration.DeductionTheorem

/-! # What is written reads back

    A document written from formulas is read as the texts of these formulas, and each text as its
    formula.  A complete discharge is written as such a document, and to know that it reads back one
    has to know that its lines are formulas.

    For the built-in templates that follows from the lines being a proof.  Templates that are read
    from files may be anything, and what comes out of them need not be a proof.  But they are lists
    of formulas, their upper-case letters are filled with formulas and `x` with a variable, and so
    the lines are formulas again. -/

namespace PeanoCalculus

open PeanoCalculus.Expr Templates

/-! ## Templates are lists of formulas -/

/-- The lines of every template are formulas. -/
def Templates.WellFormed (templates : Templates) : Prop :=
  ∀ kind, ∀ e ∈ templates.get kind, e.IsFormula

namespace Bindings.Sorted

variable {slots : Bindings} {x : String} {e : Expr}

theorem empty : ({} : Bindings).Sorted where
  formula := fun h => nomatch h
  term := fun h => nomatch h

end Bindings.Sorted

/-- The text is that of a document with the texts of these formulas, and each of the texts is that
    of its formula. -/
structure ReadsBack (text : String) (hypotheses : List Expr) (goal : Expr) (lines : List Expr) :
    Prop where
  document : Document.parse text =
    .ok ⟨hypotheses.map (·.text), goal.text, lines.map (·.text)⟩
  hypotheses : (hypotheses.map (·.text)).mapM Grammar.parseFormula = .ok hypotheses
  goal : Grammar.parseFormula goal.text = .ok goal
  lines : (lines.map (·.text)).mapM Grammar.parseFormula = .ok lines

end PeanoCalculus
