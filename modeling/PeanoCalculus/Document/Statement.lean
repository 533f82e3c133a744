import PeanoCalculus.Grammar.Formula
import PeanoCalculus.Error

/-! # What a document states

    The header of a document claims that the goal follows from the hypotheses.  Here its texts are
    read as formulas: the hypotheses from left to right, then the goal.  The first text that is no
    formula is the error. -/

namespace PeanoCalculus

/-- The goal follows from the hypotheses. -/
structure Statement where
  hypotheses : List Expr
  goal : Expr

/-- Read the header of a document. -/
def Document.statement (document : Document) : Except RunError Statement := do
  let hypotheses ← (document.hypotheses.mapM Grammar.parseFormula).mapError .unreadable
  let goal ← (Grammar.parseFormula document.goal).mapError .unreadable
  return { hypotheses, goal }

end PeanoCalculus
