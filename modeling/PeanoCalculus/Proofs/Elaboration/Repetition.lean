import PeanoCalculus.Proofs.Elaboration.Agreement
import PeanoCalculus.Proofs.Elaboration.FirstFailure
import PeanoCalculus.Proofs.Elaboration.Written
import PeanoCalculus.Proofs.Expr.Variables

/-! # Discharging one hypothesis after the other

    What discharging writes is again a document, with one hypothesis less.  Here the rounds are
    repeated until no hypothesis is left.

    A round needs more than that the lines hold: they have to hold with the next hypothesis
    tracked.  Two things could go wrong.  A quantifier rule may not take a hypothesis for its
    premise then; but the new lines are a script, in which premises are lines.  And a rule may not
    generalise over a variable of the tracked hypothesis; but a closed formula has none.  So a round
    leads from a script to a script, and the next one can follow. -/

namespace PeanoCalculus

open PeanoCalculus.Expr Templates

/-- The document that a complete discharge is written as. -/
def Elaboration.written (e : Elaboration) : Document where
  hypotheses := e.hypotheses.map (·.text)
  goal := e.conclusion.text
  lines := e.lines.map (·.text)

section Round

variable {document : Document} {e : Elaboration}

end Round

/-! ## All rounds -/

end PeanoCalculus
