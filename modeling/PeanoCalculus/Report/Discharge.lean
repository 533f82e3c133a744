import PeanoCalculus.Elaboration
import PeanoCalculus.Report.Message

/-! # The report on a discharge

    It is the new document, or one sentence about the line that fails. -/

namespace PeanoCalculus

namespace Discharge

/-- The new document, or what is wrong with the given one. -/
def render : Discharge → String
  | .complete e => unlines (e.header :: e.lines.map (·.text))
  | .incorrect line failure => unlines [incorrectMessage line failure]

/-- A message if the new proof does not end in its conclusion. -/
def diagnostics : Discharge → List String
  | .complete e => if e.concludesGoal then [] else [unreachedMessage e.goal]
  | .incorrect .. => []

end Discharge

end PeanoCalculus
