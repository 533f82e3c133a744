import PeanoCalculus.Derivation.Rules
import PeanoCalculus.Document.Statement
import PeanoCalculus.Report.Message

/-! # Checking a document

    Every line is checked, also after one that fails, and in the end the report says whether the
    last line that holds is the goal.  It is printed as the document with a label beside each
    line. -/

namespace PeanoCalculus

/-- A line of a document and what checking says about it. -/
structure CheckedLine where
  index : Nat
  text : String
  outcome : Outcome

namespace CheckedLine

/-- The line does not hold. -/
def failed (line : CheckedLine) : Bool :=
  !line.outcome.toBool

/-- What is printed beside the line. -/
def label (line : CheckedLine) : String :=
  match line.outcome with
  | .ok justification => justification.label
  | .error _ => "Not proved"

/-- The line with its number and label. -/
def render (line : CheckedLine) : String :=
  "(" ++ ordinal line.index ++ ") " ++ line.text ++ " (" ++ line.label ++ ")"

/-- What is wrong with the line. -/
def diagnostic? (line : CheckedLine) : Option String :=
  match line.outcome with
  | .ok _ => none
  | .error failure => some (incorrectMessage line.index failure)

end CheckedLine

/-- The result of checking a document. -/
structure CheckReport where
  header : String
  goal : Expr
  lines : List CheckedLine
  /-- The last line that holds is the goal. -/
  goalReached : Bool

namespace CheckReport

/-- The lines that fail. -/
def failures (report : CheckReport) : List CheckedLine :=
  report.lines.filter (·.failed)

/-- Every line holds and the last is the goal. -/
def isCorrect (report : CheckReport) : Bool :=
  report.goalReached && report.failures.isEmpty

/-- A message for each line that fails, their number if there are any, and a message if the goal is
    not reached. -/
def diagnostics (report : CheckReport) : List String :=
  let failed := report.lines.filterMap (·.diagnostic?)
  let count := if failed.isEmpty then [] else
    [toString failed.length ++ " of " ++ toString report.lines.length ++ " lines not proved"]
  let unreached := if report.goalReached then [] else [unreachedMessage report.goal]
  failed ++ count ++ unreached

/-- The header and the labelled lines. -/
def render (report : CheckReport) : String :=
  unlines (report.header :: report.lines.map (·.render))

end CheckReport

/-- Check every line of a document. -/
def check (document : Document) : Except RunError CheckReport := do
  let ⟨hypotheses, goal⟩ ← document.statement
  let (outcomes, d) := (Derivation.start hypotheses).checkLines document.lines
  return {
    header := document.header
    goal
    lines :=
      (document.lines.zip outcomes).zipIdx.map fun ((text, outcome), i) => ⟨i, text, outcome⟩
    goalReached := d.last?.any (·.formula.text = goal.text) }

end PeanoCalculus
