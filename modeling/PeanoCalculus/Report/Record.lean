import PeanoCalculus.Report.Check
import PeanoCalculus.Report.Discharge
import PeanoCalculus.Json.Fields
import PeanoCalculus.Json.Parser
import PeanoCalculus.Json.Printer

/-! # Reports as JSON

    Each report has a record of plain texts, counts and truth values, which is written as a JSON
    object and can be read back.  Members are written in a fixed order.  What is absent is left out
    when writing; when reading, a member that may be absent may also be null, except the mark of a
    hypothesis premise.

    A justification is a tagged record with the tag `rule`, and the record of a discharge one with
    the tag `result`. -/

namespace PeanoCalculus

/-- An object with the given members. -/
def Json.record (members : List (String × Json)) : Json :=
  .object (members.map fun (name, value) => (Json.escape name.toList, value))

/-- A member that is left out when there is nothing to write. -/
def Json.optionalMember (name : String) (value : Option Json) : List (String × Json) :=
  value.toList.map (name, ·)

/-! ## Justifications -/

namespace Premise

/-- The premise with a given index. -/
def ofIndex (index : Nat) (isHypothesis : Bool) : Premise :=
  if isHypothesis then .hypothesis index else .line index

/-- The members for a premise. -/
def members (p : Premise) : List (String × Json) :=
  ("premise", .ofNat p.index) ::
    (if p.isHypothesis then [("from_hypothesis", .bool true)] else [])

/-- Read a premise. -/
def ofFields? (fields : List (String × Json)) : Option Premise := do
  let index ← Json.required fields "premise" Json.word?
  let isHypothesis ← Json.defaulted fields "from_hypothesis" false Json.bool?
  some (ofIndex index isHypothesis)

end Premise

namespace Justification

/-- The JSON form of a justification. -/
def toJson : Justification → Json
  | .logic n => .record [("rule", .ofString "axiom"), ("schema", .ofNat n)]
  | .arithmetic n => .record [("rule", .ofString "arithmetic"), ("schema", .ofNat n)]
  | .modusPonens i j =>
    .record [("rule", .ofString "modus_ponens"), ("antecedent", .ofNat i),
      ("implication", .ofNat j)]
  | .hypothesis i => .record [("rule", .ofString "hypothesis"), ("index", .ofNat i)]
  | .generalization .universal p => .record (("rule", .ofString "for_all_rule") :: p.members)
  | .generalization .existential p => .record (("rule", .ofString "exists_rule") :: p.members)

/-- Read a justification that lies inside `outer` containers. -/
def ofJson? (outer : Nat) (value : Json) : Option Justification := do
  let (rule, fields) ← value.tagged? outer "rule"
  match rule with
  | "axiom" => (Json.required fields "schema" Json.word?).map .logic
  | "arithmetic" => (Json.required fields "schema" Json.word?).map .arithmetic
  | "modus_ponens" => do
    let i ← Json.required fields "antecedent" Json.word?
    let j ← Json.required fields "implication" Json.word?
    some (.modusPonens i j)
  | "hypothesis" => (Json.required fields "index" Json.word?).map .hypothesis
  | "for_all_rule" => (Premise.ofFields? fields).map (.generalization .universal)
  | "exists_rule" => (Premise.ofFields? fields).map (.generalization .existential)
  | _ => none

end Justification

/-! ## Checked lines -/

/-- The record of a checked line. -/
structure LineRecord where
  number : Nat
  formula : String
  justification : Option Justification
  label : String
  error : Option String
  deriving DecidableEq

namespace LineRecord

/-- What the report on a line records. -/
def ofLine (line : CheckedLine) : LineRecord where
  number := line.index + 1
  formula := line.text
  justification := line.outcome.toOption
  label := line.label
  error :=
    match line.outcome with
    | .ok _ => none
    | .error failure => some failure.message

/-- The JSON form of a line. -/
def toJson (r : LineRecord) : Json :=
  .record (
    [("number", .ofNat r.number), ("formula", .ofString r.formula)] ++
    Json.optionalMember "justification" (r.justification.map (·.toJson)) ++
    [("label", .ofString r.label)] ++
    Json.optionalMember "error" (r.error.map .ofString))

/-- Read a line that lies inside `outer` containers. -/
def ofJson? (outer : Nat) (value : Json) : Option LineRecord := do
  let fields ← value.fields?
  let number ← Json.required fields "number" Json.word?
  let formula ← Json.required fields "formula" Json.text?
  let justification ← Json.nullable fields "justification" (Justification.ofJson? (outer + 1))
  let label ← Json.required fields "label" Json.text?
  let error ← Json.nullable fields "error" Json.text?
  some { number, formula, justification, label, error }

end LineRecord

/-! ## Checked documents -/

/-- The record of a checked document. -/
structure CheckRecord where
  header : String
  goal : String
  lines : List LineRecord
  failures : Nat
  goalReached : Bool
  deriving DecidableEq

namespace CheckRecord

/-- What the report on a document records. -/
def ofReport (report : CheckReport) : CheckRecord where
  header := report.header
  goal := report.goal.text
  lines := report.lines.map .ofLine
  failures := report.failures.length
  goalReached := report.goalReached

/-- The JSON form of a checked document. -/
def toJson (r : CheckRecord) : Json :=
  .record [("header", .ofString r.header), ("goal", .ofString r.goal),
    ("lines", .array (r.lines.map (·.toJson))), ("failures", .ofNat r.failures),
    ("goal_reached", .bool r.goalReached)]

/-- Read a checked document. -/
def ofJson? (value : Json) : Option CheckRecord := do
  let fields ← value.fields?
  let header ← Json.required fields "header" Json.text?
  let goal ← Json.required fields "goal" Json.text?
  let lines ← Json.required fields "lines" (Json.list? (LineRecord.ofJson? 2))
  let failures ← Json.required fields "failures" Json.word?
  let goalReached ← Json.required fields "goal_reached" Json.bool?
  some { header, goal, lines, failures, goalReached }

end CheckRecord

/-! ## Discharges -/

/-- The record of a discharge. -/
inductive DischargeRecord where
  | complete (header : String) (lines : List String) (goalReached : Bool)
  | incorrect (line : Nat) (reason : String)
  deriving DecidableEq

namespace DischargeRecord

/-- What the report on a discharge records. -/
def ofDischarge : Discharge → DischargeRecord
  | .complete e => .complete e.header (e.lines.map (·.text)) e.concludesGoal
  | .incorrect line failure => .incorrect (line + 1) failure.message

/-- The JSON form of a discharge. -/
def toJson : DischargeRecord → Json
  | .complete header lines goalReached =>
    .record [("result", .ofString "Complete"), ("header", .ofString header),
      ("lines", .array (lines.map .ofString)), ("goal_reached", .bool goalReached)]
  | .incorrect line reason =>
    .record [("result", .ofString "Incorrect"), ("line", .ofNat line),
      ("reason", .ofString reason)]

/-- Read a discharge. -/
def ofJson? (value : Json) : Option DischargeRecord := do
  let (result, fields) ← value.tagged? 0 "result"
  match result with
  | "Complete" => do
    let header ← Json.required fields "header" Json.text?
    let lines ← Json.required fields "lines" (Json.list? Json.text?)
    let goalReached ← Json.required fields "goal_reached" Json.bool?
    some (.complete header lines goalReached)
  | "Incorrect" => do
    let line ← Json.required fields "line" Json.word?
    let reason ← Json.required fields "reason" Json.text?
    some (.incorrect line reason)
  | _ => none

end DischargeRecord

end PeanoCalculus
