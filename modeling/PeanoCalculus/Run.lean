import PeanoCalculus.Report.Record

/-! # Running a document

    A run either checks a document or discharges its last hypothesis, and prints the report as
    text or as JSON.  Templates are only read for a discharge, and before any formula of the
    document is. -/

namespace PeanoCalculus

/-- What to do with a document. -/
inductive Mode where
  | check
  | elaborate
  deriving DecidableEq

/-- How to print the report. -/
inductive Format where
  | text
  | json
  deriving DecidableEq

/-- The mode with a given name. -/
def Mode.ofName? : String → Option Mode
  | "check" => some .check
  | "elaborate" => some .elaborate
  | _ => none

/-- The format with a given name. -/
def Format.ofName? : String → Option Format
  | "text" => some .text
  | "json" => some .json
  | _ => none

/-- The mode with a given name, in upper or lower case. -/
def Mode.ofAnyCase? (name : String) : Option Mode :=
  ofName? name.toLower

/-- The format with a given name, in upper or lower case. -/
def Format.ofAnyCase? (name : String) : Option Format :=
  ofName? name.toLower

/-- The printed report, and the messages about what is wrong. -/
structure Output where
  document : String
  diagnostics : List String
  deriving DecidableEq

/-- Print the report on a checked document. -/
def CheckReport.output (report : CheckReport) : Format → Output
  | .text => ⟨report.render, report.diagnostics⟩
  | .json => ⟨(CheckRecord.ofReport report).toJson.render .pretty, report.diagnostics⟩

/-- Print the report on a discharge. -/
def Discharge.output (discharge : Discharge) : Format → Output
  | .text => ⟨discharge.render, discharge.diagnostics⟩
  | .json =>
    ⟨(DischargeRecord.ofDischarge discharge).toJson.render .pretty, discharge.diagnostics⟩

/-- Run a document.  Without a source of templates the built-in ones are used. -/
def run (mode : Mode) (format : Format) (templates : Option (String → Except FileFault String))
    (document : Document) : Except RunError Output :=
  match mode with
  | .check => (check document).map (·.output format)
  | .elaborate => do
    let templates ← Templates.choose templates
    let discharge ← elaborate templates document
    return discharge.output format

end PeanoCalculus
