import PeanoCalculus.Grammar.Fault
import PeanoCalculus.Document

/-! # What can go wrong before a proof is looked at

    A proof that does not hold is a result and no error.  Errors are files that cannot be read or
    written, documents without a proper header, hypotheses, goals and templates that are no
    formulas, and a discharge with nothing to discharge. -/

namespace PeanoCalculus

/-- Why a file could not be read or written. -/
inductive FileFault where
  | notFound
  | notDirectory
  | isDirectory
  | nameTooLong
  | notText
  | other (message : String)
  deriving DecidableEq

/-- The fault in words. -/
def FileFault.message : FileFault → String
  | .notFound => "No such file or directory (os error 2)"
  | .notDirectory => "Not a directory (os error 20)"
  | .isDirectory => "Is a directory (os error 21)"
  | .nameTooLong => "File name too long (os error 36)"
  | .notText => "stream did not contain valid UTF-8"
  | .other message => message

/-- An error that ends a run. -/
inductive RunError where
  | file (fault : FileFault)
  | unreadable (error : Grammar.ParseError)
  | header (fault : HeaderFault)
  | template (name : String) (error : Grammar.ParseError)
  | noHypothesis
  deriving DecidableEq

/-- The error in words. -/
def RunError.message : RunError → String
  | .file fault => "IO error: " ++ fault.message
  | .unreadable e => "Parse error: " ++ e.message
  | .header fault => "Malformed header: " ++ fault.message
  | .template name e => "Template `" ++ name ++ "` is invalid: " ++ e.message
  | .noHypothesis => "No hypothesis to discharge"

/-- The error behind it, in words. -/
def RunError.cause? : RunError → Option String
  | .file fault => some fault.message
  | .unreadable e | .template _ e => some e.message
  | .header _ | .noHypothesis => none

end PeanoCalculus
