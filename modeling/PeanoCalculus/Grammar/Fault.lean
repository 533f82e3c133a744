/-! # Where reading fails

    A reader works on the characters that are left.  When it cannot go on it leaves a trace: first
    what was missing and where, then, on the way out, the choice it belonged to and the names of
    the constructs that it was part of.  A fault with its trace is soft as long as another form
    may be tried in its place; behind a sign that decides for one form it is hard.

    An error names the innermost construct of the trace, and failing that what was missing.  Its
    position is where the trace begins: the difference of two lengths, counted in bytes of
    UTF-8. -/

namespace PeanoCalculus.Grammar

/-- The parts of a reader that can fail with no particular character missing. -/
inductive Step where
  | spelling
  | choice
  | character
  | kind
  | repetition
  deriving DecidableEq

/-- The words for it in a message. -/
def Step.words : Step → String
  | .spelling => "tag"
  | .choice => "alternative"
  | .character => "char"
  | .kind => "satisfy"
  | .repetition => "many0"

/-- What a trace notes down: a character that is missing, a step that failed, or the construct
    inside which that happened. -/
inductive Cause where
  | missing (c : Char)
  | failed (step : Step)
  | inside (name : String)
  deriving DecidableEq

/-- The words for it in a message. -/
def Cause.words : Cause → String
  | .missing c => "'" ++ String.ofList [c] ++ "'"
  | .failed step => step.words
  | .inside name => name

/-- The name of a construct. -/
def Cause.construct? : Cause → Option String
  | .inside name => some name
  | _ => none

/-- A note in a trace, with the text that was left at that point. -/
structure Note where
  rest : List Char
  cause : Cause
  deriving DecidableEq

/-- The notes of a failure, innermost first. -/
abbrev Trace := List Note

/-- A reader cannot go on: where it began, though another form may be tried; for good; or for want
    of text that may still come. -/
inductive Fault where
  | soft (trace : Trace)
  | hard (trace : Trace)
  | incomplete
  deriving DecidableEq

/-- The fault with one more note at the end of its trace. -/
def Fault.noted (note : Note) : Fault → Fault
  | .soft trace => .soft (trace ++ [note])
  | .hard trace => .hard (trace ++ [note])
  | .incomplete => .incomplete

/-- The length of a text in bytes of UTF-8. -/
def byteLength (s : List Char) : Nat :=
  s.foldr (fun c n => c.utf8Size + n) 0

/-- The innermost construct that the trace names. -/
def Trace.construct? (trace : Trace) : Option String :=
  trace.findSome? fun note => note.cause.construct?

/-- What was expected: that construct, or else the words of the first note. -/
def Trace.expected (trace : Trace) : String :=
  (trace.construct?.or (trace.head?.map fun note => note.cause.words)).getD "formula"

/-- Where the trace begins, as a byte offset into the whole text. -/
def Trace.position (trace : Trace) (whole : List Char) : Nat :=
  (trace.head?.map fun note => byteLength whole - byteLength note.rest).getD 0

/-- A text that is no formula, or no term.  The position is a byte offset into `text`, which is the
    given text without blanks. -/
structure ParseError where
  expected : String
  position : Nat
  text : String
  deriving DecidableEq

/-- The error that a fault in the whole text amounts to. -/
def Fault.report (whole : List Char) : Fault → ParseError
  | .soft trace | .hard trace => ⟨trace.expected, trace.position whole, String.ofList whole⟩
  | .incomplete => ⟨"more input", byteLength whole, String.ofList whole⟩

/-- The error in words. -/
def ParseError.message (e : ParseError) : String :=
  "expected " ++ e.expected ++ " at position " ++ toString e.position ++
    " in `" ++ e.text ++ "`"

end PeanoCalculus.Grammar
