import PeanoCalculus.Text.Blank

/-! # Proof documents

    A document is a header, hypotheses and goal around a turnstile `|-`, followed by one formula a
    line.  Blanks do not count, and lines with nothing else are skipped.  The hypotheses are
    separated by commas outside parentheses; empty ones are dropped.

    Reading a document splits it into texts and reads no formula: one that is malformed spoils only
    its own line. -/

namespace PeanoCalculus

/-- The texts of a proof document, without blanks. -/
structure Document where
  hypotheses : List String
  goal : String
  lines : List String
  deriving DecidableEq

/-- What is wrong with the header of a document. -/
inductive HeaderFault where
  | empty
  | noTurnstile (header : String)
  | noGoal (header : String)
  deriving DecidableEq

/-- The fault in words. -/
def HeaderFault.message : HeaderFault → String
  | .empty => "empty input"
  | .noTurnstile header => "missing `|-` in `" ++ header ++ "`"
  | .noGoal header => "missing goal in `" ++ header ++ "`"

namespace Document

/-- The depth of parentheses after one more character; a closing parenthesis may bring it below
    zero.  It is an integer of any size, the same as a 32-bit one on texts with fewer than 2^31
    parentheses. -/
def depthAfter (depth : Int) (c : Char) : Int :=
  if c = '(' then depth + 1 else if c = ')' then depth - 1 else depth

/-- Cut a text at each separator at depth 0.  The pieces may be empty. -/
def pieces (separator : Char) : Int → List Char → List (List Char)
  | _, [] => [[]]
  | depth, c :: s =>
    let depth := depthAfter depth c
    if c = separator ∧ depth = 0 then [] :: pieces separator depth s
    else
      match pieces separator depth s with
      | piece :: rest => (c :: piece) :: rest
      | [] => [[c]]

/-- The pieces of a text between the separators outside parentheses, empty ones dropped. -/
def splitTopLevel (text : List Char) (separator : Char) : List (List Char) :=
  (pieces separator 0 text).filter (· ≠ [])

/-- The texts before and after the first turnstile. -/
def splitTurnstile : List Char → Option (List Char × List Char)
  | '|' :: '-' :: s => some ([], s)
  | c :: s => (splitTurnstile s).map fun (before, after) => (c :: before, after)
  | [] => none

/-- Split a text into header and lines. -/
def parse (text : String) : Except HeaderFault Document :=
  match Text.solidLines text with
  | [] => .error .empty
  | header :: lines =>
    match splitTurnstile header with
    | none => .error (.noTurnstile (String.ofList header))
    | some (_, []) => .error (.noGoal (String.ofList header))
    | some (before, goal) =>
      .ok {
        hypotheses := (splitTopLevel before ',').map String.ofList
        goal := String.ofList goal
        lines := lines.map String.ofList }

/-- Hypotheses and goal as a header. -/
def headerText (hypotheses : List String) (goal : String) : String :=
  String.intercalate "," hypotheses ++ "|-" ++ goal

/-- The header of a document. -/
def header (d : Document) : String :=
  headerText d.hypotheses d.goal

end Document

end PeanoCalculus
