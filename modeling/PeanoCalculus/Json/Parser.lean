import PeanoCalculus.Json.Text
import PeanoCalculus.Json.Number

/-! # Reading JSON

    The readers take the characters that are left and return a value with the rest, or nothing when
    the text is malformed.  Blanks may stand around every value and every mark.  The number they
    carry bounds how deep they call each other; twice the length of the text is enough. -/

namespace PeanoCalculus.Json

/-- The four blanks of JSON. -/
def isSpace (c : Char) : Bool :=
  c == ' ' || c == '\t' || c == '\n' || c == '\r'

/-- A text without the blanks at its front. -/
def skipSpace (s : List Char) : List Char :=
  s.dropWhile isSpace

/-! ## Literals -/

/-- A text up to the next quotation mark that no backslash precedes, and the rest after it.  No
    control character may stand in between. -/
def untilQuote : List Char → Option (List Char × List Char)
  | [] => none
  | '"' :: s => some ([], s)
  | '\\' :: c :: s => (untilQuote s).map fun (literal, rest) => ('\\' :: c :: literal, rest)
  | c :: s =>
    if c.toNat < 0x20 then none
    else (untilQuote s).map fun (literal, rest) => (c :: literal, rest)

/-- A string literal after its opening quotation mark.  Its escapes must be well formed, though they
    need not denote a text. -/
def stringLiteral (s : List Char) : Option (List Char × List Char) := do
  let (literal, rest) ← untilQuote s
  let _ ← pieces? literal
  some (literal, rest)

/-- One or more digits. -/
def someDigits (s : List Char) : Option (List Char × List Char) :=
  if (s.takeWhile Char.isDigit).isEmpty then none
  else some (s.takeWhile Char.isDigit, s.dropWhile Char.isDigit)

/-- A minus sign or none. -/
def minusSign : List Char → Bool × List Char
  | '-' :: s => (true, s)
  | s => (false, s)

/-- The digits before the point: a zero, or digits that do not begin with one. -/
def wholePart : List Char → Option (List Char × List Char)
  | '0' :: s => some (['0'], s)
  | s => someDigits s

/-- A point with digits after it, or nothing. -/
def fractionPart : List Char → Option (Option (List Char) × List Char)
  | '.' :: s => (someDigits s).map fun (ds, rest) => (some ds, rest)
  | s => some (none, s)

/-- The sign and digits of an exponent, or nothing. -/
def exponentPart : List Char → Option (Option (Bool × List Char) × List Char)
  | c :: s =>
    if c = 'e' ∨ c = 'E' then
      let (negative, s) :=
        match s with
        | '+' :: s => (false, s)
        | s => minusSign s
      (someDigits s).map fun (ds, rest) => (some (negative, ds), rest)
    else some (none, c :: s)
  | [] => some (none, [])

/-- A number. -/
def numeral (s : List Char) : Option (Numeral × List Char) := do
  let (negative, s) := minusSign s
  let (whole, s) ← wholePart s
  let (fraction, s) ← fractionPart s
  let (exponent, s) ← exponentPart s
  some ({ negative, whole, fraction, exponent }, s)

/-! ## Values -/

mutual

/-- A value, after any blanks. -/
def value : Nat → List Char → Option (Json × List Char)
  | 0, _ => none
  | n + 1, s =>
    match skipSpace s with
    | [] => none
    | 'n' :: 'u' :: 'l' :: 'l' :: s => some (.null, s)
    | 't' :: 'r' :: 'u' :: 'e' :: s => some (.bool true, s)
    | 'f' :: 'a' :: 'l' :: 's' :: 'e' :: s => some (.bool false, s)
    | '"' :: s => (stringLiteral s).map fun (literal, rest) => (.string literal, rest)
    | '[' :: s =>
      match skipSpace s with
      | ']' :: s => some (.array [], s)
      | _ => do
        let (item, rest) ← value n s
        let (items, rest) ← moreItems n rest
        some (.array (item :: items), rest)
    | '\x7b' :: s =>
      match skipSpace s with
      | '\x7d' :: s => some (.object [], s)
      | _ => do
        let (m, rest) ← oneMember n s
        let (members, rest) ← moreMembers n rest
        some (.object (m :: members), rest)
    | s => (numeral s).map fun (n, rest) => (.number n, rest)

/-- The further items of an array, up to its end. -/
def moreItems : Nat → List Char → Option (List Json × List Char)
  | 0, _ => none
  | n + 1, s =>
    match skipSpace s with
    | ']' :: s => some ([], s)
    | ',' :: s => do
      let (item, rest) ← value n s
      let (items, rest) ← moreItems n rest
      some (item :: items, rest)
    | _ => none

/-- The further members of an object, up to its end. -/
def moreMembers : Nat → List Char → Option (List (List Char × Json) × List Char)
  | 0, _ => none
  | n + 1, s =>
    match skipSpace s with
    | '\x7d' :: s => some ([], s)
    | ',' :: s => do
      let (m, rest) ← oneMember n s
      let (members, rest) ← moreMembers n rest
      some (m :: members, rest)
    | _ => none

/-- A member: a string literal, a colon, a value. -/
def oneMember : Nat → List Char → Option ((List Char × Json) × List Char)
  | 0, _ => none
  | n + 1, s =>
    match skipSpace s with
    | '"' :: s => do
      let (name, rest) ← stringLiteral s
      match skipSpace rest with
      | ':' :: s => (value n s).map fun (v, rest) => ((name, v), rest)
      | _ => none
    | _ => none

end

/-- Read a text that is one value. -/
def parse? (text : String) : Option Json :=
  match value (2 * text.toList.length + 2) text.toList with
  | some (v, rest) => if (skipSpace rest).isEmpty then some v else none
  | none => none

end PeanoCalculus.Json
