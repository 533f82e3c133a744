import PeanoCalculus.Json.Basic

/-! # Writing JSON

    There are two layouts.  The compact one has no blanks.  The pretty one puts every item and every
    member on a line of its own, indented by two spaces a level, and a space after each colon; an
    empty array or object stays on its line. -/

namespace PeanoCalculus

/-- How the parts of a value are set apart. -/
inductive Layout where
  | compact
  | pretty
  deriving DecidableEq

/-- What stands before an item at a level. -/
def Layout.newline : Layout → Nat → List Char
  | .compact, _ => []
  | .pretty, level => '\n' :: List.replicate (2 * level) ' '

/-- What stands between the name and the value of a member. -/
def Layout.colon : Layout → List Char
  | .compact => [':']
  | .pretty => [':', ' ']

/-- A numeral as it is written. -/
def Numeral.chars (n : Numeral) : List Char :=
  let sign (negative : Bool) : List Char := if negative then ['-'] else []
  let fraction := n.fraction.elim [] ('.' :: ·)
  let exponent := n.exponent.elim [] fun (negative, ds) => 'e' :: (sign negative ++ ds)
  sign n.negative ++ n.whole ++ fraction ++ exponent

namespace Json

/-- A literal in its quotation marks. -/
def quoted (literal : List Char) : List Char :=
  '"' :: (literal ++ ['"'])

mutual

/-- A value at a level of indentation. -/
def chars (layout : Layout) (level : Nat) : Json → List Char
  | .null => "null".toList
  | .bool true => "true".toList
  | .bool false => "false".toList
  | .number n => n.chars
  | .string literal => quoted literal
  | .array [] => ['[', ']']
  | .array (item :: items) =>
    '[' :: (layout.newline (level + 1) ++ chars layout (level + 1) item ++
      itemsAfter layout level items)
  | .object [] => ['\x7b', '\x7d']
  | .object (m :: members) =>
    '\x7b' :: (layout.newline (level + 1) ++ memberChars layout (level + 1) m ++
      membersAfter layout level members)

/-- The further items of an array, and its end. -/
def itemsAfter (layout : Layout) (level : Nat) : List Json → List Char
  | [] => layout.newline level ++ [']']
  | item :: items =>
    ',' :: (layout.newline (level + 1) ++ chars layout (level + 1) item ++
      itemsAfter layout level items)

/-- The further members of an object, and its end. -/
def membersAfter (layout : Layout) (level : Nat) : List (List Char × Json) → List Char
  | [] => layout.newline level ++ ['\x7d']
  | m :: members =>
    ',' :: (layout.newline (level + 1) ++ memberChars layout (level + 1) m ++
      membersAfter layout level members)

/-- A member: its name, a colon, its value. -/
def memberChars (layout : Layout) (level : Nat) : List Char × Json → List Char
  | (name, value) => quoted name ++ layout.colon ++ chars layout level value

end

/-- The text of a value. -/
def render (layout : Layout) (value : Json) : String :=
  String.ofList (value.chars layout 0)

end Json

end PeanoCalculus
