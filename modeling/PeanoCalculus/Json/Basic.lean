/-! # JSON

    A JSON value keeps its strings and numbers as they are written.  What they denote is settled
    only when someone asks: a string may hold half of a surrogate pair and then denotes no text, and
    a number may lie outside every range.  A value that nobody looks at does no harm that way. -/

namespace PeanoCalculus

/-- A number as it is written: sign, digits, digits after the point, and an exponent with its
    sign. -/
structure Numeral where
  negative : Bool := false
  whole : List Char
  fraction : Option (List Char) := none
  exponent : Option (Bool × List Char) := none
  deriving DecidableEq

/-- A JSON value.  A string literal is what stands between its quotation marks. -/
inductive Json where
  | null
  | bool (value : Bool)
  | number (numeral : Numeral)
  | string (literal : List Char)
  | array (items : List Json)
  | object (members : List (List Char × Json))

end PeanoCalculus
