/-! # Blank characters

    Blanks never matter in a formula: they are dropped before anything else looks at the text.  A
    character is blank when Unicode gives it the property `White_Space`.  The table below lists all
    of them, so that a no-break space or an ideographic space counts and a zero-width space does
    not. -/

namespace PeanoCalculus.Text

/-- The code points with the property `White_Space`, as closed ranges in increasing order. -/
def blankRanges : List (Nat × Nat) :=
  [(0x09, 0x0D), (0x20, 0x20), (0x85, 0x85), (0xA0, 0xA0), (0x1680, 0x1680),
   (0x2000, 0x200A), (0x2028, 0x2029), (0x202F, 0x202F), (0x205F, 0x205F), (0x3000, 0x3000)]

/-- A character in one of the blank ranges. -/
def isBlank (c : Char) : Bool :=
  blankRanges.any fun (lo, hi) => lo ≤ c.toNat && c.toNat ≤ hi

/-- A text without its blanks. -/
def squeeze (s : List Char) : List Char :=
  s.filter fun c => !isBlank c

/-- The lines of a text, blank-free, those with nothing left dropped. -/
def solidLines (text : String) : List (List Char) :=
  ((text.toList.splitOn '\n').map squeeze).filter (· ≠ [])

end PeanoCalculus.Text
