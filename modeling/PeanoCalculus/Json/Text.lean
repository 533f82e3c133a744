import PeanoCalculus.Json.Basic

/-! # String literals

    Between quotation marks every character stands for itself, except the quotation mark, the
    backslash and the control characters, which are written after a backslash.  Any 16-bit unit may
    be written with four hexadecimal digits; two of them that form a surrogate pair stand for one
    character, and half a pair stands for nothing.

    Writing uses the short forms where there are any, and hexadecimal digits for the other control
    characters. -/

namespace PeanoCalculus.Json

/-! ## Writing -/

/-- A hexadecimal digit, in lower case. -/
def hexDigit (n : Nat) : Char :=
  Char.ofNat (if n < 10 then '0'.toNat + n else 'a'.toNat + (n - 10))

/-- How a character is written. -/
def escapeChar (c : Char) : List Char :=
  if c = '"' then ['\\', '"']
  else if c = '\\' then ['\\', '\\']
  else if c = '\x08' then ['\\', 'b']
  else if c = '\t' then ['\\', 't']
  else if c = '\n' then ['\\', 'n']
  else if c = '\x0c' then ['\\', 'f']
  else if c = '\r' then ['\\', 'r']
  else if c.toNat < 0x20 then
    ['\\', 'u', '0', '0', hexDigit (c.toNat / 16), hexDigit (c.toNat % 16)]
  else [c]

/-- The literal of a text. -/
def escape (s : List Char) : List Char :=
  s.flatMap escapeChar

/-! ## Reading -/

/-- The value of a hexadecimal digit of either case. -/
def hexValue? (c : Char) : Option Nat :=
  if c.isDigit then some (c.toNat - '0'.toNat)
  else if 'a' ≤ c ∧ c ≤ 'f' then some (c.toNat - 'a'.toNat + 10)
  else if 'A' ≤ c ∧ c ≤ 'F' then some (c.toNat - 'A'.toNat + 10)
  else none

/-- The 16-bit unit that four hexadecimal digits write. -/
def hexUnit? (a b c d : Char) : Option Nat := do
  let high := (← hexValue? a) * 16 + (← hexValue? b)
  let low := (← hexValue? c) * 16 + (← hexValue? d)
  return high * 256 + low

/-- What a letter after a backslash stands for. -/
def shortEscape? (c : Char) : Option Char :=
  if c = '"' ∨ c = '\\' ∨ c = '/' then some c
  else if c = 'b' then some '\x08'
  else if c = 'f' then some '\x0c'
  else if c = 'n' then some '\n'
  else if c = 'r' then some '\r'
  else if c = 't' then some '\t'
  else none

/-- A part of a literal: a character, or a unit written in hexadecimal digits. -/
inductive Piece where
  | char (c : Char)
  | unit (n : Nat)

/-- The parts of a literal; none if an escape is malformed. -/
def pieces? : List Char → Option (List Piece)
  | [] => some []
  | '\\' :: 'u' :: a :: b :: c :: d :: s => do
    let n ← hexUnit? a b c d
    let rest ← pieces? s
    some (.unit n :: rest)
  | '\\' :: c :: s => do
    let c ← shortEscape? c
    let rest ← pieces? s
    some (.char c :: rest)
  | c :: s =>
    if c = '\\' then none
    else do
      let rest ← pieces? s
      some (.char c :: rest)

/-- The first half of a surrogate pair. -/
def isHighSurrogate (n : Nat) : Bool :=
  0xD800 ≤ n && n < 0xDC00

/-- The second half of a surrogate pair. -/
def isLowSurrogate (n : Nat) : Bool :=
  0xDC00 ≤ n && n < 0xE000

/-- The text that the parts denote; none if half a surrogate pair stands alone. -/
def joinPieces? : List Piece → Option (List Char)
  | [] => some []
  | .char c :: rest => (joinPieces? rest).map (c :: ·)
  | .unit n :: .unit m :: rest =>
    if isHighSurrogate n then
      if isLowSurrogate m then
        (joinPieces? rest).map (Char.ofNat (0x10000 + (n - 0xD800) * 0x400 + (m - 0xDC00)) :: ·)
      else none
    else if isLowSurrogate n then none
    else (joinPieces? (.unit m :: rest)).map (Char.ofNat n :: ·)
  | .unit n :: rest =>
    if isHighSurrogate n || isLowSurrogate n then none
    else (joinPieces? rest).map (Char.ofNat n :: ·)

/-- The text that a literal denotes. -/
def unescape? (literal : List Char) : Option (List Char) := do
  joinPieces? (← pieces? literal)

/-! ## Values -/

/-- The string value with a given text. -/
def ofString (s : String) : Json :=
  .string (escape s.toList)

/-- The text of a string value. -/
def text? : Json → Option String
  | .string literal => (unescape? literal).map String.ofList
  | _ => none

end PeanoCalculus.Json
