import PeanoCalculus.Grammar.Fault

/-! # Readers and how they are put together

    A reader takes something from the front of a text and returns it with what is left, or it
    fails.  A soft fault lets the caller try another form in the same place: the next of several
    alternatives, or nothing at all where the form is optional or a repetition may end.  A reader
    that is committed turns its soft faults into hard ones, which nobody recovers from. -/

namespace PeanoCalculus.Grammar

variable {α β : Type}

/-- Something to read at the front of a text. -/
abbrev Reader (α : Type) := StateT (List Char) (Except Fault) α

/-! ## Single characters -/

/-- The given character. -/
def exactly (c : Char) : Reader Unit := fun s =>
  if s.head? = some c then .ok ((), s.tail) else .error (.soft [⟨s, .missing c⟩])

/-- A character of the given kind. -/
def satisfying (kind : Char → Bool) : Reader Char := fun s =>
  match s.head?.filter kind with
  | some c => .ok (c, s.tail)
  | none => .error (.soft [⟨s, .failed .kind⟩])

/-- The given characters, one after the other. -/
def spelled (word : List Char) : Reader Unit := fun s =>
  if word.isPrefixOf s then .ok ((), s.drop word.length)
  else .error (.soft [⟨s, .failed .spelling⟩])

/-- All characters of the given kind, up to the first of another. -/
def allOf (kind : Char → Bool) : Reader (List Char) := fun s =>
  .ok (s.takeWhile kind, s.dropWhile kind)

/-! ## Faults -/

/-- Where the reader fails softly, go on from the same place with the trace it leaves. -/
def recovering (reader : Reader α) (other : Trace → Reader α) : Reader α := fun s =>
  match reader s with
  | .error (.soft trace) => other trace s
  | result => result

/-- There is no other form to try. -/
def committed (reader : Reader α) : Reader α :=
  recovering reader fun trace _ => .error (.hard trace)

/-- A construct with a name, noted down when it fails. -/
def inside (name : String) (reader : Reader α) : Reader α := fun s =>
  (reader s).mapError (Fault.noted ⟨s, .inside name⟩)

/-! ## Alternatives and repetitions -/

/-- The first of the forms that does not fail softly.  If all do, the trace is that of the last. -/
def firstOf (reader : Reader α) : List (Reader α) → Reader α
  | [] => recovering reader fun trace s => .error (.soft (trace ++ [⟨s, .failed .choice⟩]))
  | next :: more => recovering reader fun _ => firstOf next more

/-- Nothing, if the reader fails softly. -/
def optional (reader : Reader α) : Reader (Option α) :=
  recovering (do let a ← reader; return some a) fun _ => return none

/-- One item after the other, joined to what was read before, until reading an item fails softly.
    An item that takes nothing would be read for ever. -/
def repeated (item : Reader β) (join : α → β → α) : Nat → α → Reader α
  | 0, _ => fun _ => .error .incomplete
  | n + 1, left => fun s =>
    match item s with
    | .ok (next, rest) =>
      if rest.length < s.length then repeated item join n (join left next) rest
      else .error (.soft [⟨s, .failed .repetition⟩])
    | .error (.soft _) => .ok (left, s)
    | .error fault => .error fault

/-- As many items as there are; there are no more than the text has characters. -/
def many (item : Reader β) (join : α → β → α) (left : α) : Reader α := fun s =>
  repeated item join (s.length + 1) left s

/-- One or more items with a character between them. -/
def separated (mark : Char) (item : Reader α) : Reader (List α) := do
  let first ← item
  many (do exactly mark; item) (fun items next => items ++ [next]) [first]

end PeanoCalculus.Grammar
