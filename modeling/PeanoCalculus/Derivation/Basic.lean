import Std.Data.TreeMap
import PeanoCalculus.Derivation.Justification

/-! # Derivations

    A derivation is a list of hypotheses and the lines that have been shown from them so far.  Every
    line that is checked takes the next number, but only a line that holds is entered in the log.

    Three tables, keyed by canonical text, save searching.  They hold the first hypothesis and the
    first logged line with a given text, and for each text the logged implications that conclude in
    it.  A formula that is logged again changes none of them.

    One hypothesis, the last, may be tracked: it is the one to be discharged, and the quantifier
    rules take care not to generalise over its variables. -/

namespace PeanoCalculus

/-- A line that holds. -/
structure Step where
  line : Nat
  formula : Expr
  justification : Justification

/-- Hypotheses, and what has been derived from them. -/
structure Derivation where
  hypotheses : List Expr
  /-- Canonical text to the first hypothesis with that text. -/
  hypothesisIndex : Std.TreeMap String Nat
  /-- The index of the hypothesis that is to be discharged. -/
  tracked : Option Nat := none
  log : List Step := []
  /-- Canonical text to the first logged line with that text. -/
  lineIndex : Std.TreeMap String Nat := {}
  /-- The text of a consequent to the implications with it: antecedent text and line. -/
  implicationIndex : Std.TreeMap String (List (String × Nat)) := {}
  /-- The number of lines checked, those that failed included. -/
  lineCount : Nat := 0

namespace Derivation

/-- Nothing derived yet. -/
def start (hypotheses : List Expr) : Derivation where
  hypotheses := hypotheses
  hypothesisIndex :=
    hypotheses.zipIdx.foldl (fun table (h, i) => table.insertIfNew h.text i) {}

/-- Track the last hypothesis, if there is one. -/
def trackLast (d : Derivation) : Derivation :=
  { d with tracked := if d.hypotheses.isEmpty then none else some (d.hypotheses.length - 1) }

/-- The hypothesis that is tracked. -/
def trackedHypothesis? (d : Derivation) : Option Expr :=
  d.tracked.bind (d.hypotheses[·]?)

/-- The formula of a logged line.  The lines of a log increase, so that the first entry with the
    number is the only one, and a search that halves the log finds it too. -/
def formulaAt? (d : Derivation) (line : Nat) : Option Expr :=
  (d.log.find? (·.line = line)).map (·.formula)

/-- The last line that holds. -/
def last? (d : Derivation) : Option Step :=
  d.log.getLast?

/-- Enter the line with the next number in the log. -/
def record (d : Derivation) (formula : Expr) (justification : Justification) : Derivation :=
  let d' := { d with log := d.log ++ [⟨d.lineCount, formula, justification⟩] }
  if d.lineIndex.contains formula.text then d'
  else
    let lineIndex := d.lineIndex.insert formula.text d.lineCount
    match formula with
    | .implies a b =>
      let known := d.implicationIndex.getD b.text []
      let implicationIndex := d.implicationIndex.insert b.text (known ++ [(a.text, d.lineCount)])
      { d' with lineIndex, implicationIndex }
    | _ => { d' with lineIndex }

/-- Go on to the next line number. -/
def advance (d : Derivation) : Derivation :=
  { d with lineCount := d.lineCount + 1 }

end Derivation

end PeanoCalculus
