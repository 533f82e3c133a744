import PeanoCalculus.Derivation.Justification

/-! # Messages

    The sentences about a proof that goes wrong.  They are kept apart from the printed report. -/

namespace PeanoCalculus

/-- The message about a line that fails. -/
def incorrectMessage (line : Nat) (failure : Failure) : String :=
  "Proof is incorrect starting from formula " ++ ordinal line ++ ": " ++ failure.message

/-- The message about a proof of something else. -/
def unreachedMessage (goal : Expr) : String :=
  "The proof does not prove " ++ goal.text

/-- Texts as lines, each with a line end. -/
def unlines (lines : List String) : String :=
  String.join (lines.map (· ++ "\n"))

end PeanoCalculus
