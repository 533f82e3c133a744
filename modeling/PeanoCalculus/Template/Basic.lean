import PeanoCalculus.Expr.Substitution
import PeanoCalculus.Grammar.Formula
import PeanoCalculus.Error

/-! # Proof templates

    Discharging a hypothesis `H` turns every line `E` of a proof into a piece of proof that ends in
    `H->E`.  There are five such pieces, one for each way in which `E` can hold.  They are written
    once, over the letters `H`, `A`, `B` and the variable `x`, and filled in for each line.

    Templates may be read from a directory of five files, one formula a line. -/

namespace PeanoCalculus

/-- The five pieces of proof. -/
inductive TemplateKind where
  /-- Proves `H->H`. -/
  | selfImplication
  /-- Proves `H->A` for an axiom or another hypothesis `A`. -/
  | lifting
  /-- Proves `H->B` from `H->A` and `H->A->B`. -/
  | modusPonens
  /-- Proves `H->A->@xB` from `H->A->B`. -/
  | universalRule
  /-- Proves `H->?xB->A` from `H->B->A`. -/
  | existentialRule
  deriving DecidableEq

/-- The file that holds a template. -/
def TemplateKind.fileName : TemplateKind → String
  | .selfImplication => "self_implication.proof"
  | .lifting => "axiom_lifting.proof"
  | .modusPonens => "modus_ponens.proof"
  | .universalRule => "forall_rule.proof"
  | .existentialRule => "exists_rule.proof"

/-- All templates, in the order in which they are read. -/
def TemplateKind.all : List TemplateKind :=
  [.selfImplication, .lifting, .modusPonens, .universalRule, .existentialRule]

/-- The template that a file holds. -/
def TemplateKind.ofFileName? (name : String) : Option TemplateKind :=
  all.find? (·.fileName = name)

/-- The lines of the five templates. -/
structure Templates where
  selfImplication : List Expr
  lifting : List Expr
  modusPonens : List Expr
  universalRule : List Expr
  existentialRule : List Expr

namespace Templates

/-- The lines of one template. -/
def get (t : Templates) : TemplateKind → List Expr
  | .selfImplication => t.selfImplication
  | .lifting => t.lifting
  | .modusPonens => t.modusPonens
  | .universalRule => t.universalRule
  | .existentialRule => t.existentialRule

/-- The lines of one template with its letters filled in. -/
def instantiate (t : Templates) (kind : TemplateKind) (slots : Bindings) : List Expr :=
  (t.get kind).map (·.fill slots)

/-- Read the lines of a template. -/
def parseLines (kind : TemplateKind) (text : String) : Except RunError (List Expr) :=
  (Text.solidLines text).mapM fun line =>
    (Grammar.parseFormula (String.ofList line)).mapError (.template kind.fileName)

/-- Read one template by its file name. -/
def loadOne (read : String → Except FileFault String) (kind : TemplateKind) :
    Except RunError (List Expr) := do
  let text ← (read kind.fileName).mapError .file
  parseLines kind text

/-- Read all templates in order, up to the first that is missing or malformed. -/
def load (read : String → Except FileFault String) : Except RunError Templates := do
  let selfImplication ← loadOne read .selfImplication
  let lifting ← loadOne read .lifting
  let modusPonens ← loadOne read .modusPonens
  let universalRule ← loadOne read .universalRule
  let existentialRule ← loadOne read .existentialRule
  return { selfImplication, lifting, modusPonens, universalRule, existentialRule }

end Templates

end PeanoCalculus
