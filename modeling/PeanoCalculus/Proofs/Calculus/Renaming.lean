import PeanoCalculus.Proofs.Calculus.Axioms
import PeanoCalculus.Proofs.Expr.Renaming

/-! # The axiom schemas know no names

    The schemas are written over letters, and a formula may use the same letters for its own
    purposes.  That does not matter: a schema has no names besides the letters that are replaced,
    so an instance of it, renamed, is an instance of it with the values renamed.  Taking the names
    back shows that nothing else becomes an instance.  Hence a search through the schemas finds the
    same number before and after. -/

namespace PeanoCalculus

open PeanoCalculus.Expr

namespace Expr

/-- The tree has no names but the given ones, which stand without arguments, and no binders. -/
def isOver (letters : List String) : Expr → Bool
  | .binary _ l r => l.isOver letters && r.isOver letters
  | .negation e | .successor _ e => e.isOver letters
  | .apply f [] => decide (f ∈ letters)
  | .var x => decide (x ∈ letters)
  | .zero => true
  | .apply _ (_ :: _) | .quantified .. => false

/-- Renaming an instance renames what was put for the letters. -/
theorem rename_fill {letters : List String} {e : Expr} (he : e.isOver letters = true)
    (g : String → String) (value : String → Expr) :
    (e.fill (.table letters value)).rename g =
      e.fill (.table letters fun x => (value x).rename g) := by
  induction e with
  | binary op l r ihl ihr =>
      obtain ⟨hl, hr⟩ := Bool.and_eq_true_iff.mp he
      show Expr.binary op _ _ = Expr.binary op _ _
      rw [ihl hl, ihr hr]
  | negation e ih => exact congrArg Expr.negation (ih he)
  | quantified q x e _ => exact absurd he Bool.false_ne_true
  | apply f args _ =>
      cases args with
      | nil =>
          have hmem : f ∈ letters := of_decide_eq_true he
          rw [fill, fill, Bindings.find?_table, Bindings.find?_table, if_pos hmem, if_pos hmem]
          rfl
      | cons a args => exact absurd he Bool.false_ne_true
  | var x =>
      have hmem : x ∈ letters := of_decide_eq_true he
      rw [fill, fill, Bindings.find?_table, Bindings.find?_table, if_pos hmem, if_pos hmem]
      rfl
  | successor n e ih => rw [fill, fill, rename_primed, ih he]
  | zero => rfl

end Expr

namespace Schemas

section Uniform

variable {schemas : List Expr} {letters : List String} {kind : Expr → Prop} {s f : Expr}

/-- An instance stays one under every map that respects kinds, injective or not. -/
theorem Uniform.matchSchema_of_rename (h : Uniform schemas letters kind)
    (hover : ∀ s ∈ schemas, s.isOver letters = true)
    (hkind : ∀ {g : String → String}, RespectsKind g → ∀ {e : Expr}, kind e → kind (e.rename g))
    {g : String → String} (hg : RespectsKind g) (hs : s ∈ schemas) (hf : f.IsFormula)
    (hmatch : (matchSchema s f).isSome = true) : (matchSchema s (f.rename g)).isSome = true := by
  obtain ⟨value, hvalue, rfl⟩ := (h.matchSchema_iff hs hf).mp hmatch
  refine (h.matchSchema_iff hs (hf.rename hg)).mpr ⟨fun x => (value x).rename g, ?_, ?_⟩
  · intro x hx
    exact hkind hg (hvalue x hx)
  · exact rename_fill (hover s hs) g value

/-- **THE SEARCH KNOWS NO NAMES**: a renamed formula is found under the same number. -/
theorem Uniform.firstMatch_rename (h : Uniform schemas letters kind)
    (hover : ∀ s ∈ schemas, s.isOver letters = true)
    (hkind : ∀ {g : String → String}, RespectsKind g → ∀ {e : Expr}, kind e → kind (e.rename g))
    (r : Renaming) (hf : f.IsFormula) :
    firstMatch schemas (f.rename r.name) = firstMatch schemas f := by
  obtain ⟨back, hback, hinverse⟩ := r.exists_inverse
  have hsame : ∀ s ∈ schemas,
      (matchSchema s (f.rename r.name)).isSome = (matchSchema s f).isSome := by
    intro s hs
    refine Bool.eq_iff_iff.mpr ⟨?_, h.matchSchema_of_rename hover hkind r.respectsKind hs hf⟩
    intro hmatch
    have htaken := h.matchSchema_of_rename hover hkind hback hs (hf.rename r.respectsKind) hmatch
    rwa [hf.namesIn.rename_rename hinverse] at htaken
  unfold firstMatch
  rw [findIdx?_congr hsame]

end Uniform

theorem matchLogic_rename (r : Renaming) {f : Expr} (hf : f.IsFormula) :
    matchLogic (f.rename r.name) = matchLogic f :=
  logic_uniform.firstMatch_rename (by decide) (fun hg _ he => he.rename hg) r hf

theorem matchArithmetic_rename (r : Renaming) {f : Expr} (hf : f.IsFormula) :
    matchArithmetic (f.rename r.name) = matchArithmetic f :=
  arithmetic_uniform.firstMatch_rename (by decide) (fun hg _ he => he.rename hg) r hf

end Schemas

end PeanoCalculus
