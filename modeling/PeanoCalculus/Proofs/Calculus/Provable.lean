import PeanoCalculus.Proofs.Calculus.Axioms

/-! # Derivability

    `Provable hypotheses f` is derivability in the calculus, as a tree: hypotheses, axioms, modus
    ponens and the two quantifier rules.  A proof on paper is a list instead.  `Yields` is one line
    of it, a formula that follows from hypotheses and earlier lines at once, and `Script` is a list
    of lines each of which is yielded by those before it.

    Every tree can be written as a list: the scripts of its subtrees one after the other, and then
    its root. -/

namespace PeanoCalculus

open PeanoCalculus.Expr

/-- The formula is derivable from the hypotheses. -/
inductive Provable (hypotheses : List Expr) : Expr → Prop where
  | hypothesis {f : Expr} : f ∈ hypotheses → Provable hypotheses f
  | logic {n : Nat} {f : Expr} : LogicAxiom n f → Provable hypotheses f
  | arithmetic {n : Nat} {f : Expr} : ArithmeticAxiom n f → Provable hypotheses f
  | modusPonens {a b : Expr} : Provable hypotheses a → Provable hypotheses (.implies a b) →
      Provable hypotheses b
  | universal {x : String} {a b : Expr} : isName Char.isLower x = true → a.hasFree x = false →
      Provable hypotheses (.implies a b) → Provable hypotheses (.implies a (.all x b))
  | existential {x : String} {a b : Expr} : isName Char.isLower x = true → a.hasFree x = false →
      Provable hypotheses (.implies b a) → Provable hypotheses (.implies (.ex x b) a)

theorem isFormula_of_implies {a b : Expr} (h : (Expr.implies a b).IsFormula) :
    a.IsFormula ∧ b.IsFormula := by
  cases h with
  | implies ha hb => exact ⟨ha, hb⟩

/-! ## Scripts -/

/-- The formula follows at once from the hypotheses and the formulas known. -/
inductive Yields (hypotheses known : List Expr) : Expr → Prop where
  | hypothesis {f : Expr} : f ∈ hypotheses → Yields hypotheses known f
  | logic {n : Nat} {f : Expr} : LogicAxiom n f → Yields hypotheses known f
  | arithmetic {n : Nat} {f : Expr} : ArithmeticAxiom n f → Yields hypotheses known f
  | modusPonens {a b : Expr} : a ∈ known → .implies a b ∈ known → Yields hypotheses known b
  | universal {x : String} {a b : Expr} : isName Char.isLower x = true → a.hasFree x = false →
      .implies a b ∈ known → Yields hypotheses known (.implies a (.all x b))
  | existential {x : String} {a b : Expr} : isName Char.isLower x = true → a.hasFree x = false →
      .implies b a ∈ known → Yields hypotheses known (.implies (.ex x b) a)

/-- Each line is yielded by the formulas known and the lines before it. -/
def Script (hypotheses : List Expr) : List Expr → List Expr → Prop
  | _, [] => True
  | known, f :: rest => Yields hypotheses known f ∧ Script hypotheses (known ++ [f]) rest

section Script

variable {hypotheses known known' : List Expr} {f : Expr} {lines more : List Expr}

theorem Yields.mono (h : Yields hypotheses known f) (hsub : known ⊆ known') :
    Yields hypotheses known' f := by
  cases h with
  | hypothesis hmem => exact .hypothesis hmem
  | logic h => exact .logic h
  | arithmetic h => exact .arithmetic h
  | modusPonens ha hab => exact .modusPonens (hsub ha) (hsub hab)
  | universal hx hfree hab => exact .universal hx hfree (hsub hab)
  | existential hx hfree hba => exact .existential hx hfree (hsub hba)

/-- What is yielded by formulas is a formula. -/
theorem Yields.isFormula (hyps : ∀ h ∈ hypotheses, h.IsFormula) (hknown : ∀ g ∈ known, g.IsFormula)
    (h : Yields hypotheses known f) : f.IsFormula := by
  cases h with
  | hypothesis hmem => exact hyps f hmem
  | logic h => exact h.isFormula
  | arithmetic h => exact h.isFormula
  | modusPonens _ hab => exact (isFormula_of_implies (hknown _ hab)).2
  | universal hx _ hab =>
      obtain ⟨ha, hb⟩ := isFormula_of_implies (hknown _ hab)
      exact .implies ha (.quantified hx hb)
  | existential hx _ hba =>
      obtain ⟨hb, ha⟩ := isFormula_of_implies (hknown _ hba)
      exact .implies (.quantified hx hb) ha

theorem Script.mono (h : Script hypotheses known lines) (hsub : known ⊆ known') :
    Script hypotheses known' lines := by
  induction lines generalizing known known' with
  | nil => trivial
  | cons f rest ih =>
      refine ⟨h.1.mono hsub, ih h.2 ?_⟩
      exact List.append_subset.mpr ⟨fun g hg => List.mem_append_left _ (hsub hg),
        List.subset_append_right _ _⟩

theorem Script.append (h : Script hypotheses known lines)
    (hmore : Script hypotheses (known ++ lines) more) :
    Script hypotheses known (lines ++ more) := by
  induction lines generalizing known with
  | nil => rwa [List.append_nil] at hmore
  | cons f rest ih =>
      refine ⟨h.1, ih h.2 ?_⟩
      rwa [List.append_assoc, List.singleton_append]

/-- One more line. -/
theorem Script.snoc (h : Script hypotheses known lines)
    (hf : Yields hypotheses (known ++ lines) f) : Script hypotheses known (lines ++ [f]) :=
  h.append ⟨hf, trivial⟩

theorem Script.isFormula (hyps : ∀ h ∈ hypotheses, h.IsFormula)
    (hknown : ∀ g ∈ known, g.IsFormula) (h : Script hypotheses known lines) :
    ∀ g ∈ lines, g.IsFormula := by
  induction lines generalizing known with
  | nil => exact List.forall_mem_nil _
  | cons f rest ih =>
      have hf := h.1.isFormula hyps hknown
      refine List.forall_mem_cons.mpr ⟨hf, ih ?_ h.2⟩
      exact List.forall_mem_append.mpr ⟨hknown, List.forall_mem_singleton.mpr hf⟩

end Script

end PeanoCalculus
