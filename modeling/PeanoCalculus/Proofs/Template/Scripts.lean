import PeanoCalculus.Template.Builtin
import PeanoCalculus.Proofs.Calculus.Provable

/-! # The built-in templates are scripts

    Each template, filled with formulas, is a piece of proof: a script over whatever is known
    before it, as long as the premises it is meant for are known.  The templates are put together
    from weakening, lifting and distribution, and so are the proofs.

    The quantifier templates apply their rule once, below a condition that holds the discharged
    hypothesis, so the variable must not be free in that hypothesis either. -/

namespace PeanoCalculus

open PeanoCalculus.Expr Templates

/-! ## Axioms of propositional logic -/

/-- A schema of logic with formulas for its three letters. -/
theorem LogicAxiom.of_formulas {n : Nat} {s a b c : Expr} (hs : Schemas.logic[n]? = some s)
    (ha : a.IsFormula) (hb : b.IsFormula) (hc : c.IsFormula) :
    LogicAxiom (n + 1) (s.fill (.table Schemas.formulaLetters
      (fun x => if x = "A" then a else if x = "B" then b else c))) := by
  refine .schema hs ?_
  intro x _
  show IsFormula (if x = "A" then a else if x = "B" then b else c)
  split
  · exact ha
  · split
    · exact hb
    · exact hc

section Pieces

variable {hypotheses known : List Expr} {h a b c e : Expr} {x : String}

theorem yields_weakening (ha : a.IsFormula) (hb : b.IsFormula) :
    Yields hypotheses known (implies a (implies b a)) :=
  .logic (.of_formulas (n := 0) rfl ha hb hb)

theorem yields_distribution (ha : a.IsFormula) (hb : b.IsFormula) (hc : c.IsFormula) :
    Yields hypotheses known
      (implies (implies a b) (implies (implies a (implies b c)) (implies a c))) :=
  .logic (.of_formulas (n := 1) rfl ha hb hc)

theorem yields_pairing (ha : a.IsFormula) (hb : b.IsFormula) :
    Yields hypotheses known (implies a (implies b (and a b))) :=
  .logic (.of_formulas (n := 2) rfl ha hb hb)

theorem yields_left (ha : a.IsFormula) (hb : b.IsFormula) :
    Yields hypotheses known (implies (and a b) a) :=
  .logic (.of_formulas (n := 3) rfl ha hb hb)

theorem yields_right (ha : a.IsFormula) (hb : b.IsFormula) :
    Yields hypotheses known (implies (and a b) b) :=
  .logic (.of_formulas (n := 4) rfl ha hb hb)

/-! ## The three steps below a condition -/

@[simp]
theorem mem_weaken (c e : Expr) : implies c e ∈ weaken c e :=
  List.mem_cons_of_mem _ (List.mem_cons_self ..)

@[simp]
theorem mem_lift (c e : Expr) : implies c e ∈ lift c e :=
  List.mem_cons_of_mem _ (mem_weaken c e)

@[simp]
theorem mem_distribute (c a b : Expr) : implies c b ∈ distribute c a b :=
  List.mem_cons_of_mem _ (List.mem_cons_of_mem _ (List.mem_cons_self ..))

/-- Weakening, from a formula that is known. -/
theorem script_weaken (hc : c.IsFormula) (he : e.IsFormula) (hmem : e ∈ known) :
    Script hypotheses known (weaken c e) :=
  ⟨yields_weakening he hc, .modusPonens (a := e) (by simp [hmem]) (by simp), trivial⟩

/-- Lifting, of a formula that holds at once. -/
theorem script_lift (hc : c.IsFormula) (he : e.IsFormula) (hy : Yields hypotheses known e) :
    Script hypotheses known (lift c e) :=
  ⟨hy, script_weaken hc he (by simp)⟩

/-- Distribution, from both premises below the condition. -/
theorem script_distribute (hc : c.IsFormula) (ha : a.IsFormula) (hb : b.IsFormula)
    (hca : implies c a ∈ known) (hcab : implies c (implies a b) ∈ known) :
    Script hypotheses known (distribute c a b) :=
  ⟨yields_distribution hc ha hb, .modusPonens (a := implies c a) (by simp [hca]) (by simp),
    .modusPonens (a := implies c (implies a b)) (by simp [hcab]) (by simp), trivial⟩

/-! ## The five pieces -/

theorem script_provesItself (hh : h.IsFormula) : Script hypotheses known (provesItself h) := by
  have hhh : (implies h h).IsFormula := .implies hh hh
  refine ⟨yields_weakening hh hh, yields_distribution hh hhh hh, ?_, yields_weakening hh hhh, ?_,
    trivial⟩
  · exact .modusPonens (a := implies h (implies h h)) (by simp) (by simp)
  · exact .modusPonens (a := implies h (implies (implies h h) h)) (by simp) (by simp)

/-- Generalising the consequent below a hypothesis without the variable. -/
theorem script_generalizesConsequent (hh : h.IsFormula) (ha : a.IsFormula) (hb : b.IsFormula)
    (hx : isName Char.isLower x = true) (hfreeh : h.hasFree x = false)
    (hfreea : a.hasFree x = false) (hmem : implies h (implies a b) ∈ known) :
    Script hypotheses known (generalizesConsequent h a b x) := by
  have hboth : (and h a).IsFormula := .and hh ha
  have hgoal : (all x b).IsFormula := .quantified hx hb
  have hab : (implies a b).IsFormula := .implies ha hb
  have hrule : (implies (and h a) (all x b)).IsFormula := .implies hboth hgoal
  have hago : (implies a (all x b)).IsFormula := .implies ha hgoal
  have hfree : (and h a).hasFree x = false := Bool.or_eq_false_iff.mpr ⟨hfreeh, hfreea⟩
  have hsides : Script hypotheses known [implies (and h a) h, implies (and h a) a] :=
    ⟨yields_left hh ha, yields_right hh ha, trivial⟩
  have happlied : ∀ {known : List Expr}, implies (and h a) b ∈ known →
      Script hypotheses known [implies (and h a) (all x b), implies h (implies a (and h a))] :=
    fun hpremise => ⟨.universal hx hfree hpremise, yields_pairing hh ha, trivial⟩
  -- below `h&a` the premise comes down to `b`, and the rule applies
  have hsource := hsides.append (script_weaken hboth (.implies hh hab) (by simp [hmem]))
  have hhalf := hsource.append (script_distribute hboth hh hab (by simp) (by simp))
  have hbelow := hhalf.append (script_distribute hboth ha hb (by simp) (by simp))
  have hruled := hbelow.append (happlied (by simp))
  -- back from `h&a` to `h` and `a` one after the other
  have hkept := hruled.append (script_weaken hh hrule (by simp))
  have hlifted := hkept.append (script_lift hh (.implies hrule (.implies ha hrule))
    (yields_weakening hrule ha))
  have hunder := hlifted.append (script_distribute hh hrule (.implies ha hrule) (by simp) (by simp))
  have hchained := hunder.append (script_lift hh
    (.implies (.implies ha hboth) (.implies (.implies ha hrule) hago))
    (yields_distribution ha hboth hgoal))
  have hpaired := hchained.append (script_distribute hh (.implies ha hboth)
    (.implies (.implies ha hrule) hago) (by simp) (by simp))
  exact hpaired.append (script_distribute hh (.implies ha hrule) hago (by simp) (by simp))

/-- Generalising the antecedent below a hypothesis without the variable. -/
theorem script_generalizesAntecedent (hh : h.IsFormula) (ha : a.IsFormula) (hb : b.IsFormula)
    (hx : isName Char.isLower x = true) (hfreeh : h.hasFree x = false)
    (hfreea : a.hasFree x = false) (hmem : implies h (implies b a) ∈ known) :
    Script hypotheses known (generalizesAntecedent h a b x) := by
  have hsource : (ex x b).IsFormula := .quantified hx hb
  have hha : (implies h a).IsFormula := .implies hh ha
  have hhba : (implies h (implies b a)).IsFormula := .implies hh (.implies hb ha)
  have hrule : (implies (ex x b) (implies h a)).IsFormula := .implies hsource hha
  have hsa : (implies (ex x b) a).IsFormula := .implies hsource ha
  have hfree : (implies h a).hasFree x = false := Bool.or_eq_false_iff.mpr ⟨hfreeh, hfreea⟩
  -- the premise with its two antecedents exchanged, to which the rule applies
  have hpremise : Script hypotheses known (weaken b (implies h (implies b a))) :=
    script_weaken hb hhba hmem
  have hkept := hpremise.snoc (yields_weakening hb hh)
  have hlifted := hkept.append (script_lift hb (.implies (.implies hh hb) (.implies hhba hha))
    (yields_distribution hh hb ha))
  have hhalf := hlifted.append (script_distribute hb (.implies hh hb) (.implies hhba hha)
    (by simp) (by simp))
  have hturned := hhalf.append (script_distribute hb hhba hha (by simp) (by simp))
  have hruled := hturned.snoc (.existential (b := b) hx hfree (by simp))
  -- and exchanged back
  have hbelow := hruled.append (script_weaken hh hrule (by simp))
  have hside := hbelow.snoc (yields_weakening hh hsource)
  have hchained := hside.append (script_lift hh
    (.implies (.implies hsource hh) (.implies hrule hsa)) (yields_distribution hsource hh ha))
  have hback := hchained.append (script_distribute hh (.implies hsource hh) (.implies hrule hsa)
    (by simp) (by simp))
  exact hback.append (script_distribute hh hrule hsa (by simp) (by simp))

/-! ## The last lines of the pieces -/

theorem getLast?_provesItself (h : Expr) : (provesItself h).getLast? = some (implies h h) :=
  rfl

theorem getLast?_lift (h a : Expr) : (lift h a).getLast? = some (implies h a) :=
  rfl

theorem getLast?_distribute (h a b : Expr) : (distribute h a b).getLast? = some (implies h b) :=
  rfl

theorem getLast?_generalizesConsequent (h a b : Expr) (x : String) :
    (generalizesConsequent h a b x).getLast? = some (implies h (implies a (all x b))) :=
  rfl

theorem getLast?_generalizesAntecedent (h a b : Expr) (x : String) :
    (generalizesAntecedent h a b x).getLast? = some (implies h (implies (ex x b) a)) :=
  rfl

/-! ## The templates filled -/

theorem instantiate_selfImplication (h : Expr) :
    builtin.instantiate .selfImplication (({} : Bindings).insert "H" h) = provesItself h :=
  rfl

theorem instantiate_lifting (h a : Expr) :
    builtin.instantiate .lifting ((({} : Bindings).insert "H" h).insert "A" a) = lift h a :=
  rfl

theorem instantiate_modusPonens (h a b : Expr) :
    builtin.instantiate .modusPonens
      (((({} : Bindings).insert "H" h).insert "A" a).insert "B" b) = distribute h a b :=
  rfl

theorem instantiate_universalRule (h a b : Expr) (x : String) :
    builtin.instantiate .universalRule
      ((((({} : Bindings).insert "H" h).insert "A" a).insert "B" b).insert "x" (.var x)) =
        generalizesConsequent h a b x :=
  rfl

theorem instantiate_existentialRule (h a b : Expr) (x : String) :
    builtin.instantiate .existentialRule
      ((((({} : Bindings).insert "H" h).insert "A" a).insert "B" b).insert "x" (.var x)) =
        generalizesAntecedent h a b x :=
  rfl

end Pieces

end PeanoCalculus
