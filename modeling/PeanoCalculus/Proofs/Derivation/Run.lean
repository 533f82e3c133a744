import PeanoCalculus.Proofs.Derivation.Justification

/-! # Running a derivation

    What checking one line does to a derivation, and from it, by induction over the lines, what
    checking a list of lines does.

    Two invariants are carried along.  Going forward, everything in the log is derivable from the
    hypotheses, whatever lines fail on the way.  Going back, a script is accepted line by line: at
    each of its lines the log holds all the lines before. -/

namespace PeanoCalculus

namespace Derivation

variable {d : Derivation} {f : Expr} {j : Justification} {text : String}

/-! ## One line -/

theorem formulas_enter (d : Derivation) (f : Expr) (j : Justification) :
    (d.record f j).advance.formulas = d.formulas ++ [f] := by
  unfold formulas
  rw [log_enter, List.map_append]
  rfl

theorem trackedHypothesis?_enter (d : Derivation) (f : Expr) (j : Justification) :
    (d.record f j).advance.trackedHypothesis? = d.trackedHypothesis? := by
  show (d.record f j).tracked.bind ((d.record f j).hypotheses[·]?) = _
  rw [record_tracked, record_hypotheses]
  rfl

/-- A line that holds is entered, one that fails only takes its number. -/
theorem checkFormula_cases (d : Derivation) (f : Expr) :
    (∃ j, d.justify f = .ok j ∧ d.checkFormula f = (.ok j, (d.record f j).advance)) ∨
      ∃ failure, d.checkFormula f = (.error failure, d.advance) := by
  unfold checkFormula
  cases d.justify f with
  | ok j => exact .inl ⟨j, rfl, rfl⟩
  | error failure => exact .inr ⟨failure, rfl⟩

/-- A line that can be read is checked, one that cannot fails. -/
theorem checkLine_cases (d : Derivation) (text : String) :
    (∃ f j, Grammar.parseFormula text = .ok f ∧ d.justify f = .ok j ∧
        d.checkLine text = (.ok j, (d.record f j).advance)) ∨
      ∃ failure, d.checkLine text = (.error failure, d.advance) := by
  unfold checkLine
  cases hparse : Grammar.parseFormula text with
  | error e => exact .inr ⟨_, rfl⟩
  | ok f =>
      rcases checkFormula_cases d f with ⟨j, hj, hcheck⟩ | ⟨failure, hcheck⟩
      · exact .inl ⟨f, j, rfl, hj, hcheck⟩
      · exact .inr ⟨failure, hcheck⟩

/-! ## What is logged is derivable -/

/-- The tables are faithful and the log holds only what follows from the hypotheses. -/
structure Sound (d : Derivation) : Prop extends Faithful d where
  provable : ∀ g ∈ d.formulas, Provable d.hypotheses g

theorem Supports.provable (hd : d.Sound) (hf : f.IsFormula) (h : d.Supports j f) :
    Provable d.hypotheses f := by
  have hline : ∀ {i g}, d.formulaAt? i = some g → Provable d.hypotheses g :=
    fun hi => hd.provable _ (Faithful.mem_formulas_of_formulaAt? hi)
  have hpremise : ∀ {p g}, d.premiseFormula? p = some g → Provable d.hypotheses g := by
    intro p g hp
    cases p with
    | line i => exact hline hp
    | hypothesis i =>
        rw [premiseFormula?] at hp
        split at hp
        · cases hp
        · exact .hypothesis (List.mem_of_getElem? hp)
  cases h with
  | logic h => exact .logic h
  | arithmetic h => exact .arithmetic h
  | modusPonens ha hab => exact .modusPonens (hline ha) (hline hab)
  | hypothesis h => exact .hypothesis (List.mem_of_getElem? h)
  | universal hp hfree _ =>
      cases (isFormula_of_implies hf).2 with
      | quantified hx _ => exact .universal hx hfree (hpremise hp)
  | existential hp hfree _ =>
      cases (isFormula_of_implies hf).1 with
      | quantified hx _ => exact .existential hx hfree (hpremise hp)

/-- One line keeps a derivation sound, and a line that holds is derivable. -/
theorem Sound.checkLine (hd : d.Sound) (text : String) :
    (d.checkLine text).2.Sound ∧ (d.checkLine text).2.hypotheses = d.hypotheses ∧
      ∀ j, (d.checkLine text).1 = .ok j →
        ∃ f, Grammar.parseFormula text = .ok f ∧ Provable d.hypotheses f := by
  rcases checkLine_cases d text with ⟨f, j, hparse, hj, hcheck⟩ | ⟨failure, hcheck⟩
  · have hf := Grammar.isFormula_of_parse hparse
    have hprovable := (justify_sound hd.toFaithful hf hj).provable hd hf
    have hsame := hypotheses_enter d f j
    have hlog : ∀ g ∈ (d.record f j).advance.formulas,
        Provable (d.record f j).advance.hypotheses g := by
      rw [formulas_enter, hsame]
      exact List.forall_mem_append.mpr ⟨hd.provable, List.forall_mem_singleton.mpr hprovable⟩
    rw [hcheck]
    exact ⟨{ hd.toFaithful.enter hf j with provable := hlog }, hsame,
      fun _ _ => ⟨f, hparse, hprovable⟩⟩
  · rw [hcheck]
    exact ⟨{ hd.toFaithful.advance with provable := hd.provable }, rfl, fun _ h => nomatch h⟩

theorem length_checkLines (d : Derivation) (texts : List String) :
    (d.checkLines texts).1.length = texts.length := by
  induction texts generalizing d with
  | nil => rfl
  | cons text rest ih => exact congrArg (· + 1) (ih (d.checkLine text).2)

/-- **EVERY LINE THAT HOLDS IS DERIVABLE**, whatever other lines fail. -/
theorem Sound.checkLines (hd : d.Sound) (texts : List String) :
    (d.checkLines texts).2.Sound ∧ (d.checkLines texts).2.hypotheses = d.hypotheses ∧
      ∀ {text j}, (text, .ok j) ∈ texts.zip (d.checkLines texts).1 →
        ∃ f, Grammar.parseFormula text = .ok f ∧ Provable d.hypotheses f := by
  induction texts generalizing d with
  | nil => exact ⟨hd, rfl, fun h => nomatch h⟩
  | cons text rest ih =>
      obtain ⟨hnext, hsame, hline⟩ := hd.checkLine text
      obtain ⟨hlast, hsame', hlines⟩ := ih hnext
      rw [hsame] at hsame' hlines
      refine ⟨hlast, hsame', fun {_ j} hmem => ?_⟩
      rcases List.mem_cons.mp hmem with heq | hmem
      · obtain ⟨rfl, houtcome⟩ := Prod.mk.inj heq
        exact hline j houtcome.symm
      · exact hlines hmem

/-! ## Scripts are accepted -/

/-- Where nothing is tracked any variable may be generalised. -/
theorem permits_of_untracked (huntracked : d.tracked = none) (x : String) : d.Permits x := by
  intro h hh
  rw [trackedHypothesis?, huntracked] at hh
  exact nomatch hh

/-- What is yielded by the hypotheses and the log is supported by some justification. -/
theorem supports_of_yields (hd : d.Faithful) (hpermits : ∀ x, d.Permits x)
    (h : Yields d.hypotheses d.formulas f) : ∃ j, d.Supports j f := by
  cases h with
  | hypothesis hmem =>
      obtain ⟨i, hi⟩ := List.mem_iff_getElem?.mp hmem
      exact ⟨_, .hypothesis hi⟩
  | logic h => exact ⟨_, .logic h⟩
  | arithmetic h => exact ⟨_, .arithmetic h⟩
  | modusPonens ha hab =>
      obtain ⟨i, hi⟩ := hd.exists_formulaAt? ha
      obtain ⟨k, hk⟩ := hd.exists_formulaAt? hab
      exact ⟨_, .modusPonens hi hk⟩
  | @universal x a b _ hfree hab =>
      obtain ⟨i, hi⟩ := hd.exists_formulaAt? hab
      have hp : d.premiseFormula? (.line i) = some (.implies a b) := hi
      exact ⟨_, .universal hp hfree (hpermits x)⟩
  | @existential x a b _ hfree hba =>
      obtain ⟨i, hi⟩ := hd.exists_formulaAt? hba
      have hp : d.premiseFormula? (.line i) = some (.implies b a) := hi
      exact ⟨_, .existential hp hfree (hpermits x)⟩

/-- What is yielded is justified. -/
theorem justify_of_yields (hd : d.Faithful) (hpermits : ∀ x, d.Permits x)
    (h : Yields d.hypotheses d.formulas f) : ∃ j, d.justify f = .ok j := by
  obtain ⟨j, hj⟩ := supports_of_yields hd hpermits h
  exact justify_complete hd hj

/-- A line that reads as a justified formula is entered. -/
theorem checkLine_of_justify (hread : Grammar.parseFormula text = .ok f)
    (hj : d.justify f = .ok j) : d.checkLine text = (.ok j, (d.record f j).advance) := by
  simp only [Derivation.checkLine, hread, checkFormula, hj]

/-- When a line is entered the rest of a script goes on from it. -/
theorem script_enter (d : Derivation) (f : Expr) (j : Justification) {lines : List Expr} :
    Script (d.record f j).advance.hypotheses (d.record f j).advance.formulas lines ↔
      Script d.hypotheses (d.formulas ++ [f]) lines := by
  rw [formulas_enter, hypotheses_enter]

/-- **A SCRIPT IS ACCEPTED**: every line that reads as a line of it holds, and all are entered in
    the log. -/
theorem checkLines_of_script (hd : d.Faithful) (hpermits : ∀ x, d.Permits x)
    {texts : List String} {lines : List Expr}
    (hread : texts.mapM Grammar.parseFormula = .ok lines)
    (h : Script d.hypotheses d.formulas lines) :
    (∀ o ∈ (d.checkLines texts).1, ∃ j, o = .ok j) ∧
      (d.checkLines texts).2.formulas = d.formulas ++ lines := by
  induction texts generalizing d lines with
  | nil =>
      cases hread
      exact ⟨List.forall_mem_nil _, (List.append_nil _).symm⟩
  | cons text texts ih =>
      obtain ⟨f, rest, hf, hrest, rfl⟩ := mapM_cons_eq_ok.mp hread
      obtain ⟨j, hj⟩ := justify_of_yields hd hpermits h.1
      have hscript := (script_enter d f j).mpr h.2
      have hpermits' : ∀ x, (d.record f j).advance.Permits x := by
        intro x g hg
        rw [trackedHypothesis?_enter] at hg
        exact hpermits x g hg
      obtain ⟨hok, hformulas⟩ :=
        ih (hd.enter (Grammar.isFormula_of_parse hf) j) hpermits' hrest hscript
      rw [Derivation.checkLines, checkLine_of_justify hf hj]
      refine ⟨List.forall_mem_cons.mpr ⟨⟨j, rfl⟩, hok⟩, ?_⟩
      rw [hformulas, formulas_enter, List.append_assoc]
      rfl

end Derivation

end PeanoCalculus
