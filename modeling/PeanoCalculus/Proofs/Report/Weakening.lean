import PeanoCalculus.Proofs.Report.Thinning

/-! # Weakening

    More hypotheses and more lines do no harm.  They may well change why a line holds: a premise
    that was a hypothesis is now found as a line, modus ponens finds an earlier pair, a rule that
    did not fit fits and fails on its side condition.  But whatever supports a formula in a
    derivation, something supports it in one that has more, and where something does the rules find
    something. -/

namespace PeanoCalculus

open PeanoCalculus.Expr

namespace Derivation

variable {d d' : Derivation} {f : Expr} {j : Justification}

/-! ## Premises -/

/-- While nothing is tracked, the premises of the quantifier rules are the formulas of the log and
    the hypotheses. -/
theorem Faithful.exists_premiseFormula? (hd : d.Faithful) (huntracked : d.tracked = none) :
    (∃ p, d.premiseFormula? p = some f) ↔ f ∈ d.formulas ∨ f ∈ d.hypotheses := by
  have hhyp : ∀ i, d.premiseFormula? (.hypothesis i) = d.hypotheses[i]? := by
    intro i
    rw [premiseFormula?, huntracked]
    rfl
  constructor
  · rintro ⟨p, hp⟩
    cases p with
    | line i => exact .inl (mem_formulas_of_formulaAt? hp)
    | hypothesis i => exact .inr (List.mem_of_getElem? ((hhyp i).symm.trans hp))
  · rintro (hmem | hmem)
    · obtain ⟨i, hi⟩ := hd.exists_formulaAt? hmem
      exact ⟨.line i, hi⟩
    · obtain ⟨i, hi⟩ := List.mem_iff_getElem?.mp hmem
      exact ⟨.hypothesis i, (hhyp i).trans hi⟩

/-! ## Derivations with more -/

/-- The first derivation has all that the second has; neither tracks a hypothesis. -/
structure Extends (d d' : Derivation) : Prop where
  faithful : d.Faithful
  faithful' : d'.Faithful
  untracked : d.tracked = none
  untracked' : d'.tracked = none
  hypotheses : d'.hypotheses ⊆ d.hypotheses
  formulas : d'.formulas ⊆ d.formulas

namespace Extends

/-- **WHAT SUPPORTS A FORMULA IS NOT LOST**: if the smaller derivation supports it, so does the
    larger one, perhaps by other means. -/
theorem supports (h : Extends d d') (hj : d'.Supports j f) : ∃ k, d.Supports k f := by
  have hline : ∀ {i g}, d'.formulaAt? i = some g → ∃ k, d.formulaAt? k = some g := by
    intro i g hi
    exact h.faithful.exists_formulaAt? (h.formulas (Faithful.mem_formulas_of_formulaAt? hi))
  have hpremise : ∀ {p g}, d'.premiseFormula? p = some g → ∃ q, d.premiseFormula? q = some g := by
    intro p g hp
    rw [h.faithful.exists_premiseFormula? h.untracked]
    exact ((h.faithful'.exists_premiseFormula? h.untracked').mp ⟨p, hp⟩).imp
      (fun hmem => h.formulas hmem) (fun hmem => h.hypotheses hmem)
  cases hj with
  | logic hax => exact ⟨_, .logic hax⟩
  | arithmetic hax => exact ⟨_, .arithmetic hax⟩
  | modusPonens ha hab =>
      obtain ⟨i, hi⟩ := hline ha
      obtain ⟨k, hk⟩ := hline hab
      exact ⟨_, .modusPonens hi hk⟩
  | hypothesis hi =>
      obtain ⟨k, hk⟩ := List.mem_iff_getElem?.mp (h.hypotheses (List.mem_of_getElem? hi))
      exact ⟨_, .hypothesis hk⟩
  | @universal p x a b hp hfree _ =>
      obtain ⟨q, hq⟩ := hpremise hp
      exact ⟨_, .universal hq hfree (permits_of_untracked h.untracked x)⟩
  | @existential p x a b hp hfree _ =>
      obtain ⟨q, hq⟩ := hpremise hp
      exact ⟨_, .existential hq hfree (permits_of_untracked h.untracked x)⟩

/-- What is justified in the smaller derivation is justified in the larger one. -/
theorem justify (h : Extends d d') (hf : f.IsFormula) (hj : d'.justify f = .ok j) :
    ∃ k, d.justify f = .ok k := by
  obtain ⟨k, hk⟩ := h.supports (justify_sound h.faithful' hf hj)
  exact justify_complete h.faithful hk

/-- The larger derivation enters a line that the smaller one does not. -/
theorem enter_left (h : Extends d d') (hf : f.IsFormula) (j : Justification) :
    Extends (d.record f j).advance d' where
  faithful := h.faithful.enter hf j
  faithful' := h.faithful'
  untracked := (record_tracked d f j).trans h.untracked
  untracked' := h.untracked'
  hypotheses := by
    rw [hypotheses_enter]
    exact h.hypotheses
  formulas := by
    rw [formulas_enter]
    exact List.subset_append_of_subset_left _ h.formulas

/-- The smaller derivation catches up with a line that the larger one has. -/
theorem enter_right (h : Extends d d') (hf : f.IsFormula) (hmem : f ∈ d.formulas)
    (j : Justification) : Extends d (d'.record f j).advance where
  faithful := h.faithful
  faithful' := h.faithful'.enter hf j
  untracked := h.untracked
  untracked' := (record_tracked d' f j).trans h.untracked'
  hypotheses := by
    rw [hypotheses_enter]
    exact h.hypotheses
  formulas := by
    rw [formulas_enter]
    exact List.append_subset.mpr
      ⟨h.formulas, List.cons_subset.mpr ⟨hmem, List.nil_subset _⟩⟩

theorem advance_left (h : Extends d d') : Extends d.advance d' where
  faithful := h.faithful.advance
  faithful' := h.faithful'
  untracked := h.untracked
  untracked' := h.untracked'
  hypotheses := h.hypotheses
  formulas := h.formulas

theorem advance_right (h : Extends d d') : Extends d d'.advance where
  faithful := h.faithful
  faithful' := h.faithful'.advance
  untracked := h.untracked
  untracked' := h.untracked'
  hypotheses := h.hypotheses
  formulas := h.formulas

/-- A line that only the larger derivation checks leaves it the larger one. -/
theorem checkLine_left (h : Extends d d') (text : String) : Extends (d.checkLine text).2 d' := by
  rcases checkLine_cases d text with ⟨f, j, hread, -, hcheck⟩ | ⟨failure, hcheck⟩
  · rw [hcheck]
    exact h.enter_left (Grammar.isFormula_of_parse hread) j
  · rw [hcheck]
    exact h.advance_left

/-- A line that both check holds in the larger one if it holds in the smaller one. -/
theorem checkLine (h : Extends d d') (text : String) :
    ((d'.checkLine text).1.toBool = true → (d.checkLine text).1.toBool = true) ∧
      Extends (d.checkLine text).2 (d'.checkLine text).2 := by
  rcases checkLine_cases d' text with ⟨f, k, hread, hk, hcheck'⟩ | ⟨failure, hcheck'⟩
  · have hf := Grammar.isFormula_of_parse hread
    obtain ⟨j, hj⟩ := h.justify hf hk
    have hentered : f ∈ (d.record f j).advance.formulas := by
      rw [formulas_enter]
      exact List.mem_append_right _ List.mem_cons_self
    rw [hcheck', checkLine_of_justify hread hj]
    exact ⟨fun _ => rfl, (h.enter_left hf j).enter_right hf hentered k⟩
  · rw [hcheck']
    refine ⟨?_, (h.checkLine_left text).advance_right⟩
    intro hok
    exact nomatch hok

end Extends

theorem thinning_weakening (inserted : Nat → Bool) :
    Thinning inserted Extends (fun o o' => o'.toBool = true → o.toBool = true)
      (fun _ => True) where
  kept := fun text h _ => h.checkLine text
  removed := fun text h _ => h.checkLine_left text

/-- With more hypotheses a derivation starts with more. -/
theorem extends_start {hypotheses hypotheses' : List Expr}
    (h : ∀ g ∈ hypotheses, g.IsFormula) (hsubset : hypotheses' ⊆ hypotheses) :
    Extends (start hypotheses) (start hypotheses') where
  faithful := faithful_start h
  faithful' := faithful_start fun g hg => h g (hsubset hg)
  untracked := rfl
  untracked' := rfl
  hypotheses := hsubset
  formulas := List.Subset.refl _

end Derivation

/-! ## Documents with more -/

/-- A document that has all hypotheses of another and the same goal states as much. -/
theorem exists_statement_of_subset {document longer : Document} {s : Statement}
    (hs : document.statement = .ok s) (hhyps : document.hypotheses ⊆ longer.hypotheses)
    (hread : ∀ text ∈ longer.hypotheses, ∃ f, Grammar.parseFormula text = .ok f)
    (hgoal : longer.goal = document.goal) :
    ∃ hypotheses, longer.statement = .ok ⟨hypotheses, s.goal⟩ ∧ s.hypotheses ⊆ hypotheses := by
  obtain ⟨hparsed, hgoalParsed⟩ := Document.statement_eq_ok.mp hs
  obtain ⟨hypotheses, hall⟩ := exists_mapM_eq_ok hread
  refine ⟨hypotheses, Document.statement_eq_ok.mpr ⟨hall, ?_⟩, ?_⟩
  · rw [hgoal]
    exact hgoalParsed
  · intro f hf
    obtain ⟨text, htext, hparse⟩ := (mem_of_mapM_eq_ok hparsed f).mp hf
    exact (mem_of_mapM_eq_ok hall f).mpr ⟨text, hhyps htext, hparse⟩

/-- **WEAKENING**: if a document has the hypotheses of another among its own, all of which can be
    read, and the lines of the other with any lines inserted between them, then every line that
    held still holds. -/
theorem accepted_lines_survive_insertion {document : Document} {report : CheckReport}
    (h : check document = .ok report) (longer : Document)
    (hhyps : document.hypotheses ⊆ longer.hypotheses)
    (hread : ∀ text ∈ longer.hypotheses, ∃ f, Grammar.parseFormula text = .ok f)
    (hgoal : longer.goal = document.goal) (inserted : Nat → Bool)
    (hlines : kept inserted 0 longer.lines = document.lines) :
    ∃ report', check longer = .ok report' ∧
      List.Forall₂ (fun line line' => line.index = place inserted line'.index ∧
          line.text = line'.text ∧ (line.failed = false → line'.failed = false))
        report.lines (report'.lines.filter (!inserted ·.index)) := by
  obtain ⟨s, hs, rfl⟩ := check_eq_report.mp h
  obtain ⟨hypotheses, hstatement, hsubset⟩ := exists_statement_of_subset hs hhyps hread hgoal
  have hformulas := (Document.isFormula_of_statement hstatement).1
  obtain ⟨hrun, -⟩ := (Derivation.thinning_weakening inserted).run
    (Derivation.extends_start hformulas hsubset) rfl longer.lines
    (fun _ _ _ => trivial)
  refine ⟨_, check_eq_report.mpr ⟨⟨hypotheses, s.goal⟩, hstatement, rfl⟩, ?_⟩
  rw [show (Derivation.start hypotheses).lineCount = 0 from rfl, hlines] at hrun
  refine hrun.flip.imp ?_
  rintro line line' ⟨hindex, htext, houtcome⟩
  refine ⟨hindex, htext, ?_⟩
  show (!line.outcome.toBool) = false → (!line'.outcome.toBool) = false
  rw [Bool.not_eq_false', Bool.not_eq_false']
  exact houtcome

/-- With another hypothesis and two lines before it, of which one cannot be read, a line that rests
    on a hypothesis comes to rest on a line. -/
theorem accepted_lines_survive_new_premise :
    ∃ report report', check ⟨["A->P(x)"], "A->@xP(x)", ["A->@xP(x)"]⟩ = .ok report ∧
      report.lines.map (fun line => (line.text, line.failed)) = [("A->@xP(x)", false)] ∧
      check ⟨["B", "A->P(x)"], "A->@xP(x)", ["0=", "A->P(x)", "A->@xP(x)"]⟩ = .ok report' ∧
      ∃ line ∈ report'.lines, line.text = "A->@xP(x)" ∧ line.failed = false := by
  have hrun : (check ⟨["A->P(x)"], "A->@xP(x)", ["A->@xP(x)"]⟩).toOption.any
      (fun report => decide
        (report.lines.map (fun line => (line.text, line.failed)) = [("A->@xP(x)", false)])) =
          true := by
    decide +kernel
  have hread : ∀ text ∈ ["B", "A->P(x)"], ∃ f, Grammar.parseFormula text = .ok f := by
    have hok : ∀ text ∈ ["B", "A->P(x)"],
        (Grammar.parseFormula text).toOption.any (fun _ => true) = true := by
      decide +kernel
    intro text htext
    obtain ⟨f, hf, -⟩ := exists_ok_of_any (hok text htext)
    exact ⟨f, hf⟩
  obtain ⟨report, hcheck, htest⟩ := exists_ok_of_any hrun
  obtain ⟨line, hlines, hline⟩ := List.map_eq_singleton_iff.mp (of_decide_eq_true htest)
  obtain ⟨htext, hholds⟩ := Prod.mk.inj hline
  obtain ⟨longer, hlonger, hrelated⟩ := accepted_lines_survive_insertion hcheck
    ⟨["B", "A->P(x)"], "A->@xP(x)", ["0=", "A->P(x)", "A->@xP(x)"]⟩
    (List.subset_cons_self "B" ["A->P(x)"]) hread rfl (fun i => decide (i < 2)) rfl
  rw [hlines] at hrelated
  obtain ⟨line', rest, ⟨-, htext', hkept⟩, -, hfiltered⟩ :=
    List.forall₂_cons_left_iff.mp hrelated
  have hmem : line' ∈ longer.lines.filter (fun line => !decide (line.index < 2)) := by
    rw [hfiltered]
    exact List.mem_cons_self
  exact ⟨report, longer, hcheck, of_decide_eq_true htest, hlonger, line',
    (List.mem_filter.mp hmem).1, htext'.symm.trans htext, hkept hholds⟩

end PeanoCalculus
