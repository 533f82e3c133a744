import PeanoCalculus.Proofs.Elaboration.DeductionTheorem

/-! # Discharging and checking agree

    The two modes run over the same lines in different states: discharging tracks the last
    hypothesis and checking tracks none, so a line may hold by different rules in the two.  What
    they share is `Yields`, which names no state.  A line that holds while a hypothesis is tracked
    is yielded by the hypotheses and the lines before it, since the premises of the quantifier
    rules are lines there; and what is yielded holds where nothing is tracked.

    So a document that is discharged reads as a script, and scripts are accepted.  Each piece ends
    in the implication from the discharged hypothesis to its line, hence the new proof ends in its
    conclusion just when the old one ends in the goal. -/

namespace PeanoCalculus

open PeanoCalculus.Expr Templates

/-! ## The lines that are discharged -/

namespace Discharging

variable {hypotheses known : List Expr} {h f : Expr} {d : Derivation} {j : Justification}

/-- What holds while a hypothesis is tracked is yielded by the hypotheses and the lines. -/
theorem yields (hd : Discharging hypotheses h known d) (hf : f.IsFormula) (hj : d.Supports j f) :
    Yields d.hypotheses d.formulas f := by
  cases hj with
  | logic hax => exact .logic hax
  | arithmetic hax => exact .arithmetic hax
  | modusPonens hi hk =>
      exact .modusPonens (Derivation.Faithful.mem_formulas_of_formulaAt? hi)
        (Derivation.Faithful.mem_formulas_of_formulaAt? hk)
  | hypothesis hi => exact .hypothesis (List.mem_of_getElem? hi)
  | universal hp hfree _ =>
      cases (isFormula_of_implies hf).2 with
      | quantified hx _ => exact .universal hx hfree (hd.mem_of_premise hp)
  | existential hp hfree _ =>
      cases (isFormula_of_implies hf).1 with
      | quantified hx _ => exact .existential hx hfree (hd.mem_of_premise hp)

/-- **WHAT IS DISCHARGED IS A SCRIPT**: the old lines read as a script from all the hypotheses, and
    the last new line is the last old one below the discharged hypothesis. -/
theorem source (hd : Discharging hypotheses h known d) {texts : List String} {lines : List Expr}
    (hrun : dischargeLines builtin h d texts = .ok lines) :
    ∃ formulas, texts.mapM Grammar.parseFormula = .ok formulas ∧
      Script d.hypotheses d.formulas formulas ∧
      lines.getLast? = formulas.getLast?.map (implies h) := by
  induction texts generalizing d known lines with
  | nil =>
      cases hrun
      exact ⟨[], rfl, trivial, rfl⟩
  | cons text rest ih =>
      obtain ⟨f, j, kind, slots, more, hread, hj, htemplate, hmore, rfl⟩ :=
        dischargeLines_cons_eq_ok.mp hrun
      have hf := Grammar.isFormula_of_parse hread
      have hsupports := Derivation.justify_sound hd.toFaithful hf hj
      obtain ⟨_, hlast⟩ := hd.template hf hsupports htemplate
      obtain ⟨formulas, hrest, hscript, hend⟩ :=
        ih (hd.enter hf j (List.mem_of_getLast? hlast)) hmore
      refine ⟨f :: formulas, mapM_cons_eq_ok.mpr ⟨f, formulas, hread, hrest, rfl⟩,
        ⟨hd.yields hf hsupports, (Derivation.script_enter d f j).mp hscript⟩, ?_⟩
      -- the piece of this line counts only if no line follows
      rw [List.getLast?_append, hlast, hend, List.getLast?_cons]
      cases formulas.getLast? with
      | none => rfl
      | some g => rfl

end Discharging

/-! ## Whole documents -/

/-- Below one hypothesis two formulas have the same text just when they have it by themselves. -/
theorem text_implies_eq_iff {h f g : Expr} (hh : h.IsFormula) (hf : f.IsFormula)
    (hg : g.IsFormula) : (implies h f).text = (implies h g).text ↔ f.text = g.text := by
  constructor
  · intro htext
    have himp := Grammar.formula_eq_of_text_eq (.implies hh hf) (.implies hh hg) htext
    injection himp with _ _ heq
    rw [heq]
  · intro htext
    rw [Grammar.formula_eq_of_text_eq hf hg htext]

/-- A document that is discharged reads as a script from all its hypotheses, and the new proof ends
    in its conclusion just when the script ends in the goal. -/
theorem script_of_complete {document : Document} {e : Elaboration}
    (h : elaborate builtin document = .ok (.complete e)) :
    ∃ formulas, document.lines.mapM Grammar.parseFormula = .ok formulas ∧
      Script (e.hypotheses ++ [e.discharged]) [] formulas ∧
      e.concludesGoal = formulas.getLast?.any (·.text = e.goal.text) := by
  obtain ⟨hstatement, hrun⟩ := elaborate_eq_complete h
  obtain ⟨hhyps, hgoal⟩ := Document.isFormula_of_statement hstatement
  have hdischarged : e.discharged.IsFormula := hhyps _ (by simp)
  obtain ⟨formulas, hread, hscript, hend⟩ := (discharging_start hhyps).source hrun
  refine ⟨formulas, hread, hscript, ?_⟩
  show e.lines.getLast?.any (·.text = (implies e.discharged e.goal).text) = _
  rw [hend, Option.any_map]
  cases hlast : formulas.getLast? with
  | none => rfl
  | some f =>
      have hf := mapM_parse_isFormula hread f (List.mem_of_getLast? hlast)
      exact decide_eq_decide.mpr (text_implies_eq_iff hdischarged hf hgoal)

/-- Where no line fails, the only message is about the goal. -/
theorem diagnostics_of_failures_eq_nil {report : CheckReport} (h : report.failures = []) :
    report.diagnostics = if report.goalReached then [] else [unreachedMessage report.goal] := by
  have hnone : report.lines.filterMap (·.diagnostic?) = [] := by
    refine List.filterMap_eq_nil_iff.mpr ?_
    intro line hline
    have hok := List.filter_eq_nil_iff.mp h line hline
    unfold CheckedLine.failed at hok
    unfold CheckedLine.diagnostic?
    cases houtcome : line.outcome with
    | ok j => rfl
    | error failure =>
        rw [houtcome] at hok
        exact absurd rfl hok
  unfold CheckReport.diagnostics
  rw [hnone]
  rfl

/-- **THE TWO MODES AGREE**: a document whose last hypothesis is discharged is checked without a
    failure, the goal is reached just when the new proof ends in its conclusion, and the messages
    are the same. -/
theorem discharged_document_checks {document : Document} {e : Elaboration}
    (h : elaborate builtin document = .ok (.complete e)) :
    ∃ report, check document = .ok report ∧ report.lines.map (·.text) = document.lines ∧
      report.failures = [] ∧ report.goalReached = e.concludesGoal ∧
      report.diagnostics = (Discharge.complete e).diagnostics := by
  have hstatement := (elaborate_eq_complete h).1
  obtain ⟨formulas, hread, hscript, hconcludes⟩ := script_of_complete h
  obtain ⟨report, hcheck, hfailures, hreached⟩ := check_of_lines hstatement hread hscript
  have hgoal : report.goal = e.goal := by
    obtain ⟨s, hs, hreport⟩ := check_eq_ok.mp hcheck
    rw [hreport, Except.ok.inj (hs.symm.trans hstatement)]
  refine ⟨report, hcheck, texts_of_check hcheck, hfailures, hreached.trans hconcludes.symm, ?_⟩
  rw [diagnostics_of_failures_eq_nil hfailures, hreached, hgoal, ← hconcludes]
  rfl

/-- The one line of this document holds by different rules in the two modes: by generalisation from
    a hypothesis when it is checked, as a hypothesis itself when the last one is discharged. -/
theorem discharged_document_checks_other_rule :
    ∃ e report, elaborate builtin
        ⟨["A->P(x)", "A->@xP(x)", "B"], "A->@xP(x)", ["A->@xP(x)"]⟩ = .ok (.complete e) ∧
      e.lines.head? = some (implies (letter "A") (all "x" (.apply "P" [.var "x"]))) ∧
      check ⟨["A->P(x)", "A->@xP(x)", "B"], "A->@xP(x)", ["A->@xP(x)"]⟩ = .ok report ∧
      report.lines.map (·.outcome.toOption) =
        [some (.generalization .universal (.hypothesis 0))] ∧
      report.isCorrect = true := by
  have hrun : (elaborate builtin
      ⟨["A->P(x)", "A->@xP(x)", "B"], "A->@xP(x)", ["A->@xP(x)"]⟩).toOption.any
      (·.casesOn (fun e => e.concludesGoal && decide (e.lines.head? =
        some (implies (letter "A") (all "x" (.apply "P" [.var "x"])))))
        (fun _ _ => false)) = true := by decide +kernel
  have hrules : (check
      ⟨["A->P(x)", "A->@xP(x)", "B"], "A->@xP(x)", ["A->@xP(x)"]⟩).toOption.any
      (fun report => decide (report.lines.map (·.outcome.toOption) =
        [some (.generalization .universal (.hypothesis 0))])) = true := by decide +kernel
  obtain ⟨outcome, helaborate, htest⟩ := exists_ok_of_any hrun
  cases outcome with
  | incorrect line failure => exact nomatch htest
  | complete e =>
      obtain ⟨hconcludes, hfirst⟩ := Bool.and_eq_true_iff.mp htest
      obtain ⟨report, hcheck, -, hfailures, hreached, -⟩ :=
        discharged_document_checks helaborate
      obtain ⟨report', hcheck', houtcomes⟩ := exists_ok_of_any hrules
      obtain rfl := Except.ok.inj (hcheck.symm.trans hcheck')
      refine ⟨e, report, helaborate, of_decide_eq_true hfirst, hcheck,
        of_decide_eq_true houtcomes, ?_⟩
      unfold CheckReport.isCorrect
      rw [hreached, hfailures]
      exact Bool.and_eq_true_iff.mpr ⟨hconcludes, rfl⟩

end PeanoCalculus
