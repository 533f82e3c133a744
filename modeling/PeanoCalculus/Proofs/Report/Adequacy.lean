import PeanoCalculus.Proofs.Document.Printed
import PeanoCalculus.Proofs.Report.Check

/-! # Checking is adequate for the calculus

    A correct report on a document with some header exists just when the goal of the header is
    derivable from its hypotheses.  One direction is what a report confirms.  For the other a
    derivation is written as a script, a list of lines each of which follows from those before it,
    and the printed script is a document on which no line fails. -/

namespace PeanoCalculus

open PeanoCalculus.Expr

/-! ## Scripts are accepted -/

theorem formulas_getLast? (d : Derivation) : d.formulas.getLast? = d.last?.map (·.formula) :=
  List.getLast?_map

/-- A report fails nowhere when every outcome is good. -/
theorem failures_eq_nil {report : CheckReport}
    (h : ∀ line ∈ report.lines, ∃ j, line.outcome = .ok j) : report.failures = [] := by
  refine List.filter_eq_nil_iff.mpr ?_
  intro line hline hfailed
  obtain ⟨j, hj⟩ := h line hline
  unfold CheckedLine.failed at hfailed
  rw [hj] at hfailed
  exact nomatch hfailed

/-- **DOCUMENTS THAT READ AS SCRIPTS ARE ACCEPTED**: no line of them fails, and the goal is reached
    if the script ends in it. -/
theorem check_of_lines {document : Document} {hypotheses lines : List Expr} {goal : Expr}
    (hstatement : document.statement = .ok ⟨hypotheses, goal⟩)
    (hlines : document.lines.mapM Grammar.parseFormula = .ok lines)
    (h : Script hypotheses [] lines) :
    ∃ report, check document = .ok report ∧ report.failures = [] ∧
      report.goalReached = lines.getLast?.any (·.text = goal.text) := by
  have hhyps := (Document.isFormula_of_statement hstatement).1
  have hscript : Script (Derivation.start hypotheses).hypotheses
      (Derivation.start hypotheses).formulas lines := h
  obtain ⟨hok, hformulas⟩ := Derivation.checkLines_of_script (Derivation.faithful_start hhyps)
    (Derivation.permits_of_untracked rfl) hlines hscript
  refine ⟨_, check_eq_ok.mpr ⟨⟨hypotheses, goal⟩, hstatement, rfl⟩, ?_, ?_⟩
  · refine failures_eq_nil (fun line hline => hok _ ?_)
    have hpair := List.mem_map_of_mem (f := fun line => (line.text, line.outcome)) hline
    rw [map_checkedLine] at hpair
    exact (List.of_mem_zip hpair).2
  · have hlast : ((Derivation.start hypotheses).checkLines document.lines).2.last?.map
        (·.formula) = lines.getLast? := by
      rw [← formulas_getLast?, hformulas]
      rfl
    show Option.any _ (Derivation.last? _) = _
    rw [← hlast, Option.any_map]

end PeanoCalculus
