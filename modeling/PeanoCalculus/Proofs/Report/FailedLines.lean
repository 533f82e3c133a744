import PeanoCalculus.Proofs.Derivation.Relabelling
import PeanoCalculus.Proofs.Report.Thinning

/-! # Failed lines leave no trace

    A line that fails takes a number and does nothing else.  So the document without some of its
    failed lines is checked with the same result: the lines that are left have moved up, and where
    an outcome cites a line it cites it by its new number. -/

namespace PeanoCalculus

/-- The line, and the lines that its outcome cites, with other numbers. -/
def CheckedLine.renumber (n : Nat → Nat) (line : CheckedLine) : CheckedLine where
  index := n line.index
  text := line.text
  outcome := .renumber n line.outcome

/-- Lines that are related by renumbering are renumbered lines. -/
theorem map_renumber_eq {n : Nat → Nat} {lines lines' : List CheckedLine}
    (h : List.Forall₂ (fun line line' => line'.index = n line.index ∧ line'.text = line.text ∧
      line'.outcome = .renumber n line.outcome) lines lines') :
    lines.map (·.renumber n) = lines' := by
  induction h with
  | nil => rfl
  | cons hline _ ih =>
      obtain ⟨hindex, htext, houtcome⟩ := hline
      rw [List.map_cons, ih, CheckedLine.renumber, ← hindex, ← htext, ← houtcome]

namespace Derivation

/-- A run may leave out lines that fail: the logs stay the same up to the numbers. -/
theorem thinning_failed (removed : Nat → Bool) :
    Thinning removed (Image .identity (place removed))
      (fun o o' => o' = .renumber (place removed) o) (fun o => (!o.toBool) = true) where
  kept := fun text himage hcount => himage.checkLine hcount text
  removed := by
    intro d d' text himage hfailed
    rcases checkLine_cases d text with ⟨f, j, -, -, hcheck⟩ | ⟨failure, hcheck⟩
    · rw [hcheck] at hfailed
      exact nomatch hfailed
    · rw [hcheck]
      exact himage.skip

theorem image_start {hypotheses : List Expr} (h : ∀ g ∈ hypotheses, g.IsFormula)
    (n : Nat → Nat) : Image .identity n (start hypotheses) (start hypotheses) := by
  have hsame : hypotheses.map (·.rename Renaming.identity.name) = hypotheses :=
    (List.map_congr_left fun g _ => Expr.rename_id g).trans (List.map_id' hypotheses)
  have himage := Image.start .identity n h
  rwa [hsame] at himage

end Derivation

/-- **FAILED LINES LEAVE NO TRACE**: without some of its failed lines a document has the same
    report, with the other lines at their new places, the lines that they cite cited by their new
    numbers, and the goal reached as before. -/
theorem check_without_failed_lines {document : Document} {report : CheckReport}
    (h : check document = .ok report) (removed : Nat → Bool)
    (hfailed : ∀ line ∈ report.lines, removed line.index = true → line.failed = true) :
    check (document.without removed) = .ok { report with
      lines := (report.lines.filter (!removed ·.index)).map (·.renumber (place removed)) } := by
  obtain ⟨s, hs, rfl⟩ := check_eq_report.mp h
  obtain ⟨hhyps, hgoal⟩ := Document.isFormula_of_statement hs
  obtain ⟨hlines, hlast⟩ := (Derivation.thinning_failed removed).run
    (Derivation.image_start hhyps (place removed)) rfl document.lines hfailed
  have hreached := hlast.last?_any hgoal
  rw [show s.goal.rename Renaming.identity.name = s.goal from Expr.rename_id s.goal] at hreached
  refine check_eq_report.mpr ⟨s, hs, ?_⟩
  exact congrArg₂ (CheckReport.mk document.header s.goal) (map_renumber_eq hlines) hreached.symm

/-- Of three lines that fail two are left out; the third stays and cites its premise by the new
    number. -/
theorem check_without_failed_lines_cited :
    ∃ report report', check ⟨["P(x)", "P(x)->Q(x)"], "Q(x)",
        ["0=", "P(x)", "Q(x)", "P(x)->Q(x)", "P(x)->@xQ(x)", "Q(x)"]⟩ = .ok report ∧
      report.failures.map (·.index) = [0, 2, 4] ∧
      check ⟨["P(x)", "P(x)->Q(x)"], "Q(x)",
        ["P(x)", "P(x)->Q(x)", "P(x)->@xQ(x)", "Q(x)"]⟩ = .ok report' ∧
      report'.lines.map (·.render) =
        ["(1) P(x) (Hyp. 1)", "(2) P(x)->Q(x) (Hyp. 2)", "(3) P(x)->@xQ(x) (Not proved)",
          "(4) Q(x) (M.P. 1, 2)"] ∧
      report'.lines.filterMap (·.diagnostic?) =
        ["Proof is incorrect starting from formula 3: variable x occurs free in formula 2"] := by
  let removed : Nat → Bool := fun i => i == 0 || i == 2
  have hrun : (check ⟨["P(x)", "P(x)->Q(x)"], "Q(x)",
      ["0=", "P(x)", "Q(x)", "P(x)->Q(x)", "P(x)->@xQ(x)", "Q(x)"]⟩).toOption.any
      (fun report =>
        let lines := (report.lines.filter (!removed ·.index)).map (·.renumber (place removed))
        report.lines.all (fun line => !removed line.index || line.failed) &&
        decide (report.failures.map (·.index) = [0, 2, 4]) &&
        decide (lines.map (·.render) =
          ["(1) P(x) (Hyp. 1)", "(2) P(x)->Q(x) (Hyp. 2)", "(3) P(x)->@xQ(x) (Not proved)",
            "(4) Q(x) (M.P. 1, 2)"]) &&
        decide (lines.filterMap (·.diagnostic?) =
          ["Proof is incorrect starting from formula 3: variable x occurs free in formula 2"])) =
        true := by
    decide +kernel
  obtain ⟨report, hcheck, htest⟩ := exists_ok_of_any hrun
  simp only [Bool.and_eq_true, decide_eq_true_eq, List.all_eq_true, Bool.or_eq_true,
    Bool.not_eq_true'] at htest
  obtain ⟨⟨⟨hfailed, hfailures⟩, hlines⟩, hdiagnostics⟩ := htest
  refine ⟨report, _, hcheck, hfailures, check_without_failed_lines hcheck removed ?_, hlines,
    hdiagnostics⟩
  intro line hline hremoved
  exact (hfailed line hline).resolve_left (by simp [hremoved])

end PeanoCalculus
