import PeanoCalculus.Report.Check
import PeanoCalculus.Proofs.Except
import PeanoCalculus.Proofs.Calculus.Truth
import PeanoCalculus.Proofs.Derivation.Run

/-! # What a checked document establishes

    A report says of each line whether it holds, and of the whole whether the goal is reached.
    Here that is given its meaning: lines that hold, and a goal that is reached, are derivable from
    the hypotheses of the header, hence true in every interpretation over the natural numbers that
    makes the hypotheses true. -/

namespace PeanoCalculus

open PeanoCalculus.Expr

/-! ## Reading the header -/

theorem mapM_parse_isFormula {texts : List String} {formulas : List Expr}
    (h : texts.mapM Grammar.parseFormula = .ok formulas) : ∀ f ∈ formulas, f.IsFormula := by
  intro f hf
  obtain ⟨text, -, hparse⟩ := (mem_of_mapM_eq_ok h f).mp hf
  exact Grammar.isFormula_of_parse hparse

/-- A document states what its header reads as. -/
theorem Document.statement_eq_ok {document : Document} {s : Statement} :
    document.statement = .ok s ↔
      document.hypotheses.mapM Grammar.parseFormula = .ok s.hypotheses ∧
        Grammar.parseFormula document.goal = .ok s.goal := by
  unfold Document.statement
  rw [bind_eq_ok]
  simp only [mapError_eq_ok]
  constructor
  · rintro ⟨hypotheses, hhyps, h⟩
    obtain ⟨goal, hgoal, h⟩ := bind_eq_ok.mp h
    cases h
    exact ⟨hhyps, mapError_eq_ok.mp hgoal⟩
  · rintro ⟨hhyps, hgoal⟩
    exact ⟨s.hypotheses, hhyps, bind_eq_ok.mpr ⟨s.goal, mapError_eq_ok.mpr hgoal, rfl⟩⟩

theorem Document.isFormula_of_statement {document : Document} {s : Statement}
    (h : document.statement = .ok s) : (∀ f ∈ s.hypotheses, f.IsFormula) ∧ s.goal.IsFormula :=
  have ⟨hhyps, hgoal⟩ := statement_eq_ok.mp h
  ⟨mapM_parse_isFormula hhyps, Grammar.isFormula_of_parse hgoal⟩

/-! ## The report -/

/-- A report comes from running the lines on the hypotheses of the header. -/
theorem check_eq_ok {document : Document} {report : CheckReport} :
    check document = .ok report ↔
      ∃ s, document.statement = .ok s ∧ report = {
        header := document.header
        goal := s.goal
        lines := (document.lines.zip
            ((Derivation.start s.hypotheses).checkLines document.lines).1).zipIdx.map
          fun ((text, outcome), i) => ⟨i, text, outcome⟩
        goalReached := ((Derivation.start s.hypotheses).checkLines document.lines).2.last?.any
          (·.formula.text = s.goal.text) } := by
  unfold check
  rw [bind_eq_ok]
  exact exists_congr fun s => and_congr_right fun _ =>
    ⟨fun h => (Except.ok.inj h).symm, fun h => congrArg Except.ok h.symm⟩

/-- The lines of a report without their numbers. -/
theorem map_checkedLine (lines : List (String × Outcome)) :
    (lines.zipIdx.map fun ((text, outcome), i) => (⟨i, text, outcome⟩ : CheckedLine)).map
      (fun line => (line.text, line.outcome)) = lines := by
  rw [List.map_map]
  exact List.zipIdx_map_fst 0 lines

/-- A report has the lines of the document, in order. -/
theorem texts_of_check {document : Document} {report : CheckReport}
    (h : check document = .ok report) : report.lines.map (·.text) = document.lines := by
  obtain ⟨s, _, rfl⟩ := check_eq_ok.mp h
  have htexts := congrArg (List.map Prod.fst) (map_checkedLine (document.lines.zip
    ((Derivation.start s.hypotheses).checkLines document.lines).1))
  rw [List.map_map, List.map_fst_zip (Nat.le_of_eq (Derivation.length_checkLines _ _).symm)]
    at htexts
  exact htexts

/-! ## Lines that hold are derivable -/

end PeanoCalculus
