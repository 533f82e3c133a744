import PeanoCalculus.Proofs.Derivation.Relabelling
import PeanoCalculus.Proofs.Elaboration.FirstFailure
import PeanoCalculus.Proofs.Report.Thinning

/-! # No name is special

    The axiom schemas are written over `A`, `B`, `C` and `a`, `b`, `c`, the templates over `H`, `A`,
    `B` and `x`, and documents use the same names.  They never meet: a document written from the
    renamed formulas of another is checked and discharged like the other, with the names in its
    failures and in its new lines renamed.

    How one line is checked is settled by `Derivation.Image`, with the numbers kept.  What is new
    here is that the pieces of a discharge are made of nothing but the formulas that are put into
    them, so the piece of a renamed line is the renamed piece. -/

namespace PeanoCalculus

open PeanoCalculus.Expr Templates

/-- The discharge of the renamed document. -/
def Discharge.rename (r : Renaming) : Discharge → Discharge
  | .complete e => .complete {
      hypotheses := e.hypotheses.map (·.rename r.name)
      discharged := e.discharged.rename r.name
      goal := e.goal.rename r.name
      lines := e.lines.map (·.rename r.name) }
  | .incorrect line failure => .incorrect line (failure.rename r)

variable {r : Renaming} {d d' : Derivation}

namespace Derivation.Image

/-! ## Checking -/

/-- The outcomes of renamed lines are the renamed outcomes of the lines. -/
theorem checkLines (h : Image r id d d') (hcount : d'.lineCount = d.lineCount)
    {texts : List String} {lines : List Expr}
    (hread : texts.mapM Grammar.parseFormula = .ok lines) :
    (d'.checkLines ((lines.map (·.rename r.name)).map (·.text))).1 =
        (d.checkLines texts).1.map (.rename r) ∧
      Image r id (d.checkLines texts).2
        (d'.checkLines ((lines.map (·.rename r.name)).map (·.text))).2 := by
  induction texts generalizing d d' lines with
  | nil =>
      obtain rfl := Except.ok.inj hread
      exact ⟨rfl, h⟩
  | cons text rest ih =>
      obtain ⟨f, lines, hf, hrest, rfl⟩ := mapM_cons_eq_ok.mp hread
      have hformula := Grammar.isFormula_of_parse hf
      have hline : d.checkLine text = d.checkFormula f := by
        rw [Derivation.checkLine, hf]
      have hline' : d'.checkLine (f.rename r.name).text =
          d'.checkFormula (f.rename r.name) := by
        rw [Derivation.checkLine, Grammar.parseFormula_text (hformula.rename r.respectsKind)]
      obtain ⟨houtcome, hnext⟩ := h.checkFormula hcount hformula
      have hcount' : (d'.checkLine (f.rename r.name).text).2.lineCount =
          (d.checkLine text).2.lineCount := by
        rw [lineCount_checkLine, lineCount_checkLine, hcount]
      rw [← hline, ← hline', Outcome.relabel_id] at houtcome
      rw [← hline, ← hline'] at hnext
      obtain ⟨houtcomes, hlast⟩ := ih hnext hcount' hrest
      exact ⟨congrArg₂ List.cons houtcome houtcomes, hlast⟩

/-! ## Discharging -/

theorem trackLast (h : Image r id d d') : Image r id d.trackLast d'.trackLast where
  source := h.source.trackLast
  target := h.target.trackLast
  hypotheses := h.hypotheses
  tracked := by
    show (if d'.hypotheses.isEmpty then none else some (d'.hypotheses.length - 1)) =
      if d.hypotheses.isEmpty then none else some (d.hypotheses.length - 1)
    rw [h.hypotheses, List.isEmpty_map, List.length_map]
  log := h.log

theorem formulaAt? (h : Image r id d d') (i : Nat) :
    d'.formulaAt? i = (d.formulaAt? i).map (·.rename r.name) := by
  unfold Derivation.formulaAt?
  rw [h.log, List.find?_map, Option.map_map, Option.map_map]
  rfl

/-- The piece of a renamed line is the renamed piece of the line. -/
theorem template (h : Image r id d d') {g f : Expr} (hg : g.IsFormula) (hf : f.IsFormula)
    (j : Justification) :
    (templateFor d' (g.rename r.name) (f.rename r.name) j).map
        (fun (kind, slots) => builtin.instantiate kind slots) =
      (templateFor d g f j).map
        (fun (kind, slots) => (builtin.instantiate kind slots).map (·.rename r.name)) := by
  simp only [templateFor, r.text_eq_iff hf hg]
  -- the same template is taken; filled, it computes to lines over what was put into it
  by_cases htext : f.text = g.text
  · rw [if_pos htext, if_pos htext]
    rfl
  · rw [if_neg htext, if_neg htext]
    cases j with
    | logic n => rfl
    | arithmetic n => rfl
    | hypothesis i => rfl
    | modusPonens i k =>
        simp only [h.formulaAt?, Option.map_map]
        rfl
    | generalization q p =>
        cases q with
        | universal =>
            cases hf with
            | @implies side goal hside hgoal => cases hgoal <;> rfl
            | _ => rfl
        | existential =>
            cases hf with
            | @implies source side hsource hside => cases hsource <;> rfl
            | _ => rfl

end Derivation.Image

/-- The result of a run with other names in its lines, or in its failure. -/
def renameRun (r : Renaming) :
    Except (Nat × Failure) (List Expr) → Except (Nat × Failure) (List Expr)
  | .ok lines => .ok (lines.map (·.rename r.name))
  | .error (line, failure) => .error (line, failure.rename r)

/-- **DISCHARGING KNOWS NO NAMES**: the run over renamed lines is the renamed run. -/
theorem Derivation.Image.dischargeLines (himage : Image r id d d')
    (hcount : d'.lineCount = d.lineCount) {h : Expr} (hh : h.IsFormula) {texts : List String}
    {lines : List Expr} (hread : texts.mapM Grammar.parseFormula = .ok lines) :
    PeanoCalculus.dischargeLines builtin (h.rename r.name) d'
        ((lines.map (·.rename r.name)).map (·.text)) =
      renameRun r (PeanoCalculus.dischargeLines builtin h d texts) := by
  induction texts generalizing d d' lines with
  | nil =>
      obtain rfl := Except.ok.inj hread
      rfl
  | cons text rest ih =>
      obtain ⟨f, lines, hf, hrest, rfl⟩ := mapM_cons_eq_ok.mp hread
      have hformula := Grammar.isFormula_of_parse hf
      have hf' := Grammar.parseFormula_text (hformula.rename r.respectsKind)
      have hjustify := himage.justify hformula
      rw [Outcome.relabel_id] at hjustify
      rw [List.map_cons, List.map_cons]
      cases hj : d.justify f with
      | error failure =>
          rw [hj] at hjustify
          rw [dischargeLines_of_failure hf hj, dischargeLines_of_failure hf' hjustify, hcount]
          rfl
      | ok j =>
          rw [hj] at hjustify
          have hnext := himage.enter hcount hformula j
          rw [j.renumber_id] at hnext
          have hcount' : (d'.record (f.rename r.name) j).advance.lineCount =
              (d.record f j).advance.lineCount := by
            show (d'.record _ _).lineCount + 1 = (d.record _ _).lineCount + 1
            rw [record_lineCount, record_lineCount, hcount]
          rw [dischargeLines_of_justify hf hj, dischargeLines_of_justify hf' hjustify,
            hnext.template hh hformula j, ih hnext hcount' hrest, hcount]
          cases templateFor (d.record f j).advance h f j with
          | none => rfl
          | some filled =>
              cases PeanoCalculus.dischargeLines builtin h (d.record f j).advance rest with
              | ok more => exact congrArg Except.ok List.map_append.symm
              | error failure => rfl

/-! ## Whole documents -/

section Rename

variable {document : Document} {hypotheses : List Expr} {goal : Expr} {lines : List Expr}

end Rename

end PeanoCalculus
