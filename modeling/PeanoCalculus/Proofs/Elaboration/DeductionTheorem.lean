import PeanoCalculus.Report.Discharge
import PeanoCalculus.Proofs.Report.Adequacy
import PeanoCalculus.Proofs.Template.Scripts

/-! # The deduction theorem, computed

    Discharging replaces each line `E` of a proof by a piece that ends in `H->E`.  The invariant is
    that for every formula of the log the implication from the discharged hypothesis stands among
    the lines written so far.  It gives each piece the premises it needs: those of a line in the
    tracked derivation are lines, never hypotheses, and a variable that is generalised there is
    not free in the tracked hypothesis.

    So the new lines are a script, and a printed script is a document on which no line fails. -/

namespace PeanoCalculus

open PeanoCalculus.Expr Templates

section DischargeLines

variable {templates : Templates} {h f : Expr} {d : Derivation} {j : Justification}
  {text : String} {rest : List String}

/-- A line that fails ends the run. -/
theorem dischargeLines_of_failure {failure : Failure} (hread : Grammar.parseFormula text = .ok f)
    (hj : d.justify f = .error failure) :
    dischargeLines templates h d (text :: rest) = .error (d.lineCount, failure) := by
  rw [dischargeLines, hread]
  simp only [Derivation.checkFormula, hj]

/-- A line that holds is replaced by the piece that its template gives. -/
theorem dischargeLines_of_justify (hread : Grammar.parseFormula text = .ok f)
    (hj : d.justify f = .ok j) :
    dischargeLines templates h d (text :: rest) =
      match (templateFor (d.record f j).advance h f j).map
          (fun (kind, slots) => templates.instantiate kind slots) with
      | none => .error (d.lineCount, .unproved)
      | some piece =>
          match dischargeLines templates h (d.record f j).advance rest with
          | .ok lines => .ok (piece ++ lines)
          | .error failure => .error failure := by
  rw [dischargeLines, hread]
  simp only [Derivation.checkFormula, hj]
  cases templateFor (d.record f j).advance h f j with
  | none => rfl
  | some filled =>
      show (dischargeLines templates h (d.record f j).advance rest >>= _) = _
      cases dischargeLines templates h (d.record f j).advance rest <;> rfl

/-- A line is replaced when it is read, it is justified and there is a template for it. -/
theorem dischargeLines_cons_eq_ok {lines : List Expr} :
    dischargeLines templates h d (text :: rest) = .ok lines ↔
      ∃ f j kind slots more, Grammar.parseFormula text = .ok f ∧ d.justify f = .ok j ∧
        templateFor (d.record f j).advance h f j = some (kind, slots) ∧
        dischargeLines templates h (d.record f j).advance rest = .ok more ∧
        lines = templates.instantiate kind slots ++ more := by
  constructor
  · intro hrun
    cases hread : Grammar.parseFormula text with
    | error e =>
        rw [dischargeLines, hread] at hrun
        exact nomatch hrun
    | ok f =>
        cases hj : d.justify f with
        | error failure =>
            rw [dischargeLines_of_failure hread hj] at hrun
            exact nomatch hrun
        | ok j =>
            rw [dischargeLines_of_justify hread hj] at hrun
            cases htemplate : templateFor (d.record f j).advance h f j with
            | none =>
                rw [htemplate] at hrun
                exact nomatch hrun
            | some filled =>
                rw [htemplate] at hrun
                cases hmore : dischargeLines templates h (d.record f j).advance rest with
                | error failure =>
                    rw [hmore] at hrun
                    exact nomatch hrun
                | ok more =>
                    rw [hmore] at hrun
                    exact ⟨f, j, filled.1, filled.2, more, rfl, hj, htemplate, hmore,
                      (Except.ok.inj hrun).symm⟩
  · rintro ⟨f, j, kind, slots, more, hread, hj, htemplate, hmore, rfl⟩
    rw [dischargeLines_of_justify hread hj, htemplate, hmore]
    rfl

end DischargeLines

/-- The last hypothesis of the derivation is tracked, and each formula of its log is known below
    that hypothesis. -/
structure Discharging (hypotheses : List Expr) (h : Expr) (known : List Expr) (d : Derivation) :
    Prop extends Derivation.Faithful d where
  hypotheses_eq : d.hypotheses = hypotheses ++ [h]
  trackedHypothesis_eq : d.trackedHypothesis? = some h
  discharged : ∀ g ∈ d.formulas, implies h g ∈ known

namespace Discharging

variable {hypotheses known : List Expr} {h f : Expr} {d : Derivation} {j : Justification}

theorem isFormula (hd : Discharging hypotheses h known d) : h.IsFormula := by
  refine hd.hypothesis_isFormula h ?_
  rw [hd.hypotheses_eq]
  exact List.mem_append_right _ (List.mem_cons_self ..)

/-- The premises of the quantifier rules are lines. -/
theorem mem_of_premise (hd : Discharging hypotheses h known d) {p : Premise}
    (hp : d.premiseFormula? p = some f) : f ∈ d.formulas := by
  obtain ⟨i, -, hi⟩ := Derivation.exists_line_of_premiseFormula? hd.trackedHypothesis_eq hp
  exact Derivation.Faithful.mem_formulas_of_formulaAt? hi

/-- **ONE LINE DISCHARGED**: the piece for a line is a script over the known lines, and it ends in
    the line below the hypothesis. -/
theorem template (hd : Discharging hypotheses h known d) (hf : f.IsFormula)
    (hj : d.Supports j f) {kind : TemplateKind} {slots : Bindings}
    (ht : templateFor (d.record f j).advance h f j = some (kind, slots)) :
    Script hypotheses known (builtin.instantiate kind slots) ∧
      (builtin.instantiate kind slots).getLast? = some (implies h f) := by
  have hh := hd.isFormula
  simp only [templateFor] at ht
  by_cases htext : f.text = h.text
  · rw [if_pos htext] at ht
    cases ht
    obtain rfl := Grammar.formula_eq_of_text_eq hf hh htext
    rw [instantiate_selfImplication]
    exact ⟨script_provesItself hh, getLast?_provesItself f⟩
  · rw [if_neg htext] at ht
    -- what holds at once is stated and weakened
    have hlifted : Yields hypotheses known f →
        Script hypotheses known (lift h f) ∧ (lift h f).getLast? = some (implies h f) := by
      intro hy
      exact ⟨script_lift hh hf hy, getLast?_lift h f⟩
    cases hj with
    | logic hax =>
        cases ht
        rw [instantiate_lifting]
        exact hlifted (.logic hax)
    | arithmetic hax =>
        cases ht
        rw [instantiate_lifting]
        exact hlifted (.arithmetic hax)
    | hypothesis hi =>
        cases ht
        rw [instantiate_lifting]
        refine hlifted (.hypothesis ?_)
        -- it is not the discharged one, which has another text
        have hmem := List.mem_of_getElem? hi
        rw [hd.hypotheses_eq] at hmem
        rcases List.mem_append.mp hmem with hmem | hmem
        · exact hmem
        · exact absurd (congrArg Expr.text (List.mem_singleton.mp hmem)) htext
    | @modusPonens i k a _ hi hk =>
        simp only [Derivation.formulaAt?_enter hi, Option.map_some] at ht
        cases ht
        have ha := Derivation.Faithful.mem_formulas_of_formulaAt? hi
        have hab := Derivation.Faithful.mem_formulas_of_formulaAt? hk
        rw [instantiate_modusPonens]
        exact ⟨script_distribute hh (hd.formulas_isFormula a ha) hf (hd.discharged a ha)
          (hd.discharged _ hab), getLast?_distribute h a f⟩
    | @universal p x a b hp hfree hpermits =>
        cases ht
        obtain ⟨ha, hgoal⟩ := isFormula_of_implies hf
        rw [instantiate_universalRule]
        cases hgoal with
        | quantified hx hb =>
            exact ⟨script_generalizesConsequent hh ha hb hx (hpermits h hd.trackedHypothesis_eq)
              hfree (hd.discharged _ (hd.mem_of_premise hp)),
              getLast?_generalizesConsequent h a b x⟩
    | @existential p x a b hp hfree hpermits =>
        cases ht
        obtain ⟨hsource, ha⟩ := isFormula_of_implies hf
        rw [instantiate_existentialRule]
        cases hsource with
        | quantified hx hb =>
            exact ⟨script_generalizesAntecedent hh ha hb hx (hpermits h hd.trackedHypothesis_eq)
              hfree (hd.discharged _ (hd.mem_of_premise hp)),
              getLast?_generalizesAntecedent h a b x⟩

/-- Entering a line and writing its piece keeps the invariant. -/
theorem enter (hd : Discharging hypotheses h known d) (hf : f.IsFormula) (j : Justification)
    {piece : List Expr} (hpiece : implies h f ∈ piece) :
    Discharging hypotheses h (known ++ piece) (d.record f j).advance where
  toFaithful := hd.toFaithful.enter hf j
  hypotheses_eq := (Derivation.record_hypotheses d f j).trans hd.hypotheses_eq
  trackedHypothesis_eq := (Derivation.trackedHypothesis?_enter d f j).trans hd.trackedHypothesis_eq
  discharged := by
    rw [Derivation.formulas_enter]
    refine List.forall_mem_append.mpr ⟨?_, List.forall_mem_singleton.mpr ?_⟩
    · intro g hg
      exact List.mem_append_left _ (hd.discharged g hg)
    · exact List.mem_append_right _ hpiece

end Discharging

/-! ## Whole documents -/

/-- Tracking the last of some hypotheses begins a discharge. -/
theorem discharging_start {hypotheses : List Expr} {h : Expr}
    (hhyps : ∀ g ∈ hypotheses ++ [h], g.IsFormula) :
    Discharging hypotheses h [] (Derivation.start (hypotheses ++ [h])).trackLast where
  toFaithful := (Derivation.faithful_start hhyps).trackLast
  hypotheses_eq := rfl
  trackedHypothesis_eq := by
    show Option.bind (if (hypotheses ++ [h]).isEmpty then none
      else some ((hypotheses ++ [h]).length - 1)) ((hypotheses ++ [h])[·]?) = some h
    simp
  discharged := List.forall_mem_nil _

/-- A complete discharge comes from running the lines with the last hypothesis tracked. -/
theorem elaborate_eq_complete {templates : Templates} {document : Document} {e : Elaboration}
    (h : elaborate templates document = .ok (.complete e)) :
    document.statement = .ok ⟨e.hypotheses ++ [e.discharged], e.goal⟩ ∧
      dischargeLines templates e.discharged
        (Derivation.start (e.hypotheses ++ [e.discharged])).trackLast document.lines =
          .ok e.lines := by
  unfold elaborate at h
  obtain ⟨⟨hypotheses, goal⟩, hstatement, h⟩ := bind_eq_ok.mp h
  rcases List.eq_nil_or_concat hypotheses with rfl | ⟨front, last, rfl⟩
  · exact nomatch h
  · rw [List.concat_eq_append] at hstatement h
    have hhyps := (Document.isFormula_of_statement hstatement).1
    simp only [(discharging_start hhyps).trackedHypothesis_eq] at h
    cases hrun : dischargeLines templates last (Derivation.start (front ++ [last])).trackLast
        document.lines with
    | error failure =>
        rw [hrun] at h
        exact nomatch h
    | ok lines =>
        rw [hrun] at h
        cases h
        rw [List.dropLast_concat]
        exact ⟨hstatement, hrun⟩

end PeanoCalculus
