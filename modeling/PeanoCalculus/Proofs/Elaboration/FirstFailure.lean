import PeanoCalculus.Proofs.Derivation.Certificate
import PeanoCalculus.Proofs.Elaboration.DeductionTheorem

/-! # Discharging stops at the first line that fails

    Discharging checks the lines with the last hypothesis tracked and stops at the first that does
    not hold.  There is a second way in which it could stop: a line holds, but no template suits the
    way in which it does.  Then the line would be reported as unproved, which it is not.

    `exists_template` rules this out.  A justification says more than its name does: the antecedent
    that modus ponens cites is in the log, and a formula that a quantifier rule yields has the
    quantifier on the side that the rule puts it on, even if there is one on the other side too.

    So one line is replaced just when it holds, and by induction over the lines the run ends at the
    first that fails, whatever the templates are. -/

namespace PeanoCalculus

open PeanoCalculus.Expr

/-! ## The first failure of a run -/

/-- All outcomes in front of the given line are good, and the one at the line is the failure. -/
def FailsFirst (outcomes : List Outcome) (line : Nat) (failure : Failure) : Prop :=
  (∀ o ∈ outcomes.take line, ∃ j, o = .ok j) ∧ outcomes[line]? = some (.error failure)

section FailsFirst

variable {outcomes : List Outcome} {line : Nat} {failure : Failure}

/-- A line that holds moves the first failure one line down. -/
theorem FailsFirst.cons (h : FailsFirst outcomes line failure) (j : Justification) :
    FailsFirst (.ok j :: outcomes) (line + 1) failure := by
  refine ⟨?_, h.2⟩
  rw [List.take_succ_cons]
  exact List.forall_mem_cons.mpr ⟨⟨j, rfl⟩, h.1⟩

/-- No failure comes before the first. -/
theorem FailsFirst.le (h : FailsFirst outcomes line failure) {line' : Nat} {failure' : Failure}
    (hfails : outcomes[line']? = some (.error failure')) : line ≤ line' := by
  refine Nat.not_lt.mp fun hlt => ?_
  rw [← List.getElem?_take_of_lt hlt] at hfails
  obtain ⟨j, hj⟩ := h.1 _ (List.mem_of_getElem? hfails)
  cases hj

/-- There is one first failure at most. -/
theorem FailsFirst.unique (h : FailsFirst outcomes line failure) {line' : Nat}
    {failure' : Failure} (h' : FailsFirst outcomes line' failure') :
    line = line' ∧ failure = failure' := by
  obtain rfl := Nat.le_antisymm (h.le h'.2) (h'.le h.2)
  exact ⟨rfl, Except.error.inj (Option.some.inj (h.2.symm.trans h'.2))⟩

/-- Where every line holds there is none. -/
theorem not_failsFirst (hok : ∀ o ∈ outcomes, ∃ j, o = .ok j) :
    ¬FailsFirst outcomes line failure := by
  intro h
  obtain ⟨j, hj⟩ := hok _ (List.mem_of_getElem? h.2)
  cases hj

end FailsFirst

/-! ## One line -/

/-- There is a template for every justification. -/
theorem exists_template {d : Derivation} {f : Expr} {j : Justification} (hj : d.Supports j f)
    (h : Expr) : ∃ kind slots, templateFor (d.record f j).advance h f j = some (kind, slots) := by
  simp only [templateFor]
  by_cases htext : f.text = h.text
  · rw [if_pos htext]
    exact ⟨_, _, rfl⟩
  · rw [if_neg htext]
    cases hj with
    | modusPonens hi _ =>
        -- the antecedent that is cited is in the log
        simp only [Derivation.formulaAt?_enter hi, Option.map_some]
        exact ⟨_, _, rfl⟩
    | logic _ => exact ⟨_, _, rfl⟩
    | arithmetic _ => exact ⟨_, _, rfl⟩
    | hypothesis _ => exact ⟨_, _, rfl⟩
    | universal _ _ _ => exact ⟨_, _, rfl⟩
    | existential _ _ _ => exact ⟨_, _, rfl⟩

/-- So there is one whenever a check succeeds. -/
theorem exists_template_of_check {d next : Derivation} {f : Expr} {j : Justification}
    (hd : d.Faithful) (hf : f.IsFormula) (hcheck : d.checkFormula f = (.ok j, next)) (h : Expr) :
    ∃ kind slots, templateFor next h f j = some (kind, slots) := by
  rcases Derivation.checkFormula_cases d f with ⟨k, hk, heq⟩ | ⟨failure, heq⟩
  · obtain ⟨houtcome, rfl⟩ := Prod.mk.inj (hcheck.symm.trans heq)
    obtain rfl := Except.ok.inj houtcome
    exact exists_template (Derivation.justify_sound hd hf hk) h
  · have houtcome := (Prod.mk.inj (hcheck.symm.trans heq)).1
    cases houtcome

section DischargeLines

variable {d : Derivation} (templates : Templates) (h : Expr)

/-- **ONE LINE**: if it fails the run ends there with its failure; if it holds it is replaced by
    some piece and the run goes on. -/
theorem dischargeLines_cons (hd : d.Faithful) (text : String) (rest : List String) :
    (∃ failure, (d.checkLine text).1 = .error failure ∧
        dischargeLines templates h d (text :: rest) = .error (d.lineCount, failure)) ∨
      ∃ j piece, (d.checkLine text).1 = .ok j ∧ (d.checkLine text).2.Faithful ∧
        dischargeLines templates h d (text :: rest) =
          (dischargeLines templates h (d.checkLine text).2 rest).map (piece ++ ·) := by
  cases hread : Grammar.parseFormula text with
  | error e =>
      refine .inl ⟨.unreadable e, ?_, ?_⟩
      · simp only [Derivation.checkLine, hread]
      · rw [dischargeLines, hread]
  | ok f =>
      have hf := Grammar.isFormula_of_parse hread
      cases hj : d.justify f with
      | error failure =>
          refine .inl ⟨failure, ?_, dischargeLines_of_failure hread hj⟩
          simp only [Derivation.checkLine, hread, Derivation.checkFormula, hj]
      | ok j =>
          obtain ⟨kind, slots, htemplate⟩ := exists_template (Derivation.justify_sound hd hf hj) h
          refine .inr ⟨j, templates.instantiate kind slots, ?_⟩
          rw [Derivation.checkLine_of_justify hread hj, dischargeLines_of_justify hread hj,
            htemplate]
          refine ⟨rfl, hd.enter hf j, ?_⟩
          cases dischargeLines templates h (d.record f j).advance rest with
          | error failure => rfl
          | ok lines => rfl

/-- **ALL LINES**: the run ends at the first line that fails, or there is none and every line is
    replaced. -/
theorem dischargeLines_cases (hd : d.Faithful) (texts : List String) :
    (∃ line failure, FailsFirst (d.checkLines texts).1 line failure ∧
        dischargeLines templates h d texts = .error (d.lineCount + line, failure)) ∨
      (∀ o ∈ (d.checkLines texts).1, ∃ j, o = .ok j) ∧
        ∃ lines, dischargeLines templates h d texts = .ok lines := by
  induction texts generalizing d with
  | nil => exact .inr ⟨List.forall_mem_nil _, [], rfl⟩
  | cons text rest ih =>
      have houtcomes : (d.checkLines (text :: rest)).1 =
          (d.checkLine text).1 :: ((d.checkLine text).2.checkLines rest).1 := rfl
      rw [houtcomes]
      rcases dischargeLines_cons templates h hd text rest with
        ⟨failure, houtcome, hrun⟩ | ⟨j, piece, houtcome, hnext, hrun⟩
      · refine .inl ⟨0, failure, ⟨List.forall_mem_nil _, ?_⟩, hrun⟩
        rw [houtcome]
        rfl
      · rw [houtcome, hrun]
        rcases ih hnext with ⟨line, failure, hfails, hmore⟩ | ⟨hok, lines, hmore⟩
        · refine .inl ⟨line + 1, failure, hfails.cons j, ?_⟩
          rw [hmore, Derivation.lineCount_checkLine, Nat.add_assoc, Nat.add_comm 1 line]
          rfl
        · refine .inr ⟨List.forall_mem_cons.mpr ⟨⟨j, rfl⟩, hok⟩, piece ++ lines, ?_⟩
          rw [hmore]
          rfl

end DischargeLines

/-! ## Whole documents -/

/-- What discharging does with a document whose header can be read. -/
theorem elaborate_of_statement {templates : Templates} {document : Document}
    {hypotheses : List Expr} {goal : Expr}
    (h : document.statement = .ok ⟨hypotheses, goal⟩) :
    elaborate templates document =
      match hypotheses.getLast? with
      | none => .error .noHypothesis
      | some discharged =>
          match dischargeLines templates discharged (Derivation.start hypotheses).trackLast
            document.lines with
          | .error (line, failure) => .ok (.incorrect line failure)
          | .ok lines =>
              .ok (.complete { hypotheses := hypotheses.dropLast, discharged, goal, lines }) := by
  rw [elaborate, h, ← show (Derivation.start hypotheses).trackLast.trackedHypothesis? =
    hypotheses.getLast? from Derivation.trackedHypothesis?_trackLast _]
  rfl

section Elaborate

variable (templates : Templates) {document : Document} {hypotheses : List Expr} {goal : Expr}

/-- Discharging the last of some hypotheses names the first failure or is complete. -/
theorem elaborate_cases (hstatement : document.statement = .ok ⟨hypotheses, goal⟩)
    (hne : hypotheses ≠ []) :
    (∃ line failure,
        FailsFirst ((Derivation.start hypotheses).trackLast.checkLines document.lines).1
          line failure ∧
        elaborate templates document = .ok (.incorrect line failure)) ∨
      (∀ o ∈ ((Derivation.start hypotheses).trackLast.checkLines document.lines).1,
        ∃ j, o = .ok j) ∧
        ∃ lines, elaborate templates document =
          .ok (.complete ⟨hypotheses.dropLast, hypotheses.getLast hne, goal, lines⟩) := by
  have hhyps := (Document.isFormula_of_statement hstatement).1
  have hstart := (Derivation.faithful_start hhyps).trackLast
  rw [elaborate_of_statement hstatement, List.getLast?_eq_some_getLast hne]
  rcases dischargeLines_cases templates (hypotheses.getLast hne) hstart document.lines with
    ⟨line, failure, hfails, hrun⟩ | ⟨hok, lines, hrun⟩
  · refine .inl ⟨line, failure, hfails, ?_⟩
    have hfirst : (Derivation.start hypotheses).trackLast.lineCount + line = line := Nat.zero_add line
    simp only [hrun, hfirst]
  · exact .inr ⟨hok, lines, by simp only [hrun]⟩

/-- **DISCHARGING STOPS AT THE FIRST FAILURE**, whatever the templates are: it names a line and a
    failure just when these are the first failure among the lines, checked with the last hypothesis
    tracked, and if there is none it is complete.  A line that holds is never reported as unproved:
    for every formula that is justified, after any requests, there is a template. -/
theorem discharge_stops_at_first_failure
    (hstatement : document.statement = .ok ⟨hypotheses, goal⟩) (hne : hypotheses ≠ []) :
    (∀ line failure, elaborate templates document = .ok (.incorrect line failure) ↔
      FailsFirst ((Derivation.start hypotheses).trackLast.checkLines document.lines).1
        line failure) ∧
    ((∀ line failure, ¬FailsFirst
        ((Derivation.start hypotheses).trackLast.checkLines document.lines).1 line failure) →
      ∃ lines, elaborate templates document =
        .ok (.complete ⟨hypotheses.dropLast, hypotheses.getLast hne, goal, lines⟩)) ∧
    ∀ (requests : List Derivation.Request) (f h : Expr) (j : Justification) (next : Derivation),
      (∀ r ∈ requests, r.WellFormed) → f.IsFormula →
      ((Derivation.start hypotheses).serveAll requests).checkFormula f = (.ok j, next) →
      ∃ kind slots, templateFor next h f j = some (kind, slots) := by
  refine ⟨?_, ?_, ?_⟩
  · intro line failure
    rcases elaborate_cases templates hstatement hne with
      ⟨first, reason, hfails, hstops⟩ | ⟨hok, lines, hcomplete⟩
    · rw [hstops]
      constructor
      · intro heq
        obtain ⟨rfl, rfl⟩ := Discharge.incorrect.inj (Except.ok.inj heq)
        exact hfails
      · intro h
        obtain ⟨rfl, rfl⟩ := h.unique hfails
        rfl
    · rw [hcomplete]
      refine iff_of_false (fun heq => ?_) (not_failsFirst hok)
      cases Except.ok.inj heq
  · intro hnone
    rcases elaborate_cases templates hstatement hne with
      ⟨first, reason, hfails, -⟩ | ⟨-, hcomplete⟩
    · exact absurd hfails (hnone first reason)
    · exact hcomplete
  · intro requests f h j next hrequests hf hcheck
    have hhyps := (Document.isFormula_of_statement hstatement).1
    have hsession := (Derivation.certified_start hhyps).serveAll hrequests
    exact exists_template_of_check hsession.toFaithful hf hcheck h

/-- A formula with quantifiers on both sides, which only one of the rules yields, is replaced.  Of the
    two lines behind it that fail the first is named, with any templates. -/
theorem discharge_stops_at_first_failure_quantified :
    ∃ hypotheses goal, Document.statement ⟨["P(x)->@yQ(y)", "A"], "B",
        ["P(x)->@yQ(y)", "?xP(x)->@yQ(y)", "B", "@x"]⟩ = .ok ⟨hypotheses, goal⟩ ∧
      hypotheses ≠ [] ∧
      FailsFirst ((Derivation.start hypotheses).trackLast.checkLines
        ["P(x)->@yQ(y)", "?xP(x)->@yQ(y)", "B", "@x"]).1 2 .unproved ∧
      ∀ templates, elaborate templates ⟨["P(x)->@yQ(y)", "A"], "B",
        ["P(x)->@yQ(y)", "?xP(x)->@yQ(y)", "B", "@x"]⟩ = .ok (.incorrect 2 .unproved) := by
  have hread : (Document.statement ⟨["P(x)->@yQ(y)", "A"], "B",
      ["P(x)->@yQ(y)", "?xP(x)->@yQ(y)", "B", "@x"]⟩).toOption.any
      (fun statement => decide (statement.hypotheses ≠ [])) = true := by decide +kernel
  have hrun : (elaborate Templates.builtin ⟨["P(x)->@yQ(y)", "A"], "B",
      ["P(x)->@yQ(y)", "?xP(x)->@yQ(y)", "B", "@x"]⟩).toOption.any
      (·.casesOn (fun _ => false) (fun line failure => decide (line = 2 ∧ failure = .unproved))) =
        true := by decide +kernel
  obtain ⟨⟨hypotheses, goal⟩, hstatement, hne⟩ := exists_ok_of_any hread
  replace hne := of_decide_eq_true hne
  obtain ⟨outcome, helaborate, hstops⟩ := exists_ok_of_any hrun
  cases outcome with
  | complete e => exact absurd hstops Bool.false_ne_true
  | incorrect line failure =>
      obtain ⟨rfl, rfl⟩ := of_decide_eq_true hstops
      -- the first failure is that of the run with one set of templates, so it is that of any
      have hfails := ((discharge_stops_at_first_failure _ hstatement hne).1 2 .unproved).mp
        helaborate
      refine ⟨hypotheses, goal, hstatement, hne, hfails, ?_⟩
      intro templates
      exact ((discharge_stops_at_first_failure templates hstatement hne).1 2 .unproved).mpr hfails

end Elaborate

end PeanoCalculus
