import Mathlib.Data.List.Forall2
import PeanoCalculus.Proofs.Derivation.Certificate
import PeanoCalculus.Proofs.Report.Check

/-! # Documents with lines left out

    Two documents of which one has the lines of the other, except for some, are compared line by
    line.  The longer run checks every line, the shorter one checks those that are kept; where a
    line is left out the longer run goes on alone.

    What has to be shown for such a comparison is the same each time, a relation between the two
    derivations that survives both kinds of steps, and `Thinning` says so.  From it the comparison of
    whole runs follows by induction on the lines: line by line the outcomes are related, and each
    kept line stands in the shorter report at its place among those that are kept. -/

namespace PeanoCalculus

/-! ## Places -/

/-- The items of a list that are not removed; the first item stands at the given place. -/
def kept {α : Type} (removed : Nat → Bool) : Nat → List α → List α
  | _, [] => []
  | i, a :: rest =>
      if removed i then kept removed (i + 1) rest else a :: kept removed (i + 1) rest

/-- The place of an item among those that are kept: how many are kept before it. -/
def place (removed : Nat → Bool) (i : Nat) : Nat :=
  (List.range i).countP (!removed ·)

section Places

variable {α : Type} {removed : Nat → Bool} {i : Nat}

theorem kept_cons_of_removed (h : removed i = true) (a : α) (rest : List α) :
    kept removed i (a :: rest) = kept removed (i + 1) rest := by
  rw [kept, if_pos h]

theorem kept_cons_of_kept (h : removed i = false) (a : α) (rest : List α) :
    kept removed i (a :: rest) = a :: kept removed (i + 1) rest := by
  rw [kept, h]
  rfl

theorem place_succ (removed : Nat → Bool) (i : Nat) :
    place removed (i + 1) = place removed i + if removed i then 0 else 1 := by
  unfold place
  rw [List.range_succ, List.countP_append, List.countP_singleton]
  cases removed i <;> rfl

end Places

/-- The document without some of its lines. -/
def Document.without (document : Document) (removed : Nat → Bool) : Document :=
  { document with lines := kept removed 0 document.lines }

namespace Derivation

/-! ## The report of a run -/

/-- What is reported when the lines are checked from a derivation on. -/
def report (d : Derivation) (texts : List String) : List CheckedLine :=
  ((texts.zip (d.checkLines texts).1).zipIdx d.lineCount).map
    fun ((text, outcome), i) => ⟨i, text, outcome⟩

theorem report_cons (d : Derivation) (text : String) (rest : List String) :
    d.report (text :: rest) =
      ⟨d.lineCount, text, (d.checkLine text).1⟩ :: (d.checkLine text).2.report rest := by
  unfold report
  rw [lineCount_checkLine]
  rfl

end Derivation

/-- The lines of a report come from a run that starts with the hypotheses of the header. -/
theorem check_eq_report {document : Document} {report : CheckReport} :
    check document = .ok report ↔
      ∃ s, document.statement = .ok s ∧ report = {
        header := document.header
        goal := s.goal
        lines := (Derivation.start s.hypotheses).report document.lines
        goalReached := ((Derivation.start s.hypotheses).checkLines document.lines).2.last?.any
          (·.formula.text = s.goal.text) } :=
  check_eq_ok

namespace Derivation

/-! ## Leaving out lines -/

/-- A relation between the derivation that checks all lines and the one that checks those kept.  A
    kept line has related outcomes and is checked in both; a line may be left out if its outcome is
    one of those that are allowed. -/
structure Thinning (removed : Nat → Bool) (related : Derivation → Derivation → Prop)
    (outcomes : Outcome → Outcome → Prop) (allowed : Outcome → Prop) : Prop where
  kept : ∀ {d d' : Derivation} (text : String), related d d' →
    d'.lineCount = place removed d.lineCount →
      outcomes (d.checkLine text).1 (d'.checkLine text).1 ∧
        related (d.checkLine text).2 (d'.checkLine text).2
  removed : ∀ {d d' : Derivation} (text : String), related d d' →
    allowed (d.checkLine text).1 → related (d.checkLine text).2 d'

/-- **THE SHORTER RUN FOLLOWS THE LONGER ONE**: the lines that are kept have related outcomes, and
    in the end the derivations are still related. -/
theorem Thinning.run {removed : Nat → Bool} {related : Derivation → Derivation → Prop}
    {outcomes : Outcome → Outcome → Prop} {allowed : Outcome → Prop}
    (h : Thinning removed related outcomes allowed) {d d' : Derivation} (hd : related d d')
    (hcount : d'.lineCount = place removed d.lineCount) (texts : List String)
    (hallowed : ∀ line ∈ d.report texts, removed line.index = true → allowed line.outcome) :
    List.Forall₂ (fun line line' => line'.index = place removed line.index ∧
        line'.text = line.text ∧ outcomes line.outcome line'.outcome)
      ((d.report texts).filter (!removed ·.index))
      (d'.report (PeanoCalculus.kept removed d.lineCount texts)) ∧
    related (d.checkLines texts).2
      (d'.checkLines (PeanoCalculus.kept removed d.lineCount texts)).2 := by
  induction texts generalizing d d' with
  | nil => exact ⟨.nil, hd⟩
  | cons text rest ih =>
      have hnext := lineCount_checkLine d text
      have hplace := place_succ removed d.lineCount
      rw [report_cons] at hallowed ⊢
      obtain ⟨hfirst, hrest⟩ := List.forall_mem_cons.mp hallowed
      cases hremoved : removed d.lineCount with
      | true =>
          -- the longer run goes on alone
          rw [hremoved, if_pos rfl] at hplace
          rw [List.filter_cons_of_neg (by simp [hremoved]), kept_cons_of_removed hremoved]
          have hcount' : d'.lineCount = place removed (d.checkLine text).2.lineCount := by
            rw [hnext, hplace, hcount]
            rfl
          have hrun := ih (h.removed text hd (hfirst hremoved)) hcount' hrest
          rw [hnext] at hrun
          exact hrun
      | false =>
          rw [hremoved] at hplace
          rw [List.filter_cons_of_pos (by simp [hremoved]), kept_cons_of_kept hremoved,
            report_cons]
          obtain ⟨houtcome, hrelated⟩ := h.kept text hd hcount
          have hcount' : (d'.checkLine text).2.lineCount =
              place removed (d.checkLine text).2.lineCount := by
            rw [lineCount_checkLine, hnext, hplace, hcount]
            rfl
          have hrun := ih hrelated hcount' hrest
          rw [hnext] at hrun
          exact ⟨.cons ⟨hcount, rfl, houtcome⟩ hrun.1, hrun.2⟩

end Derivation

end PeanoCalculus
