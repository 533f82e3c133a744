import Mathlib.Data.Prod.Lex
import PeanoCalculus.Proofs.Derivation.Certificate

/-! # Checking by searching the log

    The tables of a derivation, keyed by text and filled at the first occurrence of a formula, only
    save searching.  `Transcript.check` is the checker without them.  It sees the hypotheses, which
    of them is tracked, and the log, and it compares formulas as trees:

    * the premise of a quantifier rule is the smallest line with that formula, or else the smallest
      hypothesis;
    * modus ponens goes through all pairs of lines and takes the least;
    * a quantifier schema is tried by putting terms into its body, and a schema of a table has the
      least number that fits;
    * all rules are asked, and the first success counts, or else the first failure.

    In a faithful derivation both checkers say the same, rule by rule, and every derivation that
    requests can lead to is faithful. -/

namespace PeanoCalculus

open PeanoCalculus.Expr

/-! ## The checker without tables -/

/-- What there is to see of a derivation. -/
structure Transcript where
  hypotheses : List Expr
  /-- The index of the hypothesis that is to be discharged. -/
  tracked : Option Nat
  log : List Step

/-- A derivation without its tables. -/
def Derivation.transcript (d : Derivation) : Transcript :=
  ⟨d.hypotheses, d.tracked, d.log⟩

/-- The smallest index of an entry that a test holds of. -/
def leastIndex? (entries : List Expr) (test : Expr → Bool) : Option Nat :=
  ((List.range entries.length).filter fun i => entries[i]?.any test).min?

namespace Transcript

/-- The smallest line with a formula. -/
def line? (t : Transcript) (f : Expr) : Option Nat :=
  ((t.log.filter (·.formula = f)).map (·.line)).min?

/-- The smallest index of a hypothesis. -/
def hypothesis? (t : Transcript) (f : Expr) : Option Nat :=
  leastIndex? t.hypotheses (· = f)

/-- The premise of a quantifier rule.  While a hypothesis is tracked only lines count. -/
def premise? (t : Transcript) (f : Expr) : Option Premise :=
  ((t.line? f).map .line).or
    (if t.tracked.isSome then none else (t.hypothesis? f).map .hypothesis)

/-- What a quantifier rule says that has its premise: its variable must not be free in the other
    side, and then not in the tracked hypothesis either. -/
def generalize (t : Transcript) (q : Quantifier) (x : String) (side : Expr) (p : Premise) :
    Outcome :=
  if side.hasFree x then .error (.variableFree x p)
  else
    match t.tracked with
    | none => .ok (.generalization q p)
    | some i =>
      if t.hypotheses[i]?.any (·.hasFree x) then .error (.hypothesisVariable x i)
      else .ok (.generalization q p)

/-- `?xB->A` from `B->A`. -/
def existentialRule (t : Transcript) : Expr → Expr → Option Outcome
  | .ex x b, a => (t.premise? (.implies b a)).map (t.generalize .existential x a)
  | _, _ => none

/-- `A->@xB` from `A->B`. -/
def universalRule (t : Transcript) : Expr → Expr → Option Outcome
  | a, .all x b => (t.premise? (.implies a b)).map (t.generalize .universal x a)
  | _, _ => none

/-- What a quantifier schema says of `c`, if that is its body with a term put for `x`.  The term
    occurs in `c`; where `x` is not free any term will do. -/
def instance? (n : Nat) (body : Expr) (x : String) (c : Expr) : Option Outcome :=
  ((.zero :: c.terms).find? fun t => c = body.substitute x t).map fun t =>
    if body.isFreeFor x t then .ok (.logic n) else .error (.notFreeFor t body x)

/-- Schema 11, `@xA->A[x:=t]`. -/
def universalSchema : Expr → Expr → Option Outcome
  | .all x a, c => instance? 11 a x c
  | _, _ => none

/-- Schema 12, `A[x:=t]->?xA`. -/
def existentialSchema : Expr → Expr → Option Outcome
  | c, .ex x a => instance? 12 a x c
  | _, _ => none

/-- Induction, `A[x:=0]&@x(A->A[x:=x'])->A` with `x` free in `A`. -/
def inductionSchema : Expr → Expr → Option Outcome
  | .and base (.all x (.implies hypothesis conclusion)), a =>
    if hypothesis = a then
      some (if a.hasFree x ∧ base = a.substitute x .zero ∧
          conclusion = a.substitute x (.primed 1 (.var x)) then .ok (.arithmetic 9)
        else .error (.inductionMismatch x))
    else none
  | _, _ => none

/-- The rules that have side conditions, in order.  They read the shape of an implication. -/
def shapedRules (t : Transcript) : Expr → List (Option Outcome)
  | .implies l r =>
    [t.existentialRule l r, t.universalRule l r, universalSchema l r, existentialSchema l r,
      inductionSchema l r]
  | _ => []

/-- All pairs of lines that hold a formula and the implication from it to `f`. -/
def detachments (t : Transcript) (f : Expr) : List (Lex (Nat × Nat)) :=
  t.log.flatMap fun s =>
    (t.log.filter (·.formula = .implies s.formula f)).map fun s' => toLex (s.line, s'.line)

/-- Modus ponens, from the least of these pairs. -/
def modusPonens? (t : Transcript) (f : Expr) : Option Justification :=
  (t.detachments f).min?.map fun p => .modusPonens (ofLex p).1 (ofLex p).2

/-- The least number of a schema that a formula is an instance of. -/
def schema? (table : List Expr) (f : Expr) : Option Nat :=
  (leastIndex? table fun schema => (matchSchema schema f).isSome).map (· + 1)

/-- The other rules, in order. -/
def plainRules (t : Transcript) (f : Expr) : List (Option Justification) :=
  [t.modusPonens? f, (schema? Schemas.logic f).map .logic,
    (schema? Schemas.arithmetic f).map .arithmetic, (t.hypothesis? f).map .hypothesis]

/-- The first success of a list, or else its first failure, or else nothing is proved. -/
def settle (said : List Outcome) : Outcome :=
  (said.find? (·.toBool)).getD (said.head?.getD (.error .unproved))

/-- Check a formula: all rules are asked. -/
def check (t : Transcript) (f : Expr) : Outcome :=
  settle ((t.shapedRules f).filterMap id ++ ((t.plainRules f).filterMap id).map .ok)

end Transcript

namespace Derivation

variable {d : Derivation} {f : Expr}

/-! ## Searching finds what the tables hold -/

/-- In a log whose numbers increase, the first line with a text is the smallest. -/
theorem firstLine_le {log : List Step} (hordered : log.Pairwise (·.line < ·.line)) {s : Step}
    (hs : s ∈ log) {i : Nat} (h : firstLine? log s.formula.text = some i) : i ≤ s.line := by
  obtain ⟨first, hfirst, rfl⟩ := Option.map_eq_some_iff.mp h
  obtain ⟨-, before, after, rfl, hbefore⟩ := List.find?_eq_some_iff_append.mp hfirst
  rcases List.mem_append.mp hs with hmem | hmem
  · exact absurd (hbefore s hmem) (by simp)
  · obtain ⟨-, hrest, -⟩ := List.pairwise_append.mp hordered
    rcases List.mem_cons.mp hmem with rfl | hmem
    · exact Nat.le_refl _
    · exact Nat.le_of_lt ((List.pairwise_cons.mp hrest).1 s hmem)

/-- The texts of formulas tell them apart. -/
theorem text_eq_iff {a b : Expr} (ha : a.IsFormula) (hb : b.IsFormula) :
    a.text = b.text ↔ a = b :=
  ⟨Grammar.formula_eq_of_text_eq ha hb, congrArg text⟩

theorem Faithful.line?_eq (hd : d.Faithful) (hf : f.IsFormula) :
    d.transcript.line? f = d.lineIndex[f.text]? := by
  rw [hd.lineIndex]
  cases hfirst : firstLine? d.log f.text with
  | none =>
      refine List.min?_eq_none_iff.mpr (List.map_eq_nil_iff.mpr (List.filter_eq_nil_iff.mpr ?_))
      intro s (hs : s ∈ d.log) hform
      obtain ⟨i, hi⟩ := exists_firstLine hs
      rw [of_decide_eq_true hform, hfirst] at hi
      cases hi
  | some i =>
      obtain ⟨s, hs, hline, htext⟩ := mem_of_firstLine hfirst
      have hform := (text_eq_iff (hd.log_isFormula s hs) hf).mp htext
      refine List.min?_eq_some_iff.mpr ⟨List.mem_map.mpr ⟨s, ?_, hline⟩, fun k hk => ?_⟩
      · exact List.mem_filter.mpr ⟨hs, decide_eq_true hform⟩
      · obtain ⟨s', hs', rfl⟩ := List.mem_map.mp hk
        obtain ⟨hmem, hform'⟩ := List.mem_filter.mp hs'
        refine firstLine_le hd.ordered hmem ?_
        rw [of_decide_eq_true hform']
        exact hfirst

/-- The first entry that a test holds of is the one with the smallest index. -/
theorem leastIndex?_eq (entries : List Expr) (test : Expr → Bool) :
    leastIndex? entries test = entries.findIdx? test := by
  cases hfind : entries.findIdx? test with
  | none =>
      refine List.min?_eq_none_iff.mpr (List.filter_eq_nil_iff.mpr fun i _ hi => ?_)
      obtain ⟨e, he, htest⟩ := (Option.any_eq_true _ _).mp hi
      rw [List.findIdx?_eq_none_iff.mp hfind e (List.mem_of_getElem? he)] at htest
      exact Bool.false_ne_true htest
  | some i =>
      obtain ⟨hlt, htest, hleast⟩ := List.findIdx?_eq_some_iff_getElem.mp hfind
      refine List.min?_eq_some_iff.mpr ⟨List.mem_filter.mpr ⟨List.mem_range.mpr hlt, ?_⟩, ?_⟩
      · rw [List.getElem?_eq_getElem hlt]
        exact htest
      · intro k hk
        obtain ⟨e, he, htest⟩ := (Option.any_eq_true _ _).mp (List.mem_filter.mp hk).2
        obtain ⟨hlen, rfl⟩ := List.getElem?_eq_some_iff.mp he
        exact Nat.le_of_not_lt fun hki => hleast k hki htest

theorem Faithful.hypothesis?_eq (hd : d.Faithful) (hf : f.IsFormula) :
    d.transcript.hypothesis? f = d.hypothesisIndex[f.text]? := by
  rw [hd.hypothesisIndex]
  refine (leastIndex?_eq _ _).trans (findIdx?_congr fun h hh => decide_eq_decide.mpr ?_)
  exact (text_eq_iff (hd.hypothesis_isFormula h hh) hf).symm

theorem Faithful.premise?_eq (hd : d.Faithful) (hf : f.IsFormula) :
    d.transcript.premise? f = d.premise? f := by
  unfold Transcript.premise? premise?
  rw [hd.line?_eq hf, hd.hypothesis?_eq hf]
  cases d.lineIndex[f.text]? <;> rfl

/-! ## The rules with side conditions -/

theorem Faithful.existentialRule_eq (hd : d.Faithful) {l r : Expr} (hl : l.IsFormula)
    (hr : r.IsFormula) : d.transcript.existentialRule l r = d.existentialRule l r := by
  cases hl with
  | @quantified q x b _ hb =>
      cases q with
      | universal => rfl
      | existential =>
          show (d.transcript.premise? (.implies b r)).map _ = _
          rw [hd.premise?_eq (hb.implies hr)]
          rfl
  | _ => rfl

theorem Faithful.universalRule_eq (hd : d.Faithful) {l r : Expr} (hl : l.IsFormula)
    (hr : r.IsFormula) : d.transcript.universalRule l r = d.universalRule l r := by
  cases hr with
  | @quantified q x b _ hb =>
      cases q with
      | existential => rfl
      | universal =>
          show (d.transcript.premise? (.implies l b)).map _ = _
          rw [hd.premise?_eq (hl.implies hb)]
          rfl
  | _ => rfl

/-- Trying the terms that occur is as good as matching. -/
theorem instance?_eq {n : Nat} {body c : Expr} {x : String} (hbody : body.IsFormula)
    (hc : c.IsFormula) (hx : isName Char.isLower x = true) :
    Transcript.instance? n body x c = instantiation n body x c := by
  have hterms : ∀ t ∈ Expr.zero :: c.terms, t.IsTerm :=
    List.forall_mem_cons.mpr ⟨.zero, hc.of_mem_terms⟩
  unfold Transcript.instance?
  cases hfind : (Expr.zero :: c.terms).find? fun t => c = body.substitute x t with
  | some t =>
      have ht := hterms t (List.mem_of_find?_eq_some hfind)
      have hput := List.find?_some hfind
      obtain rfl := of_decide_eq_true hput
      rw [instantiation_substitute hbody ht]
      rfl
  | none =>
      have hfails : ∀ t ∈ Expr.zero :: c.terms, c ≠ body.substitute x t :=
        fun t ht h => List.find?_eq_none.mp hfind t ht (decide_eq_true h)
      have hnone : matchSubstitution body c x = none := by
        refine Option.eq_none_iff_forall_ne_some.mpr fun m hm => ?_
        obtain ⟨t, ht, rfl⟩ := exists_substitute_of_match hbody hc hx hm
        cases hfree : body.hasFree x with
        | true => exact hfails t (List.mem_cons_of_mem _ (mem_terms_substitute ht hfree)) rfl
        | false =>
            have hsame := hbody.tidy.substitute_of_not_hasFree hfree
            exact hfails .zero List.mem_cons_self ((hsame t).trans (hsame .zero).symm)
      unfold instantiation
      rw [hnone]
      rfl

theorem universalSchema_eq {l r : Expr} (hl : l.IsFormula) (hr : r.IsFormula) :
    Transcript.universalSchema l r = universalSchema l r := by
  cases hl with
  | @quantified q x b hx hb =>
      cases q with
      | universal => exact instance?_eq hb hr hx
      | existential => rfl
  | _ => rfl

theorem existentialSchema_eq {l r : Expr} (hl : l.IsFormula) (hr : r.IsFormula) :
    Transcript.existentialSchema l r = existentialSchema l r := by
  cases hr with
  | @quantified q x b hx hb =>
      cases q with
      | universal => rfl
      | existential => exact instance?_eq hb hl hx
  | _ => rfl

theorem inductionSchema_eq {l r : Expr} (hl : l.IsFormula) (hr : r.IsFormula) :
    Transcript.inductionSchema l r = inductionSchema l r := by
  cases hl with
  | @and base step hbase hstep =>
      cases hstep with
      | @quantified q x body hx hbody =>
          cases q with
          | existential => rfl
          | universal =>
              cases hbody with
              | @implies hypothesis conclusion hhyp hconc =>
                  have hnext : (Expr.primed 1 (.var x)).IsTerm := (IsTerm.var hx).primed 1
                  rw [inductionSchema_shape]
                  simp only [text_eq_iff hhyp hr, text_eq_iff hbase (hr.substitute x .zero),
                    text_eq_iff hconc (hr.substitute x hnext)]
                  rfl
              | _ => rfl
      | _ => rfl
  | _ => rfl

/-! ## Modus ponens -/

theorem mem_transcript_detachments {p : Lex (Nat × Nat)} :
    p ∈ d.transcript.detachments f ↔
      ∃ s ∈ d.log, ∃ s' ∈ d.log, s'.formula = .implies s.formula f ∧
        toLex (s.line, s'.line) = p := by
  unfold Transcript.detachments
  simp only [List.mem_flatMap, List.mem_map, List.mem_filter, decide_eq_true_eq, and_assoc]
  rfl

/-- Before any pair of lines the tables know the first lines with the same formulas. -/
theorem Faithful.exists_first_detachment (hd : d.Faithful) (hf : f.IsFormula) {s s' : Step}
    (hs : s ∈ d.log) (hs' : s' ∈ d.log) (hform : s'.formula = .implies s.formula f) :
    ∃ i k, (i, k) ∈ d.detachments f ∧ i ≤ s.line ∧ k ≤ s'.line := by
  obtain ⟨i, hi⟩ := exists_firstLine hs
  obtain ⟨k, hk⟩ := exists_firstLine hs'
  refine ⟨i, k, (hd.mem_detachments hf).mpr ⟨s.formula, ?_, hi, hform ▸ hk⟩,
    firstLine_le hd.ordered hs hi, firstLine_le hd.ordered hs' hk⟩
  exact List.mem_map.mpr ⟨s', hs', hform⟩

/-- What the tables offer to modus ponens is among the pairs of lines. -/
theorem Faithful.mem_transcript_of_detachments (hd : d.Faithful) (hf : f.IsFormula) {i k : Nat}
    (h : (i, k) ∈ d.detachments f) : toLex (i, k) ∈ d.transcript.detachments f := by
  obtain ⟨a, hab, hi, hk⟩ := (hd.mem_detachments hf).mp h
  have himp := hd.formulas_isFormula _ hab
  obtain ⟨s, hs, rfl, hstext⟩ := mem_of_firstLine hi
  obtain ⟨s', hs', rfl, hs'text⟩ := mem_of_firstLine hk
  have hform := (text_eq_iff (hd.log_isFormula s hs) (isFormula_of_implies himp).1).mp hstext
  have hform' := (text_eq_iff (hd.log_isFormula s' hs') himp).mp hs'text
  exact mem_transcript_detachments.mpr ⟨s, hs, s', hs', hform ▸ hform', rfl⟩

/-- The least pair that the tables offer is the least of all. -/
theorem Faithful.min_detachments (hd : d.Faithful) (hf : f.IsFormula) :
    (d.transcript.detachments f).min? = (leastPair (d.detachments f)).map toLex := by
  cases hleast : leastPair (d.detachments f) with
  | none =>
      refine List.min?_eq_none_iff.mpr (List.eq_nil_iff_forall_not_mem.mpr fun p hp => ?_)
      obtain ⟨s, hs, s', hs', hform, -⟩ := mem_transcript_detachments.mp hp
      obtain ⟨i, k, hmem, -⟩ := hd.exists_first_detachment hf hs hs' hform
      rw [leastPair_eq_none.mp hleast] at hmem
      exact absurd hmem List.not_mem_nil
  | some q =>
      obtain ⟨hmem, hle⟩ := leastPair_spec hleast
      refine List.min?_eq_some_iff.mpr ⟨hd.mem_transcript_of_detachments hf hmem, fun p hp => ?_⟩
      obtain ⟨s, hs, s', hs', hform, rfl⟩ := mem_transcript_detachments.mp hp
      obtain ⟨i, k, hfirst, hi, hk⟩ := hd.exists_first_detachment hf hs hs' hform
      have hqfirst := hle (i, k) hfirst
      unfold PairLE at hqfirst
      rw [Prod.Lex.toLex_le_toLex]
      dsimp only at hqfirst ⊢
      omega

theorem Faithful.modusPonens?_eq (hd : d.Faithful) (hf : f.IsFormula) :
    d.transcript.modusPonens? f = d.modusPonens? f := by
  unfold Transcript.modusPonens?
  rw [hd.min_detachments hf, Option.map_map]
  rfl

/-! ## All rules together -/

theorem Faithful.shapedRules_eq (hd : d.Faithful) {l r : Expr} (hl : l.IsFormula)
    (hr : r.IsFormula) :
    (d.transcript.shapedRules (.implies l r)).filterMap id = d.shapedRules l r := by
  rw [Transcript.shapedRules, hd.existentialRule_eq hl hr, hd.universalRule_eq hl hr,
    universalSchema_eq hl hr, existentialSchema_eq hl hr, inductionSchema_eq hl hr]
  rfl

theorem schema?_eq (table : List Expr) (f : Expr) :
    Transcript.schema? table f = Schemas.firstMatch table f := by
  unfold Transcript.schema? Schemas.firstMatch
  rw [leastIndex?_eq]

/-- The first of all answers is the first answer, or else the first of the others. -/
theorem head?_answers {α : Type} (answer : Option α) (rest : List (Option α)) :
    ((answer :: rest).filterMap id).head? = answer.or (rest.filterMap id).head? := by
  cases answer <;> rfl

theorem Faithful.plainRules_eq (hd : d.Faithful) (hf : f.IsFormula) :
    ((d.transcript.plainRules f).filterMap id).head? = d.plain? f := by
  unfold Transcript.plainRules plain? Schemas.matchLogic Schemas.matchArithmetic
  rw [hd.modusPonens?_eq hf, hd.hypothesis?_eq hf, schema?_eq, schema?_eq]
  simp only [head?_answers, List.filterMap_nil, List.head?_nil, Option.or_none,
    Option.orElse_eq_orElse, Option.orElse_eq_or]

/-- Either there is a success, and the first is taken, or all fail, and the first failure is. -/
theorem firstSuccess_cases (said : List Outcome) :
    (∃ j, said.find? (·.toBool) = some (.ok j) ∧ firstSuccess said = some (.ok j)) ∨
      said.find? (·.toBool) = none ∧
        (said.head? = none ∧ firstSuccess said = none ∨
          ∃ failure, said.head? = some (.error failure) ∧
            firstSuccess said = some (.error failure)) := by
  induction said with
  | nil => exact .inr ⟨rfl, .inl ⟨rfl, rfl⟩⟩
  | cons o rest ih =>
      cases o with
      | ok j => exact .inl ⟨j, rfl, rfl⟩
      | error failure =>
          rcases ih with ⟨j, hfind, hfirst⟩ | ⟨hfind, hrest⟩
          · refine .inl ⟨j, hfind, ?_⟩
            rw [firstSuccess, hfirst]
          · refine .inr ⟨hfind, .inr ⟨failure, rfl, ?_⟩⟩
            rw [firstSuccess]
            rcases hrest with ⟨-, hfirst⟩ | ⟨_, -, hfirst⟩ <;> rw [hfirst]

/-- Asking the rules one after the other is settling what all of them say. -/
theorem justify_eq_settle {said : List Outcome} {plain : List Justification}
    (hsaid : d.shaped f = firstSuccess said) (hplain : plain.head? = d.plain? f) :
    d.justify f = Transcript.settle (said ++ plain.map .ok) := by
  have hfind : (plain.map (.ok : Justification → Outcome)).find? (·.toBool) =
      plain.head?.map .ok := by
    cases plain <;> rfl
  unfold justify Transcript.settle
  rw [hsaid, ← hplain, List.find?_append, List.head?_append, hfind, List.head?_map]
  rcases firstSuccess_cases said with
    ⟨j, hsome, hfirst⟩ | ⟨hnone, ⟨hhead, hfirst⟩ | ⟨failure, hhead, hfirst⟩⟩
  · rw [hsome, hfirst]
    rfl
  · rw [hnone, hhead, hfirst]
    cases plain.head? <;> rfl
  · rw [hnone, hhead, hfirst]
    cases plain.head? <;> rfl

/-- In a faithful derivation the tables change nothing. -/
theorem Faithful.justify_eq (hd : d.Faithful) (hf : f.IsFormula) :
    d.justify f = d.transcript.check f := by
  refine justify_eq_settle ?_ (hd.plainRules_eq hf)
  cases hf with
  | implies hl hr => exact congrArg firstSuccess (hd.shapedRules_eq hl hr).symm
  | _ => rfl

theorem checkFormula_fst (d : Derivation) (f : Expr) : (d.checkFormula f).1 = d.justify f := by
  unfold checkFormula
  cases d.justify f <;> rfl

/-- **CHECKING IS SEARCHING THE LOG**: whatever has been asked before, a formula gets the answer
    that it gets from the hypotheses, the tracked one and the log alone. -/
theorem check_is_log_scan {hypotheses : List Expr} {requests : List Request} {d : Derivation}
    (hhyps : ∀ h ∈ hypotheses, h.IsFormula) (hrequests : ∀ r ∈ requests, r.WellFormed)
    (hd : (start hypotheses).serveAll requests = d) {f : Expr} (hf : f.IsFormula) :
    (d.checkFormula f).1 = d.transcript.check f := by
  subst hd
  have hcertified := (certified_start hhyps).serveAll hrequests
  rw [checkFormula_fst]
  exact hcertified.toFaithful.justify_eq hf

/-- Of five pairs of lines that lead to `B` the least is cited, though the implication of another
    comes first; a generalisation over a variable that is free on the other side is refused with
    the line it would use. -/
theorem check_is_log_scan_repeated :
    ∃ d, (start [letter "A", letter "C", implies (letter "A") (letter "B"),
          implies (letter "C") (letter "B"),
          implies (.apply "P" [.var "x"]) (.apply "P" [.var "x"])]).serveAll
        [.line "C->B", .line "A", .line "A->", .line "A -> B", .formula (letter "A"),
          .line "A->B", .line "C", .line "P(x) -> P(x)"] = d ∧
      d.transcript.check (letter "B") = .ok (.modusPonens 1 3) ∧
      d.transcript.check (implies (ex "x" (.apply "P" [.var "x"])) (.apply "P" [.var "x"])) =
        .error (.variableFree "x" (.line 7)) := by
  have hA : (letter "A").IsFormula := .letter (by decide)
  have hB : (letter "B").IsFormula := .letter (by decide)
  have hC : (letter "C").IsFormula := .letter (by decide)
  have hP : (Expr.apply "P" [.var "x"]).IsFormula :=
    .apply (by decide) (List.forall_mem_singleton.mpr (.var (by decide)))
  have hex : (ex "x" (.apply "P" [.var "x"])).IsFormula := .quantified (by decide) hP
  have hscan := @check_is_log_scan
    [letter "A", letter "C", implies (letter "A") (letter "B"), implies (letter "C") (letter "B"),
      implies (.apply "P" [.var "x"]) (.apply "P" [.var "x"])]
    [.line "C->B", .line "A", .line "A->", .line "A -> B", .formula (letter "A"),
      .line "A->B", .line "C", .line "P(x) -> P(x)"] _
    (by simp [hA, hC, hA.implies hB, hC.implies hB, hP.implies hP])
    (by simp [Request.WellFormed, hA]) rfl
  refine ⟨_, rfl, ?_, ?_⟩
  · rw [← hscan hB]
    decide +kernel
  · rw [← hscan (hex.implies hP)]
    decide +kernel

end Derivation

end PeanoCalculus
