import PeanoCalculus.Derivation.Rules
import PeanoCalculus.Proofs.Calculus.Provable
import PeanoCalculus.Proofs.Derivation.Tables
import PeanoCalculus.Proofs.Matching.Substitution

/-! # Justifications are right, and none is missed

    `Derivation.Supports d j f` says what the justification `j` claims about the formula `f`: that
    it is an axiom with that number, that the lines cited are a formula and an implication from it
    to `f`, and so on, always against the log and the hypotheses and never against the tables.

    In a faithful derivation `justify` gives only justifications that support the formula, and it
    gives one whenever some justification does: a rule that fits the shape and fails on a side
    condition does not keep a later rule from being tried. -/

namespace PeanoCalculus

open PeanoCalculus.Expr

namespace Derivation

/-- The formula that a premise stands for; hypotheses count while none is tracked. -/
def premiseFormula? (d : Derivation) : Premise → Option Expr
  | .line i => d.formulaAt? i
  | .hypothesis i => if d.tracked.isSome then none else d.hypotheses[i]?

/-- The variable is not free in the tracked hypothesis. -/
def Permits (d : Derivation) (x : String) : Prop :=
  ∀ h, d.trackedHypothesis? = some h → h.hasFree x = false

/-- What a justification claims about a formula. -/
inductive Supports (d : Derivation) : Justification → Expr → Prop where
  | logic {n : Nat} {f : Expr} : LogicAxiom n f → Supports d (.logic n) f
  | arithmetic {n : Nat} {f : Expr} : ArithmeticAxiom n f → Supports d (.arithmetic n) f
  | modusPonens {i k : Nat} {a b : Expr} : d.formulaAt? i = some a →
      d.formulaAt? k = some (.implies a b) → Supports d (.modusPonens i k) b
  | hypothesis {i : Nat} {f : Expr} : d.hypotheses[i]? = some f → Supports d (.hypothesis i) f
  | universal {p : Premise} {x : String} {a b : Expr} :
      d.premiseFormula? p = some (.implies a b) → a.hasFree x = false → d.Permits x →
      Supports d (.generalization .universal p) (.implies a (.all x b))
  | existential {p : Premise} {x : String} {a b : Expr} :
      d.premiseFormula? p = some (.implies b a) → a.hasFree x = false → d.Permits x →
      Supports d (.generalization .existential p) (.implies (.ex x b) a)

variable {d : Derivation} {f : Expr} {j : Justification}

/-! ## The quantifier rules -/

theorem premise?_sound (hd : d.Faithful) (hf : f.IsFormula) {p : Premise}
    (h : d.premise? f = some p) : d.premiseFormula? p = some f := by
  unfold premise? at h
  split at h
  · rename_i i hi
    cases h
    exact hd.formulaAt?_of_lineIndex hf hi
  · split at h
    · exact nomatch h
    · rename_i huntracked
      obtain ⟨i, hi, rfl⟩ := Option.map_eq_some_iff.mp h
      rw [premiseFormula?, if_neg huntracked]
      exact hd.hypothesis_of_index hf hi

theorem premise?_complete (hd : d.Faithful) {p : Premise}
    (h : d.premiseFormula? p = some f) : ∃ p', d.premise? f = some p' := by
  unfold premise?
  cases hline : d.lineIndex[f.text]? with
  | some i => exact ⟨.line i, rfl⟩
  | none =>
      cases p with
      | line i =>
          obtain ⟨k, hk⟩ := hd.lineIndex_of_mem (Faithful.mem_formulas_of_formulaAt? h)
          rw [hline] at hk
          exact nomatch hk
      | hypothesis i =>
          rw [premiseFormula?] at h
          split at h
          · exact nomatch h
          · rename_i huntracked
            obtain ⟨k, hk⟩ := hd.hypothesisIndex_of_mem (List.mem_of_getElem? h)
            rw [hk]
            exact ⟨.hypothesis k, if_neg huntracked⟩

/-- While a hypothesis is tracked the premises of the quantifier rules are lines. -/
theorem exists_line_of_premiseFormula? {h : Expr} (htracked : d.trackedHypothesis? = some h)
    {p : Premise} (hp : d.premiseFormula? p = some f) :
    ∃ i, p = .line i ∧ d.formulaAt? i = some f := by
  cases p with
  | line i => exact ⟨i, rfl, hp⟩
  | hypothesis i =>
      obtain ⟨k, hk, -⟩ := Option.bind_eq_some_iff.mp htracked
      rw [premiseFormula?, hk, if_pos Option.isSome_some] at hp
      exact nomatch hp

/-- A rule goes through when its variable is free neither in the other side nor in the tracked
    hypothesis. -/
theorem generalize_eq_ok {q : Quantifier} {x : String} {side : Expr} {p : Premise} :
    d.generalize q x side p = .ok j ↔
      .generalization q p = j ∧ side.hasFree x = false ∧ d.Permits x := by
  unfold generalize Permits trackedHypothesis?
  cases side.hasFree x with
  | true => simp
  | false =>
      cases d.tracked with
      | none => simp
      | some i =>
          cases hh : d.hypotheses[i]? with
          | none => simp [hh]
          | some h => cases hfree : h.hasFree x <;> simp [hh, hfree]

theorem existentialRule_sound (hd : d.Faithful) {l r : Expr} (hl : l.IsFormula)
    (hr : r.IsFormula) (h : d.existentialRule l r = some (.ok j)) :
    d.Supports j (.implies l r) := by
  unfold existentialRule at h
  split at h
  · obtain ⟨p, hp, hok⟩ := Option.map_eq_some_iff.mp h
    obtain ⟨rfl, hfree, hpermits⟩ := generalize_eq_ok.mp hok
    cases hl with
    | quantified _ hbody =>
        exact .existential (premise?_sound hd (.implies hbody hr) hp) hfree hpermits
  · exact nomatch h

theorem universalRule_sound (hd : d.Faithful) {l r : Expr} (hl : l.IsFormula)
    (hr : r.IsFormula) (h : d.universalRule l r = some (.ok j)) :
    d.Supports j (.implies l r) := by
  unfold universalRule at h
  split at h
  · obtain ⟨p, hp, hok⟩ := Option.map_eq_some_iff.mp h
    obtain ⟨rfl, hfree, hpermits⟩ := generalize_eq_ok.mp hok
    cases hr with
    | quantified _ hbody =>
        exact .universal (premise?_sound hd (.implies hl hbody) hp) hfree hpermits
  · exact nomatch h

/-! ## The quantifier schemas and induction -/

theorem instantiation_eq_ok {n : Nat} {body c : Expr} {x : String} (hbody : body.IsFormula)
    (hc : c.IsFormula) (hx : isName Char.isLower x = true) :
    instantiation n body x c = some (.ok j) ↔
      .logic n = j ∧ ∃ t, t.IsTerm ∧ c = body.substitute x t ∧ body.isFreeFor x t = true := by
  rw [← matchSubstitution_iff hbody hc hx]
  unfold instantiation
  cases matchSubstitution body c x with
  | none => simp
  | some m => cases hm : m.capture <;> simp [hm]

/-- What an instance of a quantifier schema gets: it holds if its term is free for the variable,
    and otherwise that term is what the failure is about. -/
theorem instantiation_substitute {n : Nat} {body t : Expr} {x : String} (hbody : body.IsFormula)
    (ht : t.IsTerm) :
    instantiation n body x (body.substitute x t) =
      some (if body.isFreeFor x t then .ok (.logic n) else .error (.notFreeFor t body x)) := by
  obtain ⟨m, hm⟩ := matchSubstitution_substitute (x := x) hbody ht
  obtain ⟨hnone, hterm⟩ := capture_of_match hbody ht hm
  unfold instantiation
  rw [hm, Option.map_some]
  cases hcapture : m.capture with
  | none => rw [if_pos (hnone.mp hcapture)]
  | some capture =>
      have hcaptured : ¬body.isFreeFor x t = true := by
        intro hfree
        rw [hnone.mpr hfree] at hcapture
        exact nomatch hcapture
      rw [if_neg hcaptured, ← (hterm capture hcapture).1]

/-- Nothing but an instance fits a quantifier schema. -/
theorem exists_substitute_of_instantiation {n : Nat} {body c : Expr} {x : String} {o : Outcome}
    (hbody : body.IsFormula) (hc : c.IsFormula) (hx : isName Char.isLower x = true)
    (h : instantiation n body x c = some o) : ∃ t : Expr, t.IsTerm ∧ c = body.substitute x t := by
  obtain ⟨m, hm, -⟩ := Option.map_eq_some_iff.mp h
  exact exists_substitute_of_match hbody hc hx hm

theorem universalSchema_sound {l r : Expr} (hl : l.IsFormula) (hr : r.IsFormula)
    (h : universalSchema l r = some (.ok j)) : d.Supports j (.implies l r) := by
  unfold universalSchema at h
  split at h
  · cases hl with
    | quantified hx hbody =>
        obtain ⟨rfl, t, ht, rfl, hfree⟩ := (instantiation_eq_ok hbody hr hx).mp h
        exact .logic (.universal hx hbody ht hfree)
  · exact nomatch h

theorem existentialSchema_sound {l r : Expr} (hl : l.IsFormula) (hr : r.IsFormula)
    (h : existentialSchema l r = some (.ok j)) : d.Supports j (.implies l r) := by
  unfold existentialSchema at h
  split at h
  · cases hr with
    | quantified hx hbody =>
        obtain ⟨rfl, t, ht, rfl, hfree⟩ := (instantiation_eq_ok hbody hl hx).mp h
        exact .logic (.existential hx hbody ht hfree)
  · exact nomatch h

/-- Induction over a line of its shape. -/
theorem inductionSchema_shape (base hypothesis conclusion goal : Expr) (x : String) :
    inductionSchema (.and base (.all x (.implies hypothesis conclusion))) goal =
      if hypothesis.text = goal.text then
        some (if goal.hasFree x ∧ base.text = (goal.substitute x .zero).text ∧
            conclusion.text = (goal.substitute x (.primed 1 (.var x))).text then
          .ok (.arithmetic 9)
        else .error (.inductionMismatch x))
      else none := by
  unfold inductionSchema
  simp only [apply_ite some]

theorem inductionSchema_sound {l r : Expr} (hl : l.IsFormula) (hr : r.IsFormula)
    (h : inductionSchema l r = some (.ok j)) : d.Supports j (.implies l r) := by
  unfold inductionSchema at h
  split at h
  · rename_i base x hypothesis conclusion
    split at h
    · rename_i hhyp
      split at h
      · rename_i hcond
        obtain ⟨hfree, hbase, hstep⟩ := hcond
        cases h
        cases hl with
        | and hbaseF hall =>
            cases hall with
            | quantified hx himp =>
                obtain ⟨hhypF, hconcF⟩ := isFormula_of_implies himp
                have hnext : (Expr.primed 1 (.var x)).IsTerm := (IsTerm.var hx).primed 1
                rw [Grammar.formula_eq_of_text_eq hhypF hr hhyp,
                  Grammar.formula_eq_of_text_eq hbaseF (hr.substitute x .zero) hbase,
                  Grammar.formula_eq_of_text_eq hconcF (hr.substitute x hnext) hstep]
                exact .arithmetic (.induction hx hr hfree)
      · exact nomatch h
    · exact nomatch h
  · exact nomatch h

/-! ## The rules that read the shape of an implication -/

theorem mem_of_firstSuccess {outcomes : List Outcome}
    (h : firstSuccess outcomes = some (.ok j)) : .ok j ∈ outcomes := by
  fun_induction firstSuccess outcomes with
  | case1 => exact nomatch h
  | case2 k rest =>
      cases h
      exact List.mem_cons_self
  | case3 failure rest k hrest ih =>
      cases h
      exact List.mem_cons_of_mem _ (ih hrest)
  | case4 failure rest _ _ => exact nomatch h

theorem firstSuccess_of_mem {outcomes : List Outcome} (h : .ok j ∈ outcomes) :
    ∃ k, firstSuccess outcomes = some (.ok k) := by
  induction outcomes with
  | nil => exact nomatch h
  | cons o rest ih =>
      cases o with
      | ok k => exact ⟨k, rfl⟩
      | error failure =>
          obtain ⟨k, hk⟩ := ih ((List.mem_cons.mp h).resolve_left nofun)
          exact ⟨k, by rw [firstSuccess, hk]⟩

theorem mem_shapedRules {l r : Expr} {o : Outcome} :
    o ∈ d.shapedRules l r ↔
      d.existentialRule l r = some o ∨ d.universalRule l r = some o ∨
        universalSchema l r = some o ∨ existentialSchema l r = some o ∨
        inductionSchema l r = some o := by
  simp [shapedRules, @eq_comm _ (some o)]

theorem shapedRules_sound (hd : d.Faithful) {l r : Expr} (hl : l.IsFormula) (hr : r.IsFormula)
    (h : .ok j ∈ d.shapedRules l r) : d.Supports j (.implies l r) := by
  rcases mem_shapedRules.mp h with h | h | h | h | h
  · exact existentialRule_sound hd hl hr h
  · exact universalRule_sound hd hl hr h
  · exact universalSchema_sound hl hr h
  · exact existentialSchema_sound hl hr h
  · exact inductionSchema_sound hl hr h

/-! ## The other rules -/

/-- The first of two pairs counts no later than the second. -/
def PairLE (p q : Nat × Nat) : Prop :=
  p.1 < q.1 ∨ p.1 = q.1 ∧ p.2 ≤ q.2

theorem leastPair_eq_none {pairs : List (Nat × Nat)} : leastPair pairs = none ↔ pairs = [] := by
  cases pairs with
  | nil => exact iff_of_true rfl rfl
  | cons p rest =>
      refine iff_of_false ?_ (List.cons_ne_nil p rest)
      intro h
      rw [leastPair] at h
      split at h
      · exact nomatch h
      · split at h <;> exact nomatch h

/-- The least pair of a list is a member of it, and counts no later than any. -/
theorem leastPair_spec {pairs : List (Nat × Nat)} {p : Nat × Nat}
    (h : leastPair pairs = some p) : p ∈ pairs ∧ ∀ q ∈ pairs, PairLE p q := by
  induction pairs generalizing p with
  | nil => exact nomatch h
  | cons first rest ih =>
      have hrefl : PairLE first first := .inr ⟨rfl, Nat.le_refl _⟩
      rw [leastPair] at h
      split at h
      · rename_i hrest
        cases h
        rw [leastPair_eq_none.mp hrest]
        exact ⟨List.mem_cons_self, List.forall_mem_singleton.mpr hrefl⟩
      · rename_i least hrest
        obtain ⟨hmem, hleast⟩ := ih hrest
        split at h
        · rename_i hfirst
          cases h
          refine ⟨List.mem_cons_self, List.forall_mem_cons.mpr ⟨hrefl, ?_⟩⟩
          intro q hq
          have hle := hleast q hq
          unfold PairLE at hle ⊢
          omega
        · rename_i hfirst
          cases h
          refine ⟨List.mem_cons_of_mem _ hmem, List.forall_mem_cons.mpr ⟨?_, hleast⟩⟩
          unfold PairLE
          omega

/-- There is no other such member. -/
theorem leastPair_eq_some {pairs : List (Nat × Nat)} {p : Nat × Nat} :
    leastPair pairs = some p ↔ p ∈ pairs ∧ ∀ q ∈ pairs, PairLE p q := by
  constructor
  · exact leastPair_spec
  · rintro ⟨hmem, hleast⟩
    cases h : leastPair pairs with
    | none =>
        rw [leastPair_eq_none.mp h] at hmem
        exact nomatch hmem
    | some q =>
        obtain ⟨hqmem, hqleast⟩ := leastPair_spec h
        have hpq := hleast q hqmem
        have hqp := hqleast p hmem
        unfold PairLE at hpq hqp
        exact congrArg some (Prod.ext (by omega) (by omega))

/-- The lines from which modus ponens yields a formula: antecedent and implication. -/
def detachments (d : Derivation) (f : Expr) : List (Nat × Nat) :=
  (d.implicationIndex.getD f.text []).filterMap fun (antecedent, k) =>
    d.lineIndex[antecedent]?.map (·, k)

/-- They are the first lines with some antecedent and with the implication from it. -/
theorem Faithful.mem_detachments (hd : d.Faithful) (hf : f.IsFormula) {i k : Nat} :
    (i, k) ∈ d.detachments f ↔
      ∃ a, .implies a f ∈ d.formulas ∧ firstLine? d.log a.text = some i ∧
        firstLine? d.log (Expr.implies a f).text = some k := by
  unfold detachments
  rw [List.mem_filterMap]
  constructor
  · rintro ⟨⟨antecedent, k'⟩, hlisted, hpair⟩
    obtain ⟨i', hi, heq⟩ := Option.map_eq_some_iff.mp hpair
    obtain ⟨rfl, rfl⟩ := Prod.mk.inj heq
    obtain ⟨a, b, rfl, hb, ⟨s, hs, -, hform⟩, hk⟩ := (hd.implicationIndex _ _ _).mp hlisted
    have himp := hd.log_isFormula s hs
    rw [hform] at himp
    obtain rfl := Grammar.formula_eq_of_text_eq (isFormula_of_implies himp).2 hf hb
    exact ⟨a, List.mem_map.mpr ⟨s, hs, hform⟩, (hd.lineIndex _).symm.trans hi, hk⟩
  · rintro ⟨a, hab, hi, hk⟩
    obtain ⟨s, hs, hline, htext⟩ := mem_of_firstLine hk
    have hform := Grammar.formula_eq_of_text_eq (hd.log_isFormula s hs)
      (hd.formulas_isFormula _ hab) htext
    refine ⟨(a.text, k), (hd.implicationIndex _ _ _).mpr
      ⟨a, f, rfl, rfl, ⟨s, hs, hline, hform⟩, hk⟩, ?_⟩
    exact Option.map_eq_some_iff.mpr ⟨i, (hd.lineIndex _).trans hi, rfl⟩

theorem modusPonens?_sound (hd : d.Faithful) (hf : f.IsFormula)
    (h : d.modusPonens? f = some j) : d.Supports j f := by
  obtain ⟨⟨i, k⟩, hleast, rfl⟩ := Option.map_eq_some_iff.mp h
  obtain ⟨a, hab, hi, hk⟩ := (hd.mem_detachments hf).mp (leastPair_eq_some.mp hleast).1
  have himp := hd.formulas_isFormula _ hab
  refine .modusPonens (hd.formulaAt?_of_lineIndex (isFormula_of_implies himp).1 ?_)
    (hd.formulaAt?_of_lineIndex himp ?_)
  · rw [hd.lineIndex, hi]
  · rw [hd.lineIndex, hk]

theorem modusPonens?_complete (hd : d.Faithful) {a : Expr} (ha : a ∈ d.formulas)
    (hab : .implies a f ∈ d.formulas) : ∃ j, d.modusPonens? f = some j := by
  obtain ⟨i, hi⟩ := hd.lineIndex_of_mem ha
  obtain ⟨k, hk⟩ := hd.lineIndex_of_mem hab
  rw [hd.lineIndex] at hi hk
  have hf := (isFormula_of_implies (hd.formulas_isFormula _ hab)).2
  have hpair := (hd.mem_detachments hf).mpr ⟨a, hab, hi, hk⟩
  cases hleast : leastPair (d.detachments f) with
  | none =>
      rw [leastPair_eq_none.mp hleast] at hpair
      exact nomatch hpair
  | some p => exact ⟨_, Option.map_eq_some_iff.mpr ⟨p, hleast, rfl⟩⟩

/-- The rules from modus ponens on are tried in order. -/
theorem plain?_eq_some :
    d.plain? f = some j ↔
      d.modusPonens? f = some j ∨ d.modusPonens? f = none ∧
        ((∃ n, Schemas.matchLogic f = some n ∧ .logic n = j) ∨ Schemas.matchLogic f = none ∧
          ((∃ n, Schemas.matchArithmetic f = some n ∧ .arithmetic n = j) ∨
            Schemas.matchArithmetic f = none ∧
              ∃ i, d.hypothesisIndex[f.text]? = some i ∧ .hypothesis i = j)) := by
  simp [plain?]

/-- One of them yields a formula when any does. -/
theorem exists_plain?
    (h : (∃ j, d.modusPonens? f = some j) ∨ (∃ n, Schemas.matchLogic f = some n) ∨
      (∃ n, Schemas.matchArithmetic f = some n) ∨ ∃ i, d.hypothesisIndex[f.text]? = some i) :
    ∃ j, d.plain? f = some j := by
  refine Option.isSome_iff_exists.mp ?_
  simp only [← Option.isSome_iff_exists] at h
  simpa [plain?] using h

theorem plain?_sound (hd : d.Faithful) (hf : f.IsFormula) (h : d.plain? f = some j) :
    d.Supports j f := by
  rcases plain?_eq_some.mp h with h | ⟨_, ⟨n, hn, rfl⟩ | ⟨_, ⟨n, hn, rfl⟩ | ⟨_, i, hi, rfl⟩⟩⟩
  · exact modusPonens?_sound hd hf h
  · exact .logic (logicAxiom_of_match hf hn)
  · exact .arithmetic (arithmeticAxiom_of_match hf hn)
  · exact .hypothesis (hd.hypothesis_of_index hf hi)

/-! ## Checking is sound and complete -/

theorem justify_eq_ok :
    d.justify f = .ok j ↔
      d.shaped f = some (.ok j) ∨
        (∀ k, d.shaped f ≠ some (.ok k)) ∧ d.plain? f = some j := by
  unfold justify
  cases d.shaped f with
  | none => cases d.plain? f <;> simp
  | some o =>
      cases o with
      | ok k => simp
      | error failure => cases d.plain? f <;> simp

/-- **NO WRONG JUSTIFICATION** is given. -/
theorem justify_sound (hd : d.Faithful) (hf : f.IsFormula) (h : d.justify f = .ok j) :
    d.Supports j f := by
  rcases justify_eq_ok.mp h with hshaped | ⟨_, hplain⟩
  · unfold shaped at hshaped
    split at hshaped
    · obtain ⟨hl, hr⟩ := isFormula_of_implies hf
      exact shapedRules_sound hd hl hr (mem_of_firstSuccess hshaped)
    · exact nomatch hshaped
  · exact plain?_sound hd hf hplain

/-- A rule that yields an implication from its shape is enough. -/
theorem justify_of_shapedRules {l r : Expr} (h : .ok j ∈ d.shapedRules l r) :
    ∃ k, d.justify (.implies l r) = .ok k := by
  obtain ⟨k, hk⟩ := firstSuccess_of_mem h
  exact ⟨k, justify_eq_ok.mpr (.inl hk)⟩

/-- So is any of the other rules: a failed side condition before it does not count. -/
theorem justify_of_plain? (h : ∃ j, d.plain? f = some j) : ∃ k, d.justify f = .ok k := by
  obtain ⟨j, hj⟩ := h
  by_cases hshaped : ∃ k, d.shaped f = some (.ok k)
  · obtain ⟨k, hk⟩ := hshaped
    exact ⟨k, justify_eq_ok.mpr (.inl hk)⟩
  · exact ⟨j, justify_eq_ok.mpr (.inr ⟨not_exists.mp hshaped, hj⟩)⟩

theorem justify_logicAxiom {n : Nat} (h : LogicAxiom n f) : ∃ k, d.justify f = .ok k := by
  cases h with
  | schema hs hvalue =>
      exact justify_of_plain? (exists_plain? (.inr (.inl
        (Schemas.logic_uniform.firstMatch_of_instance (List.mem_of_getElem? hs) hvalue))))
  | @universal x a t hx ha ht hfree =>
      have hinst : universalSchema (.all x a) (a.substitute x t) = some (.ok (.logic 11)) :=
        (instantiation_eq_ok ha (ha.substitute x ht) hx).mpr ⟨rfl, t, ht, rfl, hfree⟩
      exact justify_of_shapedRules (mem_shapedRules.mpr (.inr (.inr (.inl hinst))))
  | @existential x a t hx ha ht hfree =>
      have hinst : existentialSchema (a.substitute x t) (.ex x a) = some (.ok (.logic 12)) :=
        (instantiation_eq_ok ha (ha.substitute x ht) hx).mpr ⟨rfl, t, ht, rfl, hfree⟩
      exact justify_of_shapedRules (mem_shapedRules.mpr (.inr (.inr (.inr (.inl hinst)))))

theorem justify_arithmeticAxiom {n : Nat} (h : ArithmeticAxiom n f) :
    ∃ k, d.justify f = .ok k := by
  cases h with
  | schema hs hvalue =>
      exact justify_of_plain? (exists_plain? (.inr (.inr (.inl
        (Schemas.arithmetic_uniform.firstMatch_of_instance (List.mem_of_getElem? hs) hvalue)))))
  | @induction x a hx ha hfree =>
      have hinst : inductionSchema (.and (a.substitute x .zero)
          (.all x (.implies a (a.substitute x (.primed 1 (.var x)))))) a =
            some (.ok (.arithmetic 9)) := by
        unfold inductionSchema
        simp [hfree]
      exact justify_of_shapedRules (mem_shapedRules.mpr (.inr (.inr (.inr (.inr hinst)))))

/-- **NO JUSTIFICATION IS MISSED**: where one supports a formula, one is given. -/
theorem justify_complete (hd : d.Faithful) (h : d.Supports j f) :
    ∃ k, d.justify f = .ok k := by
  cases h with
  | logic h => exact justify_logicAxiom h
  | arithmetic h => exact justify_arithmeticAxiom h
  | modusPonens ha hab =>
      exact justify_of_plain? (exists_plain? (.inl (modusPonens?_complete hd
        (Faithful.mem_formulas_of_formulaAt? ha) (Faithful.mem_formulas_of_formulaAt? hab))))
  | hypothesis h =>
      exact justify_of_plain? (exists_plain? (.inr (.inr (.inr
        (hd.hypothesisIndex_of_mem (List.mem_of_getElem? h))))))
  | @universal p x a b hp hfree hpermits =>
      obtain ⟨p', hp'⟩ := premise?_complete hd hp
      have hrule : d.universalRule a (.all x b) = some (.ok (.generalization .universal p')) :=
        Option.map_eq_some_iff.mpr ⟨p', hp', generalize_eq_ok.mpr ⟨rfl, hfree, hpermits⟩⟩
      exact justify_of_shapedRules (mem_shapedRules.mpr (.inr (.inl hrule)))
  | @existential p x a b hp hfree hpermits =>
      obtain ⟨p', hp'⟩ := premise?_complete hd hp
      have hrule : d.existentialRule (.ex x b) a =
          some (.ok (.generalization .existential p')) :=
        Option.map_eq_some_iff.mpr ⟨p', hp', generalize_eq_ok.mpr ⟨rfl, hfree, hpermits⟩⟩
      exact justify_of_shapedRules (mem_shapedRules.mpr (.inl hrule))

end Derivation

end PeanoCalculus
