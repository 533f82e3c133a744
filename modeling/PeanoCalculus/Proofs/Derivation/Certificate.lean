import PeanoCalculus.Proofs.Derivation.Run

/-! # The log is a certificate

    A derivation serves requests: to read and check a line, to check a formula, to track the last
    hypothesis.  They come in any order, and lines that fail or cannot be read lie between those
    that hold.

    `Derivation.Certifies` says what makes an entry of the log right, against the log and the
    hypotheses alone: whatever lines it cites are entered under smaller numbers.  Someone who has
    only the log can go through it from the top and needs neither the tables nor the order in which
    rules were tried.

    `serve_cases` lists what one request can do to a derivation, `Certified.serve` says that it
    keeps all entries right, and the run of any list of requests follows by induction. -/

namespace PeanoCalculus

open PeanoCalculus.Expr

/-- The variable over which an entry generalises. -/
def Step.generalized? (s : Step) : Option String :=
  match s.justification, s.formula with
  | .generalization .universal _, .implies _ (.all x _) => some x
  | .generalization .existential _, .implies (.ex x _) _ => some x
  | _, _ => none

/-- If the entry is by a quantifier rule, the rule is applied to a line and generalises over a
    variable that is not free in the given formula. -/
def Step.Spares (s : Step) (h : Expr) : Prop :=
  ∀ q p, s.justification = .generalization q p →
    p.isHypothesis = false ∧ ∃ x, s.generalized? = some x ∧ h.hasFree x = false

namespace Derivation

/-! ## Requests -/

/-- What a derivation can be asked. -/
inductive Request where
  | line (text : String)
  | formula (f : Expr)
  | track

/-- The request is to check something, which takes a line number. -/
def Request.isCheck : Request → Bool
  | .line _ | .formula _ => true
  | .track => false

/-- A text may be any, a formula has to be well formed. -/
def Request.WellFormed : Request → Prop
  | .formula f => f.IsFormula
  | .line _ | .track => True

/-- The derivation after a request. -/
def serve (d : Derivation) : Request → Derivation
  | .line text => (d.checkLine text).2
  | .formula f => (d.checkFormula f).2
  | .track => d.trackLast

/-- The derivation after one request after the other. -/
def serveAll (d : Derivation) (requests : List Request) : Derivation :=
  requests.foldl serve d

/-! ## What a certificate says -/

/-- The premise stands for the formula: as an entry with a number below the given line, or as a
    hypothesis. -/
def Cites (d : Derivation) (line : Nat) : Premise → Expr → Prop
  | .line i, f => i < line ∧ d.formulaAt? i = some f
  | .hypothesis i, f => d.hypotheses[i]? = some f

/-- The justification is right for a formula that is entered under the given line. -/
inductive Certifies (d : Derivation) (line : Nat) : Justification → Expr → Prop where
  | logic {n : Nat} {f : Expr} : LogicAxiom n f → Certifies d line (.logic n) f
  | arithmetic {n : Nat} {f : Expr} : ArithmeticAxiom n f → Certifies d line (.arithmetic n) f
  | modusPonens {i k : Nat} {a b : Expr} : d.Cites line (.line i) a →
      d.Cites line (.line k) (.implies a b) → Certifies d line (.modusPonens i k) b
  | hypothesis {i : Nat} {f : Expr} : d.hypotheses[i]? = some f →
      Certifies d line (.hypothesis i) f
  | universal {p : Premise} {x : String} {a b : Expr} : d.Cites line p (.implies a b) →
      a.hasFree x = false →
      Certifies d line (.generalization .universal p) (.implies a (.all x b))
  | existential {p : Premise} {x : String} {a b : Expr} : d.Cites line p (.implies b a) →
      a.hasFree x = false →
      Certifies d line (.generalization .existential p) (.implies (.ex x b) a)

variable {d d' : Derivation} {f : Expr} {j : Justification} {line : Nat}

/-- A premise that is found stays found while the log grows. -/
theorem Cites.mono (hhyps : d'.hypotheses = d.hypotheses)
    (hlog : ∀ i a, d.formulaAt? i = some a → d'.formulaAt? i = some a) {p : Premise}
    (h : d.Cites line p f) : d'.Cites line p f := by
  cases p with
  | line i => exact ⟨h.1, hlog i f h.2⟩
  | hypothesis i =>
      show d'.hypotheses[i]? = some f
      rw [hhyps]
      exact h

/-- So an entry that is right stays right. -/
theorem Certifies.mono (hhyps : d'.hypotheses = d.hypotheses)
    (hlog : ∀ i a, d.formulaAt? i = some a → d'.formulaAt? i = some a)
    (h : d.Certifies line j f) : d'.Certifies line j f := by
  cases h with
  | logic h => exact .logic h
  | arithmetic h => exact .arithmetic h
  | modusPonens ha hab => exact .modusPonens (ha.mono hhyps hlog) (hab.mono hhyps hlog)
  | hypothesis h =>
      refine .hypothesis ?_
      rw [hhyps]
      exact h
  | universal hp hfree => exact .universal (hp.mono hhyps hlog) hfree
  | existential hp hfree => exact .existential (hp.mono hhyps hlog) hfree

/-! ## A justification that is given is right -/

/-- A number has a formula just when the log has an entry with both. -/
theorem Faithful.formulaAt?_eq_some_iff (hd : d.Faithful) {i : Nat} :
    d.formulaAt? i = some f ↔ ∃ j, ⟨i, f, j⟩ ∈ d.log := by
  constructor
  · intro h
    obtain ⟨s, hs, rfl⟩ := Option.map_eq_some_iff.mp h
    have hline := List.find?_some hs
    obtain rfl := of_decide_eq_true hline
    exact ⟨s.justification, List.mem_of_find?_eq_some hs⟩
  · rintro ⟨j, hs⟩
    exact hd.formulaAt?_of_mem hs

/-- What is in the log can be cited by the next line. -/
theorem Faithful.cites_line (hd : d.Faithful) {i : Nat} (h : d.formulaAt? i = some f) :
    d.Cites d.lineCount (.line i) f := by
  obtain ⟨j, hs⟩ := hd.formulaAt?_eq_some_iff.mp h
  exact ⟨hd.below _ hs, h⟩

/-- So can a premise of a quantifier rule. -/
theorem Faithful.cites_premise (hd : d.Faithful) {p : Premise}
    (h : d.premiseFormula? p = some f) : d.Cites d.lineCount p f := by
  cases p with
  | line i => exact hd.cites_line h
  | hypothesis i =>
      rw [premiseFormula?] at h
      split at h
      · cases h
      · exact h

/-- What supports a formula certifies it as the next line. -/
theorem Supports.certifies (hd : d.Faithful) (h : d.Supports j f) :
    d.Certifies d.lineCount j f := by
  cases h with
  | logic h => exact .logic h
  | arithmetic h => exact .arithmetic h
  | modusPonens ha hab => exact .modusPonens (hd.cites_line ha) (hd.cites_line hab)
  | hypothesis h => exact .hypothesis h
  | universal hp hfree _ => exact .universal (hd.cites_premise hp) hfree
  | existential hp hfree _ => exact .existential (hd.cites_premise hp) hfree

/-- While a hypothesis is tracked, what supports a formula spares that hypothesis. -/
theorem Supports.spares {h : Expr} (htracked : d.trackedHypothesis? = some h)
    (hj : d.Supports j f) : Step.Spares ⟨line, f, j⟩ h := by
  intro q p heq
  cases hj with
  | universal hp _ hpermits =>
      cases heq
      obtain ⟨i, rfl, -⟩ := exists_line_of_premiseFormula? htracked hp
      exact ⟨rfl, _, rfl, hpermits h htracked⟩
  | existential hp _ hpermits =>
      cases heq
      obtain ⟨i, rfl, -⟩ := exists_line_of_premiseFormula? htracked hp
      exact ⟨rfl, _, rfl, hpermits h htracked⟩
  | logic _ => exact nomatch heq
  | arithmetic _ => exact nomatch heq
  | modusPonens _ _ => exact nomatch heq
  | hypothesis _ => exact nomatch heq

/-! ## One request -/

/-- A check enters a formula that it has justified or only takes a number; the other request
    tracks the last hypothesis. -/
theorem serve_cases (d : Derivation) {r : Request} (hr : r.WellFormed) :
    (r.isCheck = true ∧
        ∃ f j, f.IsFormula ∧ d.justify f = .ok j ∧ d.serve r = (d.record f j).advance) ∨
      (r.isCheck = true ∧ d.serve r = d.advance) ∨
      (r.isCheck = false ∧ d.serve r = d.trackLast) := by
  cases r with
  | line text =>
      rcases checkLine_cases d text with ⟨f, j, hparse, hj, hcheck⟩ | ⟨failure, hcheck⟩
      · exact .inl ⟨rfl, f, j, Grammar.isFormula_of_parse hparse, hj, congrArg Prod.snd hcheck⟩
      · exact .inr (.inl ⟨rfl, congrArg Prod.snd hcheck⟩)
  | formula f =>
      rcases checkFormula_cases d f with ⟨j, hj, hcheck⟩ | ⟨failure, hcheck⟩
      · exact .inl ⟨rfl, f, j, hr, hj, congrArg Prod.snd hcheck⟩
      · exact .inr (.inl ⟨rfl, congrArg Prod.snd hcheck⟩)
  | track => exact .inr (.inr ⟨rfl, rfl⟩)

/-- The tables are faithful and every entry of the log is right. -/
structure Certified (d : Derivation) : Prop extends Faithful d where
  certifies : ∀ s ∈ d.log, d.Certifies s.line s.justification s.formula

theorem certified_start {hypotheses : List Expr} (h : ∀ f ∈ hypotheses, f.IsFormula) :
    (start hypotheses).Certified :=
  { faithful_start h with certifies := List.forall_mem_nil _ }

/-- Entering a formula with what supports it keeps all entries right. -/
theorem Certified.enter (hd : d.Certified) (hf : f.IsFormula) (hj : d.Supports j f) :
    (d.record f j).advance.Certified := by
  have hgrows : ∀ {line : Nat} {k : Justification} {g : Expr}, d.Certifies line k g →
      (d.record f j).advance.Certifies line k g := by
    intro line k g h
    exact h.mono (hypotheses_enter d f j) (fun i a hi => formulaAt?_enter hi f j)
  refine { hd.toFaithful.enter hf j with certifies := ?_ }
  rw [log_enter]
  refine List.forall_mem_append.mpr ⟨?_, List.forall_mem_singleton.mpr ?_⟩
  · intro s hs
    exact hgrows (hd.certifies s hs)
  · exact hgrows (hj.certifies hd.toFaithful)

/-- **ONE REQUEST KEEPS THE LOG A CERTIFICATE**. -/
theorem Certified.serve (hd : d.Certified) {r : Request} (hr : r.WellFormed) :
    (d.serve r).Certified := by
  have hsame : ∀ {d' : Derivation}, d'.log = d.log → d'.hypotheses = d.hypotheses →
      ∀ s ∈ d'.log, d'.Certifies s.line s.justification s.formula := by
    intro d' hlog hhyps s hs
    rw [hlog] at hs
    refine (hd.certifies s hs).mono hhyps ?_
    intro i a hi
    rw [formulaAt?, hlog]
    exact hi
  rcases serve_cases d hr with ⟨-, f, j, hf, hj, h⟩ | ⟨-, h⟩ | ⟨-, h⟩
  · rw [h]
    exact hd.enter hf (justify_sound hd.toFaithful hf hj)
  · rw [h]
    exact { hd.toFaithful.advance with certifies := hsame rfl rfl }
  · rw [h]
    exact { hd.toFaithful.trackLast with certifies := hsame rfl rfl }

theorem hypotheses_serve (d : Derivation) {r : Request} (hr : r.WellFormed) :
    (d.serve r).hypotheses = d.hypotheses := by
  rcases serve_cases d hr with ⟨-, f, j, -, -, h⟩ | ⟨-, h⟩ | ⟨-, h⟩
  · rw [h]
    exact hypotheses_enter d f j
  · rw [h]
    rfl
  · rw [h]
    rfl

theorem lineCount_serve (d : Derivation) {r : Request} (hr : r.WellFormed) :
    (d.serve r).lineCount = d.lineCount + if r.isCheck then 1 else 0 := by
  rcases serve_cases d hr with ⟨hcheck, f, j, -, -, h⟩ | ⟨hcheck, h⟩ | ⟨hcheck, h⟩
  · rw [h, hcheck]
    exact congrArg (· + 1) (record_lineCount d f j)
  · rw [h, hcheck]
    rfl
  · rw [h, hcheck]
    rfl

theorem lineCount_checkLine (d : Derivation) (text : String) :
    (d.checkLine text).2.lineCount = d.lineCount + 1 :=
  lineCount_serve d (r := .line text) trivial

/-! ## Tracking -/

theorem trackedHypothesis?_trackLast (d : Derivation) :
    d.trackLast.trackedHypothesis? = d.hypotheses.getLast? := by
  rw [trackedHypothesis?, trackLast, List.getLast?_eq_getElem?]
  cases d.hypotheses with
  | nil => rfl
  | cons h rest => rfl

/-- The last hypothesis is tracked, and the entries from the given line on spare it. -/
structure Sparing (d : Derivation) (h : Expr) (first : Nat) : Prop where
  last : d.hypotheses.getLast? = some h
  tracked : d.trackedHypothesis? = some h
  spares : ∀ s ∈ d.log, first ≤ s.line → s.Spares h

/-- **ONE REQUEST SPARES THE TRACKED HYPOTHESIS**. -/
theorem Sparing.serve {h : Expr} {first : Nat} (hs : d.Sparing h first) (hd : d.Faithful)
    {r : Request} (hr : r.WellFormed) : (d.serve r).Sparing h first := by
  have hlast : (d.serve r).hypotheses.getLast? = some h := by
    rw [hypotheses_serve d hr]
    exact hs.last
  rcases serve_cases d hr with ⟨-, f, j, hf, hj, heq⟩ | ⟨-, heq⟩ | ⟨-, heq⟩
  · rw [heq] at hlast ⊢
    refine ⟨hlast, (trackedHypothesis?_enter d f j).trans hs.tracked, ?_⟩
    rw [log_enter]
    refine List.forall_mem_append.mpr ⟨hs.spares, List.forall_mem_singleton.mpr ?_⟩
    intro _
    exact (justify_sound hd hf hj).spares hs.tracked
  · rw [heq] at hlast ⊢
    exact ⟨hlast, hs.tracked, hs.spares⟩
  · rw [heq] at hlast ⊢
    exact ⟨hlast, (trackedHypothesis?_trackLast d).trans hs.last, hs.spares⟩

/-! ## Any number of requests -/

theorem Certified.serveAll (hd : d.Certified) {requests : List Request}
    (hrequests : ∀ r ∈ requests, r.WellFormed) : (d.serveAll requests).Certified := by
  induction requests generalizing d with
  | nil => exact hd
  | cons r rest ih =>
      obtain ⟨hr, hrest⟩ := List.forall_mem_cons.mp hrequests
      exact ih (hd.serve hr) hrest

theorem Sparing.serveAll {h : Expr} {first : Nat} (hs : d.Sparing h first) (hd : d.Certified)
    {requests : List Request} (hrequests : ∀ r ∈ requests, r.WellFormed) :
    (d.serveAll requests).Sparing h first := by
  induction requests generalizing d with
  | nil => exact hs
  | cons r rest ih =>
      obtain ⟨hr, hrest⟩ := List.forall_mem_cons.mp hrequests
      exact ih (hs.serve hd.toFaithful hr) (hd.serve hr) hrest

end Derivation

end PeanoCalculus
