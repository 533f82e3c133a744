import Mathlib.Data.List.Find
import Mathlib.Data.List.Pairwise
import PeanoCalculus.Proofs.Calculus.Renaming
import PeanoCalculus.Proofs.Derivation.Run

/-! # Other names and other numbers

    Two derivations can differ only in how things are called: every name in the formulas is
    another one, and every line of the log has another number.  `Derivation.Image r n d d'` says
    that `d'` is `d` under the renaming `r` and the renumbering `n`.

    Nothing that a derivation decides depends on either.  Each rule says of the renamed formula what
    it says of the formula, with the names in its failure renamed and the lines it cites
    renumbered.  Two rules take care.  The quantifier schemas search for a term, and what they find
    after renaming has to be taken back.  Modus ponens takes the least pair of lines, so the
    numbers of the log have to be in the same order; they are, since both logs are in order. -/

namespace PeanoCalculus

open PeanoCalculus.Expr

/-! ## Relabelled outcomes -/

/-- The premise, with another number if it is a line. -/
def Premise.renumber (n : Nat → Nat) : Premise → Premise
  | .line i => .line (n i)
  | .hypothesis i => .hypothesis i

/-- The justification with other numbers for the lines it cites. -/
def Justification.renumber (n : Nat → Nat) : Justification → Justification
  | .modusPonens i k => .modusPonens (n i) (n k)
  | .generalization q p => .generalization q (p.renumber n)
  | .logic schema => .logic schema
  | .arithmetic schema => .arithmetic schema
  | .hypothesis i => .hypothesis i

/-- The failure with another number for the line it cites, if it cites one. -/
def Failure.renumber (n : Nat → Nat) : Failure → Failure
  | .variableFree x p => .variableFree x (p.renumber n)
  | .hypothesisVariable x i => .hypothesisVariable x i
  | .notFreeFor t f x => .notFreeFor t f x
  | .inductionMismatch x => .inductionMismatch x
  | .unreadable e => .unreadable e
  | .unproved => .unproved

/-- The failure with other names for the names it mentions. -/
def Failure.rename (r : Renaming) : Failure → Failure
  | .variableFree x p => .variableFree (r.name x) p
  | .hypothesisVariable x i => .hypothesisVariable (r.name x) i
  | .notFreeFor t f x => .notFreeFor (t.rename r.name) (f.rename r.name) (r.name x)
  | .inductionMismatch x => .inductionMismatch (r.name x)
  | .unreadable e => .unreadable e
  | .unproved => .unproved

namespace Outcome

/-- The outcome with other numbers for the lines it cites. -/
def renumber (n : Nat → Nat) : Outcome → Outcome
  | .ok j => .ok (j.renumber n)
  | .error failure => .error (failure.renumber n)

/-- The outcome with other names in its failure. -/
def rename (r : Renaming) : Outcome → Outcome
  | .ok j => .ok j
  | .error failure => .error (failure.rename r)

/-- The outcome with other names and other numbers. -/
def relabel (r : Renaming) (n : Nat → Nat) (o : Outcome) : Outcome :=
  renumber n (rename r o)

end Outcome

/-- The entry of the log with other names and other numbers. -/
def Step.relabel (r : Renaming) (n : Nat → Nat) (s : Step) : Step where
  line := n s.line
  formula := s.formula.rename r.name
  justification := s.justification.renumber n

theorem Justification.renumber_id (j : Justification) : j.renumber id = j := by
  cases j with
  | generalization q p => cases p <;> rfl
  | _ => rfl

theorem Failure.renumber_id (failure : Failure) : failure.renumber id = failure := by
  cases failure with
  | variableFree x p => cases p <;> rfl
  | _ => rfl

theorem Failure.rename_identity (failure : Failure) : failure.rename .identity = failure := by
  cases failure with
  | notFreeFor t f x =>
      show Failure.notFreeFor (t.rename id) (f.rename id) x = .notFreeFor t f x
      rw [rename_id, rename_id]
  | _ => rfl

/-- With the numbers kept an outcome is renamed. -/
theorem Outcome.relabel_id (r : Renaming) (o : Outcome) : relabel r id o = rename r o := by
  cases o with
  | ok j => exact congrArg Except.ok j.renumber_id
  | error failure => exact congrArg Except.error (failure.rename r).renumber_id

/-- With the names kept it is renumbered. -/
theorem Outcome.relabel_identity (n : Nat → Nat) (o : Outcome) :
    relabel .identity n o = renumber n o := by
  cases o with
  | ok j => rfl
  | error failure => exact congrArg (Except.error ∘ Failure.renumber n) failure.rename_identity

/-- The first success of relabelled outcomes is the relabelled first success. -/
theorem firstSuccess_relabel (r : Renaming) (n : Nat → Nat) (outcomes : List Outcome) :
    firstSuccess (outcomes.map (.relabel r n)) =
      (firstSuccess outcomes).map (.relabel r n) := by
  induction outcomes with
  | nil => rfl
  | cons o rest ih =>
      cases o with
      | ok j => rfl
      | error failure =>
          rw [List.map_cons]
          show firstSuccess (.error ((failure.rename r).renumber n) :: _) = _
          rw [firstSuccess, firstSuccess, ih]
          cases firstSuccess rest with
          | none => rfl
          | some o => cases o <;> rfl

namespace Derivation

/-! ## The quantifier schemas and induction -/

section Schemas

variable (r : Renaming) (n : Nat → Nat) {a b : Expr}

/-- An instance of a quantifier schema stays one, and no other formula becomes one. -/
theorem instantiation_rename {schema : Nat} {body c : Expr} {x : String} (hbody : body.IsFormula)
    (hc : c.IsFormula) (hx : isName Char.isLower x = true) :
    instantiation schema (body.rename r.name) (r.name x) (c.rename r.name) =
      (instantiation schema body x c).map (.relabel r n) := by
  have hbody' := hbody.rename r.respectsKind
  by_cases hinstance : ∃ t : Expr, t.IsTerm ∧ c = body.substitute x t
  · obtain ⟨t, ht, rfl⟩ := hinstance
    rw [r.rename_substitute hbody hx, instantiation_substitute hbody' (ht.rename r.respectsKind),
      instantiation_substitute hbody ht, r.isFreeFor_rename hbody ht hx, Option.map_some]
    by_cases hfree : body.isFreeFor x t = true
    · rw [if_pos hfree, if_pos hfree]
      rfl
    · rw [if_neg hfree, if_neg hfree]
      rfl
  · have hnone : instantiation schema body x c = none := by
      refine Option.eq_none_iff_forall_ne_some.mpr ?_
      intro o ho
      exact hinstance (exists_substitute_of_instantiation hbody hc hx ho)
    rw [hnone, Option.map_none]
    refine Option.eq_none_iff_forall_ne_some.mpr ?_
    intro o ho
    obtain ⟨t, ht, heq⟩ := exists_substitute_of_instantiation hbody'
      (hc.rename r.respectsKind) (r.respectsKind.lower hx) ho
    exact hinstance (r.exists_substitute_of_rename hc hbody hx ht heq)

theorem universalSchema_rename (ha : a.IsFormula) (hb : b.IsFormula) :
    universalSchema (a.rename r.name) (b.rename r.name) =
      (universalSchema a b).map (.relabel r n) := by
  cases ha with
  | @quantified q x body hx hbody =>
      cases q with
      | universal => exact instantiation_rename r n hbody hb hx
      | existential => rfl
  | _ => rfl

theorem existentialSchema_rename (ha : a.IsFormula) (hb : b.IsFormula) :
    existentialSchema (a.rename r.name) (b.rename r.name) =
      (existentialSchema a b).map (.relabel r n) := by
  cases hb with
  | @quantified q x body hx hbody =>
      cases q with
      | existential => exact instantiation_rename r n hbody ha hx
      | universal => rfl
  | _ => rfl

/-- Induction compares texts, and renaming keeps which texts are equal. -/
theorem inductionSchema_rename (ha : a.IsFormula) (hb : b.IsFormula) :
    inductionSchema (a.rename r.name) (b.rename r.name) =
      (inductionSchema a b).map (.relabel r n) := by
  cases ha with
  | @and base step hbase hstep =>
      cases hstep with
      | @quantified q x body hx hbody =>
          cases q with
          | existential => rfl
          | universal =>
              cases hbody with
              | @implies hypothesis conclusion hhyp hconc =>
                  have hnext : (Expr.primed 1 (.var x)).IsTerm := (IsTerm.var hx).primed 1
                  have hzero : (b.rename r.name).substitute (r.name x) .zero =
                      (b.substitute x .zero).rename r.name :=
                    (r.rename_substitute hb hx .zero).symm
                  have hsuccessor : (b.rename r.name).substitute (r.name x)
                      (.primed 1 (.var (r.name x))) =
                        (b.substitute x (.primed 1 (.var x))).rename r.name := by
                    rw [r.rename_substitute hb hx, rename_primed]
                    rfl
                  show inductionSchema (.and (base.rename r.name) (.all (r.name x)
                    (.implies (hypothesis.rename r.name) (conclusion.rename r.name)))) _ = _
                  rw [inductionSchema_shape, inductionSchema_shape, r.hasFree_rename hb hx,
                    hzero, hsuccessor]
                  simp only [r.text_eq_iff hhyp hb, r.text_eq_iff hbase (hb.substitute x .zero),
                    r.text_eq_iff hconc (hb.substitute x hnext)]
                  split
                  · split <;> rfl
                  · rfl
              | _ => rfl
      | _ => rfl
  | _ => rfl

end Schemas

/-! ## Derivations under other names and numbers -/

/-- The second derivation is the first with other names and other line numbers. -/
structure Image (r : Renaming) (n : Nat → Nat) (d d' : Derivation) : Prop where
  source : d.Faithful
  target : d'.Faithful
  hypotheses : d'.hypotheses = d.hypotheses.map (·.rename r.name)
  tracked : d'.tracked = d.tracked
  log : d'.log = d.log.map (.relabel r n)

namespace Image

variable {r : Renaming} {n : Nat → Nat} {d d' : Derivation} {f a b side : Expr} {x : String}

/-- The numbers of the log are in the same order as before. -/
theorem line_lt (h : Image r n d d') {s t : Step} (hs : s ∈ d.log) (ht : t ∈ d.log)
    (hlt : s.line < t.line) : n s.line < n t.line := by
  have htarget := h.target.ordered
  rw [h.log, List.pairwise_map] at htarget
  -- of two entries either comes first, so the statement is made symmetric
  let InOrder (s t : Step) : Prop :=
    (s.line < t.line → n s.line < n t.line) ∧ (t.line < s.line → n t.line < n s.line)
  have hpairs : d.log.Pairwise InOrder := by
    refine (h.source.ordered.and htarget).imp ?_
    rintro s t ⟨hline, himage⟩
    exact ⟨fun _ => himage, fun hback => absurd hback (Nat.lt_asymm hline)⟩
  have hsymm : Std.Symm InOrder := ⟨fun _ _ hst => ⟨hst.2, hst.1⟩⟩
  have hrefl : ∀ s ∈ d.log, InOrder s s := by
    intro s _
    exact ⟨fun hself => absurd hself (Nat.lt_irrefl _), fun hself => absurd hself (Nat.lt_irrefl _)⟩
  exact (hpairs.forall_of_forall hrefl hs ht).1 hlt

theorem formulas (h : Image r n d d') : d'.formulas = d.formulas.map (·.rename r.name) := by
  show d'.log.map (·.formula) = (d.log.map (·.formula)).map _
  rw [h.log, List.map_map, List.map_map]
  rfl

/-! ## What the tables say -/

theorem firstLine? (h : Image r n d d') (hf : f.IsFormula) :
    Derivation.firstLine? d'.log (f.rename r.name).text =
      (Derivation.firstLine? d.log f.text).map n := by
  have hsame : d.log.find? ((fun s => decide (s.formula.text = (f.rename r.name).text)) ∘
      Step.relabel r n) = d.log.find? (fun s => decide (s.formula.text = f.text)) := by
    refine List.find?_congr ?_
    intro s hs
    exact decide_eq_decide.mpr (r.text_eq_iff (h.source.log_isFormula s hs) hf)
  unfold Derivation.firstLine?
  rw [h.log, List.find?_map, hsame, Option.map_map, Option.map_map]
  rfl

theorem lineIndex (h : Image r n d d') (hf : f.IsFormula) :
    d'.lineIndex[(f.rename r.name).text]? = d.lineIndex[f.text]?.map n := by
  rw [h.target.lineIndex, h.source.lineIndex, h.firstLine? hf]

theorem hypothesisIndex (h : Image r n d d') (hf : f.IsFormula) :
    d'.hypothesisIndex[(f.rename r.name).text]? = d.hypothesisIndex[f.text]? := by
  rw [h.target.hypothesisIndex, h.source.hypothesisIndex, h.hypotheses, List.findIdx?_map]
  refine findIdx?_congr ?_
  intro g hg
  exact decide_eq_decide.mpr (r.text_eq_iff (h.source.hypothesis_isFormula g hg) hf)

/-! ## The quantifier rules -/

theorem premise? (h : Image r n d d') (hf : f.IsFormula) :
    d'.premise? (f.rename r.name) = (d.premise? f).map (·.renumber n) := by
  unfold Derivation.premise?
  rw [h.lineIndex hf, h.hypothesisIndex hf, h.tracked]
  cases d.lineIndex[f.text]? with
  | some i => rfl
  | none =>
      cases d.tracked with
      | some i => rfl
      | none =>
          show d.hypothesisIndex[f.text]?.map Premise.hypothesis =
            (d.hypothesisIndex[f.text]?.map Premise.hypothesis).map (Premise.renumber n)
          rw [Option.map_map]
          rfl

theorem generalize (h : Image r n d d') (hside : side.IsFormula)
    (hx : isName Char.isLower x = true) (q : Quantifier) (p : Premise) :
    d'.generalize q (r.name x) (side.rename r.name) (p.renumber n) =
      .relabel r n (d.generalize q x side p) := by
  have hany : ∀ i : Nat, d'.hypotheses[i]?.any (·.hasFree (r.name x)) =
      d.hypotheses[i]?.any (·.hasFree x) := by
    intro i
    rw [h.hypotheses, List.getElem?_map]
    cases hi : d.hypotheses[i]? with
    | none => rfl
    | some g =>
        exact r.hasFree_rename (h.source.hypothesis_isFormula g (List.mem_of_getElem? hi)) hx
  unfold Derivation.generalize
  rw [r.hasFree_rename hside hx, h.tracked]
  cases side.hasFree x with
  | true => rfl
  | false =>
      cases d.tracked with
      | none => rfl
      | some i =>
          simp only [hany i]
          cases d.hypotheses[i]?.any (·.hasFree x) <;> rfl

theorem existentialRule (h : Image r n d d') (ha : a.IsFormula) (hb : b.IsFormula) :
    d'.existentialRule (a.rename r.name) (b.rename r.name) =
      (d.existentialRule a b).map (.relabel r n) := by
  cases ha with
  | @quantified q x body hx hbody =>
      cases q with
      | universal => rfl
      | existential =>
          show (d'.premise? ((implies body b).rename r.name)).map
              (d'.generalize .existential (r.name x) (b.rename r.name)) =
            ((d.premise? (.implies body b)).map (d.generalize .existential x b)).map _
          rw [h.premise? (.implies hbody hb), Option.map_map, Option.map_map]
          exact Option.map_congr fun p _ => h.generalize hb hx .existential p
  | _ => rfl

theorem universalRule (h : Image r n d d') (ha : a.IsFormula) (hb : b.IsFormula) :
    d'.universalRule (a.rename r.name) (b.rename r.name) =
      (d.universalRule a b).map (.relabel r n) := by
  cases hb with
  | @quantified q x body hx hbody =>
      cases q with
      | existential => rfl
      | universal =>
          show (d'.premise? ((implies a body).rename r.name)).map
              (d'.generalize .universal (r.name x) (a.rename r.name)) =
            ((d.premise? (.implies a body)).map (d.generalize .universal x a)).map _
          rw [h.premise? (.implies ha hbody), Option.map_map, Option.map_map]
          exact Option.map_congr fun p _ => h.generalize ha hx .universal p
  | _ => rfl

theorem shapedRules (h : Image r n d d') (ha : a.IsFormula) (hb : b.IsFormula) :
    d'.shapedRules (a.rename r.name) (b.rename r.name) =
      (d.shapedRules a b).map (.relabel r n) := by
  unfold Derivation.shapedRules
  rw [h.existentialRule ha hb, h.universalRule ha hb, universalSchema_rename r n ha hb,
    existentialSchema_rename r n ha hb, inductionSchema_rename r n ha hb, List.map_filterMap]
  exact List.filterMap_map (l := [d.existentialRule a b, d.universalRule a b,
    universalSchema a b, existentialSchema a b, inductionSchema a b])

theorem shaped (h : Image r n d d') (hf : f.IsFormula) :
    d'.shaped (f.rename r.name) = (d.shaped f).map (.relabel r n) := by
  cases hf with
  | @implies a b ha hb =>
      show firstSuccess (d'.shapedRules (a.rename r.name) (b.rename r.name)) =
        (firstSuccess (d.shapedRules a b)).map (.relabel r n)
      rw [h.shapedRules ha hb, firstSuccess_relabel]
  | _ => rfl

/-! ## Modus ponens -/

/-- Modus ponens yields a renamed formula from the renumbered lines. -/
theorem mem_detachments (h : Image r n d d') (hf : f.IsFormula) {p' : Nat × Nat} :
    p' ∈ d'.detachments (f.rename r.name) ↔ ∃ p ∈ d.detachments f, p.map n n = p' := by
  obtain ⟨i', k'⟩ := p'
  rw [h.target.mem_detachments (hf.rename r.respectsKind)]
  constructor
  · rintro ⟨a', hmem, hi, hk⟩
    -- an implication to the renamed formula is a renamed implication
    rw [h.formulas] at hmem
    obtain ⟨g, hg, heq⟩ := List.mem_map.mp hmem
    have himp := h.source.formulas_isFormula g hg
    cases himp with
    | @implies a b ha hb =>
        obtain ⟨-, rfl, hrenamed⟩ := Expr.binary.inj heq
        obtain rfl := r.eq_of_rename_eq hb hf hrenamed
        rw [h.firstLine? ha] at hi
        rw [← heq, h.firstLine? (.implies ha hb)] at hk
        obtain ⟨i, hline, rfl⟩ := Option.map_eq_some_iff.mp hi
        obtain ⟨k, hline', rfl⟩ := Option.map_eq_some_iff.mp hk
        exact ⟨(i, k), (h.source.mem_detachments hb).mpr ⟨a, hg, hline, hline'⟩, rfl⟩
    | _ => exact nomatch heq
  · rintro ⟨⟨i, k⟩, hmem, heq⟩
    obtain ⟨rfl, rfl⟩ := Prod.mk.inj heq
    obtain ⟨a, hab, hi, hk⟩ := (h.source.mem_detachments hf).mp hmem
    have himp := h.source.formulas_isFormula _ hab
    refine ⟨a.rename r.name, ?_, ?_, ?_⟩
    · rw [h.formulas]
      exact List.mem_map.mpr ⟨_, hab, rfl⟩
    · rw [h.firstLine? (isFormula_of_implies himp).1, hi]
      rfl
    · exact (h.firstLine? himp).trans (congrArg (Option.map n) hk)

/-- Renumbering keeps which of two pairs of lines counts first. -/
theorem pairLE (h : Image r n d d') (hf : f.IsFormula) {p q : Nat × Nat}
    (hp : p ∈ d.detachments f) (hq : q ∈ d.detachments f) (hle : PairLE p q) :
    PairLE (p.map n n) (q.map n n) := by
  obtain ⟨i, k⟩ := p
  obtain ⟨i', k'⟩ := q
  obtain ⟨a, -, hi, hk⟩ := (h.source.mem_detachments hf).mp hp
  obtain ⟨a', -, hi', hk'⟩ := (h.source.mem_detachments hf).mp hq
  have hlt : ∀ {line line' : Nat} {text text' : String},
      Derivation.firstLine? d.log text = some line →
      Derivation.firstLine? d.log text' = some line' → line < line' → n line < n line' := by
    intro line line' text text' hline hline'
    obtain ⟨s, hs, rfl, -⟩ := mem_of_firstLine hline
    obtain ⟨t, ht, rfl, -⟩ := mem_of_firstLine hline'
    exact h.line_lt hs ht
  rcases hle with hfirst | ⟨heq, hsecond⟩
  · exact .inl (hlt hi hi' hfirst)
  · refine .inr ⟨congrArg n heq, ?_⟩
    rcases Nat.lt_or_eq_of_le hsecond with hless | hsame
    · exact Nat.le_of_lt (hlt hk hk' hless)
    · exact Nat.le_of_eq (congrArg n hsame)

theorem modusPonens? (h : Image r n d d') (hf : f.IsFormula) :
    d'.modusPonens? (f.rename r.name) = (d.modusPonens? f).map (·.renumber n) := by
  have hleast : leastPair (d'.detachments (f.rename r.name)) =
      (leastPair (d.detachments f)).map (Prod.map n n) := by
    cases hpair : leastPair (d.detachments f) with
    | none =>
        rw [Option.map_none, leastPair_eq_none, List.eq_nil_iff_forall_not_mem]
        intro p' hp'
        obtain ⟨p, hp, -⟩ := (h.mem_detachments hf).mp hp'
        rw [leastPair_eq_none.mp hpair] at hp
        exact nomatch hp
    | some p =>
        obtain ⟨hmem, hle⟩ := leastPair_eq_some.mp hpair
        refine leastPair_eq_some.mpr ⟨(h.mem_detachments hf).mpr ⟨p, hmem, rfl⟩, ?_⟩
        intro q' hq'
        obtain ⟨q, hq, rfl⟩ := (h.mem_detachments hf).mp hq'
        exact h.pairLE hf hmem hq (hle q hq)
  show (leastPair (d'.detachments (f.rename r.name))).map _ =
    ((leastPair (d.detachments f)).map _).map _
  rw [hleast, Option.map_map, Option.map_map]
  rfl

/-! ## Whole lines -/

theorem plain? (h : Image r n d d') (hf : f.IsFormula) :
    d'.plain? (f.rename r.name) = (d.plain? f).map (·.renumber n) := by
  unfold Derivation.plain?
  rw [h.modusPonens? hf, Schemas.matchLogic_rename r hf, Schemas.matchArithmetic_rename r hf,
    h.hypothesisIndex hf]
  cases d.modusPonens? f with
  | some j => rfl
  | none =>
      cases Schemas.matchLogic f with
      | some k => rfl
      | none =>
          cases Schemas.matchArithmetic f with
          | some k => rfl
          | none =>
              cases d.hypothesisIndex[f.text]? with
              | some i => rfl
              | none => rfl

/-- **THE RULES KNOW NEITHER NAMES NOR NUMBERS**: what is said of a renamed formula is what is said
    of the formula, relabelled. -/
theorem justify (h : Image r n d d') (hf : f.IsFormula) :
    d'.justify (f.rename r.name) = .relabel r n (d.justify f) := by
  unfold Derivation.justify
  rw [h.shaped hf, h.plain? hf]
  cases d.shaped f with
  | none => cases d.plain? f <;> rfl
  | some o =>
      cases o with
      | ok j => rfl
      | error failure => cases d.plain? f <;> rfl

/-- Both derivations enter the line. -/
theorem enter (h : Image r n d d') (hcount : d'.lineCount = n d.lineCount) (hf : f.IsFormula)
    (j : Justification) :
    Image r n (d.record f j).advance (d'.record (f.rename r.name) (j.renumber n)).advance where
  source := h.source.enter hf j
  target := h.target.enter (hf.rename r.respectsKind) (j.renumber n)
  hypotheses := by
    rw [hypotheses_enter, hypotheses_enter, h.hypotheses]
  tracked := by
    show (d'.record _ _).tracked = (d.record _ _).tracked
    rw [record_tracked, record_tracked, h.tracked]
  log := by
    rw [log_enter, log_enter, List.map_append, h.log, hcount]
    rfl

/-- A line that fails in both changes no log. -/
theorem advance (h : Image r n d d') : Image r n d.advance d'.advance where
  source := h.source.advance
  target := h.target.advance
  hypotheses := h.hypotheses
  tracked := h.tracked
  log := h.log

/-- Nor does a line that fails in one and is left out of the other. -/
theorem skip (h : Image r n d d') : Image r n d.advance d' where
  source := h.source.advance
  target := h.target
  hypotheses := h.hypotheses
  tracked := h.tracked
  log := h.log

/-- A renamed formula is checked with the relabelled outcome. -/
theorem checkFormula (h : Image r n d d') (hcount : d'.lineCount = n d.lineCount)
    (hf : f.IsFormula) :
    (d'.checkFormula (f.rename r.name)).1 = .relabel r n (d.checkFormula f).1 ∧
      Image r n (d.checkFormula f).2 (d'.checkFormula (f.rename r.name)).2 := by
  unfold Derivation.checkFormula
  rw [h.justify hf]
  cases d.justify f with
  | ok j => exact ⟨rfl, h.enter hcount hf j⟩
  | error failure => exact ⟨rfl, h.advance⟩

/-- With the names kept, a line is checked with the renumbered outcome. -/
theorem checkLine (h : Image .identity n d d') (hcount : d'.lineCount = n d.lineCount)
    (text : String) :
    (d'.checkLine text).1 = .renumber n (d.checkLine text).1 ∧
      Image .identity n (d.checkLine text).2 (d'.checkLine text).2 := by
  unfold Derivation.checkLine
  cases hread : Grammar.parseFormula text with
  | error e => exact ⟨rfl, h.advance⟩
  | ok f =>
      have hchecked := h.checkFormula hcount (Grammar.isFormula_of_parse hread)
      rw [Outcome.relabel_identity, show f.rename Renaming.identity.name = f from rename_id f]
        at hchecked
      exact hchecked

/-! ## Whole runs -/

/-- Nothing is derived yet, under any names. -/
theorem start (r : Renaming) (n : Nat → Nat) {hypotheses : List Expr}
    (h : ∀ g ∈ hypotheses, g.IsFormula) :
    Image r n (.start hypotheses) (.start (hypotheses.map (·.rename r.name))) where
  source := faithful_start h
  target := faithful_start (List.forall_mem_map.mpr fun g hg => (h g hg).rename r.respectsKind)
  hypotheses := rfl
  tracked := rfl
  log := rfl

/-- The last line is the goal before and after. -/
theorem last?_any {goal : Expr} (h : Image r n d d') (hgoal : goal.IsFormula) :
    d'.last?.any (·.formula.text = (goal.rename r.name).text) =
      d.last?.any (·.formula.text = goal.text) := by
  unfold last?
  rw [h.log, List.getLast?_map]
  cases hlast : d.log.getLast? with
  | none => rfl
  | some s =>
      exact decide_eq_decide.mpr
        (r.text_eq_iff (h.source.log_isFormula s (List.mem_of_getLast? hlast)) hgoal)

end Image

end Derivation

end PeanoCalculus
