import PeanoCalculus.Proofs.Matching.Schema
import PeanoCalculus.Proofs.Matching.Steps

/-! # The shape of expressions

    An expression is a symbol over its parts.  A symbol has as many parts as its arity says, a
    quantifier has a variable before its body, and a chain of primes has a prime and stands on
    something that is no chain.  `WellBuilt` says this of the root, `Everywhere` of all positions.

    `Obtained` is all that can be made: by hand, with any names and any parts, by reading texts, by
    substituting and filling, and by matching, each applied to what the others gave.  Counts of
    primes are natural numbers, so nothing is asked of their sums.

    What can be made is what is well built everywhere.  The number of parts and the place of the
    binder come with the type of expressions.  The chains do not: `Expr.primed` looks at one symbol
    only, so that it merges two chains into one depends on what it is given, and a match takes
    chains apart again.  That the result is tidy is known of each operation; `HandedDown` carries it
    through a match. -/

namespace PeanoCalculus

namespace Expr

/-! ## Positions -/

/-- The part at a position.  A position is the way to it from the root: the number of a part, the
    number of a part of that part, and so on. -/
def partAt? : Expr → List Nat → Option Expr
  | e, [] => some e
  | e, i :: position => e.parts[i]?.bind (·.partAt? position)

/-- The property holds at every position. -/
def Everywhere (Q : Expr → Prop) (e : Expr) : Prop :=
  ∀ position s, e.partAt? position = some s → Q s

/-- The positions of an expression are the root and those of its parts. -/
theorem everywhere_iff {Q : Expr → Prop} {e : Expr} :
    e.Everywhere Q ↔ Q e ∧ ∀ p ∈ e.parts, p.Everywhere Q := by
  constructor
  · intro h
    refine ⟨h [] e rfl, fun p hp position s hs => ?_⟩
    obtain ⟨i, hi⟩ := List.mem_iff_getElem?.mp hp
    refine h (i :: position) s ?_
    rw [partAt?, hi]
    exact hs
  · rintro ⟨hroot, hparts⟩ position s hs
    cases position with
    | nil =>
        cases hs
        exact hroot
    | cons i position =>
        obtain ⟨p, hp, hs⟩ := Option.bind_eq_some_iff.mp hs
        exact hparts p (List.mem_of_getElem? hp) position s hs

/-! ## Well-built symbols -/

/-- The symbol at the root has the parts that belong to it. -/
structure WellBuilt (e : Expr) : Prop where
  arity : ∀ n, e.arity? = some n → e.parts.length = n
  binder : ∀ q x body, e.quantified? = some (q, x, body) → e.parts = [.var x, body]
  chain : ∀ n base, e = .successor n base → 1 ≤ n ∧ base.isSuccessor = false

/-- The type leaves only the chains of primes open. -/
theorem wellBuilt_iff {e : Expr} :
    e.WellBuilt ↔ ∀ n base, e = .successor n base → 0 < n ∧ base.isSuccessor = false := by
  refine ⟨WellBuilt.chain, fun hchain => ⟨fun n hn => ?_, fun q x body hq => ?_, hchain⟩⟩
  · cases e with
    | apply f args => cases hn
    | _ => exact Option.some.inj hn
  · cases e with
    | quantified q' y e =>
        cases hq
        rfl
    | _ => cases hq

/-- To be tidy is to be well built everywhere. -/
theorem tidy_iff_everywhere {e : Expr} : e.Tidy ↔ e.Everywhere WellBuilt := by
  induction e using parts_induction with
  | step e ih => rw [tidy_iff, everywhere_iff, wellBuilt_iff, forall₂_congr ih]

/-! ## What can be made -/

/-- What can be made from nothing, in any number of steps. -/
inductive Obtained : Expr → Prop where
  | binary (op : Operator) {l r : Expr} : Obtained l → Obtained r → Obtained (.binary op l r)
  | negation {e : Expr} : Obtained e → Obtained (.negation e)
  | quantified (q : Quantifier) (x : String) {e : Expr} : Obtained e → Obtained (.quantified q x e)
  | apply (f : String) {args : List Expr} : (∀ a ∈ args, Obtained a) → Obtained (.apply f args)
  | var (x : String) : Obtained (.var x)
  | primed (n : Nat) {e : Expr} : Obtained e → Obtained (e.primed n)
  | zero : Obtained .zero
  | readFormula {text : String} {e : Expr} : Grammar.parseFormula text = .ok e → Obtained e
  | readTerm {text : String} {e : Expr} : Grammar.parseTerm text = .ok e → Obtained e
  | substitute (x : String) {e t : Expr} : Obtained e → Obtained t → Obtained (e.substitute x t)
  | fill {e : Expr} {slots : Bindings} : Obtained e →
      (∀ x v, slots.find? x = some v → Obtained v) → Obtained (e.fill slots)
  | binding {steps : List MatchStep} {m : Match} {x : String} {e : Expr} :
      (∀ step ∈ steps, Obtained step.schema) → (∀ step ∈ steps, Obtained step.candidate) →
      ({} : Match).advanceAll steps = some m → m.bindings.find? x = some e → Obtained e

/-- A match leaves tidy parts of a tidy candidate. -/
theorem handedDown_tidy : HandedDown Tidy where
  part := fun he hp => he.parts _ hp
  chain := fun he k => he.base.2.2.primed k

/-- Every operation makes tidy trees of tidy trees. -/
theorem Obtained.tidy {e : Expr} (h : e.Obtained) : e.Tidy := by
  induction h with
  | binary op _ _ ihl ihr => exact .binary ihl ihr
  | negation _ ih => exact .negation ih
  | quantified q x _ ih => exact .quantified ih
  | apply f _ ih => exact .apply ih
  | var x => exact .var
  | primed n _ ih => exact ih.primed n
  | zero => exact .zero
  | readFormula hread => exact (Grammar.isFormula_of_parse hread).tidy
  | readTerm hread => exact (Grammar.isTerm_iff_read.mpr ⟨_, hread⟩).tidy
  | substitute x _ _ ihe iht => exact ihe.substitute x iht
  | fill _ _ ihe ihslots => exact ihe.fill ihslots
  | binding _ _ hrun hfind _ ihcandidates =>
      -- what is bound comes from a candidate, so the schemas need not be tidy
      exact handedDown_tidy.binding ihcandidates hrun hfind

/-- Tidy trees are made by hand. -/
theorem Tidy.obtained {e : Expr} (h : e.Tidy) : e.Obtained := by
  induction h with
  | binary _ _ ihl ihr => exact .binary _ ihl ihr
  | negation _ ih => exact .negation ih
  | quantified _ ih => exact .quantified _ _ ih
  | apply _ ih => exact .apply _ ih
  | var => exact .var _
  | @successor n e hn hs _ ih =>
      -- no constructor of `Obtained` puts a chain directly; primes put on something unprimed make it
      rw [← primed_of_not_successor hn hs]
      exact .primed n ih
  | zero => exact .zero

/-- **THE SHAPE OF EXPRESSIONS**: what can be made by hand, by reading, substituting, filling and
    matching, in any combination, is what is well built at every position.  A term put into a
    formula gives a formula, and so do formulas and terms put for the letters and variables of one. -/
theorem operations_keep_shape :
    (∀ e : Expr, e.Obtained ↔ e.Everywhere WellBuilt) ∧
    (∀ (e t : Expr) (x : String), e.IsFormula → t.IsTerm → (e.substitute x t).IsFormula) ∧
    ∀ (e : Expr) (slots : Bindings), e.IsFormula → slots.Sorted → (e.fill slots).IsFormula := by
  refine ⟨fun e => ?_, fun e t x he ht => he.substitute x ht,
    fun e slots he hslots => he.fill hslots⟩
  rw [← tidy_iff_everywhere]
  exact ⟨Obtained.tidy, Tidy.obtained⟩

/-- A match takes one of three primes off; put back under that prime, the other two are merged with
    it, and the binder is the candidate's.  The nested chain cannot be made. -/
theorem operations_keep_shape_merging :
    ∃ schema c m, Grammar.parseFormula "@x(x'=y'->A)" = .ok schema ∧
      Grammar.parseFormula "@z(z'=0'''->z=0)" = .ok c ∧
      ({} : Match).advanceAll [⟨.schema, schema, c⟩] = some m ∧
      m.bindings.find? "y" = some (.successor 2 .zero) ∧
      (Expr.successor 2 .zero).Obtained ∧ (schema.fill m.bindings).Obtained ∧
      (schema.fill m.bindings).partAt? [0] = some (.var "z") ∧
      (schema.fill m.bindings).partAt? [1, 0, 1] = some (.successor 3 .zero) ∧
      (schema.fill m.bindings).Everywhere WellBuilt ∧
      ¬(Expr.successor 1 (.successor 2 .zero)).Obtained ∧
      schema.IsFormula ∧ (Expr.successor 2 .zero).IsTerm ∧
      (schema.substitute "y" (.successor 2 .zero)).IsFormula ∧
      m.bindings.Sorted ∧ (schema.fill m.bindings).IsFormula := by
  have hrun : (Grammar.parseFormula "@x(x'=y'->A)").toOption.any (fun schema =>
      (Grammar.parseFormula "@z(z'=0'''->z=0)").toOption.any fun c =>
        (matchSchema schema c).any fun m =>
          decide (m.bindings.find? "y" = some (.successor 2 .zero) ∧
            (schema.fill m.bindings).partAt? [0] = some (.var "z") ∧
            (schema.fill m.bindings).partAt? [1, 0, 1] = some (.successor 3 .zero))) = true := by
    decide +kernel
  obtain ⟨schema, hschema, hrun⟩ := exists_ok_of_any hrun
  obtain ⟨c, hcandidate, hrun⟩ := exists_ok_of_any hrun
  obtain ⟨m, hm, htest⟩ := (Option.any_eq_true _ _).mp hrun
  obtain ⟨hy, hbinder, hchain⟩ := of_decide_eq_true htest
  have hs := Grammar.isFormula_of_parse hschema
  have hc := Grammar.isFormula_of_parse hcandidate
  have hsorted := (instantiates_of_match hs hc hm).1.sorted
  have hsteps : ({} : Match).advanceAll [⟨.schema, schema, c⟩] = some m := by
    rw [Match.advanceAll_cons, show Match.advance {} ⟨.schema, schema, c⟩ = some m from hm]
    rfl
  have hbound : ∀ x v, m.bindings.find? x = some v → v.Obtained := fun x v hfind =>
    .binding (List.forall_mem_singleton.mpr (.readFormula hschema))
      (List.forall_mem_singleton.mpr (.readFormula hcandidate)) hsteps hfind
  have hfilled : (schema.fill m.bindings).Obtained := .fill (.readFormula hschema) hbound
  have hterm : (Expr.successor 2 .zero).IsTerm := .successor (by decide) rfl .zero
  obtain ⟨hshape, hsubstitute, hfill⟩ := operations_keep_shape
  refine ⟨schema, c, m, hschema, hcandidate, hsteps, hy, hbound "y" _ hy, hfilled, hbinder, hchain,
    (hshape _).mp hfilled, fun hnested => ?_, hs, hterm, hsubstitute schema _ "y" hs hterm, hsorted,
    hfill schema m.bindings hs hsorted⟩
  have hroot := ((hshape _).mp hnested [] _ rfl).chain 1 (.successor 2 .zero) rfl
  exact absurd hroot.2 (by decide)

end Expr

end PeanoCalculus
