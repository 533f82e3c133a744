import Mathlib.Data.Finset.Basic
import Mathlib.Data.Finset.Dedup
import PeanoCalculus.Proofs.Expr.Substitution

/-! # Free variables, by the textbook

    The test whether a term is free for a variable keeps all the binders on the way to an
    occurrence and looks at them there.  A textbook looks at each quantifier as it is passed, and
    asks whether the variable is free below it at all.  `Expr.admits` is that definition, and the
    two tests are one.

    With it, the variables of a substitution are what a textbook says: those of the expression but
    for the one replaced, and, if it did occur, those of the term.  Without the test the equation
    fails, since what is captured is no longer free. -/

namespace PeanoCalculus.Expr

/-! ## The textbook's test -/

mutual

/-- The term `t` may be put for `x`, by recursion on the expression alone: below a quantifier it
    may if `x` is not free there, or else if the binder is not free in `t` and `t` may be put for
    `x` in the body. -/
def admits : Expr → String → Expr → Bool
  | .binary _ l r, x, t => l.admits x t && r.admits x t
  | .negation e, x, t => e.admits x t
  | .quantified q y e, x, t =>
    !(Expr.quantified q y e).hasFree x || (!t.hasFree y && e.admits x t)
  | .apply _ args, x, t => admitsIn args x t
  | .var _, _, _ => true
  | .successor _ e, x, t => e.admits x t
  | .zero, _, _ => true

/-- The term may be put for `x` in each argument. -/
def admitsIn : List Expr → String → Expr → Bool
  | [], _, _ => true
  | a :: args, x, t => a.admits x t && admitsIn args x t

end

theorem admitsIn_iff {args : List Expr} {x : String} {t : Expr} :
    admitsIn args x t = true ↔ ∀ a ∈ args, a.admits x t = true := by
  induction args with
  | nil => simp [admitsIn]
  | cons a args ih => simp [admitsIn, ih]

/-- The binders that are kept on the way find the same captures as the textbook's test. -/
theorem isFreeFor_iff_admits {e : Expr} {x : String} {t : Expr} :
    e.isFreeFor x t = true ↔ e.admits x t = true := by
  induction e with
  | binary op l r ihl ihr =>
      show (l.isFreeFor x t && r.isFreeFor x t) = true ↔ (l.admits x t && r.admits x t) = true
      rw [Bool.and_eq_true, Bool.and_eq_true, ihl, ihr]
  | negation e ih => exact ih
  | quantified q y e ih =>
      rw [isFreeFor_quantified, ih]
      show _ ↔ (!(Expr.quantified q y e).hasFree x || (!t.hasFree y && e.admits x t)) = true
      rw [Bool.or_eq_true, Bool.and_eq_true, Bool.not_eq_true', Bool.not_eq_true']
  | apply f args ih =>
      show freeForUnderIn x t.freeVariables [] args = true ↔ admitsIn args x t = true
      rw [freeForUnderIn_iff, admitsIn_iff]
      exact forall₂_congr ih
  | var y => simp [isFreeFor, freeForUnder, admits]
  | successor n e ih => exact ih
  | zero => exact Iff.rfl

/-- **BINDER STACKS AND THE TEXTBOOK AGREE**: a variable is found free just when it is among the
    free variables, and a term is free for a variable just when the textbook admits it. -/
theorem binder_stacks_agree (e : Expr) (x : String) :
    (e.hasFree x = true ↔ x ∈ e.freeVariables) ∧ ∀ t : Expr, e.isFreeFor x t = e.admits x t :=
  ⟨mem_freeVariables.symm, fun _ => Bool.eq_iff_iff.mpr isFreeFor_iff_admits⟩

/-! ## Free variables of a substitution -/

theorem hasFree_primed (n : Nat) (e : Expr) (y : String) :
    (primed n e).hasFree y = e.hasFree y := by
  rcases Nat.eq_zero_or_pos n with rfl | hn
  · rfl
  cases e with
  | successor m b =>
      rw [primed_successor hn]
      rfl
  | _ =>
      rw [primed_of_not_successor hn rfl]
      rfl

/-- A variable is free after a substitution if it was free and is not the one replaced, or if it
    came in with the term. -/
theorem hasFree_substitute {e t : Expr} {x y : String} (h : e.isFreeFor x t = true) :
    (e.substitute x t).hasFree y = true ↔
      e.hasFree y = true ∧ y ≠ x ∨ e.hasFree x = true ∧ t.hasFree y = true := by
  induction e with
  | binary op l r ihl ihr =>
      obtain ⟨hl, hr⟩ := Bool.and_eq_true_iff.mp h
      show ((l.substitute x t).hasFree y || (r.substitute x t).hasFree y) = true ↔ _
      rw [Bool.or_eq_true, ihl hl, ihr hr, hasFree, hasFree, Bool.or_eq_true, Bool.or_eq_true,
        or_and_right, or_and_right, or_or_or_comm]
  | negation e ih => exact ih h
  | quantified q z e ih =>
      rw [substitute]
      by_cases hzx : z = x
      · -- nothing is replaced below a binder of `x`, and `x` is not free there
        rw [if_pos hzx, hasFree_quantified, hasFree_quantified, hzx]
        constructor
        · rintro ⟨hy, hbody⟩
          exact .inl ⟨⟨hy, hbody⟩, Ne.symm hy⟩
        · rintro (⟨hy, -⟩ | ⟨⟨hx, -⟩, -⟩)
          · exact hy
          · exact absurd rfl hx
      · rw [if_neg hzx, hasFree_quantified, hasFree_quantified, hasFree_quantified,
          ih (isFreeFor_body hzx h)]
        constructor
        · rintro ⟨hzy, ⟨hbody, hy⟩ | ⟨hx, ht⟩⟩
          · exact .inl ⟨⟨hzy, hbody⟩, hy⟩
          · exact .inr ⟨⟨hzx, hx⟩, ht⟩
        · rintro (⟨⟨hzy, hbody⟩, hy⟩ | ⟨hx, ht⟩)
          · exact ⟨hzy, .inl ⟨hbody, hy⟩⟩
          · -- a variable of the term is not bound here, for then it would be captured
            refine ⟨?_, .inr ⟨hx.2, ht⟩⟩
            rintro rfl
            rcases isFreeFor_quantified.mp h with hfree | ⟨hz, -⟩
            · rw [hasFree_quantified.mpr hx] at hfree
              cases hfree
            · rw [ht] at hz
              cases hz
  | apply f args ih =>
      have hargs := freeForUnderIn_iff.mp h
      rw [substitute, substituteIn_eq_map]
      simp only [hasFree_apply]
      constructor
      · rintro ⟨_, hmem, hy⟩
        obtain ⟨a, ha, rfl⟩ := List.mem_map.mp hmem
        rcases (ih a ha (hargs a ha)).mp hy with ⟨hfree, hne⟩ | ⟨hx, ht⟩
        · exact .inl ⟨⟨a, ha, hfree⟩, hne⟩
        · exact .inr ⟨⟨a, ha, hx⟩, ht⟩
      · rintro (⟨⟨a, ha, hfree⟩, hne⟩ | ⟨⟨a, ha, hx⟩, ht⟩)
        · exact ⟨_, List.mem_map_of_mem ha, (ih a ha (hargs a ha)).mpr (.inl ⟨hfree, hne⟩)⟩
        · exact ⟨_, List.mem_map_of_mem ha, (ih a ha (hargs a ha)).mpr (.inr ⟨hx, ht⟩)⟩
  | var z =>
      rw [substitute]
      by_cases hzx : z = x
      · subst hzx
        rw [if_pos rfl]
        simp only [hasFree, decide_eq_true_eq, true_and]
        constructor
        · exact .inr
        · rintro (⟨rfl, hne⟩ | ht)
          · exact absurd rfl hne
          · exact ht
      · rw [if_neg hzx]
        simp only [hasFree, decide_eq_true_eq, hzx, false_and, or_false]
        constructor
        · rintro rfl
          exact ⟨rfl, hzx⟩
        · exact And.left
  | successor n e ih =>
      rw [substitute, hasFree_primed]
      exact ih h
  | zero => simp [substitute, hasFree]

/-- **FREE VARIABLES OF A SUBSTITUTION**: where `x` is not free nothing changes; where it is, and
    `t` is free for it, `x` gives way to the variables of `t`. -/
theorem freeVariables_of_substitution {e : Expr} (he : e.IsFormula ∨ e.IsTerm) (x : String)
    (t : Expr) :
    (x ∉ e.freeVariables → e.substitute x t = e) ∧
    (x ∈ e.freeVariables → e.isFreeFor x t = true →
      (e.substitute x t).freeVariables.toFinset =
        e.freeVariables.toFinset \ {x} ∪ t.freeVariables.toFinset) := by
  have htidy : e.Tidy := he.elim IsFormula.tidy IsTerm.tidy
  constructor
  · intro hx
    rw [mem_freeVariables, Bool.not_eq_true] at hx
    exact htidy.substitute_of_not_hasFree hx t
  · intro hx hcapture
    rw [mem_freeVariables] at hx
    ext y
    rw [Finset.mem_union, Finset.mem_sdiff, Finset.mem_singleton, List.mem_toFinset,
      List.mem_toFinset, List.mem_toFinset, mem_freeVariables, mem_freeVariables,
      mem_freeVariables, hasFree_substitute hcapture]
    exact or_congr Iff.rfl (and_iff_right hx)

/-- The variable replaced is also bound elsewhere, the term shares a variable with the formula, and a
    chain of primes is put on the term's own; of the binder `z` nothing is replaced. -/
theorem freeVariables_of_substitution_shared :
    ∃ e t : Expr,
      e = and (all "z" (equals (.successor 2 (.var "x")) (plus (.var "y") (.var "z"))))
        (ex "x" (equals (.var "x") (.var "w"))) ∧
      t = .successor 1 (plus (.var "y") (.var "u")) ∧
      "x" ∈ e.freeVariables ∧ e.isFreeFor "x" t = true ∧
      (e.substitute "x" t).freeVariables.toFinset =
        e.freeVariables.toFinset \ {"x"} ∪ t.freeVariables.toFinset ∧
      (e.substitute "x" t).freeVariables = ["u", "w", "y"] ∧
      "z" ∉ e.freeVariables ∧ e.substitute "z" t = e := by
  have hx : (Expr.var "x").IsTerm := .var (by decide)
  have hleft : (equals (.successor 2 (.var "x")) (plus (.var "y") (.var "z"))).IsFormula :=
    .equals (hx.primed 2) (.plus (.var (by decide)) (.var (by decide)))
  have hright : (equals (.var "x") (.var "w")).IsFormula := .equals hx (.var (by decide))
  have he := IsFormula.and (.quantified (q := .universal) (x := "z") (by decide) hleft)
    (.quantified (q := .existential) (x := "x") (by decide) hright)
  have hmem : "x" ∈ (and (all "z" (equals (.successor 2 (.var "x")) (plus (.var "y") (.var "z"))))
      (ex "x" (equals (.var "x") (.var "w")))).freeVariables := by decide +kernel
  have hbound : "z" ∉ (and (all "z" (equals (.successor 2 (.var "x"))
      (plus (.var "y") (.var "z")))) (ex "x" (equals (.var "x") (.var "w")))).freeVariables := by
    decide +kernel
  have hcapture : (and (all "z" (equals (.successor 2 (.var "x")) (plus (.var "y") (.var "z"))))
      (ex "x" (equals (.var "x") (.var "w")))).isFreeFor "x"
        (.successor 1 (plus (.var "y") (.var "u"))) = true := by decide +kernel
  exact ⟨_, _, rfl, rfl, hmem, hcapture,
    (freeVariables_of_substitution (.inl he) "x" _).2 hmem hcapture, by decide +kernel, hbound,
    (freeVariables_of_substitution (.inl he) "z" _).1 hbound⟩

end PeanoCalculus.Expr
