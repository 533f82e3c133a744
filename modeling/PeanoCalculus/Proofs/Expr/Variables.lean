import PeanoCalculus.Expr.Variables
import PeanoCalculus.Proofs.Expr.WellFormed

/-! # Free variables, compositionally

    `Expr.freeVariables` and `Expr.isFreeFor` carry the binders passed on the way down.  Proofs by
    induction want the textbook form, which says what holds of a tree from what holds of its
    parts.  Two facts take the binders out:

    * a name is listed as free under binders when it is free and none of them;
    * `x` is uncaptured under binders when it is uncaptured without them, and no binder is a
      captive if `x` occurs at all.

    From these, `freeVariables` lists what `hasFree` finds, and a term is free for `x` in a
    quantified formula when `x` is not free there, or the binder is not in the term and the term
    is free for `x` in the body. -/

namespace PeanoCalculus

theorem mem_insertName {x y : String} {names : List String} :
    x ∈ insertName y names ↔ x = y ∨ x ∈ names := by
  induction names with
  | nil => simp [insertName]
  | cons z zs ih =>
      unfold insertName
      split
      · simp
      · split
        · rename_i heq
          simp [heq]
        · simp only [List.mem_cons, ih]
          exact or_left_comm

theorem mem_foldr_insertName {x : String} {names : List String} :
    x ∈ names.foldr insertName [] ↔ x ∈ names := by
  induction names with
  | nil => rfl
  | cons y ys ih => rw [List.foldr_cons, mem_insertName, ih, List.mem_cons]

namespace Expr

/-! ## Lists of arguments -/

theorem hasFreeIn_iff {x : String} {args : List Expr} :
    hasFreeIn x args = true ↔ ∃ a ∈ args, a.hasFree x = true := by
  induction args with
  | nil => simp [hasFreeIn]
  | cons a args ih => simp [hasFreeIn, ih]

theorem mem_freeOccurrencesIn {x : String} {binders : List String} {args : List Expr} :
    x ∈ freeOccurrencesIn binders args ↔ ∃ a ∈ args, x ∈ a.freeOccurrences binders := by
  induction args with
  | nil => simp [freeOccurrencesIn]
  | cons a args ih => simp [freeOccurrencesIn, ih]

theorem freeForUnderIn_iff {x : String} {captives binders : List String} {args : List Expr} :
    freeForUnderIn x captives binders args = true ↔
      ∀ a ∈ args, a.freeForUnder x captives binders = true := by
  induction args with
  | nil => simp [freeForUnderIn]
  | cons a args ih => simp [freeForUnderIn, ih]

/-! ## Free variables -/

theorem hasFree_apply {x f : String} {args : List Expr} :
    (Expr.apply f args).hasFree x = true ↔ ∃ a ∈ args, a.hasFree x = true :=
  hasFreeIn_iff

theorem hasFree_quantified {x y : String} {q : Quantifier} {e : Expr} :
    (Expr.quantified q y e).hasFree x = true ↔ y ≠ x ∧ e.hasFree x = true := by
  simp [hasFree]

/-- What is listed below binders is free and none of them. -/
theorem mem_freeOccurrences {x : String} {e : Expr} {binders : List String} :
    x ∈ e.freeOccurrences binders ↔ e.hasFree x = true ∧ x ∉ binders := by
  induction e generalizing binders with
  | binary op l r ihl ihr => simp [freeOccurrences, hasFree, ihl, ihr, or_and_right]
  | negation e ih => exact ih
  | quantified q y e ih =>
      rw [freeOccurrences, ih, hasFree_quantified, List.mem_cons, not_or, ne_comm]
      exact ⟨fun ⟨he, hy, hb⟩ => ⟨⟨hy, he⟩, hb⟩, fun ⟨⟨hy, he⟩, hb⟩ => ⟨he, hy, hb⟩⟩
  | apply f args ih =>
      rw [freeOccurrences, mem_freeOccurrencesIn, hasFree_apply]
      constructor
      · rintro ⟨a, ha, hx⟩
        obtain ⟨hfree, hb⟩ := (ih a ha).mp hx
        exact ⟨⟨a, ha, hfree⟩, hb⟩
      · rintro ⟨⟨a, ha, hfree⟩, hb⟩
        exact ⟨a, ha, (ih a ha).mpr ⟨hfree, hb⟩⟩
  | var y =>
      by_cases hxy : x = y
      · subst hxy
        by_cases hb : x ∈ binders <;> simp [freeOccurrences, hasFree, hb]
      · by_cases hb : y ∈ binders <;> simp [freeOccurrences, hasFree, hb, hxy, Ne.symm hxy]
  | successor n e ih => exact ih
  | zero => simp [freeOccurrences, hasFree]

/-- `freeVariables` lists the variables that occur free. -/
theorem mem_freeVariables {x : String} {e : Expr} :
    x ∈ e.freeVariables ↔ e.hasFree x = true := by
  rw [freeVariables, mem_foldr_insertName, mem_freeOccurrences]
  exact and_iff_left (List.not_mem_nil)

/-! ## Capture -/

/-- Where `x` does not occur nothing is captured. -/
theorem freeForUnder_of_not_hasFree {x : String} {e : Expr} {captives binders : List String}
    (h : e.hasFree x = false) : e.freeForUnder x captives binders = true := by
  induction e generalizing binders with
  | binary op l r ihl ihr =>
      obtain ⟨hl, hr⟩ := Bool.or_eq_false_iff.mp h
      exact Bool.and_eq_true_iff.mpr ⟨ihl hl, ihr hr⟩
  | negation e ih => exact ih h
  | quantified q y e ih =>
      by_cases hy : y = x
      · simp [freeForUnder, hy]
      · have he : e.hasFree x = false := by simpa [hasFree, hy] using h
        simp [freeForUnder, ih he]
  | apply f args ih =>
      refine freeForUnderIn_iff.mpr fun a ha => ih a ha ?_
      refine Bool.eq_false_iff.mpr fun hfree => ?_
      exact Bool.eq_false_iff.mp h (hasFree_apply.mpr ⟨a, ha, hfree⟩)
  | var y =>
      have hy : ¬y = x := by simpa [hasFree] using h
      simp [freeForUnder, hy]
  | successor n e ih => exact ih h
  | zero => rfl

/-- Binders passed on the way matter only if `x` occurs below them. -/
theorem freeForUnder_iff {x : String} {e : Expr} {captives binders : List String} :
    e.freeForUnder x captives binders = true ↔
      e.freeForUnder x captives [] = true ∧
        (e.hasFree x = true → ∀ y ∈ binders, y ∉ captives) := by
  induction e generalizing binders with
  | binary op l r ihl ihr =>
      simp only [freeForUnder, Bool.and_eq_true, hasFree, Bool.or_eq_true, or_imp]
      rw [ihl, ihr]
      exact and_and_and_comm
  | negation e ih => exact ih
  | quantified q y e ih =>
      by_cases hy : y = x
      · simp [freeForUnder, hasFree, hy]
      · -- both sides see the binder `y`; it is one more name that must not be a captive
        simp only [freeForUnder, hasFree, hy, decide_false, Bool.false_or, ne_eq,
          not_false_eq_true, decide_true, Bool.true_and]
        rw [ih, @ih [y]]
        constructor
        · rintro ⟨hnone, hall⟩
          exact ⟨⟨hnone, fun he z hz => hall he z (List.mem_cons.mpr
            (.inl (List.mem_singleton.mp hz)))⟩,
            fun he z hz => hall he z (List.mem_cons_of_mem y hz)⟩
        · rintro ⟨⟨hnone, hone⟩, hall⟩
          refine ⟨hnone, fun he z hz => ?_⟩
          rcases List.mem_cons.mp hz with heq | hmem
          · exact hone he z (List.mem_singleton.mpr heq)
          · exact hall he z hmem
  | apply f args ih =>
      simp only [freeForUnder, freeForUnderIn_iff, hasFree_apply]
      constructor
      · intro h
        refine ⟨fun a ha => ((ih a ha).mp (h a ha)).1, ?_⟩
        rintro ⟨a, ha, hfree⟩
        exact ((ih a ha).mp (h a ha)).2 hfree
      · rintro ⟨hnone, hall⟩ a ha
        exact (ih a ha).mpr ⟨hnone a ha, fun hfree => hall ⟨a, ha, hfree⟩⟩
  | var y => by_cases hy : y = x <;> simp [freeForUnder, hasFree, hy]
  | successor n e ih => exact ih
  | zero => simp [freeForUnder, hasFree]

/-- **CAPTURE AT A QUANTIFIER**: a term is free for `x` in a quantified formula when `x` is not
    free there, or when the binder is not free in the term and the term is free for `x` below. -/
theorem isFreeFor_quantified {x y : String} {q : Quantifier} {e t : Expr} :
    (Expr.quantified q y e).isFreeFor x t = true ↔
      (Expr.quantified q y e).hasFree x = false ∨
        t.hasFree y = false ∧ e.isFreeFor x t = true := by
  by_cases hy : y = x
  · -- `x` is bound by the quantifier itself
    simp [isFreeFor, freeForUnder, hasFree, hy]
  · have hbody : (Expr.quantified q y e).hasFree x = e.hasFree x := by simp [hasFree, hy]
    have hbelow : (Expr.quantified q y e).isFreeFor x t = e.freeForUnder x t.freeVariables [y] := by
      simp [isFreeFor, freeForUnder, hy]
    rw [hbody, hbelow, freeForUnder_iff]
    constructor
    · rintro ⟨hnone, hone⟩
      cases hfree : e.hasFree x with
      | false => exact .inl rfl
      | true =>
          have hyt := hone hfree y (List.mem_singleton_self y)
          rw [mem_freeVariables, Bool.not_eq_true] at hyt
          exact .inr ⟨hyt, hnone⟩
    · rintro (hfree | ⟨hyt, hnone⟩)
      · exact ⟨freeForUnder_of_not_hasFree hfree,
          fun h => absurd h (Bool.eq_false_iff.mp hfree)⟩
      · refine ⟨hnone, fun _ z hz => ?_⟩
        rw [List.mem_singleton.mp hz, mem_freeVariables, hyt]
        exact Bool.false_ne_true

/-- Below a binder other than `x` a term stays free for `x`. -/
theorem isFreeFor_body {x y : String} {q : Quantifier} {e t : Expr} (hy : ¬y = x)
    (h : (Expr.quantified q y e).isFreeFor x t = true) : e.isFreeFor x t = true := by
  rcases isFreeFor_quantified.mp h with hfree | ⟨-, hbelow⟩
  · refine freeForUnder_of_not_hasFree (Bool.eq_false_iff.mpr fun hbody => ?_)
    exact Bool.eq_false_iff.mp hfree (hasFree_quantified.mpr ⟨hy, hbody⟩)
  · exact hbelow

end Expr

end PeanoCalculus
