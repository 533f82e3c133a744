import PeanoCalculus.Proofs.Matching.Meeting

/-! # Matching a substitution is exact

    In substitution mode only the free occurrences of `x` demand anything, each of them the part
    of the candidate at its place.  Hence:

    * the candidate is the formula with `t` put for `x` exactly when the shapes agree and every
      demand is for `t`;
    * `t` is free for `x` exactly when no demand lies below a binder that is free in `t`.

    Together with what meeting the demands does to the state of a match, this says what the
    quantifier schemas accept: `matchSubstitution` succeeds without a capture exactly when the
    candidate is a capture-free instance.  Where `x` is free there is a demand, so the term is the
    only one and `x` is bound to it; a capture that is noted names this term. -/

namespace PeanoCalculus

open PeanoCalculus.Grammar

/-- Binders, each paired with itself. -/
def diagonal (binders : List String) : List (String × String) :=
  binders.map fun y => (y, y)

theorem lookup_diagonal (binders : List String) (y : String) :
    (diagonal binders).lookup y = if y ∈ binders then some y else none := by
  induction binders with
  | nil => rfl
  | cons z zs ih =>
      show List.lookup y ((z, z) :: diagonal zs) = _
      rw [List.lookup_cons]
      by_cases hyz : y = z
      · subst hyz
        simp
      · simp [beq_false_of_ne hyz, hyz, ih]

theorem mem_diagonal {binders : List String} {p : String × String} :
    p ∈ diagonal binders ↔ p.1 ∈ binders ∧ p.2 = p.1 := by
  unfold diagonal
  constructor
  · intro h
    obtain ⟨y, hy, rfl⟩ := List.mem_map.mp h
    exact ⟨hy, rfl⟩
  · rintro ⟨h, heq⟩
    exact List.mem_map.mpr ⟨p.1, h, Prod.ext rfl heq.symm⟩

namespace Expr

/-! ## Substitution below binders -/

/-- Put `t` for the occurrences of `x` that are free below the given binders. -/
def substituteBelow (binders : List String) (e : Expr) (x : String) (t : Expr) : Expr :=
  if x ∈ binders then e else e.substitute x t

section Below

variable {binders : List String} {x : String} {t : Expr}

theorem substituteBelow_binary (op : Operator) (l r : Expr) :
    (Expr.binary op l r).substituteBelow binders x t =
      .binary op (l.substituteBelow binders x t) (r.substituteBelow binders x t) := by
  unfold substituteBelow
  split <;> rfl

theorem substituteBelow_negation (e : Expr) :
    (Expr.negation e).substituteBelow binders x t = .negation (e.substituteBelow binders x t) := by
  unfold substituteBelow
  split <;> rfl

/-- A quantifier is one more binder. -/
theorem substituteBelow_quantified (q : Quantifier) (y : String) (e : Expr) :
    (Expr.quantified q y e).substituteBelow binders x t =
      .quantified q y (e.substituteBelow (y :: binders) x t) := by
  unfold substituteBelow
  by_cases hx : x ∈ binders
  · rw [if_pos hx, if_pos (List.mem_cons_of_mem y hx)]
  · rw [if_neg hx, substitute]
    by_cases hy : y = x
    · rw [if_pos hy, if_pos (List.mem_cons.mpr (.inl hy.symm))]
    · have hcons : x ∉ y :: binders := by simpa [Ne.symm hy] using hx
      rw [if_neg hy, if_neg hcons]

theorem substituteBelow_apply (f : String) (args : List Expr) :
    (Expr.apply f args).substituteBelow binders x t =
      .apply f (args.map (·.substituteBelow binders x t)) := by
  unfold substituteBelow
  split
  · rw [List.map_id']
  · rw [substitute, substituteIn_eq_map]

theorem substituteBelow_successor {n : Nat} {e : Expr} (hn : 0 < n) (he : e.isSuccessor = false) :
    (Expr.successor n e).substituteBelow binders x t =
      primed n (e.substituteBelow binders x t) := by
  unfold substituteBelow
  split
  · rw [primed_of_not_successor hn he]
  · rfl

theorem Tidy.substituteBelow {e : Expr} (he : e.Tidy) (ht : t.Tidy) :
    (e.substituteBelow binders x t).Tidy := by
  unfold Expr.substituteBelow
  split
  · exact he
  · exact he.substitute x ht

end Below

end Expr

open PeanoCalculus.Expr

/-! ## The demands of a substitution -/

theorem takesLetter_substitution {x f : String} {args : List Expr} :
    ¬(args = [] ∧ (MatchMode.substitution x).takesLetter f = true) :=
  fun h => nomatch h.2

theorem takesVariable_self (x : String) : (MatchMode.substitution x).takesVariable x = true :=
  decide_eq_true rfl

theorem takesVariable_other {x y : String} (h : ¬y = x) :
    (MatchMode.substitution x).takesVariable y = false :=
  decide_eq_false h

theorem allDemands_binder_substitution {P : Demand → Prop} {x y z : String}
    {scope : List (String × String)} :
    AllDemands P (binderDemands (.substitution x) y z scope) ↔ y = z := by
  simp [binderDemands]

theorem substituteBelow_var_bound {binders : List String} {x y : String} {t : Expr}
    (hy : y ∈ binders) : (Expr.var y).substituteBelow binders x t = .var y := by
  unfold substituteBelow
  split
  · rfl
  · rename_i hx
    have hne : ¬y = x := fun heq => hx (heq ▸ hy)
    exact if_neg hne

/-- The candidate is the substitution when every free occurrence of `x` demands `t`. -/
theorem pins_substituteBelow {x : String} {t e : Expr} (he : e.Tidy) (ht : t.Tidy)
    (binders : List String) :
    Pins (·.value = t) (.substitution x) (diagonal binders) e
      (e.substituteBelow binders x t) := by
  induction he generalizing binders with
  | binary _ _ ihl ihr =>
      rw [substituteBelow_binary]
      exact .binary (ihl binders) (ihr binders)
  | negation _ ih =>
      rw [substituteBelow_negation]
      exact .negation (ih binders)
  | @quantified q y e _ ih =>
      rw [substituteBelow_quantified]
      refine .quantified (fun z => ?_) (ih (y :: binders))
      rw [allDemands_binder_substitution, eq_comm]
  | apply _ ih =>
      rw [substituteBelow_apply]
      exact .apply takesLetter_substitution (fun a ha => ih a ha binders)
  | @var y =>
      intro c _
      by_cases hy : y ∈ binders
      · have hlookup : (diagonal binders).lookup y = some y := by rw [lookup_diagonal, if_pos hy]
        rw [substituteBelow_var_bound hy, allDemands_var_bound hlookup]
      · have hlookup : (diagonal binders).lookup y = none := by rw [lookup_diagonal, if_neg hy]
        by_cases hyx : y = x
        · subst hyx
          have hput : (Expr.var y).substituteBelow binders y t = t := by
            simp [substituteBelow, hy, substitute]
          rw [hput, allDemands_var_free hlookup (takesVariable_self y)]
        · have hsame : (Expr.var y).substituteBelow binders x t = .var y := by
            simp [substituteBelow, substitute, hyx]
          rw [hsame, allDemands_var_other hlookup (takesVariable_other hyx)]
  | successor hn hs he ih =>
      rw [substituteBelow_successor hn hs]
      exact .successor hn (he.substituteBelow ht) (ih binders)
  | zero =>
      intro c _
      have hsame : Expr.zero.substituteBelow binders x t = .zero := by
        unfold substituteBelow
        split <;> rfl
      rw [hsame, allDemands_zero]

/-- No demand is captured when `t` is free for `x` below the binders. -/
theorem uncaptured_iff_freeForUnder {P : Demand → Prop} {x : String} {t e c : Expr}
    {binders : List String}
    (h : AllDemands P (demands (.substitution x) e c (diagonal binders))) :
    AllDemands (fun d => ∀ p ∈ d.scope, t.hasFree p.2 = false)
        (demands (.substitution x) e c (diagonal binders)) ↔
      x ∈ binders ∨ e.freeForUnder x t.freeVariables binders = true := by
  induction e generalizing c binders with
  | binary op l r ihl ihr =>
      obtain ⟨l', r', rfl, hl, hr⟩ := allDemands_binary.mp h
      rw [demands, if_pos rfl, allDemands_join, ihl hl, ihr hr, freeForUnder, Bool.and_eq_true]
      exact or_and_left.symm
  | negation e ih =>
      obtain ⟨e', rfl, hbody⟩ := allDemands_negation.mp h
      rw [demands]
      exact ih hbody
  | quantified q y e ih =>
      obtain ⟨_, e', rfl, hbinder, hbody⟩ := allDemands_quantified.mp h
      obtain rfl := allDemands_binder_substitution.mp hbinder
      have hbelow := @ih e' (y :: binders) hbody
      rw [demands, if_pos rfl, allDemands_join, allDemands_binder_substitution]
      refine (and_iff_right rfl).trans (hbelow.trans ?_)
      rw [freeForUnder, Bool.or_eq_true, decide_eq_true_eq, List.mem_cons, or_assoc, eq_comm]
      exact or_left_comm
  | apply f args ih =>
      obtain ⟨cs, rfl, hcs⟩ := (allDemands_apply takesLetter_substitution).mp h
      rw [allDemands_apply takesLetter_substitution, freeForUnder, freeForUnderIn_iff]
      have hargs := hcs.arguments_iff fun a ha => ih a ha
      constructor
      · rintro ⟨_, heq, hd⟩
        cases heq
        by_cases hx : x ∈ binders
        · exact .inl hx
        · exact .inr fun a ha => (hargs.mp hd a ha).resolve_left hx
      · intro hfree
        exact ⟨cs, rfl, hargs.mpr fun a ha => hfree.imp id fun hall => hall a ha⟩
  | var y =>
      by_cases hy : y ∈ binders
      · have hlookup : (diagonal binders).lookup y = some y := by rw [lookup_diagonal, if_pos hy]
        refine iff_of_true ((allDemands_var_bound hlookup).mpr
          ((allDemands_var_bound hlookup).mp h)) ?_
        by_cases hyx : y = x
        · exact .inl (hyx ▸ hy)
        · exact .inr (by simp [freeForUnder, hyx])
      · have hlookup : (diagonal binders).lookup y = none := by rw [lookup_diagonal, if_neg hy]
        by_cases hyx : y = x
        · -- the one kind of leaf that demands something, below all the binders
          subst hyx
          rw [allDemands_var_free hlookup (takesVariable_self y), or_iff_right hy]
          simp only [freeForUnder, ne_eq, not_true_eq_false, decide_false, Bool.false_or,
            Bool.not_eq_true', List.any_eq_false, List.contains_iff_mem, mem_freeVariables,
            Bool.not_eq_true]
          constructor
          · intro hall z hz
            exact hall (z, z) (mem_diagonal.mpr ⟨hz, rfl⟩)
          · intro hall p hp
            obtain ⟨hmem, heq⟩ := mem_diagonal.mp hp
            rw [heq]
            exact hall p.1 hmem
        · have hother := takesVariable_other hyx
          exact iff_of_true ((allDemands_var_other hlookup hother).mpr
            ((allDemands_var_other hlookup hother).mp h)) (.inr (by simp [freeForUnder, hyx]))
  | successor n e ih =>
      obtain ⟨m, base, rfl, hrest⟩ := allDemands_successor.mp h
      rw [demands]
      rcases hrest with ⟨hlt, hrest⟩ | ⟨rfl, hrest⟩
      · rw [if_pos hlt]
        exact ih hrest
      · rw [if_neg (Nat.lt_irrefl n), if_pos rfl]
        exact ih hrest
  | zero =>
      exact iff_of_true (allDemands_zero.mpr (allDemands_zero.mp h)) (.inr rfl)

/-- All demands are demands of `x`. -/
theorem names_substitution {P : Demand → Prop} {x : String} {e c : Expr}
    {scope : List (String × String)} (h : AllDemands P (demands (.substitution x) e c scope)) :
    AllDemands (·.name = x) (demands (.substitution x) e c scope) :=
  h.of_leaves (fun _ _ _ hletter => nomatch hletter) (fun _ _ _ hvar => of_decide_eq_true hvar)
    (fun _ _ _ hmode => nomatch hmode)

/-! ## Exactness -/

section Exactness

variable {f c t : Expr} {x : String} {m : Match}

/-- The candidate is the formula with `t` put for `x` when every demand is for `t`. -/
theorem substitute_iff_demands (hf : f.IsFormula) (hc : c.IsFormula) (ht : t.IsTerm) :
    c = f.substitute x t ↔
      AllDemands (·.value = t) (demands (.substitution x) f c (diagonal [])) :=
  pins_substituteBelow hf.tidy ht.tidy [] c hc.tidy

/-- A match compares the trees and meets their demands. -/
theorem matchSubstitution_eq_some :
    matchSubstitution f c x = some m ↔
      ∃ ds, demands (.substitution x) f c (diagonal []) = some ds ∧
        ({} : Match).meetAll (.substitution x) ds = some m := by
  rw [matchSubstitution, Match.extend_eq_demands]
  exact Option.bind_eq_some_iff

/-- **ONLY INSTANCES MATCH**: a candidate that matches is the formula with some term for `x`. -/
theorem exists_substitute_of_match (hf : f.IsFormula) (hc : c.IsFormula)
    (hx : isName Char.isLower x = true) (h : matchSubstitution f c x = some m) :
    ∃ t : Expr, t.IsTerm ∧ c = f.substitute x t := by
  obtain ⟨ds, hds, hmeet⟩ := matchSubstitution_eq_some.mp h
  have hall : AllDemands (fun _ => True) (demands (.substitution x) f c (diagonal [])) :=
    ⟨ds, hds, fun _ _ => trivial⟩
  have hname := names_substitution hall
  have hsorted := sorted_of_isFormula hf hc hall
  rw [hds] at hname hsorted
  have hfind := (Match.meets_of_meetAll hmeet).find?_eq hsorted.forall_mem
  -- where `x` is not free nothing is demanded, and any term will do
  obtain ⟨t, hterm, hvalue⟩ : ∃ t : Expr, t.IsTerm ∧ ∀ d ∈ ds, d.value = t := by
    cases ds with
    | nil => exact ⟨.zero, .zero, List.forall_mem_nil _⟩
    | cons d₀ rest =>
        have hx₀ := hname.forall_mem d₀ List.mem_cons_self
        refine ⟨d₀.value, (hsorted.forall_mem d₀ List.mem_cons_self).isTerm (hx₀ ▸ hx), ?_⟩
        intro d hd
        have hsame := hfind d hd
        rw [hname.forall_mem d hd, ← hx₀, hfind d₀ List.mem_cons_self] at hsame
        exact (Option.some.inj hsame).symm
  exact ⟨t, hterm, (substitute_iff_demands hf hc hterm).mpr ⟨ds, hds, hvalue⟩⟩

/-- **ALL INSTANCES MATCH**, captured or not. -/
theorem matchSubstitution_substitute (hf : f.IsFormula) (ht : t.IsTerm) :
    ∃ m, matchSubstitution f (f.substitute x t) x = some m := by
  obtain ⟨ds, hds, hvalue⟩ := (substitute_iff_demands hf (hf.substitute x ht) ht).mp rfl
  have htexts : ∀ d ∈ ds, d.value.text = t.text := fun d hd => congrArg text (hvalue d hd)
  obtain ⟨m, hmeet⟩ := @Match.meetAll_of_texts (.substitution x) (fun _ => t.text) ds htexts
  exact ⟨m, matchSubstitution_eq_some.mpr ⟨ds, hds, hmeet⟩⟩

/-- **CAPTURES ARE REPORTED EXACTLY**: a match notes one when the term is not free for `x`, the
    term that it reports is the one put in, and the binder is free in that term. -/
theorem capture_of_match (hf : f.IsFormula) (ht : t.IsTerm)
    (h : matchSubstitution f (f.substitute x t) x = some m) :
    (m.capture = none ↔ f.isFreeFor x t = true) ∧
      ∀ capture, m.capture = some capture →
        capture.term = t ∧ t.hasFree capture.binder = true := by
  have hall := (substitute_iff_demands (x := x) hf (hf.substitute x ht) ht).mp rfl
  have huncaptured := uncaptured_iff_freeForUnder (t := t) hall
  obtain ⟨ds, hds, hmeet⟩ := matchSubstitution_eq_some.mp h
  rw [hds] at hall huncaptured
  have hvalue := hall.forall_mem
  constructor
  · rw [Match.meetAll_capture hmeet]
    constructor
    · rintro ⟨-, hfree⟩
      refine (huncaptured.mp ⟨ds, rfl, ?_⟩).resolve_left List.not_mem_nil
      intro d hd
      exact hvalue d hd ▸ hfree d hd
    · intro hfree
      refine ⟨rfl, ?_⟩
      intro d hd
      rw [hvalue d hd]
      exact (huncaptured.mpr (.inr hfree)).forall_mem d hd
  · intro capture hcapture
    rcases Match.captured_of_meetAll hmeet hcapture with hbefore | ⟨d, hd, hterm, hbinder⟩
    · exact nomatch hbefore
    · rw [hvalue d hd] at hterm hbinder
      exact ⟨hterm, hbinder⟩

/-- **A SUBSTITUTION IS RECOGNISED EXACTLY**: the match succeeds without a capture when the
    candidate is the formula with a term put for `x` that is free for it, and only then. -/
theorem matchSubstitution_iff (hf : f.IsFormula) (hc : c.IsFormula)
    (hx : isName Char.isLower x = true) :
    (∃ m, matchSubstitution f c x = some m ∧ m.capture = none) ↔
      ∃ t, t.IsTerm ∧ c = f.substitute x t ∧ f.isFreeFor x t = true := by
  constructor
  · rintro ⟨m, hm, hcapture⟩
    obtain ⟨t, hterm, rfl⟩ := exists_substitute_of_match hf hc hx hm
    exact ⟨t, hterm, rfl, (capture_of_match hf hterm hm).1.mp hcapture⟩
  · rintro ⟨t, hterm, rfl, hfree⟩
    obtain ⟨m, hm⟩ := matchSubstitution_substitute (x := x) hf hterm
    exact ⟨m, hm, (capture_of_match hf hterm hm).1.mpr hfree⟩

end Exactness

end PeanoCalculus
