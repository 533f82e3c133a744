import PeanoCalculus.Expr.Substitution
import PeanoCalculus.Proofs.Expr.Variables

/-! # Substitution and filling keep trees well-formed

    Putting a term for a variable, or filling the leaves of a schema with formulas and terms of
    the right kind, gives a formula again.  The only delicate form is a chain of primes: what is
    put under it may be primed itself, and `Expr.primed` merges the two chains.  How such a merged
    chain is taken apart again is `primed_eq_successor_iff`.

    Two substitutions commute as long as the one that is made first captures nothing.

    What is put for a free variable can be found again among the terms that occur in the result. -/

namespace PeanoCalculus

namespace Bindings

/-- The last binding of a name counts. -/
theorem find?_insert (b : Bindings) (x y : String) (e : Expr) :
    (b.insert x e).find? y = if y = x then some e else b.find? y := by
  unfold find? insert
  induction b.entries with
  | nil =>
      by_cases hy : y = x
      · simp [hy]
      · simp [hy, List.lookup_cons, beq_false_of_ne hy]
  | cons entry rest ih =>
      by_cases hentry : entry.1 = x
      · rw [List.filter_cons_of_neg (by simpa using hentry), ih]
        by_cases hy : y = x
        · rw [if_pos hy, if_pos hy]
        · rw [if_neg hy, if_neg hy, List.lookup_cons, hentry, beq_false_of_ne hy]
      · rw [List.filter_cons_of_pos (by simpa using hentry), List.cons_append]
        by_cases heq : y = entry.1
        · have hy : ¬y = x := fun h => hentry (heq ▸ h)
          rw [if_neg hy, List.lookup_cons, List.lookup_cons, heq, beq_self_eq_true]
        · rw [List.lookup_cons, List.lookup_cons, beq_false_of_ne heq]
          exact ih

/-- Upper-case names stand for formulas, lower-case names for terms. -/
structure Sorted (b : Bindings) : Prop where
  formula : ∀ {x : String} {e : Expr}, b.find? x = some e → isName Char.isUpper x = true →
    e.IsFormula
  term : ∀ {x : String} {e : Expr}, b.find? x = some e → isName Char.isLower x = true → e.IsTerm

end Bindings

namespace Expr

/-! ## Lists of arguments -/

theorem substituteIn_eq_map (args : List Expr) (x : String) (t : Expr) :
    substituteIn args x t = args.map (·.substitute x t) := by
  induction args with
  | nil => rfl
  | cons a args ih => rw [substituteIn, ih, List.map_cons]

theorem fillIn_eq_map (slots : Bindings) (args : List Expr) :
    fillIn slots args = args.map (·.fill slots) := by
  induction args with
  | nil => rfl
  | cons a args ih => rw [fillIn, ih, List.map_cons]

/-- An application with arguments is filled argument by argument. -/
theorem fill_apply {slots : Bindings} {f : String} {args : List Expr} (h : args ≠ []) :
    (Expr.apply f args).fill slots = .apply f (args.map (·.fill slots)) := by
  cases args with
  | nil => exact absurd rfl h
  | cons a args => rw [fill, fillIn_eq_map, List.map_cons]

/-! ## Chains of primes -/

/-- When a merged chain is a given chain: the primes put on are the last of it, and what remains
    is what they were put on. -/
theorem primed_eq_successor_iff {n m : Nat} {e base : Expr} (hn : 0 < n) (he : e.Tidy)
    (hbase : base.isSuccessor = false) :
    Expr.successor m base = primed n e ↔
      n < m ∧ e = primed (m - n) base ∨ n = m ∧ e = base := by
  -- either the `n` primes are all there are, or `e` has the others
  cases hs : e.isSuccessor with
  | false =>
      rw [primed_of_not_successor hn hs, Expr.successor.injEq]
      constructor
      · rintro ⟨rfl, rfl⟩
        exact .inr ⟨rfl, rfl⟩
      · rintro (⟨hlt, rfl⟩ | ⟨rfl, rfl⟩)
        · rw [primed_of_not_successor (Nat.sub_pos_of_lt hlt) hbase] at hs
          exact nomatch hs
        · exact ⟨rfl, rfl⟩
  | true =>
      cases he with
      | @successor k core hk hcore _ =>
          rw [primed_successor hn, Expr.successor.injEq]
          constructor
          · rintro ⟨rfl, rfl⟩
            refine .inl ⟨Nat.lt_add_of_pos_left hk, ?_⟩
            rw [Nat.add_sub_cancel, primed_of_not_successor hk hbase]
          · rintro (⟨hlt, heq⟩ | ⟨rfl, rfl⟩)
            · rw [primed_of_not_successor (Nat.sub_pos_of_lt hlt) hbase] at heq
              obtain ⟨rfl, rfl⟩ := Expr.successor.inj heq
              exact ⟨(Nat.sub_add_cancel (Nat.le_of_lt hlt)).symm, rfl⟩
            · exact nomatch hbase
      | _ => exact nomatch hs

/-- Primes put on anything make a chain. -/
theorem isSuccessor_primed {n : Nat} (hn : 0 < n) (e : Expr) :
    (primed n e).isSuccessor = true := by
  cases e with
  | successor m b => rw [primed_successor hn]; rfl
  | _ => rw [primed_of_not_successor hn rfl]; rfl

/-! ## One variable -/

/-- A term put into a term gives a term. -/
theorem IsTerm.substitute {e t : Expr} (he : e.IsTerm) (x : String) (ht : t.IsTerm) :
    (e.substitute x t).IsTerm := by
  induction he with
  | zero => exact .zero
  | @var y hy =>
      rw [Expr.substitute]
      split
      · exact ht
      · exact .var hy
  | @apply f args hf hne _ ih =>
      rw [Expr.substitute, substituteIn_eq_map]
      refine .apply hf (fun h => hne (List.map_eq_nil_iff.mp h)) fun a ha => ?_
      obtain ⟨b, hb, rfl⟩ := List.mem_map.mp ha
      exact ih b hb
  | successor hn hs _ ih =>
      rw [Expr.substitute]
      exact ih.primed _
  | times _ _ ihl ihr => exact .times ihl ihr
  | plus _ _ ihl ihr => exact .plus ihl ihr

/-- A tidy tree put into a tidy tree gives a tidy tree. -/
theorem Tidy.substitute {e t : Expr} (he : e.Tidy) (x : String) (ht : t.Tidy) :
    (e.substitute x t).Tidy := by
  induction he with
  | binary _ _ ihl ihr => exact .binary ihl ihr
  | negation _ ih => exact .negation ih
  | @quantified q y e hbody ih =>
      rw [Expr.substitute]
      split
      · exact .quantified hbody
      · exact .quantified ih
  | @apply f args _ ih =>
      rw [Expr.substitute, substituteIn_eq_map]
      refine .apply fun a ha => ?_
      obtain ⟨b, hb, rfl⟩ := List.mem_map.mp ha
      exact ih b hb
  | var =>
      rw [Expr.substitute]
      split
      · exact ht
      · exact .var
  | successor _ _ _ ih =>
      rw [Expr.substitute]
      exact ih.primed _
  | zero => exact .zero

/-- A term put into a formula gives a formula. -/
theorem IsFormula.substitute {e t : Expr} (he : e.IsFormula) (x : String) (ht : t.IsTerm) :
    (e.substitute x t).IsFormula := by
  induction he with
  | equals hl hr => exact .equals (hl.substitute x ht) (hr.substitute x ht)
  | @apply p args hp hargs =>
      rw [Expr.substitute, substituteIn_eq_map]
      refine .apply hp fun a ha => ?_
      obtain ⟨b, hb, rfl⟩ := List.mem_map.mp ha
      exact (hargs b hb).substitute x ht
  | @quantified q y e hy hbody ih =>
      rw [Expr.substitute]
      split
      · exact .quantified hy hbody
      · exact .quantified hy ih
  | negation _ ih => exact .negation ih
  | and _ _ ihl ihr => exact .and ihl ihr
  | or _ _ ihl ihr => exact .or ihl ihr
  | implies _ _ ihl ihr => exact .implies ihl ihr

/-- Where `x` is not free nothing is put in. -/
theorem Tidy.substitute_of_not_hasFree {e : Expr} {x : String} (he : e.Tidy)
    (h : e.hasFree x = false) (t : Expr) : e.substitute x t = e := by
  induction he with
  | binary _ _ ihl ihr =>
      obtain ⟨hl, hr⟩ := Bool.or_eq_false_iff.mp h
      rw [Expr.substitute, ihl hl, ihr hr]
  | negation _ ih => rw [Expr.substitute, ih h]
  | @quantified q y e _ ih =>
      rw [Expr.substitute]
      split
      · rfl
      · rename_i hy
        have hbody : e.hasFree x = false := by simpa [hasFree, hy] using h
        rw [ih hbody]
  | @apply f args _ ih =>
      have hargs : args.map (·.substitute x t) = args := by
        refine (List.map_congr_left fun a ha => ih a ha ?_).trans (List.map_id' args)
        refine Bool.eq_false_iff.mpr fun hfree => ?_
        exact Bool.eq_false_iff.mp h (hasFree_apply.mpr ⟨a, ha, hfree⟩)
      rw [Expr.substitute, substituteIn_eq_map, hargs]
  | @var y =>
      have hy : ¬y = x := by simpa [hasFree] using h
      rw [Expr.substitute, if_neg hy]
  | successor hn hs _ ih => rw [Expr.substitute, ih h, primed_of_not_successor hn hs]
  | zero => rfl

/-! ## Two variables -/

mutual

/-- The terms that occur in an expression.  Of a chain of primes these are also all the shorter
    ones. -/
def terms : Expr → List Expr
  | .binary op l r =>
    (if op = .plus ∨ op = .times then [.binary op l r] else []) ++ (terms l ++ terms r)
  | .negation e => terms e
  | .quantified _ _ e => terms e
  | .apply f args => (if isName Char.isLower f then [.apply f args] else []) ++ termsIn args
  | .var x => [.var x]
  | .successor n e => (List.range n).map (fun k => e.primed (k + 1)) ++ terms e
  | .zero => [.zero]

/-- The terms that occur in any of a list of arguments. -/
def termsIn : List Expr → List Expr
  | [] => []
  | a :: args => terms a ++ termsIn args

end

theorem mem_termsIn {t : Expr} {args : List Expr} :
    t ∈ termsIn args ↔ ∃ a ∈ args, t ∈ a.terms := by
  induction args with
  | nil => simp [termsIn]
  | cons a args ih => simp [termsIn, ih]

/-- A term occurs in itself. -/
theorem IsTerm.mem_terms {t : Expr} (ht : t.IsTerm) : t ∈ t.terms := by
  cases ht with
  | zero => exact List.mem_singleton_self _
  | var _ => exact List.mem_singleton_self _
  | apply hf _ _ =>
      rw [terms, if_pos hf]
      exact List.mem_cons_self
  | @successor n e hn hs _ =>
      refine List.mem_append_left _ (List.mem_map.mpr ⟨n - 1, ?_, ?_⟩)
      · exact List.mem_range.mpr (Nat.sub_one_lt_of_lt hn)
      · rw [Nat.sub_add_cancel hn, primed_of_not_successor hn hs]
  | times _ _ => exact List.mem_cons_self
  | plus _ _ => exact List.mem_cons_self

/-- What occurs in an expression occurs also under primes. -/
theorem mem_terms_primed {t e : Expr} (h : t ∈ e.terms) (n : Nat) : t ∈ (e.primed n).terms := by
  rcases Nat.eq_zero_or_pos n with rfl | hn
  · exact h
  · cases e with
    | successor m b =>
        rw [primed_successor hn, terms]
        refine List.append_subset.mpr ⟨?_, List.subset_append_right _ _⟩ h
        exact fun _ hk => List.mem_append_left _
          (List.map_subset _ (List.range_subset.mpr (Nat.le_add_right m n)) hk)
    | _ =>
        rw [primed_of_not_successor hn rfl, terms]
        exact List.mem_append_right _ h

/-- What is put for a free variable occurs in the result. -/
theorem mem_terms_substitute {e t : Expr} {x : String} (ht : t.IsTerm)
    (hfree : e.hasFree x = true) : t ∈ (e.substitute x t).terms := by
  induction e with
  | binary op l r ihl ihr =>
      refine List.mem_append_right _ (List.mem_append.mpr ?_)
      exact (Bool.or_eq_true_iff.mp hfree).imp ihl ihr
  | negation e ih => exact ih hfree
  | quantified q y e ih =>
      obtain ⟨hy, hbody⟩ := hasFree_quantified.mp hfree
      rw [Expr.substitute, if_neg hy]
      exact ih hbody
  | apply f args ih =>
      obtain ⟨a, ha, hfree⟩ := hasFree_apply.mp hfree
      rw [Expr.substitute, substituteIn_eq_map]
      refine List.mem_append_right _ (mem_termsIn.mpr ⟨_, List.mem_map_of_mem ha, ?_⟩)
      exact ih a ha hfree
  | var y =>
      have hy : y = x := by simpa [hasFree] using hfree
      rw [Expr.substitute, if_pos hy]
      exact ht.mem_terms
  | successor n e ih =>
      rw [Expr.substitute]
      exact mem_terms_primed (ih hfree) n
  | zero => exact absurd hfree Bool.false_ne_true

/-- From a binary symbol itself, if it makes terms, and from both sides only terms are collected. -/
theorem isTerm_of_mem_binary {op : Operator} {l r : Expr}
    (hself : op = .plus ∨ op = .times → (Expr.binary op l r).IsTerm)
    (hl : ∀ t ∈ l.terms, t.IsTerm) (hr : ∀ t ∈ r.terms, t.IsTerm) :
    ∀ t ∈ (Expr.binary op l r).terms, t.IsTerm := by
  refine List.forall_mem_append.mpr ⟨?_, List.forall_mem_append.mpr ⟨hl, hr⟩⟩
  split
  · rename_i hop
    exact List.forall_mem_singleton.mpr (hself hop)
  · exact List.forall_mem_nil _

theorem IsTerm.of_mem_terms {e : Expr} (he : e.IsTerm) : ∀ t ∈ e.terms, t.IsTerm := by
  induction he with
  | zero => exact List.forall_mem_singleton.mpr .zero
  | var hy => exact List.forall_mem_singleton.mpr (.var hy)
  | @apply f args hf hne hargs ih =>
      rw [terms, if_pos hf]
      refine List.forall_mem_append.mpr ⟨List.forall_mem_singleton.mpr (.apply hf hne hargs), ?_⟩
      intro t ht
      obtain ⟨a, ha, ht⟩ := mem_termsIn.mp ht
      exact ih a ha t ht
  | successor _ _ he ih =>
      refine List.forall_mem_append.mpr ⟨?_, ih⟩
      exact List.forall_mem_map.mpr fun k _ => he.primed (k + 1)
  | times hl hr ihl ihr => exact isTerm_of_mem_binary (fun _ => .times hl hr) ihl ihr
  | plus hl hr ihl ihr => exact isTerm_of_mem_binary (fun _ => .plus hl hr) ihl ihr

/-- Only terms are collected from a formula. -/
theorem IsFormula.of_mem_terms {e : Expr} (he : e.IsFormula) : ∀ t ∈ e.terms, t.IsTerm := by
  induction he with
  | equals hl hr =>
      exact isTerm_of_mem_binary (fun h => absurd h (by decide)) hl.of_mem_terms hr.of_mem_terms
  | @apply p args hp hargs =>
      have hlower : ¬isName Char.isLower p = true := by
        intro hlower
        rw [not_isUpper_name hlower] at hp
        exact nomatch hp
      rw [terms, if_neg hlower]
      intro t ht
      obtain ⟨a, ha, ht⟩ := mem_termsIn.mp ht
      exact (hargs a ha).of_mem_terms t ht
  | quantified _ _ ih => exact ih
  | negation _ ih => exact ih
  | and _ _ ihl ihr => exact isTerm_of_mem_binary (fun h => absurd h (by decide)) ihl ihr
  | or _ _ ihl ihr => exact isTerm_of_mem_binary (fun h => absurd h (by decide)) ihl ihr
  | implies _ _ ihl ihr => exact isTerm_of_mem_binary (fun h => absurd h (by decide)) ihl ihr

/-! ## All named leaves -/

/-- Terms for the variables of a term give a term. -/
theorem IsTerm.fill {e : Expr} {slots : Bindings} (he : e.IsTerm) (hslots : slots.Sorted) :
    (e.fill slots).IsTerm := by
  induction he with
  | zero => exact .zero
  | @var x hx =>
      rw [Expr.fill]
      cases hfind : slots.find? x with
      | none => exact .var hx
      | some t => exact hslots.term hfind hx
  | @apply f args hf hne _ ih =>
      rw [fill_apply hne]
      refine .apply hf (fun h => hne (List.map_eq_nil_iff.mp h)) fun a ha => ?_
      obtain ⟨b, hb, rfl⟩ := List.mem_map.mp ha
      exact ih b hb
  | successor hn hs _ ih =>
      rw [Expr.fill]
      exact ih.primed _
  | times _ _ ihl ihr => exact .times ihl ihr
  | plus _ _ ihl ihr => exact .plus ihl ihr

/-- Tidy trees for the leaves of a tidy tree give a tidy tree. -/
theorem Tidy.fill {e : Expr} {slots : Bindings} (he : e.Tidy)
    (hslots : ∀ x v, slots.find? x = some v → v.Tidy) : (e.fill slots).Tidy := by
  have hleaf : ∀ {x : String} {e : Expr}, e.Tidy → ((slots.find? x).getD e).Tidy := by
    intro x e he
    cases hfind : slots.find? x with
    | none => exact he
    | some v => exact hslots x v hfind
  induction he with
  | binary _ _ ihl ihr => exact .binary ihl ihr
  | negation _ ih => exact .negation ih
  | quantified _ ih => exact .quantified ih
  | @apply f args hargs ih =>
      cases args with
      | nil => exact hleaf (.apply hargs)
      | cons a args =>
          rw [fill_apply (List.cons_ne_nil a args)]
          refine .apply fun c hc => ?_
          obtain ⟨b, hb, rfl⟩ := List.mem_map.mp hc
          exact ih b hb
  | var => exact hleaf .var
  | successor _ _ _ ih => exact ih.primed _
  | zero => exact .zero

/-- A binder is filled with a variable. -/
theorem isName_filledBinder {x : String} {slots : Bindings} (hx : isName Char.isLower x = true)
    (hslots : slots.Sorted) : isName Char.isLower (filledBinder slots x) = true := by
  unfold filledBinder
  split
  · rename_i y hfind
    cases hslots.term hfind hx with
    | var hy => exact hy
  · exact hx

/-- Formulas for the letters and terms for the variables of a formula give a formula. -/
theorem IsFormula.fill {e : Expr} {slots : Bindings} (he : e.IsFormula) (hslots : slots.Sorted) :
    (e.fill slots).IsFormula := by
  induction he with
  | equals hl hr => exact .equals (hl.fill hslots) (hr.fill hslots)
  | @apply p args hp hargs =>
      cases args with
      | nil =>
          rw [Expr.fill]
          cases hfind : slots.find? p with
          | none => exact .apply hp hargs
          | some f => exact hslots.formula hfind hp
      | cons a args =>
          rw [fill_apply (List.cons_ne_nil a args)]
          refine .apply hp fun c hc => ?_
          obtain ⟨b, hb, rfl⟩ := List.mem_map.mp hc
          exact (hargs b hb).fill hslots
  | quantified hx _ ih => exact .quantified (isName_filledBinder hx hslots) ih
  | negation _ ih => exact .negation ih
  | and _ _ ihl ihr => exact .and ihl ihr
  | or _ _ ihl ihr => exact .or ihl ihr
  | implies _ _ ihl ihr => exact .implies ihl ihr

end Expr

end PeanoCalculus
