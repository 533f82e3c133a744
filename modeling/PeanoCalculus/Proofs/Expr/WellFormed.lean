import PeanoCalculus.Expr.Substitution
import PeanoCalculus.Proofs.Text.Balanced

/-! # Well-formed expressions

    `Expr` is generous: a formula may stand in the place of a term, names are arbitrary strings,
    and a chain of primes may be empty or nested.  The trees that texts denote are fewer.  Two
    predicates single them out:

    * `IsTerm`: names are a lower-case letter and digits, a function has an argument, a chain of
      primes has a prime and stands on something unprimed;
    * `IsFormula`: predicate names are upper case, binders are variables, and terms stand where
      terms belong.

    Both are inductive, so a proof about well-formed trees has a case for each form a text can
    take and no other.  Where formulas and terms behave alike, `Tidy` is enough: every chain of
    primes has a prime and stands on something unprimed.  A proof about all trees goes by
    `Expr.induction`, whose case for an application has a hypothesis for each argument, or by
    `Expr.parts_induction` when all forms are alike. -/

namespace PeanoCalculus

/-- A letter of the given kind, then digits. -/
def isName (first : Char → Bool) (name : String) : Bool :=
  match name.toList with
  | c :: digits => first c && digits.all Char.isDigit
  | [] => false

/-- A name, character by character. -/
theorem isName_iff {first : Char → Bool} {name : String} :
    isName first name = true ↔
      ∃ c digits, name.toList = c :: digits ∧ first c = true ∧ ∀ d ∈ digits, d.isDigit = true := by
  unfold isName
  cases name.toList with
  | nil => simp
  | cons c digits =>
      constructor
      · intro h
        rw [Bool.and_eq_true, List.all_eq_true] at h
        exact ⟨c, digits, rfl, h.1, h.2⟩
      · rintro ⟨c', digits', heq, hc, hd⟩
        obtain ⟨rfl, rfl⟩ := List.cons.inj heq
        rw [Bool.and_eq_true, List.all_eq_true]
        exact ⟨hc, hd⟩

/-- A name is built from its letter and its digits. -/
theorem isName_ofList {first : Char → Bool} {c : Char} {digits : List Char}
    (hc : first c = true) (hd : ∀ d ∈ digits, d.isDigit = true) :
    isName first (String.ofList (c :: digits)) = true :=
  isName_iff.mpr ⟨c, digits, String.toList_ofList, hc, hd⟩

/-- Lower-case letters and digits are no upper-case letters. -/
theorem not_isUpper {c : Char} (h : c.isLower = true ∨ c.isDigit = true) : c.isUpper = false := by
  refine Bool.eq_false_iff.mpr fun hupper => ?_
  have hcode := Text.isUpper_iff.mp hupper
  rcases h with hlower | hdigit
  · have := Text.isLower_iff.mp hlower
    omega
  · have := Text.isDigit_iff.mp hdigit
    omega

/-- No name is both a variable and a letter. -/
theorem not_isUpper_name {name : String} (h : isName Char.isLower name = true) :
    isName Char.isUpper name = false := by
  refine Bool.eq_false_iff.mpr fun hupper => ?_
  obtain ⟨c, _, heq, hc, _⟩ := isName_iff.mp h
  obtain ⟨c', _, heq', hc', _⟩ := isName_iff.mp hupper
  rw [heq] at heq'
  obtain ⟨rfl, _⟩ := List.cons.inj heq'
  rw [not_isUpper (.inl hc)] at hc'
  exact nomatch hc'

namespace Expr

/-! ## Induction over all trees -/

/-- Induction over an expression; the arguments of an application are covered one by one. -/
@[elab_as_elim, induction_eliminator]
theorem induction {motive : Expr → Prop}
    (binary : ∀ op left right, motive left → motive right → motive (.binary op left right))
    (negation : ∀ body, motive body → motive (.negation body))
    (quantified : ∀ q binder body, motive body → motive (.quantified q binder body))
    (apply : ∀ name args, (∀ a ∈ args, motive a) → motive (.apply name args))
    (var : ∀ name, motive (.var name))
    (successor : ∀ count base, motive base → motive (.successor count base))
    (zero : motive .zero) (e : Expr) : motive e := by
  refine @Expr.rec motive (fun args => ∀ a ∈ args, motive a) binary negation quantified apply var
    successor zero ?_ ?_ e
  · intro a ha
    exact nomatch ha
  · intro a args ha hargs b hb
    rcases List.mem_cons.mp hb with heq | hmem
    · exact heq ▸ ha
    · exact hargs b hmem

/-! ## Terms and formulas -/

/-- A chain of primes. -/
def isSuccessor : Expr → Bool
  | .successor .. => true
  | _ => false

/-- The terms that a text can denote. -/
inductive IsTerm : Expr → Prop where
  | zero : IsTerm .zero
  | var {x : String} : isName Char.isLower x = true → IsTerm (.var x)
  | apply {f : String} {args : List Expr} : isName Char.isLower f = true → args ≠ [] →
      (∀ a ∈ args, IsTerm a) → IsTerm (.apply f args)
  | successor {n : Nat} {e : Expr} : 0 < n → e.isSuccessor = false → IsTerm e →
      IsTerm (.successor n e)
  | times {l r : Expr} : IsTerm l → IsTerm r → IsTerm (.times l r)
  | plus {l r : Expr} : IsTerm l → IsTerm r → IsTerm (.plus l r)

/-- The formulas that a text can denote. -/
inductive IsFormula : Expr → Prop where
  | equals {l r : Expr} : IsTerm l → IsTerm r → IsFormula (.equals l r)
  | apply {p : String} {args : List Expr} : isName Char.isUpper p = true →
      (∀ a ∈ args, IsTerm a) → IsFormula (.apply p args)
  | quantified {q : Quantifier} {x : String} {e : Expr} : isName Char.isLower x = true →
      IsFormula e → IsFormula (.quantified q x e)
  | negation {e : Expr} : IsFormula e → IsFormula (.negation e)
  | and {l r : Expr} : IsFormula l → IsFormula r → IsFormula (.and l r)
  | or {l r : Expr} : IsFormula l → IsFormula r → IsFormula (.or l r)
  | implies {l r : Expr} : IsFormula l → IsFormula r → IsFormula (.implies l r)

theorem IsFormula.letter {p : String} (hp : isName Char.isUpper p = true) :
    (Expr.letter p).IsFormula :=
  .apply hp (List.forall_mem_nil _)

/-- Every chain of primes has a prime and stands on something unprimed. -/
inductive Tidy : Expr → Prop where
  | binary {op : Operator} {l r : Expr} : Tidy l → Tidy r → Tidy (.binary op l r)
  | negation {e : Expr} : Tidy e → Tidy (.negation e)
  | quantified {q : Quantifier} {x : String} {e : Expr} : Tidy e → Tidy (.quantified q x e)
  | apply {f : String} {args : List Expr} : (∀ a ∈ args, Tidy a) → Tidy (.apply f args)
  | var {x : String} : Tidy (.var x)
  | successor {n : Nat} {e : Expr} : 0 < n → e.isSuccessor = false → Tidy e →
      Tidy (.successor n e)
  | zero : Tidy .zero

theorem IsTerm.tidy {e : Expr} (h : e.IsTerm) : e.Tidy := by
  induction h with
  | zero => exact .zero
  | var _ => exact .var
  | apply _ _ _ ih => exact .apply ih
  | successor hn hs _ ih => exact .successor hn hs ih
  | times _ _ ihl ihr => exact .binary ihl ihr
  | plus _ _ ihl ihr => exact .binary ihl ihr

theorem IsFormula.tidy {e : Expr} (h : e.IsFormula) : e.Tidy := by
  induction h with
  | equals hl hr => exact .binary hl.tidy hr.tidy
  | apply _ hargs => exact .apply fun a ha => (hargs a ha).tidy
  | quantified _ _ ih => exact .quantified ih
  | negation _ ih => exact .negation ih
  | and _ _ ihl ihr => exact .binary ihl ihr
  | or _ _ ihl ihr => exact .binary ihl ihr
  | implies _ _ ihl ihr => exact .binary ihl ihr

/-! ## Chains of primes -/

theorem primed_successor {n m : Nat} (hn : 0 < n) (e : Expr) :
    primed n (.successor m e) = .successor (m + n) e := by
  unfold primed
  rw [if_neg (Nat.ne_of_gt hn)]

theorem primed_of_not_successor {n : Nat} {e : Expr} (hn : 0 < n) (he : e.isSuccessor = false) :
    primed n e = .successor n e := by
  unfold primed
  rw [if_neg (Nat.ne_of_gt hn)]
  cases e with
  | successor m b => exact nomatch he
  | _ => rfl

/-- What is kept by building and taking apart single chains is kept by merging them. -/
theorem primed_closed {P : Expr → Prop}
    (build : ∀ {n e}, 0 < n → e.isSuccessor = false → P e → P (.successor n e))
    (base : ∀ {n e}, P (.successor n e) → 0 < n ∧ e.isSuccessor = false ∧ P e)
    {e : Expr} (h : P e) (n : Nat) : P (e.primed n) := by
  by_cases hn : 0 < n
  · cases e with
    | successor m b =>
        obtain ⟨hm, hb, hP⟩ := base h
        rw [primed_successor hn]
        exact build (Nat.add_pos_left hm n) hb hP
    | _ =>
        rw [primed_of_not_successor hn rfl]
        exact build hn rfl h
  · rw [Nat.eq_zero_of_not_pos hn]
    exact h

theorem IsTerm.base {n : Nat} {e : Expr} (h : IsTerm (.successor n e)) :
    0 < n ∧ e.isSuccessor = false ∧ IsTerm e := by
  cases h with
  | successor hn hs he => exact ⟨hn, hs, he⟩

theorem Tidy.base {n : Nat} {e : Expr} (h : Tidy (.successor n e)) :
    0 < n ∧ e.isSuccessor = false ∧ Tidy e := by
  cases h with
  | successor hn hs he => exact ⟨hn, hs, he⟩

/-- Priming keeps terms well-formed, since chains are merged. -/
theorem IsTerm.primed {e : Expr} (h : IsTerm e) (n : Nat) : IsTerm (e.primed n) :=
  primed_closed .successor IsTerm.base h n

theorem Tidy.primed {e : Expr} (h : Tidy e) (n : Nat) : Tidy (e.primed n) :=
  primed_closed .successor Tidy.base h n

/-! ## Parts -/

/-- The parts of an expression from left to right.  The binder of a quantifier, as a variable, is
    the part before the body. -/
def parts : Expr → List Expr
  | .binary _ l r => [l, r]
  | .negation e => [e]
  | .quantified _ x e => [.var x, e]
  | .apply _ args => args
  | .var _ => []
  | .successor _ e => [e]
  | .zero => []

/-- Induction over an expression from its parts. -/
theorem parts_induction {motive : Expr → Prop}
    (step : ∀ e : Expr, (∀ p ∈ e.parts, motive p) → motive e) (e : Expr) : motive e := by
  induction e with
  | binary op l r ihl ihr =>
      exact step _ (List.forall_mem_cons.mpr ⟨ihl, List.forall_mem_singleton.mpr ihr⟩)
  | negation e ih => exact step _ (List.forall_mem_singleton.mpr ih)
  | quantified q x e ih =>
      have hbinder : motive (.var x) := step _ (List.forall_mem_nil _)
      exact step _ (List.forall_mem_cons.mpr ⟨hbinder, List.forall_mem_singleton.mpr ih⟩)
  | apply f args ih => exact step _ ih
  | var x => exact step _ (List.forall_mem_nil _)
  | successor n e ih => exact step _ (List.forall_mem_singleton.mpr ih)
  | zero => exact step _ (List.forall_mem_nil _)

theorem Tidy.parts {e : Expr} (h : e.Tidy) : ∀ p ∈ e.parts, p.Tidy := by
  cases h with
  | binary hl hr => exact List.forall_mem_cons.mpr ⟨hl, List.forall_mem_singleton.mpr hr⟩
  | negation he => exact List.forall_mem_singleton.mpr he
  | quantified he => exact List.forall_mem_cons.mpr ⟨.var, List.forall_mem_singleton.mpr he⟩
  | apply hargs => exact hargs
  | var => exact List.forall_mem_nil _
  | successor _ _ he => exact List.forall_mem_singleton.mpr he
  | zero => exact List.forall_mem_nil _

/-- A tree is tidy when its parts are and its root, if that is a chain of primes, has a prime and
    stands on something unprimed. -/
theorem tidy_iff {e : Expr} :
    e.Tidy ↔ (∀ n base, e = .successor n base → 0 < n ∧ base.isSuccessor = false) ∧
      ∀ p ∈ e.parts, p.Tidy := by
  constructor
  · intro h
    refine ⟨fun n base heq => ?_, h.parts⟩
    obtain ⟨hn, hs, -⟩ := (heq ▸ h).base
    exact ⟨hn, hs⟩
  · rintro ⟨hroot, hparts⟩
    cases e with
    | binary op l r =>
        obtain ⟨hl, hr⟩ := List.forall_mem_cons.mp hparts
        exact .binary hl (List.forall_mem_singleton.mp hr)
    | negation e => exact .negation (List.forall_mem_singleton.mp hparts)
    | quantified q x e =>
        obtain ⟨-, he⟩ := List.forall_mem_cons.mp hparts
        exact .quantified (List.forall_mem_singleton.mp he)
    | apply f args => exact .apply hparts
    | var x => exact .var
    | successor n e =>
        obtain ⟨hn, hs⟩ := hroot n e rfl
        exact .successor hn hs (List.forall_mem_singleton.mp hparts)
    | zero => exact .zero

end Expr

end PeanoCalculus
