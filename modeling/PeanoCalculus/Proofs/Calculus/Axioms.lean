import PeanoCalculus.Schemas
import PeanoCalculus.Proofs.Matching.Schema

/-! # The axioms

    The axioms of the calculus, said without matching: uniform instances of the numbered schemas,
    the two quantifier schemas with their condition on capture, and induction.

    A uniform instance puts formulas for the letters of a schema of logic, or terms for the
    variables of a schema of arithmetic, by a table that has all of them.  Both tables of schemas
    are over three names, so what the search through a table accepts is proved once. -/

namespace PeanoCalculus

open PeanoCalculus.Expr

/-- Tests that agree on a list find the same place in it. -/
theorem findIdx?_congr {α : Type} {p q : α → Bool} {l : List α} (h : ∀ a ∈ l, p a = q a) :
    l.findIdx? p = l.findIdx? q := by
  have hmap : ∀ test : α → Bool, l.findIdx? test = (l.map test).findIdx? id := by
    intro test
    rw [List.findIdx?_map, Function.id_comp]
  rw [hmap p, hmap q, List.map_congr_left h]

/-! ## Uniform instances -/

/-- The table that binds each of the names to its value. -/
def Bindings.table (names : List String) (value : String → Expr) : Bindings :=
  ⟨names.map fun x => (x, value x)⟩

theorem Bindings.find?_table (names : List String) (value : String → Expr) (x : String) :
    (table names value).find? x = if x ∈ names then some (value x) else none := by
  unfold table find?
  induction names with
  | nil => rfl
  | cons y ys ih =>
      rw [List.map_cons, List.lookup_cons]
      by_cases hxy : x = y
      · subst hxy
        simp
      · simp [beq_false_of_ne hxy, hxy, ih]

namespace Schemas

/-- The letters of the schemas of logic. -/
def formulaLetters : List String :=
  ["A", "B", "C"]

/-- The variables of the schemas of arithmetic. -/
def termLetters : List String :=
  ["a", "b", "c"]

/-- The schemas of a table are formulas over the given names, all of which stand for expressions
    of one kind. -/
structure Uniform (schemas : List Expr) (names : List String) (kind : Expr → Prop) : Prop where
  isFormula : ∀ s ∈ schemas, s.IsFormula
  letters : ∀ s ∈ schemas, ∀ x ∈ s.letters, x ∈ names
  binders : ∀ s ∈ schemas, s.binderLetters = []
  single : ∀ x ∈ names, isSingleLetter x = true
  sorted : ∀ {value : String → Expr}, (∀ x ∈ names, kind (value x)) →
    (Bindings.table names value).Sorted
  kind_of : ∀ {slots : Bindings}, slots.Sorted → ∀ x ∈ names, ∀ {v}, slots.find? x = some v →
    kind v
  inhabited : ∃ e, kind e

section Uniform

variable {schemas : List Expr} {names : List String} {kind : Expr → Prop}

theorem Uniform.fits (h : Uniform schemas names kind) {s : Expr} (hs : s ∈ schemas)
    (value : String → Expr) : (Bindings.table names value).Fits s := by
  constructor
  · intro x v hfind
    rw [Bindings.find?_table] at hfind
    split at hfind
    · rename_i hx
      exact h.single x hx
    · exact nomatch hfind
  · intro x hx
    exact ⟨value x, by rw [Bindings.find?_table, if_pos (h.letters s hs x hx)]⟩
  · intro x hx
    rw [h.binders s hs] at hx
    exact nomatch hx

/-- Any table that fits a schema can be replaced by one for just the given names. -/
theorem Uniform.exists_table (h : Uniform schemas names kind) {s : Expr} (hs : s ∈ schemas)
    {slots : Bindings} (hsorted : slots.Sorted) (hfits : slots.Fits s) :
    ∃ value : String → Expr, (∀ x ∈ names, kind (value x)) ∧
      s.fill slots = s.fill (.table names value) := by
  obtain ⟨other, hother⟩ := h.inhabited
  refine ⟨fun x => (slots.find? x).getD other, fun x hx => ?_, ?_⟩
  · show kind ((slots.find? x).getD other)
    cases hfind : slots.find? x with
    | none => exact hother
    | some v => exact h.kind_of hsorted x hx hfind
  · refine fill_congr hfits (h.fits hs _) fun x hx => ?_
    obtain ⟨v, hv⟩ := hfits.letters x hx
    rw [Bindings.find?_table, if_pos (h.letters s hs x hx), hv]
    rfl

/-- A schema of the table matches a formula when the formula is a uniform instance of it. -/
theorem Uniform.matchSchema_iff (h : Uniform schemas names kind) {s f : Expr} (hs : s ∈ schemas)
    (hf : f.IsFormula) :
    (matchSchema s f).isSome = true ↔
      ∃ value : String → Expr, (∀ x ∈ names, kind (value x)) ∧
        f = s.fill (.table names value) := by
  rw [matchSchema_isSome_iff (h.isFormula s hs) hf]
  constructor
  · rintro ⟨slots, hsorted, hslots, rfl⟩
    exact h.exists_table hs hsorted hslots
  · rintro ⟨value, hvalue, rfl⟩
    exact ⟨_, h.sorted hvalue, h.fits hs value, rfl⟩

/-- What the search through a table finds is an instance of the schema with that number. -/
theorem Uniform.instance_of_firstMatch (h : Uniform schemas names kind) {f : Expr}
    (hf : f.IsFormula) {number : Nat} (hmatch : firstMatch schemas f = some number) :
    ∃ (n : Nat) (s : Expr) (value : String → Expr), number = n + 1 ∧ schemas[n]? = some s ∧
      (∀ x ∈ names, kind (value x)) ∧ f = s.fill (.table names value) := by
  obtain ⟨n, hn, rfl⟩ := Option.map_eq_some_iff.mp hmatch
  obtain ⟨hlt, hfits, _⟩ := List.findIdx?_eq_some_iff_getElem.mp hn
  obtain ⟨value, hvalue, heq⟩ := (h.matchSchema_iff (List.getElem_mem hlt) hf).mp hfits
  exact ⟨n, schemas[n], value, rfl, List.getElem?_eq_getElem hlt, hvalue, heq⟩

/-- The search through a table finds every instance of its schemas. -/
theorem Uniform.firstMatch_of_instance (h : Uniform schemas names kind) {s : Expr}
    (hs : s ∈ schemas) {value : String → Expr} (hvalue : ∀ x ∈ names, kind (value x)) :
    ∃ number, firstMatch schemas (s.fill (.table names value)) = some number := by
  have hmatch : (matchSchema s (s.fill (.table names value))).isSome = true :=
    (h.matchSchema_iff hs ((h.isFormula s hs).fill (h.sorted hvalue))).mpr ⟨value, hvalue, rfl⟩
  have hfound : (schemas.findIdx? fun schema =>
      (matchSchema schema (s.fill (.table names value))).isSome).isSome = true := by
    rw [List.findIdx?_isSome]
    exact List.any_eq_true.mpr ⟨s, hs, hmatch⟩
  obtain ⟨n, hn⟩ := Option.isSome_iff_exists.mp hfound
  exact ⟨n + 1, Option.map_eq_some_iff.mpr ⟨n, hn, rfl⟩⟩

end Uniform

/-! ## The two tables -/

theorem logic_isFormula : ∀ s ∈ logic, s.IsFormula := by
  have hA : (letter "A").IsFormula := .letter (by decide)
  have hB : (letter "B").IsFormula := .letter (by decide)
  have hC : (letter "C").IsFormula := .letter (by decide)
  intro s hs
  simp only [logic, List.mem_cons, List.not_mem_nil, or_false] at hs
  rcases hs with rfl | rfl | rfl | rfl | rfl | rfl | rfl | rfl | rfl | rfl
  · exact .implies hA (.implies hB hA)
  · exact .implies (.implies hA hB) (.implies (.implies hA (.implies hB hC)) (.implies hA hC))
  · exact .implies hA (.implies hB (.and hA hB))
  · exact .implies (.and hA hB) hA
  · exact .implies (.and hA hB) hB
  · exact .implies hA (.or hA hB)
  · exact .implies hB (.or hA hB)
  · exact .implies (.implies hA hC) (.implies (.implies hB hC) (.implies (.or hA hB) hC))
  · exact .implies (.implies hA hB) (.implies (.implies hA (.negation hB)) (.negation hA))
  · exact .implies (.negation (.negation hA)) hA

theorem arithmetic_isFormula : ∀ s ∈ arithmetic, s.IsFormula := by
  have ha : (var "a").IsTerm := .var (by decide)
  have hb : (var "b").IsTerm := .var (by decide)
  have hc : (var "c").IsTerm := .var (by decide)
  intro s hs
  simp only [arithmetic, List.mem_cons, List.not_mem_nil, or_false] at hs
  rcases hs with rfl | rfl | rfl | rfl | rfl | rfl | rfl | rfl
  · exact .implies (.equals ha hb) (.equals (ha.primed 1) (hb.primed 1))
  · exact .implies (.equals ha hb) (.implies (.equals ha hc) (.equals hb hc))
  · exact .implies (.equals (ha.primed 1) (hb.primed 1)) (.equals ha hb)
  · exact .negation (.equals (ha.primed 1) .zero)
  · exact .equals (.plus ha (hb.primed 1)) ((ha.plus hb).primed 1)
  · exact .equals (.plus ha .zero) ha
  · exact .equals (.times ha .zero) .zero
  · exact .equals (.times ha (hb.primed 1)) (.plus (.times ha hb) ha)

/-- A table is well-sorted when each of its values is. -/
theorem sorted_table {names : List String} {value : String → Expr}
    (h : ∀ x ∈ names, Demand.Sorted ⟨x, value x, []⟩) : (Bindings.table names value).Sorted := by
  have horigin : ∀ {x v}, (Bindings.table names value).find? x = some v →
      Demand.Sorted ⟨x, v, []⟩ := by
    intro x v hfind
    rw [Bindings.find?_table] at hfind
    split at hfind
    · rename_i hx
      exact Option.some.inj hfind ▸ h x hx
    · exact nomatch hfind
  exact ⟨fun hfind hx => (horigin hfind).isFormula hx, fun hfind hx => (horigin hfind).isTerm hx⟩

theorem logic_uniform : Uniform logic formulaLetters IsFormula where
  isFormula := logic_isFormula
  letters := by decide
  binders := by decide
  single := by decide
  sorted := fun hvalue => sorted_table fun x hx =>
    .inl ⟨(by decide : ∀ x ∈ formulaLetters, isName Char.isUpper x = true) x hx, hvalue x hx⟩
  kind_of := fun hsorted x hx _ hfind => hsorted.formula hfind
    ((by decide : ∀ x ∈ formulaLetters, isName Char.isUpper x = true) x hx)
  inhabited := ⟨.equals .zero .zero, .equals .zero .zero⟩

theorem arithmetic_uniform : Uniform arithmetic termLetters IsTerm where
  isFormula := arithmetic_isFormula
  letters := by decide
  binders := by decide
  single := by decide
  sorted := fun hvalue => sorted_table fun x hx =>
    .inr ⟨(by decide : ∀ x ∈ termLetters, isName Char.isLower x = true) x hx, hvalue x hx⟩
  kind_of := fun hsorted x hx _ hfind => hsorted.term hfind
    ((by decide : ∀ x ∈ termLetters, isName Char.isLower x = true) x hx)
  inhabited := ⟨.zero, .zero⟩

end Schemas

/-! ## The axioms and their numbers -/

/-- The axioms of logic: instances of the ten schemas, and the quantifier schemas 11 and 12. -/
inductive LogicAxiom : Nat → Expr → Prop where
  | schema {n : Nat} {s : Expr} {value : String → Expr} : Schemas.logic[n]? = some s →
      (∀ x ∈ Schemas.formulaLetters, (value x).IsFormula) →
      LogicAxiom (n + 1) (s.fill (.table Schemas.formulaLetters value))
  | universal {x : String} {a t : Expr} : isName Char.isLower x = true → a.IsFormula → t.IsTerm →
      a.isFreeFor x t = true → LogicAxiom 11 (.implies (.all x a) (a.substitute x t))
  | existential {x : String} {a t : Expr} : isName Char.isLower x = true → a.IsFormula →
      t.IsTerm → a.isFreeFor x t = true → LogicAxiom 12 (.implies (a.substitute x t) (.ex x a))

/-- The axioms of arithmetic: instances of the eight schemas, and induction, number 9, over a
    variable that is free in the formula. -/
inductive ArithmeticAxiom : Nat → Expr → Prop where
  | schema {n : Nat} {s : Expr} {value : String → Expr} : Schemas.arithmetic[n]? = some s →
      (∀ x ∈ Schemas.termLetters, (value x).IsTerm) →
      ArithmeticAxiom (n + 1) (s.fill (.table Schemas.termLetters value))
  | induction {x : String} {a : Expr} : isName Char.isLower x = true → a.IsFormula →
      a.hasFree x = true →
      ArithmeticAxiom 9 (.implies (.and (a.substitute x .zero)
        (.all x (.implies a (a.substitute x (.primed 1 (.var x)))))) a)

theorem LogicAxiom.isFormula {n : Nat} {f : Expr} (h : LogicAxiom n f) : f.IsFormula := by
  cases h with
  | schema hs hvalue =>
      exact (Schemas.logic_isFormula _ (List.mem_of_getElem? hs)).fill
        (Schemas.logic_uniform.sorted hvalue)
  | universal hx ha ht _ => exact .implies (.quantified hx ha) (ha.substitute _ ht)
  | existential hx ha ht _ => exact .implies (ha.substitute _ ht) (.quantified hx ha)

theorem ArithmeticAxiom.isFormula {n : Nat} {f : Expr} (h : ArithmeticAxiom n f) :
    f.IsFormula := by
  cases h with
  | schema hs hvalue =>
      exact (Schemas.arithmetic_isFormula _ (List.mem_of_getElem? hs)).fill
        (Schemas.arithmetic_uniform.sorted hvalue)
  | @induction x a hx ha _ =>
      have hnext : (Expr.primed 1 (.var x)).IsTerm := (IsTerm.var hx).primed 1
      exact .implies (.and (ha.substitute x .zero)
        (.quantified hx (.implies ha (ha.substitute x hnext)))) ha

/-- The search through the schemas of logic finds axioms. -/
theorem logicAxiom_of_match {f : Expr} {number : Nat} (hf : f.IsFormula)
    (h : Schemas.matchLogic f = some number) : LogicAxiom number f := by
  obtain ⟨n, s, value, rfl, hs, hvalue, rfl⟩ := Schemas.logic_uniform.instance_of_firstMatch hf h
  exact .schema hs hvalue

/-- The search through the schemas of arithmetic finds axioms. -/
theorem arithmeticAxiom_of_match {f : Expr} {number : Nat} (hf : f.IsFormula)
    (h : Schemas.matchArithmetic f = some number) : ArithmeticAxiom number f := by
  obtain ⟨n, s, value, rfl, hs, hvalue, rfl⟩ :=
    Schemas.arithmetic_uniform.instance_of_firstMatch hf h
  exact .schema hs hvalue

end PeanoCalculus
