import Mathlib.Data.Set.Function
import Mathlib.Logic.Equiv.Basic
import PeanoCalculus.Proofs.Expr.Variables
import PeanoCalculus.Proofs.Expr.Substitution
import PeanoCalculus.Proofs.Grammar.RoundTrip

/-! # Renaming

    `Expr.rename` puts another name for every name of a tree: variables, binders, functions and
    predicates alike.  What survives it depends on the map.

    * A map that respects kinds, lower-case names to lower-case names and upper-case names to
      upper-case names, takes terms to terms and formulas to formulas.
    * A map that is injective on the names of a tree changes no free occurrence, so it commutes
      with substitution and neither makes nor undoes a capture.

    A `Renaming` has both properties, on all names.  It need not reach every name, hence it has an
    inverse on one side only; that inverse still respects kinds, and it takes back what was
    renamed. -/

namespace PeanoCalculus

open PeanoCalculus.Expr

/-! ## Maps of names -/

/-- The names that the grammar knows. -/
def names : Set String :=
  {x | isName Char.isLower x = true ∨ isName Char.isUpper x = true}

/-- Names go to names of the same kind. -/
structure RespectsKind (g : String → String) : Prop where
  lower : ∀ {x : String}, isName Char.isLower x = true → isName Char.isLower (g x) = true
  upper : ∀ {x : String}, isName Char.isUpper x = true → isName Char.isUpper (g x) = true

/-- Other names for all names, of the same kind and different ones for different ones. -/
structure Renaming where
  name : String → String
  respectsKind : RespectsKind name
  injective_lower : Set.InjOn name {x | isName Char.isLower x = true}
  injective_upper : Set.InjOn name {x | isName Char.isUpper x = true}

namespace Renaming

/-- Every name stays. -/
def identity : Renaming where
  name := id
  respectsKind := ⟨id, id⟩
  injective_lower := fun _ _ _ _ h => h
  injective_upper := fun _ _ _ _ h => h

/-- Exchanging two names that are alike in some respect changes no name in that respect. -/
theorem kind_swap {kind : String → Bool} {x y : String} (h : kind x = kind y) (z : String) :
    kind (Equiv.swap x y z) = kind z := by
  rw [Equiv.swap_apply_def]
  split
  · rename_i hzx
    rw [hzx, h]
  · split
    · rename_i hzy
      rw [hzy, h]
    · rfl

/-- Two names of the same kind are exchanged. -/
def swap (x y : String) (hlower : isName Char.isLower x = isName Char.isLower y)
    (hupper : isName Char.isUpper x = isName Char.isUpper y) : Renaming where
  name := Equiv.swap x y
  respectsKind := ⟨fun hz => (kind_swap hlower _).trans hz, fun hz => (kind_swap hupper _).trans hz⟩
  injective_lower := (Equiv.swap x y).injective.injOn
  injective_upper := (Equiv.swap x y).injective.injOn

variable (r : Renaming)

/-- A lower-case name and an upper-case name are renamed differently. -/
theorem name_ne {x y : String} (hx : isName Char.isLower x = true)
    (hy : isName Char.isUpper y = true) : r.name x ≠ r.name y := by
  intro heq
  have hlower := not_isUpper_name (r.respectsKind.lower hx)
  rw [heq, r.respectsKind.upper hy] at hlower
  exact nomatch hlower

theorem injOn : Set.InjOn r.name names := by
  rintro x (hx | hx) y (hy | hy) heq
  · exact r.injective_lower hx hy heq
  · exact absurd heq (r.name_ne hx hy)
  · exact absurd heq.symm (r.name_ne hy hx)
  · exact r.injective_upper hx hy heq

open Classical in
/-- What was renamed can be taken back by a map that respects kinds, though not always by a
    renaming: a name that is not reached has to go somewhere. -/
theorem exists_inverse : ∃ g, RespectsKind g ∧ Set.LeftInvOn g r.name names := by
  have hback := r.injOn.leftInvOn_invFunOn
  refine ⟨fun y => if y ∈ r.name '' names then Function.invFunOn r.name names y else y,
    ⟨?_, ?_⟩, ?_⟩
  · intro y hy
    by_cases hreached : y ∈ r.name '' names
    · obtain ⟨x, hx, rfl⟩ := hreached
      rw [if_pos ⟨x, hx, rfl⟩, hback hx]
      exact hx.resolve_right fun hupper =>
        Bool.false_ne_true ((not_isUpper_name hy).symm.trans (r.respectsKind.upper hupper))
    · rwa [if_neg hreached]
  · intro y hy
    by_cases hreached : y ∈ r.name '' names
    · obtain ⟨x, hx, rfl⟩ := hreached
      rw [if_pos ⟨x, hx, rfl⟩, hback hx]
      exact hx.resolve_left fun hlower =>
        Bool.false_ne_true ((not_isUpper_name (r.respectsKind.lower hlower)).symm.trans hy)
    · rwa [if_neg hreached]
  · intro x hx
    exact (if_pos ⟨x, hx, rfl⟩).trans (hback hx)

end Renaming

namespace Expr

/-! ## Renaming trees -/

mutual

/-- Put the name that the map gives for every name of the tree. -/
def rename (g : String → String) : Expr → Expr
  | .binary op l r => .binary op (l.rename g) (r.rename g)
  | .negation e => .negation (e.rename g)
  | .quantified q x e => .quantified q (g x) (e.rename g)
  | .apply f as => .apply (g f) (renameIn g as)
  | .var x => .var (g x)
  | .successor n e => .successor n (e.rename g)
  | .zero => .zero

/-- Rename each argument of a list. -/
def renameIn (g : String → String) : List Expr → List Expr
  | [] => []
  | a :: as => a.rename g :: renameIn g as

end

theorem renameIn_eq_map (g : String → String) (args : List Expr) :
    renameIn g args = args.map (·.rename g) := by
  induction args with
  | nil => rfl
  | cons a args ih => rw [renameIn, ih, List.map_cons]

theorem rename_apply (g : String → String) (f : String) (args : List Expr) :
    (Expr.apply f args).rename g = .apply (g f) (args.map (·.rename g)) := by
  rw [rename, renameIn_eq_map]

theorem rename_id (e : Expr) : e.rename id = e := by
  induction e with
  | binary op l r ihl ihr => rw [rename, ihl, ihr]
  | negation e ih => rw [rename, ih]
  | quantified q x e ih => rw [rename, ih, id]
  | apply f args ih => rw [rename_apply, List.map_congr_left ih, List.map_id', id]
  | var x => rfl
  | successor n e ih => rw [rename, ih]
  | zero => rfl

theorem isSuccessor_rename (g : String → String) (e : Expr) :
    (e.rename g).isSuccessor = e.isSuccessor := by
  cases e <;> rfl

theorem rename_primed (g : String → String) (n : Nat) (e : Expr) :
    (primed n e).rename g = primed n (e.rename g) := by
  by_cases hn : n = 0
  · subst hn
    rfl
  · have hpos : 0 < n := Nat.pos_of_ne_zero hn
    cases e with
    | successor m b =>
        rw [rename, primed_successor hpos, primed_successor hpos]
        rfl
    | _ =>
        rw [primed_of_not_successor hpos rfl, primed_of_not_successor hpos (isSuccessor_rename _ _)]
        rfl

/-! ## Terms and formulas -/

theorem IsTerm.rename {g : String → String} (hg : RespectsKind g) {e : Expr} (he : e.IsTerm) :
    (e.rename g).IsTerm := by
  induction he with
  | zero => exact .zero
  | var hx => exact .var (hg.lower hx)
  | @apply f args hf hne _ ih =>
      rw [rename_apply]
      refine .apply (hg.lower hf) (fun h => hne (List.map_eq_nil_iff.mp h)) ?_
      exact List.forall_mem_map.mpr ih
  | successor hn hs _ ih => exact .successor hn ((isSuccessor_rename g _).trans hs) ih
  | times _ _ ihl ihr => exact .times ihl ihr
  | plus _ _ ihl ihr => exact .plus ihl ihr

theorem IsFormula.rename {g : String → String} (hg : RespectsKind g) {e : Expr}
    (he : e.IsFormula) : (e.rename g).IsFormula := by
  induction he with
  | equals hl hr => exact .equals (hl.rename hg) (hr.rename hg)
  | apply hp hargs =>
      rw [rename_apply]
      exact .apply (hg.upper hp) (List.forall_mem_map.mpr fun a ha => (hargs a ha).rename hg)
  | quantified hx _ ih => exact .quantified (hg.lower hx) ih
  | negation _ ih => exact .negation ih
  | and _ _ ihl ihr => exact .and ihl ihr
  | or _ _ ihl ihr => exact .or ihl ihr
  | implies _ _ ihl ihr => exact .implies ihl ihr

/-! ## The names of a tree -/

/-- Every name of the tree is in the set. -/
inductive NamesIn (s : Set String) : Expr → Prop where
  | binary {op : Operator} {l r : Expr} : NamesIn s l → NamesIn s r → NamesIn s (.binary op l r)
  | negation {e : Expr} : NamesIn s e → NamesIn s (.negation e)
  | quantified {q : Quantifier} {x : String} {e : Expr} : x ∈ s → NamesIn s e →
      NamesIn s (.quantified q x e)
  | apply {f : String} {args : List Expr} : f ∈ s → (∀ a ∈ args, NamesIn s a) →
      NamesIn s (.apply f args)
  | var {x : String} : x ∈ s → NamesIn s (.var x)
  | successor {n : Nat} {e : Expr} : NamesIn s e → NamesIn s (.successor n e)
  | zero : NamesIn s .zero

theorem IsTerm.namesIn {e : Expr} (he : e.IsTerm) : e.NamesIn names := by
  induction he with
  | zero => exact .zero
  | var hx => exact .var (.inl hx)
  | apply hf _ _ ih => exact .apply (.inl hf) ih
  | successor _ _ _ ih => exact .successor ih
  | times _ _ ihl ihr => exact .binary ihl ihr
  | plus _ _ ihl ihr => exact .binary ihl ihr

theorem IsFormula.namesIn {e : Expr} (he : e.IsFormula) : e.NamesIn names := by
  induction he with
  | equals hl hr => exact .binary hl.namesIn hr.namesIn
  | apply hp hargs => exact .apply (.inr hp) fun a ha => (hargs a ha).namesIn
  | quantified hx _ ih => exact .quantified (.inl hx) ih
  | negation _ ih => exact .negation ih
  | and _ _ ihl ihr => exact .binary ihl ihr
  | or _ _ ihl ihr => exact .binary ihl ihr
  | implies _ _ ihl ihr => exact .binary ihl ihr

section NamesIn

variable {s : Set String} {g : String → String} {e t : Expr} {x : String}

/-- The names of a renamed tree are renamed names. -/
theorem NamesIn.rename (he : e.NamesIn s) : (e.rename g).NamesIn (g '' s) := by
  induction he with
  | binary _ _ ihl ihr => exact .binary ihl ihr
  | negation _ ih => exact .negation ih
  | quantified hx _ ih => exact .quantified ⟨_, hx, rfl⟩ ih
  | apply hf _ ih =>
      rw [rename_apply]
      exact .apply ⟨_, hf, rfl⟩ (List.forall_mem_map.mpr ih)
  | var hx => exact .var ⟨_, hx, rfl⟩
  | successor _ ih => exact .successor ih
  | zero => exact .zero

/-- A map that takes the names back takes the tree back. -/
theorem NamesIn.rename_rename {back : String → String} (hback : Set.LeftInvOn back g s)
    (he : e.NamesIn s) : (e.rename g).rename back = e := by
  induction he with
  | binary _ _ ihl ihr => rw [Expr.rename, Expr.rename, ihl, ihr]
  | negation _ ih => rw [Expr.rename, Expr.rename, ih]
  | quantified hx _ ih => rw [Expr.rename, Expr.rename, hback hx, ih]
  | @apply f args hf _ ih =>
      have hargs : args.map ((·.rename back) ∘ (·.rename g)) = args :=
        (List.map_congr_left ih).trans (List.map_id' args)
      rw [rename_apply, rename_apply, hback hf, List.map_map, hargs]
  | var hx => rw [Expr.rename, Expr.rename, hback hx]
  | successor _ ih => rw [Expr.rename, Expr.rename, ih]
  | zero => rfl

/-! ## Free occurrences -/

/-- A variable is free in a tree when its new name is free in the renamed tree. -/
theorem NamesIn.hasFree_rename (hg : Set.InjOn g s) (hx : x ∈ s) (he : e.NamesIn s) :
    (e.rename g).hasFree (g x) = e.hasFree x := by
  induction he with
  | binary _ _ ihl ihr => rw [Expr.rename, hasFree, hasFree, ihl, ihr]
  | negation _ ih => exact ih
  | quantified hy _ ih =>
      rw [Bool.eq_iff_iff, Expr.rename, hasFree_quantified, hasFree_quantified, ih,
        hg.ne_iff hy hx]
  | apply _ _ ih =>
      rw [Bool.eq_iff_iff, rename_apply, hasFree_apply, hasFree_apply]
      constructor
      · rintro ⟨b, hb, hfree⟩
        obtain ⟨a, ha, rfl⟩ := List.mem_map.mp hb
        exact ⟨a, ha, (ih a ha).symm.trans hfree⟩
      · rintro ⟨a, ha, hfree⟩
        exact ⟨_, List.mem_map.mpr ⟨a, ha, rfl⟩, (ih a ha).trans hfree⟩
  | var hy => exact decide_eq_decide.mpr (hg.eq_iff hy hx)
  | successor _ ih => exact ih
  | zero => rfl

/-- Renaming commutes with substitution. -/
theorem NamesIn.rename_substitute (hg : Set.InjOn g s) (hx : x ∈ s) (he : e.NamesIn s)
    (t : Expr) : (e.substitute x t).rename g = (e.rename g).substitute (g x) (t.rename g) := by
  induction he with
  | binary _ _ ihl ihr => rw [substitute, Expr.rename, ihl, ihr, Expr.rename, substitute]
  | negation _ ih => rw [substitute, Expr.rename, ih, Expr.rename, substitute]
  | @quantified q y e hy _ ih =>
      rw [substitute, Expr.rename, substitute]
      by_cases hyx : y = x
      · rw [if_pos hyx, if_pos (congrArg g hyx), Expr.rename]
      · rw [if_neg hyx, if_neg ((hg.ne_iff hy hx).mpr hyx), Expr.rename, ih]
  | apply _ _ ih =>
      rw [substitute, substituteIn_eq_map, rename_apply, rename_apply, substitute,
        substituteIn_eq_map, List.map_map, List.map_map]
      exact congrArg (Expr.apply _) (List.map_congr_left ih)
  | @var y hy =>
      rw [substitute, Expr.rename, substitute]
      by_cases hyx : y = x
      · rw [if_pos hyx, if_pos (congrArg g hyx)]
      · rw [if_neg hyx, if_neg ((hg.ne_iff hy hx).mpr hyx), Expr.rename]
  | successor _ ih => rw [substitute, rename_primed, ih, Expr.rename, substitute]
  | zero => rfl

/-- A term is free for a variable when the renamed term is free for the renamed variable. -/
theorem NamesIn.isFreeFor_rename (hg : Set.InjOn g s) (hx : x ∈ s) (he : e.NamesIn s)
    (ht : t.NamesIn s) : (e.rename g).isFreeFor (g x) (t.rename g) = e.isFreeFor x t := by
  induction he with
  | @binary op l r _ _ ihl ihr =>
      show ((l.rename g).isFreeFor (g x) (t.rename g) && (r.rename g).isFreeFor (g x) (t.rename g)) =
        (l.isFreeFor x t && r.isFreeFor x t)
      rw [ihl, ihr]
  | negation _ ih => exact ih
  | @quantified q y e hy hbody ih =>
      have hfree := (NamesIn.quantified (q := q) hy hbody).hasFree_rename hg hx
      rw [Expr.rename] at hfree
      rw [Bool.eq_iff_iff, Expr.rename, isFreeFor_quantified, isFreeFor_quantified, hfree,
        ht.hasFree_rename hg hy, ih]
  | apply _ _ ih =>
      rw [Bool.eq_iff_iff, rename_apply, isFreeFor, isFreeFor, freeForUnder, freeForUnder,
        freeForUnderIn_iff, freeForUnderIn_iff, List.forall_mem_map]
      refine forall₂_congr ?_
      intro a ha
      exact Bool.eq_iff_iff.mp (ih a ha)
  | @var y hy => simp [Expr.rename, isFreeFor, freeForUnder]
  | successor _ ih => exact ih
  | zero => rfl

end NamesIn

end Expr

/-! ## Renamed formulas -/

namespace Renaming

variable (r : Renaming) {a b e t : Expr} {x : String}

/-- Different formulas stay different. -/
theorem eq_of_rename_eq (ha : a.IsFormula) (hb : b.IsFormula)
    (h : a.rename r.name = b.rename r.name) : a = b := by
  obtain ⟨back, -, hback⟩ := r.exists_inverse
  rw [← ha.namesIn.rename_rename hback, h, hb.namesIn.rename_rename hback]

/-- So do their texts. -/
theorem text_eq_iff (ha : a.IsFormula) (hb : b.IsFormula) :
    (a.rename r.name).text = (b.rename r.name).text ↔ a.text = b.text := by
  constructor
  · intro htext
    have heq := Grammar.formula_eq_of_text_eq (ha.rename r.respectsKind) (hb.rename r.respectsKind)
      htext
    rw [r.eq_of_rename_eq ha hb heq]
  · intro htext
    rw [Grammar.formula_eq_of_text_eq ha hb htext]

theorem hasFree_rename (he : e.IsFormula) (hx : isName Char.isLower x = true) :
    (e.rename r.name).hasFree (r.name x) = e.hasFree x :=
  he.namesIn.hasFree_rename r.injOn (.inl hx)

theorem rename_substitute (he : e.IsFormula) (hx : isName Char.isLower x = true) (t : Expr) :
    (e.substitute x t).rename r.name =
      (e.rename r.name).substitute (r.name x) (t.rename r.name) :=
  he.namesIn.rename_substitute r.injOn (.inl hx) t

theorem isFreeFor_rename (he : e.IsFormula) (ht : t.IsTerm) (hx : isName Char.isLower x = true) :
    (e.rename r.name).isFreeFor (r.name x) (t.rename r.name) = e.isFreeFor x t :=
  he.namesIn.isFreeFor_rename r.injOn (.inl hx) ht.namesIn

/-- What is an instance after renaming was an instance before. -/
theorem exists_substitute_of_rename (ha : a.IsFormula) (he : e.IsFormula)
    (hx : isName Char.isLower x = true) (ht : t.IsTerm)
    (h : a.rename r.name = (e.rename r.name).substitute (r.name x) t) :
    ∃ u : Expr, u.IsTerm ∧ a = e.substitute x u := by
  obtain ⟨back, hkind, hback⟩ := r.exists_inverse
  have hxname : x ∈ names := .inl hx
  -- taking names back is injective on the names that were given
  have hinj : Set.InjOn back (r.name '' names) := hback.rightInvOn_image.injOn
  refine ⟨t.rename back, ht.rename hkind, ?_⟩
  rw [← ha.namesIn.rename_rename hback, h,
    he.namesIn.rename.rename_substitute hinj ⟨x, hxname, rfl⟩, hback hxname,
    he.namesIn.rename_rename hback]

end Renaming

end PeanoCalculus
