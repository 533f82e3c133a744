import PeanoCalculus.Proofs.Matching.Meeting

/-! # Matching a schema is exact

    In schema mode every single letter demands something.  A table of bindings that has all the
    single letters of a schema, and variables for those that are binders, fills it to the
    candidate exactly when it meets every demand.  Hence a schema matches a formula exactly when
    some well-sorted table fills it to that formula.

    The bindings of a match are such a table, and since every letter is demanded, no other table on
    the letters of the schema does the same.  Against itself a schema demands its own letters. -/

namespace PeanoCalculus

namespace Expr

/-! ## The letters of a schema -/

mutual

/-- The single letters of a schema, which stand for something. -/
def letters : Expr → List String
  | .binary _ l r => l.letters ++ r.letters
  | .negation e => e.letters
  | .quantified _ x e => [x].filter isSingleLetter ++ e.letters
  | .apply f [] => [f].filter isSingleLetter
  | .apply _ (a :: as) => a.letters ++ lettersIn as
  | .var x => [x].filter isSingleLetter
  | .successor _ e => e.letters
  | .zero => []

/-- The single letters of a list of arguments. -/
def lettersIn : List Expr → List String
  | [] => []
  | a :: as => a.letters ++ lettersIn as

end

mutual

/-- The single letters that a schema quantifies over. -/
def binderLetters : Expr → List String
  | .binary _ l r => l.binderLetters ++ r.binderLetters
  | .negation e => e.binderLetters
  | .quantified _ x e => [x].filter isSingleLetter ++ e.binderLetters
  | .apply _ as => binderLettersIn as
  | .var _ => []
  | .successor _ e => e.binderLetters
  | .zero => []

/-- The single letters that a list of arguments quantifies over. -/
def binderLettersIn : List Expr → List String
  | [] => []
  | a :: as => a.binderLetters ++ binderLettersIn as

end

theorem mem_lettersIn {x : String} {args : List Expr} :
    x ∈ lettersIn args ↔ ∃ a ∈ args, x ∈ a.letters := by
  induction args with
  | nil => simp [lettersIn]
  | cons a args ih => simp [lettersIn, ih]

theorem mem_binderLettersIn {x : String} {args : List Expr} :
    x ∈ binderLettersIn args ↔ ∃ a ∈ args, x ∈ a.binderLetters := by
  induction args with
  | nil => simp [binderLettersIn]
  | cons a args ih => simp [binderLettersIn, ih]

theorem mem_letters_apply {x f : String} {args : List Expr} (h : args ≠ []) :
    x ∈ (Expr.apply f args).letters ↔ ∃ a ∈ args, x ∈ a.letters := by
  cases args with
  | nil => exact absurd rfl h
  | cons a args =>
      rw [letters, ← mem_lettersIn]
      rfl

theorem mem_filter_letter {x y : String} :
    x ∈ [y].filter isSingleLetter ↔ x = y ∧ isSingleLetter y = true := by
  rw [List.mem_filter, List.mem_singleton]
  exact and_congr_right fun h => h ▸ Iff.rfl

end Expr

open PeanoCalculus.Expr

/-! ## Tables that fit a schema -/

/-- The table binds single letters only, among them all those of the schema, and those that are
    quantified to variables. -/
structure Bindings.Fits (slots : Bindings) (schema : Expr) : Prop where
  only : ∀ {x v}, slots.find? x = some v → isSingleLetter x = true
  letters : ∀ x ∈ schema.letters, ∃ v, slots.find? x = some v
  binders : ∀ x ∈ schema.binderLetters, ∃ y, slots.find? x = some (.var y)

namespace Bindings.Fits

variable {slots : Bindings}

theorem left {op : Operator} {l r : Expr} (h : slots.Fits (.binary op l r)) : slots.Fits l :=
  ⟨h.only, fun x hx => h.letters x (List.mem_append_left _ hx),
    fun x hx => h.binders x (List.mem_append_left _ hx)⟩

theorem right {op : Operator} {l r : Expr} (h : slots.Fits (.binary op l r)) : slots.Fits r :=
  ⟨h.only, fun x hx => h.letters x (List.mem_append_right _ hx),
    fun x hx => h.binders x (List.mem_append_right _ hx)⟩

theorem negated {e : Expr} (h : slots.Fits (.negation e)) : slots.Fits e :=
  ⟨h.only, h.letters, h.binders⟩

theorem body {q : Quantifier} {x : String} {e : Expr} (h : slots.Fits (.quantified q x e)) :
    slots.Fits e :=
  ⟨h.only, fun y hy => h.letters y (List.mem_append_right _ hy),
    fun y hy => h.binders y (List.mem_append_right _ hy)⟩

theorem argument {f : String} {args : List Expr} (h : slots.Fits (.apply f args)) {a : Expr}
    (ha : a ∈ args) : slots.Fits a :=
  ⟨h.only, fun x hx => h.letters x ((mem_letters_apply (List.ne_nil_of_mem ha)).mpr ⟨a, ha, hx⟩),
    fun x hx => h.binders x (mem_binderLettersIn.mpr ⟨a, ha, hx⟩)⟩

theorem base {n : Nat} {e : Expr} (h : slots.Fits (.successor n e)) : slots.Fits e :=
  ⟨h.only, h.letters, h.binders⟩

/-- A name that is no single letter is not bound. -/
theorem find?_eq_none {schema : Expr} (h : slots.Fits schema) {x : String}
    (hx : isSingleLetter x = false) : slots.find? x = none := by
  cases hfind : slots.find? x with
  | none => rfl
  | some v =>
      rw [h.only hfind] at hx
      exact nomatch hx

/-- The demand of a binder is met by the variable that takes its place. -/
theorem binder_iff {q : Quantifier} {x y : String} {e : Expr} {scope : List (String × String)}
    (h : slots.Fits (.quantified q x e)) :
    y = filledBinder slots x ↔
      AllDemands (fun d => slots.find? d.name = some d.value)
        (binderDemands .schema x y scope) := by
  unfold binderDemands filledBinder
  cases hletter : isSingleLetter x with
  | true =>
      obtain ⟨z, hz⟩ := h.binders x
        (List.mem_append_left _ (mem_filter_letter.mpr ⟨rfl, hletter⟩))
      simp [hz, eq_comm]
  | false => simp [h.find?_eq_none hletter, eq_comm]

/-- Where its binder is filled, a variable is filled in the same way. -/
theorem fill_binder {q : Quantifier} {x : String} {e : Expr}
    (h : slots.Fits (.quantified q x e)) :
    (Expr.var x).fill slots = .var (filledBinder slots x) := by
  unfold filledBinder
  rw [fill]
  cases hletter : isSingleLetter x with
  | true =>
      obtain ⟨z, hz⟩ := h.binders x
        (List.mem_append_left _ (mem_filter_letter.mpr ⟨rfl, hletter⟩))
      rw [hz]
      rfl
  | false =>
      rw [h.find?_eq_none hletter]
      rfl

end Bindings.Fits

/-- A single letter is a name. -/
theorem isName_of_isSingleLetter {x : String} (h : isSingleLetter x = true) :
    isName Char.isUpper x = true ∨ isName Char.isLower x = true := by
  unfold isSingleLetter at h
  split at h
  · rename_i c hc
    have hletter : c.isUpper = true ∨ c.isLower = true := Bool.or_eq_true_iff.mp h
    exact hletter.imp (fun hupper => isName_iff.mpr ⟨c, [], hc, hupper, List.forall_mem_nil _⟩)
      (fun hlower => isName_iff.mpr ⟨c, [], hc, hlower, List.forall_mem_nil _⟩)
  · exact nomatch h

/-- A table that fits a schema and is well-sorted binds tidy trees. -/
theorem Bindings.Sorted.tidy {slots : Bindings} {schema : Expr} (hslots : slots.Sorted)
    (hfits : slots.Fits schema) : ∀ x v, slots.find? x = some v → v.Tidy := by
  intro x v hfind
  rcases isName_of_isSingleLetter (hfits.only hfind) with hupper | hlower
  · exact (hslots.formula hfind hupper).tidy
  · exact (hslots.term hfind hlower).tidy

/-! ## The demands of a schema -/

/-- The candidate is the filled schema when the table meets every demand. -/
theorem pins_fill {slots : Bindings} {e : Expr} (he : e.Tidy) (hfits : slots.Fits e)
    (hslots : ∀ x v, slots.find? x = some v → v.Tidy) {scope : List (String × String)}
    (hscope : ∀ p ∈ scope, (Expr.var p.1).fill slots = .var p.2) :
    Pins (fun d => slots.find? d.name = some d.value) .schema scope e (e.fill slots) := by
  induction he generalizing scope with
  | binary _ _ ihl ihr =>
      rw [fill]
      exact .binary (ihl hfits.left hscope) (ihr hfits.right hscope)
  | negation _ ih =>
      rw [fill]
      exact .negation (ih hfits.negated hscope)
  | @quantified q x e _ ih =>
      rw [fill]
      refine .quantified (fun z => hfits.binder_iff) (ih hfits.body ?_)
      intro p hp
      rcases List.mem_cons.mp hp with rfl | hmem
      · exact hfits.fill_binder
      · exact hscope p hmem
  | @apply f args _ ih =>
      by_cases hletter : args = [] ∧ MatchMode.schema.takesLetter f = true
      · -- a letter stands for the whole candidate
        obtain ⟨rfl, htakes⟩ := hletter
        obtain ⟨v, hv⟩ := hfits.letters f (mem_filter_letter.mpr ⟨rfl, htakes⟩)
        intro c _
        rw [allDemands_letter htakes, fill]
        simp [hv, eq_comm]
      · have hfill : (Expr.apply f args).fill slots = .apply f (args.map (·.fill slots)) := by
          by_cases hargs : args = []
          · subst hargs
            have hother : isSingleLetter f = false :=
              Bool.eq_false_iff.mpr fun htakes => hletter ⟨rfl, htakes⟩
            rw [fill, hfits.find?_eq_none hother]
            rfl
          · exact fill_apply hargs
        rw [hfill]
        exact .apply hletter (fun a ha => ih a ha (hfits.argument ha) hscope)
  | @var x =>
      intro c _
      cases hlookup : scope.lookup x with
      | some y =>
          obtain ⟨before, after, rfl, _⟩ := List.lookup_eq_some_iff.mp hlookup
          rw [allDemands_var_bound hlookup,
            hscope (x, y) (List.mem_append_right _ List.mem_cons_self)]
      | none =>
          cases hletter : MatchMode.schema.takesVariable x with
          | true =>
              obtain ⟨v, hv⟩ := hfits.letters x (mem_filter_letter.mpr ⟨rfl, hletter⟩)
              rw [allDemands_var_free hlookup hletter, fill]
              simp [hv, eq_comm]
          | false =>
              rw [allDemands_var_other hlookup hletter, fill, hfits.find?_eq_none hletter]
              rfl
  | @successor n e hn hs he ih =>
      rw [fill]
      exact .successor hn (he.fill hslots) (ih hfits.base hscope)
  | zero =>
      intro c _
      rw [fill, allDemands_zero]

/-- Filling depends only on what the letters of the schema are bound to. -/
theorem fill_congr {slots slots' : Bindings} {e : Expr} (h : slots.Fits e) (h' : slots'.Fits e)
    (hsame : ∀ x ∈ e.letters, slots.find? x = slots'.find? x) : e.fill slots = e.fill slots' := by
  have hleaf : ∀ x, (x ∈ [x].filter isSingleLetter → slots.find? x = slots'.find? x) →
      slots.find? x = slots'.find? x := by
    intro x hx
    cases hletter : isSingleLetter x with
    | true => exact hx (mem_filter_letter.mpr ⟨rfl, hletter⟩)
    | false => rw [h.find?_eq_none hletter, h'.find?_eq_none hletter]
  induction e with
  | binary op l r ihl ihr =>
      rw [fill, fill, ihl h.left h'.left fun x hx => hsame x (List.mem_append_left _ hx),
        ihr h.right h'.right fun x hx => hsame x (List.mem_append_right _ hx)]
  | negation e ih => rw [fill, fill, ih h.negated h'.negated hsame]
  | quantified q x e ih =>
      have hbinder : filledBinder slots x = filledBinder slots' x := by
        unfold filledBinder
        rw [hleaf x fun hx => hsame x (List.mem_append_left _ hx)]
      rw [fill, fill, hbinder, ih h.body h'.body fun y hy => hsame y (List.mem_append_right _ hy)]
  | apply f args ih =>
      by_cases hargs : args = []
      · subst hargs
        rw [fill, fill, hleaf f (hsame f)]
      · rw [fill_apply hargs, fill_apply hargs]
        refine congrArg (Expr.apply f) (List.map_congr_left fun a ha => ?_)
        exact ih a ha (h.argument ha) (h'.argument ha)
          fun x hx => hsame x ((mem_letters_apply hargs).mpr ⟨a, ha, hx⟩)
  | var x => rw [fill, fill, hleaf x (hsame x)]
  | successor n e ih => rw [fill, fill, ih h.base h'.base hsame]
  | zero => rfl

/-! ## What is demanded of which letters -/

theorem isSingleLetter_of_mem_letters {x : String} {e : Expr} (h : x ∈ e.letters) :
    isSingleLetter x = true := by
  have hleaf : ∀ {y : String}, x ∈ [y].filter isSingleLetter → isSingleLetter x = true :=
    fun hx => (List.mem_filter.mp hx).2
  induction e with
  | binary op l r ihl ihr => exact (List.mem_append.mp h).elim ihl ihr
  | negation e ih => exact ih h
  | quantified q y e ih => exact (List.mem_append.mp h).elim hleaf ih
  | apply f args ih =>
      by_cases hargs : args = []
      · subst hargs
        exact hleaf h
      · obtain ⟨a, ha, hx⟩ := (mem_letters_apply hargs).mp h
        exact ih a ha hx
  | var y => exact hleaf h
  | successor n e ih => exact ih h
  | zero => exact nomatch h

/-- A table that meets every demand has all the letters that no enclosing binder has. -/
theorem letters_of_met {slots : Bindings} {e c : Expr} {scope : List (String × String)}
    (h : AllDemands (fun d => slots.find? d.name = some d.value) (demands .schema e c scope)) :
    ∀ x ∈ e.letters, x ∈ scope.map Prod.fst ∨ ∃ v, slots.find? x = some v := by
  induction e generalizing c scope with
  | binary op l r ihl ihr =>
      obtain ⟨l', r', rfl, hl, hr⟩ := allDemands_binary.mp h
      intro x hx
      exact (List.mem_append.mp hx).elim (ihl hl x) (ihr hr x)
  | negation e ih =>
      obtain ⟨e', rfl, hbody⟩ := allDemands_negation.mp h
      exact ih hbody
  | quantified q y e ih =>
      obtain ⟨z, e', rfl, hbinder, hbody⟩ := allDemands_quantified.mp h
      have hletter : isSingleLetter y = true → ∃ v, slots.find? y = some v := by
        intro hsingle
        rw [binderDemands, if_pos ⟨rfl, hsingle⟩, allDemands_singleton] at hbinder
        exact ⟨_, hbinder⟩
      intro x hx
      rcases List.mem_append.mp hx with hx | hx
      · obtain ⟨rfl, hsingle⟩ := mem_filter_letter.mp hx
        exact .inr (hletter hsingle)
      · rcases ih hbody x hx with hmem | hbound
        · -- below the binder, its own letter counts as in scope: the binder has bound it
          rcases List.mem_cons.mp hmem with rfl | hmem
          · exact .inr (hletter (isSingleLetter_of_mem_letters hx))
          · exact .inl hmem
        · exact .inr hbound
  | apply f args ih =>
      by_cases hletter : args = [] ∧ MatchMode.schema.takesLetter f = true
      · obtain ⟨rfl, htakes⟩ := hletter
        intro x hx
        rw [(mem_filter_letter.mp hx).1]
        exact .inr ⟨c, (allDemands_letter htakes).mp h⟩
      · obtain ⟨cs, rfl, hcs⟩ := (allDemands_apply hletter).mp h
        intro x hx
        by_cases hargs : args = []
        · subst hargs
          exact absurd ⟨rfl, (mem_filter_letter.mp hx).2⟩ hletter
        · obtain ⟨a, ha, hxa⟩ := (mem_letters_apply hargs).mp hx
          obtain ⟨b, hb⟩ := hcs.exists_argument ha
          exact ih a ha hb x hxa
  | var y =>
      intro x hx
      obtain ⟨rfl, hsingle⟩ := mem_filter_letter.mp hx
      cases hlookup : scope.lookup x with
      | some z =>
          obtain ⟨before, after, rfl, _⟩ := List.lookup_eq_some_iff.mp hlookup
          exact .inl (List.mem_map.mpr ⟨(x, z), List.mem_append_right _ List.mem_cons_self, rfl⟩)
      | none =>
          have htakes : MatchMode.schema.takesVariable x = true := hsingle
          exact .inr ⟨c, (allDemands_var_free hlookup htakes).mp h⟩
  | successor n e ih =>
      obtain ⟨m, base, rfl, ⟨_, hrest⟩ | ⟨_, hrest⟩⟩ := allDemands_successor.mp h
      · exact ih hrest
      · exact ih hrest
  | zero => exact List.forall_mem_nil _

/-- A table that meets every demand has variables for the letters that are quantified. -/
theorem binders_of_met {slots : Bindings} {e c : Expr} {scope : List (String × String)}
    (h : AllDemands (fun d => slots.find? d.name = some d.value) (demands .schema e c scope)) :
    ∀ x ∈ e.binderLetters, ∃ y, slots.find? x = some (.var y) := by
  induction e generalizing c scope with
  | binary op l r ihl ihr =>
      obtain ⟨l', r', rfl, hl, hr⟩ := allDemands_binary.mp h
      intro x hx
      exact (List.mem_append.mp hx).elim (ihl hl x) (ihr hr x)
  | negation e ih =>
      obtain ⟨e', rfl, hbody⟩ := allDemands_negation.mp h
      exact ih hbody
  | quantified q y e ih =>
      obtain ⟨z, e', rfl, hbinder, hbody⟩ := allDemands_quantified.mp h
      intro x hx
      rcases List.mem_append.mp hx with hx | hx
      · obtain ⟨rfl, hsingle⟩ := mem_filter_letter.mp hx
        rw [binderDemands, if_pos ⟨rfl, hsingle⟩, allDemands_singleton] at hbinder
        exact ⟨z, hbinder⟩
      · exact ih hbody x hx
  | apply f args ih =>
      intro x hx
      obtain ⟨a, ha, hxa⟩ := mem_binderLettersIn.mp hx
      have hargs : ¬(args = [] ∧ MatchMode.schema.takesLetter f = true) :=
        fun hnil => List.ne_nil_of_mem ha hnil.1
      obtain ⟨cs, rfl, hcs⟩ := (allDemands_apply hargs).mp h
      obtain ⟨b, hb⟩ := hcs.exists_argument ha
      exact ih a ha hb x hxa
  | var y => exact List.forall_mem_nil _
  | successor n e ih =>
      obtain ⟨m, base, rfl, ⟨_, hrest⟩ | ⟨_, hrest⟩⟩ := allDemands_successor.mp h
      · exact ih hrest
      · exact ih hrest
  | zero => exact List.forall_mem_nil _

/-- Whatever a schema demands is demanded of one of its letters. -/
theorem names_schema {P : Demand → Prop} {e c : Expr} {scope : List (String × String)}
    (h : AllDemands P (demands .schema e c scope)) :
    AllDemands (·.name ∈ e.letters) (demands .schema e c scope) := by
  induction e generalizing c scope with
  | binary op l r ihl ihr =>
      obtain ⟨l', r', rfl, hl, hr⟩ := allDemands_binary.mp h
      exact allDemands_binary.mpr ⟨l', r', rfl, (ihl hl).imp fun _ => List.mem_append_left _,
        (ihr hr).imp fun _ => List.mem_append_right _⟩
  | negation e ih =>
      obtain ⟨e', rfl, hbody⟩ := allDemands_negation.mp h
      exact allDemands_negation.mpr ⟨e', rfl, ih hbody⟩
  | quantified q x e ih =>
      obtain ⟨y, e', rfl, hbinder, hbody⟩ := allDemands_quantified.mp h
      refine allDemands_quantified.mpr ⟨y, e', rfl, hbinder.of_binder fun _ hletter => ?_,
        (ih hbody).imp fun _ => List.mem_append_right _⟩
      exact List.mem_append_left _ (mem_filter_letter.mpr ⟨rfl, hletter⟩)
  | apply f args ih =>
      by_cases hletter : args = [] ∧ MatchMode.schema.takesLetter f = true
      · obtain ⟨rfl, htakes⟩ := hletter
        exact (allDemands_letter htakes).mpr (mem_filter_letter.mpr ⟨rfl, htakes⟩)
      · obtain ⟨cs, rfl, hcs⟩ := (allDemands_apply hletter).mp h
        refine (allDemands_apply hletter).mpr ⟨cs, rfl, hcs.imp_arguments fun a ha b _ hab => ?_⟩
        exact (ih a ha hab).imp fun d hd =>
          (mem_letters_apply (List.ne_nil_of_mem ha)).mpr ⟨a, ha, hd⟩
  | var x =>
      cases hlookup : scope.lookup x with
      | some y => exact (allDemands_var_bound hlookup).mpr ((allDemands_var_bound hlookup).mp h)
      | none =>
          cases htakes : MatchMode.schema.takesVariable x with
          | true =>
              exact (allDemands_var_free hlookup htakes).mpr (mem_filter_letter.mpr ⟨rfl, htakes⟩)
          | false =>
              exact (allDemands_var_other hlookup htakes).mpr
                ((allDemands_var_other hlookup htakes).mp h)
  | successor n e ih =>
      obtain ⟨m, base, rfl, hrest⟩ := allDemands_successor.mp h
      refine allDemands_successor.mpr ⟨m, base, rfl, ?_⟩
      rcases hrest with ⟨hlt, hrest⟩ | ⟨heq, hrest⟩
      · exact .inl ⟨hlt, ih hrest⟩
      · exact .inr ⟨heq, ih hrest⟩
  | zero => exact allDemands_zero.mpr (allDemands_zero.mp h)

/-- The table is defined on the single letters of the schema and on nothing else: upper-case letters
    stand for formulas, lower-case letters for terms, and those that are quantified for
    variables. -/
structure Bindings.Instantiates (slots : Bindings) (schema : Expr) : Prop where
  domain : ∀ x, (∃ v, slots.find? x = some v) ↔ x ∈ schema.letters
  sorted : slots.Sorted
  binders : ∀ x ∈ schema.binderLetters, ∃ y, slots.find? x = some (.var y)

theorem Bindings.Instantiates.fits {slots : Bindings} {schema : Expr}
    (h : slots.Instantiates schema) : slots.Fits schema where
  only := fun {x v} hfind => isSingleLetter_of_mem_letters ((h.domain x).mp ⟨v, hfind⟩)
  letters := fun x => (h.domain x).mpr
  binders := h.binders

section Exactness

variable {schema c : Expr} {m : Match} {slots : Bindings}

/-- A match compares the trees and meets their demands. -/
theorem matchSchema_eq_some :
    matchSchema schema c = some m ↔
      ∃ ds, demands .schema schema c [] = some ds ∧
        ({} : Match).meetAll .schema ds = some m := by
  rw [matchSchema, Match.extend_eq_demands]
  exact Option.bind_eq_some_iff

/-- A table fills the schema to the candidate when it meets every demand. -/
theorem fill_iff_demands (hs : schema.IsFormula) (hc : c.IsFormula) (hslots : slots.Sorted)
    (hfits : slots.Fits schema) :
    c = schema.fill slots ↔
      AllDemands (fun d => slots.find? d.name = some d.value) (demands .schema schema c []) :=
  pins_fill hs.tidy hfits (hslots.tidy hfits) (List.forall_mem_nil _) c hc.tidy

/-- What a match binds is the value of some demand. -/
theorem exists_demand_of_binding {ds : List Demand}
    (hmeet : ({} : Match).meetAll .schema ds = some m) {x : String} {v : Expr}
    (hfind : m.bindings.find? x = some v) : ∃ d ∈ ds, d.name = x ∧ d.value = v :=
  ((Match.meets_of_meetAll hmeet).only hfind).resolve_left nofun

/-- **WHAT A MATCH BINDS FILLS THE SCHEMA** to the candidate. -/
theorem instantiates_of_match (hs : schema.IsFormula) (hc : c.IsFormula)
    (h : matchSchema schema c = some m) :
    m.bindings.Instantiates schema ∧ c = schema.fill m.bindings := by
  obtain ⟨ds, hds, hmeet⟩ := matchSchema_eq_some.mp h
  have hall : AllDemands (fun _ => True) (demands .schema schema c []) :=
    ⟨ds, hds, fun _ _ => trivial⟩
  have hname := names_schema hall
  have hsorted := sorted_of_isFormula hs hc hall
  rw [hds] at hname hsorted
  have hmet : AllDemands (fun d => m.bindings.find? d.name = some d.value)
      (demands .schema schema c []) :=
    ⟨ds, hds, (Match.meets_of_meetAll hmeet).find?_eq hsorted.forall_mem⟩
  have hslots : m.bindings.Sorted := by
    constructor
    · intro x v hfind hx
      obtain ⟨d, hd, rfl, rfl⟩ := exists_demand_of_binding hmeet hfind
      exact (hsorted.forall_mem d hd).isFormula hx
    · intro x v hfind hx
      obtain ⟨d, hd, rfl, rfl⟩ := exists_demand_of_binding hmeet hfind
      exact (hsorted.forall_mem d hd).isTerm hx
  have hinstantiates : m.bindings.Instantiates schema := by
    refine ⟨fun x => ⟨?_, fun hx => ?_⟩, hslots, binders_of_met hmet⟩
    · rintro ⟨v, hfind⟩
      obtain ⟨d, hd, rfl, -⟩ := exists_demand_of_binding hmeet hfind
      exact hname.forall_mem d hd
    · exact (letters_of_met hmet x hx).resolve_left List.not_mem_nil
  exact ⟨hinstantiates, (fill_iff_demands hs hc hslots hinstantiates.fits).mpr hmet⟩

/-- **EVERY INSTANCE MATCHES**. -/
theorem match_of_fill (hs : schema.IsFormula) (hc : c.IsFormula) (hslots : slots.Sorted)
    (hfits : slots.Fits schema) (h : c = schema.fill slots) : ∃ m, matchSchema schema c = some m := by
  obtain ⟨ds, hds, hmet⟩ := (fill_iff_demands hs hc hslots hfits).mp h
  let texts : String → String := fun x => ((slots.find? x).map text).getD ""
  have htexts : ∀ d ∈ ds, d.value.text = texts d.name := by
    intro d hd
    show _ = ((slots.find? d.name).map text).getD ""
    rw [hmet d hd]
    rfl
  obtain ⟨m, hm⟩ := @Match.meetAll_of_texts .schema texts ds htexts
  exact ⟨m, matchSchema_eq_some.mpr ⟨ds, hds, hm⟩⟩

/-- **A SCHEMA IS RECOGNISED EXACTLY**: it matches a formula when some table of formulas for its
    letters and terms for its variables fills it to that formula, and only then. -/
theorem matchSchema_isSome_iff (hs : schema.IsFormula) (hc : c.IsFormula) :
    (matchSchema schema c).isSome = true ↔
      ∃ slots : Bindings, slots.Sorted ∧ slots.Fits schema ∧ c = schema.fill slots := by
  rw [Option.isSome_iff_exists]
  constructor
  · rintro ⟨m, hm⟩
    obtain ⟨hinstantiates, hfill⟩ := instantiates_of_match hs hc hm
    exact ⟨m.bindings, hinstantiates.sorted, hinstantiates.fits, hfill⟩
  · rintro ⟨slots, hslots, hfits, heq⟩
    exact match_of_fill hs hc hslots hfits heq

end Exactness

end PeanoCalculus
