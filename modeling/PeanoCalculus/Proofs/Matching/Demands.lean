import PeanoCalculus.Matching
import PeanoCalculus.Proofs.Expr.Variables
import PeanoCalculus.Proofs.Expr.Substitution
import PeanoCalculus.Proofs.Grammar.RoundTrip

/-! # What a match demands

    A match threads its state through two trees at once, but what it asks for does not depend on
    that state.  Comparing the trees yields a list of demands, each of which says that a name of
    the schema stands for a certain part of the candidate.

    Here the list is computed and described: for each form of the schema, what it means that all
    demands have a property, which properties of the candidate the trees demanded inherit, and that
    they are formulas of letters and terms of variables.  How a match meets its demands is another
    module's matter. -/

namespace PeanoCalculus

/-- A name stands for a part of the candidate, which lies below the given pairs of binders. -/
structure Demand where
  name : String
  value : Expr
  scope : List (String × String)

/-! ## Listing the demands -/

/-- What a pair of binders demands. -/
def binderDemands (mode : MatchMode) (x y : String) (scope : List (String × String)) :
    Option (List Demand) :=
  if mode = .schema ∧ isSingleLetter x then some [⟨x, .var y, scope⟩]
  else if x = y then some []
  else none

/-- The demands of one part after those of another. -/
def joinDemands (first second : Option (List Demand)) : Option (List Demand) := do
  let ds ← first
  let es ← second
  some (ds ++ es)

mutual

/-- What the names of a schema have to stand for, or nothing if the shapes differ. -/
def demands (mode : MatchMode) :
    Expr → Expr → List (String × String) → Option (List Demand)
  | .binary op l r, c, scope =>
    match c with
    | .binary op' l' r' =>
      if op = op' then joinDemands (demands mode l l' scope) (demands mode r r' scope) else none
    | _ => none
  | .negation e, c, scope =>
    match c with
    | .negation e' => demands mode e e' scope
    | _ => none
  | .quantified q x e, c, scope =>
    match c with
    | .quantified q' y e' =>
      if q = q' then
        joinDemands (binderDemands mode x y scope) (demands mode e e' ((x, y) :: scope))
      else none
    | _ => none
  | .apply f as, c, scope =>
    if as.isEmpty && mode.takesLetter f then some [⟨f, c, scope⟩]
    else
      match c with
      | .apply f' as' => if f = f' then demandsAll mode as as' scope else none
      | _ => none
  | .var x, c, scope =>
    match scope.lookup x with
    | some y => if c.varName? = some y then some [] else none
    | none =>
      if mode.takesVariable x then some [⟨x, c, scope⟩]
      else if c.varName? = some x then some []
      else none
  | .successor n e, c, scope =>
    match c with
    | .successor n' e' =>
      if n < n' then demands mode e (.primed (n' - n) e') scope
      else if n = n' then demands mode e e' scope
      else none
    | _ => none
  | .zero, c, _ => if c.isZero then some [] else none

/-- The demands of two argument lists of the same length. -/
def demandsAll (mode : MatchMode) :
    List Expr → List Expr → List (String × String) → Option (List Demand)
  | [], [], _ => some []
  | a :: as, c :: cs, scope =>
    joinDemands (demands mode a c scope) (demandsAll mode as cs scope)
  | _, _, _ => none

end

theorem joinDemands_eq_some {first second : Option (List Demand)} {ds : List Demand} :
    joinDemands first second = some ds ↔
      ∃ a b, first = some a ∧ second = some b ∧ ds = a ++ b := by
  cases first with
  | none => simp [joinDemands]
  | some a =>
      cases second with
      | none => simp [joinDemands]
      | some b => simp [joinDemands, eq_comm]

/-! ## What holds of all demands

    To say of two trees that their shapes agree and that every demand has a property `P`, it is
    enough to say it of their parts.  There is an equivalence for each form of the schema. -/

/-- The shapes agree and every demand has the property. -/
def AllDemands (P : Demand → Prop) (found : Option (List Demand)) : Prop :=
  ∃ ds, found = some ds ∧ ∀ d ∈ ds, P d

theorem AllDemands.forall_mem {P : Demand → Prop} {ds : List Demand}
    (h : AllDemands P (some ds)) : ∀ d ∈ ds, P d := by
  obtain ⟨_, hfound, hds⟩ := h
  cases hfound
  exact hds

theorem AllDemands.imp {P Q : Demand → Prop} {found : Option (List Demand)}
    (h : AllDemands P found) (himp : ∀ d, P d → Q d) : AllDemands Q found := by
  obtain ⟨ds, hfound, hds⟩ := h
  exact ⟨ds, hfound, fun d hd => himp d (hds d hd)⟩

section AllDemands

variable {P : Demand → Prop} {mode : MatchMode} {scope : List (String × String)} {c : Expr}

@[simp]
theorem allDemands_none : AllDemands P none ↔ False :=
  iff_false_intro fun ⟨_, h, _⟩ => nomatch h

@[simp]
theorem allDemands_nil : AllDemands P (some []) ↔ True :=
  iff_true_intro ⟨[], rfl, List.forall_mem_nil _⟩

@[simp]
theorem allDemands_singleton {d : Demand} : AllDemands P (some [d]) ↔ P d :=
  ⟨fun h => h.forall_mem d (List.mem_singleton_self d),
    fun h => ⟨[d], rfl, fun _ hd => List.mem_singleton.mp hd ▸ h⟩⟩

@[simp]
theorem allDemands_join {first second : Option (List Demand)} :
    AllDemands P (joinDemands first second) ↔ AllDemands P first ∧ AllDemands P second := by
  constructor
  · rintro ⟨ds, hjoin, hds⟩
    obtain ⟨a, b, ha, hb, rfl⟩ := joinDemands_eq_some.mp hjoin
    obtain ⟨hP, hQ⟩ := List.forall_mem_append.mp hds
    exact ⟨⟨a, ha, hP⟩, ⟨b, hb, hQ⟩⟩
  · rintro ⟨⟨a, ha, hP⟩, ⟨b, hb, hQ⟩⟩
    exact ⟨a ++ b, joinDemands_eq_some.mpr ⟨a, b, ha, hb, rfl⟩,
      List.forall_mem_append.mpr ⟨hP, hQ⟩⟩

@[simp]
theorem allDemands_ite {p : Prop} [Decidable p] {found : Option (List Demand)} :
    AllDemands P (if p then found else none) ↔ p ∧ AllDemands P found := by
  by_cases hp : p <;> simp [hp]

theorem varName?_eq_some {x : String} : c.varName? = some x ↔ c = .var x := by
  cases c <;> simp [Expr.varName?]

theorem allDemands_binary {op : Operator} {l r : Expr} :
    AllDemands P (demands mode (.binary op l r) c scope) ↔
      ∃ l' r', c = .binary op l' r' ∧ AllDemands P (demands mode l l' scope) ∧
        AllDemands P (demands mode r r' scope) := by
  cases c with
  | binary op' l' r' =>
      show AllDemands P (if op = op' then
        joinDemands (demands mode l l' scope) (demands mode r r' scope) else none) ↔ _
      rw [allDemands_ite, allDemands_join]
      simp only [Expr.binary.injEq]
      constructor
      · rintro ⟨rfl, h⟩
        exact ⟨l', r', ⟨rfl, rfl, rfl⟩, h⟩
      · rintro ⟨_, _, ⟨rfl, rfl, rfl⟩, h⟩
        exact ⟨rfl, h⟩
  | _ =>
      show AllDemands P none ↔ _
      simp

theorem allDemands_negation {e : Expr} :
    AllDemands P (demands mode (.negation e) c scope) ↔
      ∃ e', c = .negation e' ∧ AllDemands P (demands mode e e' scope) := by
  cases c with
  | negation e' =>
      show AllDemands P (demands mode e e' scope) ↔ _
      simp only [Expr.negation.injEq]
      constructor
      · intro h
        exact ⟨e', rfl, h⟩
      · rintro ⟨_, rfl, h⟩
        exact h
  | _ =>
      show AllDemands P none ↔ _
      simp

theorem allDemands_quantified {q : Quantifier} {x : String} {e : Expr} :
    AllDemands P (demands mode (.quantified q x e) c scope) ↔
      ∃ y e', c = .quantified q y e' ∧ AllDemands P (binderDemands mode x y scope) ∧
        AllDemands P (demands mode e e' ((x, y) :: scope)) := by
  cases c with
  | quantified q' y e' =>
      show AllDemands P (if q = q' then joinDemands (binderDemands mode x y scope)
        (demands mode e e' ((x, y) :: scope)) else none) ↔ _
      rw [allDemands_ite, allDemands_join]
      simp only [Expr.quantified.injEq]
      constructor
      · rintro ⟨rfl, h⟩
        exact ⟨y, e', ⟨rfl, rfl, rfl⟩, h⟩
      · rintro ⟨_, _, ⟨rfl, rfl, rfl⟩, h⟩
        exact ⟨rfl, h⟩
  | _ =>
      show AllDemands P none ↔ _
      simp

theorem allDemands_letter {f : String} (hf : mode.takesLetter f = true) :
    AllDemands P (demands mode (.apply f []) c scope) ↔ P ⟨f, c, scope⟩ := by
  show AllDemands P (if mode.takesLetter f then some [⟨f, c, scope⟩] else _) ↔ _
  rw [if_pos hf, allDemands_singleton]

theorem allDemands_apply {f : String} {args : List Expr}
    (h : ¬(args = [] ∧ mode.takesLetter f = true)) :
    AllDemands P (demands mode (.apply f args) c scope) ↔
      ∃ cs, c = .apply f cs ∧ AllDemands P (demandsAll mode args cs scope) := by
  have htakes : ¬(args.isEmpty && mode.takesLetter f) = true := by simpa using h
  show AllDemands P (if args.isEmpty && mode.takesLetter f then _ else _) ↔ _
  rw [if_neg htakes]
  cases c with
  | apply f' cs =>
      simp only [allDemands_ite, Expr.apply.injEq]
      constructor
      · rintro ⟨rfl, h⟩
        exact ⟨cs, ⟨rfl, rfl⟩, h⟩
      · rintro ⟨_, ⟨rfl, rfl⟩, h⟩
        exact ⟨rfl, h⟩
  | _ => simp

theorem demands_var (x : String) :
    demands mode (.var x) c scope =
      match scope.lookup x with
      | some y => if c.varName? = some y then some [] else none
      | none =>
        if mode.takesVariable x then some [⟨x, c, scope⟩]
        else if c.varName? = some x then some [] else none :=
  rfl

theorem allDemands_var_bound {x y : String} (h : scope.lookup x = some y) :
    AllDemands P (demands mode (.var x) c scope) ↔ c = .var y := by
  rw [demands_var, h]
  simp [varName?_eq_some]

theorem allDemands_var_free {x : String} (h : scope.lookup x = none)
    (hx : mode.takesVariable x = true) :
    AllDemands P (demands mode (.var x) c scope) ↔ P ⟨x, c, scope⟩ := by
  rw [demands_var, h]
  simp [hx]

theorem allDemands_var_other {x : String} (h : scope.lookup x = none)
    (hx : mode.takesVariable x = false) :
    AllDemands P (demands mode (.var x) c scope) ↔ c = .var x := by
  rw [demands_var, h]
  simp [hx, varName?_eq_some]

theorem allDemands_successor {n : Nat} {e : Expr} :
    AllDemands P (demands mode (.successor n e) c scope) ↔
      ∃ m base, c = .successor m base ∧
        (n < m ∧ AllDemands P (demands mode e (.primed (m - n) base) scope) ∨
          n = m ∧ AllDemands P (demands mode e base scope)) := by
  cases c with
  | successor m base =>
      show AllDemands P (if n < m then demands mode e (.primed (m - n) base) scope
        else if n = m then demands mode e base scope else none) ↔ _
      simp only [Expr.successor.injEq]
      constructor
      · intro h
        refine ⟨m, base, ⟨rfl, rfl⟩, ?_⟩
        by_cases hlt : n < m
        · rw [if_pos hlt] at h
          exact .inl ⟨hlt, h⟩
        · rw [if_neg hlt, allDemands_ite] at h
          exact .inr h
      · rintro ⟨_, _, ⟨rfl, rfl⟩, ⟨hlt, h⟩ | ⟨rfl, h⟩⟩
        · rw [if_pos hlt]
          exact h
        · rw [if_neg (Nat.lt_irrefl n), if_pos rfl]
          exact h
  | _ =>
      show AllDemands P none ↔ _
      simp

theorem allDemands_zero : AllDemands P (demands mode .zero c scope) ↔ c = .zero := by
  show AllDemands P (if c.isZero then some [] else none) ↔ _
  cases c <;> simp [Expr.isZero]

@[simp]
theorem allDemands_noArguments {cs : List Expr} :
    AllDemands P (demandsAll mode [] cs scope) ↔ cs = [] := by
  cases cs with
  | nil => exact iff_of_true (allDemands_nil.mpr trivial) rfl
  | cons b bs => exact iff_of_false (allDemands_none (P := P)).mp (List.cons_ne_nil b bs)

@[simp]
theorem allDemands_arguments {a : Expr} {args cs : List Expr} :
    AllDemands P (demandsAll mode (a :: args) cs scope) ↔
      ∃ b bs, cs = b :: bs ∧ AllDemands P (demands mode a b scope) ∧
        AllDemands P (demandsAll mode args bs scope) := by
  cases cs with
  | nil =>
      show AllDemands P none ↔ _
      simp
  | cons b bs =>
      show AllDemands P (joinDemands (demands mode a b scope) (demandsAll mode args bs scope)) ↔ _
      rw [allDemands_join]
      constructor
      · intro h
        exact ⟨b, bs, rfl, h⟩
      · rintro ⟨_, _, heq, h⟩
        cases heq
        exact h

end AllDemands

/-! ## The tree that is demanded -/

/-- Among the tidy candidates the image is the one whose demands all have the property. -/
def Pins (P : Demand → Prop) (mode : MatchMode) (scope : List (String × String))
    (e image : Expr) : Prop :=
  ∀ c : Expr, c.Tidy → (c = image ↔ AllDemands P (demands mode e c scope))

namespace Pins

variable {P : Demand → Prop} {mode : MatchMode} {scope : List (String × String)}
variable {e l r e' l' r' : Expr}

theorem binary {op : Operator} (hl : Pins P mode scope l l') (hr : Pins P mode scope r r') :
    Pins P mode scope (.binary op l r) (.binary op l' r') := by
  intro c hc
  rw [allDemands_binary]
  constructor
  · rintro rfl
    cases hc with
    | binary htl htr => exact ⟨l', r', rfl, (hl l' htl).mp rfl, (hr r' htr).mp rfl⟩
  · rintro ⟨cl, cr, rfl, hdl, hdr⟩
    cases hc with
    | binary htl htr => rw [(hl cl htl).mpr hdl, (hr cr htr).mpr hdr]

theorem negation (h : Pins P mode scope e e') :
    Pins P mode scope (.negation e) (.negation e') := by
  intro c hc
  rw [allDemands_negation]
  constructor
  · rintro rfl
    cases hc with
    | negation hbody => exact ⟨e', rfl, (h e' hbody).mp rfl⟩
  · rintro ⟨body, rfl, hd⟩
    cases hc with
    | negation hbody => rw [(h body hbody).mpr hd]

/-- Below a quantifier its pair of binders is in scope. -/
theorem quantified {q : Quantifier} {x y : String}
    (hbinder : ∀ z, z = y ↔ AllDemands P (binderDemands mode x z scope))
    (h : Pins P mode ((x, y) :: scope) e e') :
    Pins P mode scope (.quantified q x e) (.quantified q y e') := by
  intro c hc
  rw [allDemands_quantified]
  constructor
  · rintro rfl
    cases hc with
    | quantified hbody => exact ⟨y, e', rfl, (hbinder y).mp rfl, (h e' hbody).mp rfl⟩
  · rintro ⟨z, body, rfl, hz, hd⟩
    obtain rfl := (hbinder z).mpr hz
    cases hc with
    | quantified hbody => rw [(h body hbody).mpr hd]

theorem arguments {image : Expr → Expr} {args cs : List Expr}
    (h : ∀ a ∈ args, Pins P mode scope a (image a)) (hcs : ∀ c ∈ cs, c.Tidy) :
    cs = args.map image ↔ AllDemands P (demandsAll mode args cs scope) := by
  induction args generalizing cs with
  | nil => simp
  | cons a args ih =>
      cases cs with
      | nil => simp
      | cons b bs =>
          have hhead := h a List.mem_cons_self b (hcs b List.mem_cons_self)
          have htail := ih (fun a' ha' => h a' (List.mem_cons_of_mem a ha'))
            (fun c hc => hcs c (List.mem_cons_of_mem b hc))
          rw [List.map_cons, List.cons.injEq, hhead, htail, allDemands_arguments]
          constructor
          · intro hboth
            exact ⟨b, bs, rfl, hboth⟩
          · rintro ⟨_, _, heq, hboth⟩
            cases heq
            exact hboth

theorem apply {f : String} {args : List Expr} {image : Expr → Expr}
    (hletter : ¬(args = [] ∧ mode.takesLetter f = true))
    (h : ∀ a ∈ args, Pins P mode scope a (image a)) :
    Pins P mode scope (.apply f args) (.apply f (args.map image)) := by
  intro c hc
  rw [allDemands_apply hletter]
  constructor
  · rintro rfl
    cases hc with
    | apply hcs => exact ⟨_, rfl, (arguments h hcs).mp rfl⟩
  · rintro ⟨cs, rfl, hd⟩
    cases hc with
    | apply hcs => rw [(arguments h hcs).mpr hd]

/-- A chain of primes is taken off the candidate, which may have more of them. -/
theorem successor {n : Nat} (hn : 0 < n) (htidy : e'.Tidy) (h : Pins P mode scope e e') :
    Pins P mode scope (.successor n e) (.primed n e') := by
  intro c hc
  rw [allDemands_successor]
  cases hshape : c.isSuccessor with
  | false =>
      refine iff_of_false (fun heq => ?_) ?_
      · rw [heq, Expr.isSuccessor_primed hn] at hshape
        cases hshape
      · rintro ⟨m, base, rfl, _⟩
        cases hshape
  | true =>
      cases hc with
      | @successor m base hm hbase hcore =>
          rw [Expr.primed_eq_successor_iff hn htidy hbase]
          constructor
          · rintro (⟨hlt, heq⟩ | ⟨rfl, heq⟩)
            · exact ⟨m, base, rfl, .inl ⟨hlt, (h _ (hcore.primed _)).mp heq.symm⟩⟩
            · exact ⟨n, base, rfl, .inr ⟨rfl, (h _ hcore).mp heq.symm⟩⟩
          · rintro ⟨_, _, heq, hrest⟩
            cases heq
            rcases hrest with ⟨hlt, hd⟩ | ⟨rfl, hd⟩
            · exact .inl ⟨hlt, ((h _ (hcore.primed _)).mpr hd).symm⟩
            · exact .inr ⟨rfl, ((h _ hcore).mpr hd).symm⟩
      | _ => cases hshape

end Pins

/-! ## Passing from one property to another -/

/-- What each pair of arguments passes on, the argument lists pass on. -/
theorem AllDemands.imp_arguments {P Q : Demand → Prop} {mode : MatchMode}
    {scope : List (String × String)} {args cs : List Expr}
    (h : AllDemands P (demandsAll mode args cs scope))
    (himp : ∀ a ∈ args, ∀ c ∈ cs, AllDemands P (demands mode a c scope) →
      AllDemands Q (demands mode a c scope)) :
    AllDemands Q (demandsAll mode args cs scope) := by
  induction args generalizing cs with
  | nil => exact allDemands_noArguments.mpr (allDemands_noArguments.mp h)
  | cons a args ih =>
      obtain ⟨b, bs, rfl, hhead, htail⟩ := allDemands_arguments.mp h
      refine allDemands_arguments.mpr ⟨b, bs, rfl, ?_, ih htail ?_⟩
      · exact himp a List.mem_cons_self b List.mem_cons_self hhead
      · exact fun a' ha' c hc => himp a' (List.mem_cons_of_mem a ha') c (List.mem_cons_of_mem b hc)

/-- If of each argument it is known when its demands have the property, so it is of them all. -/
theorem AllDemands.arguments_iff {P Q : Demand → Prop} {R : Expr → Prop} {mode : MatchMode}
    {scope : List (String × String)} {args cs : List Expr}
    (h : AllDemands P (demandsAll mode args cs scope))
    (hiff : ∀ a ∈ args, ∀ {c}, AllDemands P (demands mode a c scope) →
      (AllDemands Q (demands mode a c scope) ↔ R a)) :
    AllDemands Q (demandsAll mode args cs scope) ↔ ∀ a ∈ args, R a := by
  induction args generalizing cs with
  | nil =>
      obtain rfl := allDemands_noArguments.mp h
      exact iff_of_true (allDemands_noArguments.mpr rfl) (List.forall_mem_nil _)
  | cons a args ih =>
      obtain ⟨b, bs, rfl, hhead, htail⟩ := allDemands_arguments.mp h
      show AllDemands Q (joinDemands (demands mode a b scope) (demandsAll mode args bs scope)) ↔ _
      rw [allDemands_join, List.forall_mem_cons, hiff a List.mem_cons_self hhead,
        ih htail (fun a' ha' => hiff a' (List.mem_cons_of_mem a ha'))]

/-- Each argument is compared with one of the others. -/
theorem AllDemands.exists_argument {P : Demand → Prop} {mode : MatchMode}
    {scope : List (String × String)} {args cs : List Expr}
    (h : AllDemands P (demandsAll mode args cs scope)) {a : Expr} (ha : a ∈ args) :
    ∃ c, AllDemands P (demands mode a c scope) := by
  induction args generalizing cs with
  | nil => exact nomatch ha
  | cons b args ih =>
      obtain ⟨c, cs, rfl, hhead, htail⟩ := allDemands_arguments.mp h
      rcases List.mem_cons.mp ha with rfl | hmem
      · exact ⟨c, hhead⟩
      · exact ih htail hmem

/-- A pair of binders demands something of a single letter only. -/
theorem AllDemands.of_binder {P Q : Demand → Prop} {mode : MatchMode} {x y : String}
    {scope : List (String × String)} (h : AllDemands P (binderDemands mode x y scope))
    (binder : mode = .schema → isSingleLetter x = true → Q ⟨x, .var y, scope⟩) :
    AllDemands Q (binderDemands mode x y scope) := by
  unfold binderDemands at h ⊢
  by_cases hletter : mode = .schema ∧ isSingleLetter x = true
  · rw [if_pos hletter]
    exact allDemands_singleton.mpr (binder hletter.1 hletter.2)
  · rw [if_neg hletter, allDemands_ite] at h ⊢
    exact ⟨h.1, allDemands_nil.mpr trivial⟩

/-- What holds of the demand of every leaf that may stand for something holds of all demands. -/
theorem AllDemands.of_leaves {P Q : Demand → Prop} {mode : MatchMode} {e c : Expr}
    {scope : List (String × String)} (h : AllDemands P (demands mode e c scope))
    (letter : ∀ f c scope, mode.takesLetter f = true → Q ⟨f, c, scope⟩)
    (var : ∀ x c scope, mode.takesVariable x = true → Q ⟨x, c, scope⟩)
    (binder : ∀ x y scope, mode = .schema → isSingleLetter x = true → Q ⟨x, .var y, scope⟩) :
    AllDemands Q (demands mode e c scope) := by
  induction e generalizing c scope with
  | binary op l r ihl ihr =>
      obtain ⟨l', r', rfl, hl, hr⟩ := allDemands_binary.mp h
      exact allDemands_binary.mpr ⟨l', r', rfl, ihl hl, ihr hr⟩
  | negation e ih =>
      obtain ⟨e', rfl, hbody⟩ := allDemands_negation.mp h
      exact allDemands_negation.mpr ⟨e', rfl, ih hbody⟩
  | quantified q x e ih =>
      obtain ⟨y, e', rfl, hbinder, hbody⟩ := allDemands_quantified.mp h
      exact allDemands_quantified.mpr ⟨y, e', rfl, hbinder.of_binder (binder x y scope), ih hbody⟩
  | apply f args ih =>
      by_cases hletter : args = [] ∧ mode.takesLetter f = true
      · obtain ⟨rfl, htakes⟩ := hletter
        exact (allDemands_letter htakes).mpr (letter f c scope htakes)
      · obtain ⟨cs, rfl, hcs⟩ := (allDemands_apply hletter).mp h
        exact (allDemands_apply hletter).mpr ⟨cs, rfl, hcs.imp_arguments
          fun a ha b _ => ih a ha⟩
  | var x =>
      cases hlookup : scope.lookup x with
      | some y => exact (allDemands_var_bound hlookup).mpr ((allDemands_var_bound hlookup).mp h)
      | none =>
          cases htakes : mode.takesVariable x with
          | true => exact (allDemands_var_free hlookup htakes).mpr (var x c scope htakes)
          | false =>
              exact (allDemands_var_other hlookup htakes).mpr
                ((allDemands_var_other hlookup htakes).mp h)
  | successor n e ih =>
      obtain ⟨m, base, rfl, hrest⟩ := allDemands_successor.mp h
      refine allDemands_successor.mpr ⟨m, base, rfl, ?_⟩
      rcases hrest with ⟨hlt, hrest⟩ | ⟨heq, hrest⟩
      · exact .inl ⟨hlt, ih hrest⟩
      · exact .inr ⟨heq, ih hrest⟩
  | zero => exact allDemands_zero.mpr (allDemands_zero.mp h)

/-! ## What is handed down to the demands -/

/-- A property that goes down from a tree to its parts, and from a chain of primes to what a match
    leaves of it. -/
structure HandedDown (Q : Expr → Prop) : Prop where
  part : ∀ {e p : Expr}, Q e → p ∈ e.parts → Q p
  chain : ∀ {n : Nat} {e : Expr}, Q (.successor n e) → ∀ k, Q (e.primed k)

/-- What is handed down holds of all that is demanded of a candidate, whatever the schema is. -/
theorem HandedDown.demands {Q : Expr → Prop} (hQ : HandedDown Q) {P : Demand → Prop}
    {mode : MatchMode} {scope : List (String × String)} {e c : Expr} (hc : Q c)
    (h : AllDemands P (demands mode e c scope)) :
    AllDemands (fun d => Q d.value) (demands mode e c scope) := by
  induction e generalizing c scope with
  | binary op l r ihl ihr =>
      obtain ⟨l', r', rfl, hl, hr⟩ := allDemands_binary.mp h
      have hleft : Q l' := hQ.part hc List.mem_cons_self
      have hright : Q r' := hQ.part hc (List.mem_cons_of_mem l' List.mem_cons_self)
      exact allDemands_binary.mpr ⟨l', r', rfl, ihl hleft hl, ihr hright hr⟩
  | negation e ih =>
      obtain ⟨e', rfl, hbody⟩ := allDemands_negation.mp h
      exact allDemands_negation.mpr ⟨e', rfl, ih (hQ.part hc List.mem_cons_self) hbody⟩
  | quantified q x e ih =>
      obtain ⟨y, e', rfl, hbinder, hbody⟩ := allDemands_quantified.mp h
      have hvar : Q (.var y) := hQ.part hc List.mem_cons_self
      have hinner : Q e' := hQ.part hc (List.mem_cons_of_mem _ List.mem_cons_self)
      exact allDemands_quantified.mpr ⟨y, e', rfl, hbinder.of_binder fun _ _ => hvar,
        ih hinner hbody⟩
  | apply f args ih =>
      by_cases hletter : args = [] ∧ mode.takesLetter f = true
      · obtain ⟨rfl, htakes⟩ := hletter
        exact (allDemands_letter htakes).mpr hc
      · obtain ⟨cs, rfl, hcs⟩ := (allDemands_apply hletter).mp h
        exact (allDemands_apply hletter).mpr ⟨cs, rfl, hcs.imp_arguments
          fun a ha b hb => ih a ha (hQ.part hc hb)⟩
  | var x =>
      cases hlookup : scope.lookup x with
      | some y => exact (allDemands_var_bound hlookup).mpr ((allDemands_var_bound hlookup).mp h)
      | none =>
          cases htakes : mode.takesVariable x with
          | true => exact (allDemands_var_free hlookup htakes).mpr hc
          | false =>
              exact (allDemands_var_other hlookup htakes).mpr
                ((allDemands_var_other hlookup htakes).mp h)
  | successor n e ih =>
      obtain ⟨m, base, rfl, hrest⟩ := allDemands_successor.mp h
      refine allDemands_successor.mpr ⟨m, base, rfl, ?_⟩
      rcases hrest with ⟨hlt, hrest⟩ | ⟨heq, hrest⟩
      · exact .inl ⟨hlt, ih (hQ.chain hc (m - n)) hrest⟩
      · exact .inr ⟨heq, ih (hQ.part hc List.mem_cons_self) hrest⟩
  | zero => exact allDemands_zero.mpr (allDemands_zero.mp h)

/-! ## Demands are of the right sort -/

/-- An upper-case name stands for a formula, a lower-case name for a term. -/
def Demand.Sorted (d : Demand) : Prop :=
  isName Char.isUpper d.name = true ∧ d.value.IsFormula ∨
    isName Char.isLower d.name = true ∧ d.value.IsTerm

/-- Of a variable a term is demanded. -/
theorem Demand.Sorted.isTerm {d : Demand} (h : d.Sorted)
    (hname : isName Char.isLower d.name = true) : d.value.IsTerm := by
  rcases h with ⟨hupper, _⟩ | ⟨_, hterm⟩
  · rw [not_isUpper_name hname] at hupper
    exact nomatch hupper
  · exact hterm

/-- Of a letter a formula is demanded. -/
theorem Demand.Sorted.isFormula {d : Demand} (h : d.Sorted)
    (hname : isName Char.isUpper d.name = true) : d.value.IsFormula := by
  rcases h with ⟨_, hformula⟩ | ⟨hlower, _⟩
  · exact hformula
  · rw [not_isUpper_name hlower] at hname
    exact nomatch hname

/-- Demands of one name with the same text are for the same tree. -/
theorem Demand.Sorted.eq_of_text {d d' : Demand} (h : d.Sorted) (h' : d'.Sorted)
    (hname : d.name = d'.name) (htext : d.value.text = d'.value.text) : d.value = d'.value := by
  rcases h with ⟨hupper, hformula⟩ | ⟨hlower, hterm⟩
  · exact Grammar.formula_eq_of_text_eq hformula (h'.isFormula (hname ▸ hupper)) htext
  · exact Grammar.term_eq_of_text_eq hterm (h'.isTerm (hname ▸ hlower)) htext

/-- In a term only terms are demanded. -/
theorem sorted_of_isTerm {P : Demand → Prop} {mode : MatchMode} {scope : List (String × String)}
    {e c : Expr} (he : e.IsTerm) (hc : c.IsTerm)
    (h : AllDemands P (demands mode e c scope)) :
    AllDemands Demand.Sorted (demands mode e c scope) := by
  induction he generalizing c with
  | zero => exact allDemands_zero.mpr (allDemands_zero.mp h)
  | @var x hx =>
      cases hlookup : scope.lookup x with
      | some y => exact (allDemands_var_bound hlookup).mpr ((allDemands_var_bound hlookup).mp h)
      | none =>
          cases htakes : mode.takesVariable x with
          | true => exact (allDemands_var_free hlookup htakes).mpr (.inr ⟨hx, hc⟩)
          | false =>
              exact (allDemands_var_other hlookup htakes).mpr
                ((allDemands_var_other hlookup htakes).mp h)
  | @apply f args hf hne _ ih =>
      have harity : ¬(args = [] ∧ mode.takesLetter f = true) := fun h => hne h.1
      obtain ⟨cs, rfl, hcs⟩ := (allDemands_apply harity).mp h
      cases hc with
      | apply _ _ hterms =>
          exact (allDemands_apply harity).mpr ⟨cs, rfl, hcs.imp_arguments
            fun a ha b hb => ih a ha (hterms b hb)⟩
  | successor hn hs _ ih =>
      obtain ⟨m, base, rfl, hrest⟩ := allDemands_successor.mp h
      obtain ⟨_, _, hbase⟩ := hc.base
      refine allDemands_successor.mpr ⟨m, base, rfl, ?_⟩
      rcases hrest with ⟨hlt, hrest⟩ | ⟨heq, hrest⟩
      · exact .inl ⟨hlt, ih (hbase.primed _) hrest⟩
      · exact .inr ⟨heq, ih hbase hrest⟩
  | times _ _ ihl ihr =>
      obtain ⟨l', r', rfl, hl, hr⟩ := allDemands_binary.mp h
      cases hc with
      | times hcl hcr => exact allDemands_binary.mpr ⟨l', r', rfl, ihl hcl hl, ihr hcr hr⟩
  | plus _ _ ihl ihr =>
      obtain ⟨l', r', rfl, hl, hr⟩ := allDemands_binary.mp h
      cases hc with
      | plus hcl hcr => exact allDemands_binary.mpr ⟨l', r', rfl, ihl hcl hl, ihr hcr hr⟩

/-- In a formula formulas are demanded of letters, terms of variables and binders. -/
theorem sorted_of_isFormula {P : Demand → Prop} {mode : MatchMode}
    {scope : List (String × String)} {e c : Expr} (he : e.IsFormula) (hc : c.IsFormula)
    (h : AllDemands P (demands mode e c scope)) :
    AllDemands Demand.Sorted (demands mode e c scope) := by
  induction he generalizing c scope with
  | equals hl hr =>
      obtain ⟨l', r', rfl, hdl, hdr⟩ := allDemands_binary.mp h
      cases hc with
      | equals hcl hcr =>
          exact allDemands_binary.mpr ⟨l', r', rfl, sorted_of_isTerm hl hcl hdl,
            sorted_of_isTerm hr hcr hdr⟩
  | @apply p args hp hargs =>
      by_cases hletter : args = [] ∧ mode.takesLetter p = true
      · obtain ⟨rfl, htakes⟩ := hletter
        exact (allDemands_letter htakes).mpr (.inl ⟨hp, hc⟩)
      · obtain ⟨cs, rfl, hcs⟩ := (allDemands_apply hletter).mp h
        cases hc with
        | apply _ hterms =>
            exact (allDemands_apply hletter).mpr ⟨cs, rfl, hcs.imp_arguments
              fun a ha b hb => sorted_of_isTerm (hargs a ha) (hterms b hb)⟩
  | @quantified q x e hx _ ih =>
      obtain ⟨y, e', rfl, hbinder, hbody⟩ := allDemands_quantified.mp h
      cases hc with
      | quantified hy hce =>
          exact allDemands_quantified.mpr ⟨y, e', rfl,
            hbinder.of_binder fun _ _ => .inr ⟨hx, .var hy⟩, ih hce hbody⟩
  | negation _ ih =>
      obtain ⟨e', rfl, hbody⟩ := allDemands_negation.mp h
      cases hc with
      | negation hce => exact allDemands_negation.mpr ⟨e', rfl, ih hce hbody⟩
  | and _ _ ihl ihr =>
      obtain ⟨l', r', rfl, hl, hr⟩ := allDemands_binary.mp h
      cases hc with
      | and hcl hcr => exact allDemands_binary.mpr ⟨l', r', rfl, ihl hcl hl, ihr hcr hr⟩
  | or _ _ ihl ihr =>
      obtain ⟨l', r', rfl, hl, hr⟩ := allDemands_binary.mp h
      cases hc with
      | or hcl hcr => exact allDemands_binary.mpr ⟨l', r', rfl, ihl hcl hl, ihr hcr hr⟩
  | implies _ _ ihl ihr =>
      obtain ⟨l', r', rfl, hl, hr⟩ := allDemands_binary.mp h
      cases hc with
      | implies hcl hcr => exact allDemands_binary.mpr ⟨l', r', rfl, ihl hcl hl, ihr hcr hr⟩

end PeanoCalculus
