import PeanoCalculus.Proofs.Grammar.Depth
import PeanoCalculus.Proofs.Grammar.RoundTrip

/-! # Errors are localised

    A text that cannot be read is damaged somewhere, and the error says where.  It never points
    behind the first damage: what stands before the position can be completed to a text that is
    read.  The readers decide between formulas and terms by looking ahead, at characters that the
    completed text need not have.  The grammar does not look ahead, so the argument runs over
    phrases:

    * a reader that fails leaves a trace that begins behind the beginning of a phrase of its level
      (`Locates`); of a reader that is one of several forms this is known of its hard faults only
      (`Commits`), the soft ones being given up for the next form;
    * the beginning of a part is, with what stands before the part, a beginning of the whole
      (`Damaged.within`), which is all that a reader adds to the failure of one that it calls;
    * every phrase is read, so the completed text is.

    The trace also says what was expected.  Of the constructs with a name only four can be the
    innermost: those that fail before a part of theirs with a name of its own has begun.

    Only a name takes something from the text behind it.  The body of a quantifier that fails
    at once is completed by a letter, which the digits of the variable do not swallow. -/

namespace PeanoCalculus.Grammar

open PeanoCalculus.Text

/-! ## Traces -/

/-- The constructs that can be the innermost of a trace. -/
def innermost : List String :=
  ["term", "'='", "closing parenthesis", "quantified variable"]

/-- What a trace names it still names with more notes behind. -/
theorem construct?_append {trace : Trace} {construct : String}
    (h : trace.construct? = some construct) (more : Trace) :
    Trace.construct? (trace ++ more) = some construct := by
  show List.findSome? _ (trace ++ more) = _
  rw [List.findSome?_append, show List.findSome? _ trace = some construct from h]
  rfl

theorem expected_of_construct? {trace : Trace} {construct : String}
    (h : trace.construct? = some construct) : trace.expected = construct := by
  simp only [Trace.expected, h]
  rfl

/-- The trace that a fault leaves. -/
def Fault.trace? : Fault → Option Trace
  | .soft trace | .hard trace => some trace
  | .incomplete => none

theorem trace?_eq_some {fault : Fault} {trace : Trace} :
    fault.trace? = some trace ↔ fault = .soft trace ∨ fault = .hard trace := by
  cases fault <;> simp [Fault.trace?]

theorem trace?_noted (fault : Fault) (note : Note) :
    (fault.noted note).trace? = fault.trace?.map (· ++ [note]) := by
  cases fault <;> rfl

/-! ## Beginnings of phrases -/

section Damaged

variable {α β : Type}

/-- More text behind it makes a phrase of this text. -/
def Begins (P : List Char → α → Prop) (u : List Char) : Prop :=
  ∃ more a, P (u ++ more) a

/-- The text is in order up to where the trace begins: what stands before begins a phrase, and one
    of the innermost constructs was expected there. -/
def Damaged (P : List Char → α → Prop) (s : List Char) (trace : Trace) : Prop :=
  (∃ construct ∈ innermost, trace.construct? = some construct) ∧
    ∃ u note, trace.head? = some note ∧ s = u ++ note.rest ∧ Begins P u

/-- A reader, on failure, has passed over the beginning of a phrase. -/
def Locates (P : List Char → α → Prop) (reader : Reader α) : Prop :=
  ∀ ⦃s fault trace⦄, reader s = .error fault → fault.trace? = some trace → Damaged P s trace

/-- A reader that fails for good has passed over the beginning of a phrase. -/
def Commits (P : List Char → α → Prop) (reader : Reader α) : Prop :=
  ∀ ⦃s trace⦄, reader s = .error (.hard trace) → Damaged P s trace

variable {P : List Char → α → Prop} {Q : List Char → β → Prop} {r : Reader α}
variable {s : List Char} {trace : Trace}

/-- A construct that is missing at the very place where a phrase could begin. -/
theorem damaged_here {a : α} {w : List Char} (h : P w a) {cause : Cause} {more : Trace}
    (hconstruct : ∃ construct ∈ innermost, Trace.construct? (⟨s, cause⟩ :: more) = some construct) :
    Damaged P s (⟨s, cause⟩ :: more) :=
  ⟨hconstruct, [], ⟨s, cause⟩, rfl, rfl, w, a, h⟩

/-- A note on the way out changes neither the place nor the innermost construct. -/
theorem Damaged.noted (h : Damaged P s trace) (note : Note) : Damaged P s (trace ++ [note]) := by
  obtain ⟨⟨construct, hmem, hconstruct⟩, u, first, hfirst, hs, hbegins⟩ := h
  refine ⟨⟨construct, hmem, construct?_append hconstruct _⟩, u, first, ?_, hs, hbegins⟩
  rw [List.head?_append, hfirst]
  rfl

/-- A part of a phrase passes its damage on to the whole. -/
theorem Damaged.within (h : Damaged P s trace) (before after : List Char)
    (hwhole : ∀ w a, P w a → ∃ b, Q (before ++ (w ++ after)) b) :
    Damaged Q (before ++ s) trace := by
  obtain ⟨hconstruct, u, note, hnote, rfl, more, a, hpart⟩ := h
  obtain ⟨b, hb⟩ := hwhole (u ++ more) a hpart
  refine ⟨hconstruct, before ++ u, note, hnote, (List.append_assoc ..).symm, more ++ after, b, ?_⟩
  rw [List.append_assoc, ← List.append_assoc u]
  exact hb

/-- A phrase of one kind may be taken for one of another. -/
theorem Damaged.lift (h : Damaged P s trace) (hlift : ∀ w a, P w a → ∃ b, Q w b) :
    Damaged Q s trace := by
  refine h.within [] [] fun w a hw => ?_
  rw [List.append_nil]
  exact hlift w a hw

theorem Locates.commits (h : Locates P r) : Commits P r :=
  fun _ _ hread => h hread rfl

theorem Locates.committed (h : Locates P r) : Locates P (committed r) := by
  intro s fault trace hread htrace
  rcases committed_eq_error hread with ⟨rfl, -⟩ | ⟨trace', rfl, hsoft | hhard⟩
  · cases htrace
  · exact h hsoft htrace
  · exact h hhard htrace

theorem Locates.inside (h : Locates P r) (name : String) : Locates P (inside name r) := by
  intro s fault trace hread htrace
  obtain ⟨fault', hfailed, rfl⟩ := inside_eq_error.mp hread
  rw [trace?_noted] at htrace
  obtain ⟨trace', htrace', rfl⟩ := Option.map_eq_some_iff.mp htrace
  exact (h hfailed htrace').noted _

/-- Where a construct with a name of its own begins, it is what was expected. -/
theorem locates_construct {construct : String} (hconstruct : construct ∈ innermost) {a : α}
    {w : List Char} (hw : P w a)
    (h : ∀ ⦃s fault⦄, r s = .error fault →
      ∃ cause, cause.construct? = none ∧ fault = .soft [⟨s, cause⟩]) :
    Locates P (Grammar.inside construct r) := by
  intro s fault trace hread htrace
  obtain ⟨fault', hfailed, rfl⟩ := inside_eq_error.mp hread
  obtain ⟨cause, hcause, rfl⟩ := h hfailed
  obtain rfl := Option.some.inj htrace
  refine damaged_here hw ⟨construct, hconstruct, ?_⟩
  show List.findSome? _ _ = _
  rw [List.findSome?_cons, hcause]
  rfl

/-- A sign that has a name is what was expected. -/
theorem sign_locates {construct : String} (hconstruct : construct ∈ innermost) (sign : Char) :
    Locates (fun w (_ : Unit) => w = [sign])
      (Grammar.committed (Grammar.inside construct (exactly sign))) := by
  refine (locates_construct hconstruct (a := ()) rfl ?_).committed
  intro s fault hmissing
  exact ⟨.missing sign, rfl, (exactly_eq_error.mp hmissing).2⟩

/-- A sign that may be given up never fails for good. -/
theorem exactly_map_ne_hard {sign : Char} {a : α} :
    (do exactly sign; return a : Reader α) s ≠ .error (.hard trace) := by
  intro hread
  cases (exactly_eq_error.mp (Reader.map_eq_error.mp hread)).2

/-- The sign before a part is passed over with it. -/
theorem Commits.after (h : Commits P r) (sign : Char) :
    Commits (fun w a => ∃ u, w = sign :: u ∧ P u a) (do exactly sign; r) := by
  intro s trace hread
  rcases Reader.bind_eq_error.mp hread with hsign | ⟨_, mid, hsign, hpart⟩
  · cases (exactly_eq_error.mp hsign).2
  · obtain rfl := exactly_eq_ok.mp hsign
    refine (h hpart).within [sign] [] fun w a hw => ?_
    rw [List.append_nil]
    exact ⟨a, w, rfl, hw⟩

/-- A choice fails for good as one of its forms does. -/
theorem firstOf_commits {more : List (Reader α)} (h : ∀ form ∈ r :: more, Commits P form) :
    Commits P (firstOf r more) := by
  intro s trace hread
  obtain ⟨form, hform, hhard⟩ := firstOf_eq_final hread (isFinal_hard _)
  exact h form hform hhard

/-- It fails softly as the last of them. -/
theorem firstOf_locates {more : List (Reader α)} {last : Reader α}
    (hcommits : ∀ form ∈ r :: more, Commits P form) (hlast : (r :: more).getLast? = some last)
    (hlocates : Locates P last) : Locates P (firstOf r more) := by
  intro s fault trace hread htrace
  rcases trace?_eq_some.mp htrace with rfl | rfl
  · obtain ⟨trace', hsoft, rfl⟩ := firstOf_eq_soft hread hlast
    exact (hlocates hsoft rfl).noted _
  · exact firstOf_commits hcommits hread

/-- Behind what has been read, a repetition that fails has begun one more item. -/
theorem many_damaged {item : Reader β} {join : α → β → α} {I : List Char → β → Prop}
    (hconsumes : Consumes I item) (hcommits : Commits I item)
    (hpos : ∀ w b, I w b → w ≠ []) (hjoin : ∀ v w l x, P v l → I w x → P (v ++ w) (join l x))
    {left : α} {v : List Char} {fault : Fault} (hv : P v left)
    (hread : many item join left s = .error fault) (htrace : fault.trace? = some trace) :
    Damaged P (v ++ s) trace := by
  refine many_induct (motive := fun left s result => ∀ v, P v left → result = .error fault →
    Damaged P (v ++ s) trace) ?_ ?_ ?_ ?_ left s v hv hread
  · intro left s next mid result hnext _ ih v hv hresult
    obtain ⟨u, rfl, hu⟩ := hconsumes hnext
    rw [← List.append_assoc]
    exact ih (v ++ u) (hjoin v u left next hv hu) hresult
  · intro left s next mid hnext hstalled v _ _
    obtain ⟨u, rfl, hu⟩ := hconsumes hnext
    have := List.length_pos_iff.mpr (hpos u next hu)
    rw [List.length_append] at hstalled
    omega
  · intro left s trace _ v _ hresult
    cases hresult
  · intro left s fault' hitem hfinal v hv hresult
    obtain rfl := Except.error.inj hresult
    rcases trace?_eq_some.mp htrace with rfl | rfl
    · exact absurd rfl (hfinal trace)
    · refine (hcommits hitem).within v [] fun w x hw => ?_
      rw [List.append_nil]
      exact ⟨_, hjoin v w left x hv hw⟩

end Damaged

/-! ## The shortest phrases -/

theorem termPhrase_zero (level : TermLevel) : TermPhrase level ['0'] .zero := by
  have hprimed : TermPhrase .primed ['0'] .zero :=
    @TermPhrase.primes ['0'] [] .zero .zero (List.forall_mem_nil _)
  cases level with
  | sum => exact .product (.primed hprimed)
  | product => exact .primed hprimed
  | primed => exact hprimed
  | atom => exact .zero

theorem formulaPhrase_letter (level : FormulaLevel) :
    FormulaPhrase level ['A'] (.letter "A") := by
  have hunary : FormulaPhrase .unary ['A'] (.letter "A") := FormulaPhrase.letter (p := "A") rfl
  cases level with
  | implication => exact .disjunction (.conjunction (.unary hunary))
  | disjunction => exact .conjunction (.unary hunary)
  | conjunction => exact .unary hunary
  | unary => exact hunary

/-! ## Compound readers -/

section Compound

variable {α : Type} {P : List Char → α → Prop} {r : Reader α}

/-- Operands fail one of them. -/
theorem joined_locates {sign : Char} {name : String} {join : Expr → Expr → Expr}
    {operand : Reader Expr} {P Q : List Char → Expr → Prop} (hconsumes : Consumes P operand)
    (hlocates : Locates P operand) (hlift : ∀ w e, P w e → Q w e)
    (hjoin : ∀ v w l r, Q v l → P w r → Q (v ++ sign :: w) (join l r)) :
    Locates Q (joined sign name join operand) := by
  intro s fault trace hread htrace
  rcases Reader.bind_eq_error.mp hread with hfirst | ⟨first, mid, hfirst, hmore⟩
  · exact (hlocates hfirst htrace).lift fun w e hw => ⟨e, hlift w e hw⟩
  · obtain ⟨v, rfl, hv⟩ := hconsumes hfirst
    refine many_damaged ((hconsumes.inside name).committed.after sign)
      ((hlocates.inside name).committed.commits.after sign) ?_ ?_ (hlift v first hv) hmore htrace
    · rintro _ _ ⟨u, rfl, -⟩
      exact List.cons_ne_nil _ _
    · rintro v _ l x hl ⟨u, rfl, hu⟩
      exact hjoin v u l x hl hu

/-- Behind the opening parenthesis it is the inside that fails, or the closing one is missing. -/
theorem enclosed_commits (hconsumes : Consumes P r) (hlocates : Locates P r) :
    Commits (fun w a => ∃ u, w = '(' :: (u ++ [')']) ∧ P u a) (enclosed r) := by
  intro s trace hread
  rcases Reader.bind_eq_error.mp hread with hopen | ⟨_, t, hopen, hafter⟩
  · cases (exactly_eq_error.mp hopen).2
  obtain rfl := exactly_eq_ok.mp hopen
  rcases Reader.bind_eq_error.mp hafter with hfailed | ⟨a, mid, hinner, hend⟩
  · exact (hlocates.committed hfailed rfl).within ['('] [')'] fun w a hw => ⟨a, w, rfl, hw⟩
  · obtain ⟨u, rfl, hu⟩ := hconsumes.committed hinner
    have hclosing := Reader.map_eq_error.mp hend
    refine (sign_locates (by decide) ')' hclosing rfl).within ('(' :: u) [] ?_
    rintro _ _ rfl
    exact ⟨a, u, rfl, hu⟩

/-- Only the opening parenthesis can be given up for another form. -/
theorem enclosed_eq_soft {s : List Char} {trace : Trace}
    (h : enclosed r s = .error (.soft trace)) : trace = [⟨s, .missing '('⟩] := by
  rcases Reader.bind_eq_error.mp h with hopen | ⟨_, _, _, hafter⟩
  · exact Fault.soft.inj (exactly_eq_error.mp hopen).2
  rcases Reader.bind_eq_error.mp hafter with hinner | ⟨_, _, _, hend⟩
  · exact absurd hinner committed_ne_soft
  · exact absurd (Reader.map_eq_error.mp hend) committed_ne_soft

end Compound

/-! ## Terms -/

section Terms

variable {inner : Reader Expr}

theorem separated_locates (hconsumes : Consumes (TermPhrase .sum) inner)
    (hlocates : Locates (TermPhrase .sum) inner) :
    Locates (fun w args => AllArguments (w ++ [')']) args) (separated ',' inner) := by
  intro s fault trace hread htrace
  rcases Reader.bind_eq_error.mp hread with hfirst | ⟨first, mid, hfirst, hmore⟩
  · exact (hlocates hfirst htrace).lift fun w a hw => ⟨[a], allArguments_last hw⟩
  · obtain ⟨v, rfl, hv⟩ := hconsumes hfirst
    refine many_damaged (P := fun w args => AllArguments (w ++ [')']) args) (hconsumes.after ',')
      (hlocates.commits.after ',') ?_ ?_ (allArguments_last hv) hmore htrace
    · rintro _ _ ⟨u, rfl, -⟩
      exact List.cons_ne_nil _ _
    · rintro v _ l x hl ⟨u, rfl, hu⟩
      exact hl.snoc hu

/-- Behind a name it is the arguments that fail. -/
theorem application_commits {first : Char → Bool} {alone : String → Expr}
    {Q : List Char → Expr → Prop} (hconsumes : Consumes (TermPhrase .sum) inner)
    (hlocates : Locates (TermPhrase .sum) inner)
    (happly : ∀ f w args, AllArguments w args → isName first f = true →
      Q (f.toList ++ '(' :: w) (.apply f args)) : Commits Q (application first alone inner) := by
  intro s trace hread
  rcases Reader.bind_eq_error.mp hread with hname | ⟨f, mid, hname, hafter⟩
  · cases name_eq_error hname
  obtain ⟨hf, rfl, -⟩ := name_eq_ok.mp hname
  have hargs := Reader.map_eq_error.mp hafter
  have hcommits := enclosed_commits (separated_consumes (hconsumes.inside "argument"))
    (separated_locates (hconsumes.inside "argument") (hlocates.inside "argument"))
  refine (hcommits (optional_eq_error hargs).1).within f.toList [] ?_
  rintro _ args ⟨u, rfl, hu⟩
  rw [List.append_nil]
  exact ⟨_, happly f _ args hu hf⟩

theorem atom_locates (hconsumes : Consumes (TermPhrase .sum) inner)
    (hlocates : Locates (TermPhrase .sum) inner) : Locates (TermPhrase .atom) (atom inner) := by
  intro s fault trace hread htrace
  obtain ⟨fault', hforms, rfl⟩ := inside_eq_error.mp hread
  rw [trace?_noted] at htrace
  obtain ⟨trace', htrace', rfl⟩ := Option.map_eq_some_iff.mp htrace
  rcases trace?_eq_some.mp htrace' with rfl | rfl
  · -- the last form is a group, which has not begun
    obtain ⟨trace', hgroup, rfl⟩ := firstOf_eq_soft hforms rfl
    obtain rfl := enclosed_eq_soft hgroup
    exact damaged_here .zero ⟨"term", by decide, rfl⟩
  · refine (firstOf_commits ?_ hforms).noted _
    intro form hform
    simp only [List.mem_cons, List.not_mem_nil, or_false] at hform
    rcases hform with rfl | rfl | rfl
    · exact application_commits hconsumes hlocates fun _ _ _ => AllArguments.function
    · intro s trace hzero
      exact absurd hzero exactly_map_ne_hard
    · intro s trace hgroup
      refine (enclosed_commits hconsumes hlocates hgroup).lift ?_
      rintro _ e ⟨u, rfl, hu⟩
      exact ⟨e, .group hu⟩

theorem primedAtom_locates (hconsumes : Consumes (TermPhrase .sum) inner)
    (hlocates : Locates (TermPhrase .sum) inner) :
    Locates (TermPhrase .primed) (primedAtom inner) := by
  intro s fault trace hread htrace
  rcases Reader.bind_eq_error.mp hread with hbase | ⟨_, _, _, hret⟩
  · refine (atom_locates hconsumes hlocates hbase htrace).within [] [] fun w e hw => ?_
    exact ⟨e, @TermPhrase.primes w [] e hw (List.forall_mem_nil _)⟩
  · cases hret

theorem sum_locates (hconsumes : Consumes (TermPhrase .sum) inner)
    (hlocates : Locates (TermPhrase .sum) inner) : Locates (TermPhrase .sum) (sum inner) := by
  have hproduct : Locates (TermPhrase .product) (product inner) :=
    joined_locates (primedAtom_consumes hconsumes) (primedAtom_locates hconsumes hlocates)
      (fun _ _ => .primed) (fun _ _ _ _ => .times)
  exact joined_locates (product_consumes hconsumes) hproduct (fun _ _ => .product)
    (fun _ _ _ _ => .plus)

/-- **WHERE A TERM FAILS**, at every depth. -/
theorem termAt_locates (n : Nat) : Locates (TermPhrase .sum) (termAt n) := by
  induction n with
  | zero =>
      intro s fault trace hread htrace
      obtain rfl := Except.error.inj hread
      cases htrace
  | succ n ih => exact sum_locates (termAt_consumes n) ih

theorem term_locates : Locates (TermPhrase .sum) term :=
  fun _ _ _ hread => termAt_locates _ hread

end Terms

/-! ## Formulas -/

section Formulas

variable {again whole : Reader Expr}

theorem equation_locates : Locates (FormulaPhrase .unary) equation := by
  intro s fault trace hread htrace
  rcases Reader.bind_eq_error.mp hread with hleft | ⟨left, mid, hleft, hafter⟩
  · refine (term_locates hleft htrace).within [] ['=', '0'] fun w e hw => ?_
    exact ⟨_, .equals hw (termPhrase_zero .sum)⟩
  obtain ⟨v, rfl, hv⟩ := term_consumes hleft
  rcases Reader.bind_eq_error.mp hafter with hmissing | ⟨_, mid', hsign, hend⟩
  · refine (sign_locates (by decide) '=' hmissing htrace).within v ['0'] ?_
    rintro _ _ rfl
    exact ⟨_, .equals hv (termPhrase_zero .sum)⟩
  obtain rfl := exactly_eq_ok.mp (inside_eq_ok.mp (committed_eq_ok.mp hsign))
  have hright := Reader.map_eq_error.mp hend
  rw [List.append_cons]
  refine ((term_locates.inside _).committed hright htrace).within (v ++ ['=']) [] fun w e hw => ?_
  rw [List.append_nil, ← List.append_cons]
  exact ⟨_, .equals hv hw⟩

theorem predicate_locates : Locates (FormulaPhrase .unary) predicate := by
  refine firstOf_locates ?_ rfl equation_locates
  intro form hform
  simp only [List.mem_cons, List.not_mem_nil, or_false] at hform
  rcases hform with rfl | rfl
  · exact application_commits term_consumes term_locates (fun _ _ _ => AllArguments.predicate)
  · exact equation_locates.commits

theorem negation_commits (h : Locates (FormulaPhrase .unary) again) :
    Commits (FormulaPhrase .unary) (negation again) := by
  intro s trace hread
  rcases Reader.bind_eq_error.mp hread with hsign | ⟨_, mid, hsign, hafter⟩
  · cases (exactly_eq_error.mp hsign).2
  obtain rfl := exactly_eq_ok.mp hsign
  have hbody := Reader.map_eq_error.mp hafter
  refine (h.committed hbody rfl).within ['!'] [] fun w e hw => ?_
  rw [List.append_nil]
  exact ⟨_, .negation hw⟩

theorem formulaGroup_commits (hconsumes : Consumes (FormulaPhrase .implication) whole)
    (hlocates : Locates (FormulaPhrase .implication) whole) :
    Commits (FormulaPhrase .unary) (formulaGroup whole) := by
  intro s trace hread
  simp only [formulaGroup] at hread
  split at hread
  · cases hread
  · refine (enclosed_commits hconsumes hlocates hread).lift ?_
    rintro _ e ⟨u, rfl, hu⟩
    exact ⟨e, .group hu⟩

/-- What stands behind a variable, which has taken all digits. -/
def Undigited (w : List Char) (e : Expr) : Prop :=
  (∀ c ∈ w.head?, c.isDigit = false) ∧ FormulaPhrase .unary w e

theorem undigited_letter : Undigited ['A'] (.letter "A") :=
  ⟨forall_head_cons (by decide) [], formulaPhrase_letter .unary⟩

/-- A body whose text begins with no digit can be completed without one in front. -/
theorem Damaged.undigited {s : List Char} {trace : Trace}
    (h : Damaged (FormulaPhrase .unary) s trace) (hs : ∀ c ∈ s.head?, c.isDigit = false) :
    Damaged Undigited s trace := by
  obtain ⟨hconstruct, u, note, hnote, rfl, more, e, hbody⟩ := h
  refine ⟨hconstruct, u, note, hnote, rfl, ?_⟩
  cases u with
  | nil => exact ⟨['A'], _, undigited_letter⟩
  | cons c u => exact ⟨more, e, hs, hbody⟩

theorem quantifierSign_ne_hard {s : List Char} {trace : Trace} :
    quantifierSign s ≠ .error (.hard trace) := by
  intro hread
  obtain ⟨form, hform, hhard⟩ := firstOf_eq_final hread (isFinal_hard _)
  simp only [List.mem_cons, List.not_mem_nil, or_false] at hform
  rcases hform with rfl | rfl <;> exact exactly_map_ne_hard hhard

/-- Behind its sign a quantifier lacks the variable, or its body fails. -/
theorem binding_locates (h : Locates (FormulaPhrase .unary) again) :
    Locates (fun w (_ : String × Expr) => ∃ x v e,
        isName Char.isLower x = true ∧ Undigited v e ∧ w = x.toList ++ v)
      (do let x ← inside "quantified variable" (name Char.isLower)
          let body ← again
          return (x, body)) := by
  intro s fault trace hread htrace
  rcases Reader.bind_eq_error.mp hread with hname | ⟨x, mid, hname, hafter⟩
  · have hvariable : Locates (fun w (_ : String) => w = ['x'])
        (inside "quantified variable" (name Char.isLower)) :=
      locates_construct (a := "x") (by decide) rfl fun _ _ hname =>
        ⟨.failed .kind, rfl, name_eq_error hname⟩
    -- it is completed by a variable and a letter
    refine (hvariable hname htrace).within [] ['A'] ?_
    rintro _ _ rfl
    exact ⟨("x", .zero), "x", ['A'], _, rfl, undigited_letter, rfl⟩
  · obtain ⟨hx, rfl, hdigit⟩ := name_eq_ok.mp (inside_eq_ok.mp hname)
    have hbody := h (Reader.map_eq_error.mp hafter) htrace
    refine (hbody.undigited hdigit).within x.toList [] fun w e hw => ?_
    rw [List.append_nil]
    exact ⟨(x, e), x, w, e, hx, hw, rfl⟩

theorem quantified_commits (h : Locates (FormulaPhrase .unary) again) :
    Commits (FormulaPhrase .unary) (quantified again) := by
  intro s trace hread
  rcases Reader.bind_eq_error.mp hread with hsign | ⟨q, mid, hsign, hafter⟩
  · exact absurd hsign quantifierSign_ne_hard
  · obtain rfl := quantifierSign_eq_ok.mp hsign
    have hbound := Reader.map_eq_error.mp hafter
    refine ((binding_locates h).committed hbound rfl).within [q.symbol] [] ?_
    rintro _ _ ⟨x, v, e, hx, hv, rfl⟩
    rw [List.append_nil]
    exact ⟨_, .quantified hx hv.1 hv.2⟩

theorem unary_locates (hagain : Locates (FormulaPhrase .unary) again)
    (hconsumes : Consumes (FormulaPhrase .implication) whole)
    (hwhole : Locates (FormulaPhrase .implication) whole) :
    Locates (FormulaPhrase .unary) (unary again whole) := by
  refine (firstOf_locates ?_ rfl predicate_locates).inside "formula"
  intro form hform
  simp only [List.mem_cons, List.not_mem_nil, or_false] at hform
  rcases hform with rfl | rfl | rfl | rfl
  · exact negation_commits hagain
  · exact quantified_commits hagain
  · exact formulaGroup_commits hconsumes hwhole
  · exact predicate_locates.commits

theorem implication_locates {unaryFormula : Reader Expr}
    (hconsumes : Consumes (FormulaPhrase .unary) unaryFormula)
    (hunary : Locates (FormulaPhrase .unary) unaryFormula)
    (hwhole : Locates (FormulaPhrase .implication) whole) :
    Locates (FormulaPhrase .implication) (implication unaryFormula whole) := by
  have hconjunction : Locates (FormulaPhrase .conjunction) (conjunction unaryFormula) :=
    joined_locates hconsumes hunary (fun _ _ => .unary) (fun _ _ _ _ => .and)
  have hdisjunction : Locates (FormulaPhrase .disjunction) (disjunction unaryFormula) :=
    joined_locates (conjunction_consumes hconsumes) hconjunction (fun _ _ => .conjunction)
      (fun _ _ _ _ => .or)
  intro s fault trace hread htrace
  rcases Reader.bind_eq_error.mp hread with hleft | ⟨left, mid, hleft, hafter⟩
  · exact (hdisjunction hleft htrace).lift fun w e hw => ⟨e, .disjunction hw⟩
  obtain ⟨v, rfl, hv⟩ := disjunction_consumes hconsumes hleft
  obtain ⟨hfailed, hfinal⟩ := optional_eq_error (Reader.map_eq_error.mp hafter)
  rcases Reader.bind_eq_error.mp hfailed with harrow | ⟨_, mid', harrow, hright⟩
  · exact absurd (spelled_eq_error harrow) (hfinal _)
  · obtain rfl := spelled_eq_ok.mp harrow
    rw [← List.append_assoc]
    refine ((hwhole.inside _).committed hright htrace).within (v ++ ['-', '>']) [] fun w e hw => ?_
    rw [List.append_nil, List.append_assoc]
    exact ⟨_, .implies hv hw⟩

/-- **WHERE A FORMULA FAILS**, at every depth. -/
theorem formulaAt_locates (n : Nat) : Locates (FormulaPhrase .unary) (unaryAt n) ∧
    Locates (FormulaPhrase .implication) (formulaAt n) := by
  induction n with
  | zero =>
      constructor <;>
        · intro s fault trace hread htrace
          obtain rfl := Except.error.inj hread
          cases htrace
  | succ n ih =>
      obtain ⟨hunary, hformula⟩ := formulaAt_consumes n
      exact ⟨unary_locates ih.1 hformula ih.2, implication_locates hunary ih.1 ih.2⟩

theorem formula_locates : Locates (FormulaPhrase .implication) formula :=
  fun _ _ _ hread => (formulaAt_locates _).2 hread

end Formulas

/-! ## Whole texts -/

theorem byteLength_append (s t : List Char) :
    byteLength (s ++ t) = byteLength s + byteLength t := by
  induction s with
  | nil => exact (Nat.zero_add _).symm
  | cons c s ih =>
      show c.utf8Size + byteLength (s ++ t) = c.utf8Size + byteLength s + byteLength t
      rw [ih, Nat.add_assoc]

/-- A fault that leaves a trace of damage is reported where the trace begins, with the construct
    that was expected there. -/
theorem Damaged.report {P : List Char → Expr → Prop} {whole : List Char} {fault : Fault}
    {trace : Trace} (h : Damaged P whole trace) (htrace : fault.trace? = some trace) :
    (fault.report whole).expected ∈ innermost ∧ (fault.report whole).text = String.ofList whole ∧
      ∃ before rest, whole = before ++ rest ∧
        (fault.report whole).position = byteLength before ∧ Begins P before := by
  have hreport : fault.report whole =
      ⟨trace.expected, trace.position whole, String.ofList whole⟩ := by
    rcases trace?_eq_some.mp htrace with rfl | rfl <;> rfl
  obtain ⟨⟨construct, hmem, hconstruct⟩, before, note, hnote, rfl, hbegins⟩ := h
  rw [hreport]
  refine ⟨(expected_of_construct? hconstruct).symm ▸ hmem, rfl, before, note.rest, rfl, ?_, hbegins⟩
  simp only [Trace.position, hnote]
  show byteLength (before ++ note.rest) - byteLength note.rest = _
  rw [byteLength_append, Nat.add_sub_cancel]

/-- A whole text that is refused begins as a phrase does up to the position of the error; if it
    ought to be over there, it is a phrase. -/
theorem readAll_eq_error {P : List Char → Expr → Prop} {reader : Reader Expr}
    (hconsumes : Consumes P reader) (hlocates : Locates P reader)
    (hsettles : ∀ s, reader s ≠ .error .incomplete) {text : String} {err : ParseError}
    (h : readAll reader text = .error err) :
    err.text = String.ofList (squeeze text.toList) ∧
    err.expected ∈ innermost ++ ["end of formula"] ∧
    ∃ before rest, squeeze text.toList = before ++ rest ∧ err.position = byteLength before ∧
      Begins P before ∧ (err.expected = "end of formula" → ∃ e, P before e) := by
  simp only [readAll] at h
  split at h
  · cases h
  · next e rest _ hread =>
      obtain ⟨before, hwhole, hphrase⟩ := hconsumes hread
      cases h
      rw [hwhole]
      refine ⟨rfl, List.mem_append_right _ (List.mem_singleton.mpr rfl), before, rest, rfl, ?_,
        ⟨[], e, ?_⟩, fun _ => ⟨e, hphrase⟩⟩
      · show byteLength (before ++ rest) - byteLength rest = _
        rw [byteLength_append, Nat.add_sub_cancel]
      · rw [List.append_nil]
        exact hphrase
  · next fault hread =>
      obtain ⟨trace, htrace⟩ : ∃ trace, fault.trace? = some trace := by
        cases fault with
        | incomplete => exact absurd hread (hsettles _)
        | soft trace => exact ⟨trace, rfl⟩
        | hard trace => exact ⟨trace, rfl⟩
      obtain ⟨hmem, htext, before, rest, hwhole, hposition, hbegins⟩ :=
        (hlocates hread htrace).report htrace
      cases h
      refine ⟨htext, List.mem_append_left _ hmem, before, rest, hwhole, hposition, hbegins, ?_⟩
      intro hend
      rw [hend] at hmem
      exact absurd hmem (by decide)

/-- A phrase, as a text, is read. -/
theorem FormulaPhrase.parse_ofList {w : List Char} {e : Expr}
    (h : FormulaPhrase .implication w e) : parseFormula (String.ofList w) = .ok e := by
  refine parse_of_formulaPhrase ?_
  rw [String.toList_ofList, (h.balanced true).squeeze_eq]
  exact h

/-- **ERRORS ARE LOCALISED**: a text that is refused as a formula is, blanks apart, in order up to
    the position that the error names, which lies between two of its characters.  With other text
    from there on it would have been read, and with none where the end was expected. -/
theorem errors_are_localised {text : String} {err : ParseError}
    (h : parseFormula text = .error err) :
    err.text = String.ofList (squeeze text.toList) ∧
    err.expected ∈
        ["term", "'='", "closing parenthesis", "quantified variable", "end of formula"] ∧
    err.position ≤ byteLength (squeeze text.toList) ∧
    ∃ before rest, squeeze text.toList = before ++ rest ∧ err.position = byteLength before ∧
      (∃ more e, parseFormula (String.ofList (before ++ more)) = .ok e) ∧
      (err.expected = "end of formula" → ∃ e, parseFormula (String.ofList before) = .ok e) := by
  obtain ⟨htext, hexpected, before, rest, hwhole, hposition, ⟨more, e, hphrase⟩, hend⟩ :=
    readAll_eq_error formula_consumes formula_locates formula_ne_incomplete h
  refine ⟨htext, hexpected, ?_, before, rest, hwhole, hposition,
    ⟨more, e, hphrase.parse_ofList⟩, ?_⟩
  · rw [hposition, hwhole, byteLength_append]
    exact Nat.le_add_right _ _
  · intro hover
    obtain ⟨e, hphrase⟩ := hend hover
    exact ⟨e, hphrase.parse_ofList⟩

/-- In the first text the prime behind the group makes it a term, though the error lies inside, and
    a typographic prime before it counts three bytes.  The second goes on behind a formula. -/
theorem errors_are_localised_in_group :
    parseFormula "@x ( f( a’ , b ) + ) ’ = P" = .error ⟨"term", 13, "@x(f(a’,b)+)’=P"⟩ ∧
    (∃ before rest, squeeze "@x ( f( a’ , b ) + ) ’ = P".toList = before ++ rest ∧
      13 = byteLength before ∧ ∃ more e, parseFormula (String.ofList (before ++ more)) = .ok e) ∧
    parseFormula "( A ) ) ’" = .error ⟨"end of formula", 3, "(A))’"⟩ ∧
    ∃ before rest, squeeze "( A ) ) ’".toList = before ++ rest ∧ 3 = byteLength before ∧
      ∃ e, parseFormula (String.ofList before) = .ok e := by
  have hterm : parseFormula "@x ( f( a’ , b ) + ) ’ = P" =
      .error ⟨"term", 13, "@x(f(a’,b)+)’=P"⟩ := failure?_eq_some.mp (by decide +kernel)
  have hend : parseFormula "( A ) ) ’" = .error ⟨"end of formula", 3, "(A))’"⟩ :=
    failure?_eq_some.mp (by decide +kernel)
  obtain ⟨-, -, -, before, rest, hwhole, hposition, hmore, -⟩ := errors_are_localised hterm
  obtain ⟨-, -, -, before', rest', hwhole', hposition', -, haccepted⟩ := errors_are_localised hend
  exact ⟨hterm, ⟨before, rest, hwhole, hposition, hmore⟩, hend, before', rest', hwhole', hposition',
    haccepted rfl⟩

end PeanoCalculus.Grammar
