import PeanoCalculus.Proofs.Grammar.Completeness

/-! # Printing and reading

    The canonical text of a well-formed tree is a phrase with that tree: a part is put in
    parentheses exactly where the grammar asks for a tighter level than the part has.  Ranks and
    levels are the same thing seen from the two sides.  Since every phrase is read as the tree it
    has, reading undoes printing.

    A formula is told from a term by its text: it holds an upper-case letter or an equality sign,
    and no term does.  So no two well-formed trees share a text, whatever they are, and the
    comparison of texts by which expressions are looked up is a comparison of trees. -/

namespace PeanoCalculus.Grammar

open PeanoCalculus.Text

/-! ## A whole text -/

/-- What is read from a whole text without blanks, with nothing left, is read from the text. -/
theorem readAll_of_reads {reader : Reader Expr} {signs : List Char} {text : String} {e : Expr}
    (h : Reads reader signs (squeeze text.toList) e) : readAll reader text = .ok e := by
  have hread := h [] (beginsIn_nil _)
  rw [List.append_nil] at hread
  simp only [readAll, hread]

/-- A text that is a formula phrase but for blanks is read as the tree of the phrase. -/
theorem parse_of_formulaPhrase {text : String} {e : Expr}
    (h : FormulaPhrase .implication (squeeze text.toList) e) : parseFormula text = .ok e :=
  readAll_of_reads h.reads

/-- A text that is a term phrase but for blanks is read as the tree of the phrase. -/
theorem parse_of_termPhrase {text : String} {e : Expr}
    (h : TermPhrase .sum (squeeze text.toList) e) : parseTerm text = .ok e :=
  readAll_of_reads h.reads

/-! ## Ranks and levels -/

/-- The level of the terms of a rank. -/
def TermLevel.ofRank : Nat → TermLevel
  | 0 => .sum
  | 1 => .product
  | 2 => .primed
  | _ => .atom

/-- The level of the formulas of a rank. -/
def FormulaLevel.ofRank : Nat → FormulaLevel
  | 0 => .implication
  | 1 => .disjunction
  | 2 => .conjunction
  | _ => .unary

section Levels

variable {w : List Char} {e : Expr}

/-- An atom is a term of every rank below its own. -/
theorem TermPhrase.loosen {k : Nat} (h : TermPhrase (.ofRank (k + 1)) w e) :
    TermPhrase (.ofRank k) w e := by
  match k, h with
  | 0, h => exact .product h
  | 1, h => exact .primed h
  | 2, h =>
      have := @TermPhrase.primes w [] e h nofun
      rw [List.append_nil] at this
      exact this
  | _ + 3, h => exact h

theorem TermPhrase.loosen_le {k r : Nat} (hk : k ≤ r) (h : TermPhrase (.ofRank r) w e) :
    TermPhrase (.ofRank k) w e := by
  induction hk with
  | refl => exact h
  | step _ ih => exact ih h.loosen

/-- A term printed at a place that asks for a rank is a phrase of that rank. -/
theorem TermPhrase.fitted {r : Nat} (h : TermPhrase (.ofRank r) w e) (least : Nat)
    (hleast : least ≤ 3) : TermPhrase (.ofRank least) (Expr.fitted least r w) e := by
  unfold Expr.fitted
  by_cases hr : r < least
  · rw [if_pos hr]
    have hgroup : TermPhrase (.ofRank 3) (Expr.enclosed w) e :=
      .group (h.loosen_le (Nat.zero_le r))
    exact hgroup.loosen_le hleast
  · rw [if_neg hr]
    exact h.loosen_le (Nat.le_of_not_lt hr)

/-- A formula of a rank is a formula of the rank below. -/
theorem FormulaPhrase.loosen {k : Nat} (h : FormulaPhrase (.ofRank (k + 1)) w e) :
    FormulaPhrase (.ofRank k) w e := by
  match k, h with
  | 0, h => exact .disjunction h
  | 1, h => exact .conjunction h
  | 2, h => exact .unary h
  | _ + 3, h => exact h

theorem FormulaPhrase.loosen_le {k r : Nat} (hk : k ≤ r) (h : FormulaPhrase (.ofRank r) w e) :
    FormulaPhrase (.ofRank k) w e := by
  induction hk with
  | refl => exact h
  | step _ ih => exact ih h.loosen

/-- A formula printed at a place that asks for a rank is a phrase of that rank. -/
theorem FormulaPhrase.fitted {r : Nat} (h : FormulaPhrase (.ofRank r) w e) (least : Nat)
    (hleast : least ≤ 3) : FormulaPhrase (.ofRank least) (Expr.fitted least r w) e := by
  unfold Expr.fitted
  by_cases hr : r < least
  · rw [if_pos hr]
    have hgroup : FormulaPhrase (.ofRank 3) (Expr.enclosed w) e :=
      .group (h.loosen_le (Nat.zero_le r))
    exact hgroup.loosen_le hleast
  · rw [if_neg hr]
    exact h.loosen_le (Nat.le_of_not_lt hr)

/-- The guard against digits keeps a unary formula what it is, and does guard. -/
theorem FormulaPhrase.undigited (h : FormulaPhrase .unary w e) :
    FormulaPhrase .unary (Expr.undigited w) e ∧
      ∀ c ∈ (Expr.undigited w).head?, c.isDigit = false := by
  cases w with
  | nil => exact absurd rfl h.ne_nil
  | cons c w =>
      show FormulaPhrase .unary (if c.isDigit = true then _ else _) e ∧
        ∀ d ∈ (if c.isDigit = true then _ else _ : List Char).head?, _
      by_cases hc : c.isDigit = true
      · rw [if_pos hc]
        exact ⟨.group (.disjunction (.conjunction (.unary h))), forall_head_cons (by decide) _⟩
      · rw [if_neg hc]
        exact ⟨h, forall_head_cons (Bool.eq_false_iff.mpr hc) w⟩

end Levels

/-! ## The canonical text is a phrase -/

theorem charsAfter_eq (args : List Expr) :
    Expr.charsAfter args = argumentsText (args.map Expr.chars) := by
  induction args with
  | nil => rfl
  | cons a args ih => rw [Expr.charsAfter, ih]; rfl

/-- The arguments of an application, paired with their texts. -/
def withTexts (args : List Expr) : List (List Char × Expr) :=
  args.map fun a => (a.chars, a)

theorem withTexts_fst (args : List Expr) : (withTexts args).map Prod.fst = args.map Expr.chars := by
  rw [withTexts, List.map_map]
  rfl

theorem withTexts_snd (args : List Expr) : (withTexts args).map Prod.snd = args := by
  rw [withTexts, List.map_map]
  exact List.map_id args

/-- **THE CANONICAL TEXT OF A TERM** is a phrase of the term's rank, with the term as its tree. -/
theorem termPhrase_chars {e : Expr} (h : e.IsTerm) :
    TermPhrase (.ofRank e.rank) e.chars e := by
  induction h with
  | zero => exact .zero
  | var hx => exact .var hx
  | @apply f args hf hargs _ ih =>
      cases args with
      | nil => exact absurd rfl hargs
      | cons a args =>
          have hmore : ∀ part ∈ withTexts args, TermPhrase .sum part.1 part.2 := by
            intro part hpart
            obtain ⟨b, hb, rfl⟩ := List.mem_map.mp hpart
            exact (ih b (List.mem_cons_of_mem a hb)).loosen_le (Nat.zero_le _)
          -- an argument stands between signs of its own, so any rank will do
          have hfirst : TermPhrase .sum a.chars a :=
            (ih a (List.mem_cons_self ..)).loosen_le (Nat.zero_le _)
          have := TermPhrase.apply hf hfirst hmore
          rw [withTexts_fst, withTexts_snd, ← charsAfter_eq] at this
          exact this
  | @successor n e hn hs _ ih =>
      have := TermPhrase.primes (ih.fitted 3 (by decide))
        (fun c (hc : c ∈ List.replicate n '\'') => List.eq_of_mem_replicate hc ▸ rfl)
      rw [List.length_replicate, Expr.primed_of_not_successor hn hs] at this
      exact this
  | @times l r _ _ ihl ihr =>
      show TermPhrase .product (_ ++ ['*'] ++ _) _
      rw [List.append_assoc]
      exact .times (ihl.fitted 1 (by decide)) (ihr.fitted 2 (by decide))
  | @plus l r _ _ ihl ihr =>
      show TermPhrase .sum (_ ++ ['+'] ++ _) _
      rw [List.append_assoc]
      exact .plus (ihl.fitted 0 (by decide)) (ihr.fitted 1 (by decide))

/-- **THE CANONICAL TEXT OF A FORMULA** is a phrase of the formula's rank, with the formula as its
    tree. -/
theorem formulaPhrase_chars {e : Expr} (h : e.IsFormula) :
    FormulaPhrase (.ofRank e.rank) e.chars e := by
  induction h with
  | equals hl hr =>
      show FormulaPhrase .unary (_ ++ ['='] ++ _) _
      rw [List.append_assoc]
      exact .equals ((termPhrase_chars hl).fitted 0 (by decide))
        ((termPhrase_chars hr).fitted 0 (by decide))
  | @apply p args hp hargs =>
      cases args with
      | nil => exact .letter hp
      | cons a args =>
          have hsum : ∀ b ∈ a :: args, TermPhrase .sum b.chars b :=
            fun b hb => (termPhrase_chars (hargs b hb)).loosen_le (Nat.zero_le _)
          have hmore : ∀ part ∈ withTexts args, TermPhrase .sum part.1 part.2 := by
            intro part hpart
            obtain ⟨b, hb, rfl⟩ := List.mem_map.mp hpart
            exact hsum b (List.mem_cons_of_mem a hb)
          have := FormulaPhrase.apply hp (hsum a (List.mem_cons_self ..)) hmore
          rw [withTexts_fst, withTexts_snd, ← charsAfter_eq] at this
          exact this
  | quantified hx _ ih =>
      -- a body that began with a digit would be read as part of the variable
      obtain ⟨hbody, hdigit⟩ := (ih.fitted 3 (by decide)).undigited
      exact .quantified hx hdigit hbody
  | negation _ ih => exact .negation (ih.fitted 3 (by decide))
  | and _ _ ihl ihr =>
      show FormulaPhrase .conjunction (_ ++ ['&'] ++ _) _
      rw [List.append_assoc]
      exact .and (ihl.fitted 2 (by decide)) (ihr.fitted 3 (by decide))
  | or _ _ ihl ihr =>
      show FormulaPhrase .disjunction (_ ++ ['|'] ++ _) _
      rw [List.append_assoc]
      exact .or (ihl.fitted 1 (by decide)) (ihr.fitted 2 (by decide))
  | implies _ _ ihl ihr =>
      show FormulaPhrase .implication (_ ++ ['-', '>'] ++ _) _
      rw [List.append_assoc]
      exact .implies (ihl.fitted 1 (by decide)) (ihr.fitted 0 (by decide))

/-! ## Formulas and terms have different texts -/

/-- The characters that a term is made of. -/
def isTermSign (c : Char) : Bool :=
  (c.isLower || c.isDigit) || ['+', '*', '\'', '’', '(', ')', ','].contains c

/-- The characters one of which stands in every formula. -/
def isFormulaSign (c : Char) : Bool :=
  c.isUpper || c == '='

/-- What a term is made of is no sign of a formula. -/
theorem not_isFormulaSign {c : Char} (h : isTermSign c = true) : isFormulaSign c = false := by
  rcases Bool.or_eq_true_iff.mp h with hname | hsign
  · have hclass : c.isLower = true ∨ c.isDigit = true := Bool.or_eq_true_iff.mp hname
    have hne : c ≠ '=' := by
      rintro rfl
      exact absurd hclass (by decide)
    unfold isFormulaSign
    rw [not_isUpper hclass, Bool.false_or]
    exact beq_eq_false_iff_ne.mpr hne
  · have hsigns : ['+', '*', '\'', '’', '(', ')', ','].all (isFormulaSign · = false) = true := by
      decide
    exact of_decide_eq_true (List.all_eq_true.mp hsigns c (List.contains_iff_mem.mp hsign))

theorem mem_argumentsText {c : Char} {texts : List (List Char)} (h : c ∈ argumentsText texts) :
    c = ',' ∨ c = ')' ∨ ∃ t ∈ texts, c ∈ t := by
  induction texts with
  | nil => exact .inr (.inl (List.mem_singleton.mp h))
  | cons t texts ih =>
      rcases List.mem_cons.mp h with hc | h
      · exact .inl hc
      · rcases List.mem_append.mp h with hc | h
        · exact .inr (.inr ⟨t, List.mem_cons_self .., hc⟩)
        · rcases ih h with hc | hc | ⟨u, hu, hc⟩
          · exact .inl hc
          · exact .inr (.inl hc)
          · exact .inr (.inr ⟨u, List.mem_cons_of_mem t hu, hc⟩)

theorem isTermSign_of_isName {x : String} (hx : isName Char.isLower x = true) :
    ∀ c ∈ x.toList, isTermSign c = true := by
  obtain ⟨c, ds, hname, hc, hds⟩ := isName_iff.mp hx
  intro d hd
  unfold isTermSign
  rw [hname] at hd
  rcases List.mem_cons.mp hd with rfl | hd
  · rw [hc, Bool.true_or, Bool.true_or]
  · rw [hds d hd, Bool.or_true, Bool.true_or]

theorem TermPhrase.termSigns {level : TermLevel} {w : List Char} {e : Expr}
    (h : TermPhrase level w e) : ∀ c ∈ w, isTermSign c = true := by
  have hjoin : ∀ {s t : List Char} {sign : Char}, isTermSign sign = true →
      (∀ c ∈ s, isTermSign c = true) → (∀ c ∈ t, isTermSign c = true) →
      ∀ c ∈ s ++ sign :: t, isTermSign c = true := by
    intro s t sign hsign hs ht c hc
    rcases List.mem_append.mp hc with hc | hc
    · exact hs c hc
    · rcases List.mem_cons.mp hc with rfl | hc
      · exact hsign
      · exact ht c hc
  induction h with
  | plus _ _ ihl ihr => exact hjoin (by decide) ihl ihr
  | product _ ih => exact ih
  | times _ _ ihl ihr => exact hjoin (by decide) ihl ihr
  | primed _ ih => exact ih
  | primes _ hmarks ih =>
      intro c hc
      rcases List.mem_append.mp hc with hc | hc
      · exact ih c hc
      · rcases eq_of_isPrime (hmarks c hc) with rfl | rfl <;> decide
  | zero =>
      intro c hc
      rw [List.mem_singleton.mp hc]
      decide
  | group _ ih =>
      intro c hc
      rcases List.mem_cons.mp hc with rfl | hc
      · decide
      · exact hjoin (by decide) ih (List.forall_mem_nil _) c hc
  | var hx => exact isTermSign_of_isName hx
  | apply hf _ _ iha ihmore =>
      refine hjoin (by decide) (isTermSign_of_isName hf) ?_
      intro c hc
      rcases List.mem_append.mp hc with hc | hc
      · exact iha c hc
      · rcases mem_argumentsText hc with rfl | rfl | ⟨t, ht, hc⟩
        · decide
        · decide
        · obtain ⟨part, hpart, rfl⟩ := List.mem_map.mp ht
          exact ihmore part hpart c hc

theorem FormulaPhrase.has_formulaSign {level : FormulaLevel} {w : List Char} {e : Expr}
    (h : FormulaPhrase level w e) : ∃ c ∈ w, isFormulaSign c = true := by
  have hletter : ∀ {p : String} {t : List Char}, isName Char.isUpper p = true →
      ∃ c ∈ p.toList ++ t, isFormulaSign c = true := by
    intro p t hp
    obtain ⟨c, ds, hname, hc, -⟩ := isName_iff.mp hp
    refine ⟨c, by rw [hname]; exact List.mem_cons_self .., ?_⟩
    unfold isFormulaSign
    rw [hc]
    rfl
  induction h with
  | implies _ _ ihl _ | or _ _ ihl _ | and _ _ ihl _ =>
      obtain ⟨c, hc, hsign⟩ := ihl
      exact ⟨c, List.mem_append_left _ hc, hsign⟩
  | disjunction _ ih | conjunction _ ih | unary _ ih => exact ih
  | negation _ ih =>
      obtain ⟨c, hc, hsign⟩ := ih
      exact ⟨c, List.mem_cons_of_mem _ hc, hsign⟩
  | quantified _ _ _ ih =>
      obtain ⟨c, hc, hsign⟩ := ih
      exact ⟨c, List.mem_cons_of_mem _ (List.mem_append_right _ hc), hsign⟩
  | group _ ih =>
      obtain ⟨c, hc, hsign⟩ := ih
      exact ⟨c, List.mem_cons_of_mem _ (List.mem_append_left _ hc), hsign⟩
  | letter hp =>
      have := hletter (t := []) hp
      rwa [List.append_nil] at this
  | apply hp _ _ => exact hletter hp
  | equals _ _ => exact ⟨'=', List.mem_append_right _ (List.mem_cons_self ..), by decide⟩

/-! ## Reading what is printed -/

theorem formulaPhrase_text {e : Expr} (h : e.IsFormula) :
    FormulaPhrase .implication e.chars e :=
  (formulaPhrase_chars h).loosen_le (Nat.zero_le _)

theorem termPhrase_text {e : Expr} (h : e.IsTerm) : TermPhrase .sum e.chars e :=
  (termPhrase_chars h).loosen_le (Nat.zero_le _)

theorem squeeze_text {e : Expr} {inside : Bool} (h : Balanced inside e.chars) :
    squeeze e.text.toList = e.chars := by
  rw [Expr.text, String.toList_ofList]
  exact h.squeeze_eq

/-- A printed formula is read back. -/
theorem parseFormula_text {e : Expr} (h : e.IsFormula) : parseFormula e.text = .ok e := by
  have hphrase := formulaPhrase_text h
  refine parse_of_formulaPhrase ?_
  rw [squeeze_text (hphrase.balanced true)]
  exact hphrase

/-- A printed term is read back. -/
theorem parseTerm_text {e : Expr} (h : e.IsTerm) : parseTerm e.text = .ok e := by
  have hphrase := termPhrase_text h
  refine parse_of_termPhrase ?_
  rw [squeeze_text (hphrase.balanced true)]
  exact hphrase

/-- Two formulas with one text are one formula. -/
theorem formula_eq_of_text_eq {a b : Expr} (ha : a.IsFormula) (hb : b.IsFormula)
    (h : a.text = b.text) : a = b :=
  Except.ok.inj ((parseFormula_text ha).symm.trans (h ▸ parseFormula_text hb))

/-- Two terms with one text are one term. -/
theorem term_eq_of_text_eq {a b : Expr} (ha : a.IsTerm) (hb : b.IsTerm) (h : a.text = b.text) :
    a = b :=
  Except.ok.inj ((parseTerm_text ha).symm.trans (h ▸ parseTerm_text hb))

/-- No formula has the text of a term. -/
theorem text_formula_ne_term {a b : Expr} (ha : a.IsFormula) (hb : b.IsTerm) :
    a.text ≠ b.text := by
  intro h
  obtain ⟨c, hc, hsign⟩ := (formulaPhrase_text ha).has_formulaSign
  have hchars : a.chars = b.chars := String.ofList_injective h
  have hterm := (termPhrase_text hb).termSigns c (hchars ▸ hc)
  rw [not_isFormulaSign hterm] at hsign
  exact Bool.noConfusion hsign

/-- Two well-formed trees with one text are one tree, be they formulas or terms. -/
theorem eq_of_text_eq {a b : Expr} (ha : a.IsFormula ∨ a.IsTerm) (hb : b.IsFormula ∨ b.IsTerm)
    (h : a.text = b.text) : a = b := by
  rcases ha with ha | ha
  · exact formula_eq_of_text_eq ha (hb.resolve_right fun hb => text_formula_ne_term ha hb h) h
  · exact term_eq_of_text_eq ha (hb.resolve_left fun hb => text_formula_ne_term hb ha h.symm) h

/-- The well-formed terms are those that reading returns. -/
theorem isTerm_iff_read {e : Expr} : e.IsTerm ↔ ∃ text, parseTerm text = .ok e :=
  ⟨fun h => ⟨e.text, parseTerm_text h⟩, fun ⟨_, h⟩ => (termPhrase_of_parse h).isTerm⟩

/-- **READING UNDOES PRINTING**, for formulas and for terms; hence, among all well-formed trees,
    formulas and terms in any mix, those with the same canonical text are the same. -/
theorem reading_undoes_printing :
    (∀ e : Expr, e.IsFormula → parseFormula e.text = .ok e) ∧
    (∀ e : Expr, e.IsTerm → parseTerm e.text = .ok e) ∧
    ∀ a b : Expr, a.IsFormula ∨ a.IsTerm → b.IsFormula ∨ b.IsTerm →
      (a.text = b.text ↔ a = b) := by
  refine ⟨fun e => parseFormula_text, fun e => parseTerm_text, ?_⟩
  intro a b ha hb
  constructor
  · exact eq_of_text_eq ha hb
  · rintro rfl
    rfl

/-- The body of the quantifier begins with a digit and is put in parentheses, as are the sum in
    the product and the product under the primes. -/
theorem reading_undoes_printing_guarded :
    (Expr.all "x1" (.equals (.plus .zero (.successor 2 (.times (.var "a")
      (.plus (.var "b") .zero)))) (.apply "f" [.var "x1"]))).text =
        "@x1(0+(a*(b+0))''=f(x1))" ∧
    parseFormula (Expr.all "x1" (.equals (.plus .zero (.successor 2 (.times (.var "a")
      (.plus (.var "b") .zero)))) (.apply "f" [.var "x1"]))).text =
        .ok (.all "x1" (.equals (.plus .zero (.successor 2 (.times (.var "a")
          (.plus (.var "b") .zero)))) (.apply "f" [.var "x1"]))) ∧
    parseTerm (Expr.successor 1 (.var "a")).text = .ok (.successor 1 (.var "a")) ∧
    ((Expr.letter "A").text = (Expr.var "a").text ↔ Expr.letter "A" = .var "a") := by
  have hargs : ∀ a ∈ [Expr.var "x1"], a.IsTerm := by
    intro a ha
    rw [List.mem_singleton.mp ha]
    exact .var (by decide)
  refine ⟨by decide, reading_undoes_printing.1 _ (.quantified (by decide) (.equals (.plus .zero
    (.successor (by decide) rfl (.times (.var (by decide)) (.plus (.var (by decide)) .zero))))
    (.apply (by decide) (by decide) hargs))),
    reading_undoes_printing.2.1 _ (.successor (by decide) rfl (.var (by decide))),
    reading_undoes_printing.2.2 _ _ (.inl (.letter (by decide))) (.inr (.var (by decide)))⟩

end PeanoCalculus.Grammar
