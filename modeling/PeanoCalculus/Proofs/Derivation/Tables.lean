import PeanoCalculus.Derivation.Basic
import PeanoCalculus.Proofs.Expr.WellFormed
import PeanoCalculus.Proofs.Grammar.RoundTrip

/-! # The tables of a derivation

    The tables of a derivation are there to save searching; what they hold can be read off the
    hypotheses and the log.  `Derivation.Faithful` says so, together with what makes a line number
    name one line: the numbers in the log increase and are below the next one.

    A fresh derivation is faithful, entering a line keeps it so, and in a faithful derivation the
    tables find exactly the formulas that are there, since the canonical text of a formula tells
    it from every other. -/

namespace PeanoCalculus

namespace Derivation

/-- The formulas of the log. -/
def formulas (d : Derivation) : List Expr :=
  d.log.map (·.formula)

/-- The first line of a log with a given text. -/
def firstLine? (log : List Step) (text : String) : Option Nat :=
  (log.find? (·.formula.text = text)).map (·.line)

/-- The tables hold what the hypotheses and the log say. -/
structure Faithful (d : Derivation) : Prop where
  hypothesis_isFormula : ∀ h ∈ d.hypotheses, h.IsFormula
  log_isFormula : ∀ s ∈ d.log, s.formula.IsFormula
  hypothesisIndex : ∀ text, d.hypothesisIndex[text]? = d.hypotheses.findIdx? (·.text = text)
  lineIndex : ∀ text, d.lineIndex[text]? = firstLine? d.log text
  /-- Listed are the implications that are the first line with their text. -/
  implicationIndex : ∀ antecedent consequent i,
    (antecedent, i) ∈ d.implicationIndex.getD consequent [] ↔
      ∃ a b, a.text = antecedent ∧ b.text = consequent ∧
        (∃ s ∈ d.log, s.line = i ∧ s.formula = .implies a b) ∧
        firstLine? d.log (Expr.implies a b).text = some i
  ordered : d.log.Pairwise (·.line < ·.line)
  below : ∀ s ∈ d.log, s.line < d.lineCount

/-! ## What entering a line changes -/

/-- The log grows by the line; hypotheses, tracking and line number stay. -/
theorem record_eq (d : Derivation) (f : Expr) (j : Justification) :
    d.record f j = { d with
      log := d.log ++ [⟨d.lineCount, f, j⟩]
      lineIndex := (d.record f j).lineIndex
      implicationIndex := (d.record f j).implicationIndex } := by
  unfold record
  split
  · rfl
  · split <;> rfl

theorem record_log (d : Derivation) (f : Expr) (j : Justification) :
    (d.record f j).log = d.log ++ [⟨d.lineCount, f, j⟩] := by
  rw [record_eq]

theorem record_hypotheses (d : Derivation) (f : Expr) (j : Justification) :
    (d.record f j).hypotheses = d.hypotheses := by
  rw [record_eq]

theorem record_hypothesisIndex (d : Derivation) (f : Expr) (j : Justification) :
    (d.record f j).hypothesisIndex = d.hypothesisIndex := by
  rw [record_eq]

theorem record_tracked (d : Derivation) (f : Expr) (j : Justification) :
    (d.record f j).tracked = d.tracked := by
  rw [record_eq]

theorem record_lineCount (d : Derivation) (f : Expr) (j : Justification) :
    (d.record f j).lineCount = d.lineCount := by
  rw [record_eq]

theorem log_enter (d : Derivation) (f : Expr) (j : Justification) :
    (d.record f j).advance.log = d.log ++ [⟨d.lineCount, f, j⟩] :=
  record_log d f j

theorem hypotheses_enter (d : Derivation) (f : Expr) (j : Justification) :
    (d.record f j).advance.hypotheses = d.hypotheses :=
  record_hypotheses d f j

/-- A line that has a formula keeps it. -/
theorem formulaAt?_enter {d : Derivation} {i : Nat} {a : Expr} (h : d.formulaAt? i = some a)
    (f : Expr) (j : Justification) : (d.record f j).advance.formulaAt? i = some a := by
  obtain ⟨s, hs, rfl⟩ := Option.map_eq_some_iff.mp h
  unfold formulaAt?
  rw [log_enter, List.find?_append, hs]
  rfl

/-- A text that has a line keeps it. -/
theorem record_lineIndex (d : Derivation) (f : Expr) (j : Justification) (text : String) :
    (d.record f j).lineIndex[text]? =
      d.lineIndex[text]?.or (if f.text = text then some d.lineCount else none) := by
  have hnew : d.lineIndex.contains f.text = false →
      (d.lineIndex.insert f.text d.lineCount)[text]? =
        d.lineIndex[text]?.or (if f.text = text then some d.lineCount else none) := by
    intro hmissing
    rw [Std.TreeMap.contains_eq_isSome_getElem?, Option.isSome_eq_false_iff,
      Option.isNone_iff_eq_none] at hmissing
    rw [Std.TreeMap.getElem?_insert]
    by_cases htext : f.text = text
    · rw [if_pos (Std.compare_eq_iff_eq.mpr htext), if_pos htext, ← htext, hmissing]
      rfl
    · rw [if_neg fun heq => htext (Std.compare_eq_iff_eq.mp heq), if_neg htext, Option.or_none]
  unfold record
  split
  · rename_i hknown
    rw [Std.TreeMap.contains_eq_isSome_getElem?] at hknown
    obtain ⟨i, hi⟩ := Option.isSome_iff_exists.mp hknown
    by_cases htext : f.text = text
    · rw [← htext, hi]
      rfl
    · rw [if_neg htext, Option.or_none]
  · rename_i hmissing
    split <;> exact hnew (Bool.eq_false_iff.mpr hmissing)

/-- An implication with a new text is listed under its consequent. -/
theorem mem_record_implicationIndex {d : Derivation} {f : Expr} {j : Justification}
    {antecedent consequent : String} {i : Nat} :
    (antecedent, i) ∈ (d.record f j).implicationIndex.getD consequent [] ↔
      (antecedent, i) ∈ d.implicationIndex.getD consequent [] ∨
        d.lineIndex[f.text]? = none ∧ i = d.lineCount ∧
          ∃ a b, f = .implies a b ∧ a.text = antecedent ∧ b.text = consequent := by
  unfold record
  split
  · rename_i hknown
    rw [Std.TreeMap.contains_eq_isSome_getElem?] at hknown
    -- a text that has a line already is not listed again
    refine (or_iff_left fun hnew => ?_).symm
    rw [hnew.1] at hknown
    exact nomatch hknown
  · rename_i hmissing
    rw [Std.TreeMap.contains_eq_isSome_getElem?, Bool.not_eq_true, Option.isSome_eq_false_iff,
      Option.isNone_iff_eq_none] at hmissing
    split
    · rename_i a b
      -- only the list of the consequent grows
      rw [Std.TreeMap.getD_insert]
      by_cases htext : b.text = consequent
      · rw [if_pos (Std.compare_eq_iff_eq.mpr htext), htext, List.mem_append, List.mem_singleton,
          Prod.mk.injEq]
        refine or_congr_right ⟨?_, ?_⟩
        · rintro ⟨rfl, rfl⟩
          exact ⟨hmissing, rfl, a, b, rfl, rfl, htext⟩
        · rintro ⟨_, rfl, _, _, heq, rfl, _⟩
          cases heq
          exact ⟨rfl, rfl⟩
      · rw [if_neg fun heq => htext (Std.compare_eq_iff_eq.mp heq)]
        refine (or_iff_left ?_).symm
        rintro ⟨_, _, _, _, heq, _, hcons⟩
        cases heq
        exact htext hcons
    · rename_i hshape
      refine (or_iff_left ?_).symm
      rintro ⟨_, _, a, b, heq, _⟩
      exact hshape a b heq

/-! ## Faithful derivations -/

theorem firstLine?_append (log : List Step) (s : Step) (text : String) :
    firstLine? (log ++ [s]) text =
      (firstLine? log text).or (if s.formula.text = text then some s.line else none) := by
  unfold firstLine?
  rw [List.find?_append]
  cases log.find? (·.formula.text = text) with
  | some s' => rfl
  | none => by_cases htext : s.formula.text = text <;> simp [htext]

/-- What is in the log has a first line. -/
theorem exists_firstLine {log : List Step} {s : Step} (hs : s ∈ log) :
    ∃ i, firstLine? log s.formula.text = some i := by
  have hfound : (log.find? (·.formula.text = s.formula.text)).isSome = true :=
    List.find?_isSome.mpr ⟨s, hs, decide_eq_true rfl⟩
  obtain ⟨s', hs'⟩ := Option.isSome_iff_exists.mp hfound
  exact ⟨s'.line, Option.map_eq_some_iff.mpr ⟨s', hs', rfl⟩⟩

/-- A first line is a line of the log with the right text. -/
theorem mem_of_firstLine {log : List Step} {text : String} {i : Nat}
    (h : firstLine? log text = some i) : ∃ s ∈ log, s.line = i ∧ s.formula.text = text := by
  obtain ⟨s, hs, rfl⟩ := Option.map_eq_some_iff.mp h
  have htext := List.find?_some hs
  exact ⟨s, List.mem_of_find?_eq_some hs, rfl, of_decide_eq_true htext⟩

/-- In a log whose numbers increase, a number names one line. -/
theorem find?_line {log : List Step} (h : log.Pairwise (·.line < ·.line)) {s : Step}
    (hs : s ∈ log) : log.find? (·.line = s.line) = some s := by
  induction log with
  | nil => exact nomatch hs
  | cons first rest ih =>
      obtain ⟨hlt, hrest⟩ := List.pairwise_cons.mp h
      rcases List.mem_cons.mp hs with rfl | hmem
      · exact List.find?_cons_of_pos (decide_eq_true rfl)
      · have hne : ¬first.line = s.line := Nat.ne_of_lt (hlt s hmem)
        rw [List.find?_cons_of_neg (by simpa using hne)]
        exact ih hrest hmem

/-- The table of hypotheses, built from an index on and over a table that is already there. -/
theorem getElem?_hypothesisTable (hypotheses : List Expr) (first : Nat)
    (table : Std.TreeMap String Nat) (text : String) :
    ((hypotheses.zipIdx first).foldl
        (fun table (h, i) => table.insertIfNew h.text i) table)[text]? =
      table[text]?.or ((hypotheses.findIdx? (·.text = text)).map (· + first)) := by
  induction hypotheses generalizing first table with
  | nil => simp
  | cons h hs ih =>
      rw [List.zipIdx_cons, List.foldl_cons, ih, Std.TreeMap.getElem?_insertIfNew,
        List.findIdx?_cons]
      by_cases htext : h.text = text
      · subst htext
        cases hknown : table[h.text]? with
        | some i => simp [Std.TreeMap.mem_iff_isSome_getElem?, hknown]
        | none => simp [Std.TreeMap.mem_iff_isSome_getElem?, hknown]
      · rw [if_neg fun hnew => htext (Std.compare_eq_iff_eq.mp hnew.1)]
        refine congrArg (Option.or _) ?_
        simp only [decide_eq_true_eq, if_neg htext, Option.map_map]
        refine congrArg (Option.map · _) (funext fun i => ?_)
        show i + (first + 1) = i + 1 + first
        omega

theorem faithful_start {hypotheses : List Expr} (h : ∀ f ∈ hypotheses, f.IsFormula) :
    (start hypotheses).Faithful where
  hypothesis_isFormula := h
  log_isFormula := List.forall_mem_nil _
  hypothesisIndex := by
    intro text
    show (List.foldl _ _ _)[text]? = _
    rw [getElem?_hypothesisTable, Std.TreeMap.getElem?_emptyc, Option.none_or]
    exact Option.map_id_apply
  lineIndex := fun _ => Std.TreeMap.getElem?_emptyc
  implicationIndex := by
    intro antecedent consequent i
    show _ ∈ Std.TreeMap.getD ∅ consequent [] ↔ _
    rw [Std.TreeMap.getD_emptyc]
    refine iff_of_false List.not_mem_nil ?_
    rintro ⟨_, _, _, _, ⟨s, hs, _⟩, _⟩
    exact nomatch hs
  ordered := .nil
  below := List.forall_mem_nil _

theorem Faithful.advance {d : Derivation} (hd : d.Faithful) : d.advance.Faithful where
  hypothesis_isFormula := hd.hypothesis_isFormula
  log_isFormula := hd.log_isFormula
  hypothesisIndex := hd.hypothesisIndex
  lineIndex := hd.lineIndex
  implicationIndex := hd.implicationIndex
  ordered := hd.ordered
  below := fun s hs => Nat.lt_succ_of_lt (hd.below s hs)

theorem Faithful.trackLast {d : Derivation} (hd : d.Faithful) : d.trackLast.Faithful where
  hypothesis_isFormula := hd.hypothesis_isFormula
  log_isFormula := hd.log_isFormula
  hypothesisIndex := hd.hypothesisIndex
  lineIndex := hd.lineIndex
  implicationIndex := hd.implicationIndex
  ordered := hd.ordered
  below := hd.below

/-- **ENTERING A LINE KEEPS THE TABLES FAITHFUL**. -/
theorem Faithful.enter {d : Derivation} (hd : d.Faithful) {f : Expr} (hf : f.IsFormula)
    (j : Justification) : (d.record f j).advance.Faithful := by
  have hlog := log_enter d f j
  have hfirst : ∀ text, firstLine? (d.record f j).advance.log text =
      (firstLine? d.log text).or (if f.text = text then some d.lineCount else none) := by
    intro text
    rw [hlog, firstLine?_append]
  constructor
  · intro h hh
    rw [hypotheses_enter] at hh
    exact hd.hypothesis_isFormula h hh
  · rw [hlog]
    exact List.forall_mem_append.mpr ⟨hd.log_isFormula, List.forall_mem_singleton.mpr hf⟩
  · intro text
    show (d.record f j).hypothesisIndex[text]? = (d.record f j).hypotheses.findIdx? _
    rw [record_hypothesisIndex, record_hypotheses]
    exact hd.hypothesisIndex text
  · intro text
    show (d.record f j).lineIndex[text]? = _
    rw [hfirst, record_lineIndex, hd.lineIndex]
  · intro antecedent consequent i
    show _ ∈ (d.record f j).implicationIndex.getD consequent [] ↔ _
    rw [mem_record_implicationIndex, hd.implicationIndex, hd.lineIndex]
    simp only [hfirst]
    simp only [hlog]
    constructor
    · rintro (⟨a, b, ha, hb, ⟨s, hs, hline, hform⟩, hi⟩ | ⟨hnone, rfl, a, b, rfl, ha, hb⟩)
      · exact ⟨a, b, ha, hb, ⟨s, List.mem_append_left _ hs, hline, hform⟩, by rw [hi]; rfl⟩
      · refine ⟨a, b, ha, hb, ⟨_, List.mem_append_right _ List.mem_cons_self, rfl, rfl⟩, ?_⟩
        rw [hnone, if_pos rfl]
        rfl
    · rintro ⟨a, b, ha, hb, ⟨s, hs, hline, hform⟩, hi⟩
      rcases List.mem_append.mp hs with hs | hs
      · -- an earlier line: it is still the first with its text
        obtain ⟨k, hk⟩ := exists_firstLine hs
        rw [hform] at hk
        rw [hk] at hi
        exact .inl ⟨a, b, ha, hb, ⟨s, hs, hline, hform⟩, hk.trans hi⟩
      · obtain rfl := List.mem_singleton.mp hs
        dsimp only at hline hform
        subst hline hform
        cases hk : firstLine? d.log (Expr.implies a b).text with
        | none => exact .inr ⟨rfl, rfl, a, b, rfl, ha, hb⟩
        | some k =>
            -- a text that is known has a smaller line
            rw [hk] at hi
            obtain ⟨s, hs, hline, _⟩ := mem_of_firstLine hk
            have hlt := hd.below s hs
            rw [hline, Option.some.inj hi] at hlt
            exact absurd hlt (Nat.lt_irrefl _)
  · rw [hlog, List.pairwise_append]
    refine ⟨hd.ordered, List.pairwise_singleton _ _, fun s hs s' hs' => ?_⟩
    rw [List.mem_singleton.mp hs']
    exact hd.below s hs
  · intro s hs
    show s.line < (d.record f j).lineCount + 1
    rw [hlog] at hs
    rw [record_lineCount]
    rcases List.mem_append.mp hs with hs | hs
    · exact Nat.lt_succ_of_lt (hd.below s hs)
    · rw [List.mem_singleton.mp hs]
      exact Nat.lt_succ_self _

/-! ## What the tables find -/

namespace Faithful

variable {d : Derivation} {f : Expr} {i : Nat}

theorem formulas_isFormula (hd : d.Faithful) : ∀ g ∈ d.formulas, g.IsFormula := by
  intro g hg
  obtain ⟨s, hs, rfl⟩ := List.mem_map.mp hg
  exact hd.log_isFormula s hs

theorem formulaAt?_of_mem (hd : d.Faithful) {s : Step} (hs : s ∈ d.log) :
    d.formulaAt? s.line = some s.formula := by
  unfold formulaAt?
  rw [find?_line hd.ordered hs]
  rfl

/-- A line that has a formula is in the log. -/
theorem mem_formulas_of_formulaAt? (h : d.formulaAt? i = some f) : f ∈ d.formulas := by
  obtain ⟨s, hs, rfl⟩ := Option.map_eq_some_iff.mp h
  exact List.mem_map.mpr ⟨s, List.mem_of_find?_eq_some hs, rfl⟩

/-- What is in the log is the formula of a line. -/
theorem exists_formulaAt? (hd : d.Faithful) (h : f ∈ d.formulas) :
    ∃ i, d.formulaAt? i = some f := by
  obtain ⟨s, hs, rfl⟩ := List.mem_map.mp h
  exact ⟨s.line, hd.formulaAt?_of_mem hs⟩

/-- The line found for a formula has that formula. -/
theorem formulaAt?_of_lineIndex (hd : d.Faithful) (hf : f.IsFormula)
    (h : d.lineIndex[f.text]? = some i) : d.formulaAt? i = some f := by
  rw [hd.lineIndex] at h
  obtain ⟨s, hs, rfl, htext⟩ := mem_of_firstLine h
  rw [hd.formulaAt?_of_mem hs, Grammar.formula_eq_of_text_eq (hd.log_isFormula s hs) hf htext]

/-- A formula of the log is found. -/
theorem lineIndex_of_mem (hd : d.Faithful) (h : f ∈ d.formulas) :
    ∃ i, d.lineIndex[f.text]? = some i := by
  obtain ⟨s, hs, rfl⟩ := List.mem_map.mp h
  rw [hd.lineIndex]
  exact exists_firstLine hs

/-- The hypothesis found for a formula is that formula. -/
theorem hypothesis_of_index (hd : d.Faithful) (hf : f.IsFormula)
    (h : d.hypothesisIndex[f.text]? = some i) : d.hypotheses[i]? = some f := by
  rw [hd.hypothesisIndex] at h
  obtain ⟨hlt, htext, _⟩ := List.findIdx?_eq_some_iff_getElem.mp h
  have hmem : d.hypotheses[i] ∈ d.hypotheses := List.getElem_mem hlt
  rw [List.getElem?_eq_getElem hlt, Grammar.formula_eq_of_text_eq
    (hd.hypothesis_isFormula _ hmem) hf (of_decide_eq_true htext)]

/-- A hypothesis is found. -/
theorem hypothesisIndex_of_mem (hd : d.Faithful) (h : f ∈ d.hypotheses) :
    ∃ i, d.hypothesisIndex[f.text]? = some i := by
  rw [hd.hypothesisIndex]
  refine Option.isSome_iff_exists.mp ?_
  rw [List.findIdx?_isSome]
  exact List.any_eq_true.mpr ⟨f, h, decide_eq_true rfl⟩

end Faithful

end Derivation

end PeanoCalculus
