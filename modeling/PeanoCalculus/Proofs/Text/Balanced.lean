import PeanoCalculus.Text.Blank

/-! # Balanced texts

    The texts of formulas hold no blanks, their parentheses pair up, and a comma stands only
    between the arguments of an application, so inside parentheses.  `Balanced` says this of a
    text by following it from left to right; the flag tells whether commas are allowed, that is
    whether the text is meant to stand inside parentheses.

    Everything that scans a text for a parenthesis or a comma passes over a balanced text as
    over a single letter. -/

namespace PeanoCalculus.Text

/-- A character that is neither blank nor a parenthesis nor a comma. -/
def isPlain (c : Char) : Bool :=
  !isBlank c && c != '(' && c != ')' && c != ','

/-- Blank-free, with paired parentheses, and with commas only inside them or where allowed. -/
inductive Balanced : Bool → List Char → Prop where
  | nil {inside : Bool} : Balanced inside []
  | plain {inside : Bool} {c : Char} {s : List Char} : isPlain c = true → Balanced inside s →
      Balanced inside (c :: s)
  | comma {s : List Char} : Balanced true s → Balanced true (',' :: s)
  | group {inside : Bool} {s t : List Char} : Balanced true s → Balanced inside t →
      Balanced inside ('(' :: (s ++ ')' :: t))

/-! ## Runs of one kind -/

/-- A run of characters of one kind ends where another kind follows. -/
theorem run_append {kind : Char → Bool} {run rest : List Char} (hrun : ∀ c ∈ run, kind c = true)
    (hrest : ∀ c ∈ rest.head?, kind c = false) :
    (run ++ rest).takeWhile kind = run ∧ (run ++ rest).dropWhile kind = rest := by
  rw [List.takeWhile_append_of_pos hrun, List.dropWhile_append_of_pos hrun]
  cases rest with
  | nil => exact ⟨List.append_nil run, rfl⟩
  | cons c rest =>
      rw [List.takeWhile_cons, List.dropWhile_cons, hrest c rfl]
      exact ⟨List.append_nil run, rfl⟩

/-- A text begins with its first character and with no other. -/
theorem forall_head_cons {p : Char → Prop} {c : Char} (h : p c) (s : List Char) :
    ∀ d ∈ (c :: s).head?, p d := by
  intro d hd
  exact Option.some.inj hd ▸ h

/-! ## Letters and digits as code points -/

theorem isUpper_iff {c : Char} : c.isUpper = true ↔ 65 ≤ c.toNat ∧ c.toNat ≤ 90 := by
  show decide (_ ∧ _) = true ↔ _
  rw [decide_eq_true_eq, ge_iff_le, UInt32.le_iff_toNat_le, UInt32.le_iff_toNat_le]
  rfl

theorem isLower_iff {c : Char} : c.isLower = true ↔ 97 ≤ c.toNat ∧ c.toNat ≤ 122 := by
  show (decide _ && decide _) = true ↔ _
  rw [Bool.and_eq_true, decide_eq_true_eq, decide_eq_true_eq, ge_iff_le,
    UInt32.le_iff_toNat_le, UInt32.le_iff_toNat_le]
  rfl

theorem isDigit_iff {c : Char} : c.isDigit = true ↔ 48 ≤ c.toNat ∧ c.toNat ≤ 57 := by
  show (decide _ && decide _) = true ↔ _
  rw [Bool.and_eq_true, decide_eq_true_eq, decide_eq_true_eq, ge_iff_le,
    UInt32.le_iff_toNat_le, UInt32.le_iff_toNat_le]
  rfl

theorem toNat_of_isAlphanum {c : Char} (h : c.isAlphanum = true) :
    (48 ≤ c.toNat ∧ c.toNat ≤ 57) ∨ (65 ≤ c.toNat ∧ c.toNat ≤ 90) ∨
      (97 ≤ c.toNat ∧ c.toNat ≤ 122) := by
  rcases Bool.or_eq_true_iff.mp h with halpha | hdigit
  · rcases Bool.or_eq_true_iff.mp halpha with hupper | hlower
    · exact .inr (.inl (isUpper_iff.mp hupper))
    · exact .inr (.inr (isLower_iff.mp hlower))
  · exact .inl (isDigit_iff.mp hdigit)

/-- Letters and digits are plain. -/
theorem isPlain_of_isAlphanum {c : Char} (h : c.isAlphanum = true) : isPlain c = true := by
  have hcode := toNat_of_isAlphanum h
  have hblank : isBlank c = false := by
    simp only [isBlank, blankRanges, List.any_cons, List.any_nil, Bool.or_eq_false_iff,
      Bool.and_eq_false_iff, decide_eq_false_iff_not, and_true]
    omega
  have hne : ∀ d : Char, d.isAlphanum = false → c ≠ d := by
    rintro d hd rfl
    rw [h] at hd
    exact Bool.noConfusion hd
  simp [isPlain, hblank, hne '(' rfl, hne ')' rfl, hne ',' rfl]

namespace Balanced

variable {inside : Bool} {s t : List Char}

/-- Balanced texts may be put side by side. -/
theorem append (hs : Balanced inside s) (ht : Balanced inside t) : Balanced inside (s ++ t) := by
  induction hs with
  | nil => exact ht
  | plain hc _ ih => exact .plain hc (ih ht)
  | comma _ ih => exact .comma (ih ht)
  | group hin _ _ ih =>
      rw [List.cons_append, List.append_assoc, List.cons_append]
      exact .group hin (ih ht)

/-- A text of plain characters is balanced. -/
theorem of_plain (h : ∀ c ∈ s, isPlain c = true) : Balanced inside s := by
  induction s with
  | nil => exact .nil
  | cons c s ih =>
      exact .plain (h c (List.mem_cons_self ..))
        (ih (fun d hd => h d (List.mem_cons_of_mem c hd)))

/-- A text in parentheses is balanced anywhere. -/
theorem parenthesized (h : Balanced true s) : Balanced inside ('(' :: (s ++ [')'])) :=
  .group h .nil

/-- No character of a balanced text is blank. -/
theorem not_blank (h : Balanced inside s) : ∀ c ∈ s, isBlank c = false := by
  induction h with
  | nil => intro c hc; exact nomatch hc
  | plain hplain _ ih =>
      intro c hc
      rcases List.mem_cons.mp hc with rfl | hc
      · unfold isPlain at hplain
        cases hb : isBlank c with
        | false => rfl
        | true =>
            rw [hb] at hplain
            exact Bool.noConfusion hplain
      · exact ih c hc
  | comma _ ih =>
      intro c hc
      rcases List.mem_cons.mp hc with rfl | hc
      · decide
      · exact ih c hc
  | group _ _ ihs iht =>
      intro c hc
      rcases List.mem_cons.mp hc with rfl | hc
      · decide
      · rcases List.mem_append.mp hc with hc | hc
        · exact ihs c hc
        · rcases List.mem_cons.mp hc with rfl | hc
          · decide
          · exact iht c hc

/-- Dropping the blanks of a balanced text changes nothing. -/
theorem squeeze_eq (h : Balanced inside s) : squeeze s = s := by
  refine List.filter_eq_self.mpr ?_
  intro c hc
  rw [h.not_blank c hc]
  rfl

end Balanced

end PeanoCalculus.Text
