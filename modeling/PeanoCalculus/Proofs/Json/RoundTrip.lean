import PeanoCalculus.Json.Fields
import PeanoCalculus.Json.Parser
import PeanoCalculus.Json.Printer
import PeanoCalculus.Proofs.Text.Balanced

/-! # Written values are read back

    A value that is made of texts, words of 64 bits, truth values, arrays and records is `Plain`.
    Whatever the layout, its text is read as the same value, and when it is taken in whole every
    literal in it denotes something.

    The readers are followed from the inside out.  A literal ends at its quotation mark because
    every character of a text is written in one of three forms, none of which holds a bare quotation
    mark.  A number ends where its digits do because only a mark or the end of a line can follow.
    The length of what is written is enough to bound the calls. -/

namespace PeanoCalculus.Numeral

/-! ## Words as doubles -/

/-- More digits only make a number larger. -/
theorem le_ofDigitChars (ds : List Char) (n : Nat) : n ≤ Nat.ofDigitChars 10 ds n := by
  rw [Nat.ofDigitChars_eq_ofDigitChars_zero]
  exact Nat.le_trans (Nat.le_mul_of_pos_left n (Nat.pow_pos (by decide))) (Nat.le_add_right _ _)

/-- Digits that write a word all fit it. -/
theorem fillWord_eq {ds : List Char} {n : Nat} (h : Nat.ofDigitChars 10 ds n < UInt64.size) :
    fillWord n ds = (Nat.ofDigitChars 10 ds n, []) := by
  induction ds generalizing n with
  | nil => rfl
  | cons c ds ih =>
      rw [Nat.ofDigitChars_cons] at h ⊢
      rw [fillWord, if_pos (Nat.lt_of_le_of_lt (le_ofDigitChars ds _) h)]
      exact ih h

/-- Rounding at most doubles a number, since it is to a unit that is no larger than the number. -/
theorem nearestDouble_le (n : Nat) : nearestDouble n ≤ 2 * n := by
  rcases Nat.eq_zero_or_pos n with rfl | hn
  · decide
  · have hunit : 1 <<< (n.log2 + 1 - 53) ≤ n := by
      rw [Nat.one_shiftLeft]
      refine Nat.le_trans (Nat.pow_le_pow_right (by decide) ?_)
        (Nat.log2_self_le (Nat.ne_of_gt hn))
      omega
    have hkept := Nat.div_mul_le_self n (1 <<< (n.log2 + 1 - 53))
    unfold nearestDouble
    dsimp only
    split
    · omega
    · rw [Nat.succ_mul]
      omega

/-- A word is far below the largest double. -/
theorem isFinite_word {n : Nat} (h : n < UInt64.size) :
    isFinite { whole := Nat.toDigits 10 n } = true := by
  have hdigits : Nat.ofDigitChars 10 (Nat.toDigits 10 n) 0 = n := Nat.ofDigitChars_ten_toDigits
  have hfill : fillWord 0 (Nat.toDigits 10 n) = (n, []) := by
    rw [fillWord_eq (hdigits.symm ▸ h), hdigits]
  have hscale : wordAndScale { whole := Nat.toDigits 10 n } = (n, 0) := by
    unfold wordAndScale
    rw [hfill]
    rfl
  have hlimit : 2 * UInt64.size ≤ doubleLimit := by decide +kernel
  have hone : nearestDouble (Nat.pow 10 0) = 1 := by decide
  have hbelow : nearestDouble n * nearestDouble (Nat.pow 10 0) < doubleLimit := by
    rw [hone, Nat.mul_one]
    have := nearestDouble_le n
    omega
  unfold isFinite
  rw [hscale]
  exact Bool.or_eq_true_iff.mpr (.inr (decide_eq_true hbelow))

end PeanoCalculus.Numeral

namespace PeanoCalculus.Json

/-! ## Literals -/

/-- The character stands in a literal as it is. -/
def Unescaped (c : Char) : Prop :=
  c ≠ '"' ∧ c ≠ '\\' ∧ 0x20 ≤ c.toNat

/-- The three forms in which a character is written. -/
inductive Written (c : Char) : List Char → Prop where
  | plain : Unescaped c → Written c [c]
  | short {sign : Char} : sign ≠ 'u' → shortEscape? sign = some c → Written c ['\\', sign]
  | unit {high low : Char} : Unescaped high → Unescaped low →
      hexUnit? '0' '0' high low = some c.toNat → c.toNat < 0x20 →
      Written c ['\\', 'u', '0', '0', high, low]

theorem hexValue?_hexDigit : ∀ n < 16, hexValue? (hexDigit n) = some n := by
  decide

theorem unescaped_hexDigit : ∀ n < 16, Unescaped (hexDigit n) := by
  unfold Unescaped
  decide

theorem written_escapeChar (c : Char) : Written c (escapeChar c) := by
  unfold escapeChar
  -- the seven characters that have a short form
  iterate 7
    split
    · rename_i h
      exact .short (by decide) (by rw [h]; decide)
  split
  · rename_i hcontrol
    have hhigh : c.toNat / 16 < 16 := by omega
    have hlow : c.toNat % 16 < 16 := Nat.mod_lt _ (by decide)
    refine .unit (unescaped_hexDigit _ hhigh) (unescaped_hexDigit _ hlow) ?_ hcontrol
    unfold hexUnit?
    rw [hexValue?_hexDigit _ hhigh, hexValue?_hexDigit _ hlow]
    show some (0 * 256 + (c.toNat / 16 * 16 + c.toNat % 16)) = some c.toNat
    rw [Nat.zero_mul, Nat.zero_add, Nat.div_add_mod']
  · rename_i hquote hslash _ _ _ _ _ hcontrol
    exact .plain ⟨hquote, hslash, Nat.le_of_not_lt hcontrol⟩

theorem untilQuote_unescaped {c : Char} (hc : Unescaped c) (s : List Char) :
    untilQuote (c :: s) = (untilQuote s).map fun (literal, rest) => (c :: literal, rest) := by
  obtain ⟨hquote, hslash, hcontrol⟩ := hc
  rw [untilQuote]
  · rw [if_neg (Nat.not_lt.mpr hcontrol)]
  · exact hquote
  · intro _ _ h
    exact absurd h hslash

theorem pieces?_unescaped {c : Char} (hc : Unescaped c) (s : List Char) :
    pieces? (c :: s) = (pieces? s).map (.char c :: ·) := by
  obtain ⟨-, hslash, -⟩ := hc
  rw [pieces?]
  · rw [if_neg hslash]
    cases pieces? s <;> rfl
  · intro _ _ _ _ _ h
    exact absurd h hslash
  · intro _ _ h
    exact absurd h hslash

/-- What is written for a character is no end of a literal. -/
theorem Written.untilQuote {c : Char} {w : List Char} (h : Written c w) (s : List Char) :
    untilQuote (w ++ s) = (untilQuote s).map fun (literal, rest) => (w ++ literal, rest) := by
  cases h with
  | plain hc => exact untilQuote_unescaped hc s
  | short _ _ => rfl
  | @unit high low hhigh hlow _ _ =>
      show (Json.untilQuote ('0' :: '0' :: high :: low :: s)).map _ = _
      have hzero : Unescaped '0' := ⟨by decide, by decide, by decide⟩
      rw [untilQuote_unescaped hzero, untilQuote_unescaped hzero, untilQuote_unescaped hhigh,
        untilQuote_unescaped hlow]
      simp only [Option.map_map]
      rfl

/-- A unit below the surrogates stands for its character, whatever follows. -/
theorem joinPieces?_unit {c : Char} (hc : c.toNat < 0x20) (ps : List Piece) :
    joinPieces? (.unit c.toNat :: ps) = (joinPieces? ps).map (c :: ·) := by
  have hhigh : isHighSurrogate c.toNat = false := by
    unfold isHighSurrogate
    rw [decide_eq_false (by omega), Bool.false_and]
  have hlow : isLowSurrogate c.toNat = false := by
    unfold isLowSurrogate
    rw [decide_eq_false (by omega), Bool.false_and]
  cases ps with
  | nil => simp [joinPieces?, hhigh, hlow]
  | cons p ps => cases p <;> simp [joinPieces?, hhigh, hlow]

/-- What is written for a character reads as one part, which stands for it. -/
theorem Written.exists_piece {c : Char} {w : List Char} (h : Written c w) :
    ∃ p : Piece, (∀ s, pieces? (w ++ s) = (pieces? s).map (p :: ·)) ∧
      ∀ ps, joinPieces? (p :: ps) = (joinPieces? ps).map (c :: ·) := by
  cases h with
  | plain hc => exact ⟨.char c, pieces?_unescaped hc, fun _ => rfl⟩
  | @short sign hsign hshort =>
      refine ⟨.char c, fun s => ?_, fun _ => rfl⟩
      show pieces? ('\\' :: sign :: s) = _
      rw [pieces?, hshort]
      · cases pieces? s <;> rfl
      · intro _ _ _ _ _ h
        exact absurd h hsign
  | @unit high low _ _ hunit hcontrol =>
      refine ⟨.unit c.toNat, fun s => ?_, joinPieces?_unit hcontrol⟩
      show pieces? ('\\' :: 'u' :: '0' :: '0' :: high :: low :: s) = _
      rw [pieces?, hunit]
      cases pieces? s <;> rfl

theorem exists_pieces (s : List Char) :
    ∃ ps, pieces? (escape s) = some ps ∧ joinPieces? ps = some s := by
  induction s with
  | nil => exact ⟨[], rfl, rfl⟩
  | cons c s ih =>
      obtain ⟨ps, hpieces, hjoin⟩ := ih
      obtain ⟨p, hp, hpjoin⟩ := (written_escapeChar c).exists_piece
      refine ⟨p :: ps, ?_, ?_⟩
      · show pieces? (escapeChar c ++ escape s) = _
        rw [hp, hpieces, Option.map_some]
      · rw [hpjoin, hjoin, Option.map_some]

/-- **A TEXT IS READ BACK** from its literal. -/
theorem unescape?_escape (s : List Char) : unescape? (escape s) = some s := by
  obtain ⟨ps, hpieces, hjoin⟩ := exists_pieces s
  unfold unescape?
  rw [hpieces]
  exact hjoin

theorem untilQuote_escape (s rest : List Char) :
    untilQuote (escape s ++ '"' :: rest) = some (escape s, rest) := by
  induction s with
  | nil => rfl
  | cons c s ih =>
      show untilQuote ((escapeChar c ++ escape s) ++ '"' :: rest) = _
      rw [List.append_assoc, (written_escapeChar c).untilQuote, ih]
      rfl

/-- The literal of a text ends at its quotation mark. -/
theorem stringLiteral_escape (s rest : List Char) :
    stringLiteral (escape s ++ '"' :: rest) = some (escape s, rest) := by
  obtain ⟨ps, hpieces, -⟩ := exists_pieces s
  unfold stringLiteral
  rw [untilQuote_escape]
  show (pieces? (escape s)).bind _ = _
  rw [hpieces]
  rfl

theorem text?_ofString (s : String) : (ofString s).text? = some s := by
  show (unescape? (escape s.toList)).map String.ofList = _
  rw [unescape?_escape, Option.map_some, String.ofList_toList]

/-! ## Numbers -/

/-- What can follow a value in a text: nothing, the end of a line, or a mark. -/
def Ends (rest : List Char) : Prop :=
  ∀ c ∈ rest.head?, c = '\n' ∨ c = ',' ∨ c = ']' ∨ c = '\x7d'

theorem ends_nil : Ends [] :=
  fun c hc => absurd hc (Option.not_mem_none c)

theorem ends_cons {c : Char} (h : c = '\n' ∨ c = ',' ∨ c = ']' ∨ c = '\x7d') (s : List Char) :
    Ends (c :: s) := by
  intro c' hc'
  obtain rfl : c = c' := Option.some.inj hc'
  exact h

/-- Behind the digits there is neither a further digit nor a fraction nor an exponent. -/
theorem Ends.number {rest : List Char} (h : Ends rest) :
    (∀ c ∈ rest.head?, c.isDigit = false) ∧ fractionPart rest = some (none, rest) ∧
      exponentPart rest = some (none, rest) := by
  cases rest with
  | nil => exact ⟨fun c hc => absurd hc (Option.not_mem_none c), rfl, rfl⟩
  | cons c rest =>
      have hdigit : ∀ {sign : Char}, sign.isDigit = false →
          ∀ c ∈ (sign :: rest).head?, c.isDigit = false := by
        intro sign hsign c hc
        obtain rfl : sign = c := Option.some.inj hc
        exact hsign
      rcases h c rfl with rfl | rfl | rfl | rfl
      · exact ⟨hdigit (by decide), rfl, rfl⟩
      · exact ⟨hdigit (by decide), rfl, rfl⟩
      · exact ⟨hdigit (by decide), rfl, rfl⟩
      · exact ⟨hdigit (by decide), rfl, rfl⟩

theorem isDigit_toDigits (n : Nat) : ∀ c ∈ Nat.toDigits 10 n, c.isDigit = true :=
  fun _ hc => Nat.isDigit_of_mem_toDigits (by decide) (by decide) hc

theorem head?_toDigits_append (n : Nat) (s : List Char) :
    (Nat.toDigits 10 n ++ s).head? = (Nat.toDigits 10 n).head? := by
  rw [List.head?_append, List.head?_eq_some_head Nat.toDigits_ne_nil, Option.some_or]

/-- The digits of a positive number do not begin with a zero. -/
theorem head?_toDigits {n : Nat} (hn : 0 < n) : (Nat.toDigits 10 n).head? ≠ some '0' := by
  induction n using Nat.strongRecOn with
  | ind n ih =>
      by_cases hlt : n < 10
      · rw [Nat.toDigits_of_lt_base hlt]
        intro h
        exact Nat.ne_of_gt hn (Nat.digitChar_eq_zero.mp (Option.some.inj h))
      · have hle := Nat.le_of_not_lt hlt
        have hpos : 0 < n / 10 := Nat.div_pos hle (by decide)
        rw [Nat.toDigits_of_base_le (by decide) hle, head?_toDigits_append]
        exact ih (n / 10) (Nat.div_lt_self hn (by decide)) hpos

theorem someDigits_append {ds rest : List Char} (hne : ds ≠ [])
    (hds : ∀ c ∈ ds, c.isDigit = true) (hrest : ∀ c ∈ rest.head?, c.isDigit = false) :
    someDigits (ds ++ rest) = some (ds, rest) := by
  obtain ⟨htake, hdrop⟩ := Text.run_append hds hrest
  unfold someDigits
  rw [htake, hdrop, if_neg (by rwa [List.isEmpty_iff])]

/-- **A COUNT IS READ BACK** where its digits end. -/
theorem numeral_toDigits (n : Nat) {rest : List Char} (h : Ends rest) :
    numeral (Nat.toDigits 10 n ++ rest) = some ({ whole := Nat.toDigits 10 n }, rest) := by
  obtain ⟨hnext, hfraction, hexponent⟩ := h.number
  have hhead : ∀ {c s}, Nat.toDigits 10 n ++ rest = c :: s →
      (Nat.toDigits 10 n).head? = some c := by
    intro c s hs
    rw [← head?_toDigits_append n rest, hs]
    rfl
  have hminus : minusSign (Nat.toDigits 10 n ++ rest) = (false, Nat.toDigits 10 n ++ rest) := by
    rw [minusSign]
    intro s hs
    exact absurd (isDigit_toDigits n '-' (List.mem_of_mem_head? (hhead hs))) (by decide)
  have hwhole : wholePart (Nat.toDigits 10 n ++ rest) = some (Nat.toDigits 10 n, rest) := by
    rcases Nat.eq_zero_or_pos n with rfl | hn
    · rfl
    · rw [wholePart]
      · exact someDigits_append Nat.toDigits_ne_nil (isDigit_toDigits n) hnext
      · intro s hs
        exact head?_toDigits hn (hhead hs)
  unfold numeral
  rw [hminus]
  show (wholePart _).bind _ = _
  rw [hwhole]
  show (fractionPart rest).bind _ = _
  rw [hfraction]
  show (exponentPart rest).bind _ = _
  rw [hexponent]
  rfl

/-! ## Blanks -/

theorem skipSpace_newline (layout : Layout) (level : Nat) (s : List Char) :
    skipSpace (layout.newline level ++ s) = skipSpace s := by
  cases layout with
  | compact => rfl
  | pretty =>
      refine List.dropWhile_append_of_pos (List.forall_mem_cons.mpr ⟨rfl, fun c hc => ?_⟩)
      rw [List.eq_of_mem_replicate hc]
      rfl

/-- The readers pass over blanks. -/
theorem value_skipSpace {s t : List Char} (h : skipSpace s = skipSpace t) (n : Nat) :
    value n s = value n t := by
  cases n with
  | zero => rfl
  | succ n => rw [value, value, h]

theorem oneMember_skipSpace {s t : List Char} (h : skipSpace s = skipSpace t) (n : Nat) :
    oneMember n s = oneMember n t := by
  cases n with
  | zero => rfl
  | succ n => rw [oneMember, oneMember, h]

/-! ## Values -/

/-- No value begins with a closing bracket. -/
theorem skipSpace_of_value {n : Nat} {s t : List Char} {r : Json × List Char}
    (h : value n s = some r) : skipSpace s ≠ ']' :: t := by
  intro hs
  cases n with
  | zero => cases h
  | succ n =>
      rw [value, hs] at h
      cases h

/-- No member begins with a closing brace. -/
theorem skipSpace_of_oneMember {n : Nat} {s t : List Char} {r : (List Char × Json) × List Char}
    (h : oneMember n s = some r) : skipSpace s ≠ '\x7d' :: t := by
  intro hs
  cases n with
  | zero => cases h
  | succ n =>
      rw [oneMember, hs] at h
      cases h

theorem value_array {n : Nat} {s rest rest' : List Char} {item : Json} {items : List Json}
    (hitem : value n s = some (item, rest)) (hmore : moreItems n rest = some (items, rest')) :
    value (n + 1) ('[' :: s) = some (.array (item :: items), rest') := by
  have hopen : skipSpace ('[' :: s) = '[' :: s := rfl
  have hclose := fun t => skipSpace_of_value (t := t) hitem
  simp only [value, hopen, hitem, hmore, Option.bind_eq_bind, Option.bind_some]

theorem value_object {n : Nat} {s rest rest' : List Char} {m : List Char × Json}
    {members : List (List Char × Json)} (hmember : oneMember n s = some (m, rest))
    (hmore : moreMembers n rest = some (members, rest')) :
    value (n + 1) ('\x7b' :: s) = some (.object (m :: members), rest') := by
  have hopen : skipSpace ('\x7b' :: s) = '\x7b' :: s := rfl
  have hclose := fun t => skipSpace_of_oneMember (t := t) hmember
  simp only [value, hopen, hmember, hmore, Option.bind_eq_bind, Option.bind_some]

theorem moreItems_comma {n : Nat} {s rest rest' : List Char} {item : Json} {items : List Json}
    (hitem : value n s = some (item, rest)) (hmore : moreItems n rest = some (items, rest')) :
    moreItems (n + 1) (',' :: s) = some (item :: items, rest') := by
  have hcomma : skipSpace (',' :: s) = ',' :: s := rfl
  simp only [moreItems, hcomma, hitem, hmore, Option.bind_eq_bind, Option.bind_some]

theorem moreMembers_comma {n : Nat} {s rest rest' : List Char} {m : List Char × Json}
    {members : List (List Char × Json)} (hmember : oneMember n s = some (m, rest))
    (hmore : moreMembers n rest = some (members, rest')) :
    moreMembers (n + 1) (',' :: s) = some (m :: members, rest') := by
  have hcomma : skipSpace (',' :: s) = ',' :: s := rfl
  simp only [moreMembers, hcomma, hmember, hmore, Option.bind_eq_bind, Option.bind_some]

theorem oneMember_colon {n : Nat} {s t rest : List Char} {name : List Char} {v : Json}
    (hname : stringLiteral s = some (name, ':' :: t)) (hvalue : value n t = some (v, rest)) :
    oneMember (n + 1) ('"' :: s) = some ((name, v), rest) := by
  have hquote : skipSpace ('"' :: s) = '"' :: s := rfl
  have hcolon : skipSpace (':' :: t) = ':' :: t := rfl
  simp only [oneMember, hquote, hname, hcolon, hvalue, Option.bind_eq_bind, Option.bind_some,
    Option.map_some]

/-- What begins with a digit is read as a number. -/
theorem value_digit {c : Char} (hc : c.isDigit = true) (n : Nat) (s : List Char) :
    value (n + 1) (c :: s) = (numeral (c :: s)).map fun (n, rest) => (.number n, rest) := by
  have hne : ∀ sign : Char, sign.isDigit = false → c ≠ sign := by
    rintro sign hsign rfl
    rw [hc] at hsign
    cases hsign
  have hspace : skipSpace (c :: s) = c :: s := by
    simp [skipSpace, isSpace, hne ' ' rfl, hne '\t' rfl, hne '\n' rfl, hne '\r' rfl]
  simp [value, hspace, hne 'n' rfl, hne 't' rfl, hne 'f' rfl, hne '"' rfl, hne '[' rfl,
    hne '\x7b' rfl]

theorem value_toDigits (fuel n : Nat) {rest : List Char} (h : Ends rest) :
    value (fuel + 1) (Nat.toDigits 10 n ++ rest) = some (.ofNat n, rest) := by
  have hread := numeral_toDigits n h
  have hdigit := isDigit_toDigits n
  unfold ofNat
  cases hn : Nat.toDigits 10 n with
  | nil => exact absurd hn Nat.toDigits_ne_nil
  | cons c ds =>
      rw [hn] at hdigit hread
      rw [List.cons_append, value_digit (hdigit c List.mem_cons_self), ← List.cons_append, hread]
      rfl

/-! ## Plain values -/

/-- The value is made of texts, words of 64 bits and truth values, with at most `room` containers
    inside each other. -/
inductive Plain : Nat → Json → Prop where
  | text {room : Nat} (s : String) : Plain room (.ofString s)
  | word {room n : Nat} : n < UInt64.size → Plain room (.ofNat n)
  | bool {room : Nat} (b : Bool) : Plain room (.bool b)
  | array {room : Nat} {items : List Json} : (∀ v ∈ items, Plain room v) →
      Plain (room + 1) (.array items)
  | object {room : Nat} {members : List (List Char × Json)} :
      (∀ m ∈ members, ∃ s, m.1 = escape s) → (∀ m ∈ members, Plain room m.2) →
      Plain (room + 1) (.object members)

/-- The text of the value at the front of a text is read as the value, and nothing more is.  Its
    length bounds the calls. -/
def ReadsBack (layout : Layout) (v : Json) : Prop :=
  ∀ (level fuel : Nat) {rest : List Char}, (v.chars layout level).length ≤ fuel → Ends rest →
    value (fuel + 1) (v.chars layout level ++ rest) = some (v, rest)

theorem ends_newline (layout : Layout) (level : Nat) {c : Char} (hc : c = ']' ∨ c = '\x7d')
    (s : List Char) : Ends (layout.newline level ++ c :: s) := by
  cases layout with
  | compact => exact ends_cons (.inr (.inr hc)) s
  | pretty => exact ends_cons (.inl rfl) _

theorem ends_itemsAfter (layout : Layout) (level : Nat) (items : List Json) (rest : List Char) :
    Ends (itemsAfter layout level items ++ rest) := by
  cases items with
  | nil =>
      rw [itemsAfter, List.append_assoc]
      exact ends_newline layout level (.inl rfl) rest
  | cons item items => exact ends_cons (.inr (.inl rfl)) _

theorem ends_membersAfter (layout : Layout) (level : Nat) (members : List (List Char × Json))
    (rest : List Char) : Ends (membersAfter layout level members ++ rest) := by
  cases members with
  | nil =>
      rw [membersAfter, List.append_assoc]
      exact ends_newline layout level (.inr rfl) rest
  | cons m members => exact ends_cons (.inr (.inl rfl)) _

/-- An item is read with the line break before it. -/
theorem ReadsBack.item {layout : Layout} {v : Json} (h : ReadsBack layout v) {level fuel : Nat}
    {rest : List Char} (hfuel : (v.chars layout level).length < fuel) (hrest : Ends rest) :
    value fuel (layout.newline level ++ v.chars layout level ++ rest) = some (v, rest) := by
  obtain ⟨fuel, rfl⟩ := Nat.exists_eq_add_one_of_ne_zero (Nat.ne_zero_of_lt hfuel)
  rw [List.append_assoc, value_skipSpace (skipSpace_newline layout level _)]
  exact h level fuel (Nat.le_of_lt_succ hfuel) hrest

/-- A member is read with the line break before it. -/
theorem ReadsBack.member {layout : Layout} {m : List Char × Json} (h : ReadsBack layout m.2)
    (hname : ∃ s, m.1 = escape s) {level fuel : Nat} {rest : List Char}
    (hfuel : (memberChars layout level m).length < fuel) (hrest : Ends rest) :
    oneMember fuel (layout.newline level ++ memberChars layout level m ++ rest) =
      some (m, rest) := by
  obtain ⟨name, v⟩ := m
  obtain ⟨s, rfl⟩ : ∃ s, name = escape s := hname
  replace h : ReadsBack layout v := h
  simp only [memberChars, quoted, List.length_append, List.length_cons] at hfuel
  obtain ⟨fuel, rfl⟩ : ∃ n, fuel = n + 2 := Nat.exists_eq_add_of_le' (by omega)
  have hvalue := h level fuel (by omega) hrest
  rw [List.append_assoc, oneMember_skipSpace (skipSpace_newline layout level _)]
  simp only [memberChars, quoted, List.append_assoc, List.cons_append, List.nil_append]
  cases layout with
  | compact => exact oneMember_colon (stringLiteral_escape s _) hvalue
  | pretty =>
      have hblank : value (fuel + 1) (' ' :: (v.chars .pretty level ++ rest)) = some (v, rest) :=
        (value_skipSpace rfl (fuel + 1)).trans hvalue
      exact oneMember_colon (stringLiteral_escape s _) hblank

theorem moreItems_itemsAfter {layout : Layout} {items : List Json}
    (h : ∀ v ∈ items, ReadsBack layout v) {level fuel : Nat} {rest : List Char}
    (hfuel : (itemsAfter layout level items).length < fuel) :
    moreItems fuel (itemsAfter layout level items ++ rest) = some (items, rest) := by
  obtain ⟨fuel, rfl⟩ := Nat.exists_eq_add_one_of_ne_zero (Nat.ne_zero_of_lt hfuel)
  induction items generalizing fuel with
  | nil =>
      rw [itemsAfter, List.append_assoc, moreItems, skipSpace_newline]
      rfl
  | cons item items ih =>
      obtain ⟨hitem, hitems⟩ := List.forall_mem_cons.mp h
      simp only [itemsAfter, List.length_cons, List.length_append] at hfuel
      obtain ⟨fuel, rfl⟩ : ∃ n, fuel = n + 1 := Nat.exists_eq_add_of_le' (by omega)
      rw [itemsAfter, List.cons_append, List.append_assoc]
      refine moreItems_comma (hitem.item (by omega) ?_) (ih hitems fuel (by omega))
      exact ends_itemsAfter layout level items rest

theorem moreMembers_membersAfter {layout : Layout} {members : List (List Char × Json)}
    (hnames : ∀ m ∈ members, ∃ s, m.1 = escape s) (h : ∀ m ∈ members, ReadsBack layout m.2)
    {level fuel : Nat} {rest : List Char}
    (hfuel : (membersAfter layout level members).length < fuel) :
    moreMembers fuel (membersAfter layout level members ++ rest) = some (members, rest) := by
  obtain ⟨fuel, rfl⟩ := Nat.exists_eq_add_one_of_ne_zero (Nat.ne_zero_of_lt hfuel)
  induction members generalizing fuel with
  | nil =>
      rw [membersAfter, List.append_assoc, moreMembers, skipSpace_newline]
      rfl
  | cons m members ih =>
      obtain ⟨hname, hnames⟩ := List.forall_mem_cons.mp hnames
      obtain ⟨hmember, hmembers⟩ := List.forall_mem_cons.mp h
      simp only [membersAfter, List.length_cons, List.length_append] at hfuel
      obtain ⟨fuel, rfl⟩ : ∃ n, fuel = n + 1 := Nat.exists_eq_add_of_le' (by omega)
      rw [membersAfter, List.cons_append, List.append_assoc]
      refine moreMembers_comma (hmember.member hname (by omega) ?_)
        (ih hnames hmembers fuel (by omega))
      exact ends_membersAfter layout level members rest

theorem readsBack_text (layout : Layout) (s : String) : ReadsBack layout (.ofString s) := by
  intro level fuel rest _ _
  show value (fuel + 1) ('"' :: (escape s.toList ++ ['"'] ++ rest)) = _
  rw [List.append_assoc]
  show (stringLiteral (escape s.toList ++ '"' :: rest)).map _ = _
  rw [stringLiteral_escape]
  rfl

theorem readsBack_word (layout : Layout) (n : Nat) : ReadsBack layout (.ofNat n) := by
  intro level fuel rest _ hrest
  have hchars : (ofNat n).chars layout level = Nat.toDigits 10 n := by
    show [] ++ Nat.toDigits 10 n ++ [] ++ [] = _
    rw [List.nil_append, List.append_nil, List.append_nil]
  rw [hchars]
  exact value_toDigits fuel n hrest

theorem readsBack_bool (layout : Layout) (b : Bool) : ReadsBack layout (.bool b) := by
  intro level fuel rest _ _
  cases b <;> rfl

theorem readsBack_array {layout : Layout} {items : List Json}
    (h : ∀ v ∈ items, ReadsBack layout v) : ReadsBack layout (.array items) := by
  intro level fuel rest hfuel _
  cases items with
  | nil => rfl
  | cons item items =>
      obtain ⟨hitem, hitems⟩ := List.forall_mem_cons.mp h
      simp only [chars, List.length_cons, List.length_append] at hfuel
      rw [chars, List.cons_append, List.append_assoc]
      refine value_array (hitem.item (by omega) ?_) (moreItems_itemsAfter hitems (by omega))
      exact ends_itemsAfter layout level items rest

theorem readsBack_object {layout : Layout} {members : List (List Char × Json)}
    (hnames : ∀ m ∈ members, ∃ s, m.1 = escape s) (h : ∀ m ∈ members, ReadsBack layout m.2) :
    ReadsBack layout (.object members) := by
  intro level fuel rest hfuel _
  cases members with
  | nil => rfl
  | cons m members =>
      obtain ⟨hname, hnames⟩ := List.forall_mem_cons.mp hnames
      obtain ⟨hmember, hmembers⟩ := List.forall_mem_cons.mp h
      simp only [chars, List.length_cons, List.length_append] at hfuel
      rw [chars, List.cons_append, List.append_assoc]
      refine value_object (hmember.member hname (by omega) ?_)
        (moreMembers_membersAfter hnames hmembers (by omega))
      exact ends_membersAfter layout level members rest

theorem Plain.readsBack {room : Nat} {v : Json} (h : Plain room v) (layout : Layout) :
    ReadsBack layout v := by
  induction h with
  | text s => exact readsBack_text layout s
  | word _ => exact readsBack_word layout _
  | bool b => exact readsBack_bool layout b
  | array _ ih => exact readsBack_array ih
  | object hnames _ ih => exact readsBack_object hnames ih

/-- **WRITTEN VALUES ARE READ BACK** in both layouts. -/
theorem Plain.parse?_render {room : Nat} {v : Json} (h : Plain room v) (layout : Layout) :
    parse? (v.render layout) = some v := by
  have hvalue := h.readsBack layout 0 (2 * (v.chars layout 0).length + 1) (by omega) ends_nil
  rw [List.append_nil] at hvalue
  unfold parse? render
  rw [String.toList_ofList, hvalue]
  rfl

/-! ## Taking in plain values -/

theorem areSettled_iff {room : Nat} {items : List Json} :
    areSettled room items = true ↔ ∀ v ∈ items, v.isSettled room = true := by
  induction items with
  | nil => simp [areSettled]
  | cons item items ih => simp [areSettled, ih]

theorem membersAreSettled_iff {room : Nat} {members : List (List Char × Json)} :
    membersAreSettled room members = true ↔
      ∀ m ∈ members, (unescape? m.1).isSome = true ∧ m.2.isSettled room = true := by
  induction members with
  | nil => simp [membersAreSettled]
  | cons m members ih =>
      obtain ⟨name, v⟩ := m
      simp [membersAreSettled, memberIsSettled, ih]

/-- Taken in whole, every literal of a plain value denotes something. -/
theorem Plain.isSettled {room : Nat} {v : Json} (h : Plain room v) : v.isSettled room = true := by
  induction h with
  | text s =>
      show (unescape? (escape s.toList)).isSome = true
      rw [unescape?_escape]
      rfl
  | word hn => exact Numeral.isFinite_word hn
  | bool b => rfl
  | @array room items _ ih =>
      show (decide (0 < room + 1) && areSettled room items) = true
      rw [decide_eq_true (Nat.succ_pos room), Bool.true_and]
      exact areSettled_iff.mpr ih
  | @object room members hnames _ ih =>
      show (decide (0 < room + 1) && membersAreSettled room members) = true
      rw [decide_eq_true (Nat.succ_pos room), Bool.true_and]
      refine membersAreSettled_iff.mpr fun m hm => ⟨?_, ih m hm⟩
      obtain ⟨s, hs⟩ := hnames m hm
      rw [hs, unescape?_escape]
      rfl

end PeanoCalculus.Json
