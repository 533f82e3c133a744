import PeanoCalculus.Document
import PeanoCalculus.Report.Message
import PeanoCalculus.Proofs.Except

/-! # Reading a document is a normal form

    A document is cut up before any formula in it is read: at line ends, at the first turnstile,
    at the commas outside parentheses.  The text may be anything: its parentheses need not match,
    there may be nothing between two commas, and turnstiles may stand where they do not belong.

    Written again, what was read has fewer commas than the text it came from, and the question is
    whether the cuts still fall at the same places.  They do, for two reasons:

    * every piece begins at depth 0, and one that is followed by another ends there too, so empty
      pieces may be left out between them;
    * no turnstile lies in front of the first one, and a comma between two pieces makes none.

    `Document.Normal` collects what this says about the texts of a document.  Every document that is
    read is normal, and every normal document is read from the text it is written as. -/

namespace PeanoCalculus

open PeanoCalculus.Text

namespace Document

variable {s t w : List Char} {depth : Int}

/-! ## Commas -/

theorem pieces_ne_nil (separator : Char) (depth : Int) (s : List Char) :
    pieces separator depth s ≠ [] := by
  cases s with
  | nil => exact List.cons_ne_nil _ _
  | cons c s =>
      rw [pieces]
      split
      · exact List.cons_ne_nil _ _
      · split
        · exact List.cons_ne_nil _ _
        · exact List.cons_ne_nil _ _

/-- A character at which the text is not cut goes to the first piece. -/
theorem pieces_cons {separator c : Char} (h : ¬(c = separator ∧ depthAfter depth c = 0)) :
    pieces separator depth (c :: s) =
      (pieces separator (depthAfter depth c) s).modifyHead (c :: ·) := by
  rw [pieces, if_neg h]
  cases hrest : pieces separator (depthAfter depth c) s with
  | nil => exact absurd hrest (pieces_ne_nil _ _ _)
  | cons piece rest => rfl

/-- Behind a comma outside parentheses another piece begins. -/
theorem pieces_comma (s : List Char) : pieces ',' 0 (',' :: s) = [] :: pieces ',' 0 s :=
  rfl

/-- The text, begun at the given depth, is cut nowhere. -/
def Uncut (depth : Int) (s : List Char) : Prop :=
  pieces ',' depth s = [s]

theorem uncut_nil (depth : Int) : Uncut depth [] :=
  rfl

/-- An uncut text is not cut at its first character nor behind it. -/
theorem uncut_cons {c : Char} :
    Uncut depth (c :: s) ↔
      ¬(c = ',' ∧ depthAfter depth c = 0) ∧ Uncut (depthAfter depth c) s := by
  by_cases hcut : c = ',' ∧ depthAfter depth c = 0
  · refine iff_of_false ?_ (fun h => h.1 hcut)
    intro h
    rw [Uncut, pieces, if_pos hcut] at h
    exact absurd (List.cons.inj h).1 (List.cons_ne_nil c s).symm
  · rw [Uncut, pieces_cons hcut, Uncut]
    cases pieces ',' (depthAfter depth c) s with
    | nil => exact iff_of_false (List.cons_ne_nil _ _).symm fun h => (List.cons_ne_nil _ _).symm h.2
    | cons piece rest =>
        simp only [List.modifyHead_cons, List.cons.injEq, true_and]
        exact (and_iff_right hcut).symm

/-- An uncut text in front goes whole to the first piece. -/
theorem pieces_append (h : Uncut depth s) (t : List Char) :
    pieces ',' depth (s ++ t) =
      (pieces ',' (s.foldl depthAfter depth) t).modifyHead (s ++ ·) := by
  induction s generalizing depth with
  | nil =>
      show pieces ',' depth t = List.modifyHead id (pieces ',' depth t)
      rw [List.modifyHead_id]
      rfl
  | cons c s ih =>
      obtain ⟨hcut, hrest⟩ := uncut_cons.mp h
      rw [List.cons_append, pieces_cons hcut, ih hrest, List.modifyHead_modifyHead]
      rfl

theorem Uncut.append (hs : Uncut depth s) (ht : Uncut (s.foldl depthAfter depth) t) :
    Uncut depth (s ++ t) := by
  rw [Uncut, pieces_append hs, ht, List.modifyHead_cons]

/-- The pieces of a text that begins at the given depth: none of them is cut, and each that is
    followed by another ends at depth 0. -/
inductive Cut : Int → List (List Char) → Prop where
  | last {depth : Int} {w : List Char} : Uncut depth w → Cut depth [w]
  | cons {depth : Int} {w : List Char} {rest : List (List Char)} : Uncut depth w →
      w.foldl depthAfter depth = 0 → Cut 0 rest → Cut depth (w :: rest)

theorem Cut.ne_nil {texts : List (List Char)} (h : Cut depth texts) : texts ≠ [] := by
  cases h with
  | last _ => exact List.cons_ne_nil _ _
  | cons _ _ _ => exact List.cons_ne_nil _ _

/-- A character in front at which the text is not cut. -/
theorem Cut.push {c : Char} {texts : List (List Char)}
    (hcut : ¬(c = ',' ∧ depthAfter depth c = 0)) (h : Cut (depthAfter depth c) texts) :
    Cut depth (texts.modifyHead (c :: ·)) := by
  cases h with
  | last hw => exact .last (uncut_cons.mpr ⟨hcut, hw⟩)
  | cons hw hend hrest => exact .cons (uncut_cons.mpr ⟨hcut, hw⟩) hend hrest

/-- Cutting a text gives pieces. -/
theorem cut_pieces (depth : Int) (s : List Char) : Cut depth (pieces ',' depth s) := by
  induction s generalizing depth with
  | nil => exact .last (uncut_nil depth)
  | cons c s ih =>
      by_cases hcut : c = ',' ∧ depthAfter depth c = 0
      · obtain ⟨rfl, hdepth⟩ := hcut
        -- a comma leaves the depth as it is, so it was 0 already in front of it
        obtain rfl : depth = 0 := hdepth
        rw [pieces_comma]
        exact .cons (uncut_nil 0) rfl (ih 0)
      · rw [pieces_cons hcut]
        exact (ih _).push hcut

/-- **PIECES JOINED BY COMMAS COME APART AT THESE**, also if some of them do not close their
    parentheses or close too many. -/
theorem Cut.pieces_intercalate {texts : List (List Char)} (h : Cut depth texts) :
    pieces ',' depth ([','].intercalate texts) = texts := by
  induction h with
  | last hw =>
      rw [List.intercalate_singleton]
      exact hw
  | @cons depth w rest hw hend hrest ih =>
      rw [List.intercalate_cons_of_ne_nil hrest.ne_nil, List.append_assoc, pieces_append hw, hend,
        List.singleton_append, pieces_comma, ih, List.modifyHead_cons, List.append_nil]

/-- Without its empty pieces a text outside parentheses still comes in pieces, if any are left. -/
theorem Cut.filter {texts : List (List Char)} (h : Cut 0 texts)
    (hne : texts.filter (· ≠ []) ≠ []) : Cut 0 (texts.filter (· ≠ [])) := by
  generalize hdepth : (0 : Int) = depth at h
  induction h with
  | @last _ w hw =>
      subst hdepth
      cases w with
      | nil => exact absurd rfl hne
      | cons c w => exact .last hw
  | @cons _ w rest hw hend _ ih =>
      subst hdepth
      cases w with
      | nil => exact ih hne rfl
      | cons c w =>
          have hkept : ((c :: w) :: rest).filter (· ≠ []) = (c :: w) :: rest.filter (· ≠ []) := rfl
          rw [hkept]
          by_cases hrest : rest.filter (· ≠ []) = []
          · rw [hrest]
            exact .last hw
          · exact .cons hw hend (ih hrest rfl)

/-- Pieces none of which is empty are what their join is split into. -/
theorem splitTopLevel_intercalate {texts : List (List Char)} (h : texts = [] ∨ Cut 0 texts)
    (hne : ∀ w ∈ texts, w ≠ []) : splitTopLevel ([','].intercalate texts) ',' = texts := by
  have hkept : texts.filter (· ≠ []) = texts :=
    List.filter_eq_self.mpr (fun w hw => decide_eq_true (hne w hw))
  rcases h with rfl | h
  · rfl
  · unfold splitTopLevel
    rw [h.pieces_intercalate]
    exact hkept

/-- What a text is split into are pieces, or nothing. -/
theorem splitTopLevel_cut (s : List Char) :
    splitTopLevel s ',' = [] ∨ Cut 0 (splitTopLevel s ',') := by
  by_cases hnone : splitTopLevel s ',' = []
  · exact .inl hnone
  · exact .inr ((cut_pieces 0 s).filter hnone)

/-- The first piece is the beginning of the text, and the others lie in it. -/
theorem pieces_infix (separator : Char) (depth : Int) (s : List Char) :
    ∃ first rest, pieces separator depth s = first :: rest ∧ first <+: s ∧
      ∀ w ∈ rest, w <:+: s := by
  induction s generalizing depth with
  | nil => exact ⟨[], [], rfl, List.nil_prefix, List.forall_mem_nil _⟩
  | cons c s ih =>
      obtain ⟨first, rest, heq, hfirst, hrest⟩ := ih (depthAfter depth c)
      have hlater : ∀ w ∈ rest, w <:+: c :: s := fun w hw => List.infix_cons (hrest w hw)
      by_cases hcut : c = separator ∧ depthAfter depth c = 0
      · refine ⟨[], first :: rest, ?_, List.nil_prefix, ?_⟩
        · rw [pieces, if_pos hcut, heq]
        · exact List.forall_mem_cons.mpr ⟨List.infix_cons hfirst.isInfix, hlater⟩
      · refine ⟨c :: first, rest, ?_, List.cons_prefix_cons.mpr ⟨rfl, hfirst⟩, hlater⟩
        rw [pieces_cons hcut, heq, List.modifyHead_cons]

theorem infix_of_mem_splitTopLevel {separator : Char} (h : w ∈ splitTopLevel s separator) :
    w <:+: s := by
  obtain ⟨first, rest, heq, hfirst, hrest⟩ := pieces_infix separator 0 s
  have hmem := (List.mem_filter.mp h).1
  rw [heq] at hmem
  rcases List.mem_cons.mp hmem with rfl | hmem
  · exact hfirst.isInfix
  · exact hrest w hmem

/-- What holds of texts and is kept by a comma between two holds of their join. -/
theorem intercalate_closed {P : List Char → Prop} (hnil : P [])
    (hcomma : ∀ {s t}, P s → P t → P (s ++ ',' :: t)) {texts : List (List Char)}
    (h : ∀ w ∈ texts, P w) : P ([','].intercalate texts) := by
  induction texts with
  | nil => exact hnil
  | cons w texts ih =>
      obtain ⟨hw, hrest⟩ := List.forall_mem_cons.mp h
      cases texts with
      | nil =>
          rw [List.intercalate_singleton]
          exact hw
      | cons next texts =>
          rw [List.intercalate_cons_cons, List.append_assoc, List.singleton_append]
          exact hcomma hw (ih hrest)

/-! ## The turnstile -/

/-- No turnstile lies in the text. -/
def Unturned (s : List Char) : Prop :=
  ¬['|', '-'] <:+: s

theorem unturned_nil : Unturned [] :=
  fun h => absurd (List.infix_nil.mp h) (List.cons_ne_nil _ _)

theorem unturned_cons {c : Char} : Unturned (c :: s) ↔ ¬['|', '-'] <+: c :: s ∧ Unturned s := by
  rw [Unturned, List.infix_cons_iff, not_or, Unturned]

theorem Unturned.of_infix (h : Unturned s) (hw : w <:+: s) : Unturned w :=
  fun hturn => h (hturn.trans hw)

/-- A comma between two texts makes no turnstile. -/
theorem Unturned.comma (hs : Unturned s) (ht : Unturned t) : Unturned (s ++ ',' :: t) := by
  induction s with
  | nil =>
      refine unturned_cons.mpr ⟨?_, ht⟩
      rw [List.cons_prefix_cons]
      exact fun h => absurd h.1 (by decide)
  | cons c s ih =>
      obtain ⟨hfirst, hrest⟩ := unturned_cons.mp hs
      refine unturned_cons.mpr ⟨?_, ih hrest⟩
      -- a turnstile at the front would need one more character, and that is no comma
      intro hturn
      obtain ⟨hbar, hdash⟩ := List.cons_prefix_cons.mp hturn
      cases s with
      | nil => exact absurd (List.cons_prefix_cons.mp hdash).1 (by decide)
      | cons d s =>
          have hd := (List.cons_prefix_cons.mp hdash).1
          exact hfirst (List.cons_prefix_cons.mpr
            ⟨hbar, List.cons_prefix_cons.mpr ⟨hd, List.nil_prefix⟩⟩)

/-- **THE FIRST TURNSTILE**: the text is split at a turnstile in front of which there is none. -/
theorem splitTurnstile_eq_some_iff :
    splitTurnstile w = some (s, t) ↔ w = s ++ '|' :: '-' :: t ∧ Unturned s := by
  fun_induction splitTurnstile w generalizing s with
  | case1 rest =>
      constructor
      · intro h
        obtain ⟨rfl, rfl⟩ := Prod.mk.inj (Option.some.inj h)
        exact ⟨rfl, unturned_nil⟩
      · rintro ⟨heq, hs⟩
        cases s with
        | nil =>
            obtain rfl := (List.cons.inj (List.cons.inj heq).2).2
            rfl
        | cons c s =>
            -- the turnstile at the front lies in `s`, or its dash is the bar of the next one
            obtain ⟨rfl, hbehind⟩ := List.cons.inj heq
            cases s with
            | nil => exact absurd (List.cons.inj hbehind).1 (by decide)
            | cons d s =>
                obtain ⟨rfl, -⟩ := List.cons.inj hbehind
                exact absurd (List.prefix_append ['|', '-'] s) (unturned_cons.mp hs).1
  | case2 c rest hfront ih =>
      constructor
      · intro h
        obtain ⟨⟨before, after⟩, hsplit, heq⟩ := Option.map_eq_some_iff.mp h
        obtain ⟨rfl, rfl⟩ := Prod.mk.inj heq
        obtain ⟨rfl, hbefore⟩ := ih.mp hsplit
        refine ⟨rfl, unturned_cons.mpr ⟨?_, hbefore⟩⟩
        intro hturn
        obtain ⟨hbar, hdash⟩ := List.cons_prefix_cons.mp hturn
        obtain ⟨more, hmore⟩ := hdash
        refine hfront (more ++ '|' :: '-' :: after) hbar.symm ?_
        rw [← hmore]
        rfl
      · rintro ⟨heq, hs⟩
        cases s with
        | nil =>
            obtain ⟨rfl, rfl⟩ := List.cons.inj heq
            exact absurd rfl (hfront t rfl)
        | cons d s =>
            obtain ⟨rfl, rfl⟩ := List.cons.inj heq
            rw [ih.mpr ⟨rfl, (unturned_cons.mp hs).2⟩]
            rfl
  | case3 =>
      refine iff_of_false (Option.some_ne_none _).symm ?_
      rintro ⟨heq, -⟩
      exact absurd heq.symm (List.append_ne_nil_of_right_ne_nil s (List.cons_ne_nil _ _))

end Document

/-! ## Lines -/

/-- The text holds something and no blank. -/
def Solid (s : List Char) : Prop :=
  s ≠ [] ∧ ∀ c ∈ s, isBlank c = false

theorem solid_of_mem_solidLines {text : String} {line : List Char} (h : line ∈ solidLines text) :
    Solid line := by
  obtain ⟨hmem, hne⟩ := List.mem_filter.mp h
  obtain ⟨whole, -, rfl⟩ := List.mem_map.mp hmem
  refine ⟨of_decide_eq_true hne, ?_⟩
  intro c hc
  exact (Bool.not_eq_true' _).mp (List.mem_filter.mp hc).2

/-- Solid lines are what the lines of the text are read as. -/
theorem solidLines_unlines {lines : List String} (h : ∀ line ∈ lines, Solid line.toList) :
    solidLines (unlines lines) = lines.map String.toList := by
  -- behind the last line end there is an empty piece, which is dropped in the end
  have hsplit : (unlines lines).toList.splitOn '\n' = lines.map String.toList ++ [[]] := by
    unfold unlines
    rw [String.toList_join]
    induction lines with
    | nil => rfl
    | cons line lines ih =>
        have hend : '\n' ∉ line.toList := fun hmem =>
          absurd ((h line (List.mem_cons_self ..)).2 _ hmem) (by decide)
        have hline : (line ++ "\n").toList = line.toList ++ ['\n'] := String.toList_append
        rw [List.map_cons, List.flatMap_cons, hline, List.append_assoc, List.singleton_append,
          List.splitOn_append_cons_self_of_not_mem hend,
          ih (fun other hother => h other (List.mem_cons_of_mem line hother))]
        rfl
  have hsqueeze : (lines.map String.toList).map squeeze = lines.map String.toList := by
    rw [List.map_map]
    refine List.map_congr_left (fun line hline => List.filter_eq_self.mpr (fun c hc => ?_))
    rw [(h line hline).2 c hc]
    rfl
  unfold solidLines
  rw [hsplit, List.map_append, hsqueeze, List.filter_append]
  have hkept : (lines.map String.toList).filter (· ≠ []) = lines.map String.toList := by
    refine List.filter_eq_self.mpr (fun text htext => ?_)
    obtain ⟨line, hline, rfl⟩ := List.mem_map.mp htext
    exact decide_eq_true (h line hline).1
  rw [hkept]
  exact List.append_nil _

theorem map_ofList_toList (texts : List String) :
    (texts.map String.toList).map String.ofList = texts := by
  rw [List.map_map]
  exact (List.map_congr_left fun text _ => String.ofList_toList).trans (List.map_id' texts)

theorem map_toList_ofList (texts : List (List Char)) :
    (texts.map String.ofList).map String.toList = texts := by
  rw [List.map_map]
  exact (List.map_congr_left fun text _ => String.toList_ofList).trans (List.map_id' texts)

/-! ## Whole documents -/

namespace Document

theorem toList_headerText (hypotheses : List String) (goal : String) :
    (headerText hypotheses goal).toList =
      [','].intercalate (hypotheses.map String.toList) ++ '|' :: '-' :: goal.toList := by
  unfold headerText
  rw [String.toList_append, String.toList_append, String.toList_intercalate, List.append_assoc]
  rfl

/-- A text reads as a document when its first line is split at a turnstile, with a goal behind. -/
theorem parse_eq_ok {text : String} {d : Document} :
    parse text = .ok d ↔
      ∃ header lines before goal, solidLines text = header :: lines ∧
        splitTurnstile header = some (before, goal) ∧ goal ≠ [] ∧
        d = ⟨(splitTopLevel before ',').map String.ofList, String.ofList goal,
          lines.map String.ofList⟩ := by
  constructor
  · intro h
    unfold parse at h
    cases hlines : solidLines text with
    | nil =>
        rw [hlines] at h
        cases h
    | cons header lines =>
        simp only [hlines] at h
        cases hsplit : splitTurnstile header with
        | none =>
            simp only [hsplit] at h
            cases h
        | some parts =>
            obtain ⟨before, goal⟩ := parts
            cases goal with
            | nil =>
                simp only [hsplit] at h
                cases h
            | cons c goal =>
                simp only [hsplit] at h
                exact ⟨header, lines, before, c :: goal, rfl, hsplit, List.cons_ne_nil c goal,
                  (Except.ok.inj h).symm⟩
  · rintro ⟨header, lines, before, goal, hlines, hsplit, hgoal, rfl⟩
    cases goal with
    | nil => exact absurd rfl hgoal
    | cons c goal => simp only [parse, hlines, hsplit]

/-- What the texts of a document are like if it was read: none holds a blank or is empty, the
    hypotheses are the pieces of one text, and no turnstile lies in them. -/
structure Normal (d : Document) : Prop where
  hypotheses_solid : ∀ h ∈ d.hypotheses, Solid h.toList
  hypotheses_cut : d.hypotheses.map String.toList = [] ∨ Cut 0 (d.hypotheses.map String.toList)
  hypotheses_unturned : ∀ h ∈ d.hypotheses, Unturned h.toList
  goal_solid : Solid d.goal.toList
  lines_solid : ∀ line ∈ d.lines, Solid line.toList

/-- The header of a normal document is solid. -/
theorem Normal.header_solid {d : Document} (hd : d.Normal) : Solid d.header.toList := by
  have hjoined : ∀ c ∈ [','].intercalate (d.hypotheses.map String.toList), isBlank c = false := by
    refine intercalate_closed (P := fun s => ∀ c ∈ s, isBlank c = false)
      (List.forall_mem_nil _) ?_ ?_
    · intro s t hs ht
      exact List.forall_mem_append.mpr ⟨hs, List.forall_mem_cons.mpr ⟨by decide, ht⟩⟩
    · exact List.forall_mem_map.mpr fun h hh => (hd.hypotheses_solid h hh).2
  rw [header, toList_headerText]
  refine ⟨List.append_ne_nil_of_right_ne_nil _ (List.cons_ne_nil _ _), ?_⟩
  exact List.forall_mem_append.mpr ⟨hjoined, List.forall_mem_cons.mpr ⟨by decide,
    List.forall_mem_cons.mpr ⟨by decide, hd.goal_solid.2⟩⟩⟩

/-- **A NORMAL DOCUMENT IS READ FROM WHAT IT IS WRITTEN AS**. -/
theorem Normal.parse_written {d : Document} (hd : d.Normal) :
    parse (unlines (d.header :: d.lines)) = .ok d := by
  have hlines := solidLines_unlines (List.forall_mem_cons.mpr ⟨hd.header_solid, hd.lines_solid⟩)
  have hunturned : Unturned ([','].intercalate (d.hypotheses.map String.toList)) :=
    intercalate_closed unturned_nil Unturned.comma (List.forall_mem_map.mpr hd.hypotheses_unturned)
  have hpieces : splitTopLevel ([','].intercalate (d.hypotheses.map String.toList)) ',' =
      d.hypotheses.map String.toList :=
    splitTopLevel_intercalate hd.hypotheses_cut
      (List.forall_mem_map.mpr fun h hh => (hd.hypotheses_solid h hh).1)
  refine parse_eq_ok.mpr ⟨_, _, _, _, hlines,
    splitTurnstile_eq_some_iff.mpr ⟨toList_headerText _ _, hunturned⟩, hd.goal_solid.1, ?_⟩
  rw [hpieces, map_ofList_toList, map_ofList_toList, String.ofList_toList]

/-- **EVERY DOCUMENT THAT IS READ IS NORMAL**. -/
theorem normal_of_parse {text : String} {d : Document} (h : parse text = .ok d) : d.Normal := by
  obtain ⟨header, lines, before, goal, hlines, hsplit, hgoal, rfl⟩ := parse_eq_ok.mp h
  obtain ⟨rfl, hunturned⟩ := splitTurnstile_eq_some_iff.mp hsplit
  have hsolid : ∀ line ∈ (before ++ '|' :: '-' :: goal) :: lines, Solid line := by
    rw [← hlines]
    exact fun line hline => solid_of_mem_solidLines hline
  obtain ⟨⟨-, hheader⟩, hrest⟩ := List.forall_mem_cons.mp hsolid
  obtain ⟨hbefore, hbehind⟩ := List.forall_mem_append.mp hheader
  have hof : ∀ {P : List Char → Prop} {texts : List (List Char)}, (∀ w ∈ texts, P w) →
      ∀ text ∈ texts.map String.ofList, P text.toList := by
    intro P texts hP
    refine List.forall_mem_map.mpr fun w hw => ?_
    rw [String.toList_ofList]
    exact hP w hw
  refine ⟨hof ?_, ?_, hof ?_, ?_, hof hrest⟩
  · intro w hw
    refine ⟨of_decide_eq_true (List.mem_filter.mp hw).2, ?_⟩
    exact fun c hc => hbefore c ((infix_of_mem_splitTopLevel hw).subset hc)
  · rw [map_toList_ofList]
    exact splitTopLevel_cut before
  · exact fun w hw => hunturned.of_infix (infix_of_mem_splitTopLevel hw)
  · rw [String.toList_ofList]
    exact ⟨hgoal, fun c hc => hbehind c (List.mem_cons_of_mem _ (List.mem_cons_of_mem _ hc))⟩

/-- **READING IS A NORMAL FORM**: what is read from any text, written again with its header and one
    line for each of its lines, is read as the same document.  And the pieces that any text is split
    into at commas are those that their join is split into. -/
theorem reading_is_normal_form :
    (∀ (text : String) (d : Document), parse text = .ok d →
      parse (unlines (d.header :: d.lines)) = .ok d) ∧
    ∀ text : List Char, splitTopLevel ([','].intercalate (splitTopLevel text ',')) ',' =
      splitTopLevel text ',' := by
  constructor
  · intro text d h
    exact (normal_of_parse h).parse_written
  · intro text
    refine splitTopLevel_intercalate (splitTopLevel_cut text) ?_
    intro w hw
    exact of_decide_eq_true (List.mem_filter.mp hw).2

/-- Two parentheses too many, one too few, nothing between two commas, a bar in front of the first
    turnstile and another turnstile behind it. -/
theorem reading_is_normal_form_unbalanced :
    ∃ d, parse "A, ,(B)),(C, (D,, | |- |-E\n \n F ( ,\n" = .ok d ∧
      d.hypotheses = ["A", "(B)),(C", "(D,,|"] ∧ d.goal = "|-E" ∧ d.lines = ["F(,"] ∧
      parse (unlines (d.header :: d.lines)) = .ok d := by
  have hread : ((parse "A, ,(B)),(C, (D,, | |- |-E\n \n F ( ,\n").toOption.any fun d =>
      decide (d.hypotheses = ["A", "(B)),(C", "(D,,|"] ∧ d.goal = "|-E" ∧
        d.lines = ["F(,"])) = true := by
    decide +kernel
  obtain ⟨d, hparse, hfacts⟩ := exists_ok_of_any hread
  obtain ⟨hhyps, hgoal, hlines⟩ := of_decide_eq_true hfacts
  exact ⟨d, hparse, hhyps, hgoal, hlines, reading_is_normal_form.1 _ d hparse⟩

end Document

end PeanoCalculus
