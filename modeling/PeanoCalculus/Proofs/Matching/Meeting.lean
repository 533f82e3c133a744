import PeanoCalculus.Proofs.Matching.Demands

/-! # Matching meets demands

    The state of a match only records whether the demands agree with one another.

    * `Match.meetAll` binds the names of a list of demands one after the other;
    * `extend_eq_demands`: a match compares the trees and then meets their demands;
    * `Bindings.Meets` says what is bound in the end, and `meetAll_capture` whether a capture
      is noted.

    After this, what a match accepts is a question about `demands` alone. -/

namespace PeanoCalculus

/-! ## Meeting the demands -/

namespace Match

/-- The same state at another place. -/
def placed (m : Match) (scope : List (String × String)) : Match :=
  { m with scope := scope }

/-- Meet a demand: bind the name at the place it comes from. -/
def meet (mode : MatchMode) (m : Match) (d : Demand) : Option Match :=
  ((m.placed d.scope).bind mode d.name d.value).map (·.placed m.scope)

/-- Meet demands one after the other. -/
def meetAll (mode : MatchMode) (m : Match) (ds : List Demand) : Option Match :=
  ds.foldlM (meet mode) m

theorem noteCapture_scope (m : Match) (x : String) (t : Expr) :
    (m.noteCapture x t).scope = m.scope := by
  unfold noteCapture
  split <;> rfl

theorem noteCapture_bindings (m : Match) (x : String) (t : Expr) :
    (m.noteCapture x t).bindings = m.bindings := by
  unfold noteCapture
  split <;> rfl

/-- Binding a name, captures apart, leaves the state as it is or puts the name into the table. -/
theorem bind_schema_cases {m m' : Match} {x : String} {e : Expr}
    (h : m.bind .schema x e = some m') :
    m' = m ∨ m' = { m with bindings := m.bindings.insert x e } := by
  simp only [Match.bind] at h
  split at h
  · exact .inr (Option.some.inj h).symm
  · split at h
    · exact .inl (Option.some.inj h).symm
    · cases h

/-- Binding a name does not move to another place. -/
theorem bind_scope {mode : MatchMode} {m m' : Match} {x : String} {e : Expr}
    (h : m.bind mode x e = some m') : m'.scope = m.scope := by
  have hschema : ∀ m₁, m.bind .schema x e = some m₁ → m₁.scope = m.scope := by
    intro m₁ h₁
    obtain rfl | rfl := bind_schema_cases h₁ <;> rfl
  cases mode with
  | schema => exact hschema m' h
  | substitution y =>
      obtain ⟨m₁, h₁, rfl⟩ := Option.map_eq_some_iff.mp h
      rw [noteCapture_scope]
      exact hschema m₁ h₁

/-- A demand of the current place binds its name there. -/
theorem meet_here (mode : MatchMode) (m : Match) (x : String) (e : Expr) :
    m.meet mode ⟨x, e, m.scope⟩ = m.bind mode x e := by
  unfold meet
  cases h : m.bind mode x e with
  | none => exact congrArg (Option.map _) h
  | some m' =>
      refine (congrArg (Option.map _) h).trans ?_
      show some (m'.placed m.scope) = some m'
      rw [← bind_scope h]
      rfl

theorem meetAll_nil (mode : MatchMode) (m : Match) : m.meetAll mode [] = some m := rfl

theorem meetAll_cons (mode : MatchMode) (m : Match) (d : Demand) (ds : List Demand) :
    m.meetAll mode (d :: ds) = (m.meet mode d).bind (·.meetAll mode ds) := rfl

theorem meetAll_append (mode : MatchMode) (m : Match) (ds es : List Demand) :
    m.meetAll mode (ds ++ es) = (m.meetAll mode ds).bind (·.meetAll mode es) :=
  List.foldlM_append

theorem meetAll_singleton (mode : MatchMode) (m : Match) (d : Demand) :
    m.meetAll mode [d] = m.meet mode d := by
  rw [meetAll_cons]
  cases m.meet mode d <;> rfl

/-- Demands are met in the same way from every place. -/
theorem meetAll_scoped (mode : MatchMode) (m : Match) (scope : List (String × String))
    (ds : List Demand) :
    (m.placed scope).meetAll mode ds = (m.meetAll mode ds).map (·.placed scope) := by
  induction ds generalizing m with
  | nil => rfl
  | cons d ds ih =>
      rw [meetAll_cons, meetAll_cons]
      unfold meet
      show (((m.placed d.scope).bind mode d.name d.value).map _).bind _ = _
      cases (m.placed d.scope).bind mode d.name d.value with
      | none => rfl
      | some m' =>
          show (m'.placed scope).meetAll mode ds =
            ((m'.placed m.scope).meetAll mode ds).map (·.placed scope)
          rw [← ih (m'.placed m.scope)]
          rfl

theorem meetAll_scope {mode : MatchMode} {m m' : Match} {ds : List Demand}
    (h : m.meetAll mode ds = some m') : m'.scope = m.scope := by
  have hself : m.meetAll mode ds = (m.meetAll mode ds).map (·.placed m.scope) :=
    meetAll_scoped mode m m.scope ds
  rw [h] at hself
  have hscope := congrArg Match.scope (Option.some.inj hself)
  exact hscope

/-! ## A match is its demands -/

theorem bindBinder_eq (mode : MatchMode) (m : Match) (x y : String) :
    m.bindBinder mode x y = (binderDemands mode x y m.scope).bind (m.meetAll mode) := by
  unfold bindBinder binderDemands
  by_cases hletter : mode = .schema ∧ isSingleLetter x
  · rw [if_pos hletter, if_pos hletter, Option.bind_some, meetAll_singleton, meet_here]
  · rw [if_neg hletter, if_neg hletter]
    by_cases hxy : x = y
    · rw [if_pos hxy, if_pos hxy]
      rfl
    · rw [if_neg hxy, if_neg hxy]
      rfl

/-- Two matches, one after the other, meet the joined demands. -/
theorem bind_joinDemands {mode : MatchMode} {m : Match} {next : Match → Option Match}
    {first second : Option (List Demand)}
    (hnext : ∀ m', m'.scope = m.scope → next m' = second.bind (m'.meetAll mode)) :
    (first.bind (m.meetAll mode)).bind next =
      (joinDemands first second).bind (m.meetAll mode) := by
  cases first with
  | none => rfl
  | some ds =>
      show (m.meetAll mode ds).bind next = _
      cases hds : m.meetAll mode ds with
      | none =>
          cases second with
          | none => rfl
          | some es =>
              show none = m.meetAll mode (ds ++ es)
              rw [meetAll_append, hds]
              rfl
      | some m' =>
          show next m' = _
          rw [hnext m' (meetAll_scope hds)]
          cases second with
          | none => rfl
          | some es =>
              show m'.meetAll mode es = m.meetAll mode (ds ++ es)
              rw [meetAll_append, hds]
              rfl

/-- Demands from below a pair of binders are met like others, and then the binders are left. -/
theorem meetAll_below (mode : MatchMode) (m : Match) (x y : String)
    (found : Option (List Demand)) :
    ((found.bind ((m.enter x y).meetAll mode)).bind fun m' => some m'.leave) =
      found.bind (m.meetAll mode) := by
  cases found with
  | none => rfl
  | some ds =>
      show ((m.placed ((x, y) :: m.scope)).meetAll mode ds).bind _ = m.meetAll mode ds
      rw [meetAll_scoped]
      cases hds : m.meetAll mode ds with
      | none => rfl
      | some m' =>
          show some (m'.placed m.scope) = some m'
          rw [← meetAll_scope hds]
          rfl

/-- Arguments are matched by their demands when each of them is. -/
theorem extendAll_eq_demands {mode : MatchMode} {args : List Expr}
    (h : ∀ a ∈ args, ∀ (c : Expr) (m : Match),
      extend mode a c m = (demands mode a c m.scope).bind (m.meetAll mode))
    (cs : List Expr) (m : Match) :
    extendAll mode args cs m = (demandsAll mode args cs m.scope).bind (m.meetAll mode) := by
  induction args generalizing cs m with
  | nil => cases cs <;> (unfold extendAll demandsAll; rfl)
  | cons a args ih =>
      cases cs with
      | nil => unfold extendAll demandsAll; rfl
      | cons c cs =>
          unfold extendAll demandsAll
          show (extend mode a c m).bind (extendAll mode args cs) = _
          rw [h a List.mem_cons_self]
          refine bind_joinDemands fun m' hm' => ?_
          rw [ih (fun b hb => h b (List.mem_cons_of_mem a hb)), hm']

/-- **A MATCH IS ITS DEMANDS**: going on from any state, matching compares the trees and then
    meets what the names have to stand for. -/
theorem extend_eq_demands (mode : MatchMode) (schema candidate : Expr) (m : Match) :
    extend mode schema candidate m =
      (demands mode schema candidate m.scope).bind (m.meetAll mode) := by
  induction schema generalizing candidate m with
  | binary op l r ihl ihr =>
      cases candidate with
      | binary op' l' r' =>
          unfold extend demands
          by_cases hop : op = op'
          · simp only [if_pos hop]
            -- the right side goes on from the state in which the left side ends
            show (extend mode l l' m).bind (extend mode r r') = _
            rw [ihl]
            refine bind_joinDemands fun m' hm' => ?_
            rw [ihr, hm']
          · simp only [if_neg hop, Option.bind_none]
      | _ => unfold extend demands; rfl
  | negation e ih =>
      cases candidate with
      | negation e' => unfold extend demands; exact ih e' m
      | _ => unfold extend demands; rfl
  | quantified q x e ih =>
      cases candidate with
      | quantified q' y e' =>
          unfold extend demands
          by_cases hq : q = q'
          · simp only [if_pos hq]
            show (m.bindBinder mode x y).bind
              (fun m' => (extend mode e e' (m'.enter x y)).bind fun m'' => some m''.leave) = _
            rw [bindBinder_eq]
            refine bind_joinDemands fun m' hm' => ?_
            rw [ih, show (m'.enter x y).scope = (x, y) :: m'.scope from rfl, hm', meetAll_below]
          · simp only [if_neg hq, Option.bind_none]
      | _ => unfold extend demands; rfl
  | apply f args ih =>
      unfold extend demands
      by_cases hletter : (args.isEmpty && mode.takesLetter f) = true
      · rw [if_pos hletter, if_pos hletter, Option.bind_some, meetAll_singleton, meet_here]
      · rw [if_neg hletter, if_neg hletter]
        cases candidate with
        | apply f' as' =>
            by_cases hf : f = f'
            · simp only [if_pos hf]
              exact extendAll_eq_demands ih as' m
            · simp only [if_neg hf, Option.bind_none]
        | _ => rfl
  | var x =>
      unfold extend demands
      cases m.scope.lookup x with
      | some y =>
          by_cases hy : candidate.varName? = some y
          · simp only [if_pos hy, Option.bind_some, meetAll_nil]
          · simp only [if_neg hy, Option.bind_none]
      | none =>
          by_cases htakes : mode.takesVariable x = true
          · simp only [if_pos htakes, Option.bind_some, meetAll_singleton, meet_here]
          · by_cases hx : candidate.varName? = some x
            · simp only [if_neg htakes, if_pos hx, Option.bind_some, meetAll_nil]
            · simp only [if_neg htakes, if_neg hx, Option.bind_none]
  | successor n e ih =>
      cases candidate with
      | successor n' e' =>
          unfold extend demands
          by_cases hlt : n < n'
          · simp only [if_pos hlt]
            exact ih _ m
          · by_cases heq : n = n'
            · simp only [if_neg hlt, if_pos heq]
              exact ih e' m
            · simp only [if_neg hlt, if_neg heq, Option.bind_none]
      | _ => unfold extend demands; rfl
  | zero =>
      unfold extend demands
      cases candidate.isZero <;> rfl

end Match

/-! ## What the names are bound to -/

namespace Bindings

/-- Bind the name of a demand, or compare with the text of what it is bound to. -/
def accept (b : Bindings) (d : Demand) : Option Bindings :=
  match b.find? d.name with
  | none => some (b.insert d.name d.value)
  | some known => if known.text = d.value.text then some b else none

/-- The second table comes from the first by meeting the demands: what was bound stays bound,
    each name demanded is bound to something with the right text, and nothing else is bound. -/
structure Meets (b : Bindings) (ds : List Demand) (b' : Bindings) : Prop where
  keeps : ∀ {x e}, b.find? x = some e → b'.find? x = some e
  meets : ∀ d ∈ ds, ∃ e, b'.find? d.name = some e ∧ e.text = d.value.text
  only : ∀ {x e}, b'.find? x = some e →
    b.find? x = some e ∨ ∃ d ∈ ds, d.name = x ∧ d.value = e

/-- One demand. -/
theorem meets_of_accept {b b' : Bindings} {d : Demand} (h : b.accept d = some b') :
    b.Meets [d] b' := by
  unfold accept at h
  split at h
  · rename_i hnone
    cases h
    refine ⟨fun {x e} hx => ?_, fun d' hd' => ?_, fun {x e} hx => ?_⟩
    · have hne : ¬x = d.name := fun heq => by rw [heq, hnone] at hx; exact nomatch hx
      rw [find?_insert, if_neg hne, hx]
    · rw [List.mem_singleton.mp hd', find?_insert, if_pos rfl]
      exact ⟨d.value, rfl, rfl⟩
    · rw [find?_insert] at hx
      split at hx
      · rename_i heq
        exact .inr ⟨d, List.mem_singleton_self d, heq.symm, Option.some.inj hx⟩
      · exact .inl hx
  · rename_i known hknown
    split at h
    · rename_i htext
      cases h
      refine ⟨id, fun d' hd' => ?_, .inl⟩
      rw [List.mem_singleton.mp hd']
      exact ⟨known, hknown, htext⟩
    · exact nomatch h

/-- One demand after the other. -/
theorem meets_of_acceptAll {b b' : Bindings} {ds : List Demand} (h : ds.foldlM accept b = some b') :
    b.Meets ds b' := by
  induction ds generalizing b with
  | nil =>
      cases h
      exact ⟨id, List.forall_mem_nil _, .inl⟩
  | cons d ds ih =>
      obtain ⟨b₁, h₁, h₂⟩ := Option.bind_eq_some_iff.mp h
      have hfirst := meets_of_accept h₁
      have hrest := ih h₂
      refine ⟨fun hx => hrest.keeps (hfirst.keeps hx), fun d' hd' => ?_, fun hx => ?_⟩
      · rcases List.mem_cons.mp hd' with heq | hmem
        · obtain ⟨e, hfind, htext⟩ := hfirst.meets d' (List.mem_singleton.mpr heq)
          exact ⟨e, hrest.keeps hfind, htext⟩
        · exact hrest.meets d' hmem
      · rcases hrest.only hx with hx₁ | ⟨d', hd', hname⟩
        · rcases hfirst.only hx₁ with hx₀ | ⟨d', hd', hname⟩
          · exact .inl hx₀
          · exact .inr ⟨d', List.mem_cons.mpr (.inl (List.mem_singleton.mp hd')), hname⟩
        · exact .inr ⟨d', List.mem_cons_of_mem d hd', hname⟩

/-- Demands whose texts depend on the name alone can all be met. -/
theorem acceptAll_of_texts {texts : String → String} {b : Bindings} {ds : List Demand}
    (hb : ∀ x e, b.find? x = some e → e.text = texts x)
    (hds : ∀ d ∈ ds, d.value.text = texts d.name) : ∃ b', ds.foldlM accept b = some b' := by
  induction ds generalizing b with
  | nil => exact ⟨b, rfl⟩
  | cons d ds ih =>
      have hd := hds d List.mem_cons_self
      have hstep : ∃ b₁, b.accept d = some b₁ := by
        unfold accept
        cases hfind : b.find? d.name with
        | none => exact ⟨_, rfl⟩
        | some known =>
            have htext : known.text = d.value.text := (hb _ _ hfind).trans hd.symm
            exact ⟨b, if_pos htext⟩
      obtain ⟨b₁, h₁⟩ := hstep
      have hb₁ : ∀ x e, b₁.find? x = some e → e.text = texts x := by
        intro x e hx
        rcases (meets_of_accept h₁).only hx with hold | ⟨d', hd', rfl, rfl⟩
        · exact hb x e hold
        · rw [List.mem_singleton.mp hd', hd]
      obtain ⟨b', h'⟩ := ih hb₁ fun d' hd' => hds d' (List.mem_cons_of_mem d hd')
      exact ⟨b', Option.bind_eq_some_iff.mpr ⟨b₁, h₁, h'⟩⟩

/-- From nothing bound, a name is bound to what is demanded of it, if demands of one name are for
    the same tree when they are for the same text. -/
theorem Meets.find?_of_texts {b : Bindings} {ds : List Demand} (h : ({} : Bindings).Meets ds b)
    (htexts : ∀ d ∈ ds, ∀ d' ∈ ds, d.name = d'.name → d.value.text = d'.value.text →
      d.value = d'.value) : ∀ d ∈ ds, b.find? d.name = some d.value := by
  intro d hd
  obtain ⟨e, hfind, htext⟩ := h.meets d hd
  rcases h.only hfind with hempty | ⟨d', hd', hname, rfl⟩
  · cases hempty
  · rw [hfind, htexts d' hd' d hd hname htext]

/-- From nothing bound, demands of the right sort bind each name to what is demanded of it. -/
theorem Meets.find?_eq {b : Bindings} {ds : List Demand} (h : ({} : Bindings).Meets ds b)
    (hsorted : ∀ d ∈ ds, d.Sorted) : ∀ d ∈ ds, b.find? d.name = some d.value :=
  h.find?_of_texts fun d hd d' hd' => (hsorted d hd).eq_of_text (hsorted d' hd')

end Bindings

namespace Match

theorem meet_bindings (mode : MatchMode) (m : Match) (d : Demand) :
    (m.meet mode d).map (·.bindings) = m.bindings.accept d := by
  have hbound : Option.map Match.bindings (match m.bindings.find? d.name with
      | none => some { m.placed d.scope with bindings := m.bindings.insert d.name d.value }
      | some known => if known.text = d.value.text then some (m.placed d.scope) else none) =
        m.bindings.accept d := by
    unfold Bindings.accept
    split
    · rfl
    · split <;> rfl
  rw [← hbound]
  cases mode with
  | schema =>
      show Option.map _ (Option.map _ _) = _
      rw [Option.map_map]
      rfl
  | substitution y =>
      show Option.map _ (Option.map _ (Option.map _ _)) = _
      rw [Option.map_map, Option.map_map]
      refine congrArg (Option.map · _) (funext fun m' => ?_)
      exact noteCapture_bindings m' d.name d.value

theorem meetAll_bindings (mode : MatchMode) (m : Match) (ds : List Demand) :
    (m.meetAll mode ds).map (·.bindings) = ds.foldlM Bindings.accept m.bindings := by
  induction ds generalizing m with
  | nil => rfl
  | cons d ds ih =>
      rw [meetAll_cons, List.foldlM_cons, ← meet_bindings mode m d]
      cases m.meet mode d with
      | none => rfl
      | some m' => exact ih m'

/-- What a match binds. -/
theorem meets_of_meetAll {mode : MatchMode} {m m' : Match} {ds : List Demand}
    (h : m.meetAll mode ds = some m') : m.bindings.Meets ds m'.bindings := by
  refine Bindings.meets_of_acceptAll ?_
  rw [← meetAll_bindings mode, h]
  rfl

/-- A match goes through when the texts demanded depend on the name alone. -/
theorem meetAll_of_texts {mode : MatchMode} {texts : String → String} {ds : List Demand}
    (hds : ∀ d ∈ ds, d.value.text = texts d.name) :
    ∃ m, ({} : Match).meetAll mode ds = some m := by
  have hempty : ∀ x e, ({} : Bindings).find? x = some e → e.text = texts x := nofun
  obtain ⟨b', hb'⟩ := Bindings.acceptAll_of_texts hempty hds
  rw [← meetAll_bindings mode {} ds] at hb'
  obtain ⟨m, hm, _⟩ := Option.map_eq_some_iff.mp hb'
  exact ⟨m, hm⟩

/-! ## Captures -/

/-- Only a substitution is looked at for captures. -/
theorem meet_schema_capture {m m' : Match} {d : Demand} (h : m.meet .schema d = some m') :
    m'.capture = m.capture := by
  obtain ⟨m₁, h₁, rfl⟩ := Option.map_eq_some_iff.mp h
  obtain rfl | rfl := bind_schema_cases h₁ <;> rfl

theorem meetAll_schema_capture {m m' : Match} {ds : List Demand}
    (h : m.meetAll .schema ds = some m') : m'.capture = m.capture := by
  induction ds generalizing m with
  | nil =>
      cases h
      rfl
  | cons d ds ih =>
      obtain ⟨m₁, h₁, h₂⟩ := Option.bind_eq_some_iff.mp h
      rw [ih h₂, meet_schema_capture h₁]

/-- Nothing captures a term when no enclosing binder is free in it. -/
theorem capturer?_eq_none {m : Match} {t : Expr} :
    m.capturer? t = none ↔ ∀ p ∈ m.scope, t.hasFree p.2 = false := by
  unfold capturer?
  rw [List.head?_eq_none_iff, List.eq_nil_iff_forall_not_mem]
  simp only [mem_foldr_insertName, List.mem_filter, List.mem_map, List.contains_iff_mem,
    Expr.mem_freeVariables, not_and, Bool.not_eq_true]
  constructor
  · intro h p hp
    exact h p.2 ⟨p, hp, rfl⟩
  · rintro h y ⟨p, hp, rfl⟩
    exact h p hp

/-- Whatever captures a term is free in it. -/
theorem hasFree_of_capturer? {m : Match} {t : Expr} {y : String} (h : m.capturer? t = some y) :
    t.hasFree y = true := by
  have hmem := List.mem_of_mem_head? h
  rw [mem_foldr_insertName, List.mem_filter, List.contains_iff_mem, Expr.mem_freeVariables] at hmem
  exact hmem.2

theorem noteCapture_capture {m : Match} {x : String} {t : Expr} :
    (m.noteCapture x t).capture = none ↔
      m.capture = none ∧ ∀ p ∈ m.scope, t.hasFree p.2 = false := by
  rw [← capturer?_eq_none]
  unfold noteCapture
  cases hnoted : m.capture with
  | some c => simp [hnoted]
  | none =>
      cases m.capturer? t with
      | none => simp [hnoted]
      | some y => simp

/-- Meeting a demand looks at it for capture at its own place. -/
theorem meet_eq_noteCapture {x : String} {m m' : Match} {d : Demand}
    (h : m.meet (.substitution x) d = some m') :
    ∃ m₁ : Match, m₁.scope = d.scope ∧ m₁.capture = m.capture ∧
      m'.capture = (m₁.noteCapture d.name d.value).capture := by
  obtain ⟨m₂, h₂, rfl⟩ := Option.map_eq_some_iff.mp h
  obtain ⟨m₁, h₁, rfl⟩ := Option.map_eq_some_iff.mp h₂
  have hbound : (m.placed d.scope).bind .schema d.name d.value = some m₁ := h₁
  have hplace : m₁.scope = d.scope ∧ m₁.capture = m.capture := by
    obtain rfl | rfl := bind_schema_cases hbound <;> exact ⟨rfl, rfl⟩
  exact ⟨m₁, hplace.1, hplace.2, rfl⟩

/-- No capture is noted when there was none and the demand is not captured. -/
theorem meet_capture {x : String} {m m' : Match} {d : Demand}
    (h : m.meet (.substitution x) d = some m') :
    m'.capture = none ↔ m.capture = none ∧ ∀ p ∈ d.scope, d.value.hasFree p.2 = false := by
  obtain ⟨m₁, hscope, hcapture, heq⟩ := meet_eq_noteCapture h
  rw [heq, noteCapture_capture, hscope, hcapture]

/-- A capture that is noted at a demand is of what is demanded, by a binder that is free in it. -/
theorem captured_of_meet {x : String} {m m' : Match} {d : Demand}
    (h : m.meet (.substitution x) d = some m') {c : Capture} (hc : m'.capture = some c) :
    m.capture = some c ∨ c.term = d.value ∧ d.value.hasFree c.binder = true := by
  obtain ⟨m₁, -, hcapture, heq⟩ := meet_eq_noteCapture h
  rw [heq] at hc
  rw [← hcapture]
  simp only [noteCapture] at hc
  split at hc
  · rename_i binder _ hbinder
    cases hc
    exact .inr ⟨rfl, hasFree_of_capturer? hbinder⟩
  · exact .inl hc

/-- A capture that is noted stays noted. -/
theorem meet_keeps_capture {mode : MatchMode} {m m' : Match} {d : Demand}
    (h : m.meet mode d = some m') {c : Capture} (hc : m.capture = some c) :
    m'.capture = some c := by
  cases mode with
  | schema => rw [meet_schema_capture h, hc]
  | substitution x =>
      obtain ⟨m₁, -, hcapture, heq⟩ := meet_eq_noteCapture h
      rw [heq, noteCapture, hcapture, hc]
      exact hcapture.trans hc

theorem meetAll_keeps_capture {mode : MatchMode} {m m' : Match} {ds : List Demand}
    (h : m.meetAll mode ds = some m') {c : Capture} (hc : m.capture = some c) :
    m'.capture = some c := by
  induction ds generalizing m with
  | nil =>
      cases h
      exact hc
  | cons d ds ih =>
      obtain ⟨m₁, h₁, h₂⟩ := Option.bind_eq_some_iff.mp h
      exact ih h₂ (meet_keeps_capture h₁ hc)

/-- A match notes no capture when no demand is captured at its place. -/
theorem meetAll_capture {x : String} {m m' : Match} {ds : List Demand}
    (h : m.meetAll (.substitution x) ds = some m') :
    m'.capture = none ↔
      m.capture = none ∧ ∀ d ∈ ds, ∀ p ∈ d.scope, d.value.hasFree p.2 = false := by
  induction ds generalizing m with
  | nil =>
      cases h
      exact (and_iff_left fun d hd => nomatch hd).symm
  | cons d ds ih =>
      obtain ⟨m₁, h₁, h₂⟩ := Option.bind_eq_some_iff.mp h
      rw [ih h₂, meet_capture h₁, List.forall_mem_cons, and_assoc]

/-- What a match reports as captured is what some demand is for, and the binder it reports is free
    in that. -/
theorem captured_of_meetAll {x : String} {m m' : Match} {ds : List Demand}
    (h : m.meetAll (.substitution x) ds = some m') {c : Capture} (hc : m'.capture = some c) :
    m.capture = some c ∨ ∃ d ∈ ds, c.term = d.value ∧ d.value.hasFree c.binder = true := by
  induction ds generalizing m with
  | nil =>
      cases h
      exact .inl hc
  | cons d ds ih =>
      obtain ⟨m₁, h₁, h₂⟩ := Option.bind_eq_some_iff.mp h
      rcases ih h₂ with hnoted | ⟨d', hd', hcaptured⟩
      · rcases captured_of_meet h₁ hnoted with hbefore | hcaptured
        · exact .inl hbefore
        · exact .inr ⟨d, List.mem_cons_self, hcaptured⟩
      · exact .inr ⟨d', List.mem_cons_of_mem d hd', hcaptured⟩

end Match

end PeanoCalculus
