import PeanoCalculus.Proofs.Matching.Meeting

/-! # Matching step after step

    Several matches may be threaded through one state, each in a mode of its own.  What a step
    demands is read off its two trees.  The state only records the demands, so a run of steps is
    determined by what is demanded in it, no matter in which order:

    * it goes through when the shapes agree in each step and no two demands of one name differ
      (`exists_advanceAll_iff`);
    * a name is then bound to what is demanded of it (`find?_advanceAll`);
    * a capture is noted when some substitution among the steps has one (`capture_advanceAll`);
    * what the candidates hand down to their parts, all that is bound has (`HandedDown.binding`).

    All of them speak of the steps as members of the list.  That demands with the same text are for the
    same tree needs well-formed candidates: the first of them is the one that is bound. -/

namespace PeanoCalculus

/-- A schema to be matched against a candidate. -/
structure MatchStep where
  mode : MatchMode
  schema : Expr
  candidate : Expr

namespace MatchStep

/-- What a step demands, or nothing if the shapes differ. -/
def demanded (step : MatchStep) : Option (List Demand) :=
  demands step.mode step.schema step.candidate []

/-- The step notes no capture: it is no substitution, or each term it puts in stays free there. -/
def Uncaptured (step : MatchStep) : Prop :=
  step.mode ≠ .schema → ∀ d ∈ step.demanded.getD [], ∀ p ∈ d.scope, d.value.hasFree p.2 = false

/-- The candidate is a formula or a term that a text can denote. -/
def WellFormed (step : MatchStep) : Prop :=
  step.candidate.IsFormula ∨ step.candidate.IsTerm

end MatchStep

/-- All that is demanded in some steps. -/
def allDemanded (steps : List MatchStep) : List Demand :=
  steps.flatMap (·.demanded.getD [])

namespace Match

/-- Go on from a state by a step. -/
def advance (m : Match) (step : MatchStep) : Option Match :=
  m.extend step.mode step.schema step.candidate

/-- Go on by one step after the other, until one fails. -/
def advanceAll (m : Match) (steps : List MatchStep) : Option Match :=
  steps.foldlM advance m

/-! ## One step -/

/-- At the top, a step meets what it demands. -/
theorem advance_eq {m : Match} (hm : m.scope = []) (step : MatchStep) :
    m.advance step = step.demanded.bind (m.meetAll step.mode) := by
  unfold advance MatchStep.demanded
  rw [extend_eq_demands, hm]

theorem advance_eq_some {m m' : Match} (hm : m.scope = []) {step : MatchStep}
    (h : m.advance step = some m') :
    ∃ ds, step.demanded = some ds ∧ m.meetAll step.mode ds = some m' ∧ m'.scope = [] := by
  rw [advance_eq hm] at h
  obtain ⟨ds, hds, hmeet⟩ := Option.bind_eq_some_iff.mp h
  exact ⟨ds, hds, hmeet, (meetAll_scope hmeet).trans hm⟩

/-- A step adds to the state and takes nothing away, wherever it starts. -/
theorem advance_extends {m m' : Match} {step : MatchStep} (h : m.advance step = some m') :
    (∀ x e, m.bindings.find? x = some e → m'.bindings.find? x = some e) ∧
      (∀ c, m.capture = some c → m'.capture = some c) ∧ m'.scope = m.scope := by
  unfold advance at h
  rw [extend_eq_demands] at h
  obtain ⟨ds, -, hmeet⟩ := Option.bind_eq_some_iff.mp h
  refine ⟨?_, ?_, meetAll_scope hmeet⟩
  · intro x e hx
    exact (meets_of_meetAll hmeet).keeps hx
  · intro c hc
    exact meetAll_keeps_capture hmeet hc

theorem advance_capture {m m' : Match} (hm : m.scope = []) {step : MatchStep}
    (h : m.advance step = some m') :
    m'.capture = none ↔ m.capture = none ∧ step.Uncaptured := by
  obtain ⟨ds, hds, hmeet, -⟩ := advance_eq_some hm h
  unfold MatchStep.Uncaptured
  rw [hds, Option.getD_some]
  cases hmode : step.mode with
  | schema =>
      rw [hmode] at hmeet
      rw [meetAll_schema_capture hmeet]
      exact (and_iff_left fun hne => absurd rfl hne).symm
  | substitution x =>
      rw [hmode] at hmeet
      rw [meetAll_capture hmeet]
      exact and_congr_right fun _ => ⟨fun h _ => h, fun h => h nofun⟩

/-! ## All steps -/

theorem advanceAll_cons (m : Match) (step : MatchStep) (steps : List MatchStep) :
    m.advanceAll (step :: steps) = (m.advance step).bind (·.advanceAll steps) := rfl

/-- When all steps succeed the shapes agree in each of them. -/
theorem demanded_of_advanceAll {m m' : Match} (hm : m.scope = []) {steps : List MatchStep}
    (h : m.advanceAll steps = some m') : ∀ step ∈ steps, ∃ ds, step.demanded = some ds := by
  induction steps generalizing m with
  | nil => exact List.forall_mem_nil _
  | cons step steps ih =>
      obtain ⟨m₁, h₁, h₂⟩ := Option.bind_eq_some_iff.mp h
      obtain ⟨ds, hds, -, hscope⟩ := advance_eq_some hm h₁
      exact List.forall_mem_cons.mpr ⟨⟨ds, hds⟩, ih hscope h₂⟩

/-- As far as the bindings go, a run of steps is a run through all its demands. -/
theorem advanceAll_bindings {m : Match} (hm : m.scope = []) {steps : List MatchStep}
    (hsteps : ∀ step ∈ steps, ∃ ds, step.demanded = some ds) :
    (m.advanceAll steps).map (·.bindings) =
      (allDemanded steps).foldlM Bindings.accept m.bindings := by
  induction steps generalizing m with
  | nil => rfl
  | cons step steps ih =>
      obtain ⟨⟨ds, hds⟩, hrest⟩ := List.forall_mem_cons.mp hsteps
      have hall : allDemanded (step :: steps) = ds ++ allDemanded steps := by
        unfold allDemanded
        rw [List.flatMap_cons, hds, Option.getD_some]
      rw [hall, List.foldlM_append, ← meetAll_bindings step.mode, advanceAll_cons, advance_eq hm,
        hds, Option.bind_some]
      cases hmeet : m.meetAll step.mode ds with
      | none => rfl
      | some m₁ => exact ih ((meetAll_scope hmeet).trans hm) hrest

/-- What a run of steps binds. -/
theorem meets_advanceAll {m m' : Match} (hm : m.scope = []) {steps : List MatchStep}
    (h : m.advanceAll steps = some m') : m.bindings.Meets (allDemanded steps) m'.bindings := by
  refine Bindings.meets_of_acceptAll ?_
  rw [← advanceAll_bindings hm (demanded_of_advanceAll hm h), h]
  rfl

/-- **WHEN ALL STEPS SUCCEED**: the shapes agree in each, and the texts demanded depend on the
    name alone. -/
theorem exists_advanceAll_iff {steps : List MatchStep} :
    (∃ m, ({} : Match).advanceAll steps = some m) ↔
      (∀ step ∈ steps, ∃ ds, step.demanded = some ds) ∧
        ∃ texts : String → String, ∀ d ∈ allDemanded steps, d.value.text = texts d.name := by
  constructor
  · rintro ⟨m, hm⟩
    refine ⟨demanded_of_advanceAll rfl hm, fun x => ((m.bindings.find? x).map Expr.text).getD "", ?_⟩
    intro d hd
    obtain ⟨e, hfind, htext⟩ := (meets_advanceAll rfl hm).meets d hd
    show _ = ((m.bindings.find? d.name).map Expr.text).getD ""
    rw [hfind]
    exact htext.symm
  · rintro ⟨hsteps, texts, htexts⟩
    have hempty : ∀ x e, ({} : Bindings).find? x = some e → e.text = texts x := nofun
    obtain ⟨b, hb⟩ := Bindings.acceptAll_of_texts hempty htexts
    rw [← advanceAll_bindings (m := {}) rfl hsteps] at hb
    obtain ⟨m, hm, -⟩ := Option.map_eq_some_iff.mp hb
    exact ⟨m, hm⟩

/-- **WHETHER A CAPTURE IS NOTED**: in the state before, or in one of the steps. -/
theorem capture_advanceAll {m m' : Match} (hm : m.scope = []) {steps : List MatchStep}
    (h : m.advanceAll steps = some m') :
    m'.capture = none ↔ m.capture = none ∧ ∀ step ∈ steps, step.Uncaptured := by
  induction steps generalizing m with
  | nil =>
      cases h
      exact (and_iff_left (List.forall_mem_nil _)).symm
  | cons step steps ih =>
      obtain ⟨m₁, h₁, h₂⟩ := Option.bind_eq_some_iff.mp h
      have hscope := (advance_extends h₁).2.2.trans hm
      rw [ih hscope h₂, advance_capture hm h₁, List.forall_mem_cons, and_assoc]

end Match

/-! ## What the candidates hand down -/

/-- What is handed down holds of all that is demanded in some steps. -/
theorem HandedDown.allDemanded {Q : Expr → Prop} (hQ : HandedDown Q) {steps : List MatchStep}
    (h : ∀ step ∈ steps, Q step.candidate) : ∀ d ∈ allDemanded steps, Q d.value := by
  intro d hd
  obtain ⟨step, hstep, hd⟩ := List.mem_flatMap.mp hd
  cases hds : step.demanded with
  | none =>
      rw [hds] at hd
      exact absurd hd List.not_mem_nil
  | some ds =>
      have hall : AllDemands (fun _ => True) step.demanded := ⟨ds, hds, fun _ _ => trivial⟩
      have hvalues := hQ.demands (h step hstep) hall
      rw [← MatchStep.demanded, hds] at hvalues
      rw [hds] at hd
      exact hvalues.forall_mem d hd

/-- What is handed down holds of all that a run of steps binds. -/
theorem HandedDown.binding {Q : Expr → Prop} (hQ : HandedDown Q) {steps : List MatchStep}
    (h : ∀ step ∈ steps, Q step.candidate) {m : Match}
    (hrun : ({} : Match).advanceAll steps = some m) {x : String} {e : Expr}
    (hfind : m.bindings.find? x = some e) : Q e := by
  rcases (Match.meets_advanceAll rfl hrun).only hfind with hempty | ⟨d, hd, -, rfl⟩
  · cases hempty
  · exact hQ.allDemanded h d hd

/-- The tree demanded is a formula or a term. -/
def Demand.WellFormed (d : Demand) : Prop :=
  d.value.IsFormula ∨ d.value.IsTerm

/-- The parts of a well-formed tree are well-formed. -/
theorem wellFormed_parts {e : Expr} (h : e.IsFormula ∨ e.IsTerm) :
    ∀ p ∈ e.parts, p.IsFormula ∨ p.IsTerm := by
  rcases h with h | h
  · cases h with
    | equals hl hr =>
        exact List.forall_mem_cons.mpr ⟨.inr hl, List.forall_mem_singleton.mpr (.inr hr)⟩
    | apply _ hargs => exact fun a ha => .inr (hargs a ha)
    | quantified hx he =>
        exact List.forall_mem_cons.mpr ⟨.inr (.var hx), List.forall_mem_singleton.mpr (.inl he)⟩
    | negation he => exact List.forall_mem_singleton.mpr (.inl he)
    | and hl hr | or hl hr | implies hl hr =>
        exact List.forall_mem_cons.mpr ⟨.inl hl, List.forall_mem_singleton.mpr (.inl hr)⟩
  · cases h with
    | zero | var _ => exact List.forall_mem_nil _
    | apply _ _ hargs => exact fun a ha => .inr (hargs a ha)
    | successor _ _ he => exact List.forall_mem_singleton.mpr (.inr he)
    | times hl hr | plus hl hr =>
        exact List.forall_mem_cons.mpr ⟨.inr hl, List.forall_mem_singleton.mpr (.inr hr)⟩

theorem handedDown_wellFormed : HandedDown fun e => e.IsFormula ∨ e.IsTerm where
  part := fun he hp => wellFormed_parts he _ hp
  chain := by
    rintro n e (he | he) k
    · cases he
    · exact .inr (he.base.2.2.primed k)

/-- **WHAT A RUN OF STEPS BINDS**: each name that is demanded, to what is demanded of it. -/
theorem find?_advanceAll {steps : List MatchStep} (hsteps : ∀ step ∈ steps, step.WellFormed)
    {m : Match} (h : ({} : Match).advanceAll steps = some m) (x : String) (e : Expr) :
    m.bindings.find? x = some e ↔ ∃ d ∈ allDemanded steps, d.name = x ∧ d.value = e := by
  have hmeets : ({} : Bindings).Meets (allDemanded steps) m.bindings := Match.meets_advanceAll rfl h
  have hwell : ∀ d ∈ allDemanded steps, d.WellFormed := handedDown_wellFormed.allDemanded hsteps
  constructor
  · intro hfind
    exact (hmeets.only hfind).resolve_left nofun
  · rintro ⟨d, hd, rfl, rfl⟩
    refine hmeets.find?_of_texts ?_ d hd
    intro d₁ hd₁ d₂ hd₂ _ htext
    exact Grammar.eq_of_text_eq (hwell d₁ hd₁) (hwell d₂ hd₂) htext

/-! ## Any order -/

theorem mem_allDemanded_of_perm {steps steps' : List MatchStep} (h : steps.Perm steps')
    (d : Demand) :
    d ∈ allDemanded steps ↔ d ∈ allDemanded steps' :=
  (h.flatMap_right _).mem_iff

/-- **MATCHING STEPS COMMUTE**: over well-formed candidates, in whatever mix of modes, it does not
    depend on the order of the steps whether all of them succeed, what is bound in the end, and
    whether a capture is noted.  No step takes back a binding or a capture, or moves away from its
    place. -/
theorem matching_steps_commute {steps steps' : List MatchStep} (hperm : steps.Perm steps')
    (hsteps : ∀ step ∈ steps, step.WellFormed) :
    (({} : Match).advanceAll steps).isSome = (({} : Match).advanceAll steps').isSome ∧
    (∀ m m', ({} : Match).advanceAll steps = some m → ({} : Match).advanceAll steps' = some m' →
      (∀ x, m.bindings.find? x = m'.bindings.find? x) ∧
        m.capture.isSome = m'.capture.isSome) ∧
    ∀ (step : MatchStep) (m m' : Match), m.advance step = some m' →
      (∀ x e, m.bindings.find? x = some e → m'.bindings.find? x = some e) ∧
        (∀ c, m.capture = some c → m'.capture = some c) ∧ m'.scope = m.scope := by
  have hsteps' : ∀ step ∈ steps', step.WellFormed :=
    fun step hstep => hsteps step (hperm.mem_iff.mpr hstep)
  refine ⟨?_, ?_, fun step m m' => Match.advance_extends⟩
  · rw [Bool.eq_iff_iff, Option.isSome_iff_exists, Option.isSome_iff_exists,
      Match.exists_advanceAll_iff, Match.exists_advanceAll_iff]
    simp only [hperm.mem_iff, mem_allDemanded_of_perm hperm]
  · intro m m' hm hm'
    constructor
    · intro x
      ext e
      rw [find?_advanceAll hsteps hm, find?_advanceAll hsteps' hm']
      simp only [mem_allDemanded_of_perm hperm]
    · rw [Bool.eq_iff_iff, ← Decidable.not_iff_not, Option.not_isSome_iff_eq_none,
        Option.not_isSome_iff_eq_none, Match.capture_advanceAll rfl hm,
        Match.capture_advanceAll rfl hm']
      simp only [hperm.mem_iff]

/-- A binder of a schema and a variable replaced elsewhere have the same name and agree, and one of
    the substitutions is captured. -/
theorem matching_steps_commute_mixed :
    ∃ first second : List MatchStep,
      first = [⟨.schema, .all "x" (.letter "A"), .all "y" (.equals (.var "y") (.var "z"))⟩,
        ⟨.substitution "w", .ex "y" (.equals (.var "w") (.var "y")),
          .ex "y" (.equals (.successor 1 (.var "y")) (.var "y"))⟩] ∧
      second = [⟨.substitution "x", .equals (.var "x") .zero, .equals (.var "y") .zero⟩,
        ⟨.schema, .letter "A", .equals (.var "y") (.var "z")⟩] ∧
      (∀ step ∈ first ++ second, step.WellFormed) ∧
      ∃ m m', ({} : Match).advanceAll (first ++ second) = some m ∧
        ({} : Match).advanceAll (second ++ first) = some m' ∧
        m.bindings.find? "x" = some (.var "y") ∧
        m.bindings.find? "w" = some (.successor 1 (.var "y")) ∧ m.capture.isSome = true ∧
        (∀ x, m.bindings.find? x = m'.bindings.find? x) ∧
        m.capture.isSome = m'.capture.isSome := by
  have hy : (Expr.var "y").IsTerm := .var (by decide)
  have hyz : (Expr.equals (.var "y") (.var "z")).IsFormula := .equals hy (.var (by decide))
  have hbound : (Expr.all "y" (.equals (.var "y") (.var "z"))).IsFormula :=
    .quantified (by decide) hyz
  have hcaptured : (Expr.ex "y" (.equals (.successor 1 (.var "y")) (.var "y"))).IsFormula :=
    .quantified (by decide) (.equals (hy.primed 1) hy)
  obtain ⟨first, hfirst⟩ : ∃ first : List MatchStep, first =
      [⟨.schema, .all "x" (.letter "A"), .all "y" (.equals (.var "y") (.var "z"))⟩,
        ⟨.substitution "w", .ex "y" (.equals (.var "w") (.var "y")),
          .ex "y" (.equals (.successor 1 (.var "y")) (.var "y"))⟩] := ⟨_, rfl⟩
  obtain ⟨second, hsecond⟩ : ∃ second : List MatchStep, second =
      [⟨.substitution "x", .equals (.var "x") .zero, .equals (.var "y") .zero⟩,
        ⟨.schema, .letter "A", .equals (.var "y") (.var "z")⟩] := ⟨_, rfl⟩
  have hsteps : ∀ step ∈ first ++ second, step.WellFormed := by
    rw [hfirst, hsecond]
    simp only [List.cons_append, List.nil_append, List.forall_mem_cons]
    exact ⟨.inl hbound, .inl hcaptured, .inl (.equals hy .zero), .inl hyz, List.forall_mem_nil _⟩
  have hrun : (({} : Match).advanceAll (first ++ second)).any (fun m =>
      decide (m.bindings.find? "x" = some (.var "y") ∧
        m.bindings.find? "w" = some (.successor 1 (.var "y")) ∧ m.capture.isSome = true)) = true := by
    rw [hfirst, hsecond]
    decide +kernel
  obtain ⟨m, hm, htest⟩ := (Option.any_eq_true _ _).mp hrun
  obtain ⟨hx, hw, hcapture⟩ := of_decide_eq_true htest
  obtain ⟨hsome, hsame, -⟩ := matching_steps_commute List.perm_append_comm hsteps
  rw [hm] at hsome
  obtain ⟨m', hm'⟩ := Option.isSome_iff_exists.mp hsome.symm
  obtain ⟨hbindings, hcaptures⟩ := hsame m m' hm hm'
  exact ⟨first, second, hfirst, hsecond, hsteps, m, m', hm, hm', hx, hw, hcapture, hbindings,
    hcaptures⟩

end PeanoCalculus
