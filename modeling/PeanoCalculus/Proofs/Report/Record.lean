import PeanoCalculus.Proofs.Json.RoundTrip
import PeanoCalculus.Report.Record

/-! # Records are read back

    Every record of a report is written as a plain value, and from that value its reader gives the
    same record.  Together with the round trip of values this says that the text of a record, in
    either layout, is read as the record.

    What is absent in a record is left out when it is written, so a look-up has to be followed
    through a list with optional members: it finds what is there under its name and nothing else. -/

namespace PeanoCalculus

namespace Json

/-! ## Leaves and lists -/

theorem word?_ofNat {n : Nat} (h : n < UInt64.size) : (ofNat n).word? = some n := by
  show (some (Nat.ofDigitChars 10 (Nat.toDigits 10 n) 0)).filter (· < UInt64.size) = _
  rw [Nat.ofDigitChars_ten_toDigits]
  exact if_pos (decide_eq_true h)

/-- A list is read back when each of its items is. -/
theorem mapM_map_eq_some {α β : Type} {write : α → β} {read : β → Option α} {l : List α}
    (h : ∀ a ∈ l, read (write a) = some a) : (l.map write).mapM read = some l := by
  induction l with
  | nil => rfl
  | cons a l ih =>
      obtain ⟨ha, hl⟩ := List.forall_mem_cons.mp h
      rw [List.map_cons, List.mapM_cons, ha, ih hl]
      rfl

theorem fields?_record (members : List (String × Json)) :
    (record members).fields? = some members := by
  refine mapM_map_eq_some fun (name, value) _ => ?_
  show (unescape? (escape name.toList)).map _ = _
  rw [unescape?_escape, Option.map_some, String.ofList_toList]

theorem plain_record {room : Nat} {members : List (String × Json)}
    (h : ∀ m ∈ members, Plain room m.2) : Plain (room + 1) (record members) := by
  refine .object (List.forall_mem_map.mpr fun m _ => ⟨_, rfl⟩) ?_
  exact List.forall_mem_map.mpr h

/-- What a member that may be left out holds is plain if it is there. -/
theorem plain_optionalMember {α : Type} {room : Nat} {name : String} {o : Option α}
    {write : α → Json} (h : ∀ a ∈ o, Plain room (write a)) :
    ∀ m ∈ optionalMember name (o.map write), Plain room m.2 := by
  cases o with
  | none => exact List.forall_mem_nil _
  | some a => exact List.forall_mem_singleton.mpr (h a rfl)

/-! ## Looking up -/

/-- A member that may be left out is seen under its name only. -/
theorem filter_optionalMember (name name' : String) (value : Option Json) :
    (optionalMember name' value).filter (·.1 = name) =
      if name' = name then optionalMember name' value else [] := by
  cases value with
  | none => split <;> rfl
  | some v =>
      by_cases h : name' = name
      · rw [if_pos h]
        exact List.filter_cons_of_pos (decide_eq_true h)
      · rw [if_neg h]
        exact List.filter_cons_of_neg (by simpa using h)

/-- What is found under a name is what stands there. -/
theorem atMostOne?_eq {fields : List (String × Json)} {name : String} {value : Option Json}
    (h : fields.filter (·.1 = name) = optionalMember name value) :
    atMostOne? fields name = some value := by
  unfold atMostOne?
  rw [h]
  cases value <;> rfl

theorem required_eq {α : Type} {fields : List (String × Json)} {name : String} {v : Json}
    (h : fields.filter (·.1 = name) = [(name, v)]) (read : Json → Option α) :
    required fields name read = read v := by
  have hfound : atMostOne? fields name = some (some v) := atMostOne?_eq h
  unfold required
  rw [hfound]
  rfl

theorem nullable_eq {α : Type} {fields : List (String × Json)} {name : String} {o : Option α}
    {write : α → Json} {read : Json → Option α}
    (h : fields.filter (·.1 = name) = optionalMember name (o.map write))
    (hread : ∀ a ∈ o, read (write a) = some a) (hnull : ∀ a, write a ≠ .null) :
    nullable fields name read = some o := by
  unfold nullable
  rw [atMostOne?_eq h]
  cases o with
  | none => rfl
  | some a =>
      have hvalue := hread a rfl
      have hne := hnull a
      simp only [Option.map_some, Option.bind_eq_bind, Option.bind_some]
      cases hwrite : write a with
      | null => exact absurd hwrite hne
      | _ =>
          rw [hwrite] at hvalue
          exact congrArg (Option.map some) hvalue

/-- The variant of a tagged record is what its first member says. -/
theorem tagged?_record {outer : Nat} {tag variant : String} {members : List (String × Json)}
    (houter : outer < nestingLimit) (hnames : ∀ m ∈ members, m.1 ≠ tag)
    (hplain : ∀ m ∈ members, Plain (nestingLimit - outer - 1) m.2) :
    (record ((tag, ofString variant) :: members)).tagged? outer tag =
      some (variant, (tag, ofString variant) :: members) := by
  have hall : ∀ m ∈ (tag, ofString variant) :: members, Plain (nestingLimit - outer - 1) m.2 :=
    List.forall_mem_cons.mpr ⟨.text variant, hplain⟩
  have hsettled := (plain_record hall).isSettled
  rw [Nat.sub_add_cancel (Nat.sub_pos_of_lt houter)] at hsettled
  have hothers : members.filter (·.1 = tag) = [] :=
    List.filter_eq_nil_iff.mpr fun m hm => by simpa using hnames m hm
  have htag : ((tag, ofString variant) :: members).filter (·.1 = tag) =
      [(tag, ofString variant)] := by
    rw [List.filter_cons_of_pos (by simp), hothers]
  unfold tagged?
  rw [if_pos hsettled, fields?_record]
  show (required _ tag text?).bind _ = _
  rw [required_eq htag, text?_ofString]
  rfl

/-- A record is read back from the text of a plain value that its reader takes for it. -/
theorem Plain.read_render {α : Type} {room : Nat} {v : Json} (h : Plain room v)
    {read : Json → Option α} {a : α} (hread : read v = some a) (layout : Layout) :
    (parse? (v.render layout)).bind read = some a := by
  rw [h.parse?_render layout]
  exact hread

end Json

/-! ## Justifications -/

/-- A premise is read back from behind the name of its rule. -/
theorem Premise.ofFields?_members {p : Premise} (h : p.index < UInt64.size) (rule : Json) :
    ofFields? (("rule", rule) :: p.members) = some p := by
  cases p with
  | line i =>
      show ((Json.ofNat (line i).index).word?).bind _ = _
      rw [Json.word?_ofNat h]
      rfl
  | hypothesis i =>
      show ((Json.ofNat (hypothesis i).index).word?).bind _ = _
      rw [Json.word?_ofNat h]
      rfl

namespace Justification

/-- The counts in a justification. -/
def counts : Justification → List Nat
  | .logic n | .arithmetic n | .hypothesis n => [n]
  | .modusPonens i j => [i, j]
  | .generalization _ p => [p.index]

/-- The rule that the record of a justification names. -/
def tag : Justification → String
  | .logic _ => "axiom"
  | .arithmetic _ => "arithmetic"
  | .modusPonens .. => "modus_ponens"
  | .hypothesis _ => "hypothesis"
  | .generalization .universal _ => "for_all_rule"
  | .generalization .existential _ => "exists_rule"

/-- The other members of its record. -/
def members : Justification → List (String × Json)
  | .logic n | .arithmetic n => [("schema", .ofNat n)]
  | .modusPonens i j => [("antecedent", .ofNat i), ("implication", .ofNat j)]
  | .hypothesis i => [("index", .ofNat i)]
  | .generalization _ p => p.members

theorem toJson_eq (j : Justification) :
    j.toJson = .record (("rule", .ofString j.tag) :: j.members) := by
  cases j with
  | generalization q p => cases q <;> rfl
  | _ => rfl

variable {j : Justification}

theorem plain_members (h : ∀ n ∈ j.counts, n < UInt64.size) (room : Nat) :
    ∀ m ∈ j.members, Json.Plain room m.2 := by
  have hword : ∀ {n : Nat} {name : String}, n ∈ j.counts →
      ∀ m ∈ [(name, Json.ofNat n)], Json.Plain room m.2 :=
    fun hn => List.forall_mem_singleton.mpr (.word (h _ hn))
  cases j with
  | modusPonens i k =>
      refine List.forall_mem_cons.mpr ⟨.word (h i List.mem_cons_self), ?_⟩
      exact hword (List.mem_cons_of_mem _ List.mem_cons_self)
  | generalization q p =>
      refine List.forall_mem_cons.mpr ⟨.word (h _ List.mem_cons_self), ?_⟩
      cases p with
      | line i => exact List.forall_mem_nil _
      | hypothesis i => exact List.forall_mem_singleton.mpr (.bool true)
  | _ => exact hword List.mem_cons_self

theorem plain_toJson (h : ∀ n ∈ j.counts, n < UInt64.size) (room : Nat) :
    Json.Plain (room + 1) j.toJson := by
  rw [toJson_eq]
  exact Json.plain_record (List.forall_mem_cons.mpr ⟨.text j.tag, plain_members h room⟩)

theorem name_ne_rule (j : Justification) : ∀ m ∈ j.members, m.1 ≠ "rule" := by
  cases j with
  | generalization q p => cases p <;> simp [members, Premise.members, Premise.isHypothesis]
  | _ => simp [members]

theorem tagged?_toJson (h : ∀ n ∈ j.counts, n < UInt64.size) {outer : Nat}
    (houter : outer < Json.nestingLimit) :
    j.toJson.tagged? outer "rule" = some (j.tag, ("rule", .ofString j.tag) :: j.members) := by
  rw [toJson_eq]
  exact Json.tagged?_record houter (name_ne_rule j) (plain_members h _)

theorem ofJson?_toJson (h : ∀ n ∈ j.counts, n < UInt64.size) {outer : Nat}
    (houter : outer < Json.nestingLimit) : ofJson? outer j.toJson = some j := by
  have hword : ∀ n ∈ j.counts, (Json.ofNat n).word? = some n :=
    fun n hn => Json.word?_ofNat (h n hn)
  unfold ofJson?
  rw [tagged?_toJson h houter]
  cases j with
  | logic n => exact congrArg (Option.map logic) (hword n List.mem_cons_self)
  | arithmetic n => exact congrArg (Option.map arithmetic) (hword n List.mem_cons_self)
  | modusPonens i k =>
      show ((Json.ofNat i).word?).bind _ = _
      rw [hword i List.mem_cons_self]
      show ((Json.ofNat k).word?).bind _ = _
      rw [hword k (List.mem_cons_of_mem _ List.mem_cons_self)]
      rfl
  | hypothesis n => exact congrArg (Option.map hypothesis) (hword n List.mem_cons_self)
  | generalization q p =>
      have hp := Premise.ofFields?_members (h p.index List.mem_cons_self)
      cases q with
      | universal => exact congrArg (Option.map (generalization .universal)) (hp _)
      | existential => exact congrArg (Option.map (generalization .existential)) (hp _)

end Justification

/-! ## Checked lines and documents -/

namespace LineRecord

/-- The counts in the record of a line. -/
def counts (r : LineRecord) : List Nat :=
  r.number :: r.justification.elim [] (·.counts)

/-- The members of the record of a line. -/
def members (r : LineRecord) : List (String × Json) :=
  [("number", .ofNat r.number), ("formula", .ofString r.formula)] ++
    Json.optionalMember "justification" (r.justification.map (·.toJson)) ++
    [("label", .ofString r.label)] ++
    Json.optionalMember "error" (r.error.map .ofString)

variable {r : LineRecord}

/-- The counts of a justification are among those of its line. -/
theorem counts_justification (h : ∀ n ∈ r.counts, n < UInt64.size) :
    ∀ j ∈ r.justification, ∀ n ∈ j.counts, n < UInt64.size := by
  intro j hj n hn
  refine h n (List.mem_cons_of_mem _ ?_)
  rw [Option.mem_def.mp hj]
  exact hn

theorem plain_toJson (h : ∀ n ∈ r.counts, n < UInt64.size) (room : Nat) :
    Json.Plain (room + 2) r.toJson := by
  have hjustification : ∀ j ∈ r.justification, Json.Plain (room + 1) j.toJson :=
    fun j hj => Justification.plain_toJson (counts_justification h j hj) room
  have herror : ∀ text ∈ r.error, Json.Plain (room + 1) (.ofString text) := fun text _ => .text text
  refine Json.plain_record (List.forall_mem_append.mpr ⟨List.forall_mem_append.mpr
    ⟨List.forall_mem_append.mpr ⟨?_, Json.plain_optionalMember hjustification⟩, ?_⟩,
    Json.plain_optionalMember herror⟩)
  · exact List.forall_mem_cons.mpr
      ⟨.word (h _ List.mem_cons_self), List.forall_mem_singleton.mpr (.text r.formula)⟩
  · exact List.forall_mem_singleton.mpr (.text r.label)

theorem ofJson?_toJson (h : ∀ n ∈ r.counts, n < UInt64.size) {outer : Nat}
    (houter : outer + 1 < Json.nestingLimit) : ofJson? outer r.toJson = some r := by
  have hfields : r.toJson.fields? = some r.members := Json.fields?_record r.members
  have hnumber : Json.required r.members "number" Json.word? = some r.number := by
    rw [Json.required_eq (v := .ofNat r.number) (by simp [members, Json.filter_optionalMember])]
    exact Json.word?_ofNat (h _ List.mem_cons_self)
  have hformula : Json.required r.members "formula" Json.text? = some r.formula := by
    rw [Json.required_eq (v := .ofString r.formula)
      (by simp [members, Json.filter_optionalMember])]
    exact Json.text?_ofString r.formula
  have hjustification :
      Json.nullable r.members "justification" (Justification.ofJson? (outer + 1)) =
        some r.justification := by
    have hfound : r.members.filter (·.1 = "justification") =
        Json.optionalMember "justification" (r.justification.map (·.toJson)) := by
      simp [members, Json.filter_optionalMember]
    refine Json.nullable_eq hfound (fun j hj => ?_) fun j hj => ?_
    · exact Justification.ofJson?_toJson (counts_justification h j hj) houter
    · rw [Justification.toJson_eq] at hj
      cases hj
  have hlabel : Json.required r.members "label" Json.text? = some r.label := by
    rw [Json.required_eq (v := .ofString r.label) (by simp [members, Json.filter_optionalMember])]
    exact Json.text?_ofString r.label
  have herror : Json.nullable r.members "error" Json.text? = some r.error := by
    have hfound : r.members.filter (·.1 = "error") =
        Json.optionalMember "error" (r.error.map .ofString) := by
      simp [members, Json.filter_optionalMember]
    refine Json.nullable_eq hfound (fun text _ => Json.text?_ofString text) fun text htext => ?_
    cases htext
  simp only [ofJson?, hfields, hnumber, hformula, hjustification, hlabel, herror,
    Option.bind_eq_bind, Option.bind_some]

end LineRecord

namespace CheckRecord

/-- The counts in the record of a checked document. -/
def counts (r : CheckRecord) : List Nat :=
  r.failures :: r.lines.flatMap (·.counts)

/-- The members of the record of a checked document. -/
def members (r : CheckRecord) : List (String × Json) :=
  [("header", .ofString r.header), ("goal", .ofString r.goal),
    ("lines", .array (r.lines.map (·.toJson))), ("failures", .ofNat r.failures),
    ("goal_reached", .bool r.goalReached)]

variable {r : CheckRecord}

/-- The counts of a line are among those of its document. -/
theorem counts_line (h : ∀ n ∈ r.counts, n < UInt64.size) :
    ∀ line ∈ r.lines, ∀ n ∈ line.counts, n < UInt64.size :=
  fun line hline n hn => h n (List.mem_cons_of_mem _ (List.mem_flatMap.mpr ⟨line, hline, hn⟩))

theorem plain_toJson (h : ∀ n ∈ r.counts, n < UInt64.size) (room : Nat) :
    Json.Plain (room + 4) r.toJson := by
  have hlines : Json.Plain (room + 3) (.array (r.lines.map (·.toJson))) :=
    .array (List.forall_mem_map.mpr fun line hline =>
      LineRecord.plain_toJson (counts_line h line hline) room)
  refine Json.plain_record (List.forall_mem_cons.mpr ⟨.text r.header, ?_⟩)
  refine List.forall_mem_cons.mpr ⟨.text r.goal, List.forall_mem_cons.mpr ⟨hlines, ?_⟩⟩
  exact List.forall_mem_cons.mpr
    ⟨.word (h _ List.mem_cons_self), List.forall_mem_singleton.mpr (.bool r.goalReached)⟩

theorem ofJson?_toJson (h : ∀ n ∈ r.counts, n < UInt64.size) : ofJson? r.toJson = some r := by
  have hfields : r.toJson.fields? = some r.members := Json.fields?_record r.members
  have hheader : Json.required r.members "header" Json.text? = some r.header :=
    Json.text?_ofString r.header
  have hgoal : Json.required r.members "goal" Json.text? = some r.goal :=
    Json.text?_ofString r.goal
  have hlines : Json.required r.members "lines" (Json.list? (LineRecord.ofJson? 2)) =
      some r.lines := by
    show (r.lines.map (·.toJson)).mapM (LineRecord.ofJson? 2) = _
    exact Json.mapM_map_eq_some fun line hline =>
      LineRecord.ofJson?_toJson (counts_line h line hline) (by decide)
  have hfailures : Json.required r.members "failures" Json.word? = some r.failures :=
    Json.word?_ofNat (h _ List.mem_cons_self)
  have hreached : Json.required r.members "goal_reached" Json.bool? = some r.goalReached := rfl
  simp only [ofJson?, hfields, hheader, hgoal, hlines, hfailures, hreached, Option.bind_eq_bind,
    Option.bind_some]

end CheckRecord

/-! ## Discharges -/

namespace DischargeRecord

/-- The counts in the record of a discharge. -/
def counts : DischargeRecord → List Nat
  | .complete .. => []
  | .incorrect line _ => [line]

/-- The result that the record of a discharge names. -/
def tag : DischargeRecord → String
  | .complete .. => "Complete"
  | .incorrect .. => "Incorrect"

/-- The other members of its record. -/
def members : DischargeRecord → List (String × Json)
  | .complete header lines goalReached =>
    [("header", .ofString header), ("lines", .array (lines.map .ofString)),
      ("goal_reached", .bool goalReached)]
  | .incorrect line reason => [("line", .ofNat line), ("reason", .ofString reason)]

theorem toJson_eq (r : DischargeRecord) :
    r.toJson = .record (("result", .ofString r.tag) :: r.members) := by
  cases r <;> rfl

variable {r : DischargeRecord}

theorem plain_members (h : ∀ n ∈ r.counts, n < UInt64.size) (room : Nat) :
    ∀ m ∈ r.members, Json.Plain (room + 1) m.2 := by
  cases r with
  | complete header lines goalReached =>
      have hlines : Json.Plain (room + 1) (.array (lines.map .ofString)) :=
        .array (List.forall_mem_map.mpr fun line _ => .text line)
      exact List.forall_mem_cons.mpr ⟨.text header, List.forall_mem_cons.mpr
        ⟨hlines, List.forall_mem_singleton.mpr (.bool goalReached)⟩⟩
  | incorrect line reason =>
      exact List.forall_mem_cons.mpr
        ⟨.word (h line List.mem_cons_self), List.forall_mem_singleton.mpr (.text reason)⟩

theorem plain_toJson (h : ∀ n ∈ r.counts, n < UInt64.size) (room : Nat) :
    Json.Plain (room + 2) r.toJson := by
  rw [toJson_eq]
  exact Json.plain_record (List.forall_mem_cons.mpr ⟨.text r.tag, plain_members h room⟩)

theorem name_ne_result (r : DischargeRecord) : ∀ m ∈ r.members, m.1 ≠ "result" := by
  cases r <;> simp [members]

theorem tagged?_toJson (h : ∀ n ∈ r.counts, n < UInt64.size) :
    r.toJson.tagged? 0 "result" = some (r.tag, ("result", .ofString r.tag) :: r.members) := by
  rw [toJson_eq]
  exact Json.tagged?_record (by decide) (name_ne_result r) (plain_members h _)

theorem ofJson?_toJson (h : ∀ n ∈ r.counts, n < UInt64.size) : ofJson? r.toJson = some r := by
  unfold ofJson?
  rw [tagged?_toJson h]
  cases r with
  | complete header lines goalReached =>
      show ((Json.ofString header).text?).bind _ = _
      rw [Json.text?_ofString]
      show ((lines.map .ofString).mapM Json.text?).bind _ = _
      rw [Json.mapM_map_eq_some fun line _ => Json.text?_ofString line]
      rfl
  | incorrect line reason =>
      show ((Json.ofNat line).word?).bind _ = _
      rw [Json.word?_ofNat (h line List.mem_cons_self)]
      show ((Json.ofString reason).text?).bind _ = _
      rw [Json.text?_ofString]
      rfl

end DischargeRecord

/-! ## Texts of records -/

/-- **RECORDS ARE READ BACK** from their texts in either layout, whatever characters they hold, as
    long as their counts are words of 64 bits. -/
theorem records_read_back (layout : Layout) :
    (∀ r : CheckRecord, (∀ n ∈ r.counts, n < UInt64.size) →
      (Json.parse? (r.toJson.render layout)).bind CheckRecord.ofJson? = some r) ∧
    (∀ r : DischargeRecord, (∀ n ∈ r.counts, n < UInt64.size) →
      (Json.parse? (r.toJson.render layout)).bind DischargeRecord.ofJson? = some r) ∧
    (∀ r : LineRecord, (∀ n ∈ r.counts, n < UInt64.size) →
      (Json.parse? (r.toJson.render layout)).bind (LineRecord.ofJson? 0) = some r) ∧
    ∀ j : Justification, (∀ n ∈ j.counts, n < UInt64.size) →
      (Json.parse? (j.toJson.render layout)).bind (Justification.ofJson? 0) = some j := by
  refine ⟨fun r h => ?_, fun r h => ?_, fun r h => ?_, fun j h => ?_⟩
  · exact (CheckRecord.plain_toJson h 0).read_render (CheckRecord.ofJson?_toJson h) layout
  · exact (DischargeRecord.plain_toJson h 0).read_render (DischargeRecord.ofJson?_toJson h) layout
  · exact (LineRecord.plain_toJson h 0).read_render
      (LineRecord.ofJson?_toJson h (by decide)) layout
  · exact (Justification.plain_toJson h 0).read_render
      (Justification.ofJson?_toJson h (by decide)) layout

/-- A document whose lines hold quotation marks, control characters and characters beyond the
    first plane, one with a premise that is a hypothesis and one with the largest number; and the
    text of such a justification. -/
theorem records_read_back_escaped :
    (Json.parse? ((⟨"P(x)\t|- \"@xP(x)\\\"", "@xP(x)",
        [⟨1, "@xP(x)\x01", some (.generalization .universal (.hypothesis 0)), "\x7f𝔸", none⟩,
          ⟨18446744073709551615, "\r\n", none, "", some "¬\x1f"⟩], 1, false⟩ :
          CheckRecord).toJson.render .pretty)).bind CheckRecord.ofJson? =
      some ⟨"P(x)\t|- \"@xP(x)\\\"", "@xP(x)",
        [⟨1, "@xP(x)\x01", some (.generalization .universal (.hypothesis 0)), "\x7f𝔸", none⟩,
          ⟨18446744073709551615, "\r\n", none, "", some "¬\x1f"⟩], 1, false⟩ ∧
    (Justification.generalization .universal (.hypothesis 0)).toJson.render .compact =
      "\x7b\"rule\":\"for_all_rule\",\"premise\":0,\"from_hypothesis\":true\x7d" ∧
    (Json.parse? ((Justification.generalization .universal (.hypothesis 0)).toJson.render
      .compact)).bind (Justification.ofJson? 0) =
        some (.generalization .universal (.hypothesis 0)) :=
  ⟨(records_read_back .pretty).1 _ (by decide), by decide +kernel,
    (records_read_back .compact).2.2.2 _ (by decide)⟩

end PeanoCalculus
