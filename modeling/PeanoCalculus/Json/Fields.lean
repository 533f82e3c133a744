import PeanoCalculus.Json.Text
import PeanoCalculus.Json.Number

/-! # Reading records

    A record is an object with members of known names, in any order.  A known name may not occur
    twice; members of other names are passed over, whatever they hold.  Only objects are taken: the
    values of a record as an array, in the order of its members, are a form that other readers of
    records accept and these do not.

    A *tagged* record names its variant in one of its members, and that member may come last.  The
    whole record is therefore taken in before its variant is known: every literal in it has to
    denote something, and containers may only be nested so deep. -/

namespace PeanoCalculus.Json

/-- The members of an object by the texts of their names.  No other value has any. -/
def fields? : Json → Option (List (String × Json))
  | .object members =>
    members.mapM fun (name, value) => (unescape? name).map fun n => (String.ofList n, value)
  | _ => none

/-- The value of a name that may be missing.  Nothing if the name occurs twice. -/
def atMostOne? (fields : List (String × Json)) (name : String) : Option (Option Json) :=
  match fields.filter (·.1 = name) with
  | [] => some none
  | [field] => some (some field.2)
  | _ => none

/-- Read the member with a name that has to be there. -/
def required {α : Type} (fields : List (String × Json)) (name : String) (read : Json → Option α) :
    Option α := do
  match ← atMostOne? fields name with
  | some value => read value
  | none => none

/-- Read the member with a name that may be missing, or null. -/
def nullable {α : Type} (fields : List (String × Json)) (name : String) (read : Json → Option α) :
    Option (Option α) := do
  match ← atMostOne? fields name with
  | none | some .null => some none
  | some value => (read value).map some

/-- Read the member with a name that may be missing. -/
def defaulted {α : Type} (fields : List (String × Json)) (name : String) (default : α)
    (read : Json → Option α) : Option α := do
  match ← atMostOne? fields name with
  | none => some default
  | some value => read value

/-- A truth value. -/
def bool? : Json → Option Bool
  | .bool b => some b
  | _ => none

/-- The items of an array, each read in the same way. -/
def list? {α : Type} (read : Json → Option α) : Json → Option (List α)
  | .array items => items.mapM read
  | _ => none

/-! ## Taking in a whole value -/

/-- How deep containers may be nested in what is taken in. -/
def nestingLimit : Nat :=
  127

mutual

/-- Every literal denotes something, and at most `room` containers lie inside each other. -/
def isSettled (room : Nat) : Json → Bool
  | .null | .bool _ => true
  | .number n => n.isFinite
  | .string literal => (unescape? literal).isSome
  | .array items => 0 < room && areSettled (room - 1) items
  | .object members => 0 < room && membersAreSettled (room - 1) members

/-- The same for the items of an array. -/
def areSettled (room : Nat) : List Json → Bool
  | [] => true
  | item :: items => isSettled room item && areSettled room items

/-- The same for the members of an object. -/
def membersAreSettled (room : Nat) : List (List Char × Json) → Bool
  | [] => true
  | m :: members => memberIsSettled room m && membersAreSettled room members

/-- The same for one member and its name. -/
def memberIsSettled (room : Nat) : List Char × Json → Bool
  | (name, value) => (unescape? name).isSome && isSettled room value

end

/-- The tag and the members of a tagged record that lies inside `outer` containers. -/
def tagged? (outer : Nat) (tag : String) (value : Json) :
    Option (String × List (String × Json)) := do
  if value.isSettled (nestingLimit - outer) then
    let fields ← value.fields?
    let variant ← required fields tag text?
    some (variant, fields)
  else none

end PeanoCalculus.Json
