import PeanoCalculus.Run

/-! # Arguments of the command

        [INPUT [OUTPUT [MODE]]] [--templates DIR] [--format FORMAT]

    Options may stand anywhere, each at most once, with their value after an equals sign or as the
    next argument; after `--` nothing is an option.  An argument that begins with a minus sign is an
    option unless it is just that sign.  Paths may not be empty. -/

namespace PeanoCalculus

/-- A call of the command. -/
structure Invocation where
  input : String
  output : String
  mode : Mode
  format : Format
  /-- The directory to read templates from. -/
  templates : Option String
  deriving DecidableEq

/-- The arguments given so far. -/
structure Draft where
  input : Option String := none
  output : Option String := none
  mode : Option Mode := none
  format : Option Format := none
  templates : Option String := none

namespace Draft

/-- Take the next argument that is no option. -/
def positional (d : Draft) (value : String) : Option Draft :=
  if value.isEmpty then none
  else if d.input.isNone then some { d with input := value }
  else if d.output.isNone then some { d with output := value }
  else if d.mode.isNone then (Mode.ofName? value).map fun mode => { d with mode := mode }
  else none

/-- Take an option with its value. -/
def option (d : Draft) (name value : String) : Option Draft :=
  match name with
  | "templates" =>
    if d.templates.isNone ∧ !value.isEmpty then some { d with templates := value } else none
  | "format" =>
    if d.format.isNone then (Format.ofName? value).map fun format => { d with format := format }
    else none
  | _ => none

/-- The call, with what is not given filled in. -/
def complete (d : Draft) : Invocation where
  input := d.input.getD "task2.in"
  output := d.output.getD "task2.out"
  mode := d.mode.getD .check
  format := d.format.getD .text
  templates := d.templates

end Draft

/-- An argument that is meant as an option. -/
def looksLikeOption (arg : String) : Bool :=
  arg.startsWith "-" && arg ≠ "-"

/-- The name of an option after its two minus signs, and the value after the first equals sign. -/
def splitOption (arg : List Char) : String × Option String :=
  match arg.span (· ≠ '=') with
  | (name, _ :: value) => (String.ofList name, some (String.ofList value))
  | (name, []) => (String.ofList name, none)

namespace Draft

/-- Take the arguments after `--`. -/
def takePositionals (d : Draft) : List String → Option Draft
  | [] => some d
  | arg :: rest => do (← d.positional arg).takePositionals rest

/-- Take all arguments; none if one of them is out of place. -/
def takeAll (d : Draft) : List String → Option Draft
  | [] => some d
  | arg :: rest =>
    match arg.toList with
    | ['-', '-'] => d.takePositionals rest
    | '-' :: '-' :: long =>
      match splitOption long with
      | (name, some value) => do (← d.option name value).takeAll rest
      | (name, none) =>
        match rest with
        | value :: rest =>
          if looksLikeOption value then none else do (← d.option name value).takeAll rest
        | [] => none
    | _ => if looksLikeOption arg then none else do (← d.positional arg).takeAll rest

end Draft

/-- The call that the arguments make, unless they are out of place. -/
def Invocation.ofArguments? (args : List String) : Option Invocation :=
  (Draft.takeAll {} args).map (·.complete)

end PeanoCalculus
