import PeanoCalculus.Command.Execution

/-! # The entry point

    Reads and writes real files for a call of the command. -/

namespace PeanoCalculus

/-- The number of an error.  Some operations report it negated. -/
def errorNumber (code : UInt32) : UInt32 :=
  if code < 0x80000000 then code else 0 - code

/-- The fault behind a failed operation on a file. -/
def FileFault.ofError : IO.Error → FileFault
  | .noFileOrDirectory .. => .notFound
  | e@(.inappropriateType _ code _) | e@(.invalidArgument _ code _) =>
    match errorNumber code with
    | 20 => .notDirectory
    | 21 => .isDirectory
    | 36 => .nameTooLong
    | _ => .other (toString e)
  | e => .other (toString e)

/-- Read a file as text. -/
def readText (path : String) : IO (Except FileFault String) := do
  try
    let bytes ← IO.FS.readBinFile path
    return match String.fromUTF8? bytes with
      | some text => .ok text
      | none => .error .notText
  catch e => return .error (.ofError e)

/-- Write a text to a file. -/
def writeText (path content : String) : IO (Except FileFault Unit) := do
  try
    IO.FS.writeFile path content
    return .ok ()
  catch e => return .error (.ofError e)

/-- Make the call with real files. -/
def Invocation.execute (call : Invocation) : IO UInt32 := do
  let files ← call.sources.mapM fun path => return (path, ← readText path)
  match call.prepare fun path => (files.lookup path).getD (.error .notFound) with
  | .error report =>
    IO.eprint report
    return 1
  | .ok output =>
    let completion := call.conclude output (← writeText call.output output.document)
    IO.eprint completion.errorStream
    return completion.exitCode.toUInt32

end PeanoCalculus

/-- Check a proof document or discharge its last hypothesis. -/
def main (args : List String) : IO UInt32 :=
  match PeanoCalculus.Invocation.ofArguments? args with
  | some call => call.execute
  | none => do
    IO.eprintln
      "usage: [INPUT [OUTPUT [check|elaborate]]] [--templates DIR] [--format text|json]"
    return 2
