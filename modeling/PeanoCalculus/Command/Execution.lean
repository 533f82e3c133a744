import PeanoCalculus.FileTree
import PeanoCalculus.Command.Arguments

/-! # The command

    The command reads a document, runs it and writes the printed report to a file.  Messages about
    the proof go to the error stream before anything is written.  An error goes there too, followed
    by what caused it, and then nothing is written.

    Reading and writing files is left to the caller: `Invocation.prepare` takes a function that
    reads a file, and `Invocation.conclude` the outcome of writing the report. -/

namespace PeanoCalculus

/-- The report of an error and its causes, the outermost first.  More than one cause is numbered. -/
def errorReport (message : String) : List String → String
  | [] => "Error: " ++ message ++ "\n"
  | [cause] => "Error: " ++ message ++ "\n\nCaused by:\n    " ++ cause ++ "\n"
  | causes =>
    "Error: " ++ message ++ "\n\nCaused by:\n" ++
      unlines (causes.zipIdx.map fun (cause, i) => "    " ++ toString i ++ ": " ++ cause)

/-- What a call ends with. -/
structure Completion where
  exitCode : Nat
  errorStream : String

namespace Invocation

/-- Read a document. -/
def readDocument (read : String → Except FileFault String) (path : String) :
    Except RunError Document := do
  let text ← (read path).mapError .file
  (Document.parse text).mapError .header

/-- A file in the directory of templates. -/
def templatePath (dir name : String) : String :=
  if dir.endsWith "/" then dir ++ name else dir ++ "/" ++ name

/-- The files that a call may read. -/
def sources (call : Invocation) : List String :=
  call.input ::
    call.templates.elim [] fun dir =>
      TemplateKind.all.map fun kind => templatePath dir kind.fileName

/-- What is to be written, or the report of an error. -/
def prepare (call : Invocation) (read : String → Except FileFault String) :
    Except String Output :=
  match readDocument read call.input with
  | .error e => .error (errorReport ("reading " ++ call.input) (e.message :: e.cause?.toList))
  | .ok document =>
    let templates := call.templates.map fun dir name => read (templatePath dir name)
    (run call.mode call.format templates document).mapError fun e =>
      errorReport e.message e.cause?.toList

/-- The end of a call whose output was written, or could not be. -/
def conclude (call : Invocation) (output : Output) (written : Except FileFault Unit) :
    Completion :=
  let messages := unlines output.diagnostics
  match written with
  | .ok () => ⟨0, messages⟩
  | .error fault => ⟨1, messages ++ errorReport ("writing " ++ call.output) [fault.message]⟩

/-- Make the call inside a tree of files. -/
def executeIn (call : Invocation) (tree : FileTree) : Completion × FileTree :=
  match call.prepare tree.read with
  | .error report => (⟨1, report⟩, tree)
  | .ok output =>
    match tree.write call.output output.document with
    | .ok tree => (call.conclude output (.ok ()), tree)
    | .error fault => (call.conclude output (.error fault), tree)

end Invocation

end PeanoCalculus
