/-
Commands.

`Command.execute` carries out a command on the files and the input it is given.

* `tokenize` — the tokens of a file, one to a line, with its lexical faults beside them;
* `parse` — the outlines of a file's expressions, or the whole program as a JSON document;
* `script` — runs a file;
* `dialogue` — runs the input line by line, with a prompt before each line and at the end.

Design notes: a file or an input line is a sequence of bytes, and is read as UTF-8.
-/
import Lox.Command.Arguments
import Lox.Command.Report
import Lox.Session
import Lox.Syntax.Document
import Lox.Syntax.Outline
import Lox.Text.Lines

namespace Lox

/-- The source in some bytes. -/
def sourceOf (bytes : List UInt8) : Except Text.Utf8.Fault String :=
  (Text.Utf8.decode bytes).map String.ofList

namespace Report

/-- The tokens of a source, one to a line, with its lexical faults. -/
def ofTokens (json : Bool) (source : String) : Report :=
  let show_ (t : Token) : String := if json then t.toJson.compact else t.display
  let faults := scanFaults source
  ⟨if faults.isEmpty then ExitCode.success else ExitCode.staticFault,
    unlines ((scanTokens source).map show_), messages faults⟩

/-- A program for reading: the outlines of its expressions, or a document. -/
def listing (json : Bool) (program : List Stmt) : String :=
  if json then (Stmt.programJson program).indented ++ "\n"
  else unlines (program.filterMap Stmt.outline?)

/-- The program in a source.  A source with lexical faults is not parsed. -/
def ofProgram (json : Bool) (source : String) : Report :=
  let lexical := scanFaults source
  if lexical.isEmpty then
    match (parse (scanTokens source) 0).result with
    | .ok program => ⟨ExitCode.success, listing json program, ""⟩
    | .error faults => .rejected faults
  else .rejected lexical

/-- The run of a source in a new session. -/
def ofScript (machine : Machine) (source : String) : Report :=
  let (reply, session) := (Session.start machine).run Run.ample source
  ⟨session.exitCode, reply.printed, messages reply.outcome.diagnostics⟩

/-- The sources up to the first sequence of bytes that is no text, and whether there is one. -/
def sourcesOf : List (List UInt8) → List String × Bool
  | [] => ([], false)
  | line :: lines =>
    match sourceOf line with
    | .ok source =>
      let (sources, broken) := sourcesOf lines
      (source :: sources, broken)
    | .error _ => ([], true)

/-- The run of the lines of an input in a new session. -/
def ofDialogue (machine : Machine) (input : List UInt8) : Report :=
  let (sources, broken) := sourcesOf (Text.lines 0x0A 0x0D input)
  let (replies, _) := (Session.start machine).converse Run.ample sources
  let stdout := String.join (replies.map fun r => prompt ++ r.printed) ++ prompt
  let stderr := String.join (replies.map fun r => messages r.outcome.diagnostics)
  if broken then ⟨ExitCode.failure, stdout, stderr ++ Failure.inputNotText.message⟩
  else ⟨ExitCode.success, stdout ++ "\n", stderr⟩

end Report

namespace Command

/-- Carries out a command on the source in a file. -/
def onFile (files : String → Option (List UInt8)) (name : String) (run : String → Report) :
    Report :=
  match files name with
  | none => .failed (.missingFile name)
  | some bytes =>
    match sourceOf bytes with
    | .ok source => run source
    | .error fault => .failed (.fileNotText name fault)

/-- Carries out a command, where `files` are the contents of the files that there are. -/
def execute (machine : Machine) (files : String → Option (List UInt8)) (input : List UInt8) :
    Command → Report
  | .tokenize file json => onFile files file (Report.ofTokens json)
  | .parse file json => onFile files file (Report.ofProgram json)
  | .script file => onFile files file (Report.ofScript machine)
  | .dialogue => .ofDialogue machine input

end Command

end Lox
