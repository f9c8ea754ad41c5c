/-
Reports.

A `Report` is what a command leaves behind: text on two channels and an exit code.  Diagnostics
stand on the second channel, one to a line.

Design notes: a failure is not the fault of a program but of the file or input it should come
from.
-/
import Lox.Diagnostic
import Lox.ExitCode
import Lox.Text.Quoted
import Lox.Text.Utf8

namespace Lox

/-- What a command leaves behind. -/
structure Report where
  code : Nat
  stdout : String
  stderr : String
deriving Repr, DecidableEq

/-- Why a command cannot get at a program. -/
inductive Failure where
  | missingFile (name : String)
  | fileNotText (name : String) (fault : Text.Utf8.Fault)
  | inputNotText
deriving Repr, DecidableEq

/-- The text of a failure: what went wrong and why. -/
def Failure.text (what why : String) : String :=
  "Error: " ++ what ++ "\n\nCaused by:\n    " ++ why ++ "\n"

/-- The wording of a failure. -/
def Failure.message : Failure → String
  | missingFile name =>
    text ("Failed to open file " ++ Text.quote name) "No such file or directory (os error 2)"
  | fileNotText name fault =>
    text ("File " ++ Text.quote name ++ " is not valid UTF-8") fault.message
  | inputNotText => text "REPL I/O failed" "stream did not contain valid UTF-8"

/-- How the program is used. -/
def usage : String :=
  "Usage: rlox [--log] tokenize [--json] FILE\n" ++
  "       rlox [--log] parse [--json] FILE\n" ++
  "       rlox [--log] run [FILE]\n"

/-- The name and version of the program. -/
def versionText : String := "rlox 0.1.0\n"

/-- Lines, each with its end. -/
def unlines (lines : List String) : String :=
  String.join (lines.map (· ++ "\n"))

/-- The messages of diagnostics, one to a line. -/
def messages (faults : List Diagnostic) : String :=
  unlines (faults.map Diagnostic.message)

namespace Report

/-- A failure before anything was done. -/
def failed (f : Failure) : Report := ⟨ExitCode.failure, "", f.message⟩

/-- The report on arguments that ask for nothing that can be done. -/
def misused : Report := ⟨ExitCode.misuse, "", usage⟩

/-- A text that was asked for. -/
def shown (text : String) : Report := ⟨ExitCode.success, text, ""⟩

/-- The report of diagnostics alone. -/
def rejected (faults : List Diagnostic) : Report := ⟨ExitCode.staticFault, "", messages faults⟩

end Report

end Lox
