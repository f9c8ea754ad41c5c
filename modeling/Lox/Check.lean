/-
Checking sources.

`check` takes a source through scanning, parsing and the finding of bindings.  A source without
any static fault becomes a `Program`; all others yield their faults.

Design notes: a source with lexical faults is parsed all the same, so that the faults of its
grammar are reported with them.  Bindings are only looked at in a source that parses.
-/
import Lox.Binding.Resolve
import Lox.Syntax.Grammar
import Lox.Token.Scan

namespace Lox

/-- A program that can run: its statements, and the distances of the nodes in them. -/
structure Program where
  statements : List Stmt
  distances : Distances

/-- What comes of checking: the program or all faults in it, and the number for the next node. -/
structure Checked where
  result : Except (List Diagnostic) Program
  nextId : NodeId

/-- Statements with their distances, or every misuse of a name in them. -/
def bindNames (statements : List Stmt) : Except (List Diagnostic) Program :=
  let resolution := resolve statements
  if resolution.faults.isEmpty then .ok ⟨statements, resolution.distances⟩
  else .error resolution.faults

/-- Checks a source, numbering nodes from `firstId` on. -/
def check (source : String) (firstId : NodeId) : Checked :=
  let lexical := scanFaults source
  let parsed := parse (scanTokens source) firstId
  let result := match parsed.result with
    | .error faults => .error (lexical ++ faults)
    | .ok statements => if lexical.isEmpty then bindNames statements else .error lexical
  ⟨result, parsed.nextId⟩

end Lox
