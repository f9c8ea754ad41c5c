/-
Sessions.

A session runs one source after another on one machine, so that later sources see the globals of
earlier ones.  It remembers whether a source had static faults and whether one stopped.

* `run` — one source, which runs only if it has no static fault;
* `converse` — a dialogue, in which every line is a source and nothing is remembered of its
  faults.

Design notes: nodes are numbered through a whole session, also those of sources that are
rejected, so that no two nodes that a machine gets to see have one number.
-/
import Lox.Check
import Lox.ExitCode
import Lox.Run.Program

namespace Lox

/-- How the run of a source ends. -/
inductive Outcome where
  | finished
  /-- static faults, for which nothing ran -/
  | rejected (faults : List Diagnostic)
  | stopped (h : Halt)

/-- The diagnostics that an outcome consists of. -/
def Outcome.diagnostics : Outcome → List Diagnostic
  | finished => []
  | rejected faults => faults
  | stopped (.raised d) => [d]
  | stopped _ => []

/-- What the run of a source shows. -/
structure Reply where
  printed : String
  outcome : Outcome

/-- The state of a session. -/
structure Session where
  machine : Machine
  /-- the number for the next node -/
  nextId : NodeId
  hadStaticFault : Bool
  hadRuntimeFault : Bool

namespace Session

/-- A session on a machine on which nothing has run. -/
def start (machine : Machine) : Session := ⟨machine, 0, false, false⟩

/-- The exit code that tells what has gone wrong so far. -/
def exitCode (s : Session) : Nat :=
  if s.hadStaticFault then ExitCode.staticFault
  else if s.hadRuntimeFault then ExitCode.runtimeFault
  else ExitCode.success

/-- The session with no fault remembered. -/
def forget (s : Session) : Session :=
  { s with hadStaticFault := false, hadRuntimeFault := false }

/-- The session with the machine that a run has left. -/
def resumeWith (s : Session) (machine : Machine) (stopped : Bool) : Session :=
  { s with machine := machine, hadRuntimeFault := s.hadRuntimeFault || stopped }

/-- Runs a program that has been checked. -/
def runProgram (fuel : Nat) (s : Session) (p : Program) : Reply × Session :=
  match Run.interpret fuel p.statements p.distances s.machine.clearOutput with
  | .ok () m => (⟨m.output, .finished⟩, s.resumeWith m false)
  | .error h m => (⟨m.output, .stopped h⟩, s.resumeWith m true)

/-- Runs a source, or rejects it for its static faults. -/
def run (fuel : Nat) (s : Session) (source : String) : Reply × Session :=
  let checked := check source s.nextId
  let s := { s with nextId := checked.nextId }
  match checked.result with
  | .ok p => s.runProgram fuel p
  | .error faults => (⟨"", .rejected faults⟩, { s with hadStaticFault := true })

/-- Runs lines one after the other and forgets the faults of each. -/
def converse (fuel : Nat) (s : Session) : List String → List Reply × Session
  | [] => ([], s)
  | line :: lines =>
    let (reply, s) := s.run fuel line
    let (replies, s) := s.forget.converse fuel lines
    (reply :: replies, s)

end Session

/-- What stands before each line of a dialogue and before its end. -/
def prompt : String := "> "

/-- The prompts of a dialogue of some lines, with the line end behind the last one. -/
def prompts (lines : Nat) : String :=
  String.join (List.replicate (lines + 1) prompt) ++ "\n"

end Lox
