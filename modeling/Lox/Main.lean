/-
The program.

`main` reads what its arguments name and writes what is reported.  A dialogue is held line by
line, so that a reply stands before the next line is read; all other commands are carried out by
`Command.execute`.

Design notes: the clock is read once.  It goes on by a microsecond at each reading.
-/
import Lox.Command.Execute
import Std.Time.DateTime.Timestamp

namespace Lox

/-- A clock that shows `start` microseconds at its first reading and one more at each other. -/
def clockFrom (start : Int) (reading : Nat) : Float :=
  Float.ofInt (start + reading) / 1000000.0

/-- A machine whose clock begins now. -/
def newMachine : IO Machine := do
  let now ← Std.Time.Timestamp.now
  pure (.start (clockFrom (now.toNanosecondsSinceUnixEpoch.toInt / 1000)) .sound)

/-- The contents of a file, if there is one. -/
def contents? (name : String) : IO (Option (List UInt8)) := do
  try pure (some (← IO.FS.readBinFile name).toList)
  catch _ => pure none

/-- Reads bytes up to a line end and with it, behind those already read. -/
partial def readLine (input : IO.FS.Stream) (line : ByteArray) : IO ByteArray := do
  let bytes ← input.read 1
  if bytes.isEmpty then pure line
  else if bytes[0]? = some 0x0A then pure (line ++ bytes)
  else readLine input (line ++ bytes)

/-- Holds a dialogue and yields its exit code. -/
partial def hold (input output errors : IO.FS.Stream) (s : Session) : IO Nat := do
  output.putStr prompt
  output.flush
  let bytes ← readLine input .empty
  let (sources, broken) := Report.sourcesOf (Text.lines 0x0A 0x0D bytes.toList)
  let (replies, s) := s.converse Run.ample sources
  replies.forM fun reply => do
    output.putStr reply.printed
    errors.putStr (messages reply.outcome.diagnostics)
  if broken then
    errors.putStr Failure.inputNotText.message
    pure ExitCode.failure
  else if bytes.isEmpty then
    output.putStr "\n"
    pure ExitCode.success
  else hold input output errors s

/-- Writes a report and yields its exit code. -/
def deliver (r : Report) : IO Nat := do
  (← IO.getStdout).putStr r.stdout
  (← IO.getStderr).putStr r.stderr
  pure r.code

/-- Carries out a command and yields its exit code. -/
def perform (c : Command) : IO Nat := do
  let machine ← newMachine
  match c.file? with
  | some name => do
    let contents ← contents? name
    deliver (c.execute machine (fun _ => contents) [])
  | none => do
    hold (← IO.getStdin) (← IO.getStdout) (← IO.getStderr) (.start machine)

/-- Does what the arguments ask for and yields the exit code. -/
def serve : Request → IO Nat
  | .misuse => deliver .misused
  | .help => deliver (.shown usage)
  | .version => deliver (.shown versionText)
  | .command log c => do
    if log then IO.FS.writeFile "app.log" ""
    perform c

end Lox

def main (arguments : List String) : IO UInt32 := do
  pure (← Lox.serve (.ofArguments arguments)).toUInt32
