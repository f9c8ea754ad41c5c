/-
Exit codes.

What a program tells its surroundings about how it ended; zero says that nothing went wrong.
-/
namespace Lox.ExitCode

/-- No fault. -/
def success : Nat := 0

/-- The program to run could not be read. -/
def failure : Nat := 1

/-- The arguments ask for nothing that can be done. -/
def misuse : Nat := 64

/-- A source has static faults. -/
def staticFault : Nat := 65

/-- A source was stopped while it ran. -/
def runtimeFault : Nat := 70

end Lox.ExitCode
