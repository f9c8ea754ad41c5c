/-
Running programs.

`interpret` runs a program whose nodes have known distances, on a machine that other programs may
have run on before.  What is printed goes out at the end of the run, however it ends.

Design notes: a `return` outside of every function ends no more than the statement it is in.
Binding rejects it, so it only arises in a program that is run in spite of its faults.
-/
import Lox.Run.Evaluate

namespace Lox.Run

/-- More fuel than any run uses up. -/
def ample : Nat := Nat.pow 2 62

/-- Runs statements one after the other. -/
def runAll (fuel : Nat) : List Stmt → Run Unit
  | [] => pure ()
  | s :: ss => do
    let _ ← execute fuel s
    runAll fuel ss

/-- Adds distances to the known ones. -/
def learn (distances : Distances) : Run Unit := fun m =>
  .ok () { m with distances := m.distances.merge distances }

/-- Runs something and flushes the output however that ends.  A fault of flushing prevails over
the end of the run. -/
def thenFlush (run : Run Unit) : Run Unit := fun m =>
  match run m with
  | .ok () m => flush m
  | .error h m =>
    match flush m with
    | .ok () m => .error h m
    | .error fault m => .error fault m

/-- Runs a program whose nodes have the given distances. -/
def interpret (fuel : Nat) (program : List Stmt) (distances : Distances) : Run Unit := do
  learn distances
  thenFlush (runAll fuel program)

end Lox.Run
