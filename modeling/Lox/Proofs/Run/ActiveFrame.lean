/-
The active frame.

Whatever is run comes back to the frame in which it began, however it ends: with a value, with a
`return`, with a fault of the program, or with a fault of the output.  So between two sources a
session is in the frame of the globals, whatever has failed in it and at whatever depth.

* `Run.Returns` — a run behind which the active frame is the one before it;
* `Run.Grows.returns` — in particular every run behind which a machine has grown;
* `active_frame_restored` — all functions of the evaluation return, and so does each source of a
  session.

Design notes: nothing is asked of the machine, so its frames, objects and distances may be such as
no program leads to, and its output may fail at any moment.
-/
import Lox.Proofs.Run.Growth
import Lox.Proofs.Run.Trace

namespace Lox

namespace Run

/-- Behind the run the program is in the same frame as before it. -/
def Returns {α : Type} (run : Run α) : Prop :=
  ∀ m, match run m with
    | .ok _ m' => m'.active = m.active
    | .error _ m' => m'.active = m.active

theorem Grows.returns {α : Type} {run : Run α} (h : run.Grows) : run.Returns := by
  intro m
  cases he : run m with
  | ok a m' => exact (h.ok he).active
  | error e m' => exact (h.error he).active

/-- A program returns whatever distances it is given. -/
theorem interpret_returns (fuel : Nat) (program : List Stmt) (distances : Distances) :
    (interpret fuel program distances).Returns := by
  intro m
  -- learning distances is no growth, as they change, but it leaves the frame alone
  have hlearned : interpret fuel program distances m =
      thenFlush (runAll fuel program)
        { m with distances := m.distances.merge distances } := rfl
  rw [hlearned]
  exact (runAll_grows fuel program).thenFlush.returns
    { m with distances := m.distances.merge distances }

end Run

namespace Session

theorem runProgram_active (fuel : Nat) (s : Session) (p : Program) :
    (s.runProgram fuel p).2.machine.active = s.machine.active := by
  have hreturns := Run.interpret_returns fuel p.statements p.distances s.machine.clearOutput
  unfold runProgram
  cases he : Run.interpret fuel p.statements p.distances s.machine.clearOutput with
  | ok _ m =>
    rw [he] at hreturns
    exact hreturns
  | error e m =>
    rw [he] at hreturns
    exact hreturns

/-- A source is run, or rejected, in the frame that was active before. -/
theorem run_active (fuel : Nat) (s : Session) (source : String) :
    (s.run fuel source).2.machine.active = s.machine.active := by
  unfold run
  simp only
  cases (check source s.nextId).result with
  | ok p => exact runProgram_active fuel { s with nextId := (check source s.nextId).nextId } p
  | error faults => rfl

theorem runEach_active (fuel : Nat) (s : Session) (sources : List String) :
    (s.runEach fuel sources).machine.active = s.machine.active := by
  induction sources generalizing s with
  | nil => rfl
  | cons source sources ih => exact (ih (s.run fuel source).2).trans (run_active fuel s source)

end Session

/-- Expressions, calls, statements, blocks in any frame, declarations of classes and whole programs
come back to the frame in which they began, on any machine and however they end.  So a session comes
back to its frame with each source, and one that has begun at the top level is there again behind
any number of sources, whether they were run to their end, stopped or rejected. -/
theorem active_frame_restored (fuel : Nat) :
    (∀ e, (Run.evaluate fuel e).Returns) ∧
    (∀ es, (Run.evaluateAll fuel es).Returns) ∧
    (∀ c arguments, (Run.invoke fuel c arguments).Returns) ∧
    (∀ c arguments, (Run.invokeClosure fuel c arguments).Returns) ∧
    (∀ s, (Run.execute fuel s).Returns) ∧
    (∀ ss, (Run.executeAll fuel ss).Returns) ∧
    (∀ frame ss, (Run.within frame (Run.executeAll fuel ss)).Returns) ∧
    (∀ name superclass methods, (Run.declareClass name superclass methods).Returns) ∧
    (∀ program distances, (Run.interpret fuel program distances).Returns) ∧
    (∀ (s : Session) source, (s.run fuel source).2.machine.active = s.machine.active) ∧
    ∀ clock sink sources,
      ((Session.start (.start clock sink)).runEach fuel sources).machine.active = globals := by
  have hall := Run.allGrow fuel
  refine ⟨fun e => (hall.evaluate e).returns, fun es => (hall.evaluateAll es).returns,
    fun c vs => (hall.invoke c vs).returns, fun c vs => (hall.invokeClosure c vs).returns,
    fun s => (hall.execute s).returns, fun ss => (hall.executeAll ss).returns, ?_, ?_, ?_, ?_, ?_⟩
  · intro frame ss
    exact ((hall.executeAll ss).within frame).returns
  · intro name superclass methods
    exact (Run.Grows.declareClass name superclass methods).returns
  · intro program distances
    exact Run.interpret_returns fuel program distances
  · intro s source
    exact Session.run_active fuel s source
  · intro clock sink sources
    exact Session.runEach_active fuel (.start (.start clock sink)) sources

end Lox
