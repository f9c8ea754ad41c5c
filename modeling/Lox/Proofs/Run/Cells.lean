/-
Variables are cells.

A local variable of one activation of its scope is a cell.  What is read from it was last written to
it, whatever else happened in the meantime: the record of a session lists all writes, each with the
cell of the declaration that is visible where it stands.

* `exists_of_lastWritten` — the last write to a cell, behind which nothing is written to it;
* `session_cells` — a variable that is read at a distance has the value of the last write to the
  cell of its declaration, in the activation through which it is read.
-/
import Lox.Proofs.Run.Agreement

namespace Lox

/-- The last write to a cell, behind which nothing is written to it. -/
theorem exists_of_lastWritten {log : List Event} {c : Cell} {v : Value}
    (h : lastWritten log c = some v) :
    ∃ later earlier, log = later ++ .wrote c v :: earlier ∧ ∀ u, .wrote c u ∉ later := by
  induction log with
  | nil => cases h
  | cons e log ih =>
    have hskip : lastWritten log c = some v → (∀ u, e ≠ .wrote c u) →
        ∃ later earlier, e :: log = later ++ .wrote c v :: earlier ∧ ∀ u, .wrote c u ∉ later := by
      intro hl hne
      obtain ⟨later, earlier, hlog, hno⟩ := ih hl
      refine ⟨e :: later, earlier, by rw [hlog, List.cons_append], fun u hm => ?_⟩
      rcases List.mem_cons.mp hm with he | hm
      · exact hne u he.symm
      · exact hno u hm
    cases e with
    | met p node m => exact hskip h fun u he => by cases he
    | opened f o => exact hskip h fun u he => by cases he
    | did deed => exact hskip h fun u he => by cases he
    | wrote c' v' =>
      unfold lastWritten at h
      split at h
      · next he =>
        cases he
        cases h
        exact ⟨[], log, rfl, fun u hm => by cases hm⟩
      · next hne => exact hskip h fun u he => by cases he; exact hne rfl

/-- In the record of any session, which is the session with notes: no frame is opened twice; and a
variable that is met and has a distance yields the value of the last write to its cell, which is
that of the declaration that is visible at its place, in the frame that was opened for the scope of
the declaration and stands at the distance. -/
theorem session_cells (clock : Nat → Float) (sink : Sink) (fuel : Nat) (sources : List String) :
    let r := Session.trace fuel (.start clock sink) sources
    r.machine = ((Session.start (.start clock sink)).runEach fuel sources).machine ∧
      (r.log.filterMap Event.opened?).Nodup ∧
      ∀ later p id name m earlier d,
        r.log = later ++ .met p (.expression (.var id name)) m :: earlier →
        m.distances.find? id = some d →
        ∃ f opener v after before,
          distance? p.walk.scopes name.lexeme = some d ∧ p.openerAt d = some opener ∧
          (m.frames.outwards m.active)[d]? = some f ∧ .opened f (some opener) ∈ earlier ∧
          earlier = after ++ .wrote ⟨f, some opener, name.lexeme⟩ v :: before ∧
          (∀ u, .wrote ⟨f, some opener, name.lexeme⟩ u ∉ after) ∧
          ∀ n, Run.evaluate (n + 1) (.var id name) m = .ok v m := by
  intro r
  obtain ⟨next, hidle⟩ := Session.trace_idle clock sink fuel sources
  refine ⟨Session.trace_erases fuel _ sources, hidle.lawful.opened_once, ?_⟩
  intro later p id name m earlier d hlog hd
  obtain ⟨hfind, hread⟩ := (Session.trace_told hlog).met.2 ⟨id, .variable_, name⟩ rfl
  obtain ⟨f, v, opener, hout, -, hancestor, hopener, hopened, hv, hlast⟩ := hread d hd
  obtain ⟨after, before, hearlier, hno⟩ := exists_of_lastWritten hlast
  refine ⟨f, opener, v, after, before, hfind ▸ hd, hopener, hout, hopened, hearlier, hno,
    fun n => ?_⟩
  show Run.lookUp id name m = .ok v m
  unfold Run.lookUp Frames.getAt
  rw [hd]
  simp only [hancestor, Option.bind_some]
  rw [show m.frames.value? f name.lexeme = some v from hv]
  rfl

end Lox
