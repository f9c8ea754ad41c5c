/-
Assignments to local variables.

An assignment at a distance writes to the frame so far out, whether that has the variable or not.
It always has it, but for one case: in the initializer of a local variable the name is found in the
innermost scope, while the frame gets the variable only behind the initializer.

* `Walk.distance?_of_isPending` — a name that is being initialized is found in the innermost scope;
* `session_assigns` — an assignment at a distance makes no variable, unless it stands in the
  initializer of the variable it is to;
* `session_assigns_ownInitializer` — there it makes one.

Design notes: the value of an assignment is evaluated between the moment at which the node is met
and the write.  What was there before is there still, by `evaluate_grows`.
-/
import Lox.Proofs.Run.Agreement
import Lox.Proofs.Run.Growth

namespace Lox

/-- A name that is being initialized is found in the innermost scope. -/
theorem Walk.distance?_of_isPending {w : Walk} {name : Token} (h : w.isPending name = true) :
    distance? w.scopes name.lexeme = some 0 := by
  unfold Walk.isPending at h
  split at h
  · cases h
  · next scope outer hs =>
    have hfind : scope.find? name.lexeme = some false := by simpa using h
    have hc : scope.contains name.lexeme = true := by
      unfold NameTable.contains
      rw [hfind]
      rfl
    rw [hs]
    unfold distance?
    rw [List.findIdx?_cons, hc]
    rfl

/-- A write to a variable that is there makes no new one. -/
theorem Frames.defines_define_eq {s : Frames} {f : FrameId} {name : String} (v : Value)
    (h : s.defines f name = true) (g : FrameId) (x : String) :
    (s.define f name v).defines g x = s.defines g x := by
  obtain ⟨u, hu⟩ := s.defines_iff.mp h
  unfold Frames.defines
  rw [s.value?_define (s.lt_size_of_value? hu)]
  by_cases hx : f = g ∧ name = x
  · obtain ⟨rfl, rfl⟩ := hx
    rw [if_pos ⟨rfl, rfl⟩, hu]
    rfl
  · rw [if_neg hx]

/-- In the record of any session, which is the session with notes: when the value of an assignment
that is met and has a distance has been evaluated, the frame so far out is not the globals, and it
is the one that is written to.  Unless the resolver has the name as one that is being initialized,
and then the frame is the innermost one, the frame has the variable already, so that no frame has
other names behind the assignment than before. -/
theorem session_assigns (clock : Nat → Float) (sink : Sink) (fuel : Nat) (sources : List String) :
    let r := Session.trace fuel (.start clock sink) sources
    r.machine = ((Session.start (.start clock sink)).runEach fuel sources).machine ∧
      ∀ later p id name value m earlier d,
        r.log = later ++ .met p (.expression (.assign id name value)) m :: earlier →
        m.distances.find? id = some d →
        distance? p.walk.scopes name.lexeme = some d ∧
        ∀ n v m₁, Run.evaluate n value m = .ok v m₁ →
          ∃ f, m₁.frames.ancestor? m₁.active d = some f ∧ f ≠ globals ∧
            Run.evaluate (n + 1) (.assign id name value) m =
              .ok v { m₁ with frames := m₁.frames.define f name.lexeme v } ∧
            if p.walk.isPending name then d = 0
            else m₁.frames.defines f name.lexeme = true ∧
              ∀ g x, (m₁.frames.define f name.lexeme v).defines g x = m₁.frames.defines g x := by
  intro r
  refine ⟨Session.trace_erases fuel _ sources, ?_⟩
  intro later p id name value m earlier d hlog hd
  obtain ⟨hfind, hwrite⟩ := (Session.trace_told hlog).met_write ⟨id, .assign, name⟩ rfl
  refine ⟨hfind ▸ hd, fun n v m₁ hv => ?_⟩
  obtain ⟨f, -, hne, hancestor, hdef⟩ := hwrite d hd
  -- the machine at the write has all that was there when the node was met
  have hgrows : m.Grows m₁ := (Run.evaluate_grows n value).ok hv
  have hancestor₁ : m₁.frames.ancestor? m₁.active d = some f := by
    rw [hgrows.active]
    exact hgrows.ancestor? hancestor
  have hstore : Run.store id name v m₁ =
      .ok () { m₁ with frames := m₁.frames.define f name.lexeme v } := by
    have hd₁ : m₁.distances.find? id = some d := by rw [hgrows.distances, hd]
    unfold Run.store
    simp only [hd₁, hancestor₁]
    rfl
  refine ⟨f, hancestor₁, hne, ?_, ?_⟩
  · rw [Run.evaluate, Run.bind_apply, hv]
    simp only [Run.bind_apply, hstore]
    rfl
  · split
    · next hpend =>
      have h0 := hfind.symm.trans hd
      rw [Walk.distance?_of_isPending hpend] at h0
      cases h0
      rfl
    · next hpend =>
      have hhas := hgrows.defines f _ (hdef (Bool.eq_false_iff.mpr hpend))
      exact ⟨hhas, Frames.defines_define_eq v hhas⟩

/-- A source that assigns to a local variable in the initializer of that variable. -/
def selfAssigning : String := "{ var a = a = nil; }"

/-- The assignment in `selfAssigning`. -/
def selfAssignment : Expr :=
  .assign 1 ⟨.identifier, "a", 1⟩ (.literal .nil)

/-- The place of `selfAssignment`. -/
def selfAssignmentPlace : Place :=
  (((Place.top 0).child 0).block.child 0).initializer ⟨.identifier, "a", 1⟩

/-- The machine on which `selfAssignment` is met: the frame of the block is empty. -/
def selfAssignmentMachine : Machine :=
  let m := Machine.start (fun _ => 0) .sound
  { m with frames := m.frames.push (some globals), active := 1, distances := [(1, 0)] }

/-- The source has no static fault, the assignment has a distance, and when it is met the frame of
the block has no variable of the name; the assignment makes one. -/
theorem session_assigns_ownInitializer :
    (check selfAssigning 0).result =
        .ok ⟨[.block [.varDecl ⟨.identifier, "a", 1⟩ (some selfAssignment)]], [(1, 0)]⟩ ∧
      .met selfAssignmentPlace (.expression selfAssignment) selfAssignmentMachine ∈
        (Session.trace 9 (.start (fun _ => 0) .sound) [selfAssigning]).log ∧
      selfAssignmentMachine.distances.find? 1 = some 0 ∧
      selfAssignmentMachine.frames.ancestor? selfAssignmentMachine.active 0 = some 1 ∧
      selfAssignmentMachine.frames.defines 1 "a" = false ∧
      ∃ m, Run.evaluate 2 selfAssignment selfAssignmentMachine = .ok .nil m ∧
        m.frames.defines 1 "a" = true := by
  have hmet : (Session.trace 9 (.start (fun _ => 0) .sound) [selfAssigning]).log[3]? =
      some (.met selfAssignmentPlace (.expression selfAssignment) selfAssignmentMachine) := by cbv
  exact ⟨by cbv, List.mem_of_getElem? hmet, rfl, rfl, rfl, _, rfl, rfl⟩

end Lox
