/-
Recorded runs are runs.

Without its notes, a recorded run is the run of the program: it ends alike, on the same machine.

* `Erases` — a recorded run and a run that differ in the notes only;
* `Echoes` — they do so, and no deed is noted;
* `evaluate_erases` — the evaluation of an expression, at whatever place;
* `trace_erases` — a whole session.
-/
import Lox.Proofs.Run.Trace

namespace Lox

/-- The end of a recorded run without its notes. -/
def Traced.forget {α : Type} : EStateM.Result Halt Record α → EStateM.Result Halt Machine α
  | .ok a r => .ok a r.machine
  | .error h r => .error h r.machine

/-- Without its notes, the recorded run is the given one. -/
structure Traced.Erases {α : Type} (t : Traced α) (run : Run α) : Prop where
  forget_eq : ∀ r, Traced.forget (t r) = run r.machine

namespace Traced

namespace Erases

variable {α β : Type} {t : Traced α} {run : Run α}

theorem pure (a : α) : Erases (Pure.pure a) (Pure.pure a) := ⟨fun _ => rfl⟩

theorem bind {next : α → Traced β} {next' : α → Run β} (h : Erases t run)
    (hn : ∀ a, Erases (next a) (next' a)) : Erases (t >>= next) (run >>= next') := by
  refine ⟨fun r => ?_⟩
  rw [bind_apply, Run.bind_apply, ← h.forget_eq r]
  cases t r with
  | ok a r' => exact (hn a).forget_eq r'
  | error h r' => rfl

theorem lift (run : Run α) : Erases (Traced.lift run) run := by
  refine ⟨fun r => ?_⟩
  unfold Traced.lift
  cases run r.machine <;> rfl

theorem noting (run : Run α) (event : Record → α → Event) :
    Erases (Traced.noting run event) run := by
  refine ⟨fun r => ?_⟩
  unfold Traced.noting
  cases run r.machine <;> rfl

theorem meet (h : Erases t run) (p : Place) (node : Node) : Erases (Traced.meet p node t) run :=
  ⟨fun _ => h.forget_eq _⟩

theorem note (h : Erases t run) (deed : Machine → Deed) :
    Erases (do Traced.note deed; t) run :=
  ⟨fun _ => h.forget_eq _⟩

theorem within (h : Erases t run) (frame : FrameId) :
    Erases (Traced.within frame t) (Run.within frame run) := by
  refine ⟨fun r => ?_⟩
  have hr := h.forget_eq (r.inside frame)
  unfold Traced.within Run.within
  rw [show ({ r.machine with active := frame } : Machine) = (r.inside frame).machine from rfl, ← hr]
  cases t (r.inside frame) <;> rfl

/-- What a run yields its recorded run yields as well. -/
theorem exists_ok (h : t.Erases run) {r : Record} {m : Machine} {a : α}
    (he : run r.machine = .ok a m) : ∃ r', t r = .ok a r' ∧ r'.machine = m := by
  have hrun := h.forget_eq r
  rw [he] at hrun
  cases ht : t r with
  | ok b r' =>
    rw [ht] at hrun
    cases hrun
    exact ⟨r', rfl, rfl⟩
  | error e r' =>
    rw [ht] at hrun
    cases hrun

/-- A run yields what its recorded run yields. -/
theorem run_eq (h : t.Erases run) {r r' : Record} {a : α} (he : t r = .ok a r') :
    run r.machine = .ok a r'.machine := by
  rw [← h.forget_eq r, he]
  rfl

/-- Looking up a place leaves no trace in the run. -/
theorem methodBody {next : Place → Traced α} (h : ∀ body, Erases (next body) run)
    (klass : Option Nat) (name : String) : Erases (Traced.methodBody klass name >>= next) run :=
  ⟨fun r => (h _).forget_eq r⟩

end Erases

/-- Without its notes, the recorded run is the given one, and no deed is among the notes. -/
structure Echoes {α : Type} (t : Traced α) (run : Run α) : Prop extends Erases t run where
  deeds_eq : ∀ r, match t r with
    | .ok _ r' => r'.deeds = r.deeds
    | .error _ r' => r'.deeds = r.deeds

namespace Echoes

variable {α β : Type} {t : Traced α} {run : Run α}

theorem pure (a : α) : Echoes (Pure.pure a) (Pure.pure a) := ⟨.pure a, fun _ => rfl⟩

theorem bind {next : α → Traced β} {next' : α → Run β} (h : Echoes t run)
    (hn : ∀ a, Echoes (next a) (next' a)) : Echoes (t >>= next) (run >>= next') := by
  refine ⟨h.toErases.bind fun a => (hn a).toErases, fun r => ?_⟩
  have hfirst := h.deeds_eq r
  rw [bind_apply]
  cases ht : t r with
  | error e r' =>
    rw [ht] at hfirst
    exact hfirst
  | ok a r' =>
    rw [ht] at hfirst
    have hnext := (hn a).deeds_eq r'
    simp only
    cases hb : next a r' with
    | ok b r'' =>
      rw [hb] at hnext
      exact hnext.trans hfirst
    | error e r'' =>
      rw [hb] at hnext
      exact hnext.trans hfirst

theorem lift (run : Run α) : Echoes (Traced.lift run) run := by
  refine ⟨.lift run, fun r => ?_⟩
  unfold Traced.lift
  cases run r.machine <;> rfl

theorem noting (run : Run α) {event : Record → α → Event} (he : ∀ r a, (event r a).deed? = none) :
    Echoes (Traced.noting run event) run := by
  refine ⟨.noting run event, fun r => ?_⟩
  unfold Traced.noting
  cases run r.machine with
  | ok a m => exact List.filterMap_cons_none (he r a)
  | error e m => rfl

/-- Looking up a place is no deed. -/
theorem methodBody {next : Place → Traced α} (h : ∀ body, Echoes (next body) run)
    (klass : Option Nat) (name : String) : Echoes (Traced.methodBody klass name >>= next) run :=
  ⟨.methodBody (fun body => (h body).toErases) klass name, fun r => (h _).deeds_eq r⟩

end Echoes

/-! ### Frames and objects -/

theorem openFrame_echoes (parent : FrameId) (opener : Option Opener) :
    Echoes (openFrame parent opener) (Run.newFrame parent) := .noting _ fun _ _ => rfl

theorem define_echoes (frame : FrameId) (opener : Option Opener) (name : String) (v : Value) :
    Echoes (define frame opener name v) (Run.define frame name v) := .noting _ fun _ _ => rfl

theorem defineAll_echoes (frame : FrameId) (opener : Option Opener)
    (entries : List (Token × Value)) :
    Echoes (defineAll frame opener entries) (Run.defineAll frame entries) := by
  induction entries with
  | nil => exact .pure ()
  | cons e rest ih => exact (define_echoes ..).bind fun _ => ih

theorem declare_echoes (p : Place) (name : Token) (v : Value) :
    Echoes (declare p name v) (do Run.define (← Run.activeFrame) name.lexeme v) :=
  (Echoes.lift _).bind fun _ => define_echoes ..

/-- A declaration in front of a run. -/
theorem declare_erases {α : Type} {t : Traced α} {run : Run α} (h : Erases t run) (p : Place)
    (name : Token) (v : Value) :
    Erases (do declare p name v; t) (do Run.define (← Run.activeFrame) name.lexeme v; run) := by
  have hboth := (declare_echoes p name v).toErases.bind fun _ => h
  rwa [bind_assoc] at hboth

theorem store_echoes (p : Place) (id : NodeId) (name : Token) (v : Value) :
    Echoes (store p id name v) (Run.store id name v) := .noting _ fun _ _ => rfl

theorem assign_echoes (p : Place) (name : Token) (v : Value) :
    Echoes (assign p name v) (Run.assign name v) := .noting _ fun _ _ => rfl

theorem newClosure_echoes (body : Place) (c : Closure) :
    Echoes (newClosure body c) (Run.newClosure c) := ⟨⟨fun _ => rfl⟩, fun _ => rfl⟩

theorem bindMethod_echoes (body : Place) (method : Closure) (object : Nat) :
    Echoes (bindMethod body method object) (Run.bindMethod method object) :=
  (openFrame_echoes ..).bind fun _ => (define_echoes ..).bind fun _ => .pure _

theorem boundMethod_echoes (klass : Option Nat) (object : Nat) (name : Token) :
    Echoes (boundMethod klass object name) (Run.boundMethod klass object name) := by
  refine (Echoes.lift _).bind fun c => ?_
  cases c with
  | none => exact .lift _
  | some c =>
    refine Echoes.methodBody (fun body => ?_) klass name.lexeme
    exact (bindMethod_echoes ..).bind fun _ => (newClosure_echoes ..).bind fun _ => .pure _

theorem property_echoes (object : Nat) (name : Token) :
    Echoes (property object name) (Run.property object name) := by
  refine (Echoes.lift _).bind fun v => ?_
  cases v with
  | some v => exact .pure v
  | none => exact (Echoes.lift _).bind fun _ => boundMethod_echoes ..

theorem superMethod_echoes (id : NodeId) (keyword method : Token) :
    Echoes (superMethod id keyword method) (Run.superMethod id keyword method) := by
  refine (Echoes.lift _).bind fun ⟨superclass, receiver⟩ => ?_
  cases superclass with
  | callable c =>
    cases c with
    | klass k =>
      cases receiver with
      | object i => exact boundMethod_echoes ..
      | _ => exact .lift _
    | _ => exact .lift _
  | _ => exact .lift _

theorem functionValue_echoes (p : Place) (f : FunDecl) :
    Echoes (functionValue p f) (Run.functionValue f) :=
  (Echoes.lift _).bind fun _ => (newClosure_echoes ..).bind fun _ => .pure _

theorem methodTable_echoes (frame : FrameId) (p : Place) (i : Nat) (fs : List FunDecl)
    (table : NameTable Nat) :
    Echoes (methodTable frame p i fs table) (Run.methodTable frame fs table) := by
  induction fs generalizing p i table with
  | nil => exact .pure table
  | cons f fs ih => exact (newClosure_echoes ..).bind fun _ => ih ..

theorem methodFrame_echoes (p : Place) (frame : FrameId) (superclass : Option Nat) :
    Echoes (methodFrame p frame superclass) (Run.methodFrame frame superclass) := by
  cases superclass with
  | none => exact .pure frame
  | some k => exact (openFrame_echoes ..).bind fun _ => (define_echoes ..).bind fun _ => .pure _

/-- A class is declared, which is a deed. -/
theorem declareClass_erases (p inner : Place) (name : Token) (superclass : Option Nat)
    (methods : List FunDecl) :
    Erases (declareClass p inner name superclass methods)
      (Run.declareClass name superclass methods) := by
  refine (Erases.lift _).bind fun frame => (define_echoes ..).toErases.bind fun _ => ?_
  refine (methodFrame_echoes ..).toErases.bind fun captured => ?_
  refine (methodTable_echoes ..).toErases.bind fun table => ?_
  exact (Erases.lift _).bind fun _ => (assign_echoes ..).toErases.note _

/-! ### Evaluation -/

/-- With some fuel, every recorded evaluation is one without notes. -/
structure AllErase (fuel : Nat) : Prop where
  evaluate : ∀ p e, Erases (evaluate fuel p e) (Run.evaluate fuel e)
  evaluateAll : ∀ p es, Erases (evaluateAll fuel p es) (Run.evaluateAll fuel es)
  invoke : ∀ c vs, Erases (invoke fuel c vs) (Run.invoke fuel c vs)
  invokeClosure : ∀ p c vs, Erases (invokeClosure fuel p c vs) (Run.invokeClosure fuel c vs)
  execute : ∀ p s, Erases (execute fuel p s) (Run.execute fuel s)
  executeAll : ∀ p i ss, Erases (executeAll fuel p i ss) (Run.executeAll fuel ss)
  repeatWhile : ∀ p e s, Erases (repeatWhile fuel p e s) (Run.repeatWhile fuel e s)

namespace AllErase

variable {fuel : Nat} (h : AllErase fuel)

include h

theorem evaluate_succ (p : Place) (e : Expr) :
    Erases (Traced.evaluate (fuel + 1) p e) (Run.evaluate (fuel + 1) e) := by
  cases e with
  | literal l => exact Erases.meet (.pure _) ..
  | grouping inner => exact (h.evaluate p inner).meet ..
  | unary operator right => exact ((h.evaluate p right).bind fun _ => .lift _).meet ..
  | binary left operator right =>
    exact ((h.evaluate p left).bind fun _ =>
      (h.evaluate _ right).bind fun _ => .lift _).meet ..
  | logical left operator right =>
    refine ((h.evaluate p left).bind fun a => ?_).meet ..
    split
    · exact .pure a
    · exact h.evaluate _ right
  | var id name => exact (Erases.lift _).meet ..
  | thisRef id keyword => exact (Erases.lift _).meet ..
  | assign id name value =>
    exact ((h.evaluate p value).bind fun v =>
      (store_echoes ..).toErases.bind fun _ => .pure v).meet ..
  | call callee paren arguments =>
    refine ((h.evaluate p callee).bind fun f =>
      (h.evaluateAll _ arguments).bind fun vs => ?_).meet ..
    cases f with
    | callable c =>
      refine (Erases.lift _).bind fun arity => ?_
      split
      · exact h.invoke c vs
      · exact .lift _
    | _ => exact .lift _
  | get object name =>
    refine ((h.evaluate p object).bind fun v => ?_).meet ..
    cases v with
    | object i => exact (property_echoes i name).toErases.note _
    | _ => exact .lift _
  | set object name value =>
    refine ((h.evaluate _ object).bind fun v => ?_).meet ..
    cases v with
    | object i =>
      exact (h.evaluate p value).bind fun v => (Erases.lift _).bind fun _ => (Erases.pure v).note _
    | _ => exact .lift _
  | superRef id keyword method => exact (superMethod_echoes id keyword method).toErases.meet ..

theorem evaluateAll_succ (p : Place) (es : List Expr) :
    Erases (Traced.evaluateAll (fuel + 1) p es) (Run.evaluateAll (fuel + 1) es) := by
  cases es with
  | nil => exact .pure []
  | cons e es =>
    exact (h.evaluate p e).bind fun _ => (h.evaluateAll _ es).bind fun _ => .pure _

theorem invoke_succ (c : Callable) (vs : List Value) :
    Erases (Traced.invoke (fuel + 1) c vs) (Run.invoke (fuel + 1) c vs) := by
  cases c with
  | native id =>
    exact (Erases.lift _).bind fun _ => (Erases.lift _).bind fun _ => .lift _
  | closure id =>
    exact (Erases.lift _).bind fun _ => (Erases.lift _).bind fun c =>
      ⟨fun r => (h.invokeClosure (r.bodies id) c vs).forget_eq r⟩
  | klass k =>
    refine (Erases.lift _).bind fun object => (Erases.lift _).bind fun c => ?_
    cases c with
    | none => exact .pure _
    | some c =>
      refine Erases.methodBody (fun body => ?_) (some k) initializerName
      exact (bindMethod_echoes ..).toErases.bind fun c =>
        (h.invokeClosure body c vs).bind fun _ => .pure _

theorem invokeClosure_succ (p : Place) (c : Closure) (vs : List Value) :
    Erases (Traced.invokeClosure (fuel + 1) p c vs) (Run.invokeClosure (fuel + 1) c vs) := by
  refine (openFrame_echoes ..).toErases.bind fun frame =>
    (defineAll_echoes ..).toErases.bind fun _ => ?_
  refine ((h.executeAll p 0 c.declaration.body).within frame).bind fun signal => ?_
  split
  · exact .lift _
  · cases signal with
    | returned v => exact .pure v
    | normal => exact .pure _

theorem execute_succ (p : Place) (s : Stmt) :
    Erases (Traced.execute (fuel + 1) p s) (Run.execute (fuel + 1) s) := by
  cases s with
  | expression e => exact ((h.evaluate p e).bind fun _ => .pure _).meet ..
  | print e =>
    exact ((h.evaluate p e).bind fun _ =>
      (Erases.lift _).bind fun _ => (Erases.lift _).bind fun _ => .pure _).meet ..
  | varDecl name initializer =>
    cases initializer with
    | none => exact (declare_erases (.pure _) p name .nil).meet ..
    | some e =>
      exact ((h.evaluate _ e).bind fun v => declare_erases (.pure _) p name v).meet ..
  | block body =>
    exact ((Erases.lift _).bind fun _ => (openFrame_echoes ..).toErases.bind fun frame =>
      (h.executeAll p.block 0 body).within frame).meet ..
  | branch condition thenBranch elseBranch =>
    refine ((h.evaluate p condition).bind fun v => ?_).meet ..
    split
    · exact h.execute _ thenBranch
    · cases elseBranch with
      | some s => exact h.execute _ s
      | none => exact .pure _
  | loop condition body => exact (h.repeatWhile p condition body).meet ..
  | function f =>
    exact ((functionValue_echoes p f).toErases.bind fun v =>
      declare_erases (.pure _) p f.name v).meet ..
  | ret keyword value =>
    cases value with
    | none => exact Erases.meet (.pure _) ..
    | some e => exact ((h.evaluate _ e).bind fun _ => .pure _).meet ..
  | classDecl name superclass methods =>
    cases superclass with
    | none => exact ((declareClass_erases ..).bind fun _ => .pure _).meet ..
    | some e =>
      exact ((h.evaluate _ e).bind fun _ => (Erases.lift _).bind fun _ =>
        (declareClass_erases ..).bind fun _ => .pure _).meet ..

theorem executeAll_succ (p : Place) (i : Nat) (ss : List Stmt) :
    Erases (Traced.executeAll (fuel + 1) p i ss) (Run.executeAll (fuel + 1) ss) := by
  cases ss with
  | nil => exact .pure _
  | cons s ss =>
    refine (h.execute _ s).bind fun signal => ?_
    cases signal with
    | normal => exact h.executeAll _ _ ss
    | returned v => exact .pure _

theorem repeatWhile_succ (p : Place) (e : Expr) (s : Stmt) :
    Erases (Traced.repeatWhile (fuel + 1) p e s) (Run.repeatWhile (fuel + 1) e s) := by
  refine (h.evaluate p e).bind fun v => ?_
  split
  · refine (h.execute _ s).bind fun signal => ?_
    cases signal with
    | normal => exact h.repeatWhile p e s
    | returned v => exact .pure _
  · exact .pure _

end AllErase

theorem allErase (fuel : Nat) : AllErase fuel := by
  induction fuel with
  | zero =>
    constructor
    · intro p e
      rw [Traced.evaluate, Run.evaluate]
      exact .lift _
    · intro p es
      rw [Traced.evaluateAll, Run.evaluateAll]
      exact .lift _
    · intro c vs
      rw [Traced.invoke, Run.invoke]
      exact .lift _
    · intro p c vs
      rw [Traced.invokeClosure, Run.invokeClosure]
      exact .lift _
    · intro p s
      rw [Traced.execute, Run.execute]
      exact .lift _
    · intro p i ss
      rw [Traced.executeAll, Run.executeAll]
      exact .lift _
    · intro p e s
      rw [Traced.repeatWhile, Run.repeatWhile]
      exact .lift _
  | succ fuel ih =>
    exact ⟨ih.evaluate_succ, ih.evaluateAll_succ, ih.invoke_succ, ih.invokeClosure_succ,
      ih.execute_succ, ih.executeAll_succ, ih.repeatWhile_succ⟩

/-- The recorded evaluation of an expression at a place is its evaluation. -/
theorem evaluate_erases (fuel : Nat) (p : Place) (e : Expr) :
    Erases (evaluate fuel p e) (Run.evaluate fuel e) :=
  (allErase fuel).evaluate p e

theorem execute_erases (fuel : Nat) (p : Place) (s : Stmt) :
    Erases (execute fuel p s) (Run.execute fuel s) :=
  (allErase fuel).execute p s

/-! ### Programs -/

theorem runAll_erases (fuel : Nat) (p : Place) (i : Nat) (ss : List Stmt) :
    Erases (runAll fuel p i ss) (Run.runAll fuel ss) := by
  induction ss generalizing p i with
  | nil => exact .pure ()
  | cons s ss ih => exact (execute_erases fuel _ s).bind fun _ => ih ..

theorem thenFlush_erases {t : Traced Unit} {run : Run Unit} (h : Erases t run) :
    Erases (thenFlush t) (Run.thenFlush run) := by
  refine ⟨fun r => ?_⟩
  unfold thenFlush Run.thenFlush
  rw [← h.forget_eq r]
  cases t r with
  | ok u r' => exact (Erases.lift Run.flush).forget_eq r'
  | error halt r' =>
    have hf := (Erases.lift Run.flush).forget_eq r'
    simp only [forget]
    rw [← hf]
    cases lift Run.flush r' <;> rfl

theorem interpret_erases (fuel source : Nat) (program : List Stmt) (distances : Distances) :
    Erases (interpret fuel source program distances) (Run.interpret fuel program distances) :=
  (Erases.lift _).bind fun _ => thenFlush_erases (runAll_erases ..)

end Traced

namespace Session

theorem traceOne_erases (fuel source : Nat) (text : String) (r : Record) (s : Session)
    (hr : r.machine = s.machine) :
    ((traceOne fuel source text r s.nextId).1.machine, (traceOne fuel source text r s.nextId).2) =
      ((s.run fuel text).2.machine, (s.run fuel text).2.nextId) := by
  unfold traceOne Session.run
  simp only
  cases (check text s.nextId).result with
  | error faults => rw [hr]
  | ok p =>
    have he := (Traced.interpret_erases fuel source p.statements p.distances).forget_eq
      { r with machine := r.machine.clearOutput }
    unfold runProgram
    simp only at he ⊢
    rw [← hr, ← he]
    cases Traced.interpret fuel source p.statements p.distances
      { r with machine := r.machine.clearOutput } <;> rfl

theorem traceFrom_erases (fuel : Nat) (sources : List String) (i : Nat) (r : Record) (s : Session)
    (hr : r.machine = s.machine) :
    ((traceFrom fuel i r s.nextId sources).1.machine, (traceFrom fuel i r s.nextId sources).2) =
      ((s.runEach fuel sources).machine, (s.runEach fuel sources).nextId) := by
  induction sources generalizing i r s with
  | nil => exact Prod.ext hr rfl
  | cons text texts ih =>
    obtain ⟨hm, hn⟩ := Prod.mk.inj (traceOne_erases fuel i text r s hr)
    have := ih (i + 1) (traceOne fuel i text r s.nextId).1 (s.run fuel text).2 hm
    rw [← hn] at this
    exact this

/-- The machine of a recorded session is that of the session. -/
theorem trace_erases (fuel : Nat) (m : Machine) (sources : List String) :
    (trace fuel m sources).machine = ((Session.start m).runEach fuel sources).machine :=
  (Prod.mk.inj (traceFrom_erases fuel sources 0 (.start m) (.start m) rfl)).1

end Session

end Lox
