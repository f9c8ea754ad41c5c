/-
Growing machines.

However a run ends, the machine behind it has all frames, links and variables that it had before,
and the program is in the same frame.

* `Machine.Grows` — nothing that a frame has is lost, and the frame and the distances stay;
* `AllGrow` — the same for each of the functions of the evaluation, with some fuel;
* `evaluate_grows`, `execute_grows`, `runAll_grows` — with any fuel, on any machine.

Design notes: nothing is asked of the machine or of the program, so that the lemmas hold of
machines that no session leads to as well.
-/
import Lox.Proofs.Store.Growth
import Lox.Run.Program

namespace Lox

/-- What a run may make of a machine. -/
structure Machine.Grows (m m' : Machine) : Prop where
  parent : ∀ f parent, m.frames.parent? f = some parent → m'.frames.parent? f = some parent
  defines : ∀ f x, m.frames.defines f x = true → m'.frames.defines f x = true
  active : m'.active = m.active
  distances : m'.distances = m.distances
  sound : m.sink = .sound → m'.sink = .sound

namespace Machine.Grows

variable {m m' m'' : Machine}

theorem refl (m : Machine) : m.Grows m := ⟨fun _ _ h => h, fun _ _ h => h, rfl, rfl, id⟩

theorem trans (h : m.Grows m') (h' : m'.Grows m'') : m.Grows m'' where
  parent f parent hp := h'.parent f parent (h.parent f parent hp)
  defines f x hd := h'.defines f x (h.defines f x hd)
  active := h'.active.trans h.active
  distances := h'.distances.trans h.distances
  sound hs := h'.sound (h.sound hs)

/-- Objects, what was printed and the clock may change in any way. -/
theorem of_eq (hf : m'.frames = m.frames) (ha : m'.active = m.active)
    (hd : m'.distances = m.distances) (hs : m.sink = .sound → m'.sink = .sound) : m.Grows m' :=
  ⟨fun f parent hp => by rw [hf]; exact hp, fun f x hx => by rw [hf]; exact hx, ha, hd, hs⟩

theorem push (m : Machine) (parent : FrameId) :
    m.Grows { m with frames := m.frames.push (some parent) } where
  parent _ _ hp := m.frames.parent?_push_of_some _ hp
  defines _ _ hd := (m.frames.defines_push ..).trans hd
  active := rfl
  distances := rfl
  sound := id

theorem define (m : Machine) (f : FrameId) (x : String) (v : Value) :
    m.Grows { m with frames := m.frames.define f x v } where
  parent g parent hp := by
    show (m.frames.define f x v).parent? g = some parent
    rw [Frames.parent?_define, hp]
  defines g y hd := by
    by_cases hf : f < m.frames.size
    · exact m.frames.defines_define hf x v hd
    · show (m.frames.define f x v).defines g y = true
      rwa [m.frames.define_of_size_le (Nat.le_of_not_lt hf)]
  active := rfl
  distances := rfl
  sound := id

/-- The frame a number of links out stays where it is. -/
theorem ancestor? (h : m.Grows m') {f g : FrameId} {d : Nat}
    (ha : m.frames.ancestor? f d = some g) : m'.frames.ancestor? f d = some g := by
  induction d generalizing f with
  | zero => exact ha
  | succ d ih =>
    cases hp : m.frames.parent? f with
    | none =>
      rw [Frames.ancestor?, hp] at ha
      cases ha
    | some parent =>
      rw [Frames.ancestor?_succ _ hp] at ha
      rw [Frames.ancestor?_succ _ (h.parent f parent hp)]
      exact ih ha

end Machine.Grows

namespace Run

/-- However the run ends, the machine has grown. -/
structure Grows {α : Type} (run : Run α) : Prop where
  after : ∀ m, match run m with
    | .ok _ m' => m.Grows m'
    | .error _ m' => m.Grows m'

namespace Grows

variable {α β : Type} {run : Run α}

theorem ok (h : run.Grows) {m m' : Machine} {a : α} (he : run m = .ok a m') : m.Grows m' := by
  have hm := h.after m
  rw [he] at hm
  exact hm

theorem error (h : run.Grows) {m m' : Machine} {e : Halt} (he : run m = .error e m') :
    m.Grows m' := by
  have hm := h.after m
  rw [he] at hm
  exact hm

theorem pure (a : α) : Grows (Pure.pure a) := ⟨fun m => .refl m⟩

theorem halt (e : Halt) : Grows (Run.halt e : Run α) := ⟨fun m => .refl m⟩

theorem raise (line : Nat) (fault : RuntimeFault) : Grows (Run.raise line fault : Run α) :=
  halt _

theorem bind {next : α → Run β} (h : run.Grows) (hn : ∀ a, (next a).Grows) :
    (run >>= next).Grows := by
  refine ⟨fun m => ?_⟩
  rw [bind_apply]
  cases he : run m with
  | error e m' => exact h.error he
  | ok a m' =>
    have hm := h.ok he
    simp only
    cases hb : next a m' with
    | ok b m'' => exact hm.trans ((hn a).ok hb)
    | error e m'' => exact hm.trans ((hn a).error hb)

theorem within (h : run.Grows) (frame : FrameId) : (Run.within frame run).Grows := by
  refine ⟨fun m => ?_⟩
  unfold Run.within
  cases he : run { m with active := frame } with
  | ok a m' =>
    have hm := h.ok he
    exact ⟨hm.parent, hm.defines, rfl, hm.distances, hm.sound⟩
  | error e m' =>
    have hm := h.error he
    exact ⟨hm.parent, hm.defines, rfl, hm.distances, hm.sound⟩

/-! ### Frames -/

theorem ofExcept (x : Except Diagnostic α) : (Run.ofExcept x).Grows := by
  cases x with
  | ok a => exact pure a
  | error d => exact halt _

theorem ofOption (x : Option α) : (Run.ofOption x).Grows := by
  cases x with
  | some a => exact pure a
  | none => exact halt _

theorem newFrame (parent : FrameId) : (Run.newFrame parent).Grows :=
  ⟨fun m => .push m parent⟩

theorem activeFrame : Run.activeFrame.Grows := ⟨fun m => .refl m⟩

theorem define (frame : FrameId) (name : String) (v : Value) :
    (Run.define frame name v).Grows := ⟨fun m => .define m frame name v⟩

theorem defineAll (frame : FrameId) (entries : List (Token × Value)) :
    (Run.defineAll frame entries).Grows := by
  induction entries with
  | nil => exact pure ()
  | cons e rest ih => exact (define ..).bind fun _ => ih

theorem getAt (frame : FrameId) (d : Nat) (name : String) (line : Nat) :
    (Run.getAt frame d name line).Grows :=
  ⟨fun m => (ofExcept _).after m⟩

theorem lookUp (id : NodeId) (name : Token) : (Run.lookUp id name).Grows :=
  ⟨fun m => (ofExcept _).after m⟩

theorem assignIn (frame : Option FrameId) (name : Token) (v : Value) :
    (Run.assignIn frame name v).Grows := by
  cases frame with
  | some f => exact ⟨fun m => .define m f name.lexeme v⟩
  | none => exact ⟨fun m => .refl m⟩

theorem store (id : NodeId) (name : Token) (v : Value) : (Run.store id name v).Grows := by
  refine ⟨fun m => ?_⟩
  unfold Run.store
  cases m.distances.find? id with
  | some d => exact (assignIn _ name v).after m
  | none => exact (assignIn _ name v).after m

theorem assign (name : Token) (v : Value) : (Run.assign name v).Grows :=
  ⟨fun m => (assignIn _ name v).after m⟩

/-! ### Objects and output -/

theorem ofObjects (f : Objects → α) : (Run.ofObjects f).Grows := ⟨fun m => .refl m⟩

theorem newClosure (c : Closure) : (Run.newClosure c).Grows :=
  ⟨fun _ => .of_eq rfl rfl rfl id⟩

theorem newClass (c : ClassObject) : (Run.newClass c).Grows :=
  ⟨fun _ => .of_eq rfl rfl rfl id⟩

theorem newInstance (klass : Nat) : (Run.newInstance klass).Grows :=
  ⟨fun _ => .of_eq rfl rfl rfl id⟩

theorem setField (object : Nat) (name : String) (v : Value) :
    (Run.setField object name v).Grows :=
  ⟨fun _ => .of_eq rfl rfl rfl id⟩

theorem bindMethod (method : Closure) (object : Nat) : (Run.bindMethod method object).Grows :=
  (newFrame _).bind fun _ => (define ..).bind fun _ => pure _

theorem bound (method : Closure) (object : Nat) : (Run.bound method object).Grows :=
  (bindMethod ..).bind fun _ => (newClosure _).bind fun _ => pure _

theorem callNative (n : Native) (arguments : List Value) : (Run.callNative n arguments).Grows := by
  refine ⟨fun m => ?_⟩
  have hm : m.Grows { m with readings := m.readings + 1 } := .of_eq rfl rfl rfl id
  unfold Run.callNative
  cases n.run (m.clock m.readings) arguments with
  | ok v => exact hm
  | error d => exact hm

theorem write (text : String) : (Run.write text).Grows := by
  refine ⟨fun m => ?_⟩
  unfold Run.write
  by_cases ht : text.isEmpty = true
  · rw [if_pos ht]
    exact .refl m
  · rw [if_neg ht]
    cases m.sink.answer.cut? text with
    | some _ => exact .of_eq rfl rfl rfl fun hs => congrArg Sink.next hs
    | none => exact .of_eq rfl rfl rfl fun hs => congrArg Sink.next hs

theorem flush : Run.flush.Grows := by
  refine ⟨fun m => ?_⟩
  unfold Run.flush
  cases m.sink.answer.flushFault? with
  | some _ => exact .of_eq rfl rfl rfl fun hs => congrArg Sink.next hs
  | none => exact .of_eq rfl rfl rfl fun hs => congrArg Sink.next hs

theorem thenFlush {run : Run Unit} (h : run.Grows) : (Run.thenFlush run).Grows := by
  refine ⟨fun m => ?_⟩
  unfold Run.thenFlush
  cases he : run m with
  | ok _ m' =>
    have hm := h.ok he
    simp only
    cases hf : Run.flush m' with
    | ok _ m'' => exact hm.trans (flush.ok hf)
    | error e m'' => exact hm.trans (flush.error hf)
  | error e m' =>
    have hm := h.error he
    simp only
    cases hf : Run.flush m' with
    | ok _ m'' => exact hm.trans (flush.ok hf)
    | error fault m'' => exact hm.trans (flush.error hf)

/-! ### Operators, properties and declarations -/

theorem applyUnary (operator : Token) (v : Value) : (Run.applyUnary operator v).Grows := by
  unfold Run.applyUnary
  split
  · split
    · exact pure _
    · exact raise ..
  · exact pure _
  · exact halt _

theorem applyBinary (operator : Token) (a b : Value) : (Run.applyBinary operator a b).Grows := by
  unfold Run.applyBinary
  split
  · unfold Run.add
    split
    · exact pure _
    · exact pure _
    · exact raise ..
  · exact pure _
  · exact pure _
  · split
    · unfold Run.applyNumeric
      split <;> first | exact pure _ | exact halt _
    · exact raise ..

theorem boundMethod (klass : Option Nat) (object : Nat) (name : Token) :
    (Run.boundMethod klass object name).Grows := by
  refine (ofObjects _).bind fun c => ?_
  cases c with
  | some c => exact bound c object
  | none => exact raise ..

theorem property (object : Nat) (name : Token) : (Run.property object name).Grows := by
  refine (ofObjects _).bind fun v => ?_
  cases v with
  | some v => exact pure v
  | none => exact (ofObjects _).bind fun _ => boundMethod ..

theorem superReference (id : NodeId) (keyword : Token) :
    (Run.superReference id keyword).Grows := by
  refine bind ⟨fun m => ?_⟩ fun _ => activeFrame.bind fun _ => (getAt ..).bind fun _ =>
    (getAt ..).bind fun _ => pure _
  cases m.distances.find? id with
  | some d => exact .refl m
  | none => exact .refl m

theorem superMethod (id : NodeId) (keyword method : Token) :
    (Run.superMethod id keyword method).Grows := by
  refine (superReference ..).bind fun found => ?_
  split
  · exact boundMethod ..
  · exact raise ..

theorem functionValue (f : FunDecl) : (Run.functionValue f).Grows :=
  activeFrame.bind fun _ => (newClosure _).bind fun _ => pure _

theorem methodTable (frame : FrameId) (fs : List FunDecl) (table : NameTable Nat) :
    (Run.methodTable frame fs table).Grows := by
  induction fs generalizing table with
  | nil => exact pure table
  | cons f fs ih => exact (newClosure _).bind fun _ => ih _

theorem methodFrame (frame : FrameId) (superclass : Option Nat) :
    (Run.methodFrame frame superclass).Grows := by
  cases superclass with
  | none => exact pure frame
  | some k => exact (newFrame _).bind fun _ => (define ..).bind fun _ => pure _

theorem declareClass (name : Token) (superclass : Option Nat) (methods : List FunDecl) :
    (Run.declareClass name superclass methods).Grows :=
  activeFrame.bind fun _ => (define ..).bind fun _ => (methodFrame ..).bind fun _ =>
    (methodTable ..).bind fun _ => (newClass _).bind fun _ => assign ..

theorem asSuperclass (name : Token) (v : Value) : (Run.asSuperclass name v).Grows := by
  unfold Run.asSuperclass
  split
  · exact pure _
  · exact raise ..

end Grows

/-! ### Evaluation -/

/-- With some fuel, the machine grows in every evaluation. -/
structure AllGrow (fuel : Nat) : Prop where
  evaluate : ∀ e, (evaluate fuel e).Grows
  evaluateAll : ∀ es, (evaluateAll fuel es).Grows
  invoke : ∀ c vs, (invoke fuel c vs).Grows
  invokeClosure : ∀ c vs, (invokeClosure fuel c vs).Grows
  execute : ∀ s, (execute fuel s).Grows
  executeAll : ∀ ss, (executeAll fuel ss).Grows
  repeatWhile : ∀ e s, (repeatWhile fuel e s).Grows

namespace AllGrow

variable {fuel : Nat} (h : AllGrow fuel)

include h

theorem evaluate_succ (e : Expr) : (Run.evaluate (fuel + 1) e).Grows := by
  rw [Run.evaluate.eq_def]
  cases e with
  | literal l => exact .pure _
  | grouping inner => exact h.evaluate inner
  | unary operator right => exact (h.evaluate right).bind fun _ => .applyUnary ..
  | binary left operator right =>
    exact (h.evaluate left).bind fun _ => (h.evaluate right).bind fun _ => .applyBinary ..
  | logical left operator right =>
    refine (h.evaluate left).bind fun a => ?_
    split
    · exact .pure a
    · exact h.evaluate right
  | var id name => exact .lookUp id name
  | thisRef id keyword => exact .lookUp id keyword
  | assign id name value =>
    exact (h.evaluate value).bind fun v => (Grows.store ..).bind fun _ => .pure v
  | call callee paren arguments =>
    refine (h.evaluate callee).bind fun f => (h.evaluateAll arguments).bind fun vs => ?_
    split
    · refine (Grows.ofObjects _).bind fun arity => ?_
      split
      · exact h.invoke ..
      · exact .raise ..
    · exact .raise ..
  | get object name =>
    refine (h.evaluate object).bind fun v => ?_
    split
    · exact .property ..
    · exact .raise ..
  | set object name value =>
    refine (h.evaluate object).bind fun v => ?_
    split
    · exact (h.evaluate value).bind fun v => (Grows.setField ..).bind fun _ => .pure v
    · exact .raise ..
  | superRef id keyword method => exact .superMethod id keyword method

theorem evaluateAll_succ (es : List Expr) : (Run.evaluateAll (fuel + 1) es).Grows := by
  cases es with
  | nil => exact .pure []
  | cons e es =>
    exact (h.evaluate e).bind fun _ => (h.evaluateAll es).bind fun _ => .pure _

theorem invoke_succ (c : Callable) (vs : List Value) : (Run.invoke (fuel + 1) c vs).Grows := by
  cases c with
  | native id =>
    exact (Grows.ofObjects _).bind fun _ => (Grows.ofOption _).bind fun _ => .callNative ..
  | closure id =>
    exact (Grows.ofObjects _).bind fun _ => (Grows.ofOption _).bind fun _ => h.invokeClosure ..
  | klass k =>
    refine (Grows.newInstance k).bind fun object => (Grows.ofObjects _).bind fun c => ?_
    cases c with
    | none => exact .pure _
    | some c =>
      exact (Grows.bindMethod ..).bind fun _ => (h.invokeClosure ..).bind fun _ => .pure _

theorem invokeClosure_succ (c : Closure) (vs : List Value) :
    (Run.invokeClosure (fuel + 1) c vs).Grows := by
  refine (Grows.newFrame _).bind fun frame => (Grows.defineAll ..).bind fun _ => ?_
  refine ((h.executeAll _).within frame).bind fun signal => ?_
  split
  · exact .getAt ..
  · split
    · exact .pure _
    · exact .pure _

theorem execute_succ (s : Stmt) : (Run.execute (fuel + 1) s).Grows := by
  rw [Run.execute.eq_def]
  cases s with
  | expression e => exact (h.evaluate e).bind fun _ => .pure _
  | print e =>
    exact (h.evaluate e).bind fun _ => (Grows.ofObjects _).bind fun _ =>
      (Grows.write _).bind fun _ => .pure _
  | varDecl name initializer =>
    cases initializer with
    | none => exact Grows.activeFrame.bind fun _ => (Grows.define ..).bind fun _ => .pure _
    | some e =>
      exact (h.evaluate e).bind fun _ => Grows.activeFrame.bind fun _ =>
        (Grows.define ..).bind fun _ => .pure _
  | block body =>
    exact Grows.activeFrame.bind fun _ => (Grows.newFrame _).bind fun frame =>
      (h.executeAll body).within frame
  | branch condition thenBranch elseBranch =>
    refine (h.evaluate condition).bind fun v => ?_
    split
    · exact h.execute thenBranch
    · split
      · exact h.execute _
      · exact .pure _
  | loop condition body => exact h.repeatWhile condition body
  | function f =>
    exact (Grows.functionValue f).bind fun _ => Grows.activeFrame.bind fun _ =>
      (Grows.define ..).bind fun _ => .pure _
  | ret keyword value =>
    cases value with
    | none => exact .pure _
    | some e => exact (h.evaluate e).bind fun _ => .pure _
  | classDecl name superclass methods =>
    cases superclass with
    | none => exact (Grows.declareClass ..).bind fun _ => .pure _
    | some e =>
      exact (h.evaluate e).bind fun _ => (Grows.asSuperclass ..).bind fun _ =>
        (Grows.declareClass ..).bind fun _ => .pure _

theorem executeAll_succ (ss : List Stmt) : (Run.executeAll (fuel + 1) ss).Grows := by
  cases ss with
  | nil => exact .pure _
  | cons s ss =>
    refine (h.execute s).bind fun signal => ?_
    cases signal with
    | normal => exact h.executeAll ss
    | returned v => exact .pure _

theorem repeatWhile_succ (e : Expr) (s : Stmt) : (Run.repeatWhile (fuel + 1) e s).Grows := by
  refine (h.evaluate e).bind fun v => ?_
  split
  · refine (h.execute s).bind fun signal => ?_
    cases signal with
    | normal => exact h.repeatWhile e s
    | returned v => exact .pure _
  · exact .pure _

end AllGrow

theorem allGrow (fuel : Nat) : AllGrow fuel := by
  induction fuel with
  | zero =>
    constructor
    · intro e
      rw [Run.evaluate]
      exact .halt _
    · intro es
      rw [Run.evaluateAll]
      exact .halt _
    · intro c vs
      rw [Run.invoke]
      exact .halt _
    · intro c vs
      rw [Run.invokeClosure]
      exact .halt _
    · intro s
      rw [Run.execute]
      exact .halt _
    · intro ss
      rw [Run.executeAll]
      exact .halt _
    · intro e s
      rw [Run.repeatWhile]
      exact .halt _
  | succ fuel ih =>
    exact ⟨ih.evaluate_succ, ih.evaluateAll_succ, ih.invoke_succ, ih.invokeClosure_succ,
      ih.execute_succ, ih.executeAll_succ, ih.repeatWhile_succ⟩

/-- However the evaluation of an expression ends, the machine has grown. -/
theorem evaluate_grows (fuel : Nat) (e : Expr) : (evaluate fuel e).Grows :=
  (allGrow fuel).evaluate e

/-- However the execution of a statement ends, the machine has grown. -/
theorem execute_grows (fuel : Nat) (s : Stmt) : (execute fuel s).Grows :=
  (allGrow fuel).execute s

/-- However the run of a program ends, the machine has grown. -/
theorem runAll_grows (fuel : Nat) (ss : List Stmt) : (runAll fuel ss).Grows := by
  induction ss with
  | nil => exact .pure ()
  | cons s ss ih => exact (execute_grows fuel s).bind fun _ => ih

end Run

end Lox
