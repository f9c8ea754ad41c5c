/-
Recorded runs.

A recorded run does what the evaluation of a program does, and notes what happens: each node that
is met, with its place and the machine at that moment, each frame that is opened, with the
construct that opens it, each write to a variable, with the cell that is meant, and what the program
does to its classes and instances.  What is meant is read off the program alone: the cell of an
assignment is that of the declaration which is visible at its place, in the frame that is as many
links out as regions lie between.

* `ClassBody`, `Deed` — a class as it was declared, and what a program does
  to classes and instances;
* `Record` — a machine together with what was noted;
* `Traced` — a change of a record that yields a value or halts;
* `Traced.evaluate`, `Traced.execute` — the evaluation of nodes at their places;
* `Session.trace` — the record of a session.

Design notes: a closure keeps no place, as its declaration may stand anywhere.  The record holds the
place of the body of every closure beside the machine.  That a recorded run is the run of the
program, with notes, is shown in `Erasure`.
-/
import Lox.Proofs.Run.Place
import Lox.Session

namespace Lox

/-- What is evaluated. -/
inductive Node where
  | expression (e : Expr)
  | statement (s : Stmt)

/-- A variable of one activation: its frame, the construct that opened the frame (none for the
globals), and its name. -/
structure Cell where
  activation : FrameId
  opener : Option Opener
  name : String
deriving DecidableEq

/-- A class as it was declared. -/
structure ClassBody where
  name : String
  superclass : Option Nat
  methods : List FunDecl
  /-- the frame in which it was declared -/
  scope : FrameId

/-- What a program does to its classes and instances. -/
inductive Deed where
  /-- a class is declared, and made under a number -/
  | declared (klass : Nat) (body : ClassBody)
  /-- a value is assigned to a property of an instance -/
  | assigned (object : Nat) (name : String) (v : Value)
  /-- the machine of a moment -/
  | moment (machine : Machine)

/-- What happens in a run. -/
inductive Event where
  /-- a node is about to be evaluated at a place, on a machine -/
  | met (place : Place) (node : Node) (machine : Machine)
  /-- a frame is made for a construct -/
  | opened (frame : FrameId) (opener : Option Opener)
  /-- a cell gets a value -/
  | wrote (cell : Cell) (v : Value)
  /-- something is done to the classes and instances -/
  | did (deed : Deed)

/-- The value that was last written to a cell; the latest event is the first one. -/
def lastWritten : List Event → Cell → Option Value
  | [], _ => none
  | .wrote c v :: log, cell => if c = cell then some v else lastWritten log cell
  | .met .. :: log, cell => lastWritten log cell
  | .opened .. :: log, cell => lastWritten log cell
  | .did _ :: log, cell => lastWritten log cell

/-- A machine and what was noted while it ran. -/
structure Record where
  machine : Machine
  /-- the place of the body of each closure -/
  bodies : Nat → Place
  /-- the events, the latest first -/
  log : List Event

/-- What an event tells of the classes and instances; a node is met at a moment. -/
def Event.deed? : Event → Option Deed
  | .met _ _ m => some (.moment m)
  | .did deed => some deed
  | .opened .. | .wrote .. => none

/-- The deeds that were noted, the latest first. -/
def Record.deeds (r : Record) : List Deed :=
  r.log.filterMap Event.deed?

/-- The construct that opens the region a number of regions out. -/
def Place.openerAt (p : Place) (distance : Nat) : Option Opener :=
  p.around.openerAt distance

namespace Record

/-- A record in which nothing has been noted. -/
def start (m : Machine) : Record := ⟨m, fun _ => .top 0, []⟩

/-- The record inside of another frame. -/
def inside (r : Record) (frame : FrameId) : Record :=
  { r with machine := { r.machine with active := frame } }

/-- The cell of a name that is declared at a place. -/
def ownCell (r : Record) (p : Place) (name : String) : Cell :=
  ⟨r.machine.active, p.openerAt 0, name⟩

/-- The cell of the declaration that is visible under a name at a place. -/
def visibleCell (r : Record) (p : Place) (name : String) : Cell :=
  match p.around.distance? name with
  | some d => ⟨(r.machine.frames.ancestor? r.machine.active d).getD globals, p.openerAt d, name⟩
  | none => ⟨globals, none, name⟩

/-- The place of the body of a method. -/
def methodBody (r : Record) (klass : Option Nat) (name : String) : Place :=
  r.bodies ((klass.bind fun k => r.machine.objects.method? k name).getD 0)

end Record

/-- A change of a record that yields a value or halts. -/
abbrev Traced (α : Type) : Type :=
  EStateM Halt Record α

namespace Traced

/-- A recorded run goes on where the one before it has ended, unless that one halts. -/
theorem bind_apply {α β : Type} (t : Traced α) (next : α → Traced β) (r : Record) :
    (t >>= next) r = match t r with
      | .ok a r' => next a r'
      | .error h r' => .error h r' := by
  simp only [bind, EStateM.bind]
  cases t r <;> rfl

/-- Runs something of which nothing is noted. -/
def lift {α : Type} (run : Run α) : Traced α := fun r =>
  match run r.machine with
  | .ok a m => .ok a { r with machine := m }
  | .error h m => .error h { r with machine := m }

/-- Runs something and notes an event, unless it halts. -/
def noting {α : Type} (run : Run α) (event : Record → α → Event) : Traced α := fun r =>
  match run r.machine with
  | .ok a m => .ok a { r with machine := m, log := event r a :: r.log }
  | .error h m => .error h { r with machine := m }

/-- Meets a node before it is evaluated. -/
def meet {α : Type} (p : Place) (node : Node) (t : Traced α) : Traced α := fun r =>
  t { r with log := .met p node r.machine :: r.log }

/-- Notes a deed, on the machine of that moment. -/
def note (deed : Machine → Deed) : Traced Unit := fun r =>
  .ok () { r with log := .did (deed r.machine) :: r.log }

/-- Runs inside of a frame and comes back to the frame before, however the run ends. -/
def within {α : Type} (frame : FrameId) (t : Traced α) : Traced α := fun r =>
  match t (r.inside frame) with
  | .ok a r' => .ok a (r'.inside r.machine.active)
  | .error h r' => .error h (r'.inside r.machine.active)

/-- The place of the body of a method. -/
def methodBody (klass : Option Nat) (name : String) : Traced Place := fun r =>
  .ok (r.methodBody klass name) r

/-! ### Frames -/

/-- A new frame inside of another one. -/
def openFrame (parent : FrameId) (opener : Option Opener) : Traced FrameId :=
  noting (Run.newFrame parent) fun _ frame => .opened frame opener

/-- A variable of a frame gets a value. -/
def define (frame : FrameId) (opener : Option Opener) (name : String) (v : Value) : Traced Unit :=
  noting (Run.define frame name v) fun _ _ => .wrote ⟨frame, opener, name⟩ v

/-- Variables of a frame get values, one after the other. -/
def defineAll (frame : FrameId) (opener : Option Opener) : List (Token × Value) → Traced Unit
  | [] => pure ()
  | (name, v) :: rest => do
    define frame opener name.lexeme v
    defineAll frame opener rest

/-- A name that is declared at a place gets a value. -/
def declare (p : Place) (name : Token) (v : Value) : Traced Unit := do
  let frame ← lift Run.activeFrame
  define frame (p.openerAt 0) name.lexeme v

/-- The variable that a node refers to gets a value. -/
def store (p : Place) (id : NodeId) (name : Token) (v : Value) : Traced Unit :=
  noting (Run.store id name v) fun r _ => .wrote (r.visibleCell p name.lexeme) v

/-- The nearest variable of a name gets a value: the one that is declared at the place. -/
def assign (p : Place) (name : Token) (v : Value) : Traced Unit :=
  noting (Run.assign name v) fun r _ => .wrote (r.ownCell p name.lexeme) v

/-! ### Objects -/

/-- A new closure, the body of which stands at a place. -/
def newClosure (body : Place) (c : Closure) : Traced Nat := fun r =>
  match Run.newClosure c r.machine with
  | .ok id m => .ok id { r with
      machine := m, bodies := fun i => if i = id then body else r.bodies i }
  | .error h m => .error h { r with machine := m }

/-- A method bound to an instance. -/
def bindMethod (body : Place) (method : Closure) (object : Nat) : Traced Closure := do
  let frame ← openFrame method.captured (body.openerAt 1)
  define frame (body.openerAt 1) "this" (.object object)
  pure { method with captured := frame }

/-- A method bound to an instance, as a value. -/
def bound (body : Place) (method : Closure) (object : Nat) : Traced Value := do
  let closure ← bindMethod body method object
  pure (.callable (.closure (← newClosure body closure)))

/-- The method of a name of a class, bound to an instance. -/
def boundMethod (klass : Option Nat) (object : Nat) (name : Token) : Traced Value := do
  match ← lift (Run.ofObjects fun o => klass.bind fun k => o.methodClosure? k name.lexeme) with
  | some c => do
    let body ← methodBody klass name.lexeme
    bound body c object
  | none => lift (Run.raise name.line (.undefinedProperty name.lexeme))

/-- A property of an instance: its field, or a method of its class bound to it. -/
def property (object : Nat) (name : Token) : Traced Value := do
  match ← lift (Run.ofObjects fun o => o.field? object name.lexeme) with
  | some v => pure v
  | none => do
    let klass ← lift (Run.ofObjects fun o => o.classOf? object)
    boundMethod klass object name

/-- A method of the superclass bound to the receiver. -/
def superMethod (id : NodeId) (keyword method : Token) : Traced Value := do
  match ← lift (Run.superReference id keyword) with
  | (.callable (.klass k), .object object) => boundMethod (some k) object method
  | _ => lift (Run.raise keyword.line .superclassNotClass)

/-! ### Declarations -/

/-- The value of a function declaration: a closure over the frame in which the program is. -/
def functionValue (p : Place) (f : FunDecl) : Traced Value := do
  let frame ← lift Run.activeFrame
  pure (.callable (.closure
    (← newClosure ((p.declare f.name).body .function f) ⟨f, frame, false⟩)))

/-- The closures of the methods of a class, which stand at a place from the `i`-th part on. -/
def methodTable (frame : FrameId) (p : Place) (i : Nat) :
    List FunDecl → NameTable Nat → Traced (NameTable Nat)
  | [], table => pure table
  | f :: fs, table => do
    let id ← newClosure ((p.child i).body f.methodContext f) ⟨f, frame, f.isInitializer⟩
    methodTable frame (p.afterMethod f) (i + 1) fs (table.insert f.name.lexeme id)

/-- The frame that the methods of a class at a place capture: one that holds `super`, or the given
one. -/
def methodFrame (p : Place) (frame : FrameId) : (superclass : Option Nat) → Traced FrameId
  | none => pure frame
  | some k => do
    let inner ← openFrame frame (p.openerAt 1)
    define inner (p.openerAt 1) "super" (.callable (.klass k))
    pure inner

/-- Declares a class whose superclass is known; its methods stand at the place `inner`. -/
def declareClass (p inner : Place) (name : Token) (superclass : Option Nat)
    (methods : List FunDecl) : Traced Unit := do
  let frame ← lift Run.activeFrame
  define frame (p.openerAt 0) name.lexeme .nil
  let captured ← methodFrame inner frame superclass
  let table ← methodTable captured inner 0 methods []
  let klass ← lift (Run.newClass ⟨name.lexeme, superclass, table⟩)
  -- what is noted is the frame of the declaration, not the one that the methods capture
  note fun _ => .declared klass ⟨name.lexeme, superclass, methods, frame⟩
  assign p name (.callable (.klass klass))

/-! ### Evaluation -/

mutual

/-- The value of an expression at a place. -/
def evaluate : (fuel : Nat) → Place → Expr → Traced Value
  | 0, _, _ => lift (Run.halt .outOfFuel)
  | fuel + 1, p, e => meet p (.expression e) <|
    match e with
    | .literal l => pure l.value
    | .grouping inner => evaluate fuel p inner
    | .unary operator right => do
      let v ← evaluate fuel p right
      lift (Run.applyUnary operator v)
    | .binary left operator right => do
      let a ← evaluate fuel p left
      let b ← evaluate fuel (p.afterExpr left) right
      lift (Run.applyBinary operator a b)
    | .logical left operator right => do
      let a ← evaluate fuel p left
      if Run.decides operator a then pure a else evaluate fuel (p.afterExpr left) right
    | .var id name => lift (Run.lookUp id name)
    | .thisRef id keyword => lift (Run.lookUp id keyword)
    | .assign id name value => do
      let v ← evaluate fuel p value
      store p id name v
      pure v
    | .call callee paren arguments => do
      let f ← evaluate fuel p callee
      let vs ← evaluateAll fuel (p.afterExpr callee) arguments
      match f with
      | .callable c => do
        let arity ← lift (Run.ofObjects fun o => o.arity c)
        if vs.length = arity then invoke fuel c vs
        else lift (Run.raise paren.line (.arityMismatch arity vs.length))
      | _ => lift (Run.raise paren.line .notCallable)
    | .get object name => do
      match ← evaluate fuel p object with
      | .object i => do
        -- the property is read behind all that the evaluation of its object has done
        note .moment
        property i name
      | _ => lift (Run.raise name.line .propertyOfNonInstance)
    | .set object name value => do
      match ← evaluate fuel (p.afterExpr value) object with
      | .object i => do
        let v ← evaluate fuel p value
        lift (Run.setField i name.lexeme v)
        note fun _ => .assigned i name.lexeme v
        pure v
      | _ => lift (Run.raise name.line .fieldOfNonInstance)
    | .superRef id keyword method => superMethod id keyword method

/-- The values of several expressions from a place on. -/
def evaluateAll : (fuel : Nat) → Place → List Expr → Traced (List Value)
  | 0, _, _ => lift (Run.halt .outOfFuel)
  | _ + 1, _, [] => pure []
  | fuel + 1, p, e :: es => do
    let v ← evaluate fuel p e
    let vs ← evaluateAll fuel (p.afterExpr e) es
    pure (v :: vs)

/-- Calls a callable with as many arguments as it takes. -/
def invoke : (fuel : Nat) → Callable → List Value → Traced Value
  | 0, _, _ => lift (Run.halt .outOfFuel)
  | fuel + 1, c, arguments =>
    match c with
    | .native id => do
      let n ← lift (Run.ofObjects fun o => o.natives[id]?)
      let n ← lift (Run.ofOption n)
      lift (Run.callNative n arguments)
    | .closure id => do
      let c ← lift (Run.ofObjects fun o => o.closures[id]?)
      let c ← lift (Run.ofOption c)
      fun r => invokeClosure fuel (r.bodies id) c arguments r
    | .klass k => do
      let object ← lift (Run.newInstance k)
      match ← lift (Run.ofObjects fun o => o.initializer? k) with
      | some c => do
        let body ← methodBody (some k) initializerName
        let c ← bindMethod body c object
        let _ ← invokeClosure fuel body c arguments
        pure (.object object)
      | none => pure (.object object)

/-- Runs the body of a function, which stands at a place, in a new frame that holds its
parameters. -/
def invokeClosure : (fuel : Nat) → Place → Closure → List Value → Traced Value
  | 0, _, _, _ => lift (Run.halt .outOfFuel)
  | fuel + 1, p, c, arguments => do
    let frame ← openFrame c.captured (p.openerAt 0)
    defineAll frame (p.openerAt 0) (c.declaration.params.zip arguments)
    let signal ← within frame (executeAll fuel p 0 c.declaration.body)
    if c.isInitializer then lift (Run.getAt c.captured 0 "this" c.declaration.name.line)
    else match signal with
      | .returned v => pure v
      | .normal => pure .nil

/-- Runs a statement at a place. -/
def execute : (fuel : Nat) → Place → Stmt → Traced Signal
  | 0, _, _ => lift (Run.halt .outOfFuel)
  | fuel + 1, p, s => meet p (.statement s) <|
    match s with
    | .expression e => do
      let _ ← evaluate fuel p e
      pure .normal
    | .print e => do
      let v ← evaluate fuel p e
      let text ← lift (Run.ofObjects fun o => o.display v)
      lift (Run.write (text ++ "\n"))
      pure .normal
    | .varDecl name none => do
      declare p name .nil
      pure .normal
    | .varDecl name (some e) => do
      let v ← evaluate fuel (p.initializer name) e
      declare p name v
      pure .normal
    | .block body => do
      let outer ← lift Run.activeFrame
      let frame ← openFrame outer (p.block.openerAt 0)
      within frame (executeAll fuel p.block 0 body)
    | .branch condition thenBranch elseBranch => do
      let v ← evaluate fuel p condition
      if v.isTruthy then execute fuel ((p.afterExpr condition).child 0) thenBranch
      else match elseBranch with
        | some s => execute fuel (p.elseBranch condition thenBranch) s
        | none => pure .normal
    | .loop condition body => repeatWhile fuel p condition body
    | .function f => do
      let v ← functionValue p f
      declare p f.name v
      pure .normal
    | .ret _ none => pure (.returned .nil)
    | .ret keyword (some e) => do
      let v ← evaluate fuel (p.returned keyword) e
      pure (.returned v)
    | .classDecl name none methods => do
      declareClass p (p.methods name none) name none methods
      pure .normal
    | .classDecl name (some superclass) methods => do
      let v ← evaluate fuel (p.superclass name superclass) superclass
      let k ← lift (Run.asSuperclass name v)
      declareClass p (p.methods name (some superclass)) name (some k) methods
      pure .normal

/-- Runs statements from a place on, the first of which is the `i`-th part, up to the first that
returns. -/
def executeAll : (fuel : Nat) → Place → (i : Nat) → List Stmt → Traced Signal
  | 0, _, _, _ => lift (Run.halt .outOfFuel)
  | _ + 1, _, _, [] => pure .normal
  | fuel + 1, p, i, s :: ss => do
    match ← execute fuel (p.child i) s with
    | .normal => executeAll fuel (p.afterStmt s) (i + 1) ss
    | .returned v => pure (.returned v)

/-- Runs a statement as long as a condition is true and the statement does not return. -/
def repeatWhile : (fuel : Nat) → Place → Expr → Stmt → Traced Signal
  | 0, _, _, _ => lift (Run.halt .outOfFuel)
  | fuel + 1, p, condition, body => do
    let v ← evaluate fuel p condition
    if v.isTruthy then
      match ← execute fuel ((p.afterExpr condition).child 0) body with
      | .normal => repeatWhile fuel p condition body
      | .returned v => pure (.returned v)
    else pure .normal

end

/-! ### Programs -/

/-- Runs statements from a place on, one after the other. -/
def runAll (fuel : Nat) (p : Place) (i : Nat) : List Stmt → Traced Unit
  | [] => pure ()
  | s :: ss => do
    let _ ← execute fuel (p.child i) s
    runAll fuel (p.afterStmt s) (i + 1) ss

/-- Runs something and flushes the output however that ends. -/
def thenFlush (t : Traced Unit) : Traced Unit := fun r =>
  match t r with
  | .ok () r' => lift Run.flush r'
  | .error h r' =>
    match lift Run.flush r' with
    | .ok () r'' => .error h r''
    | .error fault r'' => .error fault r''

/-- Runs the program of a source, the nodes of which have the given distances. -/
def interpret (fuel source : Nat) (program : List Stmt) (distances : Distances) : Traced Unit := do
  lift (Run.learn distances)
  thenFlush (runAll fuel (.top source) 0 program)

end Traced

namespace Session

/-- The session behind several sources. -/
def runEach (fuel : Nat) (s : Session) (sources : List String) : Session :=
  sources.foldl (fun s source => (s.run fuel source).2) s

/-- The record behind one more source, with the number for the next node. -/
def traceOne (fuel source : Nat) (text : String) (r : Record) (nextId : NodeId) :
    Record × NodeId :=
  let checked := check text nextId
  match checked.result with
  | .error _ => (r, checked.nextId)
  | .ok p =>
    match Traced.interpret fuel source p.statements p.distances
        { r with machine := r.machine.clearOutput } with
    | .ok () r' => (r', checked.nextId)
    | .error _ r' => (r', checked.nextId)

/-- The record behind several sources, the first of which is the `i`-th one, with the number for
the next node. -/
def traceFrom (fuel : Nat) (i : Nat) (r : Record) (nextId : NodeId) : List String → Record × NodeId
  | [] => (r, nextId)
  | text :: texts =>
    let (r, nextId) := traceOne fuel i text r nextId
    traceFrom fuel (i + 1) r nextId texts

/-- The record of a session on a machine on which nothing has run. -/
def trace (fuel : Nat) (m : Machine) (sources : List String) : Record :=
  (traceFrom fuel 0 (.start m) 0 sources).1

end Session

end Lox
