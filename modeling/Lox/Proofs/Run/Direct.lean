/-
Programs that run as they are written.

The direct meaning of statements, in which a `for` loop is a statement of its own: it opens one
scope if it has an initializer, and runs that once.  Then, as long as its condition is true, it runs
its body and behind it the increment, in the scope in which the loop itself is.

* `Direct` — a machine, and the functions of its closures as they are written;
* `Direct.execute`, `Direct.repeatFor`, `Direct.turn` — statements, loops, and the turns of
  loops with an increment;
* `Direct.interpret` — a program, with the distances in what is written;
* `Direct.replies` — what several sources show, one after another.

Design notes: all that does not depend on how a function is written is as for trees, and is lifted.
Fuel is spent as it is for trees.
-/
import Lox.Proofs.Binding.Direct
import Lox.Session

namespace Lox

/-- The state of a program that runs as it is written. -/
structure Direct where
  machine : Machine
  /-- the function of a closure, by the number of the closure -/
  functions : Nat → WrittenFunction

/-- A change of such a state that yields a value or halts. -/
abbrev DirectRun (α : Type) : Type :=
  EStateM Halt Direct α

namespace Direct

/-- The state with the program in another frame. -/
def inside (d : Direct) (frame : FrameId) : Direct :=
  { d with machine := { d.machine with active := frame } }

/-- A run that changes the machine alone. -/
def lift {α : Type} (run : Run α) : DirectRun α := fun d =>
  match run d.machine with
  | .ok a m => .ok a { d with machine := m }
  | .error h m => .error h { d with machine := m }

/-- Runs inside of a frame and comes back to the frame before, however the run ends. -/
def within {α : Type} (frame : FrameId) (run : DirectRun α) : DirectRun α := fun d =>
  match run (d.inside frame) with
  | .ok a d' => .ok a (d'.inside d.machine.active)
  | .error h d' => .error h (d'.inside d.machine.active)

/-- A new closure of a function. -/
def newClosure (c : Closure) (f : WrittenFunction) : DirectRun Nat := fun d =>
  let id := d.machine.objects.closures.size
  let objects := { d.machine.objects with closures := d.machine.objects.closures.push c }
  .ok id ⟨{ d.machine with objects := objects }, fun i => if i = id then f else d.functions i⟩

/-- The function of a closure. -/
def function (id : Nat) : DirectRun WrittenFunction := fun d =>
  .ok (d.functions id) d

/-- The closure of a method of a class, with its function. -/
def methodClosure? (d : Direct) (klass : Option Nat) (name : String) :
    Option (Closure × WrittenFunction) :=
  (klass.bind fun k => d.machine.objects.method? k name).bind fun id =>
    d.machine.objects.closures[id]?.map fun c => (c, d.functions id)

/-- Finds a method of a class. -/
def method? (klass : Option Nat) (name : String) :
    DirectRun (Option (Closure × WrittenFunction)) := fun d =>
  .ok (d.methodClosure? klass name) d

/-! ### Properties -/

/-- A method bound to an instance, as a value. -/
def bound (method : Closure) (f : WrittenFunction) (object : Nat) : DirectRun Value := do
  let closure ← lift (Run.bindMethod method object)
  pure (.callable (.closure (← newClosure closure f)))

/-- The method of a name of a class, bound to an instance. -/
def boundMethod (klass : Option Nat) (object : Nat) (name : Token) : DirectRun Value := do
  match ← method? klass name.lexeme with
  | some (c, f) => bound c f object
  | none => lift (Run.raise name.line (.undefinedProperty name.lexeme))

/-- A property of an instance: its field, or a method of its class bound to it. -/
def property (object : Nat) (name : Token) : DirectRun Value := do
  match ← lift (Run.ofObjects fun o => o.field? object name.lexeme) with
  | some v => pure v
  | none => do
    let klass ← lift (Run.ofObjects fun o => o.classOf? object)
    boundMethod klass object name

/-- A method of the superclass bound to the receiver. -/
def superMethod (id : NodeId) (keyword method : Token) : DirectRun Value := do
  match ← lift (Run.superReference id keyword) with
  | (.callable (.klass k), .object object) => boundMethod (some k) object method
  | _ => lift (Run.raise keyword.line .superclassNotClass)

/-! ### Declarations -/

/-- The value of a function declaration: a closure over the frame in which the program is. -/
def functionValue (f : WrittenFunction) : DirectRun Value := do
  let frame ← lift Run.activeFrame
  pure (.callable (.closure (← newClosure ⟨f.tree, frame, false⟩ f)))

/-- The closures of the methods of a class; of two with one name the later one counts. -/
def methodTable (frame : FrameId) :
    List WrittenFunction → NameTable Nat → DirectRun (NameTable Nat)
  | [], table => pure table
  | f :: fs, table => do
    let id ← newClosure ⟨f.tree, frame, f.tree.isInitializer⟩ f
    methodTable frame fs (table.insert f.name.lexeme id)

/-- Declares a class whose superclass is known.  Its name is `nil` until the class is made. -/
def declareClass (name : Token) (superclass : Option Nat) (methods : List WrittenFunction) :
    DirectRun Unit := do
  let frame ← lift Run.activeFrame
  lift (Run.define frame name.lexeme .nil)
  let inner ← lift (Run.methodFrame frame superclass)
  let table ← methodTable inner methods []
  let klass ← lift (Run.newClass ⟨name.lexeme, superclass, table⟩)
  lift (Run.assign name (.callable (.klass klass)))

/-! ### Evaluation -/

mutual

/-- The value of an expression. -/
def evaluate : (fuel : Nat) → Expr → DirectRun Value
  | 0, _ => lift (Run.halt .outOfFuel)
  | fuel + 1, e =>
    match e with
    | .literal l => pure l.value
    | .grouping inner => evaluate fuel inner
    | .unary operator right => do
      let v ← evaluate fuel right
      lift (Run.applyUnary operator v)
    | .binary left operator right => do
      let a ← evaluate fuel left
      let b ← evaluate fuel right
      lift (Run.applyBinary operator a b)
    | .logical left operator right => do
      let a ← evaluate fuel left
      if Run.decides operator a then pure a else evaluate fuel right
    | .var id name => lift (Run.lookUp id name)
    | .thisRef id keyword => lift (Run.lookUp id keyword)
    | .assign id name value => do
      let v ← evaluate fuel value
      lift (Run.store id name v)
      pure v
    | .call callee paren arguments => do
      let f ← evaluate fuel callee
      let vs ← evaluateAll fuel arguments
      match f with
      | .callable c => do
        let arity ← lift (Run.ofObjects fun o => o.arity c)
        if vs.length = arity then invoke fuel c vs
        else lift (Run.raise paren.line (.arityMismatch arity vs.length))
      | _ => lift (Run.raise paren.line .notCallable)
    | .get object name => do
      match ← evaluate fuel object with
      | .object i => property i name
      | _ => lift (Run.raise name.line .propertyOfNonInstance)
    | .set object name value => do
      match ← evaluate fuel object with
      | .object i => do
        let v ← evaluate fuel value
        lift (Run.setField i name.lexeme v)
        pure v
      | _ => lift (Run.raise name.line .fieldOfNonInstance)
    | .superRef id keyword method => superMethod id keyword method

/-- The values of several expressions, from left to right. -/
def evaluateAll : (fuel : Nat) → List Expr → DirectRun (List Value)
  | 0, _ => lift (Run.halt .outOfFuel)
  | _ + 1, [] => pure []
  | fuel + 1, e :: es => do
    let v ← evaluate fuel e
    let vs ← evaluateAll fuel es
    pure (v :: vs)

/-- Calls a callable with as many arguments as it takes. -/
def invoke : (fuel : Nat) → Callable → List Value → DirectRun Value
  | 0, _, _ => lift (Run.halt .outOfFuel)
  | fuel + 1, c, arguments =>
    match c with
    | .native id => do
      let n ← lift (Run.ofOption (← lift (Run.ofObjects fun o => o.natives[id]?)))
      lift (Run.callNative n arguments)
    | .closure id => do
      let c ← lift (Run.ofOption (← lift (Run.ofObjects fun o => o.closures[id]?)))
      invokeClosure fuel c (← function id) arguments
    | .klass k => do
      let object ← lift (Run.newInstance k)
      match ← method? (some k) initializerName with
      | some (c, f) => do
        let c ← lift (Run.bindMethod c object)
        let _ ← invokeClosure fuel c f arguments
        pure (.object object)
      | none => pure (.object object)

/-- Runs the body of a function in a new frame that holds its parameters.  An initializer yields
its instance whatever its body returns. -/
def invokeClosure : (fuel : Nat) → Closure → WrittenFunction → List Value → DirectRun Value
  | 0, _, _, _ => lift (Run.halt .outOfFuel)
  | fuel + 1, c, f, arguments => do
    let frame ← lift (Run.newFrame c.captured)
    lift (Run.defineAll frame (f.params.zip arguments))
    let signal ← within frame (executeAll fuel f.body)
    if c.isInitializer then lift (Run.getAt c.captured 0 "this" f.name.line)
    else match signal with
      | .returned v => pure v
      | .normal => pure .nil

/-- Runs a statement. -/
def execute : (fuel : Nat) → Written → DirectRun Signal
  | 0, _ => lift (Run.halt .outOfFuel)
  | fuel + 1, s =>
    match s with
    | .expression e => do
      let _ ← evaluate fuel e
      pure .normal
    | .print e => do
      let v ← evaluate fuel e
      let text ← lift (Run.ofObjects fun o => o.display v)
      lift (Run.write (text ++ "\n"))
      pure .normal
    | .varDecl name none => do
      lift (Run.define (← lift Run.activeFrame) name.lexeme .nil)
      pure .normal
    | .varDecl name (some e) => do
      let v ← evaluate fuel e
      lift (Run.define (← lift Run.activeFrame) name.lexeme v)
      pure .normal
    | .block body => do
      let frame ← lift (Run.newFrame (← lift Run.activeFrame))
      within frame (executeAll fuel body)
    | .branch condition thenBranch elseBranch => do
      let v ← evaluate fuel condition
      if v.isTruthy then execute fuel thenBranch
      else match elseBranch with
        | some s => execute fuel s
        | none => pure .normal
    | .loop condition body => repeatWhile fuel condition body
    | .forLoop none condition increment body => repeatFor fuel condition increment body
    | .forLoop (some s) condition increment body => do
      -- one scope for the whole loop, in which the initializer runs once
      let frame ← lift (Run.newFrame (← lift Run.activeFrame))
      within frame (executeAll fuel [s, .forLoop none condition increment body])
    | .function f => do
      let v ← functionValue f
      lift (Run.define (← lift Run.activeFrame) f.name.lexeme v)
      pure .normal
    | .ret _ none => pure (.returned .nil)
    | .ret _ (some e) => do
      let v ← evaluate fuel e
      pure (.returned v)
    | .classDecl name none methods => do
      declareClass name none methods
      pure .normal
    | .classDecl name (some superclass) methods => do
      let v ← evaluate fuel superclass
      let k ← lift (Run.asSuperclass name v)
      declareClass name (some k) methods
      pure .normal

/-- Runs statements up to the first that returns. -/
def executeAll : (fuel : Nat) → List Written → DirectRun Signal
  | 0, _ => lift (Run.halt .outOfFuel)
  | _ + 1, [] => pure .normal
  | fuel + 1, s :: ss => do
    match ← execute fuel s with
    | .normal => executeAll fuel ss
    | .returned v => pure (.returned v)

/-- Runs a statement as long as a condition is true and the statement does not return. -/
def repeatWhile : (fuel : Nat) → Expr → Written → DirectRun Signal
  | 0, _, _ => lift (Run.halt .outOfFuel)
  | fuel + 1, condition, body => do
    let v ← evaluate fuel condition
    if v.isTruthy then
      match ← execute fuel body with
      | .normal => repeatWhile fuel condition body
      | .returned v => pure (.returned v)
    else pure .normal

/-- The rest of a `for` loop behind its initializer.  It stops when its condition is false, which it
never is if it is absent, and when a turn returns. -/
def repeatFor : (fuel : Nat) → (condition increment : Option Expr) → Written → DirectRun Signal
  | 0, _, _, _ => lift (Run.halt .outOfFuel)
  | fuel + 1, condition, increment, body => do
    let v ← (match condition with
      | some e => evaluate fuel e
      | none => pure (.bool true))
    if v.isTruthy then
      match ← (match increment with
        | some e => turn fuel body e
        | none => execute fuel body) with
      | .normal => repeatFor fuel condition increment body
      | .returned v => pure (.returned v)
    else pure .normal

/-- A turn of a `for` loop with an increment: the body and then, unless that returns, the increment,
both in the frame in which the loop is. -/
def turn : (fuel : Nat) → Written → (increment : Expr) → DirectRun Signal
  | 0, _, _ => lift (Run.halt .outOfFuel)
  | fuel + 1, body, increment => executeAll fuel [body, .expression increment]

end

/-! ### Programs -/

/-- Runs statements one after the other. -/
def runAll (fuel : Nat) : List Written → DirectRun Unit
  | [] => pure ()
  | s :: ss => do
    let _ ← execute fuel s
    runAll fuel ss

/-- Runs something and flushes the output however that ends.  A fault of flushing prevails over
the end of the run. -/
def thenFlush (run : DirectRun Unit) : DirectRun Unit := fun d =>
  match run d with
  | .ok () d => lift Run.flush d
  | .error h d =>
    match lift Run.flush d with
    | .ok () d => .error h d
    | .error fault d => .error fault d

/-- Runs a program, with the distances in what is written. -/
def interpret (fuel : Nat) (program : List Written) : DirectRun Unit := do
  lift (Run.learn (Written.distances program))
  thenFlush (runAll fuel program)

/-- The state before anything has run on a machine. -/
def start (machine : Machine) : Direct := ⟨machine, fun _ => default⟩

/-- What a program shows that runs behind others, and the state behind it. -/
def reply (fuel : Nat) (d : Direct) (program : List Written) : Reply × Direct :=
  match interpret fuel program { d with machine := d.machine.clearOutput } with
  | .ok () d => (⟨d.machine.output, .finished⟩, d)
  | .error h d => (⟨d.machine.output, .stopped h⟩, d)

open Concrete in
/-- What sources show that are run as they are written, one after the other. -/
def replies (fuel : Nat) (d : Direct) (nextId : NodeId) :
    List (List Declaration) → List Reply × Direct
  | [] => ([], d)
  | ts :: tss =>
    let (reply, d) := d.reply fuel (Declaration.writtenIn nextId ts)
    let (others, d) := d.replies fuel (nextId + Declaration.idsIn ts) tss
    (reply :: others, d)

end Direct

end Lox
