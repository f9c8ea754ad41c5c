/-
Evaluation.

`evaluate` yields the value of an expression, `execute` runs a statement.  A statement ends
normally or with `return`, which is a signal that every statement around it passes on up to the
call that is running.

Design notes: a program may run forever, so evaluation is given fuel.  Each step hands one less to
what it calls for, and a loop one less to each turn; a run that ends with some fuel ends alike
with more.  Operands are evaluated from left to right, and a call looks at its callee only when
its arguments have their values.
-/
import Lox.Run.Machine

namespace Lox

/-- How a statement ends. -/
inductive Signal where
  | normal
  | returned (v : Value)

namespace Run

/-! ### Operators -/

/-- The value of a unary operator. -/
def applyUnary (operator : Token) (v : Value) : Run Value :=
  match operator.kind with
  | .mark .minus =>
    match v with
    | .number x => pure (.number (-x))
    | _ => raise operator.line .operandNotNumber
  | .mark .bang => pure (.bool !v.isTruthy)
  | _ => halt (.malformed operator)

/-- The sum of two numbers, or two strings put together. -/
def add (operator : Token) : Value → Value → Run Value
  | .number x, .number y => pure (.number (x + y))
  | .string s, .string t => pure (.string (s ++ t))
  | _, _ => raise operator.line .operandsNotAddable

/-- The value of an operator on two numbers. -/
def applyNumeric (operator : Token) (x y : Float) : Run Value :=
  match operator.kind with
  | .mark .minus => pure (.number (x - y))
  | .mark .star => pure (.number (x * y))
  | .mark .slash => pure (.number (x / y))
  | .mark .greater => pure (.bool (decide (x > y)))
  | .mark .greaterEqual => pure (.bool (decide (x ≥ y)))
  | .mark .less => pure (.bool (decide (x < y)))
  | .mark .lessEqual => pure (.bool (decide (x ≤ y)))
  | _ => halt (.malformed operator)

/-- The value of a binary operator. -/
def applyBinary (operator : Token) (a b : Value) : Run Value :=
  match operator.kind with
  | .mark .plus => add operator a b
  | .mark .equalEqual => pure (.bool (a.equals b))
  | .mark .bangEqual => pure (.bool !a.equals b)
  | _ =>
    match a, b with
    | .number x, .number y => applyNumeric operator x y
    | _, _ => raise operator.line .operandsNotNumbers

/-- The left operand of `or` or `and` decides: a true one of `or`, a false one of all others. -/
def decides (operator : Token) (left : Value) : Bool :=
  if operator.kind.isKeyword .or_ then left.isTruthy else !left.isTruthy

/-! ### Properties -/

/-- The method of a name of a class, bound to an instance. -/
def boundMethod (klass : Option Nat) (object : Nat) (name : Token) : Run Value := do
  match ← ofObjects fun o => klass.bind fun k => o.methodClosure? k name.lexeme with
  | some c => bound c object
  | none => raise name.line (.undefinedProperty name.lexeme)

/-- A property of an instance: its field, or a method of its class bound to it. -/
def property (object : Nat) (name : Token) : Run Value := do
  match ← ofObjects fun o => o.field? object name.lexeme with
  | some v => pure v
  | none => do
    let klass ← ofObjects fun o => o.classOf? object
    boundMethod klass object name

/-- The superclass and the receiver that `super` stands for.  The superclass is found at the
distance of the node, the receiver one frame closer. -/
def superReference (id : NodeId) (keyword : Token) : Run (Value × Value) := do
  let distance ← fun m => match m.distances.find? id with
    | some d => .ok d m
    | none => .error (.raised (Frames.undefined "super" keyword.line)) m
  let frame ← activeFrame
  let superclass ← getAt frame distance "super" keyword.line
  let receiver ← getAt frame (distance - 1) "this" keyword.line
  pure (superclass, receiver)

/-- A method of the superclass bound to the receiver. -/
def superMethod (id : NodeId) (keyword method : Token) : Run Value := do
  match ← superReference id keyword with
  | (.callable (.klass k), .object object) => boundMethod (some k) object method
  | _ => raise keyword.line .superclassNotClass

/-! ### Declarations -/

/-- The value of a function declaration: a closure over the frame in which the program is. -/
def functionValue (f : FunDecl) : Run Value := do
  let frame ← activeFrame
  pure (.callable (.closure (← newClosure ⟨f, frame, false⟩)))

/-- The closures of the methods of a class; of two with one name the later one counts. -/
def methodTable (frame : FrameId) : List FunDecl → NameTable Nat → Run (NameTable Nat)
  | [], table => pure table
  | f :: fs, table => do
    let id ← newClosure ⟨f, frame, f.isInitializer⟩
    methodTable frame fs (table.insert f.name.lexeme id)

/-- The frame that the methods of a class capture: one that holds `super`, or the given one. -/
def methodFrame (frame : FrameId) : (superclass : Option Nat) → Run FrameId
  | none => pure frame
  | some k => do
    let inner ← newFrame frame
    define inner "super" (.callable (.klass k))
    pure inner

/-- Declares a class whose superclass is known.  Its name is `nil` until the class is made. -/
def declareClass (name : Token) (superclass : Option Nat) (methods : List FunDecl) : Run Unit := do
  let frame ← activeFrame
  define frame name.lexeme .nil
  let inner ← methodFrame frame superclass
  let table ← methodTable inner methods []
  let klass ← newClass ⟨name.lexeme, superclass, table⟩
  assign name (.callable (.klass klass))

/-- The class that a value is, as the superclass of a class of the given name. -/
def asSuperclass (name : Token) : Value → Run Nat
  | .callable (.klass k) => pure k
  | _ => raise name.line .superclassNotClass

/-! ### Evaluation -/

mutual

/-- The value of an expression. -/
def evaluate : (fuel : Nat) → Expr → Run Value
  | 0, _ => halt .outOfFuel
  | fuel + 1, e =>
    match e with
    | .literal l => pure l.value
    | .grouping inner => evaluate fuel inner
    | .unary operator right => do
      let v ← evaluate fuel right
      applyUnary operator v
    | .binary left operator right => do
      let a ← evaluate fuel left
      let b ← evaluate fuel right
      applyBinary operator a b
    | .logical left operator right => do
      let a ← evaluate fuel left
      if decides operator a then pure a else evaluate fuel right
    | .var id name => lookUp id name
    | .thisRef id keyword => lookUp id keyword
    | .assign id name value => do
      let v ← evaluate fuel value
      store id name v
      pure v
    | .call callee paren arguments => do
      let f ← evaluate fuel callee
      let vs ← evaluateAll fuel arguments
      match f with
      | .callable c => do
        let arity ← ofObjects fun o => o.arity c
        if vs.length = arity then invoke fuel c vs
        else raise paren.line (.arityMismatch arity vs.length)
      | _ => raise paren.line .notCallable
    | .get object name => do
      match ← evaluate fuel object with
      | .object i => property i name
      | _ => raise name.line .propertyOfNonInstance
    | .set object name value => do
      match ← evaluate fuel object with
      | .object i => do
        let v ← evaluate fuel value
        setField i name.lexeme v
        pure v
      | _ => raise name.line .fieldOfNonInstance
    | .superRef id keyword method => superMethod id keyword method

/-- The values of several expressions, from left to right. -/
def evaluateAll : (fuel : Nat) → List Expr → Run (List Value)
  | 0, _ => halt .outOfFuel
  | _ + 1, [] => pure []
  | fuel + 1, e :: es => do
    let v ← evaluate fuel e
    let vs ← evaluateAll fuel es
    pure (v :: vs)

/-- Calls a callable with as many arguments as it takes. -/
def invoke : (fuel : Nat) → Callable → List Value → Run Value
  | 0, _, _ => halt .outOfFuel
  | fuel + 1, c, arguments =>
    match c with
    | .native id => do
      let n ← ofOption (← ofObjects fun o => o.natives[id]?)
      callNative n arguments
    | .closure id => do
      let c ← ofOption (← ofObjects fun o => o.closures[id]?)
      invokeClosure fuel c arguments
    | .klass k => do
      let object ← newInstance k
      match ← ofObjects fun o => o.initializer? k with
      | some c => do
        let c ← bindMethod c object
        let _ ← invokeClosure fuel c arguments
        pure (.object object)
      | none => pure (.object object)

/-- Runs the body of a function in a new frame that holds its parameters.  An initializer yields
its instance whatever its body returns. -/
def invokeClosure : (fuel : Nat) → Closure → List Value → Run Value
  | 0, _, _ => halt .outOfFuel
  | fuel + 1, c, arguments => do
    let frame ← newFrame c.captured
    defineAll frame (c.declaration.params.zip arguments)
    let signal ← within frame (executeAll fuel c.declaration.body)
    if c.isInitializer then getAt c.captured 0 "this" c.declaration.name.line
    else match signal with
      | .returned v => pure v
      | .normal => pure .nil

/-- Runs a statement. -/
def execute : (fuel : Nat) → Stmt → Run Signal
  | 0, _ => halt .outOfFuel
  | fuel + 1, s =>
    match s with
    | .expression e => do
      let _ ← evaluate fuel e
      pure .normal
    | .print e => do
      let v ← evaluate fuel e
      let text ← ofObjects fun o => o.display v
      write (text ++ "\n")
      pure .normal
    | .varDecl name none => do
      define (← activeFrame) name.lexeme .nil
      pure .normal
    | .varDecl name (some e) => do
      let v ← evaluate fuel e
      define (← activeFrame) name.lexeme v
      pure .normal
    | .block body => do
      let frame ← newFrame (← activeFrame)
      within frame (executeAll fuel body)
    | .branch condition thenBranch elseBranch => do
      let v ← evaluate fuel condition
      if v.isTruthy then execute fuel thenBranch
      else match elseBranch with
        | some s => execute fuel s
        | none => pure .normal
    | .loop condition body => repeatWhile fuel condition body
    | .function f => do
      let v ← functionValue f
      define (← activeFrame) f.name.lexeme v
      pure .normal
    | .ret _ none => pure (.returned .nil)
    | .ret _ (some e) => do
      let v ← evaluate fuel e
      pure (.returned v)
    | .classDecl name none methods => do
      declareClass name none methods
      pure .normal
    | .classDecl name (some superclass) methods => do
      let v ← evaluate fuel superclass
      let k ← asSuperclass name v
      declareClass name (some k) methods
      pure .normal

/-- Runs statements up to the first that returns. -/
def executeAll : (fuel : Nat) → List Stmt → Run Signal
  | 0, _ => halt .outOfFuel
  | _ + 1, [] => pure .normal
  | fuel + 1, s :: ss => do
    match ← execute fuel s with
    | .normal => executeAll fuel ss
    | .returned v => pure (.returned v)

/-- Runs a statement as long as a condition is true and the statement does not return. -/
def repeatWhile : (fuel : Nat) → Expr → Stmt → Run Signal
  | 0, _, _ => halt .outOfFuel
  | fuel + 1, condition, body => do
    let v ← evaluate fuel condition
    if v.isTruthy then
      match ← execute fuel body with
      | .normal => repeatWhile fuel condition body
      | .returned v => pure (.returned v)
    else pure .normal

end

end Run

end Lox
