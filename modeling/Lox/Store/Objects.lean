/-
Objects.

Functions, classes, instances and natives, each by number.  All but the fields of an instance
stay as they were made.

* `lineage` — a class and the classes above it;
* `method?` — the nearest method of a name in the lineage of a class;
* `display` — the text of a value.
-/
import Lox.Store.Frames

namespace Lox

/-- A function with the frame in which it was declared or bound. -/
structure Closure where
  declaration : FunDecl
  captured : FrameId
  isInitializer : Bool
deriving Inhabited

/-- A class: its name, the class above it, and its methods by the number of their closure. -/
structure ClassObject where
  name : String
  superclass : Option Nat
  methods : NameTable Nat
deriving Inhabited

/-- An instance: its class and its fields. -/
structure Instance where
  klass : Nat
  fields : NameTable Value
deriving Inhabited

/-- A function that is not written in the language.  It is given the time and its arguments. -/
structure Native where
  name : String
  arity : Nat
  run : Float → List Value → Except Diagnostic Value

/-- The time in seconds. -/
def Native.clock : Native where
  name := "clock"
  arity := 0
  run := fun now _ => .ok (.number now)

/-- All objects, by kind and number. -/
structure Objects where
  natives : Array Native
  closures : Array Closure
  classes : Array ClassObject
  instances : Array Instance

namespace Objects

/-- No objects. -/
def empty : Objects := ⟨#[], #[], #[], #[]⟩

/-- The class above a class. -/
def superclass? (o : Objects) (klass : Nat) : Option Nat :=
  o.classes[klass]?.bind ClassObject.superclass

/-- A class and the classes above it. -/
def lineage (o : Objects) (klass : Nat) : List Nat :=
  chain o.superclass? klass

/-- The method of a name that a class declares itself. -/
def ownMethod? (o : Objects) (klass : Nat) (name : String) : Option Nat :=
  o.classes[klass]?.bind fun c => c.methods.find? name

/-- The nearest method of a name in the lineage of a class, by the number of its closure. -/
def method? (o : Objects) (klass : Nat) (name : String) : Option Nat :=
  (o.lineage klass).findSome? fun k => o.ownMethod? k name

/-- The closure of a method, found as by `method?`. -/
def methodClosure? (o : Objects) (klass : Nat) (name : String) : Option Closure :=
  (o.method? klass name).bind fun id => o.closures[id]?

/-- The method that initializes the instances of a class. -/
def initializer? (o : Objects) (klass : Nat) : Option Closure :=
  o.methodClosure? klass initializerName

/-- The number of arguments of a callable; a class takes those of its initializer. -/
def arity (o : Objects) : Callable → Nat
  | .native id => (o.natives[id]?.map Native.arity).getD 0
  | .closure id => (o.closures[id]?.map fun c => c.declaration.arity).getD 0
  | .klass id => ((o.initializer? id).map fun c => c.declaration.arity).getD 0

theorem arity_closure {o : Objects} {id : Nat} {c : Closure} (h : o.closures[id]? = some c) :
    o.arity (.closure id) = c.declaration.arity := by
  rw [arity, h]
  rfl

theorem arity_klass {o : Objects} {k : Nat} {c : Closure} (h : o.initializer? k = some c) :
    o.arity (.klass k) = c.declaration.arity := by
  rw [arity, h]
  rfl

/-- The name of a class. -/
def className (o : Objects) (klass : Nat) : String :=
  (o.classes[klass]?.map ClassObject.name).getD ""

/-- The class of an instance. -/
def classOf? (o : Objects) (object : Nat) : Option Nat :=
  o.instances[object]?.map Instance.klass

/-- The field of a name of an instance. -/
def field? (o : Objects) (object : Nat) (name : String) : Option Value :=
  o.instances[object]?.bind fun i => i.fields.find? name

/-- A field of an instance gets a value. -/
def setField (o : Objects) (object : Nat) (name : String) (v : Value) : Objects :=
  { o with
    instances := o.instances.modify object fun i => { i with fields := i.fields.insert name v } }

/-- The text of a callable. -/
def displayCallable (o : Objects) : Callable → String
  | .native _ => "<native fn>"
  | .closure id => "<fn " ++ (o.closures[id]?.map fun c => c.declaration.name.lexeme).getD "" ++ ">"
  | .klass id => o.className id

/-- The text of a value. -/
def display (o : Objects) : Value → String
  | .nil => "nil"
  | .bool true => "true"
  | .bool false => "false"
  | .number x => Value.numberStyle.write x
  | .string s => s
  | .callable c => o.displayCallable c
  | .object id => ((o.classOf? id).map o.className).getD "" ++ " instance"

end Objects

end Lox
