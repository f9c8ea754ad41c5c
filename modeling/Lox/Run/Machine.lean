/-
The machine.

A `Machine` is the state of a running program: its frames and objects, the frame in which the
program is, the distances of nodes, and the text printed so far.  A `Run` changes a machine and
yields a value, or comes to a halt and leaves the machine as it is then.

* `within` — runs inside of another frame and comes back however the run ends;
* `store_apply` — a node with a distance assigns in the frame so far out, any other one a global.

Design notes: a halt that stems from the program is a diagnostic.  The others say that the fuel of
the evaluation was too small, that an operator token is none, or that the number of an object
belongs to no object.
-/
import Lox.Binding.Distances
import Lox.Store.Objects

namespace Lox

/-- A text that does not go out whole. -/
structure Cut where
  /-- the part that goes out -/
  part : String
  /-- what the output says about the rest -/
  fault : String

/-- What an output does when something is asked of it. -/
structure Answer where
  /-- how a text is cut short, if it does not go out whole -/
  cut? : String → Option Cut
  /-- what the output says, if flushing fails -/
  flushFault? : Option String

/-- An output: its answers to all that is asked of it, in order. -/
structure Sink where
  answers : Nat → Answer

namespace Sink

/-- An output that gives one answer to everything. -/
def always (answer : Answer) : Sink := ⟨fun _ => answer⟩

/-- Every text goes out whole. -/
def sound : Sink := always ⟨fun _ => none, none⟩

/-- An output that refuses every text, in words of its own. -/
def failsWriting : Sink := always ⟨fun _ => some ⟨"", "sink write failed"⟩, none⟩

/-- An output that takes every text and refuses every flush, in words of its own. -/
def failsFlushing : Sink := always ⟨fun _ => none, some "sink flush failed"⟩

/-- The answer to what is asked next. -/
def answer (s : Sink) : Answer :=
  s.answers 0

/-- The output behind its next answer. -/
def next (s : Sink) : Sink := ⟨fun asked => s.answers (asked + 1)⟩

@[simp] theorem next_always (answer : Answer) : (always answer).next = always answer := rfl

end Sink

/-- The state of a running program. -/
structure Machine where
  frames : Frames
  objects : Objects
  /-- the frame in which the program is -/
  active : FrameId
  distances : Distances
  /-- what was printed, the latest first -/
  printed : List String
  sink : Sink
  /-- the time at each reading of the clock -/
  clock : Nat → Float
  /-- how often the clock was read -/
  readings : Nat

/-- Why a run ends early. -/
inductive Halt where
  | raised (d : Diagnostic)
  | outOfFuel
  | malformed (operator : Token)
  | dangling

/-- A change of the machine that yields a value or halts. -/
abbrev Run (α : Type) : Type :=
  EStateM Halt Machine α

/-- The outermost frame, which holds the globals. -/
def globals : FrameId := 0

namespace Machine

/-- A native becomes a global of its name. -/
def defineNative (m : Machine) (n : Native) : Machine :=
  let id := m.objects.natives.size
  { m with
    objects := { m.objects with natives := m.objects.natives.push n }
    frames := m.frames.define globals n.name (.callable (.native id)) }

/-- A machine with the globals frame alone, whose one global is the clock. -/
def start (clock : Nat → Float) (sink : Sink) : Machine :=
  let bare : Machine :=
    { frames := Frames.empty.push none, objects := .empty, active := globals, distances := [],
      printed := [], sink := sink, clock := clock, readings := 0 }
  bare.defineNative .clock

/-- The printed text. -/
def output (m : Machine) : String :=
  String.join m.printed.reverse

/-- The machine with nothing printed yet. -/
def clearOutput (m : Machine) : Machine :=
  { m with printed := [] }

end Machine

namespace Run

theorem pure_apply {α : Type} (a : α) (m : Machine) : (pure a : Run α) m = .ok a m := rfl

/-- A run goes on where the one before it has ended, unless that one halts. -/
theorem bind_apply {α β : Type} (run : Run α) (next : α → Run β) (m : Machine) :
    (run >>= next) m = match run m with
      | .ok a m => next a m
      | .error h m => .error h m := by
  simp only [bind, EStateM.bind]
  cases run m <;> rfl

/-- Ends the run. -/
def halt {α : Type} (h : Halt) : Run α := fun m =>
  .error h m

/-- Ends the run with a fault of the program. -/
def raise {α : Type} (line : Nat) (fault : RuntimeFault) : Run α :=
  halt (.raised (.runtime line fault))

/-- Yields a value, or ends the run with a diagnostic. -/
def ofExcept {α : Type} : Except Diagnostic α → Run α
  | .ok a => pure a
  | .error d => halt (.raised d)

/-- Yields what is there, or ends the run as the object is missing. -/
def ofOption {α : Type} : Option α → Run α
  | some a => pure a
  | none => halt .dangling

/-- Runs inside of a frame and comes back to the frame before, however the run ends. -/
@[inline] def within {α : Type} (frame : FrameId) (run : Run α) : Run α := fun m =>
  let before := m.active
  match run { m with active := frame } with
  | .ok a m => .ok a { m with active := before }
  | .error h m => .error h { m with active := before }

/-! ### Frames -/

/-- A new frame inside of another one. -/
def newFrame (parent : FrameId) : Run FrameId := fun m =>
  .ok m.frames.size { m with frames := m.frames.push (some parent) }

/-- The frame in which the program is. -/
def activeFrame : Run FrameId := fun m =>
  .ok m.active m

/-- A variable of a frame gets a value. -/
def define (frame : FrameId) (name : String) (v : Value) : Run Unit := fun m =>
  .ok () { m with frames := m.frames.define frame name v }

/-- Variables of a frame get values, one after the other. -/
def defineAll (frame : FrameId) : List (Token × Value) → Run Unit
  | [] => pure ()
  | (name, v) :: rest => do
    define frame name.lexeme v
    defineAll frame rest

/-- The variable a number of frames out. -/
def getAt (frame : FrameId) (distance : Nat) (name : String) (line : Nat) : Run Value := fun m =>
  ofExcept (m.frames.getAt frame distance name line) m

/-- The variable that a node refers to: the one at its distance, or a global. -/
def lookUp (id : NodeId) (name : Token) : Run Value := fun m =>
  ofExcept (match m.distances.find? id with
    | some distance => m.frames.getAt m.active distance name.lexeme name.line
    | none => m.frames.get globals name.lexeme name.line) m

/-- A variable gets a value in the frame that was found for it. -/
def assignIn (frame : Option FrameId) (name : Token) (v : Value) : Run Unit := fun m =>
  match frame with
  | some f => .ok () { m with frames := m.frames.define f name.lexeme v }
  | none => .error (.raised (Frames.undefined name.lexeme name.line)) m

/-- The variable that a node refers to gets a value. -/
def store (id : NodeId) (name : Token) (v : Value) : Run Unit := fun m =>
  match m.distances.find? id with
  | some distance => assignIn (m.frames.ancestor? m.active distance) name v m
  | none => assignIn (m.frames.holder? globals name.lexeme) name v m

/-- The nearest variable of a name gets a value. -/
def assign (name : Token) (v : Value) : Run Unit := fun m =>
  assignIn (m.frames.holder? m.active name.lexeme) name v m

theorem assignIn_holder (frame : FrameId) (name : Token) (v : Value) (m : Machine) :
    assignIn (m.frames.holder? frame name.lexeme) name v m =
      match m.frames.assign frame name.lexeme v name.line with
      | .ok frames => .ok () { m with frames := frames }
      | .error d => .error (.raised d) m := by
  unfold assignIn Frames.assign
  cases m.frames.holder? frame name.lexeme <;> rfl

theorem assignIn_ancestor (frame : FrameId) (distance : Nat) (name : Token) (v : Value)
    (m : Machine) :
    assignIn (m.frames.ancestor? frame distance) name v m =
      match m.frames.assignAt frame distance name.lexeme v name.line with
      | .ok frames => .ok () { m with frames := frames }
      | .error d => .error (.raised d) m := by
  unfold assignIn Frames.assignAt
  cases m.frames.ancestor? frame distance <;> rfl

/-- A node with a distance assigns in the frame so far out, and any other one a global. -/
theorem store_apply (id : NodeId) (name : Token) (v : Value) (m : Machine) :
    store id name v m =
      match (match m.distances.find? id with
        | some distance => m.frames.assignAt m.active distance name.lexeme v name.line
        | none => m.frames.assign globals name.lexeme v name.line) with
      | .ok frames => .ok () { m with frames := frames }
      | .error d => .error (.raised d) m := by
  unfold store
  split
  · exact assignIn_ancestor m.active _ name v m
  · exact assignIn_holder globals name v m

/-! ### Objects -/

/-- A new closure. -/
def newClosure (c : Closure) : Run Nat := fun m =>
  .ok m.objects.closures.size
    { m with objects := { m.objects with closures := m.objects.closures.push c } }

/-- A new class. -/
def newClass (c : ClassObject) : Run Nat := fun m =>
  .ok m.objects.classes.size
    { m with objects := { m.objects with classes := m.objects.classes.push c } }

/-- A new instance of a class, without fields. -/
def newInstance (klass : Nat) : Run Nat := fun m =>
  .ok m.objects.instances.size
    { m with objects := { m.objects with instances := m.objects.instances.push ⟨klass, []⟩ } }

/-- Reads something off the objects. -/
def ofObjects {α : Type} (f : Objects → α) : Run α := fun m =>
  .ok (f m.objects) m

/-- A field of an instance gets a value. -/
def setField (object : Nat) (name : String) (v : Value) : Run Unit := fun m =>
  .ok () { m with objects := m.objects.setField object name v }

/-- A method bound to an instance: its closure, with a frame around the body that holds
`this`. -/
def bindMethod (method : Closure) (object : Nat) : Run Closure := do
  let frame ← newFrame method.captured
  define frame "this" (.object object)
  pure { method with captured := frame }

/-- A method bound to an instance, as a value. -/
def bound (method : Closure) (object : Nat) : Run Value := do
  let closure ← bindMethod method object
  pure (.callable (.closure (← newClosure closure)))

/-! ### Natives and output -/

/-- Runs a native with the time of the next reading of the clock. -/
def callNative (n : Native) (arguments : List Value) : Run Value := fun m =>
  ofExcept (n.run (m.clock m.readings) arguments) { m with readings := m.readings + 1 }

/-- Prints a text; nothing is written for an empty one. -/
def write (text : String) : Run Unit := fun m =>
  if text.isEmpty then .ok () m
  else match m.sink.answer.cut? text with
    | some cut => .error (.raised (.output cut.fault))
        { m with printed := cut.part :: m.printed, sink := m.sink.next }
    | none => .ok () { m with printed := text :: m.printed, sink := m.sink.next }

/-- Makes sure that all printed text has gone out. -/
def flush : Run Unit := fun m =>
  match m.sink.answer.flushFault? with
  | some fault => .error (.raised (.output fault)) { m with sink := m.sink.next }
  | none => .ok () { m with sink := m.sink.next }

end Run

end Lox
