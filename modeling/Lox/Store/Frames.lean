/-
Frames.

A frame holds the variables of one activation of a scope and links to the frame of the scope
around it.  Frames are only ever added; their numbers and links never change.

* `get`, `assign` — the nearest frame that has a name, from a given frame outwards;
* `getAt`, `assignAt` — the frame a given number of links out, and no other.

Design notes: a missing frame has no variables and no link, so that every operation is total.
-/
import Lox.Diagnostic
import Lox.NameTable
import Lox.Store.Chain
import Lox.Store.Value

namespace Lox

/-- The variables of a scope and the frame around it. -/
structure Frame where
  values : NameTable Value
  parent : Option FrameId
deriving Inhabited

/-- All frames, by number. -/
structure Frames where
  all : Array Frame

namespace Frames

/-- No frames. -/
def empty : Frames := ⟨#[]⟩

/-- The number of the next frame. -/
def size (s : Frames) : Nat :=
  s.all.size

/-- A new frame inside of `parent`, or a frame of its own. -/
def push (s : Frames) (parent : Option FrameId) : Frames :=
  ⟨s.all.push ⟨[], parent⟩⟩

/-- The frame around a frame. -/
def parent? (s : Frames) (f : FrameId) : Option FrameId :=
  s.all[f]?.bind Frame.parent

/-- The variable of a name in a frame. -/
def value? (s : Frames) (f : FrameId) (name : String) : Option Value :=
  s.all[f]?.bind fun frame => frame.values.find? name

/-- A frame has a name. -/
def defines (s : Frames) (f : FrameId) (name : String) : Bool :=
  (s.value? f name).isSome

/-- The variable of a name in a frame gets a value, whether it was there or not. -/
def define (s : Frames) (f : FrameId) (name : String) (v : Value) : Frames :=
  ⟨s.all.modify f fun frame => { frame with values := frame.values.insert name v }⟩

/-- The frames from a frame outwards. -/
def outwards (s : Frames) (f : FrameId) : List FrameId :=
  chain s.parent? f

/-- The nearest frame outwards that has a name. -/
def holder? (s : Frames) (f : FrameId) (name : String) : Option FrameId :=
  (s.outwards f).find? fun g => s.defines g name

/-- The fault of a name that no frame has. -/
def undefined (name : String) (line : Nat) : Diagnostic :=
  .runtime line (.undefinedVariable name)

/-- The variable of a name in the nearest frame that has it. -/
def get (s : Frames) (f : FrameId) (name : String) (line : Nat) : Except Diagnostic Value :=
  match (s.outwards f).findSome? fun g => s.value? g name with
  | some v => .ok v
  | none => .error (undefined name line)

/-- The variable of a name in the nearest frame that has it gets a value. -/
def assign (s : Frames) (f : FrameId) (name : String) (v : Value) (line : Nat) :
    Except Diagnostic Frames :=
  match s.holder? f name with
  | some g => .ok (s.define g name v)
  | none => .error (undefined name line)

/-- The frame a number of links out. -/
def ancestor? (s : Frames) (f : FrameId) : (distance : Nat) → Option FrameId
  | 0 => some f
  | distance + 1 =>
    match s.parent? f with
    | none => none
    | some g => s.ancestor? g distance

/-- The variable of a name in the frame a number of links out. -/
def getAt (s : Frames) (f : FrameId) (distance : Nat) (name : String) (line : Nat) :
    Except Diagnostic Value :=
  match (s.ancestor? f distance).bind fun g => s.value? g name with
  | some v => .ok v
  | none => .error (undefined name line)

/-- The variable of a name in the frame a number of links out gets a value. -/
def assignAt (s : Frames) (f : FrameId) (distance : Nat) (name : String) (v : Value) (line : Nat) :
    Except Diagnostic Frames :=
  match s.ancestor? f distance with
  | some g => .ok (s.define g name v)
  | none => .error (undefined name line)

end Frames

end Lox
