/-
Scopes.

A scope holds the names that are visible in it.  A name is declared when its declaration begins
and defined when it has a value; between the two stands its initializer.

* `distance?` — how many scopes out a name is first found.

Design notes: the scopes around a place in a program are a list, the innermost first.  The
global scope is not among them: what is declared outside of all scopes is not recorded, and a name
that no scope has is global.
-/
import Lox.Binding.Distances
import Lox.Diagnostic
import Lox.NameTable

namespace Lox

/-- The names of a scope; those that are defined are marked `true`. -/
abbrev Scope := NameTable Bool

/-- How many scopes out a name is first found. -/
def distance? (scopes : List Scope) (name : String) : Option Nat :=
  scopes.findIdx? fun s => s.contains name

/-- The state of finding bindings. -/
structure Walk where
  /-- the scopes around the place, the innermost first -/
  scopes : List Scope
  distances : Distances
  /-- the faults found so far, the latest first -/
  faults : List Diagnostic

namespace Walk

/-- The state before a program. -/
def start : Walk := ⟨[], [], []⟩

/-- Notes a fault. -/
def report (w : Walk) (token : Token) (fault : BindingFault) : Walk :=
  { w with faults := .binding token fault :: w.faults }

/-- Opens a scope that has some names from the start. -/
def enter (w : Walk) (scope : Scope) : Walk :=
  { w with scopes := scope :: w.scopes }

/-- Closes the innermost scope. -/
def leave (w : Walk) : Walk :=
  { w with scopes := w.scopes.tail }

/-- Declares a name in the innermost scope, where it must be new. -/
def declare (w : Walk) (name : Token) : Walk :=
  match w.scopes with
  | [] => w
  | scope :: outer =>
    if scope.contains name.lexeme then w.report name .alreadyDeclared
    else { w with scopes := scope.insert name.lexeme false :: outer }

/-- Defines a name in the innermost scope. -/
def define (w : Walk) (name : Token) : Walk :=
  match w.scopes with
  | [] => w
  | scope :: outer => { w with scopes := scope.insert name.lexeme true :: outer }

/-- Declares and defines a name. -/
def declareDefined (w : Walk) (name : Token) : Walk :=
  (w.declare name).define name

/-- Declares and defines several names. -/
def declareAll (w : Walk) (names : List Token) : Walk :=
  names.foldl declareDefined w

/-- Records the distance of a node from the binding of a name, if a scope has the name. -/
def record (w : Walk) (id : NodeId) (name : Token) : Walk :=
  match distance? w.scopes name.lexeme with
  | some d => { w with distances := (id, d) :: w.distances }
  | none => w

/-- The innermost scope has a name that is declared and not defined. -/
def isPending (w : Walk) (name : Token) : Bool :=
  match w.scopes with
  | [] => false
  | scope :: _ => scope.find? name.lexeme == some false

end Walk

end Lox
