/-
Values.

A value is plain data or the number of an object.  Two values are equal if they are the same
data or the same object; values of different kinds are never equal, and a number is compared as
a number, so that NaN differs from itself.
-/
import Lox.Number.Style
import Lox.Syntax.Tree

namespace Lox

/-- The number of a frame. -/
abbrev FrameId := Nat

/-- What can be called, by the number of the object. -/
inductive Callable where
  | native (id : Nat)
  | closure (id : Nat)
  | klass (id : Nat)
deriving Repr, DecidableEq

/-- The values of a running program. -/
inductive Value where
  | nil
  | bool (b : Bool)
  | number (x : Float)
  | string (s : String)
  | callable (c : Callable)
  | object (id : Nat)
deriving Inhabited

namespace Value

/-- `nil`, `false` and the empty string are false, all other values true. -/
def isTruthy : Value → Bool
  | nil => false
  | bool b => b
  | string s => !s.isEmpty
  | _ => true

/-- Equality of values. -/
def equals : Value → Value → Bool
  | nil, nil => true
  | bool a, bool b => a == b
  | number a, number b => a == b
  | string a, string b => a == b
  | callable a, callable b => a == b
  | object a, object b => a == b
  | _, _ => false

/-- Numbers as values: integers are exact and have no point, all others have their shortest
digits in positional form. -/
def numberStyle : Number.Style where
  exactBelow := none
  exactPoint := false
  shortestPoint := false
  plain := none
  tie := .up

end Value

/-- The value of a literal. -/
def Literal.value : Literal → Value
  | number x => .number x
  | string s => .string s
  | bool b => .bool b
  | nil => .nil

end Lox
