/-
Syntax trees.

Expressions, statements and function declarations.  The four kinds of expression that refer to a
binding (a variable, an assignment, `this` and `super`) carry a number of their own, `NodeId`,
by which the distance to that binding is recorded.

Design notes: trees keep the tokens they were read from, so that a fault in a running program has
a line.  A superclass is an expression, of which the grammar produces variables only.
-/
import Lox.Token.Basic

namespace Lox

/-- The number of a node that refers to a binding. -/
abbrev NodeId := Nat

/-- A value that stands in the text. -/
inductive Literal where
  | number (x : Float)
  | string (s : String)
  | bool (b : Bool)
  | nil
deriving Inhabited

/-- Expressions. -/
inductive Expr where
  /-- `name = value` -/
  | assign (id : NodeId) (name : Token) (value : Expr)
  /-- arithmetic, comparison and equality -/
  | binary (left : Expr) (operator : Token) (right : Expr)
  /-- a call, with its closing parenthesis -/
  | call (callee : Expr) (paren : Token) (arguments : List Expr)
  /-- `object.name` -/
  | get (object : Expr) (name : Token)
  | grouping (inner : Expr)
  | literal (value : Literal)
  /-- `and` and `or` -/
  | logical (left : Expr) (operator : Token) (right : Expr)
  /-- `object.name = value` -/
  | set (object : Expr) (name : Token) (value : Expr)
  /-- `super.method` -/
  | superRef (id : NodeId) (keyword method : Token)
  /-- `this` -/
  | thisRef (id : NodeId) (keyword : Token)
  | unary (operator : Token) (right : Expr)
  | var (id : NodeId) (name : Token)
deriving Inhabited

mutual

/-- Statements. -/
inductive Stmt where
  | block (body : List Stmt)
  | classDecl (name : Token) (superclass : Option Expr) (methods : List FunDecl)
  | expression (e : Expr)
  | function (f : FunDecl)
  | branch (condition : Expr) (thenBranch : Stmt) (elseBranch : Option Stmt)
  | print (e : Expr)
  | ret (keyword : Token) (value : Option Expr)
  | varDecl (name : Token) (initializer : Option Expr)
  | loop (condition : Expr) (body : Stmt)

/-- A function or method: its name, parameters and body. -/
inductive FunDecl where
  | mk (name : Token) (params : List Token) (body : List Stmt)

end

instance : Inhabited Stmt := ⟨.block []⟩

instance : Inhabited FunDecl := ⟨.mk default [] []⟩

/-- The name of the method that initializes an instance. -/
def initializerName : String := "init"

namespace FunDecl

/-- The name of a function. -/
def name : FunDecl → Token
  | mk name _ _ => name

/-- The parameters of a function. -/
def params : FunDecl → List Token
  | mk _ params _ => params

/-- The body of a function. -/
def body : FunDecl → List Stmt
  | mk _ _ body => body

/-- The number of arguments that a function takes. -/
def arity (f : FunDecl) : Nat :=
  f.params.length

/-- A method of this name initializes an instance. -/
def isInitializer (f : FunDecl) : Bool :=
  f.name.lexeme == initializerName

end FunDecl

end Lox
