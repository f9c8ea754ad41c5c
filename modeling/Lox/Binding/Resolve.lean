/-
Bindings of a program.

`resolve` finds for every occurrence of a name how far out its binding is, and reports each misuse
of a name, of `return`, of `this` and of `super`.  It visits a program in the order of the text,
with one exception: a value that is assigned comes before its target.

Design notes: what surrounds a place is of two kinds.  The scopes change from statement to
statement and are part of the state; the enclosing function and class do not, and are given
(`Context`).  A fault never ends the walk.
-/
import Lox.Binding.Scopes

namespace Lox

/-- The innermost function around a place. -/
inductive Surrounding where
  | noFunction
  | function
  | method
  | initializer
deriving Repr, DecidableEq

/-- The innermost class around a place. -/
inductive SurroundingClass where
  | noClass
  | rootClass
  | subclass
deriving Repr, DecidableEq

/-- What surrounds a place. -/
structure Context where
  routine : Surrounding
  klass : SurroundingClass

/-- The top level of a program. -/
def Context.top : Context := ⟨.noFunction, .noClass⟩

/-- What a method is to the statements in it. -/
def FunDecl.methodContext (f : FunDecl) : Surrounding :=
  if f.isInitializer then .initializer else .method

/-- Reports a use of `super` that no superclass stands behind. -/
def Walk.checkSuper (w : Walk) (context : Context) (keyword : Token) : Walk :=
  match context.klass with
  | .noClass => w.report keyword .superOutsideClass
  | .rootClass => w.report keyword .superWithoutSuperclass
  | .subclass => w

/-- Reports a `return` outside of functions, or one with a value inside of an initializer. -/
def Walk.checkReturn (w : Walk) (context : Context) (keyword : Token) (hasValue : Bool) : Walk :=
  match context.routine with
  | .noFunction => w.report keyword .returnAtTopLevel
  | .initializer => if hasValue then w.report keyword .valueFromInitializer else w
  | _ => w

/-- Reports a class that names itself as its superclass. -/
def Walk.checkSuperclass (w : Walk) (name : Token) : Expr → Walk
  | .var _ super => if super.lexeme = name.lexeme then w.report super .selfInheritance else w
  | _ => w

mutual

/-- Finds the bindings in an expression. -/
def Expr.resolve (context : Context) (w : Walk) : Expr → Walk
  | .assign id name value => (value.resolve context w).record id name
  | .binary left _ right => right.resolve context (left.resolve context w)
  | .call callee _ arguments => Expr.resolveList context (callee.resolve context w) arguments
  | .get object _ => object.resolve context w
  | .grouping inner => inner.resolve context w
  | .literal _ => w
  | .logical left _ right => right.resolve context (left.resolve context w)
  | .set object _ value => object.resolve context (value.resolve context w)
  | .superRef id keyword _ => (w.checkSuper context keyword).record id keyword
  | .thisRef id keyword =>
    if context.klass = .noClass then w.report keyword .thisOutsideClass else w.record id keyword
  | .unary _ right => right.resolve context w
  | .var id name => (if w.isPending name then w.report name .ownInitializer else w).record id name

/-- Finds the bindings in a list of expressions. -/
def Expr.resolveList (context : Context) (w : Walk) : List Expr → Walk
  | [] => w
  | e :: es => Expr.resolveList context (e.resolve context w) es

end

/-- Finds the bindings in an expression that may be absent. -/
def Expr.resolve? (context : Context) (w : Walk) : Option Expr → Walk
  | none => w
  | some e => e.resolve context w

mutual

/-- Finds the bindings in a statement. -/
def Stmt.resolve (context : Context) (w : Walk) : Stmt → Walk
  | .block body => (Stmt.resolveList context (w.enter []) body).leave
  | .classDecl name none methods =>
    (FunDecl.resolveMethods { context with klass := .rootClass }
      ((w.declareDefined name).enter [("this", true)]) methods).leave
  | .classDecl name (some superclass) methods =>
    let inner := { context with klass := .subclass }
    let w := superclass.resolve inner ((w.declareDefined name).checkSuperclass name superclass)
    let w := (w.enter [("super", true)]).enter [("this", true)]
    (FunDecl.resolveMethods inner w methods).leave.leave
  | .expression e => e.resolve context w
  | .function f => f.resolve { context with routine := .function } (w.declareDefined f.name)
  | .branch condition thenBranch none => thenBranch.resolve context (condition.resolve context w)
  | .branch condition thenBranch (some elseBranch) =>
    elseBranch.resolve context (thenBranch.resolve context (condition.resolve context w))
  | .print e => e.resolve context w
  | .ret keyword value =>
    Expr.resolve? context (w.checkReturn context keyword value.isSome) value
  | .varDecl name initializer => (Expr.resolve? context (w.declare name) initializer).define name
  | .loop condition body => body.resolve context (condition.resolve context w)

/-- Finds the bindings in a list of statements. -/
def Stmt.resolveList (context : Context) (w : Walk) : List Stmt → Walk
  | [] => w
  | s :: ss => Stmt.resolveList context (s.resolve context w) ss

/-- Finds the bindings in a function: its parameters and its body are in one scope. -/
def FunDecl.resolve (context : Context) (w : Walk) : FunDecl → Walk
  | .mk _ params body => (Stmt.resolveList context ((w.enter []).declareAll params) body).leave

/-- Finds the bindings in the methods of a class. -/
def FunDecl.resolveMethods (context : Context) (w : Walk) : List FunDecl → Walk
  | [] => w
  | f :: fs =>
    FunDecl.resolveMethods context (f.resolve { context with routine := f.methodContext } w) fs

end

/-- What is found about the names in a program. -/
structure Resolution where
  distances : Distances
  faults : List Diagnostic

/-- The distances in a program, and every misuse of a name in the order in which it is met. -/
def resolve (program : List Stmt) : Resolution :=
  let w := Stmt.resolveList .top .start program
  ⟨w.distances, w.faults.reverse⟩

end Lox
