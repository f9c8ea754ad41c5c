/-
Occurrences of names.

An occurrence is a node that refers to a binding: a variable, an assignment, `this` or `super`.
`occurrences` lists those of a program in the order of the text.
-/
import Lox.Syntax.Tree

namespace Lox

/-- The kinds of node that refer to a binding. -/
inductive OccurrenceKind where
  | variable_
  | assign
  | this_
  | super_
deriving Repr, DecidableEq

/-- A node that refers to a binding, with the token of the name it refers to. -/
structure Occurrence where
  id : NodeId
  kind : OccurrenceKind
  token : Token

mutual

/-- The occurrences in an expression. -/
def Expr.occurrences : Expr → List Occurrence
  | .assign id name value => ⟨id, .assign, name⟩ :: value.occurrences
  | .binary left _ right => left.occurrences ++ right.occurrences
  | .call callee _ arguments => callee.occurrences ++ Expr.occurrencesIn arguments
  | .get object _ => object.occurrences
  | .grouping inner => inner.occurrences
  | .literal _ => []
  | .logical left _ right => left.occurrences ++ right.occurrences
  | .set object _ value => object.occurrences ++ value.occurrences
  | .superRef id keyword _ => [⟨id, .super_, keyword⟩]
  | .thisRef id keyword => [⟨id, .this_, keyword⟩]
  | .unary _ right => right.occurrences
  | .var id name => [⟨id, .variable_, name⟩]

/-- The occurrences in a list of expressions. -/
def Expr.occurrencesIn : List Expr → List Occurrence
  | [] => []
  | e :: es => e.occurrences ++ Expr.occurrencesIn es

end

/-- The occurrences in an expression that may be absent. -/
def Expr.occurrencesOf? (e : Option Expr) : List Occurrence :=
  (e.map Expr.occurrences).getD []

mutual

/-- The occurrences in a statement. -/
def Stmt.occurrences : Stmt → List Occurrence
  | .block body => Stmt.occurrencesIn body
  | .classDecl _ superclass methods =>
    Expr.occurrencesOf? superclass ++ FunDecl.occurrencesIn methods
  | .expression e => e.occurrences
  | .function f => f.occurrences
  | .branch condition thenBranch none => condition.occurrences ++ thenBranch.occurrences
  | .branch condition thenBranch (some elseBranch) =>
    condition.occurrences ++ thenBranch.occurrences ++ elseBranch.occurrences
  | .print e => e.occurrences
  | .ret _ value => Expr.occurrencesOf? value
  | .varDecl _ initializer => Expr.occurrencesOf? initializer
  | .loop condition body => condition.occurrences ++ body.occurrences

/-- The occurrences in a list of statements. -/
def Stmt.occurrencesIn : List Stmt → List Occurrence
  | [] => []
  | s :: ss => s.occurrences ++ Stmt.occurrencesIn ss

/-- The occurrences in a function. -/
def FunDecl.occurrences : FunDecl → List Occurrence
  | .mk _ _ body => Stmt.occurrencesIn body

/-- The occurrences in a list of functions. -/
def FunDecl.occurrencesIn : List FunDecl → List Occurrence
  | [] => []
  | f :: fs => f.occurrences ++ FunDecl.occurrencesIn fs

end

end Lox
