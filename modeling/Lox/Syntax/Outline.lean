/-
Outlines of expressions.

`Expr.outline` writes an expression in prefix form with parentheses, `(+ 1.0 (group 2.0))`, in
which the nesting of the tree shows.
-/
import Lox.Syntax.Tree

namespace Lox

/-- Numbers in outlines: integers are exact and have one decimal place, all others have their
shortest digits in positional form. -/
def outlineStyle : Number.Style where
  exactBelow := none
  exactPoint := true
  shortestPoint := false
  plain := none
  tie := .up

/-- A literal in an outline; a string stands without quotes. -/
def Literal.outline : Literal → String
  | number x => outlineStyle.write x
  | string s => s
  | bool true => "true"
  | bool false => "false"
  | nil => "nil"

mutual

/-- The prefix form of an expression. -/
def Expr.outline : Expr → String
  | .assign _ name value => "(= " ++ name.lexeme ++ " " ++ value.outline ++ ")"
  | .binary left operator right =>
    "(" ++ operator.lexeme ++ " " ++ left.outline ++ " " ++ right.outline ++ ")"
  | .call callee _ arguments => "(call " ++ callee.outline ++ Expr.outlineArguments arguments ++ ")"
  | .get object name => "(. " ++ object.outline ++ " " ++ name.lexeme ++ ")"
  | .grouping inner => "(group " ++ inner.outline ++ ")"
  | .literal value => value.outline
  | .logical left operator right =>
    "(" ++ operator.lexeme ++ " " ++ left.outline ++ " " ++ right.outline ++ ")"
  | .set object name value =>
    "(= (. " ++ object.outline ++ " " ++ name.lexeme ++ ") " ++ value.outline ++ ")"
  | .superRef _ _ method => "(super " ++ method.lexeme ++ ")"
  | .thisRef _ _ => "this"
  | .unary operator right => "(" ++ operator.lexeme ++ " " ++ right.outline ++ ")"
  | .var _ name => name.lexeme

/-- The arguments of a call, each behind a blank. -/
def Expr.outlineArguments : List Expr → String
  | [] => ""
  | e :: es => " " ++ e.outline ++ Expr.outlineArguments es

end

/-- The outline of a statement that is an expression or prints one. -/
def Stmt.outline? : Stmt → Option String
  | .expression e => some e.outline
  | .print e => some e.outline
  | _ => none

end Lox
