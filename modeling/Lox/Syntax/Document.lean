/-
Syntax trees as JSON documents.

A node is an object with one member, named for its kind; the parts of the node follow in the
order in which they stand in the tree, and an absent part is `null`.
-/
import Lox.Syntax.Tree

namespace Lox

/-- An object with one member, named for the kind of a node. -/
def Json.node (kind : String) (content : Json) : Json :=
  .object [(kind, content)]

/-- A literal as a document. -/
def Literal.toJson : Literal → Json
  | number x => .node "Number" (.number x)
  | string s => .node "Str" (.string s)
  | bool true => .string "True"
  | bool false => .string "False"
  | nil => .string "Nil"

mutual

/-- An expression as a document. -/
def Expr.toJson : Expr → Json
  | .assign id name value =>
    .node "Assign" (.object [("id", .natural id), ("name", name.toJson), ("value", value.toJson)])
  | .binary left operator right =>
    .node "Binary" (.object
      [("left", left.toJson), ("operator", operator.toJson), ("right", right.toJson)])
  | .call callee paren arguments =>
    .node "Call" (.object
      [("callee", callee.toJson), ("paren", paren.toJson),
       ("arguments", .list (Expr.toJsonList arguments))])
  | .get object name => .node "Get" (.object [("object", object.toJson), ("name", name.toJson)])
  | .grouping inner => .node "Grouping" inner.toJson
  | .literal value => .node "Literal" value.toJson
  | .logical left operator right =>
    .node "Logical" (.object
      [("left", left.toJson), ("operator", operator.toJson), ("right", right.toJson)])
  | .set object name value =>
    .node "Set" (.object
      [("object", object.toJson), ("name", name.toJson), ("value", value.toJson)])
  | .superRef id keyword method =>
    .node "Super" (.object
      [("id", .natural id), ("keyword", keyword.toJson), ("method", method.toJson)])
  | .thisRef id keyword =>
    .node "This" (.object [("id", .natural id), ("keyword", keyword.toJson)])
  | .unary operator right =>
    .node "Unary" (.object [("operator", operator.toJson), ("right", right.toJson)])
  | .var id name => .node "Variable" (.object [("id", .natural id), ("name", name.toJson)])

/-- Expressions as documents. -/
def Expr.toJsonList : List Expr → List Json
  | [] => []
  | e :: es => e.toJson :: Expr.toJsonList es

end

/-- An expression that may be absent. -/
def Expr.toJson? (e : Option Expr) : Json :=
  (e.map Expr.toJson).getD .null

mutual

/-- A statement as a document. -/
def Stmt.toJson : Stmt → Json
  | .block body => .node "Block" (.list (Stmt.toJsonList body))
  | .classDecl name superclass methods =>
    .node "Class" (.object
      [("name", name.toJson), ("superclass", Expr.toJson? superclass),
       ("methods", .list (FunDecl.toJsonList methods))])
  | .expression e => .node "Expression" e.toJson
  | .function f => .node "Function" f.toJson
  | .branch condition thenBranch none =>
    .node "If" (.object
      [("condition", condition.toJson), ("then_branch", thenBranch.toJson), ("else_branch", .null)])
  | .branch condition thenBranch (some elseBranch) =>
    .node "If" (.object
      [("condition", condition.toJson), ("then_branch", thenBranch.toJson),
       ("else_branch", elseBranch.toJson)])
  | .print e => .node "Print" e.toJson
  | .ret keyword value =>
    .node "Return" (.object [("keyword", keyword.toJson), ("value", Expr.toJson? value)])
  | .varDecl name initializer =>
    .node "Var" (.object [("name", name.toJson), ("initializer", Expr.toJson? initializer)])
  | .loop condition body =>
    .node "While" (.object [("condition", condition.toJson), ("body", body.toJson)])

/-- Statements as documents. -/
def Stmt.toJsonList : List Stmt → List Json
  | [] => []
  | s :: ss => s.toJson :: Stmt.toJsonList ss

/-- A function as a document. -/
def FunDecl.toJson : FunDecl → Json
  | .mk name params body =>
    .object
      [("name", name.toJson), ("params", .list (params.map Token.toJson)),
       ("body", .list (Stmt.toJsonList body))]

/-- Functions as documents. -/
def FunDecl.toJsonList : List FunDecl → List Json
  | [] => []
  | f :: fs => f.toJson :: FunDecl.toJsonList fs

end

/-- A program as a document. -/
def Stmt.programJson (program : List Stmt) : Json :=
  .list (Stmt.toJsonList program)

end Lox
