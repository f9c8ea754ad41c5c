/-
Operators of trees.

An operator of a node is a token, and the evaluation of a node goes on only if the kind of that
token is an operator.  A tree operates if all of its operators are; the trees that the grammar
yields do.

* `Kind.isBinaryOperator` — the kinds that a binary node may have;
* `Expr.Operates`, `Stmt.Operates`, `FunDecl.Operates` — all operators in a tree are operators;
* `parse_operates` — statements that are parsed from a list of tokens operate, whatever the tokens
  are.
-/
import Lox.Proofs.Syntax.Soundness

namespace Lox

/-- The operators of numbers and strings, and equality. -/
def Kind.isBinaryOperator (k : Kind) : Bool :=
  Parse.factorOperators k || Parse.termOperators k || Parse.comparisonOperators k ||
    Parse.equalityOperators k

mutual

/-- All operators in an expression are operators. -/
def Expr.Operates : Expr → Prop
  | .assign _ _ value => value.Operates
  | .binary left operator right =>
    left.Operates ∧ operator.kind.isBinaryOperator = true ∧ right.Operates
  | .call callee _ arguments => callee.Operates ∧ Expr.AllOperate arguments
  | .get object _ => object.Operates
  | .grouping inner => inner.Operates
  | .logical left _ right => left.Operates ∧ right.Operates
  | .set object _ value => object.Operates ∧ value.Operates
  | .unary operator right => Parse.unaryOperators operator.kind = true ∧ right.Operates
  | .literal _ | .superRef .. | .thisRef .. | .var .. => True

/-- All operators in a list of expressions are operators. -/
def Expr.AllOperate : List Expr → Prop
  | [] => True
  | e :: es => e.Operates ∧ Expr.AllOperate es

end

/-- All operators in an expression that may be absent are operators. -/
def Expr.Operates? (e : Option Expr) : Prop :=
  ∀ e' ∈ e, e'.Operates

mutual

/-- All operators in a statement are operators. -/
def Stmt.Operates : Stmt → Prop
  | .block body => Stmt.AllOperate body
  | .classDecl _ superclass methods => Expr.Operates? superclass ∧ FunDecl.AllOperate methods
  | .expression e => e.Operates
  | .function f => f.Operates
  | .branch condition thenBranch none => condition.Operates ∧ thenBranch.Operates
  | .branch condition thenBranch (some elseBranch) =>
    condition.Operates ∧ thenBranch.Operates ∧ elseBranch.Operates
  | .print e => e.Operates
  | .ret _ value => Expr.Operates? value
  | .varDecl _ initializer => Expr.Operates? initializer
  | .loop condition body => condition.Operates ∧ body.Operates

/-- All operators in a list of statements are operators. -/
def Stmt.AllOperate : List Stmt → Prop
  | [] => True
  | s :: ss => s.Operates ∧ Stmt.AllOperate ss

/-- All operators in a function are operators. -/
def FunDecl.Operates : FunDecl → Prop
  | .mk _ _ body => Stmt.AllOperate body

/-- All operators in a list of functions are operators. -/
def FunDecl.AllOperate : List FunDecl → Prop
  | [] => True
  | f :: fs => f.Operates ∧ FunDecl.AllOperate fs

end

theorem FunDecl.Operates.body {f : FunDecl} (h : f.Operates) : Stmt.AllOperate f.body := by
  cases f with
  | mk name params body => exact h

/-- A `for` loop operates if all that it is made of does. -/
theorem Stmt.Operates.forLoop {initializer : Option Stmt} {condition increment : Option Expr}
    {body : Stmt} (hinitializer : ∀ s ∈ initializer, s.Operates)
    (hcondition : Expr.Operates? condition) (hincrement : Expr.Operates? increment)
    (hbody : body.Operates) : (Stmt.forLoop initializer condition increment body).Operates := by
  have hcond : (condition.getD (.literal (.bool true))).Operates := by
    cases condition with
    | none => trivial
    | some e => exact hcondition e rfl
  unfold Stmt.forLoop
  cases increment with
  | none =>
    cases initializer with
    | none => exact ⟨hcond, hbody⟩
    | some s => exact ⟨hinitializer s rfl, ⟨hcond, hbody⟩, trivial⟩
  | some e =>
    have hturn : (Stmt.block [body, .expression e]).Operates := ⟨hbody, hincrement e rfl, trivial⟩
    cases initializer with
    | none => exact ⟨hcond, hturn⟩
    | some s => exact ⟨hinitializer s rfl, ⟨hcond, hturn⟩, trivial⟩

namespace Concrete

/-! ### Expressions -/

/-- The operators of the levels up to equality are binary operators. -/
theorem isBinaryOperator_of_hasRank {k : Kind} {rank : Nat} (h : k.hasRank (rank + 1) = true)
    (hr : rank + 1 ≤ 4) : k.isBinaryOperator = true := by
  have hrank : k.rank? = some (rank + 1) := eq_of_beq h
  unfold Kind.rank? at hrank
  split at hrank
  all_goals first | rfl | (cases hrank; omega) | cases hrank

/-- The node of a rank operates if its operator is of the rank. -/
theorem operatorNode_operates {rank : Nat} {left right : Expr} {operator : Token}
    (hl : left.Operates) (ho : operator.kind.hasRank (rank + 1) = true) (hr : right.Operates) :
    (operatorNode (rank + 1) left operator right).Operates := by
  unfold operatorNode
  split
  · next hrank => exact ⟨hl, isBinaryOperator_of_hasRank ho hrank, hr⟩
  · exact ⟨hl, hr⟩

mutual

theorem Expression.ast_operates (first : Nat) (e : Expression) : (e.ast first).Operates := by
  cases e with
  | operation e => exact e.ast_operates first
  | assign name equals value => exact value.ast_operates (first + 1)
  | set object dot name equals value =>
    exact ⟨object.ast_operates first, value.ast_operates (first + object.ids)⟩

theorem Operation.ast_operates (first : Nat) {rank : Nat} (e : Operation rank) :
    (e.ast first).Operates := by
  cases e with
  | call c => exact c.ast_operates first
  | unary operator right => exact ⟨operator.isKind, right.ast_operates first⟩
  | operand e => exact e.ast_operates first
  | binary left operator right =>
    exact operatorNode_operates (left.ast_operates first) operator.isKind
      (right.ast_operates (first + left.ids))

theorem Call.ast_operates (first : Nat) (c : Call) : (c.ast first).Operates := by
  cases c with
  | literal t => trivial
  | thisRef keyword => trivial
  | name t => trivial
  | superRef keyword dot method => trivial
  | group opening inner closing => exact inner.ast_operates first
  | invoke callee opening closing => exact ⟨callee.ast_operates first, trivial⟩
  | invokeWith callee opening arguments closing =>
    exact ⟨callee.ast_operates first, arguments.ast_operates (first + callee.ids)⟩
  | property object dot name => exact object.ast_operates first

theorem Arguments.ast_operates (first : Nat) (es : Arguments) :
    Expr.AllOperate (es.ast first) := by
  cases es with
  | last e => exact ⟨e.ast_operates first, trivial⟩
  | more e comma others =>
    exact ⟨e.ast_operates first, others.ast_operates (first + e.ids)⟩

end

theorem Expression.ast?_operates (first : Nat) (e : Option Expression) :
    Expr.Operates? (e.map (Expression.ast first)) := by
  intro e' he'
  obtain ⟨t, -, rfl⟩ := Option.map_eq_some_iff.mp he'
  exact t.ast_operates first

/-! ### Declarations and statements -/

theorem VarDecl.ast_operates (first : Nat) (v : VarDecl) : (v.ast first).Operates :=
  Expression.ast?_operates first v.value?

theorem ForClause.ast_operates (first : Nat) (i : ForClause) :
    ∀ s ∈ i.ast first, s.Operates := by
  intro s hs
  cases i with
  | absent semicolon => cases hs
  | varDecl v =>
    cases hs
    exact v.ast_operates first
  | expression e semicolon =>
    cases hs
    exact e.ast_operates first

mutual

theorem Declaration.ast_operates (first : Nat) (d : Declaration) : (d.ast first).Operates := by
  cases d with
  | classDecl keyword name superclass opening methods closing =>
    refine ⟨fun e he => ?_, Function.astIn_operates _ methods⟩
    obtain ⟨s, -, rfl⟩ := Option.map_eq_some_iff.mp he
    trivial
  | function keyword f => exact f.ast_operates first
  | varDecl v => exact v.ast_operates first
  | statement s => exact s.ast_operates first

theorem Declaration.astIn_operates (first : Nat) (ds : List Declaration) :
    Stmt.AllOperate (Declaration.astIn first ds) := by
  cases ds with
  | nil => trivial
  | cons d ds => exact ⟨d.ast_operates first, Declaration.astIn_operates (first + d.ids) ds⟩

theorem Function.ast_operates (first : Nat) (f : Function) : (f.ast first).Operates := by
  cases f with
  | mk name opening params closing bodyOpening body bodyClosing =>
    exact Declaration.astIn_operates first body

theorem Function.astIn_operates (first : Nat) (fs : List Function) :
    FunDecl.AllOperate (Function.astIn first fs) := by
  cases fs with
  | nil => trivial
  | cons f fs => exact ⟨f.ast_operates first, Function.astIn_operates (first + f.ids) fs⟩

theorem Statement.ast_operates (first : Nat) (s : Statement) : (s.ast first).Operates := by
  cases s with
  | expression e semicolon => exact e.ast_operates first
  | print keyword e semicolon => exact e.ast_operates first
  | ret keyword value semicolon => exact Expression.ast?_operates first value
  | block opening body closing => exact Declaration.astIn_operates first body
  | loop keyword opening condition closing body =>
    exact ⟨condition.ast_operates first, body.ast_operates (first + condition.ids)⟩
  | forLoop keyword opening initializer condition semicolon increment closing body =>
    exact .forLoop (initializer.ast_operates _) (Expression.ast?_operates _ condition)
      (Expression.ast?_operates _ increment) (body.ast_operates _)
  | branch keyword opening condition closing thenBranch =>
    exact ⟨condition.ast_operates first, thenBranch.ast_operates (first + condition.ids)⟩
  | branchElse keyword opening condition closing thenBranch otherwise elseBranch =>
    exact ⟨condition.ast_operates first, thenBranch.ast_operates (first + condition.ids),
      elseBranch.ast_operates (first + condition.ids + thenBranch.ids)⟩

end

end Concrete

/-- Statements that are parsed from a list of tokens operate. -/
theorem parse_operates {tokens : List Token} {firstId : NodeId} {statements : List Stmt}
    (h : (parse tokens firstId).result = .ok statements) : Stmt.AllOperate statements := by
  obtain ⟨ts, -, rfl, -⟩ := Concrete.exists_treesOf h
  exact Concrete.Declaration.astIn_operates firstId ts

end Lox
