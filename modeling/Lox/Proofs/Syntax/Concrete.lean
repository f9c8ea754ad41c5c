/-
Concrete syntax.

The trees of the grammar, in which each production is a constructor and each leaf a token of the
kind that the grammar calls for.  A tree has its leaves in the order of the text, and it has an
abstract syntax, the nodes of which are numbered from a given number on.

* `Concrete.Expression`, `Concrete.Declaration` — the trees;
* `leaves`, `ids`, `ast` — the tokens of a tree, how many numbers its nodes take, and its abstract
  syntax;
* `Legal` — the lists in a tree are not too long, and no `else` stands behind a branch that could
  take it;
* `Declaration.leaves_begin`, `Declaration.leaves_not_end` — with what a tree begins, and that no
  leaf is the end of the source.

Design notes: the six levels of binary operators are one type, `Operation rank`, where the operators
of a smaller rank bind tighter.  A chain of operators of one level is a tree that grows to the left.
What stands behind an operand can only be taken for a part of it if it has a rank, `Kind.rank?`.
-/
import Lox.Syntax.Grammar

namespace Lox

/-- The value of a literal, if a kind is one. -/
def Kind.literal? : Kind → Option Literal
  | .keyword .false_ => some (.bool false)
  | .keyword .true_ => some (.bool true)
  | .keyword .nil_ => some .nil
  | .number x => some (.number x)
  | .string s => some (.string s)
  | _ => none

/-- How loosely a kind binds to what stands before it, if it can go on behind an expression: calls
and properties bind the tightest, assignment the loosest. -/
def Kind.rank? : Kind → Option Nat
  | .mark .leftParen | .mark .dot => some 0
  | .mark .slash | .mark .star => some 1
  | .mark .minus | .mark .plus => some 2
  | .mark .greater | .mark .greaterEqual | .mark .less | .mark .lessEqual => some 3
  | .mark .bangEqual | .mark .equalEqual => some 4
  | .keyword .and_ => some 5
  | .keyword .or_ => some 6
  | .mark .equal => some 7
  | _ => none

/-- The kind binds with this rank. -/
def Kind.hasRank (rank : Nat) (k : Kind) : Bool :=
  k.rank? == some rank

/-- The kinds with which a call begins. -/
def Kind.opensCall : Kind → Bool
  | .keyword .false_ | .keyword .true_ | .keyword .nil_ | .keyword .this_ | .keyword .super_ => true
  | .number _ | .string _ | .identifier | .mark .leftParen => true
  | _ => false

/-- The kinds with which an expression begins. -/
def Kind.opensExpression (k : Kind) : Bool :=
  k.opensCall || Parse.unaryOperators k

/-- The kinds with which a statement begins. -/
def Kind.opensStatement : Kind → Bool
  | .keyword .for_ | .keyword .if_ | .keyword .while_ | .keyword .print_ | .keyword .return_ => true
  | .mark .leftBrace => true
  | k => k.opensExpression

/-- The kinds with which a declaration begins. -/
def Kind.opensDeclaration : Kind → Bool
  | .keyword .class_ | .keyword .fun_ | .keyword .var_ => true
  | k => k.opensStatement

namespace Concrete

/-- A token of a kind in `p`. -/
structure Leaf (p : Kind → Bool) where
  token : Token
  isKind : p token.kind = true

abbrev Punctuation (m : Mark) := Leaf (Kind.isMark m)

abbrev Word (k : Keyword) := Leaf (Kind.isKeyword k)

abbrev Name := Leaf Kind.isIdentifier

/-! ### Trees -/

mutual

/-- `expression`, which is `assignment`. -/
inductive Expression : Type where
  | operation (e : Operation 6)
  | assign (name : Name) (equals : Punctuation .equal) (value : Expression)
  | set (object : Call) (dot : Punctuation .dot) (name : Name) (equals : Punctuation .equal)
      (value : Expression)

/-- `unary` (rank 0), `factor` (1), `term` (2), `comparison` (3), `equality` (4), `and` (5) and `or`
(6). -/
inductive Operation : Nat → Type where
  | call (c : Call) : Operation 0
  | unary (operator : Leaf Parse.unaryOperators) (right : Operation 0) : Operation 0
  | operand {rank : Nat} (e : Operation rank) : Operation (rank + 1)
  | binary {rank : Nat} (left : Operation (rank + 1)) (operator : Leaf (Kind.hasRank (rank + 1)))
      (right : Operation rank) : Operation (rank + 1)

/-- `call` and `primary`. -/
inductive Call : Type where
  | literal (t : Leaf fun k => k.literal?.isSome)
  | thisRef (keyword : Word .this_)
  | name (t : Name)
  | superRef (keyword : Word .super_) (dot : Punctuation .dot) (method : Name)
  | group (opening : Punctuation .leftParen) (inner : Expression)
      (closing : Punctuation .rightParen)
  | invoke (callee : Call) (opening : Punctuation .leftParen) (closing : Punctuation .rightParen)
  | invokeWith (callee : Call) (opening : Punctuation .leftParen) (arguments : Arguments)
      (closing : Punctuation .rightParen)
  | property (object : Call) (dot : Punctuation .dot) (name : Name)

/-- `arguments`, of which there is at least one. -/
inductive Arguments : Type where
  | last (e : Expression)
  | more (e : Expression) (comma : Punctuation .comma) (others : Arguments)

end

/-- `parameters`, of which there is at least one. -/
inductive Parameters : Type where
  | last (name : Name)
  | more (name : Name) (comma : Punctuation .comma) (others : Parameters)

/-- The value of a variable declaration with its sign. -/
structure Initial where
  equals : Punctuation .equal
  value : Expression

/-- `varDecl`. -/
structure VarDecl where
  keyword : Word .var_
  name : Name
  initial : Option Initial
  semicolon : Punctuation .semicolon

/-- The first clause of `forStmt` with its semicolon. -/
inductive ForClause : Type where
  | absent (semicolon : Punctuation .semicolon)
  | varDecl (v : VarDecl)
  | expression (e : Expression) (semicolon : Punctuation .semicolon)

/-- The superclass of a class with its sign. -/
structure Superclass where
  less : Punctuation .less
  name : Name

mutual

/-- `declaration`. -/
inductive Declaration : Type where
  | classDecl (keyword : Word .class_) (name : Name) (superclass : Option Superclass)
      (opening : Punctuation .leftBrace) (methods : List Function)
      (closing : Punctuation .rightBrace)
  | function (keyword : Word .fun_) (f : Function)
  | varDecl (v : VarDecl)
  | statement (s : Statement)

/-- `function`. -/
inductive Function : Type where
  | mk (name : Name) (opening : Punctuation .leftParen) (params : Option Parameters)
      (closing : Punctuation .rightParen) (bodyOpening : Punctuation .leftBrace)
      (body : List Declaration) (bodyClosing : Punctuation .rightBrace)

/-- `statement`. -/
inductive Statement : Type where
  | expression (e : Expression) (semicolon : Punctuation .semicolon)
  | print (keyword : Word .print_) (e : Expression) (semicolon : Punctuation .semicolon)
  | ret (keyword : Word .return_) (value : Option Expression) (semicolon : Punctuation .semicolon)
  | block (opening : Punctuation .leftBrace) (body : List Declaration)
      (closing : Punctuation .rightBrace)
  | loop (keyword : Word .while_) (opening : Punctuation .leftParen) (condition : Expression)
      (closing : Punctuation .rightParen) (body : Statement)
  | forLoop (keyword : Word .for_) (opening : Punctuation .leftParen) (initializer : ForClause)
      (condition : Option Expression) (semicolon : Punctuation .semicolon)
      (increment : Option Expression) (closing : Punctuation .rightParen) (body : Statement)
  | branch (keyword : Word .if_) (opening : Punctuation .leftParen) (condition : Expression)
      (closing : Punctuation .rightParen) (thenBranch : Statement)
  | branchElse (keyword : Word .if_) (opening : Punctuation .leftParen) (condition : Expression)
      (closing : Punctuation .rightParen) (thenBranch : Statement) (otherwise : Word .else_)
      (elseBranch : Statement)

end

/-! ### Expressions -/

mutual

/-- The tokens of an expression. -/
def Expression.leaves : Expression → List Token
  | .operation e => e.leaves
  | .assign name equals value => name.token :: equals.token :: value.leaves
  | .set object dot name equals value =>
    object.leaves ++ dot.token :: name.token :: equals.token :: value.leaves

/-- The tokens of an operation. -/
def Operation.leaves : {rank : Nat} → Operation rank → List Token
  | _, .call c => c.leaves
  | _, .unary operator right => operator.token :: right.leaves
  | _, .operand e => e.leaves
  | _, .binary left operator right => left.leaves ++ operator.token :: right.leaves

/-- The tokens of a call. -/
def Call.leaves : Call → List Token
  | .literal t => [t.token]
  | .thisRef keyword => [keyword.token]
  | .name t => [t.token]
  | .superRef keyword dot method => [keyword.token, dot.token, method.token]
  | .group opening inner closing => opening.token :: (inner.leaves ++ [closing.token])
  | .invoke callee opening closing => callee.leaves ++ [opening.token, closing.token]
  | .invokeWith callee opening arguments closing =>
    callee.leaves ++ opening.token :: (arguments.leaves ++ [closing.token])
  | .property object dot name => object.leaves ++ [dot.token, name.token]

/-- The tokens of arguments. -/
def Arguments.leaves : Arguments → List Token
  | .last e => e.leaves
  | .more e comma others => e.leaves ++ comma.token :: others.leaves

end

mutual

/-- How many numbers the nodes of an expression take.  The target of an assignment is read as a
variable first, which takes a number of its own. -/
def Expression.ids : Expression → Nat
  | .operation e => e.ids
  | .assign _ _ value => 1 + value.ids + 1
  | .set object _ _ _ value => object.ids + value.ids

/-- How many numbers the nodes of an operation take. -/
def Operation.ids : {rank : Nat} → Operation rank → Nat
  | _, .call c => c.ids
  | _, .unary _ right => right.ids
  | _, .operand e => e.ids
  | _, .binary left _ right => left.ids + right.ids

/-- How many numbers the nodes of a call take. -/
def Call.ids : Call → Nat
  | .literal _ => 0
  | .thisRef _ => 1
  | .name _ => 1
  | .superRef .. => 1
  | .group _ inner _ => inner.ids
  | .invoke callee _ _ => callee.ids
  | .invokeWith callee _ arguments _ => callee.ids + arguments.ids
  | .property object _ _ => object.ids

/-- How many numbers the nodes of arguments take. -/
def Arguments.ids : Arguments → Nat
  | .last e => e.ids
  | .more e _ others => e.ids + others.ids

end

/-- The node of a binary operator of some rank. -/
def operatorNode (rank : Nat) : Expr → Token → Expr → Expr :=
  if rank ≤ 4 then .binary else .logical

mutual

/-- The abstract syntax of an expression, with numbers from `first` on. -/
def Expression.ast (first : NodeId) : Expression → Expr
  | .operation e => e.ast first
  | .assign name _ value => .assign (first + 1 + value.ids) name.token (value.ast (first + 1))
  | .set object _ name _ value =>
    .set (object.ast first) name.token (value.ast (first + object.ids))

/-- The abstract syntax of an operation. -/
def Operation.ast (first : NodeId) : {rank : Nat} → Operation rank → Expr
  | _, .call c => c.ast first
  | _, .unary operator right => .unary operator.token (right.ast first)
  | _, .operand e => e.ast first
  | rank + 1, .binary left operator right =>
    operatorNode (rank + 1) (left.ast first) operator.token (right.ast (first + left.ids))

/-- The abstract syntax of a call. -/
def Call.ast (first : NodeId) : Call → Expr
  | .literal t => .literal (t.token.kind.literal?.getD .nil)
  | .thisRef keyword => .thisRef first keyword.token
  | .name t => .var first t.token
  | .superRef keyword _ method => .superRef first keyword.token method.token
  | .group _ inner _ => .grouping (inner.ast first)
  | .invoke callee _ closing => .call (callee.ast first) closing.token []
  | .invokeWith callee _ arguments closing =>
    .call (callee.ast first) closing.token (arguments.ast (first + callee.ids))
  | .property object _ name => .get (object.ast first) name.token

/-- The abstract syntax of arguments. -/
def Arguments.ast (first : NodeId) : Arguments → List Expr
  | .last e => [e.ast first]
  | .more e _ others => e.ast first :: others.ast (first + e.ids)

end

/-- The number of arguments. -/
def Arguments.count : Arguments → Nat
  | .last _ => 1
  | .more _ _ others => others.count + 1

mutual

/-- All calls in an expression have few enough arguments. -/
def Expression.Legal : Expression → Prop
  | .operation e => e.Legal
  | .assign _ _ value => value.Legal
  | .set object _ _ _ value => object.Legal ∧ value.Legal

/-- All calls in an operation have few enough arguments. -/
def Operation.Legal : {rank : Nat} → Operation rank → Prop
  | _, .call c => c.Legal
  | _, .unary _ right => right.Legal
  | _, .operand e => e.Legal
  | _, .binary left _ right => left.Legal ∧ right.Legal

/-- All calls in a call have few enough arguments. -/
def Call.Legal : Call → Prop
  | .literal _ | .thisRef _ | .name _ | .superRef .. => True
  | .group _ inner _ => inner.Legal
  | .invoke callee _ _ => callee.Legal
  | .invokeWith callee _ arguments _ =>
    callee.Legal ∧ arguments.count ≤ maxArguments ∧ arguments.Legal
  | .property object _ _ => object.Legal

/-- All calls in arguments have few enough arguments. -/
def Arguments.Legal : Arguments → Prop
  | .last e => e.Legal
  | .more e _ others => e.Legal ∧ others.Legal

end

namespace Expression

/-- The tokens of an expression that may be absent. -/
def leaves? (e : Option Expression) : List Token :=
  (e.map leaves).getD []

/-- How many numbers the nodes of an expression take that may be absent. -/
def ids? (e : Option Expression) : Nat :=
  (e.map ids).getD 0

/-- An expression that may be absent has calls with few enough arguments. -/
def Legal? (e : Option Expression) : Prop :=
  ∀ e' ∈ e, e'.Legal

end Expression

/-! ### Declarations and statements -/

namespace Parameters

/-- The tokens of parameters. -/
def leaves : Parameters → List Token
  | .last name => [name.token]
  | .more name comma others => name.token :: comma.token :: others.leaves

/-- The names of parameters. -/
def names : Parameters → List Token
  | .last name => [name.token]
  | .more name _ others => name.token :: others.names

/-- The tokens of parameters that may be absent. -/
def leaves? (p : Option Parameters) : List Token :=
  (p.map leaves).getD []

/-- The names of parameters that may be absent. -/
def names? (p : Option Parameters) : List Token :=
  (p.map names).getD []

end Parameters

namespace VarDecl

/-- The expression in a variable declaration. -/
def value? (v : VarDecl) : Option Expression :=
  v.initial.map Initial.value

/-- The tokens of a value with its sign. -/
def initialLeaves : Option Initial → List Token
  | none => []
  | some i => i.equals.token :: i.value.leaves

/-- The tokens of a variable declaration. -/
def leaves (v : VarDecl) : List Token :=
  v.keyword.token :: v.name.token :: (initialLeaves v.initial ++ [v.semicolon.token])

/-- The abstract syntax of a variable declaration. -/
def ast (first : NodeId) (v : VarDecl) : Stmt :=
  .varDecl v.name.token (v.value?.map (Expression.ast first))

end VarDecl

namespace ForClause

/-- The expression in a clause. -/
def value? : ForClause → Option Expression
  | .absent _ => none
  | .varDecl v => v.value?
  | .expression e _ => some e

/-- The tokens of a clause. -/
def leaves : ForClause → List Token
  | .absent semicolon => [semicolon.token]
  | .varDecl v => v.leaves
  | .expression e semicolon => e.leaves ++ [semicolon.token]

/-- The abstract syntax of a clause. -/
def ast (first : NodeId) : ForClause → Option Stmt
  | .absent _ => none
  | .varDecl v => some (v.ast first)
  | .expression e _ => some (.expression (e.ast first))

end ForClause

namespace Superclass

/-- The tokens of a superclass that may be absent. -/
def leaves? : Option Superclass → List Token
  | none => []
  | some s => [s.less.token, s.name.token]

/-- How many numbers the nodes of a superclass take that may be absent. -/
def ids? (s : Option Superclass) : Nat :=
  (s.map fun _ => 1).getD 0

/-- The abstract syntax of a superclass that may be absent. -/
def ast? (first : NodeId) (s : Option Superclass) : Option Expr :=
  s.map fun s => .var first s.name.token

end Superclass

mutual

/-- The tokens of a declaration. -/
def Declaration.leaves : Declaration → List Token
  | .classDecl keyword name superclass opening methods closing =>
    keyword.token :: name.token :: (Superclass.leaves? superclass ++
      opening.token :: (Function.leavesIn methods ++ [closing.token]))
  | .function keyword f => keyword.token :: f.leaves
  | .varDecl v => v.leaves
  | .statement s => s.leaves

/-- The tokens of declarations. -/
def Declaration.leavesIn : List Declaration → List Token
  | [] => []
  | d :: ds => d.leaves ++ Declaration.leavesIn ds

/-- The tokens of a function. -/
def Function.leaves : Function → List Token
  | .mk name opening params closing bodyOpening body bodyClosing =>
    name.token :: opening.token :: (Parameters.leaves? params ++
      closing.token :: bodyOpening.token :: (Declaration.leavesIn body ++ [bodyClosing.token]))

/-- The tokens of functions. -/
def Function.leavesIn : List Function → List Token
  | [] => []
  | f :: fs => f.leaves ++ Function.leavesIn fs

/-- The tokens of a statement. -/
def Statement.leaves : Statement → List Token
  | .expression e semicolon => e.leaves ++ [semicolon.token]
  | .print keyword e semicolon => keyword.token :: (e.leaves ++ [semicolon.token])
  | .ret keyword value semicolon =>
    keyword.token :: (Expression.leaves? value ++ [semicolon.token])
  | .block opening body closing =>
    opening.token :: (Declaration.leavesIn body ++ [closing.token])
  | .loop keyword opening condition closing body =>
    keyword.token :: opening.token :: (condition.leaves ++ closing.token :: body.leaves)
  | .forLoop keyword opening initializer condition semicolon increment closing body =>
    keyword.token :: opening.token :: (initializer.leaves ++ (Expression.leaves? condition ++
      semicolon.token :: (Expression.leaves? increment ++ closing.token :: body.leaves)))
  | .branch keyword opening condition closing thenBranch =>
    keyword.token :: opening.token :: (condition.leaves ++ closing.token :: thenBranch.leaves)
  | .branchElse keyword opening condition closing thenBranch otherwise elseBranch =>
    keyword.token :: opening.token :: (condition.leaves ++ closing.token ::
      (thenBranch.leaves ++ otherwise.token :: elseBranch.leaves))

end

mutual

/-- How many numbers the nodes of a declaration take. -/
def Declaration.ids : Declaration → Nat
  | .classDecl _ _ superclass _ methods _ => Superclass.ids? superclass + Function.idsIn methods
  | .function _ f => f.ids
  | .varDecl v => Expression.ids? v.value?
  | .statement s => s.ids

/-- How many numbers the nodes of declarations take. -/
def Declaration.idsIn : List Declaration → Nat
  | [] => 0
  | d :: ds => d.ids + Declaration.idsIn ds

/-- How many numbers the nodes of a function take. -/
def Function.ids : Function → Nat
  | .mk _ _ _ _ _ body _ => Declaration.idsIn body

/-- How many numbers the nodes of functions take. -/
def Function.idsIn : List Function → Nat
  | [] => 0
  | f :: fs => f.ids + Function.idsIn fs

/-- How many numbers the nodes of a statement take. -/
def Statement.ids : Statement → Nat
  | .expression e _ => e.ids
  | .print _ e _ => e.ids
  | .ret _ value _ => Expression.ids? value
  | .block _ body _ => Declaration.idsIn body
  | .loop _ _ condition _ body => condition.ids + body.ids
  | .forLoop _ _ initializer condition _ increment _ body =>
    Expression.ids? initializer.value? + Expression.ids? condition + Expression.ids? increment +
      body.ids
  | .branch _ _ condition _ thenBranch => condition.ids + thenBranch.ids
  | .branchElse _ _ condition _ thenBranch _ elseBranch =>
    condition.ids + thenBranch.ids + elseBranch.ids

end

mutual

/-- The abstract syntax of a declaration, with numbers from `first` on. -/
def Declaration.ast (first : NodeId) : Declaration → Stmt
  | .classDecl _ name superclass _ methods _ =>
    .classDecl name.token (Superclass.ast? first superclass)
      (Function.astIn (first + Superclass.ids? superclass) methods)
  | .function _ f => .function (f.ast first)
  | .varDecl v => v.ast first
  | .statement s => s.ast first

/-- The abstract syntax of declarations. -/
def Declaration.astIn (first : NodeId) : List Declaration → List Stmt
  | [] => []
  | d :: ds => d.ast first :: Declaration.astIn (first + d.ids) ds

/-- The abstract syntax of a function. -/
def Function.ast (first : NodeId) : Function → FunDecl
  | .mk name _ params _ _ body _ =>
    .mk name.token (Parameters.names? params) (Declaration.astIn first body)

/-- The abstract syntax of functions. -/
def Function.astIn (first : NodeId) : List Function → List FunDecl
  | [] => []
  | f :: fs => f.ast first :: Function.astIn (first + f.ids) fs

/-- The abstract syntax of a statement, in which a `for` loop has no node of its own. -/
def Statement.ast (first : NodeId) : Statement → Stmt
  | .expression e _ => .expression (e.ast first)
  | .print _ e _ => .print (e.ast first)
  | .ret keyword value _ => .ret keyword.token (value.map (Expression.ast first))
  | .block _ body _ => .block (Declaration.astIn first body)
  | .loop _ _ condition _ body => .loop (condition.ast first) (body.ast (first + condition.ids))
  | .forLoop _ _ initializer condition _ increment _ body =>
    let behindInitializer := first + Expression.ids? initializer.value?
    let behindCondition := behindInitializer + Expression.ids? condition
    let behindIncrement := behindCondition + Expression.ids? increment
    .forLoop (initializer.ast first) (condition.map (Expression.ast behindInitializer))
      (increment.map (Expression.ast behindCondition)) (body.ast behindIncrement)
  | .branch _ _ condition _ thenBranch =>
    .branch (condition.ast first) (thenBranch.ast (first + condition.ids)) none
  | .branchElse _ _ condition _ thenBranch _ elseBranch =>
    .branch (condition.ast first) (thenBranch.ast (first + condition.ids))
      (some (elseBranch.ast (first + condition.ids + thenBranch.ids)))

end

/-- The statement ends with an `if` that has no `else` yet. -/
def Statement.endsOpen : Statement → Bool
  | .branch .. => true
  | .branchElse _ _ _ _ _ _ elseBranch => elseBranch.endsOpen
  | .loop _ _ _ _ body => body.endsOpen
  | .forLoop _ _ _ _ _ _ _ body => body.endsOpen
  | .expression .. | .print .. | .ret .. | .block .. => false

mutual

/-- The lists in a declaration are not too long, and each `else` belongs to the nearest `if`. -/
def Declaration.Legal : Declaration → Prop
  | .classDecl _ _ _ _ methods _ => Function.AllLegal methods
  | .function _ f => f.Legal
  | .varDecl v => Expression.Legal? v.value?
  | .statement s => s.Legal

/-- All declarations of a list are legal. -/
def Declaration.AllLegal : List Declaration → Prop
  | [] => True
  | d :: ds => d.Legal ∧ Declaration.AllLegal ds

/-- The function has few enough parameters, and its body is legal. -/
def Function.Legal : Function → Prop
  | .mk _ _ params _ _ body _ =>
    (Parameters.names? params).length ≤ maxArguments ∧ Declaration.AllLegal body

/-- All functions of a list are legal. -/
def Function.AllLegal : List Function → Prop
  | [] => True
  | f :: fs => f.Legal ∧ Function.AllLegal fs

/-- The lists in a statement are not too long, and each `else` belongs to the nearest `if`. -/
def Statement.Legal : Statement → Prop
  | .expression e _ => e.Legal
  | .print _ e _ => e.Legal
  | .ret _ value _ => Expression.Legal? value
  | .block _ body _ => Declaration.AllLegal body
  | .loop _ _ condition _ body => condition.Legal ∧ body.Legal
  | .forLoop _ _ initializer condition _ increment _ body =>
    Expression.Legal? initializer.value? ∧ Expression.Legal? condition ∧
      Expression.Legal? increment ∧ body.Legal
  | .branch _ _ condition _ thenBranch => condition.Legal ∧ thenBranch.Legal
  | .branchElse _ _ condition _ thenBranch _ elseBranch =>
    condition.Legal ∧ thenBranch.Legal ∧ thenBranch.endsOpen = false ∧ elseBranch.Legal

end

/-! ### The first leaf -/

/-- A list begins with a token of a kind in `p`. -/
def BeginsWith (p : Kind → Bool) (ts : List Token) : Prop :=
  ∃ t ∈ ts.head?, p t.kind = true

namespace BeginsWith

variable {p q : Kind → Bool} {ts : List Token}

theorem cons {t : Token} (h : p t.kind = true) : BeginsWith p (t :: ts) := ⟨t, rfl, h⟩

theorem mono (h : BeginsWith p ts) (hq : ∀ k, p k = true → q k = true) : BeginsWith q ts := by
  obtain ⟨t, ht, hp⟩ := h
  exact ⟨t, ht, hq _ hp⟩

theorem append (h : BeginsWith p ts) (us : List Token) : BeginsWith p (ts ++ us) := by
  obtain ⟨t, ht, hp⟩ := h
  cases ts with
  | nil => cases ht
  | cons t' ts =>
    cases ht
    exact cons hp

theorem length_pos (h : BeginsWith p ts) : 0 < ts.length := by
  obtain ⟨t, ht, -⟩ := h
  cases ts with
  | nil => cases ht
  | cons t' ts => exact Nat.succ_pos _

end BeginsWith

/-- No token of a kind in `p` is ahead. -/
def NotAhead (p : Kind → Bool) (ts : List Token) : Prop :=
  ∀ t ∈ ts.head?, p t.kind = false

/-- Whatever begins a list, nothing else does. -/
theorem BeginsWith.notAhead {p q : Kind → Bool} {ts : List Token} (h : BeginsWith p ts)
    (hq : ∀ k, p k = true → q k = false) (us : List Token) : NotAhead q (ts ++ us) := by
  obtain ⟨t, ht, hp⟩ := h.append us
  intro u hu
  rw [ht] at hu
  cases hu
  exact hq _ hp

theorem NotAhead.nil {p : Kind → Bool} : NotAhead p [] := fun _ ht => by cases ht

theorem NotAhead.cons {p : Kind → Bool} {t : Token} {ts : List Token} (h : p t.kind = false) :
    NotAhead p (t :: ts) := fun _ ht => by
  cases ht
  exact h

theorem opensCall_of_literal {k : Kind} (h : k.literal?.isSome = true) : k.opensCall = true := by
  unfold Kind.literal? at h
  split at h
  · rfl
  · rfl
  · rfl
  · rfl
  · rfl
  · cases h

theorem opensExpression_of_call {k : Kind} (h : k.opensCall = true) :
    k.opensExpression = true := by
  rw [Kind.opensExpression, h, Bool.true_or]

theorem opensExpression_of_unary {k : Kind} (h : Parse.unaryOperators k = true) :
    k.opensExpression = true := by
  rw [Kind.opensExpression, h, Bool.or_true]

theorem eq_of_isMark {k : Kind} {m : Mark} (h : k.isMark m = true) : k = .mark m := by
  cases k with
  | mark m' => rw [of_decide_eq_true (p := m' = m) h]
  | _ => cases h

theorem eq_of_isKeyword {k : Kind} {w : Keyword} (h : k.isKeyword w = true) : k = .keyword w := by
  cases k with
  | keyword w' => rw [of_decide_eq_true (p := w' = w) h]
  | _ => cases h

theorem eq_of_isIdentifier {k : Kind} (h : k.isIdentifier = true) : k = .identifier := by
  cases k with
  | identifier => rfl
  | _ => cases h

/-- A mark that may stand in front is in front. -/
theorem BeginsWith.mark {p : Kind → Bool} {m : Mark} (t : Punctuation m) (ts : List Token)
    (h : p (.mark m) = true) : BeginsWith p (t.token :: ts) :=
  .cons (eq_of_isMark t.isKind ▸ h)

theorem BeginsWith.word {p : Kind → Bool} {w : Keyword} (t : Word w) (ts : List Token)
    (h : p (.keyword w) = true) : BeginsWith p (t.token :: ts) :=
  .cons (eq_of_isKeyword t.isKind ▸ h)

theorem BeginsWith.name {p : Kind → Bool} (t : Name) (ts : List Token)
    (h : p .identifier = true) : BeginsWith p (t.token :: ts) :=
  .cons (eq_of_isIdentifier t.isKind ▸ h)

theorem Call.leaves_begin (c : Call) : BeginsWith Kind.opensCall c.leaves := by
  match c with
  | .literal t => exact .cons (opensCall_of_literal t.isKind)
  | .thisRef keyword => exact .word keyword _ rfl
  | .name t => exact .name t _ rfl
  | .superRef keyword _ _ => exact .word keyword _ rfl
  | .group opening _ _ => exact .mark opening _ rfl
  | .invoke callee _ _ => exact callee.leaves_begin.append _
  | .invokeWith callee _ _ _ => exact callee.leaves_begin.append _
  | .property object _ _ => exact object.leaves_begin.append _

theorem Operation.leaves_begin {rank : Nat} (e : Operation rank) :
    BeginsWith Kind.opensExpression e.leaves := by
  match rank, e with
  | _, .call c => exact c.leaves_begin.mono fun _ => opensExpression_of_call
  | _, .unary operator _ => exact .cons (opensExpression_of_unary operator.isKind)
  | _, .operand e => exact e.leaves_begin
  | _, .binary left _ _ => exact left.leaves_begin.append _

theorem Expression.leaves_begin (e : Expression) : BeginsWith Kind.opensExpression e.leaves := by
  cases e with
  | operation e => exact e.leaves_begin
  | assign name equals value => exact .name name _ rfl
  | set object dot name equals value =>
    exact (object.leaves_begin.append _).mono fun _ => opensExpression_of_call

theorem opensStatement_of_expression {k : Kind} (h : k.opensExpression = true) :
    k.opensStatement = true := by
  unfold Kind.opensStatement
  split
  all_goals first | rfl | exact h

theorem opensDeclaration_of_statement {k : Kind} (h : k.opensStatement = true) :
    k.opensDeclaration = true := by
  unfold Kind.opensDeclaration
  split
  all_goals first | rfl | exact h

theorem Statement.leaves_begin (s : Statement) : BeginsWith Kind.opensStatement s.leaves := by
  cases s with
  | expression e semicolon =>
    rw [Statement.leaves]
    exact (e.leaves_begin.append _).mono fun _ => opensStatement_of_expression
  | print keyword e semicolon => exact .word keyword _ rfl
  | ret keyword value semicolon => exact .word keyword _ rfl
  | block opening body closing => exact .mark opening _ rfl
  | loop keyword opening condition closing body => exact .word keyword _ rfl
  | forLoop keyword _ _ _ _ _ _ _ => exact .word keyword _ rfl
  | branch keyword _ _ _ _ => exact .word keyword _ rfl
  | branchElse keyword _ _ _ _ _ _ => exact .word keyword _ rfl

theorem Declaration.leaves_begin (d : Declaration) :
    BeginsWith Kind.opensDeclaration d.leaves := by
  cases d with
  | classDecl keyword _ _ _ _ _ => exact .word keyword _ rfl
  | function keyword f => exact .word keyword _ rfl
  | varDecl v => exact .word v.keyword _ rfl
  | statement s => exact s.leaves_begin.mono fun _ => opensDeclaration_of_statement

theorem Function.leaves_begin (f : Function) : BeginsWith Kind.isIdentifier f.leaves := by
  cases f with
  | mk name _ _ _ _ _ _ => exact .name name _ rfl

/-- Each declaration has a leaf. -/
theorem Declaration.length_le_leavesIn (ds : List Declaration) :
    ds.length ≤ (Declaration.leavesIn ds).length := by
  induction ds with
  | nil => exact Nat.le_refl 0
  | cons d ds ih =>
    have hpos := d.leaves_begin.length_pos
    rw [Declaration.leavesIn, List.length_cons, List.length_append]
    omega

/-! ### No leaf is the end of the source -/

/-- None of the tokens is the end of the source. -/
def NoEnd (ts : List Token) : Prop :=
  ∀ t ∈ ts, t.kind.isEnd = false

namespace NoEnd

variable {ts us : List Token}

theorem nil : NoEnd [] := fun _ ht => by cases ht

theorem cons {p : Kind → Bool} (t : Leaf p) (hp : p .endOfSource = false) (h : NoEnd ts) :
    NoEnd (t.token :: ts) := by
  intro u hu
  rcases List.mem_cons.mp hu with rfl | hu
  · cases hk : t.token.kind with
    | endOfSource =>
      have := t.isKind
      rw [hk, hp] at this
      cases this
    | _ => rfl
  · exact h u hu

theorem append (h : NoEnd ts) (h' : NoEnd us) : NoEnd (ts ++ us) := fun u hu =>
  (List.mem_append.mp hu).elim (h u) (h' u)

theorem single {p : Kind → Bool} (t : Leaf p) (hp : p .endOfSource = false) : NoEnd [t.token] :=
  .cons t hp .nil

end NoEnd

mutual

theorem Expression.leaves_not_end (e : Expression) : NoEnd e.leaves := by
  cases e with
  | operation e => exact e.leaves_not_end
  | assign name equals value => exact .cons name rfl (.cons equals rfl value.leaves_not_end)
  | set object dot name equals value =>
    exact object.leaves_not_end.append
      (.cons dot rfl (.cons name rfl (.cons equals rfl value.leaves_not_end)))

theorem Operation.leaves_not_end {rank : Nat} (e : Operation rank) : NoEnd e.leaves := by
  cases e with
  | call c => exact c.leaves_not_end
  | unary operator right => exact .cons operator rfl right.leaves_not_end
  | operand e => exact e.leaves_not_end
  | binary left operator right =>
    exact left.leaves_not_end.append (.cons operator rfl right.leaves_not_end)

theorem Call.leaves_not_end (c : Call) : NoEnd c.leaves := by
  cases c with
  | literal t => exact .single t rfl
  | thisRef keyword => exact .single keyword rfl
  | name t => exact .single t rfl
  | superRef keyword dot method => exact .cons keyword rfl (.cons dot rfl (.single method rfl))
  | group opening inner closing =>
    exact .cons opening rfl (inner.leaves_not_end.append (.single closing rfl))
  | invoke callee opening closing =>
    exact callee.leaves_not_end.append (.cons opening rfl (.single closing rfl))
  | invokeWith callee opening arguments closing =>
    exact callee.leaves_not_end.append
      (.cons opening rfl (arguments.leaves_not_end.append (.single closing rfl)))
  | property object dot name =>
    exact object.leaves_not_end.append (.cons dot rfl (.single name rfl))

theorem Arguments.leaves_not_end (es : Arguments) : NoEnd es.leaves := by
  cases es with
  | last e => exact e.leaves_not_end
  | more e comma others =>
    exact e.leaves_not_end.append (.cons comma rfl others.leaves_not_end)

end

theorem Expression.leaves?_not_end (e : Option Expression) : NoEnd (Expression.leaves? e) := by
  cases e with
  | none => exact .nil
  | some e => exact e.leaves_not_end

theorem Parameters.leaves?_not_end (ps : Option Parameters) : NoEnd (Parameters.leaves? ps) := by
  cases ps with
  | none => exact .nil
  | some ps =>
    show NoEnd ps.leaves
    induction ps with
    | last name => exact .single name rfl
    | more name comma others ih => exact .cons name rfl (.cons comma rfl ih)

theorem VarDecl.leaves_not_end (v : VarDecl) : NoEnd v.leaves := by
  refine .cons v.keyword rfl (.cons v.name rfl (.append ?_ (.single v.semicolon rfl)))
  cases v.initial with
  | none => exact .nil
  | some i => exact .cons i.equals rfl i.value.leaves_not_end

theorem ForClause.leaves_not_end (i : ForClause) : NoEnd i.leaves := by
  cases i with
  | absent semicolon => exact .single semicolon rfl
  | varDecl v => exact v.leaves_not_end
  | expression e semicolon => exact e.leaves_not_end.append (.single semicolon rfl)

mutual

theorem Declaration.leaves_not_end (d : Declaration) : NoEnd d.leaves := by
  cases d with
  | classDecl keyword name superclass opening methods closing =>
    refine .cons keyword rfl (.cons name rfl (.append ?_ (.cons opening rfl
      ((Function.leavesIn_not_end methods).append (.single closing rfl)))))
    cases superclass with
    | none => exact .nil
    | some s => exact .cons s.less rfl (.single s.name rfl)
  | function keyword f => exact .cons keyword rfl f.leaves_not_end
  | varDecl v => exact v.leaves_not_end
  | statement s => exact s.leaves_not_end

theorem Declaration.leavesIn_not_end (ds : List Declaration) :
    NoEnd (Declaration.leavesIn ds) := by
  cases ds with
  | nil => exact .nil
  | cons d ds => exact d.leaves_not_end.append (Declaration.leavesIn_not_end ds)

theorem Function.leaves_not_end (f : Function) : NoEnd f.leaves := by
  cases f with
  | mk name opening params closing bodyOpening body bodyClosing =>
    exact .cons name rfl (.cons opening rfl ((Parameters.leaves?_not_end params).append
      (.cons closing rfl (.cons bodyOpening rfl
        ((Declaration.leavesIn_not_end body).append (.single bodyClosing rfl))))))

theorem Function.leavesIn_not_end (fs : List Function) : NoEnd (Function.leavesIn fs) := by
  cases fs with
  | nil => exact .nil
  | cons f fs => exact f.leaves_not_end.append (Function.leavesIn_not_end fs)

theorem Statement.leaves_not_end (s : Statement) : NoEnd s.leaves := by
  cases s with
  | expression e semicolon => exact e.leaves_not_end.append (.single semicolon rfl)
  | print keyword e semicolon =>
    exact .cons keyword rfl (e.leaves_not_end.append (.single semicolon rfl))
  | ret keyword value semicolon =>
    exact .cons keyword rfl ((Expression.leaves?_not_end value).append (.single semicolon rfl))
  | block opening body closing =>
    exact .cons opening rfl ((Declaration.leavesIn_not_end body).append (.single closing rfl))
  | loop keyword opening condition closing body =>
    exact .cons keyword rfl (.cons opening rfl
      (condition.leaves_not_end.append (.cons closing rfl body.leaves_not_end)))
  | forLoop keyword opening initializer condition semicolon increment closing body =>
    exact .cons keyword rfl (.cons opening rfl (initializer.leaves_not_end.append
      ((Expression.leaves?_not_end condition).append (.cons semicolon rfl
        ((Expression.leaves?_not_end increment).append (.cons closing rfl
          body.leaves_not_end))))))
  | branch keyword opening condition closing thenBranch =>
    exact .cons keyword rfl (.cons opening rfl
      (condition.leaves_not_end.append (.cons closing rfl thenBranch.leaves_not_end)))
  | branchElse keyword opening condition closing thenBranch otherwise elseBranch =>
    exact .cons keyword rfl (.cons opening rfl
      (condition.leaves_not_end.append (.cons closing rfl (thenBranch.leaves_not_end.append
        (.cons otherwise rfl elseBranch.leaves_not_end)))))

end

end Concrete

/-! ### Levels of operators -/

namespace Parse

/-- An operation of some rank: unary operators and calls, or a level of binary operators. -/
def operation (expression : Parse Expr) (limit : Nat) : (rank : Nat) → Parse Expr
  | 0 => unary (call expression limit) limit
  | rank + 1 => level (Kind.hasRank (rank + 1)) (Concrete.operatorNode (rank + 1)) limit
      (operation expression limit rank)

/-- The operators of each level are those of its rank. -/
theorem disjunction_eq (expression : Parse Expr) (limit : Nat) :
    disjunction expression limit = operation expression limit 6 := by
  have hkinds : factorOperators = Kind.hasRank 1 ∧ termOperators = Kind.hasRank 2 ∧
      comparisonOperators = Kind.hasRank 3 ∧ equalityOperators = Kind.hasRank 4 ∧
      Kind.isKeyword .and_ = Kind.hasRank 5 ∧ Kind.isKeyword .or_ = Kind.hasRank 6 := by
    refine ⟨?_, ?_, ?_, ?_, ?_, ?_⟩ <;> funext k <;> cases k with
    | mark m => cases m <;> rfl
    | keyword w => cases w <;> rfl
    | _ => rfl
  obtain ⟨h₁, h₂, h₃, h₄, h₅, h₆⟩ := hkinds
  unfold disjunction
  rw [h₁, h₂, h₃, h₄, h₅, h₆]
  rfl

end Parse

end Lox
