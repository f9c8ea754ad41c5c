/-
The grammar.

    program     → declaration* end
    declaration → classDecl | funDecl | varDecl | statement
    classDecl   → "class" NAME ( "<" NAME )? "{" function* "}"
    funDecl     → "fun" function
    function    → NAME "(" ( NAME ( "," NAME )* )? ")" block
    varDecl     → "var" NAME ( "=" expression )? ";"
    statement   → exprStmt | forStmt | ifStmt | printStmt | returnStmt | whileStmt | block
    forStmt     → "for" "(" ( varDecl | exprStmt | ";" ) expression? ";" expression? ")" statement
    ifStmt      → "if" "(" expression ")" statement ( "else" statement )?
    printStmt   → "print" expression ";"
    returnStmt  → "return" expression? ";"
    whileStmt   → "while" "(" expression ")" statement
    exprStmt    → expression ";"
    block       → "{" declaration* "}"
    expression  → assignment
    assignment  → ( call "." )? NAME "=" assignment | or
    or          → and ( "or" and )*
    and         → equality ( "and" equality )*
    equality    → comparison ( ( "!=" | "==" ) comparison )*
    comparison  → term ( ( ">" | ">=" | "<" | "<=" ) term )*
    term        → factor ( ( "-" | "+" ) factor )*
    factor      → unary ( ( "/" | "*" ) unary )*
    unary       → ( "!" | "-" ) unary | call
    call        → primary ( "(" arguments? ")" | "." NAME )*
    primary     → NUMBER | STRING | "true" | "false" | "nil" | "this" | NAME
                | "(" expression ")" | "super" "." NAME

A production is a function of the productions that nest inside of it.  `expression`, `statement`
and `declaration` close the circle by recursion on a limit.

Design notes: the limit bounds the number of tokens ahead.  A production that nests is entered
behind at least one token, so its limit is smaller; a loop takes at least one token each time, so
the limit bounds its turns as well.  Where the limit is zero nothing is ahead, and reading an
expression fails there as it does at every end of a source.  `for` has no node of its own:
`Stmt.forLoop` builds it from a block and a loop.
-/
import Lox.Syntax.Cursor

namespace Lox

/-- A call has at most so many arguments, a function so many parameters. -/
def maxArguments : Nat := 255

/-- A `for` loop as a block and a loop.  A scope is opened only for an initializer, and the
increment runs behind the body in the scope of the loop. -/
def Stmt.forLoop (initializer : Option Stmt) (condition increment : Option Expr) (body : Stmt) :
    Stmt :=
  let turn := match increment with
    | some e => .block [body, .expression e]
    | none => body
  let loop := Stmt.loop (condition.getD (.literal (.bool true))) turn
  match initializer with
  | some s => .block [s, loop]
  | none => loop

namespace Parse

/-! ### Lists -/

/-- Items separated by commas, at least one; `item` is given the number of items before it. -/
def separated {α : Type} (item : Nat → Parse α) : (limit : Nat) → (before : Nat) → Parse (List α)
  | 0, before => do
    let a ← item before
    pure [a]
  | limit + 1, before => do
    let a ← item before
    match ← accept (Kind.isMark .comma) with
    | none => pure [a]
    | some _ => do
      let as ← separated item limit (before + 1)
      pure (a :: as)

/-- Items in parentheses, of which the opening one is behind; there may be none. -/
def parenthesized {α : Type} (item : Nat → Parse α) (limit : Nat) : Parse (List α) := do
  if ← isAhead (Kind.isMark .rightParen) then pure [] else separated item limit 0

/-! ### Expressions -/

/-- Operands joined by operators of one level, which nest to the left. -/
def leftChain (operators : Kind → Bool) (node : Expr → Token → Expr → Expr) (operand : Parse Expr) :
    (limit : Nat) → (left : Expr) → Parse Expr
  | 0, left => pure left
  | limit + 1, left => do
    match ← accept operators with
    | none => pure left
    | some operator => do
      let right ← operand
      leftChain operators node operand limit (node left operator right)

/-- A level of binary operators: an operand, and operators with further operands. -/
def level (operators : Kind → Bool) (node : Expr → Token → Expr → Expr) (limit : Nat)
    (operand : Parse Expr) : Parse Expr := do
  let first ← operand
  leftChain operators node operand limit first

/-- An argument of a call, behind `before` others. -/
def argument (expression : Parse Expr) (before : Nat) : Parse Expr := do
  if maxArguments ≤ before then
    report (← peek) .tooManyArguments
  expression

/-- The rest of a call behind its opening parenthesis. -/
def callEnd (expression : Parse Expr) (limit : Nat) (callee : Expr) : Parse Expr := do
  let arguments ← parenthesized (argument expression) limit
  let paren ← expect (Kind.isMark .rightParen) .argumentsClosing
  pure (.call callee paren arguments)

/-- An expression whose text is the one token ahead. -/
def leaf (e : Expr) : Parse Expr := do
  advance
  pure e

/-- Literals, names, `this`, `super` and groups. -/
def primary (expression : Parse Expr) : Parse Expr := do
  let token ← peek
  match token.kind with
  | .keyword .false_ => leaf (.literal (.bool false))
  | .keyword .true_ => leaf (.literal (.bool true))
  | .keyword .nil_ => leaf (.literal .nil)
  | .number x => leaf (.literal (.number x))
  | .string s => leaf (.literal (.string s))
  | .keyword .this_ => leaf (.thisRef (← freshId) token)
  | .identifier => leaf (.var (← freshId) token)
  | .keyword .super_ => do
    advance
    let _ ← expect (Kind.isMark .dot) .superDot
    let method ← expect Kind.isIdentifier .superMethodName
    pure (.superRef (← freshId) token method)
  | .mark .leftParen => do
    advance
    let inner ← expression
    let _ ← expect (Kind.isMark .rightParen) .groupClosing
    pure (.grouping inner)
  | _ => failAt token .expression

/-- Calls and properties behind an expression. -/
def suffixes (expression : Parse Expr) (limit : Nat) : (turns : Nat) → (e : Expr) → Parse Expr
  | 0, e => pure e
  | turns + 1, e => do
    match ← accept (Kind.isMark .leftParen) with
    | some _ => do
      let e ← callEnd expression limit e
      suffixes expression limit turns e
    | none => do
      match ← accept (Kind.isMark .dot) with
      | some _ => do
        let name ← expect Kind.isIdentifier .propertyName
        suffixes expression limit turns (.get e name)
      | none => pure e

/-- A primary expression with its calls and properties. -/
def call (expression : Parse Expr) (limit : Nat) : Parse Expr := do
  let e ← primary expression
  suffixes expression limit limit e

/-- The operators that stand before their operand. -/
def unaryOperators : Kind → Bool
  | .mark .bang | .mark .minus => true
  | _ => false

/-- Operators before their operand, which nest to the right. -/
def unary (operand : Parse Expr) : (limit : Nat) → Parse Expr
  | 0 => operand
  | limit + 1 => do
    match ← accept unaryOperators with
    | some operator => do
      let right ← unary operand limit
      pure (.unary operator right)
    | none => operand

/-- Multiplication and division. -/
def factorOperators : Kind → Bool
  | .mark .slash | .mark .star => true
  | _ => false

/-- Addition and subtraction. -/
def termOperators : Kind → Bool
  | .mark .minus | .mark .plus => true
  | _ => false

/-- The order of numbers. -/
def comparisonOperators : Kind → Bool
  | .mark .greater | .mark .greaterEqual | .mark .less | .mark .lessEqual => true
  | _ => false

/-- Equality and its negation. -/
def equalityOperators : Kind → Bool
  | .mark .bangEqual | .mark .equalEqual => true
  | _ => false

/-- Everything but assignment, from the loosest operator to the tightest. -/
def disjunction (expression : Parse Expr) (limit : Nat) : Parse Expr :=
  level (Kind.isKeyword .or_) .logical limit <|
  level (Kind.isKeyword .and_) .logical limit <|
  level equalityOperators .binary limit <|
  level comparisonOperators .binary limit <|
  level termOperators .binary limit <|
  level factorOperators .binary limit <|
  unary (call expression limit) limit

/-- The assignment of a value to a target.  A target that is neither a variable nor a property
is a fault, and stands for itself. -/
def assignTo (target : Expr) (equals : Token) (value : Expr) : Parse Expr := do
  match target with
  | .var _ name => pure (.assign (← freshId) name value)
  | .get object name => pure (.set object name value)
  | other => do
    report equals .assignmentTarget
    pure other

/-- An expression, given the expressions that nest inside of it. -/
def assignment (expression : Parse Expr) (limit : Nat) : Parse Expr := do
  let target ← disjunction expression limit
  match ← accept (Kind.isMark .equal) with
  | none => pure target
  | some equals => do
    let value ← expression
    assignTo target equals value

/-- An expression, with at most `limit` tokens ahead. -/
def expression : (limit : Nat) → Parse Expr
  | 0 => fail .expression
  | limit + 1 => assignment (expression limit) (limit + 1)

/-! ### Declarations and statements -/

/-- The declarations up to a token of a kind in `stops`, or up to the end. -/
def declarations (declaration : Parse (Option Stmt)) (stops : Kind → Bool) :
    (limit : Nat) → Parse (List Stmt)
  | 0 => pure []
  | limit + 1 => do
    if (← atEnd) || (← isAhead stops) then pure []
    else
      let first ← declaration
      let others ← declarations declaration stops limit
      match first with
      | some s => pure (s :: others)
      | none => pure others

/-- The rest of a block behind its opening brace. -/
def blockEnd (declaration : Parse (Option Stmt)) (limit : Nat) : Parse (List Stmt) := do
  let body ← declarations declaration (Kind.isMark .rightBrace) limit
  let _ ← expect (Kind.isMark .rightBrace) .blockClosing
  pure body

/-- A parameter of a function, behind `before` others. -/
def parameter (before : Nat) : Parse Token := do
  if maxArguments ≤ before then
    report (← peek) .tooManyParameters
  expect Kind.isIdentifier .parameterName

/-- A function or method from its name on. -/
def function (declaration : Parse (Option Stmt)) (limit : Nat) (kind : RoutineKind) :
    Parse FunDecl := do
  let name ← expect Kind.isIdentifier (.routineName kind)
  let _ ← expect (Kind.isMark .leftParen) (.parametersOpening kind)
  let params ← parenthesized parameter limit
  let _ ← expect (Kind.isMark .rightParen) .parametersClosing
  let _ ← expect (Kind.isMark .leftBrace) (.bodyOpening kind)
  let body ← blockEnd declaration limit
  pure (.mk name params body)

/-- Methods up to a closing brace or up to the end. -/
def methods (method : Parse FunDecl) : (limit : Nat) → Parse (List FunDecl)
  | 0 => pure []
  | limit + 1 => do
    if (← atEnd) || (← isAhead (Kind.isMark .rightBrace)) then pure []
    else
      let first ← method
      let others ← methods method limit
      pure (first :: others)

/-- A superclass, if the class has one. -/
def superclass : Parse (Option Expr) := do
  match ← accept (Kind.isMark .less) with
  | none => pure none
  | some _ => do
    let name ← expect Kind.isIdentifier .superclassName
    pure (some (.var (← freshId) name))

/-- A class behind its keyword. -/
def classDecl (declaration : Parse (Option Stmt)) (limit : Nat) : Parse Stmt := do
  let name ← expect Kind.isIdentifier .className
  let superclass ← superclass
  let _ ← expect (Kind.isMark .leftBrace) .classOpening
  let methods ← methods (function declaration limit .method) limit
  let _ ← expect (Kind.isMark .rightBrace) .classClosing
  pure (.classDecl name superclass methods)

/-- A variable declaration behind its keyword. -/
def varDecl (expression : Parse Expr) : Parse Stmt := do
  let name ← expect Kind.isIdentifier .variableName
  let initializer ← match ← accept (Kind.isMark .equal) with
    | some _ => some <$> expression
    | none => pure none
  let _ ← expect (Kind.isMark .semicolon) .variableEnd
  pure (.varDecl name initializer)

/-- An expression as a statement. -/
def expressionStmt (expression : Parse Expr) : Parse Stmt := do
  let e ← expression
  let _ ← expect (Kind.isMark .semicolon) .expressionEnd
  pure (.expression e)

/-- A `print` statement behind its keyword. -/
def printStmt (expression : Parse Expr) : Parse Stmt := do
  let e ← expression
  let _ ← expect (Kind.isMark .semicolon) .printEnd
  pure (.print e)

/-- An expression, unless a given mark is ahead. -/
def expressionUnless (m : Mark) (expression : Parse Expr) : Parse (Option Expr) := do
  if ← isAhead (Kind.isMark m) then pure none else some <$> expression

/-- A `return` statement behind its keyword. -/
def returnStmt (expression : Parse Expr) (keyword : Token) : Parse Stmt := do
  let value ← expressionUnless .semicolon expression
  let _ ← expect (Kind.isMark .semicolon) .returnEnd
  pure (.ret keyword value)

/-- An `if` statement behind its keyword; an `else` belongs to the nearest `if`. -/
def ifStmt (expression : Parse Expr) (statement : Parse Stmt) : Parse Stmt := do
  let _ ← expect (Kind.isMark .leftParen) .ifOpening
  let condition ← expression
  let _ ← expect (Kind.isMark .rightParen) .ifClosing
  let thenBranch ← statement
  match ← accept (Kind.isKeyword .else_) with
  | some _ => do
    let elseBranch ← statement
    pure (.branch condition thenBranch (some elseBranch))
  | none => pure (.branch condition thenBranch none)

/-- A `while` statement behind its keyword. -/
def whileStmt (expression : Parse Expr) (statement : Parse Stmt) : Parse Stmt := do
  let _ ← expect (Kind.isMark .leftParen) .whileOpening
  let condition ← expression
  let _ ← expect (Kind.isMark .rightParen) .whileClosing
  let body ← statement
  pure (.loop condition body)

/-- The initializer of a `for` statement with its semicolon. -/
def forInitializer (expression : Parse Expr) : Parse (Option Stmt) := do
  match ← accept (Kind.isMark .semicolon) with
  | some _ => pure none
  | none => do
    match ← accept (Kind.isKeyword .var_) with
    | some _ => some <$> varDecl expression
    | none => some <$> expressionStmt expression

/-- A `for` statement behind its keyword. -/
def forStmt (expression : Parse Expr) (statement : Parse Stmt) : Parse Stmt := do
  let _ ← expect (Kind.isMark .leftParen) .forOpening
  let initializer ← forInitializer expression
  let condition ← expressionUnless .semicolon expression
  let _ ← expect (Kind.isMark .semicolon) .forConditionEnd
  let increment ← expressionUnless .rightParen expression
  let _ ← expect (Kind.isMark .rightParen) .forClosing
  let body ← statement
  pure (.forLoop initializer condition increment body)

/-- A statement, given the statements and declarations that nest inside of it. -/
def statementWith (limit : Nat) (statement : Parse Stmt) (declaration : Parse (Option Stmt)) :
    Parse Stmt := do
  let token ← peek
  match token.kind with
  | .keyword .for_ => do advance; forStmt (expression limit) statement
  | .keyword .if_ => do advance; ifStmt (expression limit) statement
  | .keyword .while_ => do advance; whileStmt (expression limit) statement
  | .keyword .return_ => do advance; returnStmt (expression limit) token
  | .mark .leftBrace => do advance; .block <$> blockEnd declaration limit
  | .keyword .print_ => do advance; printStmt (expression limit)
  | _ => expressionStmt (expression limit)

/-- A declaration that may fail, given the statements and declarations that nest inside of it. -/
def declarationWith (limit : Nat) (statement : Parse Stmt) (declaration : Parse (Option Stmt)) :
    Parse Stmt := do
  let token ← peek
  match token.kind with
  | .keyword .class_ => do advance; classDecl declaration limit
  | .keyword .fun_ => do advance; .function <$> function declaration limit .function
  | .keyword .var_ => do advance; varDecl (expression limit)
  | _ => statementWith limit statement declaration

mutual

/-- A statement, with at most `limit` tokens ahead. -/
def statement : (limit : Nat) → Parse Stmt
  | 0 => fail .expression
  | limit + 1 => statementWith (limit + 1) (statement limit) (declaration limit)

/-- A declaration, with at most `limit` tokens ahead.  One that fails is left out. -/
def declaration : (limit : Nat) → Parse (Option Stmt)
  | 0 => recover (fail .expression)
  | limit + 1 => recover (declarationWith (limit + 1) (statement limit) (declaration limit))

end

/-- All declarations up to the end, with at most `limit` tokens ahead. -/
def program (limit : Nat) : Parse (List Stmt) :=
  declarations (declaration limit) (fun _ => false) limit

end Parse

/-- The cursor before a list of tokens.  The first end of the source in the list ends it; without
one the source ends on the line of the last token. -/
def Cursor.ofTokens (tokens : List Token) (firstId : NodeId) : Cursor where
  rest := tokens.takeWhile fun t => !t.kind.isEnd
  endLine := match tokens.find? fun t => t.kind.isEnd with
    | some t => t.line
    | none => (tokens.getLast?.map Token.line).getD 1
  nextId := firstId
  faults := []

/-- What comes of parsing: the program or all faults in it, and the number for the next node. -/
structure Parsed where
  result : Except (List Diagnostic) (List Stmt)
  nextId : NodeId

/-- Parses a list of tokens, numbering nodes from `firstId` on. -/
def parse (tokens : List Token) (firstId : NodeId) : Parsed :=
  let cursor := Cursor.ofTokens tokens firstId
  match Parse.program cursor.rest.length cursor with
  | .ok statements c =>
    ⟨if c.faults.isEmpty then .ok statements else .error c.faults.reverse, c.nextId⟩
  | .error fault c => ⟨.error (fault :: c.faults).reverse, c.nextId⟩

end Lox
