/-
Reading by positions.

The grammar once more, as a recursive descent through a list of tokens by the position of the next
one.  No limit of the grammar bounds it: a production calls itself and the others, and a loop goes
on until a token ends it.  How deep the calls may nest is given from outside, and a descent has no
outcome at a depth that its calls pass, and none if it looks at a position where there is no token.

* `Parser` — the tokens, the position, and what has been found so far;
* `Parser.Note` — what a descent writes down: where it looks, where a declaration begins and ends,
  and where a turn of a loop begins and ends;
* `Parser.Reading` — a step of a descent, which may fail, and need not have an outcome;
* `Parser.parse` — the descent through a whole list of tokens.

Design notes: the productions are those of the grammar, without its limits.  A turn of a loop is a
call of the loop by itself, so that a loop that goes on without taking a token has no outcome at any
depth.  A token is asked for twice, once to see whether the source ends there; the token behind is
asked for at the position before, or at the first one.  An end of the source in a fault is shown
with its line alone.
-/
import Lox.Proofs.Syntax.Concrete

namespace Lox

namespace Parser

/-- The loops of the descent. -/
inductive Loop where
  | statement | block | method | parameter | argument | operator | suffix | skip

/-- What a descent writes down. -/
inductive Note where
  /-- the token at `index` is looked at while `current` is the position -/
  | looked (current index : Nat)
  /-- a declaration, well-formed or not, is read from one position to another -/
  | declared (before after : Nat)
  /-- a turn of a loop, behind which the loop goes on, leads from one position to another -/
  | turned (loop : Loop) (before after : Nat)

end Parser

/-- The state of a descent. -/
structure Parser where
  tokens : List Token
  /-- the position of the next token -/
  current : Nat
  nextId : NodeId
  /-- the faults found so far, the latest first -/
  faults : List Diagnostic
  /-- the notes, the latest first -/
  notes : List Parser.Note

namespace Parser

/-- The descent before a list of tokens, which gets an end if it does not end with one. -/
def new (tokens : List Token) (firstId : NodeId) : Parser where
  tokens :=
    if tokens.getLast?.any fun t => t.kind.isEnd then tokens
    else tokens ++ [⟨.endOfSource, "", (tokens.getLast?.map Token.line).getD 1⟩]
  current := 0
  nextId := firstId
  faults := []
  notes := []

/-- The position of the first end of the source. -/
def stop (p : Parser) : Nat :=
  p.tokens.findIdx fun t => t.kind.isEnd

/-- A step of a descent.  A failure is an outcome as well. -/
abbrev Reading (α : Type) : Type :=
  ExceptT Diagnostic (StateT Parser Option) α

/-- Calls nest deeper than they may. -/
def tooDeep {α : Type} : Reading α := fun _ => none

/-! ### The position -/

/-- A step that always has an outcome. -/
def act {α : Type} (f : Parser → α × Parser) : Reading α := fun p =>
  some (.ok (f p).1, (f p).2)

def position : Reading Nat :=
  act fun p => (p.current, p)

def noting (note : Parser → Note) : Reading Unit :=
  act fun p => ((), { p with notes := note p :: p.notes })

/-- The token at an index. -/
def look (index : Nat) : Reading Token := do
  noting fun p => .looked p.current index
  fun p => p.tokens[index]?.map fun t => (.ok t, p)

/-- The next token. -/
def peek : Reading Token := do
  look (← position)

/-- The token behind the position, or the first one. -/
def previous : Reading Token := do
  look ((← position) - 1)

/-- The next token is an end of the source. -/
def isAtEnd : Reading Bool := do
  return (← peek).kind.isEnd

/-- Moves past the next token unless the source ends there; in any case the token behind is
returned. -/
def advance : Reading Token := do
  if ← isAtEnd then previous
  else
    act fun p => ((), { p with current := p.current + 1 })
    previous

/-- The next token is of a kind in `k`, and no end of the source. -/
def check (k : Kind → Bool) : Reading Bool := do
  if ← isAtEnd then return false
  else return k (← peek).kind

/-- Moves past the next token if it is of a kind in `k`. -/
def takes (k : Kind → Bool) : Reading Bool := do
  if ← check k then
    let _ ← advance
    return true
  else return false

/-- A token as a fault shows it: an end of the source with its line alone. -/
def shown (t : Token) : Token :=
  if t.kind.isEnd then ⟨.endOfSource, "", t.line⟩ else t

/-- A fault at a token. -/
def blame (token : Token) (fault : GrammarFault) : Diagnostic :=
  .grammar (shown token) fault

/-- Moves past the next token, which must be of a kind in `k`. -/
def consume (k : Kind → Bool) (fault : GrammarFault) : Reading Token := do
  if ← check k then advance
  else throw (blame (← peek) fault)

/-- Writes down a fault and goes on. -/
def report (d : Diagnostic) : Reading Unit :=
  act fun p => ((), { p with faults := d :: p.faults })

def freshId : Reading NodeId :=
  act fun p => (p.nextId, { p with nextId := p.nextId + 1 })

/-- Writes down a turn of a loop that began at a position. -/
def turned (loop : Loop) (before : Nat) : Reading Unit :=
  noting fun p => .turned loop before p.current

/-- Writes down a declaration that began at a position. -/
def declared (before : Nat) : Reading Unit :=
  noting fun p => .declared before p.current

/-- The rest of skipping: up to a token behind a semicolon, or one that begins a statement. -/
def skip : Nat → Reading Unit
  | 0 => tooDeep
  | depth + 1 => do
    if ← isAtEnd then pure ()
    else if (← previous).kind.isMark .semicolon then pure ()
    else if (← peek).kind.beginsStatement then pure ()
    else
      let before ← position
      let _ ← advance
      turned .skip before
      skip depth

/-- Skips to the next statement, past one token at least. -/
def synchronize (depth : Nat) : Reading Unit := do
  let _ ← advance
  skip depth

/-! ### Expressions -/

/-- An item of a list that is too long is a fault. -/
def counted (before : Nat) (fault : GrammarFault) : Reading Unit := do
  if maxArguments ≤ before then
    report (blame (← peek) fault)

/-- An expression whose text is the one next token. -/
def leaf (e : Expr) : Reading Expr := do
  let _ ← advance
  return e

/-- The assignment of a value to a target. -/
def assignTo (target : Expr) (equals : Token) (value : Expr) : Reading Expr := do
  match target with
  | .var _ name => return .assign (← freshId) name value
  | .get object name => return .set object name value
  | other =>
    report (blame equals .assignmentTarget)
    return other

mutual

/-- An expression. -/
def assignment : Nat → Reading Expr
  | 0 => tooDeep
  | depth + 1 => do
    let target ← operation 6 depth
    if ← takes (Kind.isMark .equal) then
      let equals ← previous
      let value ← assignment depth
      assignTo target equals value
    else return target
termination_by structural depth => depth

/-- An operation of some rank: a level of binary operators, or unary operators. -/
def operation : Nat → Nat → Reading Expr
  | _, 0 => tooDeep
  | 0, depth + 1 => unary depth
  | rank + 1, depth + 1 => do
    let first ← operation rank depth
    operators rank first depth
termination_by structural _ depth => depth

/-- The operators of a level behind its first operand, with operands of the next rank. -/
def operators (rank : Nat) (left : Expr) : Nat → Reading Expr
  | 0 => tooDeep
  | depth + 1 => do
    let before ← position
    if ← takes (Kind.hasRank (rank + 1)) then
      let operator ← previous
      let right ← operation rank depth
      turned .operator before
      operators rank (Concrete.operatorNode (rank + 1) left operator right) depth
    else return left
termination_by structural depth => depth

/-- Operators before their operand. -/
def unary : Nat → Reading Expr
  | 0 => tooDeep
  | depth + 1 => do
    if ← takes Parse.unaryOperators then
      let operator ← previous
      let right ← unary depth
      return .unary operator right
    else
      let e ← primary depth
      suffixes e depth
termination_by structural depth => depth

/-- Calls and properties behind an expression. -/
def suffixes (e : Expr) : Nat → Reading Expr
  | 0 => tooDeep
  | depth + 1 => do
    let before ← position
    if ← takes (Kind.isMark .leftParen) then
      let e ← finishCall e depth
      turned .suffix before
      suffixes e depth
    else if ← takes (Kind.isMark .dot) then
      let name ← consume Kind.isIdentifier .propertyName
      turned .suffix before
      suffixes (.get e name) depth
    else return e
termination_by structural depth => depth

/-- The rest of a call behind its opening parenthesis. -/
def finishCall (callee : Expr) : Nat → Reading Expr
  | 0 => tooDeep
  | depth + 1 => do
    let arguments ← argumentList depth
    let paren ← consume (Kind.isMark .rightParen) .argumentsClosing
    return .call callee paren arguments
termination_by structural depth => depth

/-- The arguments of a call, of which there may be none. -/
def argumentList : Nat → Reading (List Expr)
  | 0 => tooDeep
  | depth + 1 => do
    if ← check (Kind.isMark .rightParen) then return [] else arguments 0 depth
termination_by structural depth => depth

/-- An argument of a call behind `count` others. -/
def argument (count : Nat) : Nat → Reading Expr
  | 0 => tooDeep
  | depth + 1 => do
    counted count .tooManyArguments
    assignment depth
termination_by structural depth => depth

/-- The arguments of a call behind `count` others. -/
def arguments (count : Nat) : Nat → Reading (List Expr)
  | 0 => tooDeep
  | depth + 1 => do
    let before ← position
    let first ← argument count depth
    if ← takes (Kind.isMark .comma) then
      turned .argument before
      let others ← arguments (count + 1) depth
      return first :: others
    else return [first]
termination_by structural depth => depth

/-- Literals, names, `this`, `super` and groups. -/
def primary : Nat → Reading Expr
  | 0 => tooDeep
  | depth + 1 => do
    let token ← peek
    match token.kind with
    | .keyword .false_ => leaf (.literal (.bool false))
    | .keyword .true_ => leaf (.literal (.bool true))
    | .keyword .nil_ => leaf (.literal .nil)
    | .number x => leaf (.literal (.number x))
    | .string s => leaf (.literal (.string s))
    | .keyword .this_ => leaf (.thisRef (← freshId) token)
    | .identifier => leaf (.var (← freshId) token)
    | .keyword .super_ =>
      let _ ← advance
      let _ ← consume (Kind.isMark .dot) .superDot
      let method ← consume Kind.isIdentifier .superMethodName
      return .superRef (← freshId) token method
    | .mark .leftParen =>
      let _ ← advance
      let inner ← assignment depth
      let _ ← consume (Kind.isMark .rightParen) .groupClosing
      return .grouping inner
    | _ => throw (blame token .expression)

termination_by structural depth => depth
end

/-! ### Declarations and statements -/

/-- A parameter of a function behind `count` others. -/
def parameter (count : Nat) : Reading Token := do
  counted count .tooManyParameters
  consume Kind.isIdentifier .parameterName

/-- The parameters of a function behind `count` others. -/
def parameters (count : Nat) : Nat → Reading (List Token)
  | 0 => tooDeep
  | depth + 1 => do
    let before ← position
    let first ← parameter count
    if ← takes (Kind.isMark .comma) then
      turned .parameter before
      let others ← parameters (count + 1) depth
      return first :: others
    else return [first]

/-- The parameters of a function, of which there may be none. -/
def parameterList (depth : Nat) : Reading (List Token) := do
  if ← check (Kind.isMark .rightParen) then return [] else parameters 0 depth

/-- A superclass, if the class has one. -/
def superclass : Reading (Option Expr) := do
  if ← takes (Kind.isMark .less) then
    let name ← consume Kind.isIdentifier .superclassName
    return some (.var (← freshId) name)
  else return none

/-- A variable declaration behind its keyword. -/
def varDeclaration (depth : Nat) : Reading Stmt := do
  let name ← consume Kind.isIdentifier .variableName
  let initializer ← if ← takes (Kind.isMark .equal) then some <$> assignment depth else pure none
  let _ ← consume (Kind.isMark .semicolon) .variableEnd
  return .varDecl name initializer

def expressionStatement (depth : Nat) : Reading Stmt := do
  let e ← assignment depth
  let _ ← consume (Kind.isMark .semicolon) .expressionEnd
  return .expression e

/-- A `print` statement behind its keyword. -/
def printStatement (depth : Nat) : Reading Stmt := do
  let e ← assignment depth
  let _ ← consume (Kind.isMark .semicolon) .printEnd
  return .print e

/-- An expression, unless a given mark is next. -/
def expressionUnless (m : Mark) (depth : Nat) : Reading (Option Expr) := do
  if ← check (Kind.isMark m) then return none else some <$> assignment depth

/-- A `return` statement behind its keyword. -/
def returnStatement (keyword : Token) (depth : Nat) : Reading Stmt := do
  let value ← expressionUnless .semicolon depth
  let _ ← consume (Kind.isMark .semicolon) .returnEnd
  return .ret keyword value

/-- The initializer of a `for` statement with its semicolon. -/
def forInitializer (depth : Nat) : Reading (Option Stmt) := do
  if ← takes (Kind.isMark .semicolon) then return none
  else if ← takes (Kind.isKeyword .var_) then some <$> varDeclaration depth
  else some <$> expressionStatement depth

mutual

/-- The declarations up to a token of a kind in `stops`, or up to the end. -/
def declarations (loop : Loop) (stops : Kind → Bool) : Nat → Reading (List Stmt)
  | 0 => tooDeep
  | depth + 1 => do
    if ← check stops then return []
    -- a list that is not ended goes to the end of the source
    else if ← isAtEnd then return []
    else
      let before ← position
      let first ← declaration depth
      turned loop before
      let others ← declarations loop stops depth
      return first.toList ++ others

/-- A declaration.  One that fails is left out, and its fault is written down. -/
def declaration : Nat → Reading (Option Stmt)
  | 0 => tooDeep
  | depth + 1 => do
    let before ← position
    let outcome ← observing (unguarded depth)
    match outcome with
    | .ok s =>
      declared before
      return some s
    | .error d =>
      -- what it has read stays behind, and one token more at least is skipped
      report d
      synchronize depth
      declared before
      return none

/-- A declaration that may fail. -/
def unguarded : Nat → Reading Stmt
  | 0 => tooDeep
  | depth + 1 => do
    if ← takes (Kind.isKeyword .class_) then classDeclaration depth
    else if ← takes (Kind.isKeyword .fun_) then .function <$> function .function depth
    else if ← takes (Kind.isKeyword .var_) then varDeclaration depth
    else statement depth

/-- A class behind its keyword. -/
def classDeclaration : Nat → Reading Stmt
  | 0 => tooDeep
  | depth + 1 => do
    let name ← consume Kind.isIdentifier .className
    let superclass ← superclass
    let _ ← consume (Kind.isMark .leftBrace) .classOpening
    let methods ← methods depth
    let _ ← consume (Kind.isMark .rightBrace) .classClosing
    return .classDecl name superclass methods

/-- Methods up to a closing brace or up to the end. -/
def methods : Nat → Reading (List FunDecl)
  | 0 => tooDeep
  | depth + 1 => do
    if ← check (Kind.isMark .rightBrace) then return []
    else if ← isAtEnd then return []
    else
      let before ← position
      let first ← function .method depth
      turned .method before
      let others ← methods depth
      return first :: others

/-- A function or method from its name on. -/
def function (kind : RoutineKind) : Nat → Reading FunDecl
  | 0 => tooDeep
  | depth + 1 => do
    let name ← consume Kind.isIdentifier (.routineName kind)
    let _ ← consume (Kind.isMark .leftParen) (.parametersOpening kind)
    let params ← parameterList depth
    let _ ← consume (Kind.isMark .rightParen) .parametersClosing
    let _ ← consume (Kind.isMark .leftBrace) (.bodyOpening kind)
    let body ← block depth
    return .mk name params body

/-- The rest of a block behind its opening brace. -/
def block : Nat → Reading (List Stmt)
  | 0 => tooDeep
  | depth + 1 => do
    let body ← declarations .block (Kind.isMark .rightBrace) depth
    let _ ← consume (Kind.isMark .rightBrace) .blockClosing
    return body

def statement : Nat → Reading Stmt
  | 0 => tooDeep
  | depth + 1 => do
    if ← takes (Kind.isKeyword .for_) then forStatement depth
    else if ← takes (Kind.isKeyword .if_) then ifStatement depth
    else if ← takes (Kind.isKeyword .while_) then whileStatement depth
    else if ← takes (Kind.isKeyword .return_) then returnStatement (← previous) depth
    else if ← takes (Kind.isMark .leftBrace) then .block <$> block depth
    else if ← takes (Kind.isKeyword .print_) then printStatement depth
    else expressionStatement depth

/-- A `for` statement behind its keyword. -/
def forStatement : Nat → Reading Stmt
  | 0 => tooDeep
  | depth + 1 => do
    let _ ← consume (Kind.isMark .leftParen) .forOpening
    let initializer ← forInitializer depth
    let condition ← expressionUnless .semicolon depth
    let _ ← consume (Kind.isMark .semicolon) .forConditionEnd
    let increment ← expressionUnless .rightParen depth
    let _ ← consume (Kind.isMark .rightParen) .forClosing
    let body ← statement depth
    return .forLoop initializer condition increment body

/-- An `if` statement behind its keyword. -/
def ifStatement : Nat → Reading Stmt
  | 0 => tooDeep
  | depth + 1 => do
    let _ ← consume (Kind.isMark .leftParen) .ifOpening
    let condition ← assignment depth
    let _ ← consume (Kind.isMark .rightParen) .ifClosing
    let thenBranch ← statement depth
    if ← takes (Kind.isKeyword .else_) then
      let elseBranch ← statement depth
      return .branch condition thenBranch (some elseBranch)
    else return .branch condition thenBranch none

/-- A `while` statement behind its keyword. -/
def whileStatement : Nat → Reading Stmt
  | 0 => tooDeep
  | depth + 1 => do
    let _ ← consume (Kind.isMark .leftParen) .whileOpening
    let condition ← assignment depth
    let _ ← consume (Kind.isMark .rightParen) .whileClosing
    let body ← statement depth
    return .loop condition body

end

/-- All declarations up to the end. -/
def program : Nat → Reading (List Stmt) :=
  declarations .statement fun _ => false

/-- The descent through all tokens: what comes of it, and the state it ends in. -/
def parse (start : Parser) (depth : Nat) : Option (Parsed × Parser) := do
  match ← program depth start with
  | (.ok statements, p) =>
    return (⟨if p.faults.isEmpty then .ok statements else .error p.faults.reverse, p.nextId⟩, p)
  | (.error fault, p) => return (⟨.error (fault :: p.faults).reverse, p.nextId⟩, p)

end Parser

end Lox
