/-
Diagnostics.

Everything that can go wrong in a program is a `Diagnostic`: a cause with the place where it
arose.  Lexical, grammar and binding faults are static, since they stop a program before it runs;
runtime faults and faults of the output stop a running one.

Design notes: a cause is a constructor, its wording one line of a `message` function.  A grammar
or binding fault is located at a token, so that its line and its place in the text both come
from that token.
-/
import Lox.Token.Basic

namespace Lox

/-- Faults of the characters. -/
inductive LexicalFault where
  | unexpected (c : Char)
  | unterminatedString
deriving Repr, DecidableEq

/-- The wording of a lexical fault. -/
def LexicalFault.message : LexicalFault → String
  | unexpected c => "Unexpected character: " ++ String.singleton c
  | unterminatedString => "Unterminated string."

/-- What is declared with a name, parameters and a body. -/
inductive RoutineKind where
  | function
  | method
deriving Repr, DecidableEq

/-- The word for a routine in messages. -/
def RoutineKind.word : RoutineKind → String
  | function => "function"
  | method => "method"

/-- Faults of the grammar: what was expected at a token, or what is too much or out of place. -/
inductive GrammarFault where
  | className
  | superclassName
  | classOpening
  | classClosing
  | routineName (r : RoutineKind)
  | parametersOpening (r : RoutineKind)
  | tooManyParameters
  | parameterName
  | parametersClosing
  | bodyOpening (r : RoutineKind)
  | variableName
  | variableEnd
  | forOpening
  | forConditionEnd
  | forClosing
  | ifOpening
  | ifClosing
  | whileOpening
  | whileClosing
  | printEnd
  | returnEnd
  | expressionEnd
  | blockClosing
  | assignmentTarget
  | propertyName
  | tooManyArguments
  | argumentsClosing
  | superDot
  | superMethodName
  | groupClosing
  | expression
deriving Repr, DecidableEq

/-- The wording of a grammar fault. -/
def GrammarFault.message : GrammarFault → String
  | className => "Expect class name."
  | superclassName => "Expect superclass name."
  | classOpening => "Expect '\x7b' before class body."
  | classClosing => "Expect '\x7d' after class body."
  | routineName r => "Expect " ++ r.word ++ " name."
  | parametersOpening r => "Expect '(' after " ++ r.word ++ " name."
  | tooManyParameters => "Can't have more than 255 parameters."
  | parameterName => "Expect parameter name."
  | parametersClosing => "Expect ')' after parameters."
  | bodyOpening r => "Expect '\x7b' before " ++ r.word ++ " body."
  | variableName => "Expect variable name."
  | variableEnd => "Expect ';' after variable declaration."
  | forOpening => "Expect '(' after 'for'."
  | forConditionEnd => "Expect ';' after loop condition."
  | forClosing => "Expect ')' after for clauses."
  | ifOpening => "Expect '(' after 'if'."
  | ifClosing => "Expect ')' after if condition."
  | whileOpening => "Expect '(' after 'while'."
  | whileClosing => "Expect ')' after condition."
  | printEnd => "Expect ';' after value."
  | returnEnd => "Expect ';' after return value."
  | expressionEnd => "Expect ';' after expression."
  | blockClosing => "Expect '\x7d' after block."
  | assignmentTarget => "Invalid assignment target."
  | propertyName => "Expect property name after '.'."
  | tooManyArguments => "Can't have more than 255 arguments."
  | argumentsClosing => "Expect ')' after arguments."
  | superDot => "Expect '.' after 'super'."
  | superMethodName => "Expect superclass method name."
  | groupClosing => "Expect ')' after expression."
  | expression => "Expect expression."

/-- Faults of the use of names. -/
inductive BindingFault where
  | alreadyDeclared
  | ownInitializer
  | returnAtTopLevel
  | valueFromInitializer
  | selfInheritance
  | thisOutsideClass
  | superOutsideClass
  | superWithoutSuperclass
deriving Repr, DecidableEq

/-- The wording of a binding fault. -/
def BindingFault.message : BindingFault → String
  | alreadyDeclared => "Already a variable with this name in this scope."
  | ownInitializer => "Can't read local variable in its own initializer."
  | returnAtTopLevel => "Can't return from top-level code."
  | valueFromInitializer => "Can't return a value from an initializer."
  | selfInheritance => "A class can't inherit from itself."
  | thisOutsideClass => "Can't use 'this' outside of a class."
  | superOutsideClass => "Can't use 'super' outside of a class."
  | superWithoutSuperclass => "Can't use 'super' in a class with no superclass."

/-- Faults of a running program. -/
inductive RuntimeFault where
  | operandNotNumber
  | operandsNotNumbers
  | operandsNotAddable
  | superclassNotClass
  | propertyOfNonInstance
  | fieldOfNonInstance
  | undefinedVariable (name : String)
  | undefinedProperty (name : String)
  | notCallable
  | arityMismatch (expected given : Nat)
deriving Repr, DecidableEq

/-- The wording of a runtime fault. -/
def RuntimeFault.message : RuntimeFault → String
  | operandNotNumber => "Operand must be a number."
  | operandsNotNumbers => "Operands must be numbers."
  | operandsNotAddable => "Operands must be two numbers or two strings."
  | superclassNotClass => "Superclass must be a class."
  | propertyOfNonInstance => "Only instances have properties."
  | fieldOfNonInstance => "Only instances have fields."
  | undefinedVariable name => "Undefined variable '" ++ name ++ "'."
  | undefinedProperty name => "Undefined property '" ++ name ++ "'."
  | notCallable => "Can only call functions and classes."
  | arityMismatch expected given =>
    "Expected " ++ toString expected ++ " arguments but got " ++ toString given ++ "."

/-- The classes of runtime faults. -/
inductive RuntimeKind where
  | typeError
  | undefinedVariable
  | undefinedProperty
  | notCallable
  | arityMismatch
deriving Repr, DecidableEq

/-- The class of a runtime fault. -/
def RuntimeFault.kind : RuntimeFault → RuntimeKind
  | operandNotNumber => .typeError
  | operandsNotNumbers => .typeError
  | operandsNotAddable => .typeError
  | superclassNotClass => .typeError
  | propertyOfNonInstance => .typeError
  | fieldOfNonInstance => .typeError
  | undefinedVariable _ => .undefinedVariable
  | undefinedProperty _ => .undefinedProperty
  | notCallable => .notCallable
  | arityMismatch _ _ => .arityMismatch

/-- A cause with its place.  A fault of the output is in the output's own words. -/
inductive Diagnostic where
  | lexical (line : Nat) (fault : LexicalFault)
  | grammar (token : Token) (fault : GrammarFault)
  | binding (token : Token) (fault : BindingFault)
  | runtime (line : Nat) (fault : RuntimeFault)
  | output (text : String)

/-- Where a fault is located in the text: at the end of it, or at the text of a token. -/
def Token.location (t : Token) : String :=
  match t.kind with
  | .endOfSource => " at end"
  | _ => " at '" ++ t.lexeme ++ "'"

namespace Diagnostic

/-- Static diagnostics stop a program before it runs. -/
def isStatic : Diagnostic → Bool
  | lexical .. | grammar .. | binding .. => true
  | runtime .. | output .. => false

/-- The wording of the cause. -/
def detail : Diagnostic → String
  | lexical _ fault => fault.message
  | grammar _ fault => fault.message
  | binding _ fault => fault.message
  | runtime _ fault => fault.message
  | output text => text

/-- The line; faults of the output have none. -/
def line? : Diagnostic → Option Nat
  | lexical line _ => some line
  | grammar token _ => some token.line
  | binding token _ => some token.line
  | runtime line _ => some line
  | output _ => none

/-- The place in the text, of those diagnostics that are located at a token. -/
def location? : Diagnostic → Option String
  | grammar token _ => some token.location
  | binding token _ => some token.location
  | _ => none

/-- A message with its line in front, as static diagnostics have it. -/
def lineMessage (line : Nat) (location detail : String) : String :=
  "[line " ++ toString line ++ "] Error" ++ location ++ ": " ++ detail

/-- The whole message. -/
def message : Diagnostic → String
  | lexical line fault => lineMessage line "" fault.message
  | grammar token fault => lineMessage token.line token.location fault.message
  | binding token fault => lineMessage token.line token.location fault.message
  | runtime line fault => fault.message ++ "\n[line " ++ toString line ++ "]"
  | output text => text

end Diagnostic

end Lox
