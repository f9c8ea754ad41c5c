/-
Tokens.

A token has a kind, the piece of text it was read from, and a line.  The kind of a string or
number carries its value; `Kind.same` compares kinds without these values, and `Token.same`
compares two tokens by kind, text and line.

Design notes: punctuation and reserved words are types of their own, so that "the next token is a
semicolon" is the equation `kind = .mark .semicolon`, and a table of each is a plain list.
-/
import Lox.Number.Style
import Lox.Text.Json

namespace Lox

/-- Punctuation and operators. -/
inductive Mark where
  | leftParen | rightParen | leftBrace | rightBrace
  | comma | dot | minus | plus | semicolon | slash | star
  | bang | bangEqual | equal | equalEqual
  | greater | greaterEqual | less | lessEqual
deriving Repr, DecidableEq, Inhabited

/-- The name of a mark in listings. -/
def Mark.name : Mark → String
  | leftParen => "LEFT_PAREN"
  | rightParen => "RIGHT_PAREN"
  | leftBrace => "LEFT_BRACE"
  | rightBrace => "RIGHT_BRACE"
  | comma => "COMMA"
  | dot => "DOT"
  | minus => "MINUS"
  | plus => "PLUS"
  | semicolon => "SEMICOLON"
  | slash => "SLASH"
  | star => "STAR"
  | bang => "BANG"
  | bangEqual => "BANG_EQUAL"
  | equal => "EQUAL"
  | equalEqual => "EQUAL_EQUAL"
  | greater => "GREATER"
  | greaterEqual => "GREATER_EQUAL"
  | less => "LESS"
  | lessEqual => "LESS_EQUAL"

/-- Reserved words. -/
inductive Keyword where
  | and_ | class_ | else_ | false_ | for_ | fun_ | if_ | nil_
  | or_ | print_ | return_ | super_ | this_ | true_ | var_ | while_
deriving Repr, DecidableEq, Inhabited

namespace Keyword

/-- All reserved words. -/
def all : List Keyword :=
  [and_, class_, else_, false_, for_, fun_, if_, nil_,
   or_, print_, return_, super_, this_, true_, var_, while_]

/-- How a reserved word is written. -/
def text : Keyword → String
  | and_ => "and"
  | class_ => "class"
  | else_ => "else"
  | false_ => "false"
  | for_ => "for"
  | fun_ => "fun"
  | if_ => "if"
  | nil_ => "nil"
  | or_ => "or"
  | print_ => "print"
  | return_ => "return"
  | super_ => "super"
  | this_ => "this"
  | true_ => "true"
  | var_ => "var"
  | while_ => "while"

/-- The name of a reserved word in listings. -/
def name (k : Keyword) : String :=
  k.text.toUpper

/-- The reserved word that is written so. -/
def ofText? (s : String) : Option Keyword :=
  all.find? fun k => k.text == s

end Keyword

/-- What a token is. -/
inductive Kind where
  | mark (m : Mark)
  | keyword (k : Keyword)
  | identifier
  /-- a string and its text without the quotes -/
  | string (s : String)
  | number (x : Float)
  /-- the end of the source -/
  | endOfSource
deriving Inhabited

namespace Kind

/-- The name of a kind in listings. -/
def name : Kind → String
  | mark m => m.name
  | keyword k => k.name
  | identifier => "IDENTIFIER"
  | string _ => "STRING"
  | number _ => "NUMBER"
  | endOfSource => "EOF"

/-- Two kinds are the same up to the value of a string or number. -/
def same : Kind → Kind → Bool
  | mark m, mark m' => m == m'
  | keyword k, keyword k' => k == k'
  | identifier, identifier => true
  | string _, string _ => true
  | number _, number _ => true
  | endOfSource, endOfSource => true
  | _, _ => false

/-- The kind is this mark. -/
def isMark (m : Mark) : Kind → Bool
  | mark m' => m' == m
  | _ => false

/-- The kind is this reserved word. -/
def isKeyword (k : Keyword) : Kind → Bool
  | keyword k' => k' == k
  | _ => false

/-- The kind is an identifier. -/
def isIdentifier : Kind → Bool
  | identifier => true
  | _ => false

/-- The kind is the end of the source. -/
def isEnd : Kind → Bool
  | endOfSource => true
  | _ => false

/-- The reserved words with which a declaration or statement begins. -/
def beginsStatement : Kind → Bool
  | keyword .class_ | keyword .fun_ | keyword .var_ | keyword .for_
  | keyword .if_ | keyword .while_ | keyword .print_ | keyword .return_ => true
  | _ => false

/-- The kind in a JSON document: its name, with the value of a string or number. -/
def toJson (k : Kind) : Json :=
  match k with
  | string s => .object [(k.name, .string s)]
  | number x => .object [(k.name, .number x)]
  | _ => .string k.name

end Kind

/-- A token: its kind, its text and the line on which it ends. -/
structure Token where
  kind : Kind
  lexeme : String
  line : Nat
deriving Inhabited

namespace Token

/-- Numbers in token listings: integers below `2 ^ 63` are exact and have one decimal place, all
others have their shortest digits in positional form. -/
def numberStyle : Number.Style where
  exactBelow := some (Nat.pow 2 63)
  exactPoint := true
  shortestPoint := false
  plain := none
  tie := .up

/-- Equality of kind, text and line; the values of strings and numbers do not count. -/
def same (a b : Token) : Bool :=
  a.kind.same b.kind && a.lexeme == b.lexeme && a.line == b.line

/-- The value of a token in a listing. -/
def literal (t : Token) : String :=
  match t.kind with
  | .string s => s
  | .number x => numberStyle.write x
  | _ => "null"

/-- The line of a token in a listing. -/
def display (t : Token) : String :=
  t.kind.name ++ " " ++ t.lexeme ++ " " ++ t.literal

/-- The token as a JSON document. -/
def toJson (t : Token) : Json :=
  .object [("token_type", t.kind.toJson), ("lexeme", .string t.lexeme), ("line", .natural t.line)]

end Token

end Lox
