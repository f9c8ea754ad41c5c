/-
JSON documents and their text.

A `Json` document keeps the order of its members.  It is written compactly or, for reading,
with one member to a line and two blanks for each level of nesting.

Design notes: both writers append to the text so far, so a deep document costs no more than its
length.  Only quotes, backslashes and characters below U+0020 are escaped.
-/
import Lox.Number.Style

namespace Lox

/-- A JSON document. -/
inductive Json where
  | null
  | natural (n : Nat)
  | number (x : Float)
  | string (s : String)
  | list (items : List Json)
  | object (members : List (String × Json))
deriving Inhabited

namespace Json

/-- Numbers in JSON have the fewest digits that read back and at least one decimal place; they
are positional from `10 ^ -5` to below `10 ^ 16`.  A tie goes to the even digit. -/
def numberStyle : Number.Style where
  exactBelow := some 0
  exactPoint := true
  shortestPoint := true
  plain := some (-5, 16)
  tie := .even

/-- The text of a number; NaN and the infinities have none. -/
def numberText? (x : Float) : Option String :=
  if x.isFinite then some (numberStyle.write x) else none

/-- The hexadecimal digits of a number below 256, two of them. -/
def hexPair (n : Nat) : String :=
  String.ofList [Nat.digitChar (n / 16), Nat.digitChar (n % 16)]

/-- The form of one character inside a JSON string. -/
def escapeChar (c : Char) : String :=
  match c with
  | '"' => "\\\""
  | '\\' => "\\\\"
  | '\x08' => "\\b"
  | '\x0c' => "\\f"
  | '\n' => "\\n"
  | '\r' => "\\r"
  | '\t' => "\\t"
  | c => if c.toNat < 0x20 then "\\u00" ++ hexPair c.toNat else String.singleton c

/-- A JSON string behind the text so far. -/
def writeString (out s : String) : String :=
  s.toList.foldl (fun out c => out ++ escapeChar c) (out ++ "\"") ++ "\""

/-- A number behind the text so far; `null` where the number has no text. -/
def writeNumber (out : String) (x : Float) : String :=
  out ++ (numberText? x).getD "null"

mutual

/-- The compact form of a document, behind the text so far. -/
def writeCompact (out : String) : Json → String
  | null => out ++ "null"
  | natural n => out ++ toString n
  | number x => writeNumber out x
  | string s => writeString out s
  | list items => writeItems (out ++ "[") items true ++ "]"
  | object members => writeMembers (out ++ "\x7b") members true ++ "\x7d"

/-- The items of a list; a comma stands before each but the first. -/
def writeItems (out : String) : List Json → (first : Bool) → String
  | [], _ => out
  | item :: items, first =>
    writeItems (writeCompact (if first then out else out ++ ",") item) items false

/-- The members of an object; a comma stands before each but the first. -/
def writeMembers (out : String) : List (String × Json) → (first : Bool) → String
  | [], _ => out
  | (key, value) :: members, first =>
    let out := writeString (if first then out else out ++ ",") key
    writeMembers (writeCompact (out ++ ":") value) members false

end

/-- The compact form of a document. -/
def compact (j : Json) : String :=
  writeCompact "" j

/-- A new line at a level of nesting. -/
def newLine (out : String) (level : Nat) : String :=
  out ++ "\n" ++ String.ofList (List.replicate (2 * level) ' ')

mutual

/-- The indented form of a document at a level of nesting, behind the text so far. -/
def writeIndented (level : Nat) (out : String) : Json → String
  | null => out ++ "null"
  | natural n => out ++ toString n
  | number x => writeNumber out x
  | string s => writeString out s
  | list [] => out ++ "[]"
  | list items => newLine (writeLines (level + 1) (out ++ "[") items true) level ++ "]"
  | object [] => out ++ "\x7b\x7d"
  | object members =>
    newLine (writeMemberLines (level + 1) (out ++ "\x7b") members true) level ++ "\x7d"

/-- The items of a list, each on a line of its own. -/
def writeLines (level : Nat) (out : String) : List Json → (first : Bool) → String
  | [], _ => out
  | item :: items, first =>
    let out := newLine (if first then out else out ++ ",") level
    writeLines level (writeIndented level out item) items false

/-- The members of an object, each on a line of its own. -/
def writeMemberLines (level : Nat) (out : String) : List (String × Json) → (first : Bool) → String
  | [], _ => out
  | (key, value) :: members, first =>
    let out := writeString (newLine (if first then out else out ++ ",") level) key
    writeMemberLines level (writeIndented level (out ++ ": ") value) members false

end

/-- The indented form of a document. -/
def indented (j : Json) : String :=
  writeIndented 0 "" j

end Json

end Lox
