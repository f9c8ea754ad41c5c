/-
Segments of source text.

Source text falls into segments: blanks and comments, tokens, characters that begin nothing, and
a string that is never closed.  `Segment.read` takes the longest segment at the front of a text.

* `Segment.read_append` — a segment and what follows it are the text they were read from;
* `Segment.length_rest_le` — what follows is shorter than the text, so reading comes to an end.

Design notes: letters and digits are those of ASCII; any other character is stray outside of
strings and comments.  A point belongs to a number only if a digit follows it.
-/
import Lox.Token.Basic

namespace Lox

/-- A decimal literal: digits, and digits behind a point or none. -/
def literalValue (whole fraction : List Char) : Float :=
  let digits := (whole ++ fraction).foldl (fun n c => 10 * n + (c.toNat - '0'.toNat)) 0
  Float.ofScientific digits true fraction.length

/-- An ASCII letter or an underscore, with which names begin. -/
def beginsName (c : Char) : Bool :=
  c.isAlpha || c == '_'

/-- A character inside of a name. -/
def continuesName (c : Char) : Bool :=
  c.isAlphanum || c == '_'

/-- A blank between tokens. -/
def isBlank (c : Char) : Bool :=
  c == ' ' || c == '\r' || c == '\t' || c == '\n'

/-- A mark that no longer mark begins with. -/
def singleMark? : Char → Option Mark
  | '(' => some .leftParen
  | ')' => some .rightParen
  | '{' => some .leftBrace
  | '}' => some .rightBrace
  | ',' => some .comma
  | '.' => some .dot
  | '-' => some .minus
  | '+' => some .plus
  | ';' => some .semicolon
  | '*' => some .star
  | _ => none

/-- A mark and the longer one that a following `=` makes of it. -/
def growingMark? : Char → Option (Mark × Mark)
  | '!' => some (.bang, .bangEqual)
  | '=' => some (.equal, .equalEqual)
  | '<' => some (.less, .lessEqual)
  | '>' => some (.greater, .greaterEqual)
  | _ => none

/-- The kind of a name: a reserved word or an identifier. -/
def nameKind (name : String) : Kind :=
  match Keyword.ofText? name with
  | some k => .keyword k
  | none => .identifier

/-- What a segment is. -/
inductive Shape where
  /-- a blank or a comment -/
  | trivia
  | token (kind : Kind)
  /-- a character that begins nothing -/
  | stray (c : Char)
  /-- a string without its closing quote -/
  | openString

/-- A segment, without its first character, and the text behind it. -/
structure Segment where
  shape : Shape
  tail : List Char
  rest : List Char

namespace Segment

/-- The segment of a first character alone. -/
def single (shape : Shape) (cs : List Char) : Segment :=
  ⟨shape, [], cs⟩

/-- A segment that goes on as long as `p` holds. -/
def whileTrue (p : Char → Bool) (shape : List Char → Shape) (cs : List Char) : Segment :=
  ⟨shape (cs.takeWhile p), cs.takeWhile p, cs.dropWhile p⟩

/-- A mark that a following `=` makes longer. -/
def growing (short long : Mark) : List Char → Segment
  | '=' :: cs => ⟨.token (.mark long), ['='], cs⟩
  | cs => single (.token (.mark short)) cs

/-- A slash, or a comment up to the end of its line. -/
def slash : List Char → Segment
  | '/' :: cs => ⟨.trivia, '/' :: cs.takeWhile (· != '\n'), cs.dropWhile (· != '\n')⟩
  | cs => single (.token (.mark .slash)) cs

/-- A string up to the next quote. -/
def string (cs : List Char) : Segment :=
  match cs.dropWhile (· != '"') with
  | [] => ⟨.openString, cs, []⟩
  | quote :: rest =>
    let body := cs.takeWhile (· != '"')
    ⟨.token (.string (String.ofList body)), body ++ [quote], rest⟩

/-- A number that begins with the digit `c`. -/
def number (c : Char) (cs : List Char) : Segment :=
  let whole := cs.takeWhile Char.isDigit
  match cs.dropWhile Char.isDigit with
  | '.' :: d :: rest =>
    if d.isDigit then
      let fraction := d :: rest.takeWhile Char.isDigit
      ⟨.token (.number (literalValue (c :: whole) fraction)), whole ++ '.' :: fraction,
        rest.dropWhile Char.isDigit⟩
    else ⟨.token (.number (literalValue (c :: whole) [])), whole, '.' :: d :: rest⟩
  | rest => ⟨.token (.number (literalValue (c :: whole) [])), whole, rest⟩

/-- A name that begins with the letter `c`. -/
def name (c : Char) (cs : List Char) : Segment :=
  whileTrue continuesName (fun tail => .token (nameKind (String.ofList (c :: tail)))) cs

/-- The longest segment at the front of a text `c :: cs`. -/
def read (c : Char) (cs : List Char) : Segment :=
  match singleMark? c, growingMark? c with
  | some m, _ => single (.token (.mark m)) cs
  | none, some (short, long) => growing short long cs
  | none, none =>
    if isBlank c then single .trivia cs
    else if c == '/' then slash cs
    else if c == '"' then string cs
    else if c.isDigit then number c cs
    else if beginsName c then name c cs
    else single (.stray c) cs

theorem growing_append (short long : Mark) (cs : List Char) :
    (growing short long cs).tail ++ (growing short long cs).rest = cs := by
  unfold growing
  split <;> simp [single]

theorem slash_append (cs : List Char) : (slash cs).tail ++ (slash cs).rest = cs := by
  unfold slash
  split <;> simp [single]

theorem string_append (cs : List Char) : (string cs).tail ++ (string cs).rest = cs := by
  unfold string
  split
  · simp
  · next h =>
    have := List.takeWhile_append_dropWhile (p := (· != '"')) (l := cs)
    rw [h] at this
    simpa using this

theorem number_append (c : Char) (cs : List Char) :
    (number c cs).tail ++ (number c cs).rest = cs := by
  have hcs := List.takeWhile_append_dropWhile (p := Char.isDigit) (l := cs)
  unfold number
  split
  · next h =>
    rw [h] at hcs
    split <;> simpa using hcs
  · simp

/-- A segment and what follows it are the text they were read from. -/
theorem read_append (c : Char) (cs : List Char) : (read c cs).tail ++ (read c cs).rest = cs := by
  unfold read
  split
  · simp [single]
  · exact growing_append ..
  · repeat' split
    · simp [single]
    · exact slash_append cs
    · exact string_append cs
    · exact number_append c cs
    · simp [name, whileTrue]
    · simp [single]

/-- What follows a segment is shorter than the text. -/
theorem length_rest_le (c : Char) (cs : List Char) : (read c cs).rest.length ≤ cs.length := by
  have := congrArg List.length (read_append c cs)
  simp only [List.length_append] at this
  omega

end Segment

end Lox
