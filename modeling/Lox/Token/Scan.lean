/-
Scanning: source text to tokens.

`scan` reads the segments of a source one after the other.  A token or a lexical fault becomes an
item, blanks and comments become none, and the last item is the token for the end of the source.
The line of an item is one more than the number of line ends before the end of its segment.
-/
import Lox.Diagnostic
import Lox.Token.Segment

namespace Lox

/-- What scanning yields. -/
inductive Item where
  | token (t : Token)
  | fault (line : Nat) (f : LexicalFault)

namespace Item

/-- The token of an item. -/
def token? : Item → Option Token
  | token t => some t
  | fault .. => none

/-- The diagnostic of an item. -/
def diagnostic? : Item → Option Diagnostic
  | token _ => none
  | fault line f => some (.lexical line f)

end Item

/-- The line on which a text ends that begins on line `line`. -/
def lineAfter (line : Nat) (text : List Char) : Nat :=
  line + text.count '\n'

/-- The item of a segment that begins with `c` and ends on line `line`. -/
def Segment.item? (c : Char) (s : Segment) (line : Nat) : Option Item :=
  match s.shape with
  | .trivia => none
  | .token kind => some (.token ⟨kind, String.ofList (c :: s.tail), line⟩)
  | .stray c => some (.fault line (.unexpected c))
  | .openString => some (.fault line .unterminatedString)

/-- The items of a text that begins on line `line`. -/
def scanFrom (line : Nat) : List Char → List Item
  | [] => [.token ⟨.endOfSource, "", line⟩]
  | c :: cs =>
    let segment := Segment.read c cs
    let line := lineAfter line (c :: segment.tail)
    have := Segment.length_rest_le c cs
    match segment.item? c line with
    | none => scanFrom line segment.rest
    | some item => item :: scanFrom line segment.rest
termination_by cs => cs.length
decreasing_by all_goals simp only [List.length_cons]; omega

/-- The items of a source, in order. -/
def scan (source : String) : List Item :=
  scanFrom 1 source.toList

/-- The tokens of a source, the last one being its end. -/
def scanTokens (source : String) : List Token :=
  (scan source).filterMap Item.token?

/-- The lexical faults of a source. -/
def scanFaults (source : String) : List Diagnostic :=
  (scan source).filterMap Item.diagnostic?

end Lox
