/-
Decoding UTF-8.

`decode` reads a whole byte sequence as text, or says where its longest readable beginning ends
and why it ends there: a sequence that is wrong, or one that the end of the bytes cuts short.

Design notes: `Step` reads one character.  The ranges of the second byte exclude overlong forms,
surrogates and values above U+10FFFF, so every accepted sequence is a character.
-/
namespace Lox.Text.Utf8

/-- Why bytes are not text.  `start` counts the readable bytes before the fault. -/
inductive Fault where
  /-- a sequence of `length` bytes at `start` that begins no character -/
  | invalid (start length : Nat)
  /-- a sequence at `start` that the end of the bytes cuts short -/
  | incomplete (start : Nat)
deriving Repr, DecidableEq

/-- The wording of a fault. -/
def Fault.message : Fault → String
  | .invalid start length =>
    "invalid utf-8 sequence of " ++ toString length ++ " bytes from index " ++ toString start
  | .incomplete start => "incomplete utf-8 byte sequence from index " ++ toString start

/-- The outcome of reading one character. -/
inductive Step where
  | read (c : Char) (rest : List UInt8)
  | wrong (length : Nat)
  | short

/-- `low` to `high`, both included. -/
def within (low high b : UInt8) : Bool :=
  low ≤ b && b ≤ high

/-- A byte that continues a sequence. -/
def continues (b : UInt8) : Bool :=
  within 0x80 0xBF b

/-- The range of the second byte after a given first byte. -/
def second (first : UInt8) : UInt8 × UInt8 :=
  if first = 0xE0 then (0xA0, 0xBF)
  else if first = 0xED then (0x80, 0x9F)
  else if first = 0xF0 then (0x90, 0xBF)
  else if first = 0xF4 then (0x80, 0x8F)
  else (0x80, 0xBF)

/-- How many bytes a first byte announces; `0` for a byte that begins no character. -/
def announced (first : UInt8) : Nat :=
  if first < 0x80 then 1
  else if within 0xC2 0xDF first then 2
  else if within 0xE0 0xEF first then 3
  else if within 0xF0 0xF4 first then 4
  else 0

/-- The payload bits of a continuing byte appended to a value. -/
def extend (value : Nat) (b : UInt8) : Nat :=
  value * 64 + b.toNat % 64

/-- Reads the character that begins with `first`. -/
def readOne (first : UInt8) (rest : List UInt8) : Step :=
  let (low, high) := second first
  match announced first, rest with
  | 1, _ => .read (Char.ofNat first.toNat) rest
  | 2, [] => .short
  | 2, b :: r =>
    if within low high b then .read (Char.ofNat (extend (first.toNat % 32) b)) r else .wrong 1
  | 3, [] => .short
  | 3, b :: r =>
    if within low high b then
      match r with
      | [] => .short
      | c :: r =>
        if continues c then .read (Char.ofNat (extend (extend (first.toNat % 16) b) c)) r
        else .wrong 2
    else .wrong 1
  | 4, [] => .short
  | 4, b :: r =>
    if within low high b then
      match r with
      | [] => .short
      | c :: r =>
        if continues c then
          match r with
          | [] => .short
          | d :: r =>
            if continues d then
              .read (Char.ofNat (extend (extend (extend (first.toNat % 8) b) c) d)) r
            else .wrong 3
        else .wrong 2
    else .wrong 1
  | _, _ => .wrong 1

/-- Reads characters from at most `limit` bytes on, `start` bytes into the text, behind the
characters already read (`done`, the latest first). -/
def decodeFrom : (limit : Nat) → (start : Nat) → (done : List Char) → List UInt8 →
    Except Fault (List Char)
  | _, _, done, [] => .ok done.reverse
  | 0, _, done, _ => .ok done.reverse
  | limit + 1, start, done, first :: rest =>
    match readOne first rest with
    | .read c r => decodeFrom limit (start + c.utf8Size) (c :: done) r
    | .wrong length => .error (.invalid start length)
    | .short => .error (.incomplete start)

/-- The text of a byte sequence, or the first fault in it. -/
def decode (bytes : List UInt8) : Except Fault (List Char) :=
  decodeFrom bytes.length 0 [] bytes

end Lox.Text.Utf8
