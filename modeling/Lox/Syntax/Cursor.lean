/-
Reading tokens.

A `Cursor` holds the tokens still ahead, the number for the next node and the faults found so
far.  A `Parse` reads from a cursor; when it fails, the cursor stays where the failure occurred,
so that `recover` can resume behind it.

* `recover` — a failure becomes a fault, and reading resumes at the next statement;
* `resume_suffix` — resuming skips tokens from the front and loses no later one.

Design notes: the end of the source is not among the tokens ahead.  It is shown as a token of its
own by `Cursor.ahead`, and nothing can move past it.
-/
import Lox.Diagnostic
import Lox.Syntax.Tree

namespace Lox

/-- The state of reading: what is ahead, and what has been found. -/
structure Cursor where
  /-- the tokens ahead, up to the end of the source -/
  rest : List Token
  /-- the line of the end of the source -/
  endLine : Nat
  nextId : NodeId
  /-- the faults found so far, the latest first -/
  faults : List Diagnostic

/-- The token ahead, or the end of the source. -/
def Cursor.ahead (c : Cursor) : Token :=
  c.rest.headD ⟨.endOfSource, "", c.endLine⟩

/-- The tokens from the next statement on, where `previous` is the last token skipped: a
statement begins behind a semicolon and at a word that begins one. -/
def resumeAfter (previous : Token) : List Token → List Token
  | [] => []
  | t :: ts =>
    if previous.kind.isMark .semicolon || t.kind.beginsStatement then t :: ts
    else resumeAfter t ts

/-- The tokens from the next statement on; at least one token is skipped. -/
def resume : List Token → List Token
  | [] => []
  | t :: ts => resumeAfter t ts

theorem resumeAfter_suffix (previous : Token) (ts : List Token) :
    resumeAfter previous ts <:+ ts := by
  induction ts generalizing previous with
  | nil => exact List.suffix_refl _
  | cons t ts ih =>
    unfold resumeAfter
    split
    · exact List.suffix_refl _
    · exact (ih t).trans (List.suffix_cons t ts)

/-- Resuming skips tokens from the front and loses no later one. -/
theorem resume_suffix (ts : List Token) : resume ts <:+ ts := by
  cases ts with
  | nil => exact List.suffix_refl _
  | cons t ts => exact (resumeAfter_suffix t ts).trans (List.suffix_cons t ts)

/-- Reading from a cursor.  A failure keeps the cursor where it occurred. -/
abbrev Parse (α : Type) : Type :=
  EStateM Diagnostic Cursor α

namespace Parse

theorem pure_apply {α : Type} (a : α) (c : Cursor) : (pure a : Parse α) c = .ok a c := rfl

/-- Reading goes on where what came before has stopped, unless that failed. -/
theorem bind_apply {α β : Type} (p : Parse α) (next : α → Parse β) (c : Cursor) :
    (p >>= next) c = match p c with
      | .ok a c => next a c
      | .error d c => .error d c := by
  simp only [bind, EStateM.bind]
  cases p c <;> rfl

/-- The token ahead, which stays ahead. -/
def peek : Parse Token := fun c =>
  .ok c.ahead c

/-- The token ahead is of a kind in `p`; at the end of the source none is. -/
def isAhead (p : Kind → Bool) : Parse Bool := fun c =>
  match c.rest with
  | [] => .ok false c
  | t :: _ => .ok (p t.kind) c

/-- Nothing is ahead. -/
def atEnd : Parse Bool := fun c =>
  .ok c.rest.isEmpty c

/-- Moves past the token ahead. -/
def advance : Parse Unit := fun c =>
  .ok () { c with rest := c.rest.tail }

/-- Takes the token ahead if its kind is in `p`. -/
def accept (p : Kind → Bool) : Parse (Option Token) := fun c =>
  match c.rest with
  | [] => .ok none c
  | t :: ts => if p t.kind then .ok (some t) { c with rest := ts } else .ok none c

/-- Fails at a token. -/
def failAt {α : Type} (token : Token) (fault : GrammarFault) : Parse α := fun c =>
  .error (.grammar token fault) c

/-- Fails at the token ahead. -/
def fail {α : Type} (fault : GrammarFault) : Parse α := fun c =>
  .error (.grammar c.ahead fault) c

/-- Takes the token ahead, whose kind must be in `p`. -/
def expect (p : Kind → Bool) (fault : GrammarFault) : Parse Token := do
  match ← accept p with
  | some t => pure t
  | none => fail fault

/-- Notes a fault and goes on. -/
def report (token : Token) (fault : GrammarFault) : Parse Unit := fun c =>
  .ok () { c with faults := .grammar token fault :: c.faults }

/-- The number for a new node. -/
def freshId : Parse NodeId := fun c =>
  .ok c.nextId { c with nextId := c.nextId + 1 }

/-- A failure becomes a fault, and reading resumes at the next statement. -/
def recover {α : Type} (p : Parse α) : Parse (Option α) := fun c =>
  match p c with
  | .ok a c => .ok (some a) c
  | .error fault c => .ok none { c with faults := fault :: c.faults, rest := resume c.rest }

end Parse

end Lox
