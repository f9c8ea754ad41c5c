/-
The texts of tokens.

What a lexeme that is read as a token looks like is known from the kind of the token.  A mark and a
reserved word are always written alike; a name begins with a letter and is no reserved word.

* `Mark.text` — how a mark is written;
* `Lexeme.text_eq_of_mark`, `Lexeme.text_eq_of_keyword` — marks and reserved words are written so;
* `Lexeme.identifier` — any other name begins with a letter, and is no reserved word;
* `Lexeme.value_of_number` — the value of a number is that of a literal.

Design notes: a lexeme is given by its first character, so that each of these is read off the
constructors of `Lexeme`.
-/
import Lox.Proofs.Token.Genuine
import Lox.Proofs.Token.Partition

namespace Lox

/-- How a mark is written. -/
def Mark.text : Mark → String
  | leftParen => "("
  | rightParen => ")"
  | leftBrace => "\x7b"
  | rightBrace => "\x7d"
  | comma => ","
  | dot => "."
  | minus => "-"
  | plus => "+"
  | semicolon => ";"
  | slash => "/"
  | star => "*"
  | bang => "!"
  | bangEqual => "!="
  | equal => "="
  | equalEqual => "=="
  | greater => ">"
  | greaterEqual => ">="
  | less => "<"
  | lessEqual => "<="

theorem text_of_singleMark {c : Char} {m : Mark} (h : singleMark? c = some m) :
    m.text.toList = [c] := by
  unfold singleMark? at h
  split at h <;> cases h <;> rfl

theorem text_of_growingMark {c : Char} {short long : Mark}
    (h : growingMark? c = some (short, long)) :
    short.text.toList = [c] ∧ long.text.toList = [c, '='] := by
  unfold growingMark? at h
  split at h <;> cases h <;> exact ⟨rfl, rfl⟩

theorem singleMark_of_initial {c : Char} {m : Mark} (h : initial c = .mark m) :
    singleMark? c = some m := by
  unfold initial at h
  grind

theorem growingMark_of_initial {c : Char} {short long : Mark}
    (h : initial c = .growing short long) :
    growingMark? c = some (short, long) := by
  unfold initial at h
  grind

theorem beginsName_of_initial {c : Char} (h : initial c = .letter) : beginsName c = true := by
  unfold initial at h
  grind

theorem not_isDigit_of_initial {c : Char} (h : initial c = .letter) : c.isDigit = false := by
  unfold initial at h
  grind

/-- Names go on with what they begin with. -/
theorem continuesName_of_beginsName {c : Char} (h : beginsName c = true) :
    continuesName c = true := by
  unfold beginsName at h
  unfold continuesName Char.isAlphanum
  grind

/-- No two reserved words are written alike. -/
theorem Keyword.text_injective {k k' : Keyword} (h : k.text = k'.text) : k = k' := by
  have hsame := congrArg ofText? h
  rw [ofText?_text, ofText?_text] at hsame
  exact Option.some.inj hsame

/-- A name is a reserved word or an identifier. -/
theorem nameKind_cases (name : String) :
    (∃ k, nameKind name = .keyword k ∧ name = k.text) ∨
      nameKind name = .identifier ∧ Keyword.ofText? name = none := by
  unfold nameKind
  split
  · next k h => exact .inl ⟨k, rfl, Keyword.text_of_ofText? h⟩
  · next h => exact .inr ⟨rfl, h⟩

/-- A name that is no reserved word. -/
structure Identifier (text : List Char) : Prop where
  begins : ∃ c tail, text = c :: tail ∧ initial c = .letter
  continues : ∀ x ∈ text, continuesName x = true
  unreserved : Keyword.ofText? (String.ofList text) = none

namespace Lexeme

variable {text : List Char}

/-- A mark is written as itself. -/
theorem text_eq_of_mark {m : Mark} (h : Lexeme text (.token (.mark m))) : text = m.text.toList := by
  generalize hs : Shape.token (.mark m) = shape at h
  cases h with
  | mark hc =>
    cases hs
    exact (text_of_singleMark (singleMark_of_initial hc)).symm
  | short hc =>
    cases hs
    exact (text_of_growingMark (growingMark_of_initial hc)).1.symm
  | long hc =>
    cases hs
    exact (text_of_growingMark (growingMark_of_initial hc)).2.symm
  | slash =>
    cases hs
    rfl
  | @name c tail _ _ =>
    have hkind := Shape.token.inj hs
    obtain ⟨k, hk, -⟩ | ⟨hk, -⟩ := nameKind_cases (String.ofList (c :: tail)) <;>
      rw [hk] at hkind <;> cases hkind
  | _ => cases hs

/-- A name that is a reserved word is written as it. -/
theorem text_eq_of_keyword {k : Keyword} (h : Lexeme text (.token (.keyword k))) :
    text = k.text.toList := by
  generalize hs : Shape.token (.keyword k) = shape at h
  cases h with
  | @name c tail _ _ =>
    have hkind := Shape.token.inj hs
    obtain ⟨k', hk, htext⟩ | ⟨hk, -⟩ := nameKind_cases (String.ofList (c :: tail)) <;>
      rw [hk] at hkind <;> cases hkind
    rw [← htext, String.toList_ofList]
  | _ => cases hs

/-- Any other name begins with a letter, and goes on with letters and digits. -/
theorem identifier (h : Lexeme text (.token .identifier)) : Identifier text := by
  generalize hs : Shape.token .identifier = shape at h
  cases h with
  | @name c tail hc htail =>
    have hkind := Shape.token.inj hs
    obtain ⟨k, hk, -⟩ | ⟨-, hnone⟩ := nameKind_cases (String.ofList (c :: tail))
    · rw [hk] at hkind
      cases hkind
    · have hcontinues := continuesName_of_beginsName (beginsName_of_initial hc)
      exact ⟨⟨c, tail, rfl, hc⟩, List.forall_mem_cons.mpr ⟨hcontinues, htail⟩, hnone⟩
  | _ => cases hs

/-- The value of a number is that of its digits. -/
theorem value_of_number {x : Float} (h : Lexeme text (.token (.number x))) :
    ∃ whole fraction, x = literalValue whole fraction := by
  generalize hs : Shape.token (.number x) = shape at h
  cases h with
  | whole _ _ =>
    cases hs
    exact ⟨_, _, rfl⟩
  | fraction _ _ _ _ =>
    cases hs
    exact ⟨_, _, rfl⟩
  | @name c tail _ _ =>
    have hkind := Shape.token.inj hs
    obtain ⟨k, hk, -⟩ | ⟨hk, -⟩ := nameKind_cases (String.ofList (c :: tail)) <;>
      rw [hk] at hkind <;> cases hkind
  | _ => cases hs

end Lexeme

end Lox
