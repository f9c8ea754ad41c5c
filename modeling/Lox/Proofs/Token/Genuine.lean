/-
Genuine tokens.

A token is genuine if its kind and its text agree on whether it is a reserved word: a reserved
word is written as itself, and an identifier is written as no reserved word.

* `scanTokens_genuine` — every token that is read from a source is genuine.

Design notes: later developments need this of `this` and `super` alone.  Their bindings are found
by text, so that no variable may be written like them.
-/
import Lox.Token.Scan

namespace Lox

/-- The kind of a token suits its text. -/
def Token.Genuine (t : Token) : Prop :=
  match t.kind with
  | .keyword k => t.lexeme = k.text
  | .identifier => Keyword.ofText? t.lexeme = none
  | _ => True

namespace Keyword

theorem text_of_ofText? {s : String} {k : Keyword} (h : ofText? s = some k) : s = k.text := by
  unfold ofText? at h
  have hk := List.find?_some h
  exact (eq_of_beq hk).symm

theorem ofText?_text (k : Keyword) : ofText? k.text = some k := by
  cases k <;> decide

/-- An identifier is written like no reserved word. -/
theorem text_ne_of_ofText? {s : String} (h : ofText? s = none) (k : Keyword) : s ≠ k.text := by
  rintro rfl
  rw [ofText?_text] at h
  exact absurd h (by simp)

end Keyword

namespace Segment

/-- A segment is a token of a kind that suits its text, or no token. -/
def Genuine (c : Char) (s : Segment) : Prop :=
  ∀ kind line, s.shape = .token kind → Token.Genuine ⟨kind, String.ofList (c :: s.tail), line⟩

theorem nameKind_genuine (name : String) (line : Nat) :
    Token.Genuine ⟨nameKind name, name, line⟩ := by
  unfold nameKind
  split
  · next k h => exact Keyword.text_of_ofText? h
  · next h => exact h

/-- Segments of all shapes but names have kinds that any text suits. -/
theorem genuine_of_kind {c : Char} {s : Segment}
    (h : ∀ kind, s.shape = .token kind → ∀ k, kind ≠ .keyword k ∧ kind ≠ .identifier) :
    s.Genuine c := by
  intro kind line hs
  have hk := h kind hs
  unfold Token.Genuine
  cases kind with
  | keyword k => exact absurd rfl (hk k).1
  | identifier => exact absurd rfl (hk .and_).2
  | _ => trivial

theorem growing_genuine (c : Char) (short long : Mark) (cs : List Char) :
    (growing short long cs).Genuine c := by
  refine genuine_of_kind fun kind h k => ?_
  unfold growing at h
  split at h
  · cases h
    simp
  · cases h
    simp

theorem slash_genuine (c : Char) (cs : List Char) : (slash cs).Genuine c := by
  refine genuine_of_kind fun kind h k => ?_
  unfold slash at h
  split at h
  · cases h
  · cases h
    simp

theorem string_genuine (c : Char) (cs : List Char) : (string cs).Genuine c := by
  refine genuine_of_kind fun kind h k => ?_
  unfold string at h
  split at h
  · cases h
  · cases h
    simp

theorem number_genuine (c d : Char) (cs : List Char) : (number c cs).Genuine d := by
  refine genuine_of_kind fun kind h k => ?_
  unfold number at h
  simp only at h
  split at h
  · split at h <;> cases h <;> simp
  · cases h
    simp

theorem name_genuine (c : Char) (cs : List Char) : (name c cs).Genuine c := by
  intro kind line h
  cases h
  exact nameKind_genuine _ line

theorem read_genuine (c : Char) (cs : List Char) : (read c cs).Genuine c := by
  unfold read
  split
  · refine genuine_of_kind fun kind h k => ?_
    cases h
    simp
  · exact growing_genuine c _ _ cs
  · split
    · exact fun kind line h => by cases h
    split
    · exact slash_genuine c cs
    split
    · exact string_genuine c cs
    split
    · exact number_genuine c c cs
    split
    · exact name_genuine c cs
    · exact fun kind line h => by cases h

end Segment

theorem scanFrom_genuine (line : Nat) (cs : List Char) (t : Token)
    (h : .token t ∈ scanFrom line cs) : t.Genuine := by
  fun_induction scanFrom line cs with
  | case1 line =>
    simp only [List.mem_singleton, Item.token.injEq] at h
    subst h
    trivial
  | case2 line c cs segment _ _ _ ih => exact ih h
  | case3 line c cs segment line' _ item hi ih =>
    rcases List.mem_cons.mp h with h | h
    · subst h
      unfold Segment.item? at hi
      split at hi
      · simp at hi
      · next kind hs =>
        simp only [Option.some.injEq, Item.token.injEq] at hi
        subst hi
        exact Segment.read_genuine c cs kind line' hs
      · simp at hi
      · simp at hi
    · exact ih h

/-- Every token that is read from a source is genuine. -/
theorem scanTokens_genuine (source : String) : ∀ t ∈ scanTokens source, t.Genuine := by
  intro t ht
  obtain ⟨item, hitem, htoken⟩ := List.mem_filterMap.mp ht
  cases item with
  | token t' =>
    simp only [Item.token?, Option.some.injEq] at htoken
    subst htoken
    exact scanFrom_genuine 1 source.toList t' hitem
  | fault line f => simp [Item.token?] at htoken

end Lox
