/-
Partition of the source.

Scanning cuts a source into pieces, each of which is the longest lexeme at
the front of what is left.

* `Lexeme` — what a blank, a comment, a token, a stray character and an open string look like,
  whatever stands behind them;
* `Longest` — no longer lexeme begins where this one does;
* `Segment.read_longest`, `Longest.read_eq` — reading finds the longest
  lexeme, and there is only one;
* `Partition` — a text as its longest lexemes, one behind the other;
* `exists_partition`, `Partition.scanFrom_eq` — every text has a partition, and its items
  are those of the pieces.

Design notes: every lexeme is determined by its first character and by how far it goes, so that the
cases of a proof are the constructors of `Lexeme`, each of which fixes the `initial` of its first
character.
-/
import Lox.Proofs.Text.Bytes
import Lox.Proofs.Token.Seams

namespace Lox

/-! ### Lexemes -/

/-- What a character at the front of a lexeme begins. -/
inductive Initial where
  | blank
  | mark (m : Mark)
  /-- a mark that a following `=` makes longer -/
  | growing (short long : Mark)
  | slash
  | quote
  | digit
  | letter
  | nothing

/-- What a character begins. -/
def initial (c : Char) : Initial :=
  match singleMark? c, growingMark? c with
  | some m, _ => .mark m
  | none, some (short, long) => .growing short long
  | none, none =>
    if isBlank c then .blank
    else if c == '/' then .slash
    else if c == '"' then .quote
    else if c.isDigit then .digit
    else if beginsName c then .letter
    else .nothing

/-- A text that is a lexeme of this shape, whatever stands behind it. -/
inductive Lexeme : List Char → Shape → Prop where
  | blank {c : Char} (hc : initial c = .blank) : Lexeme [c] .trivia
  | comment {body : List Char} (hbody : ∀ x ∈ body, x ≠ '\n') :
      Lexeme ('/' :: '/' :: body) .trivia
  | mark {c : Char} {m : Mark} (hc : initial c = .mark m) : Lexeme [c] (.token (.mark m))
  | short {c : Char} {short long : Mark} (hc : initial c = .growing short long) :
      Lexeme [c] (.token (.mark short))
  | long {c : Char} {short long : Mark} (hc : initial c = .growing short long) :
      Lexeme [c, '='] (.token (.mark long))
  | slash : Lexeme ['/'] (.token (.mark .slash))
  | string {body : List Char} (hbody : ∀ x ∈ body, x ≠ '"') :
      Lexeme ('"' :: (body ++ ['"'])) (.token (.string (String.ofList body)))
  | openString {body : List Char} (hbody : ∀ x ∈ body, x ≠ '"') :
      Lexeme ('"' :: body) .openString
  | whole {c : Char} {digits : List Char} (hc : initial c = .digit)
      (hdigits : ∀ x ∈ digits, x.isDigit = true) :
      Lexeme (c :: digits) (.token (.number (literalValue (c :: digits) [])))
  | fraction {c d : Char} {digits fraction : List Char} (hc : initial c = .digit)
      (hdigits : ∀ x ∈ digits, x.isDigit = true) (hd : d.isDigit = true)
      (hfraction : ∀ x ∈ fraction, x.isDigit = true) :
      Lexeme (c :: (digits ++ '.' :: d :: fraction))
        (.token (.number (literalValue (c :: digits) (d :: fraction))))
  | name {c : Char} {tail : List Char} (hc : initial c = .letter)
      (htail : ∀ x ∈ tail, continuesName x = true) :
      Lexeme (c :: tail) (.token (nameKind (String.ofList (c :: tail))))
  | stray {c : Char} (hc : initial c = .nothing) : Lexeme [c] (.stray c)

/-- At the front of `text ++ rest` the longest lexeme is `text`. -/
structure Longest (text rest : List Char) (shape : Shape) : Prop where
  lexeme : Lexeme text shape
  longest : ∀ other shape', Lexeme other shape' → other <+: text ++ rest →
    other.length ≤ text.length

/-! ### Reading a lexeme -/

namespace Segment

/-- The first character says how a segment is read. -/
theorem read_eq (c : Char) (cs : List Char) :
    read c cs =
      match initial c with
      | .blank => single .trivia cs
      | .mark m => single (.token (.mark m)) cs
      | .growing short long => growing short long cs
      | .slash => slash cs
      | .quote => string cs
      | .digit => number c cs
      | .letter => name c cs
      | .nothing => single (.stray c) cs := by
  unfold read initial
  rcases singleMark? c with _ | m
  · rcases growingMark? c with _ | ⟨short, long⟩
    · -- the other characters are told apart one after the other on both sides
      cases isBlank c
      · cases c == '/'
        · cases c == '"'
          · cases c.isDigit
            · cases beginsName c <;> rfl
            · rfl
          · rfl
        · rfl
      · rfl
    · rfl
  · rfl

end Segment

theorem eq_slash_of_initial {c : Char} (h : initial c = .slash) : c = '/' := by
  unfold initial at h
  grind

theorem eq_quote_of_initial {c : Char} (h : initial c = .quote) : c = '"' := by
  unfold initial at h
  grind

theorem isDigit_of_initial {c : Char} (h : initial c = .digit) : c.isDigit = true := by
  unfold initial at h
  grind

/-- No character outside of ASCII begins anything. -/
theorem initial_of_large {c : Char} (h : 128 ≤ c.toNat) : initial c = .nothing := by
  have hval : c.val.toNat = c.toNat := rfl
  have hne : ∀ d : Char, d.toNat < 128 → c ≠ d := by
    rintro d hd rfl
    omega
  have hsingle : singleMark? c = none := by
    unfold singleMark?
    split
    all_goals first | rfl | exact absurd rfl (hne _ (by decide))
  have hgrowing : growingMark? c = none := by
    unfold growingMark?
    split
    all_goals first | rfl | exact absurd rfl (hne _ (by decide))
  have hblank : isBlank c = false := by
    simp [isBlank, hne]
  have hdigit : c.isDigit = false := by
    simp [Char.isDigit, UInt32.le_iff_toNat_le, hval]
    omega
  have hletter : beginsName c = false := by
    delta beginsName Char.isAlpha Char.isUpper Char.isLower
    simp [UInt32.le_iff_toNat_le, hval, hne]
    omega
  unfold initial
  simp [hsingle, hgrowing, hblank, hdigit, hletter, hne]

/-- A stretch ends where it does, or what follows makes it longer. -/
theorem stretch_cases {p : Char → Bool} {body : List Char} (h : ∀ x ∈ body, p x = true)
    (rest : List Char) :
    body.length < ((body ++ rest).takeWhile p).length ∨
      (body ++ rest).takeWhile p = body ∧ (body ++ rest).dropWhile p = rest := by
  rw [List.takeWhile_append_of_pos h, List.dropWhile_append_of_pos h, List.length_append]
  cases rest with
  | nil => exact .inr ⟨List.append_nil body, rfl⟩
  | cons x rest =>
    by_cases hx : p x = true
    · left
      rw [List.takeWhile_cons_of_pos hx, List.length_cons]
      omega
    · right
      rw [List.takeWhile_cons_of_neg hx, List.dropWhile_cons_of_neg hx]
      exact ⟨List.append_nil body, rfl⟩

namespace Segment

theorem growing_cases (short long : Mark) (rest : List Char) :
    0 < (growing short long rest).tail.length ∨
      growing short long rest = ⟨.token (.mark short), [], rest⟩ := by
  unfold growing
  split
  · exact .inl Nat.zero_lt_one
  · exact .inr rfl

theorem slash_cases (rest : List Char) :
    0 < (slash rest).tail.length ∨ slash rest = ⟨.token (.mark .slash), [], rest⟩ := by
  unfold slash
  split
  · exact .inl (Nat.succ_pos _)
  · exact .inr rfl

theorem comment_cases {body : List Char} (hbody : ∀ x ∈ body, x ≠ '\n') (rest : List Char) :
    body.length + 1 < (slash ('/' :: (body ++ rest))).tail.length ∨
      slash ('/' :: (body ++ rest)) = ⟨.trivia, '/' :: body, rest⟩ := by
  have hp : ∀ x ∈ body, (x != '\n') = true := fun x hx => bne_iff_ne.mpr (hbody x hx)
  obtain hlonger | ⟨htake, hdrop⟩ := stretch_cases hp rest
  · exact .inl (Nat.succ_lt_succ hlonger)
  · right
    unfold slash
    simp only [htake, hdrop]

theorem string_of_closed {body : List Char} (hbody : ∀ x ∈ body, x ≠ '"') (rest : List Char) :
    string (body ++ '"' :: rest) =
      ⟨.token (.string (String.ofList body)), body ++ ['"'], rest⟩ := by
  have hp : ∀ x ∈ body, (x != '"') = true := fun x hx => bne_iff_ne.mpr (hbody x hx)
  have htake : ('"' :: rest).takeWhile (· != '"') = [] := rfl
  have hdrop : ('"' :: rest).dropWhile (· != '"') = '"' :: rest := rfl
  unfold string
  rw [List.takeWhile_append_of_pos hp, List.dropWhile_append_of_pos hp, htake, hdrop,
    List.append_nil]

theorem openString_cases {body : List Char} (hbody : ∀ x ∈ body, x ≠ '"') (rest : List Char) :
    body.length < (string (body ++ rest)).tail.length ∨
      string (body ++ rest) = ⟨.openString, body, rest⟩ := by
  have hp : ∀ x ∈ body, (x != '"') = true := fun x hx => bne_iff_ne.mpr (hbody x hx)
  unfold string
  rw [List.takeWhile_append_of_pos hp, List.dropWhile_append_of_pos hp]
  split
  · -- no quote follows: the string goes on to the end
    cases rest with
    | nil => exact .inr (by rw [List.append_nil])
    | cons x rest =>
      left
      rw [List.length_append, List.length_cons]
      omega
  · left
    simp only [List.length_append, List.length_singleton]
    omega

/-- Nothing is left behind an open string. -/
theorem rest_of_openString {cs tail rest : List Char}
    (h : string cs = ⟨.openString, tail, rest⟩) : rest = [] := by
  unfold string at h
  split at h
  · cases h
    rfl
  · cases h

theorem whole_cases (c : Char) {digits : List Char} (hdigits : ∀ x ∈ digits, x.isDigit = true)
    (rest : List Char) :
    digits.length < (number c (digits ++ rest)).tail.length ∨
      number c (digits ++ rest) =
        ⟨.token (.number (literalValue (c :: digits) [])), digits, rest⟩ := by
  unfold number
  simp only
  obtain hlonger | ⟨htake, hdrop⟩ := stretch_cases hdigits rest
  · -- more digits follow, with a fraction behind them or without one
    left
    split
    · split
      · simp only [List.length_append]
        omega
      · exact hlonger
    · exact hlonger
  · rw [htake, hdrop]
    split
    · split
      · left
        simp only [List.length_append, List.length_cons]
        omega
      · exact .inr rfl
    · exact .inr rfl

theorem fraction_cases (c : Char) {d : Char} {digits fraction : List Char}
    (hdigits : ∀ x ∈ digits, x.isDigit = true) (hd : d.isDigit = true)
    (hfraction : ∀ x ∈ fraction, x.isDigit = true) (rest : List Char) :
    (digits ++ '.' :: d :: fraction).length <
        (number c (digits ++ '.' :: d :: (fraction ++ rest))).tail.length ∨
      number c (digits ++ '.' :: d :: (fraction ++ rest)) =
        ⟨.token (.number (literalValue (c :: digits) (d :: fraction))),
          digits ++ '.' :: d :: fraction, rest⟩ := by
  have hpoint : ¬ '.'.isDigit = true := by decide
  unfold number
  rw [List.takeWhile_append_of_pos hdigits, List.dropWhile_append_of_pos hdigits,
    List.takeWhile_cons_of_neg hpoint, List.dropWhile_cons_of_neg hpoint, List.append_nil]
  simp only [hd, if_true]
  obtain hlonger | ⟨htake, hdrop⟩ := stretch_cases hfraction rest
  · left
    simp only [List.length_append, List.length_cons]
    omega
  · rw [htake, hdrop]
    exact .inr rfl

theorem name_cases (c : Char) {tail : List Char} (htail : ∀ x ∈ tail, continuesName x = true)
    (rest : List Char) :
    tail.length < (name c (tail ++ rest)).tail.length ∨
      name c (tail ++ rest) =
        ⟨.token (nameKind (String.ofList (c :: tail))), tail, rest⟩ := by
  unfold name whileTrue
  obtain hlonger | ⟨htake, hdrop⟩ := stretch_cases htail rest
  · exact .inl hlonger
  · rw [htake, hdrop]
    exact .inr rfl

end Segment

/-- In front of a lexeme, reading finds a longer lexeme or this one. -/
theorem Lexeme.read_cases {text : List Char} {shape : Shape} (h : Lexeme text shape)
    (rest : List Char) :
    ∃ c tail, text = c :: tail ∧
      (tail.length < (Segment.read c (tail ++ rest)).tail.length ∨
        Segment.read c (tail ++ rest) = ⟨shape, tail, rest⟩) := by
  cases h with
  | blank hc => exact ⟨_, [], rfl, .inr (by rw [Segment.read_eq, hc]; rfl)⟩
  | comment hbody => exact ⟨_, _, rfl, Segment.comment_cases hbody rest⟩
  | mark hc => exact ⟨_, [], rfl, .inr (by rw [Segment.read_eq, hc]; rfl)⟩
  | short hc =>
    refine ⟨_, [], rfl, ?_⟩
    rw [Segment.read_eq, hc]
    exact Segment.growing_cases _ _ rest
  | long hc => exact ⟨_, ['='], rfl, .inr (by rw [Segment.read_eq, hc]; rfl)⟩
  | slash => exact ⟨_, [], rfl, Segment.slash_cases rest⟩
  | string hbody =>
    refine ⟨_, _, rfl, .inr ?_⟩
    rw [List.append_assoc]
    exact Segment.string_of_closed hbody rest
  | openString hbody => exact ⟨_, _, rfl, Segment.openString_cases hbody rest⟩
  | whole hc hdigits =>
    refine ⟨_, _, rfl, ?_⟩
    rw [Segment.read_eq, hc]
    exact Segment.whole_cases _ hdigits rest
  | fraction hc hdigits hd hfraction =>
    refine ⟨_, _, rfl, ?_⟩
    rw [Segment.read_eq, hc, List.append_assoc]
    exact Segment.fraction_cases _ hdigits hd hfraction rest
  | name hc htail =>
    refine ⟨_, _, rfl, ?_⟩
    rw [Segment.read_eq, hc]
    exact Segment.name_cases _ htail rest
  | stray hc => exact ⟨_, [], rfl, .inr (by rw [Segment.read_eq, hc]; rfl)⟩

theorem ne_of_mem_takeWhile {x y : Char} {cs : List Char} (h : x ∈ cs.takeWhile (· != y)) :
    x ≠ y := by
  have hx : (x != y) = true := List.mem_takeWhile_imp (p := (· != y)) h
  exact bne_iff_ne.mp hx

theorem lexeme_growing {c : Char} {short long : Mark} (hc : initial c = .growing short long)
    (cs : List Char) :
    Lexeme (c :: (Segment.growing short long cs).tail) (Segment.growing short long cs).shape := by
  unfold Segment.growing
  split
  · exact .long hc
  · exact .short hc

theorem lexeme_slash (cs : List Char) :
    Lexeme ('/' :: (Segment.slash cs).tail) (Segment.slash cs).shape := by
  unfold Segment.slash
  split
  · exact .comment fun x hx => ne_of_mem_takeWhile hx
  · exact .slash

theorem lexeme_string (cs : List Char) :
    Lexeme ('"' :: (Segment.string cs).tail) (Segment.string cs).shape := by
  unfold Segment.string
  cases hs : cs.dropWhile (· != '"') with
  | nil => exact .openString fun x hx => bne_iff_ne.mp (List.dropWhile_eq_nil_iff.mp hs x hx)
  | cons quote rest =>
    -- what stops the string is a quote
    have hquote : quote = '"' := by
      have hhead := List.head?_dropWhile_not (· != '"') cs
      rw [hs] at hhead
      simpa using hhead
    subst hquote
    exact .string fun x hx => ne_of_mem_takeWhile hx

theorem lexeme_number {c : Char} (hc : initial c = .digit) (cs : List Char) :
    Lexeme (c :: (Segment.number c cs).tail) (Segment.number c cs).shape := by
  unfold Segment.number
  simp only
  split
  · split
    · next hd =>
      exact .fraction hc (fun x hx => List.mem_takeWhile_imp hx) hd
        fun x hx => List.mem_takeWhile_imp hx
    · exact .whole hc fun x hx => List.mem_takeWhile_imp hx
  · exact .whole hc fun x hx => List.mem_takeWhile_imp hx

namespace Segment

/-- What is read is a lexeme. -/
theorem read_lexeme (c : Char) (cs : List Char) :
    Lexeme (c :: (read c cs).tail) (read c cs).shape := by
  rw [read_eq]
  cases hc : initial c with
  | blank => exact .blank hc
  | mark m => exact .mark hc
  | growing short long => exact lexeme_growing hc cs
  | slash =>
    cases eq_slash_of_initial hc
    exact lexeme_slash cs
  | quote =>
    cases eq_quote_of_initial hc
    exact lexeme_string cs
  | digit => exact lexeme_number hc cs
  | letter => exact .name hc fun x hx => List.mem_takeWhile_imp hx
  | nothing => exact .stray hc

/-- What is read is the longest lexeme. -/
theorem read_longest (c : Char) (cs : List Char) :
    Longest (c :: (read c cs).tail) (read c cs).rest (read c cs).shape := by
  refine ⟨read_lexeme c cs, fun other shape hother hprefix => ?_⟩
  rw [List.cons_append, read_append] at hprefix
  obtain ⟨rest, happend⟩ := hprefix
  obtain ⟨d, tail, rfl, hread⟩ := hother.read_cases rest
  -- both begin with the first character of the text
  obtain ⟨rfl, hcs⟩ := List.cons.inj happend
  have hcs : tail ++ rest = cs := hcs
  subst hcs
  rw [List.length_cons, List.length_cons]
  rcases hread with hlonger | hsame
  · omega
  · rw [hsame]

end Segment

namespace Longest

variable {text rest : List Char} {shape : Shape}

/-- The longest lexeme is what is read. -/
theorem read_eq (h : Longest text rest shape) :
    ∃ c tail, text = c :: tail ∧ Segment.read c (tail ++ rest) = ⟨shape, tail, rest⟩ := by
  obtain ⟨c, tail, rfl, hlonger | hread⟩ := h.lexeme.read_cases rest
  · -- what is read would be longer than the longest
    have hle := h.longest _ _ (Segment.read_lexeme c (tail ++ rest)) ⟨_, by
      rw [List.cons_append, Segment.read_append]
      rfl⟩
    rw [List.length_cons, List.length_cons] at hle
    omega
  · exact ⟨c, tail, rfl, hread⟩

/-- An open string goes on to the end. -/
theorem rest_eq_nil (h : Longest text rest .openString) : rest = [] := by
  obtain ⟨c, tail, rfl, hread⟩ := h.read_eq
  cases h.lexeme with
  | openString _ => exact Segment.rest_of_openString hread

/-- No lexeme is the end of the source. -/
theorem not_end {kind : Kind} (h : Longest text rest (.token kind)) : kind.isEnd = false := by
  obtain ⟨c, tail, rfl, hread⟩ := h.read_eq
  exact Segment.read_not_end hread

end Longest

/-- Of one text there is one longest lexeme. -/
theorem Longest.unique {text rest text' rest' : List Char} {shape shape' : Shape}
    (h : Longest text rest shape) (h' : Longest text' rest' shape')
    (happend : text ++ rest = text' ++ rest') : text' = text ∧ rest' = rest ∧ shape' = shape := by
  obtain ⟨c, tail, rfl, hread⟩ := h.read_eq
  obtain ⟨c', tail', rfl, hread'⟩ := h'.read_eq
  obtain ⟨rfl, htails⟩ := List.cons.inj happend
  have htails : tail ++ rest = tail' ++ rest' := htails
  -- both are what is read from the same text
  rw [htails, hread'] at hread
  cases hread
  exact ⟨rfl, rfl, rfl⟩

/-! ### Pieces -/

/-- A piece of a source. -/
structure Piece where
  text : List Char
  shape : Shape

/-- The item of a piece that ends on line `line`. -/
def Piece.item? (p : Piece) (line : Nat) : Option Item :=
  match p.shape with
  | .trivia => none
  | .token kind => some (.token ⟨kind, String.ofList p.text, line⟩)
  | .stray c => some (.fault line (.unexpected c))
  | .openString => some (.fault line .unterminatedString)

/-- The line on which a text ends: one more than the line ends among its bytes. -/
def lineBehind (text : List Char) : Nat :=
  1 + (bytes text).count 0x0A

/-- The items of pieces that stand behind `before`. -/
def itemsBehind (before : List Char) : List Piece → List Item
  | [] => []
  | p :: pieces =>
    (p.item? (lineBehind (before ++ p.text))).toList ++ itemsBehind (before ++ p.text) pieces

/-- A text as pieces, one behind the other, each the longest lexeme where it begins. -/
inductive Partition : List Char → List Piece → Prop where
  | nil : Partition [] []
  | cons {text rest : List Char} {shape : Shape} {pieces : List Piece}
      (hlongest : Longest text rest shape) (h : Partition rest pieces) :
      Partition (text ++ rest) (⟨text, shape⟩ :: pieces)

/-- Every text has a partition. -/
theorem exists_partition (cs : List Char) : ∃ pieces, Partition cs pieces := by
  induction hn : cs.length using Nat.strong_induction_on generalizing cs with
  | _ n ih =>
    cases cs with
    | nil => exact ⟨[], .nil⟩
    | cons c cs =>
      have hlt : (Segment.read c cs).rest.length < n := by
        have hle := Segment.length_rest_le c cs
        rw [← hn, List.length_cons]
        omega
      obtain ⟨pieces, hrest⟩ := ih _ hlt _ rfl
      have h := Partition.cons (Segment.read_longest c cs) hrest
      rw [List.cons_append, Segment.read_append] at h
      exact ⟨_, h⟩

namespace Partition

variable {text : List Char} {pieces : List Piece}

/-- A text has one partition. -/
theorem unique (h : Partition text pieces) {pieces' : List Piece} (h' : Partition text pieces') :
    pieces' = pieces := by
  induction h generalizing pieces' with
  | nil =>
    generalize hnil : ([] : List Char) = text at h'
    cases h' with
    | nil => rfl
    | cons hlongest h' =>
      obtain ⟨c, tail, rfl, -⟩ := hlongest.read_eq
      cases hnil
  | @cons front rest shape pieces hlongest h ih =>
    generalize hcons : front ++ rest = text at h'
    cases h' with
    | nil =>
      obtain ⟨c, tail, rfl, -⟩ := hlongest.read_eq
      cases hcons
    | cons hlongest' h' =>
      obtain ⟨rfl, rfl, rfl⟩ := hlongest.unique hlongest' hcons
      rw [ih h']

/-- No character is lost, and none belongs to two pieces. -/
theorem flatten_eq (h : Partition text pieces) : (pieces.map Piece.text).flatten = text := by
  induction h with
  | nil => rfl
  | cons hlongest h ih => rw [List.map_cons, List.flatten_cons, ih]

/-- Only the last piece can be an open string. -/
theorem closed (h : Partition text pieces) : ∀ p ∈ pieces.dropLast, p.shape ≠ .openString := by
  induction h with
  | nil => exact fun p hp => absurd hp List.not_mem_nil
  | @cons front rest shape pieces hlongest h ih =>
    cases pieces with
    | nil => exact fun p hp => absurd hp List.not_mem_nil
    | cons next pieces =>
      rw [List.dropLast_cons_cons]
      refine List.forall_mem_cons.mpr ⟨?_, ih⟩
      rintro rfl
      -- behind an open string there is no other piece
      rw [hlongest.rest_eq_nil] at h
      cases (unique nil h : next :: pieces = [])

/-- The end of the source is no piece. -/
theorem not_end (h : Partition text pieces) :
    ∀ p ∈ pieces, ∀ kind, p.shape = .token kind → kind.isEnd = false := by
  induction h with
  | nil => exact fun p hp => absurd hp List.not_mem_nil
  | cons hlongest h ih =>
    refine List.forall_mem_cons.mpr ⟨?_, ih⟩
    rintro kind rfl
    exact hlongest.not_end

end Partition

theorem lineBehind_eq (text : List Char) : lineBehind text = lineAfter 1 text := by
  unfold lineBehind lineAfter
  rw [count_lineEnd]

theorem lineAfter_append (line : Nat) (cs ds : List Char) :
    lineAfter (lineAfter line cs) ds = lineAfter line (cs ++ ds) := by
  unfold lineAfter
  rw [List.count_append, Nat.add_assoc]

/-- The items of a text are those of its pieces, with the end behind them. -/
theorem Partition.scanFrom_eq {text : List Char} {pieces : List Piece} (h : Partition text pieces)
    (before : List Char) :
    scanFrom (lineBehind before) text =
      itemsBehind before pieces ++ [.token (endOf 1 (before ++ text))] := by
  induction h generalizing before with
  | nil =>
    rw [scanFrom, lineBehind_eq, List.append_nil]
    rfl
  | @cons front rest shape pieces hlongest h ih =>
    obtain ⟨c, tail, rfl, hread⟩ := hlongest.read_eq
    have hline : lineAfter (lineBehind before) (c :: tail) = lineBehind (before ++ c :: tail) := by
      rw [lineBehind_eq, lineBehind_eq, lineAfter_append]
    rw [List.cons_append, scanFrom_cons hread, hline, ih, itemsBehind, List.append_assoc,
      List.append_assoc]
    rfl

end Lox
