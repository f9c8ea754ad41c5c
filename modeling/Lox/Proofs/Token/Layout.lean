/-
Layout.

The lexemes of a source can be laid out anew: in any text in which they stand in their order, each
with a blank behind it, the scanner finds the same tokens.

* `Gap` — blanks and comments with their line ends, one behind the other;
* `LaidOut` — lexemes in their order, each with a blank and a gap behind it;
* `Lexeme.shape_unique` — a lexeme alone says what it is;
* `exists_lexemes` — the tokens of a source, each of which is a lexeme of its kind;
* `LaidOut.scans` — the tokens of a text that is laid out;
* `scanTokens_laid_out` — the tokens of a source are those of its lexemes,
  however they are laid out.

Design notes: a lexeme is read in front of a blank as it is read alone, so that nothing needs to be
known about the text in which it was found.  The words of a comment are no part of a gap's
definition but its line end is, since a comment without one goes on to the end of the text.
-/
import Lox.Proofs.Token.Partition

namespace Lox

/-! ### Lexemes alone -/

namespace Lexeme

variable {text : List Char} {shape : Shape} {kind : Kind}

/-- A lexeme that stands alone is read as a whole. -/
theorem read_alone (h : Lexeme text shape) :
    ∃ c tail, text = c :: tail ∧ Segment.read c tail = ⟨shape, tail, []⟩ := by
  obtain ⟨c, tail, rfl, hread⟩ := h.read_cases []
  rw [List.append_nil] at hread
  refine ⟨c, tail, rfl, hread.resolve_left fun hlonger => ?_⟩
  -- nothing more than the text can be read from it
  have hlength := congrArg List.length (Segment.read_append c tail)
  rw [List.length_append] at hlength
  omega

/-- A lexeme alone says what it is. -/
theorem shape_unique {shape' : Shape} (h : Lexeme text shape) (h' : Lexeme text shape') :
    shape = shape' := by
  obtain ⟨c, tail, rfl, hread⟩ := h.read_alone
  obtain ⟨c', tail', htext, hread'⟩ := h'.read_alone
  cases htext
  rw [hread] at hread'
  exact congrArg Segment.shape hread'

theorem ne_nil (h : Lexeme text shape) : text ≠ [] := by
  obtain ⟨c, tail, rfl, -⟩ := h.read_alone
  exact List.cons_ne_nil c tail

theorem not_end (h : Lexeme text (.token kind)) : kind.isEnd = false := by
  obtain ⟨c, tail, rfl, hread⟩ := h.read_alone
  exact Segment.read_not_end hread

/-- Of the tokens only a slash begins with a slash. -/
theorem slash_tail {tail : List Char} (h : Lexeme ('/' :: tail) (.token kind)) : tail = [] := by
  obtain ⟨c, tail, htext, hread⟩ := h.read_alone
  cases htext
  have hslash : Segment.slash tail = ⟨.token kind, tail, []⟩ := hread
  cases tail with
  | nil => rfl
  | cons c s =>
    by_cases hc : c = '/'
    · subst hc
      cases congrArg Segment.shape hslash
    · rw [Segment.slash_of_ne hc] at hslash
      cases congrArg Segment.tail hslash

/-- A token ends where a blank follows. -/
theorem read_blank (h : Lexeme text (.token kind)) {x : Char} (hx : isBlank x = true)
    (cs : List Char) :
    ∃ c tail, text = c :: tail ∧
      Segment.read c (tail ++ x :: cs) = ⟨.token kind, tail, x :: cs⟩ := by
  obtain ⟨c, tail, rfl, hread⟩ := h.read_alone
  have hopen : (Segment.read c tail).shape ≠ .openString := by
    rw [hread]
    exact Shape.noConfusion
  have hslash : c = '/' →
      Segment.slash (tail ++ x :: cs) = (Segment.slash tail).followedBy (x :: cs) := by
    rintro rfl
    have hne : x ≠ '/' := by
      rintro rfl
      exact Bool.false_ne_true hx
    rw [h.slash_tail, List.nil_append, Segment.slash_of_ne hne]
    rfl
  refine ⟨c, tail, rfl, ?_⟩
  rw [Segment.read_blank hx hopen hslash, hread]
  rfl

end Lexeme

/-! ### The lexemes of a source -/

/-- The tokens of a text in front of its end are lexemes of their kinds. -/
theorem exists_lexemes (line : Nat) (cs : List Char) :
    ∃ ts, (scanFrom line cs).filterMap Item.token? = ts ++ [endOf line cs] ∧
      ∀ t ∈ ts, Lexeme t.lexeme.toList (.token t.kind) := by
  -- a segment takes one character at least, and the text behind it may begin on another line
  induction hn : cs.length using Nat.strong_induction_on generalizing line cs with
  | _ n ih =>
    cases cs with
    | nil => exact ⟨[], by rw [scanFrom]; rfl, fun t ht => absurd ht List.not_mem_nil⟩
    | cons c cs =>
      have hlexeme := Segment.read_lexeme c cs
      have hle := Segment.length_rest_le c cs
      rcases hread : Segment.read c cs with ⟨shape, tail, rest⟩
      rw [hread] at hlexeme hle
      have hlt : rest.length < n := by
        rw [← hn, List.length_cons]
        exact Nat.lt_succ_of_le hle
      obtain ⟨ts, hts, hall⟩ := ih _ hlt (lineAfter line (c :: tail)) rest rfl
      rw [scanFrom_cons hread, List.filterMap_append, hts, endOf, lineAfter_rest hread, ← endOf]
      cases shape with
      | token kind =>
        refine ⟨⟨kind, String.ofList (c :: tail), lineAfter line (c :: tail)⟩ :: ts, rfl, ?_⟩
        refine List.forall_mem_cons.mpr ⟨?_, hall⟩
        rwa [String.toList_ofList]
      | trivia => exact ⟨ts, rfl, hall⟩
      | stray d => exact ⟨ts, rfl, hall⟩
      | openString => exact ⟨ts, rfl, hall⟩

/-- The kind of a token of a source is that of its lexeme, and only the end has none. -/
theorem kind_of_mem_scanTokens {source : String} {t : Token} (h : t ∈ scanTokens source) :
    Lexeme t.lexeme.toList (.token t.kind) ∨ t.lexeme = "" ∧ t.kind = .endOfSource := by
  obtain ⟨ts, hts, hall⟩ := exists_lexemes 1 source.toList
  have hmem : t ∈ ts ++ [endOf 1 source.toList] := hts ▸ h
  obtain ht | ht := List.mem_append.mp hmem
  · exact .inl (hall t ht)
  · rw [List.mem_singleton.mp ht]
    exact .inr ⟨rfl, rfl⟩

/-- Tokens of two sources that are written alike are of one kind, with the same value. -/
theorem kind_eq_of_lexeme {source other : String} {t u : Token} (ht : t ∈ scanTokens source)
    (hu : u ∈ scanTokens other) (h : t.lexeme = u.lexeme) : t.kind = u.kind := by
  obtain ht | ⟨htext, hend⟩ := kind_of_mem_scanTokens ht <;>
    obtain hu | ⟨hutext, huend⟩ := kind_of_mem_scanTokens hu
  · rw [h] at ht
    exact Shape.token.inj (ht.shape_unique hu)
  · rw [h, hutext] at ht
    exact absurd rfl ht.ne_nil
  · rw [← h, htext] at hu
    exact absurd rfl hu.ne_nil
  · rw [hend, huend]

theorem Token.lexeme_eq_of_same {t u : Token} (h : t.same u = true) : t.lexeme = u.lexeme := by
  unfold Token.same at h
  simp only [Bool.and_eq_true, beq_iff_eq] at h
  exact h.1.2

/-! ### Texts that are laid out -/

/-- The blanks of a source. -/
def blanks : List Char :=
  [' ', '\t', '\r', '\n']

theorem blank_cases {x : Char} (h : x ∈ blanks) : x = ' ' ∨ x = '\t' ∨ x = '\r' ∨ x = '\n' := by
  simpa only [blanks, List.mem_cons, List.not_mem_nil, or_false] using h

theorem isBlank_of_mem_blanks {x : Char} (h : x ∈ blanks) : isBlank x = true := by
  obtain rfl | rfl | rfl | rfl := blank_cases h <;> rfl

/-- Blanks and comments with their line ends, one behind the other. -/
inductive Gap : List Char → Prop where
  | nil : Gap []
  | blank {x : Char} {cs : List Char} (hx : x ∈ blanks) (h : Gap cs) : Gap (x :: cs)
  | comment {body cs : List Char} (hbody : '\n' ∉ body) (h : Gap cs) :
      Gap ('/' :: '/' :: (body ++ '\n' :: cs))

/-- The lexemes in their order, each with a blank and a gap behind it. -/
inductive LaidOut : List String → List Char → Prop where
  | nil : LaidOut [] []
  | cons {lexeme : String} {lexemes : List String} {x : Char} {gap cs : List Char}
      (hx : x ∈ blanks) (hgap : Gap gap) (h : LaidOut lexemes cs) :
      LaidOut (lexeme :: lexemes) (lexeme.toList ++ x :: (gap ++ cs))

theorem Segment.read_of_blank {x : Char} (hx : x ∈ blanks) (cs : List Char) :
    read x cs = ⟨.trivia, [], cs⟩ := by
  obtain rfl | rfl | rfl | rfl := blank_cases hx <;> rfl

theorem Segment.read_of_comment {body : List Char} (hbody : '\n' ∉ body) (cs : List Char) :
    read '/' ('/' :: (body ++ '\n' :: cs)) = ⟨.trivia, '/' :: body, '\n' :: cs⟩ := by
  have hne : ∀ x ∈ body, (x != '\n') = true := fun x hx =>
    bne_iff_ne.mpr fun heq => hbody (heq ▸ hx)
  have hread : read '/' ('/' :: body) = ⟨.trivia, '/' :: body, []⟩ := by
    show (⟨.trivia, '/' :: body.takeWhile (· != '\n'), body.dropWhile (· != '\n')⟩ : Segment) = _
    rw [List.takeWhile_eq_self_iff.mpr hne, List.dropWhile_eq_nil_iff.mpr hne]
  exact read_lineEnd hread Shape.noConfusion cs

/-- A gap holds no token and no fault. -/
theorem Gap.scans {line : Nat} {gap cs : List Char} {ts : List Token} (hgap : Gap gap)
    (h : Scans (lineAfter line gap) cs ts) : Scans line (gap ++ cs) ts := by
  induction hgap generalizing line with
  | nil => exact h
  | @blank x gap hx _ ih =>
    have hline : lineAfter line (x :: gap) = lineAfter (lineAfter line [x]) gap :=
      (lineAfter_append line [x] gap).symm
    rw [hline] at h
    exact .trivia (Segment.read_of_blank hx _) (ih h)
  | @comment body gap hbody _ ih =>
    have hline : lineAfter line ('/' :: '/' :: (body ++ '\n' :: gap)) =
        lineAfter (lineAfter (lineAfter line ('/' :: '/' :: body)) ['\n']) gap := by
      rw [lineAfter_append, lineAfter_append]
      rfl
    rw [hline] at h
    -- the comment is read up to its line end, which is a blank of its own
    have hread := Segment.read_of_comment hbody (gap ++ cs)
    rw [List.cons_append, List.cons_append, List.append_assoc]
    exact .trivia hread (.trivia (Segment.read_of_blank (by decide) _) (ih h))

/-- A token without its line. -/
def Token.unplaced (t : Token) : Kind × String :=
  (t.kind, t.lexeme)

/-- The tokens of a text that is laid out. -/
theorem LaidOut.scans {ts : List Token} {cs : List Char} (h : LaidOut (ts.map Token.lexeme) cs)
    (hall : ∀ t ∈ ts, Lexeme t.lexeme.toList (.token t.kind)) (line : Nat) :
    ∃ us, Scans line cs us ∧ us.map Token.unplaced = ts.map Token.unplaced := by
  induction ts generalizing cs line with
  | nil =>
    cases h
    exact ⟨[], .nil line, rfl⟩
  | cons t ts ih =>
    obtain ⟨ht, hall⟩ := List.forall_mem_cons.mp hall
    cases h with
    | @cons _ _ x gap cs hx hgap h =>
      obtain ⟨c, tail, htext, hread⟩ := ht.read_blank (isBlank_of_mem_blanks hx) (gap ++ cs)
      have hlexeme : String.ofList (c :: tail) = t.lexeme := by
        rw [← htext, String.ofList_toList]
      -- the rest begins on the line where the lexeme, its blank and the gap have ended
      obtain ⟨us, hscans, hus⟩ :=
        ih h hall (lineAfter (lineAfter (lineAfter line (c :: tail)) [x]) gap)
      have hblank := Scans.trivia (Segment.read_of_blank hx _) (hgap.scans hscans)
      rw [htext]
      refine ⟨_, Scans.token hread hblank, ?_⟩
      rw [List.map_cons, List.map_cons, hus, hlexeme]
      rfl

/-- The lexemes of a source, in their order and each with a blank behind it, are the tokens of the
source wherever else blanks and comments with their line ends stand between them or in front of the
first one: there is no fault, and kinds, values and lexemes are those of the source, faulty or not,
up to its end.  Of two tokens with one lexeme, from whatever sources, the kinds are equal, with
their values, so that tokens that are the same up to their values have the same values. -/
theorem scanTokens_laid_out (source : String) :
    ∃ ts line, scanTokens source = ts ++ [⟨.endOfSource, "", line⟩] ∧
      (∀ t ∈ ts, t.kind.isEnd = false) ∧
      (∀ gap cs text, Gap gap → LaidOut (ts.map Token.lexeme) cs → text.toList = gap ++ cs →
        scanFaults text = [] ∧
        ∃ us line', scanTokens text = us ++ [⟨.endOfSource, "", line'⟩] ∧
          us.map Token.unplaced = ts.map Token.unplaced) ∧
      ∀ other, ∀ t ∈ scanTokens source, ∀ u ∈ scanTokens other,
        (t.lexeme = u.lexeme → t.kind = u.kind) ∧ (t.same u = true → t.kind = u.kind) := by
  obtain ⟨ts, hts, hall⟩ := exists_lexemes 1 source.toList
  refine ⟨ts, _, hts, fun t ht => (hall t ht).not_end, ?_, ?_⟩
  · intro gap cs text hgap hlaid htext
    obtain ⟨us, hscans, hus⟩ := hlaid.scans hall (lineAfter 1 gap)
    have hscans : Scans 1 text.toList us := by
      rw [htext]
      exact hgap.scans hscans
    exact ⟨hscans.scanFaults_eq, us, _, hscans.scanTokens_eq, hus⟩
  · intro other t ht u hu
    exact ⟨kind_eq_of_lexeme ht hu, fun h => kind_eq_of_lexeme ht hu (Token.lexeme_eq_of_same h)⟩

/-- A name, a slash and a string with two slashes, which stand close together, and apart from each
other with a comment that holds a quote. -/
theorem scanTokens_laid_out_slashes :
    ∃ us line, scanTokens "\na\t/ \"//\"\r//\"\n" = us ++ [⟨.endOfSource, "", line⟩] ∧
      us.map Token.unplaced =
        [(.identifier, "a"), (.mark .slash, "/"), (.string "//", "\"//\"")] := by
  have hsource : "a/\"//\"".toList = ['a', '/', '"', '/', '/', '"'] := rfl
  have hscans : Scans 1 "a/\"//\"".toList
      [⟨.identifier, "a", 1⟩, ⟨.mark .slash, "/", 1⟩, ⟨.string "//", "\"//\"", 1⟩] := by
    rw [hsource]
    exact .token rfl (.token rfl (.token rfl (.nil 1)))
  obtain ⟨ts, line, hts, -, hlaid, -⟩ := scanTokens_laid_out "a/\"//\""
  rw [hscans.scanTokens_eq] at hts
  obtain ⟨rfl, -⟩ := List.append_inj' hts rfl
  have hgap : Gap ['/', '/', '"', '\n'] := @Gap.comment ['"'] [] (by decide) .nil
  have hlaid' : LaidOut ["a", "/", "\"//\""] "a\t/ \"//\"\r//\"\n".toList :=
    @LaidOut.cons _ _ '\t' [] _ (by decide) .nil <| @LaidOut.cons _ _ ' ' [] _ (by decide) .nil <|
      .cons (by decide) hgap .nil
  obtain ⟨-, us, line, hus, hkinds⟩ :=
    hlaid ['\n'] _ "\na\t/ \"//\"\r//\"\n" (.blank (by decide) .nil) hlaid' rfl
  exact ⟨us, line, hus, hkinds⟩

end Lox
