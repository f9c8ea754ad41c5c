/-
Scanning as a stream.

A scanner walks over the bytes of a source and is asked for one item at a time.  It knows positions
only: where the lexeme begins that it is reading, and how far it is.  Reading a byte and cutting a
piece out of the text can fail, at a position behind the end or within a character.

* `Scanner.next` — the next item, or `none` behind the last one;
* `Scanner.At` — the scanner stands between two parts of the text, on the right line;
* `Scanner.At.segment` — from there it reads the segment that `Segment.read` finds;
* `Scanner.answers_eq` — however often it is asked, it does not fail, and it answers the items of
  the source, and nothing from then on;
* `scan_partition` — these items are those of the longest lexemes of the source.

Design notes: the outer `Option` of a result is the scanner's failure, as an index out of
range or a cut through a character would be.  Nothing catches it, so that `some`
everywhere means that none occurs.
-/
import Lox.Proofs.Token.Partition
import Mathlib

namespace Lox

/-- A scanner: the bytes of the text, where the lexeme begins that is being read, how far it is
read, and the line there. -/
structure Scanner where
  src : List UInt8
  start : Nat
  curr : Nat
  line : Nat

namespace Scanner

/-- A scanner at the beginning of a source. -/
def new (source : String) : Scanner :=
  ⟨source.toUTF8.data.toList, 0, 0, 1⟩

/-- Everything is read. -/
def atEnd (s : Scanner) : Bool :=
  s.src.length ≤ s.curr

/-- The byte that is read next, as a character; a null character behind the end. -/
def peek (s : Scanner) : Char :=
  (s.src[s.curr]?.map Char.ofUInt8).getD '\x00'

/-- The byte behind the one that is read next. -/
def peekNext (s : Scanner) : Char :=
  (s.src[s.curr + 1]?.map Char.ofUInt8).getD '\x00'

/-- Reads one byte. -/
def advance? (s : Scanner) : Option (Char × Scanner) := do
  let b ← s.src[s.curr]?
  some (Char.ofUInt8 b, { s with curr := s.curr + 1 })

/-- Reads one byte if it is `c`. -/
def accept (c : Char) (s : Scanner) : Bool × Scanner :=
  if !s.atEnd && s.peek == c then (true, { s with curr := s.curr + 1 }) else (false, s)

/-- The bytes between two positions. -/
def byteSlice? (s : Scanner) (i j : Nat) : Option (List UInt8) :=
  if i ≤ j ∧ j ≤ s.src.length then some ((s.src.take j).drop i) else none

/-- No character goes on at this position. -/
def isBoundary (s : Scanner) (i : Nat) : Bool :=
  i == 0 || i == s.src.length ||
    match s.src[i]? with
    | some b => b.toNat < 128 || 192 ≤ b.toNat
    | none => false

/-- The text between two positions. -/
def slice? (s : Scanner) (i j : Nat) : Option String := do
  let piece ← s.byteSlice? i j
  if s.isBoundary i && s.isBoundary j then String.fromUTF8? piece.toByteArray else none

/-- Reads bytes as long as `p` holds for the next one. -/
def skip? (p : Char → Bool) (s : Scanner) : Option Scanner :=
  match _h : s.src[s.curr]? with
  | some b => if p (Char.ofUInt8 b) then skip? p { s with curr := s.curr + 1 } else some s
  | none => if p '\x00' then none else some s
termination_by s.src.length - s.curr
decreasing_by
  have := (List.getElem?_eq_some_iff.mp _h).1
  omega

/-- The line behind a byte that is read. -/
def lineBy (line : Nat) (c : Char) : Nat :=
  if c == '\n' then line + 1 else line

/-- Reads up to the next quote or the end, and counts the lines. -/
def skipText (s : Scanner) : Scanner :=
  match _h : s.src[s.curr]? with
  | some b =>
    if Char.ofUInt8 b != '"' then
      skipText { s with curr := s.curr + 1, line := lineBy s.line (Char.ofUInt8 b) }
    else s
  | none => s
termination_by s.src.length - s.curr
decreasing_by
  have := (List.getElem?_eq_some_iff.mp _h).1
  omega

/-- The rest of a comment. -/
def comment? (s : Scanner) : Option (Shape × Scanner) := do
  let rest ← s.byteSlice? s.curr s.src.length
  match rest.findIdx? (fun b => Char.ofUInt8 b == '\n') with
  | some i => some (.trivia, { s with curr := s.curr + i })
  | none => some (.trivia, { s with curr := s.src.length })

/-- The rest of a string. -/
def string? (s : Scanner) : Option (Shape × Scanner) :=
  let s := s.skipText
  if s.atEnd then some (.openString, s)
  else do
    let (_, s) ← s.advance?
    let text ← s.slice? (s.start + 1) (s.curr - 1)
    some (.token (.string text), s)

/-- The value of digits with a point among them, or without one. -/
def decimal (text : String) : Float :=
  literalValue (text.toList.takeWhile Char.isDigit) ((text.toList.dropWhile Char.isDigit).drop 1)

/-- A point with digits behind it, if there is one. -/
def fraction? (s : Scanner) : Option Scanner :=
  if s.peek == '.' && s.peekNext.isDigit then do
    let (_, s) ← s.advance?
    s.skip? Char.isDigit
  else some s

/-- The rest of a number. -/
def number? (s : Scanner) : Option (Shape × Scanner) := do
  let s ← s.skip? Char.isDigit
  let s ← s.fraction?
  let text ← s.slice? s.start s.curr
  some (.token (.number (decimal text)), s)

/-- The rest of a name. -/
def name? (s : Scanner) : Option (Shape × Scanner) := do
  let s ← s.skip? continuesName
  let name ← s.byteSlice? s.start s.curr
  some (.token (nameKind (String.ofList (name.map Char.ofUInt8))), s)

/-- A whole character that begins nothing; `c` is its first byte. -/
def stray? (c : Char) (s : Scanner) : Option (Shape × Scanner) := do
  let rest ← s.slice? s.start s.src.length
  let c := rest.toList.head?.getD c
  some (.stray c, { s with curr := s.start + c.utf8Size })

/-- Reads one segment. -/
def segment? (s : Scanner) : Option (Shape × Scanner) := do
  let (c, s) ← s.advance?
  match initial c with
  | .blank => some (.trivia, { s with line := lineBy s.line c })
  | .mark m => some (.token (.mark m), s)
  | .growing short long =>
    match s.accept '=' with
    | (true, s) => some (.token (.mark long), s)
    | (false, s) => some (.token (.mark short), s)
  | .slash =>
    match s.accept '/' with
    | (true, s) => s.comment?
    | (false, s) => some (.token (.mark .slash), s)
  | .quote => s.string?
  | .digit => s.number?
  | .letter => s.name?
  | .nothing => s.stray? c

theorem string?_ne_trivia {s s' : Scanner} : s.string? ≠ some (.trivia, s') := by
  intro h
  unfold string? at h
  simp only [Option.bind_eq_bind] at h
  split at h
  · cases h
  · obtain ⟨_, -, h⟩ := Option.bind_eq_some_iff.mp h
    obtain ⟨_, -, h⟩ := Option.bind_eq_some_iff.mp h
    cases h

theorem number?_ne_trivia {s s' : Scanner} : s.number? ≠ some (.trivia, s') := by
  intro h
  obtain ⟨_, -, h⟩ := Option.bind_eq_some_iff.mp h
  obtain ⟨_, -, h⟩ := Option.bind_eq_some_iff.mp h
  obtain ⟨_, -, h⟩ := Option.bind_eq_some_iff.mp h
  cases h

theorem name?_ne_trivia {s s' : Scanner} : s.name? ≠ some (.trivia, s') := by
  intro h
  obtain ⟨_, -, h⟩ := Option.bind_eq_some_iff.mp h
  obtain ⟨_, -, h⟩ := Option.bind_eq_some_iff.mp h
  cases h

theorem stray?_ne_trivia {c : Char} {s s' : Scanner} : s.stray? c ≠ some (.trivia, s') := by
  intro h
  obtain ⟨_, -, h⟩ := Option.bind_eq_some_iff.mp h
  cases h

theorem comment?_advances {s s' : Scanner} (h : s.comment? = some (.trivia, s')) :
    s'.src = s.src ∧ s.curr ≤ s'.curr := by
  obtain ⟨rest, hslice, h⟩ := Option.bind_eq_some_iff.mp h
  have hle : s.curr ≤ s.src.length := by
    unfold byteSlice? at hslice
    split at hslice
    · next hle => exact hle.1
    · cases hslice
  split at h
  · cases h
    exact ⟨rfl, Nat.le_add_right ..⟩
  · cases h
    exact ⟨rfl, hle⟩

theorem accept_cases (c : Char) (s : Scanner) :
    s.accept c = (true, { s with curr := s.curr + 1 }) ∨ s.accept c = (false, s) := by
  unfold accept
  split
  · exact .inl rfl
  · exact .inr rfl

/-- Behind a blank or a comment the scanner is further on in the same text. -/
theorem trivia_advances {s s' : Scanner} (h : s.segment? = some (.trivia, s')) :
    s'.src = s.src ∧ s.curr < s'.curr := by
  obtain ⟨⟨c, t⟩, hadvance, h⟩ := Option.bind_eq_some_iff.mp h
  obtain ⟨b, -, ht⟩ := Option.bind_eq_some_iff.mp hadvance
  cases ht
  simp only at h
  split at h
  · cases h
    exact ⟨rfl, Nat.lt_succ_self _⟩
  · cases h
  · split at h <;> cases h
  · obtain haccept | haccept := accept_cases '/' { s with curr := s.curr + 1 }
    · rw [haccept] at h
      obtain ⟨hsrc, hle⟩ := comment?_advances h
      exact ⟨hsrc, Nat.lt_of_lt_of_le (Nat.lt_succ_of_lt (Nat.lt_succ_self _)) hle⟩
    · rw [haccept] at h
      cases h
  · exact absurd h string?_ne_trivia
  · exact absurd h number?_ne_trivia
  · exact absurd h name?_ne_trivia
  · exact absurd h stray?_ne_trivia

/-- The next item, or `none` behind the last one. -/
def next (s : Scanner) : Option (Option Item × Scanner) :=
  if s.src.length < s.curr then some (none, s)
  else if s.curr = s.src.length then
    some (some (.token ⟨.endOfSource, "", s.line⟩), { s with curr := s.curr + 1 })
  else
    match _h : segment? { s with start := s.curr } with
    | none => none
    | some (.trivia, s') => next s'
    | some (.token kind, s') => do
      let lexeme ← s'.slice? s'.start s'.curr
      some (some (.token ⟨kind, lexeme, s'.line⟩), s')
    | some (.stray c, s') => some (some (.fault s'.line (.unexpected c)), s')
    | some (.openString, s') => some (some (.fault s'.line .unterminatedString), s')
termination_by s.src.length - s.curr
decreasing_by
  obtain ⟨hsrc, hcurr⟩ := trivia_advances _h
  have hcurr : s.curr < s'.curr := hcurr
  rw [show s'.src = s.src from hsrc]
  omega

/-- The answers to the first `n` calls. -/
def answers : (n : Nat) → Scanner → Option (List (Option Item))
  | 0, _ => some []
  | n + 1, s => do
    let (answer, s) ← s.next
    let answers ← s.answers n
    some (answer :: answers)

/-! ### Cutting out a piece -/

variable {s : Scanner}

/-- Between two parts of the text no character goes on. -/
theorem isBoundary_bytes {cs ds : List Char} (h : s.src = bytes (cs ++ ds)) :
    s.isBoundary (bytes cs).length = true := by
  unfold isBoundary
  rw [h, bytes_append]
  cases ds with
  | nil =>
    have hend : (bytes cs ++ bytes []).length = (bytes cs).length := by
      rw [List.length_append]
      rfl
    rw [hend, beq_self_eq_true, Bool.or_true, Bool.true_or]
  | cons c ds =>
    -- a character begins here, with its first byte
    rw [List.getElem?_append_right (Nat.le_refl _), Nat.sub_self, bytes_cons]
    obtain ⟨hc, b, henc, hb⟩ | ⟨hc, b, bs, henc, hb, -⟩ := utf8EncodeChar_cases c
    · simp [henc, hb, hc]
    · simp [henc, hb]

theorem byteSlice?_bytes {cs ds es : List Char} (h : s.src = bytes (cs ++ (ds ++ es))) :
    s.byteSlice? (bytes cs).length (bytes (cs ++ ds)).length = some (bytes ds) := by
  have hlengths : (bytes cs).length ≤ (bytes (cs ++ ds)).length ∧
      (bytes (cs ++ ds)).length ≤ s.src.length := by
    rw [h, ← List.append_assoc, bytes_append (cs ++ ds), List.length_append, bytes_append,
      List.length_append]
    omega
  unfold byteSlice?
  rw [if_pos hlengths, h, ← List.append_assoc, bytes_append (cs ++ ds), List.take_left',
    bytes_append, List.drop_left']
  · rfl
  · rfl

/-- Between parts of the text the part between them is cut out. -/
theorem slice?_bytes {cs ds es : List Char} (h : s.src = bytes (cs ++ (ds ++ es))) :
    s.slice? (bytes cs).length (bytes (cs ++ ds)).length = some (String.ofList ds) := by
  have hright : s.src = bytes ((cs ++ ds) ++ es) := by rw [h, List.append_assoc]
  unfold slice?
  rw [byteSlice?_bytes h, Option.bind_eq_bind, Option.bind_some, isBoundary_bytes h,
    isBoundary_bytes hright]
  exact fromUTF8?_bytes ds

/-! ### Loops -/

theorem drop_curr {b : UInt8} (h : s.src[s.curr]? = some b) :
    s.src.drop s.curr = b :: s.src.drop (s.curr + 1) := by
  obtain ⟨hlt, hget⟩ := List.getElem?_eq_some_iff.mp h
  rw [List.drop_eq_getElem_cons hlt, hget]

theorem skip?_eq {p : Char → Bool} (hp : p '\x00' = false) (s : Scanner) :
    s.skip? p = some { s with
      curr := s.curr + ((s.src.drop s.curr).takeWhile fun b => p (Char.ofUInt8 b)).length } := by
  fun_induction skip? p s with
  | case1 s b hb hpb ih =>
    simp only [ih, drop_curr hb, List.takeWhile_cons, hpb, if_true, List.length_cons,
      Nat.add_assoc, Nat.add_comm 1]
  | case2 s b hb hpb =>
    rw [drop_curr hb, List.takeWhile_cons, if_neg hpb]
    rfl
  | case3 s hb hpz =>
    rw [hp] at hpz
    cases hpz
  | case4 s hb hpz =>
    rw [List.drop_eq_nil_of_le (List.getElem?_eq_none_iff.mp hb)]
    rfl

theorem lineBy_ofUInt8 (line : Nat) (b : UInt8) :
    lineBy line (Char.ofUInt8 b) = line + if b == 0x0A then 1 else 0 := by
  have hiff : Char.ofUInt8 b = '\n' ↔ b = 0x0A := by
    rw [← UInt8.toNat_inj, ← Char.toNat_inj]
    exact Iff.rfl
  unfold lineBy
  simp only [beq_iff_eq, hiff]
  split <;> rfl

theorem skipText_eq (s : Scanner) :
    s.skipText =
      let text := (s.src.drop s.curr).takeWhile fun b => Char.ofUInt8 b != '"'
      { s with curr := s.curr + text.length, line := s.line + text.count 0x0A } := by
  fun_induction skipText s with
  | case1 s b hb hquote ih =>
    rw [ih]
    simp only [drop_curr hb, List.takeWhile_cons, hquote, if_true, List.length_cons,
      List.count_cons, lineBy_ofUInt8, Nat.add_assoc, Nat.add_comm 1, Nat.add_comm (ite _ _ _)]
  | case2 s b hb hquote =>
    rw [drop_curr hb, List.takeWhile_cons, if_neg hquote]
    rfl
  | case3 s hb =>
    rw [List.drop_eq_nil_of_le (List.getElem?_eq_none_iff.mp hb)]
    rfl

/-! ### Between two parts of the text -/

/-- The scanner stands between two parts of the text, on the line behind the first one. -/
structure At (s : Scanner) (done rest : List Char) : Prop where
  src : s.src = bytes (done ++ rest)
  curr : s.curr = (bytes done).length
  line : s.line = lineBehind done

namespace At

variable {done rest cs : List Char} {c : Char}

theorem drop_src (h : s.At done rest) : s.src.drop s.curr = bytes rest := by
  rw [h.src, h.curr, bytes_append, List.drop_left]

/-- The scanner has moved over a part of the text. -/
theorem move {text : List Char} (h : s.At done (text ++ rest)) {s' : Scanner}
    (hsrc : s'.src = s.src) (hcurr : s'.curr = s.curr + (bytes text).length)
    (hline : s'.line = s.line + (bytes text).count 0x0A) : s'.At (done ++ text) rest where
  src := by rw [hsrc, h.src, List.append_assoc]
  curr := by rw [hcurr, h.curr, bytes_append, List.length_append]
  line := by
    rw [hline, h.line, lineBehind, lineBehind, bytes_append, List.count_append, Nat.add_assoc]

/-- The bytes since the beginning of a lexeme. -/
theorem byteLexeme {text : List Char} (h : s.At (done ++ text) rest)
    (hstart : s.start = (bytes done).length) :
    s.byteSlice? s.start s.curr = some (bytes text) := by
  have hsrc : s.src = bytes (done ++ (text ++ rest)) := by rw [h.src, List.append_assoc]
  rw [hstart, h.curr]
  exact byteSlice?_bytes hsrc

/-- The text since the beginning of a lexeme. -/
theorem lexeme {text : List Char} (h : s.At (done ++ text) rest)
    (hstart : s.start = (bytes done).length) :
    s.slice? s.start s.curr = some (String.ofList text) := by
  have hsrc : s.src = bytes (done ++ (text ++ rest)) := by rw [h.src, List.append_assoc]
  rw [hstart, h.curr]
  exact slice?_bytes hsrc

/-- The byte in front of the scanner answers as the character does. -/
theorem test_peek (h : s.At done rest) {p : Char → Bool} (hp : Bytewise p)
    (hz : p '\x00' = false) : p s.peek = rest.head?.any p := by
  unfold peek
  rw [← List.head?_drop, h.drop_src]
  cases rest with
  | nil => exact hz
  | cons c rest =>
    obtain ⟨b, bs, henc⟩ := List.exists_cons_of_ne_nil (utf8EncodeChar_ne_nil c)
    rw [bytes_cons, henc]
    exact hp c b (by rw [henc]; exact List.mem_cons_self)

theorem atEnd_eq (h : s.At done rest) : s.atEnd = rest.isEmpty := by
  unfold atEnd
  rw [h.src, h.curr, bytes_append, List.length_append]
  cases rest with
  | nil => exact decide_eq_true (Nat.le_refl _)
  | cons c rest =>
    have hpos := List.length_pos_iff.mpr (utf8EncodeChar_ne_nil c)
    refine decide_eq_false ?_
    rw [bytes_cons, List.length_append]
    omega

/-- A byte of ASCII is a character. -/
theorem bytes_ascii (hc : c.toNat < 128) : ∃ b, bytes [c] = [b] ∧ Char.ofUInt8 b = c := by
  obtain ⟨-, b, henc, hb⟩ | ⟨hlarge, -⟩ := utf8EncodeChar_cases c
  · refine ⟨b, ?_, ofUInt8_eq hb⟩
    rw [bytes_cons, henc]
    rfl
  · omega

theorem advance_ascii (h : s.At done (c :: cs)) (hc : c.toNat < 128) :
    s.advance? = some (c, { s with curr := s.curr + 1 }) := by
  obtain ⟨b, hb, hbc⟩ := bytes_ascii hc
  have hget : s.src[s.curr]? = some b := by
    rw [← List.head?_drop, h.drop_src, show c :: cs = [c] ++ cs from rfl, bytes_append, hb]
    rfl
  unfold advance?
  rw [hget, ← hbc]
  rfl

/-- Behind a character of ASCII that ends no line. -/
theorem step (h : s.At done (c :: cs)) (hc : c.toNat < 128) (hline : c ≠ '\n') :
    ({ s with curr := s.curr + 1 } : Scanner).At (done ++ [c]) cs := by
  obtain ⟨b, hb, hbc⟩ := bytes_ascii hc
  have h : s.At done ([c] ++ cs) := h
  refine h.move rfl (by rw [hb]; rfl) ?_
  rw [count_lineEnd, List.count_singleton, if_neg (by simpa using hline)]
  rfl

theorem accept_eq (h : s.At done rest) {d : Char} (hd : d.toNat < 128) (hz : d ≠ '\x00') :
    s.accept d =
      if rest.head? = some d then (true, { s with curr := s.curr + 1 }) else (false, s) := by
  have hpeek := h.test_peek (.eq_char hd) (beq_eq_false_iff_ne.mpr hz.symm)
  unfold accept
  rw [hpeek, h.atEnd_eq]
  cases rest with
  | nil => rfl
  | cons c rest => simp

/-- The loop over bytes stops where the characters do. -/
theorem skip (h : s.At done rest) {p : Char → Bool} (hp : Bytewise p) (hz : p '\x00' = false)
    (hline : p '\n' = false) :
    ∃ s', s.skip? p = some s' ∧ s'.At (done ++ rest.takeWhile p) (rest.dropWhile p) ∧
      s'.start = s.start := by
  refine ⟨_, skip?_eq hz s, ?_, rfl⟩
  have h : s.At done (rest.takeWhile p ++ rest.dropWhile p) := by
    rwa [List.takeWhile_append_dropWhile]
  refine h.move rfl ?_ ?_
  · rw [h.drop_src, List.takeWhile_append_dropWhile, hp.takeWhile]
  · -- no line ends within
    rw [count_lineEnd, List.count_eq_zero.mpr]
    · rfl
    · intro hmem
      rw [List.mem_takeWhile_imp hmem] at hline
      cases hline

theorem skipText (h : s.At done rest) :
    s.skipText.At (done ++ rest.takeWhile (· != '"')) (rest.dropWhile (· != '"')) ∧
      s.skipText.start = s.start := by
  rw [skipText_eq]
  refine ⟨?_, rfl⟩
  have hp : Bytewise (· != '"') := .ne_char (by decide)
  have h : s.At done (rest.takeWhile (· != '"') ++ rest.dropWhile (· != '"')) := by
    rwa [List.takeWhile_append_dropWhile]
  have htext : (s.src.drop s.curr).takeWhile (fun b => Char.ofUInt8 b != '"') =
      bytes (rest.takeWhile (· != '"')) := by
    rw [h.drop_src, List.takeWhile_append_dropWhile]
    exact hp.takeWhile rest
  exact h.move rfl (by rw [← htext]) (by rw [← htext])

end At

/-! ### Segments -/

/-- What the scanner does that began a segment with `c` behind `done`: it
stands behind the segment. -/
def Finds (result : Option (Shape × Scanner)) (start : Nat) (done : List Char) (c : Char)
    (segment : Segment) : Prop :=
  ∃ s', result = some (segment.shape, s') ∧ s'.At (done ++ c :: segment.tail) segment.rest ∧
    s'.start = start

namespace At

variable {done rest cs : List Char} {c : Char}

theorem finds_single (h : s.At (done ++ [c]) cs) (shape : Shape) :
    Finds (some (shape, s)) s.start done c (Segment.single shape cs) :=
  ⟨s, rfl, h, rfl⟩

/-- A mark, or the longer one if `=` follows. -/
theorem finds_growing (h : s.At (done ++ [c]) cs) (short long : Mark) :
    Finds
      (match s.accept '=' with
        | (true, s) => some (.token (.mark long), s)
        | (false, s) => some (.token (.mark short), s))
      s.start done c (Segment.growing short long cs) := by
  rw [h.accept_eq (by decide) (by decide)]
  cases cs with
  | nil => exact h.finds_single _
  | cons d cs =>
    by_cases hd : d = '='
    · subst hd
      have hstep := h.step (by decide) (by decide)
      rw [List.append_assoc] at hstep
      rw [List.head?_cons, if_pos rfl]
      exact ⟨_, rfl, hstep, rfl⟩
    · rw [List.head?_cons, if_neg (by simpa using hd), Segment.growing_of_ne short long hd]
      exact h.finds_single _

/-- A comment goes on to the first line end, or to the end. -/
theorem finds_comment (h : s.At (done ++ ['/', '/']) cs) :
    Finds s.comment? s.start done '/' (Segment.slash ('/' :: cs)) := by
  have hslice : s.byteSlice? s.curr s.src.length = some (bytes cs) := by
    have hsrc : s.src = bytes ((done ++ ['/', '/']) ++ (cs ++ [])) := by
      rw [List.append_nil]
      exact h.src
    have hbytes := byteSlice?_bytes hsrc
    rwa [← h.curr, ← h.src] at hbytes
  have hidx : (bytes cs).findIdx (fun b => Char.ofUInt8 b == '\n') =
      (bytes (cs.takeWhile (· != '\n'))).length := by
    have hp : Bytewise (· != '\n') := .ne_char (by decide)
    rw [← hp.takeWhile, List.takeWhile_eq_take_findIdx_not, List.length_take]
    simp only [bne, Bool.not_not]
    exact (Nat.min_eq_left List.findIdx_le_length).symm
  -- where the scanner goes on, whether it finds a line end or not
  have hcomment : s.comment? = some (.trivia, { s with
      curr := s.curr + (bytes (cs.takeWhile (· != '\n'))).length }) := by
    unfold comment?
    rw [hslice, Option.bind_eq_bind, Option.bind_some, ← hidx]
    cases hfind : (bytes cs).findIdx? (fun b => Char.ofUInt8 b == '\n') with
    | some i => rw [(List.findIdx?_eq_some_iff_findIdx_eq.mp hfind).2]
    | none =>
      rw [List.findIdx?_eq_none_iff_findIdx_eq.mp hfind, h.curr, ← List.length_append,
        ← bytes_append, ← h.src]
  have h : s.At (done ++ ['/', '/'])
      (cs.takeWhile (· != '\n') ++ cs.dropWhile (· != '\n')) := by
    rwa [List.takeWhile_append_dropWhile]
  refine ⟨_, hcomment, ?_, rfl⟩
  show At _ (done ++ (['/', '/'] ++ cs.takeWhile (· != '\n'))) (cs.dropWhile (· != '\n'))
  rw [← List.append_assoc]
  refine h.move rfl rfl ?_
  -- no line ends within
  rw [count_lineEnd, List.count_eq_zero.mpr fun hmem => ne_of_mem_takeWhile hmem rfl]
  rfl

/-- A slash, or a comment if another one follows. -/
theorem finds_slash (h : s.At (done ++ ['/']) cs) :
    Finds
      (match s.accept '/' with
        | (true, s) => s.comment?
        | (false, s) => some (.token (.mark .slash), s))
      s.start done '/' (Segment.slash cs) := by
  rw [h.accept_eq (by decide) (by decide)]
  cases cs with
  | nil => exact h.finds_single _
  | cons d cs =>
    by_cases hd : d = '/'
    · subst hd
      have hstep := h.step (by decide) (by decide)
      rw [List.append_assoc] at hstep
      rw [List.head?_cons, if_pos rfl]
      exact hstep.finds_comment
    · rw [List.head?_cons, if_neg (by simpa using hd), Segment.slash_of_ne hd]
      exact h.finds_single _

theorem finds_string (h : s.At (done ++ ['"']) cs) (hstart : s.start = (bytes done).length) :
    Finds s.string? s.start done '"' (Segment.string cs) := by
  obtain ⟨hskip, hskipped⟩ := h.skipText
  unfold string? Segment.string
  simp only
  rw [hskip.atEnd_eq]
  cases hrest : cs.dropWhile (· != '"') with
  | nil =>
    rw [hrest] at hskip
    refine ⟨_, rfl, ?_, hskipped⟩
    rw [List.takeWhile_eq_self_iff.mpr (List.dropWhile_eq_nil_iff.mp hrest), List.append_assoc]
      at hskip
    exact hskip
  | cons quote rest =>
    -- what stops the string is a quote
    have hquote : quote = '"' := by
      have hhead := List.head?_dropWhile_not (· != '"') cs
      rw [hrest] at hhead
      simpa using hhead
    subst hquote
    rw [hrest] at hskip
    have hsrc := hskip.src
    rw [List.append_assoc] at hsrc
    have hslice := slice?_bytes hsrc
    rw [← hskip.curr, show (bytes (done ++ ['"'])).length = s.start + 1 by
      rw [hstart, bytes_append, List.length_append]; rfl, ← hskipped] at hslice
    have hclosed : (do
        let (_, t) ← s.skipText.advance?
        let text ← t.slice? (t.start + 1) (t.curr - 1)
        some (Shape.token (.string text), t)) =
        some (.token (.string (String.ofList (cs.takeWhile (· != '"')))),
          { s.skipText with curr := s.skipText.curr + 1 }) := by
      rw [hskip.advance_ascii (by decide)]
      show (s.skipText.slice? (s.skipText.start + 1) s.skipText.curr).bind _ = _
      rw [hslice]
      rfl
    have hstep := hskip.step (by decide) (by decide)
    rw [List.append_assoc, List.append_assoc] at hstep
    exact ⟨_, hclosed, hstep, hskipped⟩

theorem bytewise_isDigit : Bytewise Char.isDigit := by
  refine .of_const (v := false) fun c hc => ?_
  have hval : c.val.toNat = c.toNat := rfl
  simp only [Char.isDigit, Bool.and_eq_false_iff, decide_eq_false_iff_not, UInt32.le_iff_toNat_le,
    hval]
  right
  show ¬ c.toNat ≤ 57
  omega

/-- A point with digits behind it belongs to a number. -/
theorem fraction_of_isDigit {d : Char} (h : s.At done ('.' :: d :: cs)) (hd : d.isDigit = true) :
    ∃ s', s.fraction? = some s' ∧
      s'.At (done ++ '.' :: d :: cs.takeWhile Char.isDigit) (cs.dropWhile Char.isDigit) ∧
      s'.start = s.start := by
  have hstep := h.step (by decide) (by decide)
  have hpeek := h.test_peek (.eq_char (y := '.') (by decide)) (by decide)
  have hnext : s.peekNext.isDigit = true :=
    (hstep.test_peek bytewise_isDigit (by decide)).trans hd
  obtain ⟨t, hskip, ht, htstart⟩ := hstep.skip bytewise_isDigit (by decide) (by decide)
  rw [List.takeWhile_cons_of_pos hd, List.dropWhile_cons_of_pos hd, List.append_assoc] at ht
  refine ⟨t, ?_, ht, htstart⟩
  unfold fraction?
  rw [hpeek, hnext, if_pos (by rfl), h.advance_ascii (by decide)]
  exact hskip

theorem fraction_of_not (h : s.At done cs)
    (hcs : ∀ d rest, cs = '.' :: d :: rest → d.isDigit = false) : s.fraction? = some s := by
  have hpeek := h.test_peek (.eq_char (y := '.') (by decide)) (by decide)
  unfold fraction?
  refine if_neg ?_
  rw [hpeek]
  intro htest
  obtain ⟨hpoint, hdigit⟩ := Bool.and_eq_true_iff.mp htest
  cases cs with
  | nil => cases hpoint
  | cons c cs =>
    cases eq_of_beq hpoint
    -- the next byte is a digit, but the next character is none
    have hnext : s.peekNext.isDigit = cs.head?.any Char.isDigit :=
      (h.step (by decide) (by decide)).test_peek bytewise_isDigit (by decide)
    rw [hnext] at hdigit
    cases cs with
    | nil => cases hdigit
    | cons d cs =>
      rw [List.head?_cons, Option.any_some, hcs d cs rfl] at hdigit
      cases hdigit

theorem decimal_whole {digits : List Char} (h : ∀ x ∈ digits, x.isDigit = true) :
    decimal (String.ofList digits) = literalValue digits [] := by
  unfold decimal
  rw [String.toList_ofList, List.takeWhile_eq_self_iff.mpr h, List.dropWhile_eq_nil_iff.mpr h,
    List.drop_nil]

theorem decimal_fraction {digits fraction : List Char} (h : ∀ x ∈ digits, x.isDigit = true) :
    decimal (String.ofList (digits ++ '.' :: fraction)) = literalValue digits fraction := by
  have htake : ('.' :: fraction).takeWhile Char.isDigit = [] := rfl
  have hdrop : ('.' :: fraction).dropWhile Char.isDigit = '.' :: fraction := rfl
  unfold decimal
  rw [String.toList_ofList, List.takeWhile_append_of_pos h, List.dropWhile_append_of_pos h, htake,
    hdrop, List.append_nil]
  rfl

theorem finds_number (hc : c.isDigit = true) (h : s.At (done ++ [c]) cs)
    (hstart : s.start = (bytes done).length) :
    Finds s.number? s.start done c (Segment.number c cs) := by
  obtain ⟨t, hskip, ht, htstart⟩ := h.skip bytewise_isDigit (by decide) (by decide)
  have hdigits : ∀ x ∈ c :: cs.takeWhile Char.isDigit, x.isDigit = true :=
    List.forall_mem_cons.mpr ⟨hc, fun x hx => List.mem_takeWhile_imp hx⟩
  rw [List.append_assoc] at ht
  -- without a fraction the number ends where the digits do
  have hwhole (hn : ∀ d rest, cs.dropWhile Char.isDigit = '.' :: d :: rest → d.isDigit = false) :
      Finds s.number? s.start done c
        ⟨.token (.number (literalValue (c :: cs.takeWhile Char.isDigit) [])),
          cs.takeWhile Char.isDigit, cs.dropWhile Char.isDigit⟩ := by
    refine ⟨t, ?_, ht, htstart⟩
    unfold number?
    rw [hskip, Option.bind_eq_bind, Option.bind_some, ht.fraction_of_not hn, Option.bind_eq_bind,
      Option.bind_some, ht.lexeme (htstart.trans hstart)]
    show some (Shape.token
      (.number (decimal (String.ofList (c :: cs.takeWhile Char.isDigit)))), t) = _
    rw [decimal_whole hdigits]
  unfold Segment.number
  simp only
  split
  · next d rest hrest =>
    split
    · next hd =>
      rw [hrest] at ht
      obtain ⟨u, hfraction, hu, hustart⟩ := ht.fraction_of_isDigit hd
      rw [List.append_assoc] at hu
      refine ⟨u, ?_, hu, hustart.trans htstart⟩
      unfold number?
      rw [hskip, Option.bind_eq_bind, Option.bind_some, hfraction, Option.bind_eq_bind,
        Option.bind_some, hu.lexeme (hustart.trans (htstart.trans hstart))]
      show some (Shape.token (.number (decimal (String.ofList
        ((c :: cs.takeWhile Char.isDigit) ++ '.' :: d :: rest.takeWhile Char.isDigit)))), u) = _
      rw [decimal_fraction hdigits]
    · next hd =>
      rw [← hrest]
      refine hwhole fun d' rest' hrest' => ?_
      rw [hrest] at hrest'
      cases hrest'
      exact Bool.eq_false_iff.mpr hd
  · next hn =>
    exact hwhole fun d rest hrest => absurd hrest (hn d rest)

theorem map_ofUInt8_bytes {cs : List Char} (h : ∀ x ∈ cs, x.toNat < 128) :
    (bytes cs).map Char.ofUInt8 = cs := by
  induction cs with
  | nil => rfl
  | cons c cs ih =>
    obtain ⟨hc, hcs⟩ := List.forall_mem_cons.mp h
    obtain ⟨b, hb, hbc⟩ := bytes_ascii hc
    rw [show c :: cs = [c] ++ cs from rfl, bytes_append, hb, List.map_append, ih hcs,
      List.map_singleton, hbc]

theorem continuesName_of_large (c : Char) (hc : 128 ≤ c.toNat) : continuesName c = false := by
  have hval : c.val.toNat = c.toNat := rfl
  have hne : c ≠ '_' := by
    rintro rfl
    exact absurd hc (by decide)
  simp [continuesName, Char.isAlphanum, Char.isAlpha, Char.isUpper, Char.isLower, Char.isDigit,
    UInt32.le_iff_toNat_le, hval, hne]
  omega

theorem finds_name (hc : c.toNat < 128) (h : s.At (done ++ [c]) cs)
    (hstart : s.start = (bytes done).length) :
    Finds s.name? s.start done c (Segment.name c cs) := by
  obtain ⟨t, hskip, ht, htstart⟩ :=
    h.skip (.of_const continuesName_of_large) (by decide) (by decide)
  have hascii : ∀ x ∈ c :: cs.takeWhile continuesName, x.toNat < 128 := by
    refine List.forall_mem_cons.mpr ⟨hc, fun x hx => ?_⟩
    by_contra hlarge
    have hx := List.mem_takeWhile_imp hx
    rw [continuesName_of_large x (Nat.le_of_not_lt hlarge)] at hx
    cases hx
  rw [List.append_assoc] at ht
  refine ⟨t, ?_, ht, htstart⟩
  unfold name?
  rw [hskip, Option.bind_eq_bind, Option.bind_some, ht.byteLexeme (htstart.trans hstart),
    Option.bind_eq_bind, Option.bind_some]
  show some (Shape.token (nameKind (String.ofList
    ((bytes (c :: cs.takeWhile continuesName)).map Char.ofUInt8))), t) = _
  rw [map_ofUInt8_bytes hascii]
  rfl

/-- A stray character is passed over as a whole. -/
theorem finds_stray {d : Char} (h : s.At done (c :: cs)) (hstart : s.start = s.curr)
    (hline : c ≠ '\n') {t : Scanner} (ht : t = { s with curr := s.curr + 1 }) :
    Finds (t.stray? d) s.start done c (Segment.single (.stray c) cs) := by
  have hslice : t.slice? t.start t.src.length = some (String.ofList (c :: cs)) := by
    have hsrc : s.src = bytes (done ++ ((c :: cs) ++ [])) := by
      rw [List.append_nil]
      exact h.src
    have hbytes := slice?_bytes hsrc
    rw [← h.src, ← h.curr, ← hstart] at hbytes
    rw [ht]
    exact hbytes
  have hfound : t.stray? d = some (.stray c, { t with curr := t.start + c.utf8Size }) := by
    unfold stray?
    rw [hslice, Option.bind_eq_bind, Option.bind_some, String.toList_ofList]
    rfl
  have h : s.At done ([c] ++ cs) := h
  refine ⟨_, hfound, h.move ?_ ?_ ?_, ?_⟩
  · rw [ht]
  · rw [ht, ← hstart, bytes_cons, List.length_append, String.length_utf8EncodeChar]
    rfl
  · rw [ht, count_lineEnd, List.count_singleton, if_neg (by simpa using hline)]
    rfl
  · rw [ht]

/-- A blank is passed over, and may end a line. -/
theorem finds_blank (h : s.At done (c :: cs)) (hc : c.toNat < 128) :
    Finds (some (.trivia, { s with curr := s.curr + 1, line := lineBy s.line c })) s.start done c
      (Segment.single .trivia cs) := by
  obtain ⟨b, hb, hbc⟩ := bytes_ascii hc
  have h : s.At done ([c] ++ cs) := h
  refine ⟨_, rfl, h.move rfl (by rw [hb]; rfl) ?_, rfl⟩
  rw [hb, List.count_singleton, ← hbc, lineBy_ofUInt8]

/-- The scanner reads the segment that stands in front of it. -/
theorem finds_segment (h : s.At done (c :: cs)) (hstart : s.start = s.curr) :
    Finds s.segment? s.start done c (Segment.read c cs) := by
  rw [Segment.read_eq]
  unfold segment?
  by_cases hc : c.toNat < 128
  · rw [h.advance_ascii hc, Option.bind_eq_bind, Option.bind_some]
    simp only
    -- the scanner chooses by the first byte, which in ASCII is the character
    have hopen := hstart.trans h.curr
    have hstep (hinitial : initial c ≠ .blank) :
        ({ s with curr := s.curr + 1 } : Scanner).At (done ++ [c]) cs := by
      refine h.step hc ?_
      rintro rfl
      exact hinitial rfl
    cases hinitial : initial c with
    | blank => exact h.finds_blank hc
    | mark m => exact (hstep (by rw [hinitial]; exact Initial.noConfusion)).finds_single _
    | growing short long =>
      exact (hstep (by rw [hinitial]; exact Initial.noConfusion)).finds_growing short long
    | slash =>
      cases eq_slash_of_initial hinitial
      exact (hstep Initial.noConfusion).finds_slash
    | quote =>
      cases eq_quote_of_initial hinitial
      exact (hstep Initial.noConfusion).finds_string hopen
    | digit =>
      exact (hstep (by rw [hinitial]; exact Initial.noConfusion)).finds_number
        (isDigit_of_initial hinitial) hopen
    | letter => exact (hstep (by rw [hinitial]; exact Initial.noConfusion)).finds_name hc hopen
    | nothing =>
      refine h.finds_stray hstart ?_ rfl
      rintro rfl
      cases hinitial
  · -- the first byte of a character outside of ASCII begins nothing, as the character itself
    have hlarge := Nat.le_of_not_lt hc
    obtain ⟨hsmall, -⟩ | ⟨-, b, bs, henc, hb, -⟩ := utf8EncodeChar_cases c
    · exact absurd hsmall hc
    have hadvance : s.advance? = some (Char.ofUInt8 b, { s with curr := s.curr + 1 }) := by
      unfold advance?
      rw [← List.head?_drop, h.drop_src, bytes_cons, henc]
      rfl
    have hbyte : initial (Char.ofUInt8 b) = .nothing := by
      refine initial_of_large ?_
      rw [toNat_ofUInt8]
      omega
    rw [hadvance, Option.bind_eq_bind, Option.bind_some, initial_of_large hlarge]
    simp only [hbyte]
    refine h.finds_stray hstart ?_ rfl
    rintro rfl
    exact hc (by decide)

end At

/-! ### Items -/

/-- Behind a blank or a comment the scanner goes on. -/
theorem next_of_trivia {t : Scanner} (hlt : s.curr < s.src.length)
    (hfound : ({ s with start := s.curr } : Scanner).segment? = some (.trivia, t)) :
    s.next = t.next := by
  rw [next, if_neg (by omega), if_neg (by omega)]
  split
  case h_2 heq =>
    rw [hfound] at heq
    cases heq
    rfl
  all_goals
    next heq =>
    rw [hfound] at heq
    cases heq

/-- Any other segment is an item. -/
theorem next_of_item {t : Scanner} {c : Char} {shape : Shape} {tail rest : List Char} {item : Item}
    (hlt : s.curr < s.src.length)
    (hfound : ({ s with start := s.curr } : Scanner).segment? = some (shape, t))
    (hlexeme : t.slice? t.start t.curr = some (String.ofList (c :: tail)))
    (hitem : Segment.item? c ⟨shape, tail, rest⟩ t.line = some item) :
    s.next = some (some item, t) := by
  rw [next, if_neg (by omega), if_neg (by omega)]
  split <;> rename_i heq <;> rw [hfound] at heq <;> cases heq <;> cases hitem
  · rw [hlexeme]
    rfl
  · rfl
  · rfl

/-- Everything is read, and the end of the source is answered. -/
def Finished (s : Scanner) : Prop :=
  s.src.length < s.curr

theorem Finished.next_eq (h : s.Finished) : s.next = some (none, s) := by
  rw [next]
  exact if_pos h

namespace At

variable {done rest : List Char}

/-- The line behind a part of what is left. -/
theorem line_append {text : List Char} (h : s.At done rest) {s' : Scanner} {rest' : List Char}
    (h' : s'.At (done ++ text) rest') : s'.line = lineAfter s.line text := by
  rw [h'.line, h.line, lineBehind_eq, lineBehind_eq, lineAfter_append]

/-- The next item is the first one of what is left, and the others are left behind it. -/
theorem next_eq (h : s.At done rest) :
    ∃ item s', s.next = some (some item, s') ∧
      ((∃ done' rest', s'.At done' rest' ∧
          scanFrom s.line rest = item :: scanFrom s'.line rest') ∨
        (s'.Finished ∧ scanFrom s.line rest = [item])) := by
  induction hn : rest.length using Nat.strong_induction_on generalizing s done rest with
  | _ n ih =>
    have hlength : s.src.length = s.curr + (bytes rest).length := by
      rw [h.src, h.curr, bytes_append, List.length_append]
    cases rest with
    | nil =>
      have hend : s.curr = s.src.length := hlength.symm
      rw [next, if_neg (by omega), if_pos hend]
      refine ⟨_, _, rfl, .inr ⟨?_, ?_⟩⟩
      · show s.src.length < s.curr + 1
        omega
      · rw [scanFrom]
    | cons c cs =>
      have hpos := List.length_pos_iff.mpr (utf8EncodeChar_ne_nil c)
      rw [bytes_cons, List.length_append] at hlength
      have hbegin : ({ s with start := s.curr } : Scanner).At done (c :: cs) :=
        ⟨h.src, h.curr, h.line⟩
      obtain ⟨t, hfound, ht, htstart⟩ := hbegin.finds_segment rfl
      have hle := Segment.length_rest_le c cs
      obtain ⟨shape, tail, rest, hread⟩ :
          ∃ shape tail rest, Segment.read c cs = ⟨shape, tail, rest⟩ :=
        ⟨_, _, _, rfl⟩
      rw [hread] at hfound ht hle
      have hlexeme := ht.lexeme (htstart.trans h.curr)
      rw [scanFrom_cons hread, ← h.line_append ht]
      cases hitem : Segment.item? c ⟨shape, tail, rest⟩ t.line with
      | none =>
        -- a blank or a comment is no item: the scanner goes on behind it
        cases shape with
        | trivia =>
          rw [next_of_trivia (by omega) hfound]
          exact ih rest.length (by rw [← hn]; exact Nat.lt_succ_of_le hle) ht rfl
        | _ => cases hitem
      | some item =>
        exact ⟨item, t, next_of_item (by omega) hfound hlexeme hitem, .inl ⟨_, _, ht, rfl⟩⟩

end At

/-- Asked `n` times, the scanner does not fail, and answers nothing any more. -/
theorem Finished.answers_eq (h : s.Finished) (n : Nat) :
    s.answers n = some (List.replicate n none) := by
  induction n with
  | zero => rfl
  | succ n ih =>
    unfold answers
    rw [h.next_eq]
    show (s.answers n).bind _ = _
    rw [ih]
    rfl

/-- Asked `n` times, the scanner does not fail, and answers the items one after the other. -/
theorem At.answers_eq {done rest : List Char} (h : s.At done rest) (n : Nat) :
    s.answers n = some ((List.range n).map fun i => (scanFrom s.line rest)[i]?) := by
  induction n generalizing s done rest with
  | zero => rfl
  | succ n ih =>
    obtain ⟨item, s', hnext, hrest⟩ := h.next_eq
    unfold answers
    rw [hnext]
    show (s'.answers n).bind _ = _
    rw [List.range_succ_eq_map, List.map_cons, List.map_map]
    obtain ⟨done', rest', h', hscan⟩ | ⟨hfinished, hscan⟩ := hrest
    · rw [ih h', hscan]
      rfl
    · -- behind the only item that was left there is nothing
      rw [hfinished.answers_eq, hscan]
      have hnone : (List.range n).map ((fun i => [item][i]?) ∘ Nat.succ) =
          List.replicate n none := by
        rw [List.eq_replicate_iff]
        exact ⟨by rw [List.length_map, List.length_range], by simp⟩
      rw [hnone]
      rfl

theorem new_at (source : String) : (new source).At [] source.toList where
  src := bytes_toList source
  curr := rfl
  line := rfl

/-- However often a scanner of a source is asked, it does not fail, and it answers the items of the
source one after the other, and nothing from then on. -/
theorem answers_new (source : String) (n : Nat) :
    (new source).answers n = some ((List.range n).map fun i => (scan source)[i]?) :=
  (new_at source).answers_eq n

end Scanner

/-- A source is cut, in one way only, into pieces each of which is the longest lexeme where it
begins.  Their bytes, one piece behind the other, are the bytes of the source, and a string that is
not closed is the last piece.  The items of the source are those of the pieces, each on the line
behind its piece, and then the end of the source, which is no piece, on the last line.  A scanner
that is asked for items any number of times cuts through no character and reads nothing behind the
end: it answers these items in their order, and nothing once they are all answered. -/
theorem scan_partition (source : String) :
    ∃ pieces : List Piece,
      Partition source.toList pieces ∧
      (∀ pieces', Partition source.toList pieces' → pieces' = pieces) ∧
      (pieces.flatMap fun p => bytes p.text) = source.toUTF8.data.toList ∧
      (∀ p ∈ pieces.dropLast, p.shape ≠ .openString) ∧
      (∀ p ∈ pieces, ∀ kind, p.shape = .token kind → kind.isEnd = false) ∧
      scan source =
        itemsBehind [] pieces ++ [.token ⟨.endOfSource, "", lineBehind source.toList⟩] ∧
      ∀ n, (Scanner.new source).answers n =
        some ((List.range n).map fun i => (scan source)[i]?) := by
  obtain ⟨pieces, h⟩ := exists_partition source.toList
  have hbytes : (pieces.flatMap fun p => bytes p.text) = source.toUTF8.data.toList := by
    rw [bytes_toList, ← h.flatten_eq, bytes_flatten, List.flatMap_map]
  have hscan := h.scanFrom_eq []
  rw [endOf, List.nil_append, ← lineBehind_eq] at hscan
  exact ⟨pieces, h, fun _ h' => h.unique h', hbytes, h.closed, h.not_end, hscan,
    Scanner.answers_new source⟩

/-- A character of two bytes that begins nothing, a mark of two characters, and a string with a line
end that is not closed. -/
theorem scan_partition_stray :
    (Scanner.new "é<=\"\n").answers 5 = some
      [some (.fault 1 (.unexpected 'é')), some (.token ⟨.mark .lessEqual, "<=", 1⟩),
        some (.fault 2 .unterminatedString), some (.token ⟨.endOfSource, "", 2⟩), none] := by
  obtain ⟨pieces, -, -, -, -, -, -, hanswers⟩ := scan_partition "é<=\"\n"
  have hscan : scan "é<=\"\n" =
      [.fault 1 (.unexpected 'é'), .token ⟨.mark .lessEqual, "<=", 1⟩,
        .fault 2 .unterminatedString, .token ⟨.endOfSource, "", 2⟩] := by cbv
  rw [hanswers 5, hscan]
  rfl

end Lox
