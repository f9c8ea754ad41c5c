/-
Seams.

A text that is laid out behind another one, on a line of its own, is scanned as if it stood alone:
the line end between the two ends every segment but a string that is never closed.

* `Scans` — a text without lexical faults, and its tokens;
* `scanTokens_of_scans`, `exists_scans` — these are the texts that scan without a fault;
* `Scans.append` — the tokens of two texts, one of which stands behind the other;
* `Scans.raise`, `Scans.feeds` — the tokens of a text that begins further down;
* `Scans.ret` — a carriage return at the end of a text makes no difference.

Design notes: a fault has no case in `Scans`, so a string that is not closed does not arise in the
proofs about seams.
-/
import Lox.Token.Scan
import Mathlib.Data.List.TakeWhile

namespace Lox

/-- A token on another line. -/
def Token.relabel (f : Nat → Nat) (t : Token) : Token :=
  { t with line := f t.line }

/-! ### Segments in front of a blank -/

theorem takeWhile_append_cons {p : Char → Bool} {x : Char} (hx : p x = false) (s cs : List Char) :
    (s ++ x :: cs).takeWhile p = s.takeWhile p := by
  induction s with
  | nil => exact List.takeWhile_cons_of_neg (by rw [hx]; exact Bool.false_ne_true)
  | cons c s ih => rw [List.cons_append, List.takeWhile_cons, List.takeWhile_cons, ih]

theorem dropWhile_append_cons {p : Char → Bool} {x : Char} (hx : p x = false) (s cs : List Char) :
    (s ++ x :: cs).dropWhile p = s.dropWhile p ++ x :: cs := by
  induction s with
  | nil => exact List.dropWhile_cons_of_neg (by rw [hx]; exact Bool.false_ne_true)
  | cons c s ih =>
    rw [List.cons_append, List.dropWhile_cons, List.dropWhile_cons]
    split
    · exact ih
    · rfl

theorem takeWhile_dropWhile_append {p : Char → Bool} {s rest : List Char} {x : Char}
    (h : s.dropWhile p = x :: rest) (cs : List Char) :
    (s ++ cs).takeWhile p = s.takeWhile p ∧ (s ++ cs).dropWhile p = x :: (rest ++ cs) := by
  induction s with
  | nil => cases h
  | cons c s ih =>
    rw [List.dropWhile_cons] at h
    rw [List.cons_append, List.takeWhile_cons, List.takeWhile_cons, List.dropWhile_cons]
    split
    · next hc =>
      rw [if_pos hc] at h
      rw [(ih h).1, (ih h).2]
      exact ⟨rfl, rfl⟩
    · next hc =>
      rw [if_neg hc] at h
      rw [List.cons.inj h |>.1, List.cons.inj h |>.2]
      exact ⟨rfl, rfl⟩

namespace Segment

/-- The segment, with more text behind it. -/
def followedBy (s : Segment) (cs : List Char) : Segment :=
  { s with rest := s.rest ++ cs }

theorem growing_of_ne (short long : Mark) {c : Char} (hc : c ≠ '=') (cs : List Char) :
    growing short long (c :: cs) = single (.token (.mark short)) (c :: cs) := by
  unfold growing
  split
  · next h => exact absurd (List.cons.inj h).1 hc
  · rfl

theorem slash_of_ne {c : Char} (hc : c ≠ '/') (cs : List Char) :
    slash (c :: cs) = single (.token (.mark .slash)) (c :: cs) := by
  unfold slash
  split
  · next h => exact absurd (List.cons.inj h).1 hc
  · rfl

section Blank

variable {x : Char} (hx : isBlank x = true)

include hx

theorem isBlank_cases : x = ' ' ∨ x = '\r' ∨ x = '\t' ∨ x = '\n' := by
  unfold isBlank at hx
  simpa [or_assoc] using hx

theorem growing_blank (short long : Mark) (s cs : List Char) :
    growing short long (s ++ x :: cs) = (growing short long s).followedBy (x :: cs) := by
  cases s with
  | nil =>
    obtain rfl | rfl | rfl | rfl := isBlank_cases hx <;> rfl
  | cons c s =>
    by_cases hc : c = '='
    · subst hc
      rfl
    · rw [List.cons_append, growing_of_ne short long hc, growing_of_ne short long hc]
      rfl

theorem name_blank (c : Char) (s cs : List Char) :
    name c (s ++ x :: cs) = (name c s).followedBy (x :: cs) := by
  have hp : continuesName x = false := by
    obtain rfl | rfl | rfl | rfl := isBlank_cases hx <;> decide
  unfold name whileTrue followedBy
  rw [takeWhile_append_cons hp, dropWhile_append_cons hp]

theorem number_blank (c : Char) (s cs : List Char) :
    number c (s ++ x :: cs) = (number c s).followedBy (x :: cs) := by
  have hp : x.isDigit = false := by
    obtain rfl | rfl | rfl | rfl := isBlank_cases hx <;> decide
  have hpoint : x ≠ '.' := by
    obtain rfl | rfl | rfl | rfl := isBlank_cases hx <;> decide
  unfold number
  simp only
  rw [takeWhile_append_cons hp, dropWhile_append_cons hp]
  -- what stands behind the first digits decides whether there is a point
  rcases s.dropWhile Char.isDigit with _ | ⟨point, _ | ⟨d, rest⟩⟩
  · rw [List.nil_append]
    split
    · next h => exact absurd (List.cons.inj h).1 hpoint
    · rfl
  · by_cases hdot : point = '.'
    · subst hdot
      simp [followedBy, hp]
    · split
      · next h => exact absurd (List.cons.inj h).1 hdot
      · split
        · next h => exact absurd (List.cons.inj h).1 hdot
        · rfl
  · by_cases hdot : point = '.'
    · subst hdot
      simp only [List.cons_append]
      rw [takeWhile_append_cons hp, dropWhile_append_cons hp]
      split <;> rfl
    · split
      · next h => exact absurd (List.cons.inj h).1 hdot
      · split
        · next h => exact absurd (List.cons.inj h).1 hdot
        · rfl

end Blank

/-- A closed string ends where it does whatever follows it. -/
theorem string_append_of_closed {s : List Char} (h : (string s).shape ≠ .openString)
    (cs : List Char) : string (s ++ cs) = (string s).followedBy cs := by
  unfold string at h ⊢
  cases hs : s.dropWhile (· != '"') with
  | nil =>
    rw [hs] at h
    exact absurd rfl h
  | cons quote rest =>
    rw [(takeWhile_dropWhile_append hs cs).1, (takeWhile_dropWhile_append hs cs).2]
    rfl

/-- A line end ends a comment. -/
theorem slash_lineEnd (s cs : List Char) :
    slash (s ++ '\n' :: cs) = (slash s).followedBy ('\n' :: cs) := by
  cases s with
  | nil => rfl
  | cons c s =>
    by_cases hc : c = '/'
    · subst hc
      unfold slash
      simp only [List.cons_append]
      rw [takeWhile_append_cons (by rfl), dropWhile_append_cons (by rfl)]
      rfl
    · rw [List.cons_append, slash_of_ne hc, slash_of_ne hc]
      rfl

/-- A carriage return behind a comment up to the end of the text is one more character of it. -/
theorem slash_return (s : List Char) :
    slash (s ++ ['\r']) = (slash s).followedBy ['\r'] ∨
      ((slash s).shape = .trivia ∧ (slash s).rest = [] ∧
        slash (s ++ ['\r']) = ⟨.trivia, (slash s).tail ++ ['\r'], []⟩) := by
  cases s with
  | nil => exact .inl rfl
  | cons c s =>
    by_cases hc : c = '/'
    · subst hc
      unfold slash
      simp only [List.cons_append]
      cases hs : s.dropWhile (· != '\n') with
      | nil =>
        have hall := List.dropWhile_eq_nil_iff.mp hs
        refine .inr ⟨trivial, rfl, ?_⟩
        rw [List.takeWhile_append_of_pos hall, List.dropWhile_append_of_pos hall,
          List.takeWhile_eq_self_iff.mpr hall]
        rfl
      | cons x rest =>
        refine .inl ?_
        rw [(takeWhile_dropWhile_append hs _).1, (takeWhile_dropWhile_append hs _).2]
        rfl
    · refine .inl ?_
      rw [List.cons_append, slash_of_ne hc, slash_of_ne hc]
      rfl

/-- A segment that is no open string ends where it does, if a blank follows that a slash does not
swallow. -/
theorem read_blank {x : Char} (hx : isBlank x = true) {c : Char} {s cs : List Char}
    (hopen : (read c s).shape ≠ .openString)
    (hslash : c = '/' → slash (s ++ x :: cs) = (slash s).followedBy (x :: cs)) :
    read c (s ++ x :: cs) = (read c s).followedBy (x :: cs) := by
  unfold read at hopen ⊢
  split
  · rfl
  · exact growing_blank hx _ _ s cs
  · next hsingle hgrowing =>
    rw [hsingle, hgrowing] at hopen
    simp only at hopen
    by_cases hblank : isBlank c = true
    · rw [if_pos hblank, if_pos hblank]
      rfl
    rw [if_neg hblank] at hopen
    rw [if_neg hblank, if_neg hblank]
    by_cases hc : (c == '/') = true
    · rw [if_pos hc, if_pos hc]
      exact hslash (eq_of_beq hc)
    rw [if_neg hc] at hopen
    rw [if_neg hc, if_neg hc]
    by_cases hquote : (c == '"') = true
    · rw [if_pos hquote] at hopen
      rw [if_pos hquote, if_pos hquote]
      exact string_append_of_closed hopen _
    rw [if_neg hquote, if_neg hquote]
    split
    · exact number_blank hx c s cs
    split
    · exact name_blank hx c s cs
    · rfl

theorem read_lineEnd {c : Char} {s tail rest : List Char} {shape : Shape}
    (h : read c s = ⟨shape, tail, rest⟩) (hopen : shape ≠ .openString) (cs : List Char) :
    read c (s ++ '\n' :: cs) = ⟨shape, tail, rest ++ '\n' :: cs⟩ := by
  rw [read_blank (by decide) (by rw [h]; exact hopen) fun _ => slash_lineEnd s cs, h]
  rfl

theorem read_return {c : Char} {s tail rest : List Char} {shape : Shape}
    (h : read c s = ⟨shape, tail, rest⟩) (hopen : shape ≠ .openString) :
    read c (s ++ ['\r']) = ⟨shape, tail, rest ++ ['\r']⟩ ∨
      shape = .trivia ∧ rest = [] ∧ read c (s ++ ['\r']) = ⟨.trivia, tail ++ ['\r'], []⟩ := by
  by_cases hslash : c = '/' → slash (s ++ ['\r']) = (slash s).followedBy ['\r']
  · rw [read_blank (by decide) (by rw [h]; exact hopen) hslash, h]
    exact .inl rfl
  · obtain ⟨rfl, hne⟩ := Classical.not_imp.mp hslash
    have hread : slash s = ⟨shape, tail, rest⟩ := h
    have hslash := (slash_return s).resolve_left hne
    rw [hread] at hslash
    exact .inr hslash

/-- No segment is the end of the source. -/
theorem read_not_end {c : Char} {cs tail rest : List Char} {kind : Kind}
    (h : read c cs = ⟨.token kind, tail, rest⟩) : kind.isEnd = false := by
  unfold read at h
  split at h
  · cases h
    rfl
  · unfold growing at h
    split at h <;> cases h <;> rfl
  split at h
  · cases h
  split at h
  · unfold slash at h
    split at h
    · cases h
    · cases h
      rfl
  split at h
  · unfold string at h
    split at h
    · cases h
    · cases h
      rfl
  split at h
  · unfold number at h
    simp only at h
    split at h
    · split at h <;> cases h <;> rfl
    · cases h
      rfl
  split at h
  · cases h
    unfold nameKind
    split <;> rfl
  · cases h

end Segment

/-! ### Texts without lexical faults -/

/-- The text that begins on line `line` has no lexical fault, and its tokens are these. -/
inductive Scans : (line : Nat) → List Char → List Token → Prop where
  | nil (line : Nat) : Scans line [] []
  | trivia {line : Nat} {c : Char} {cs tail rest : List Char} {ts : List Token}
      (hread : Segment.read c cs = ⟨.trivia, tail, rest⟩)
      (h : Scans (lineAfter line (c :: tail)) rest ts) : Scans line (c :: cs) ts
  | token {line : Nat} {c : Char} {cs tail rest : List Char} {kind : Kind} {ts : List Token}
      (hread : Segment.read c cs = ⟨.token kind, tail, rest⟩)
      (h : Scans (lineAfter line (c :: tail)) rest ts) :
      Scans line (c :: cs) (⟨kind, String.ofList (c :: tail), lineAfter line (c :: tail)⟩ :: ts)

/-- The end of a text that begins on line `line`. -/
def endOf (line : Nat) (cs : List Char) : Token :=
  ⟨.endOfSource, "", lineAfter line cs⟩

theorem lineAfter_add (line k : Nat) (cs : List Char) :
    lineAfter (line + k) cs = lineAfter line cs + k := by
  unfold lineAfter
  omega

/-- Behind a segment a text goes on to its end. -/
theorem lineAfter_rest {c : Char} {cs tail rest : List Char} {shape : Shape}
    (h : Segment.read c cs = ⟨shape, tail, rest⟩) (line : Nat) :
    lineAfter (lineAfter line (c :: tail)) rest = lineAfter line (c :: cs) := by
  have happend := Segment.read_append c cs
  rw [h] at happend
  unfold lineAfter
  rw [← happend, Nat.add_assoc, ← List.count_append, List.cons_append]

theorem scanFrom_cons {c : Char} {cs tail rest : List Char} {shape : Shape}
    (h : Segment.read c cs = ⟨shape, tail, rest⟩) (line : Nat) :
    scanFrom line (c :: cs) =
      (Segment.item? c ⟨shape, tail, rest⟩ (lineAfter line (c :: tail))).toList ++
        scanFrom (lineAfter line (c :: tail)) rest := by
  rw [scanFrom]
  simp only [h]
  split
  · next hi =>
    rw [hi]
    rfl
  · next item hi =>
    rw [hi]
    rfl

namespace Scans

variable {line : Nat} {s : List Char} {ts : List Token}

theorem scanFrom_eq (h : Scans line s ts) :
    scanFrom line s = (ts ++ [endOf line s]).map Item.token := by
  induction h with
  | nil line => rw [scanFrom]; rfl
  | trivia hread h ih =>
    rw [scanFrom_cons hread, ih, endOf, endOf, lineAfter_rest hread]
    rfl
  | token hread h ih =>
    rw [scanFrom_cons hread, ih, endOf, endOf, lineAfter_rest hread]
    rfl

theorem not_end (h : Scans line s ts) : ∀ t ∈ ts, t.kind.isEnd = false := by
  induction h with
  | nil line => exact fun t ht => absurd ht List.not_mem_nil
  | trivia hread h ih => exact ih
  | token hread h ih => exact List.forall_mem_cons.mpr ⟨Segment.read_not_end hread, ih⟩

/-- The tokens of two texts, one of which stands behind the other. -/
theorem append (h : Scans line s ts) {cs : List Char} {us : List Token}
    (hcs : Scans (lineAfter line s + 1) cs us) : Scans line (s ++ '\n' :: cs) (ts ++ us) := by
  induction h with
  | nil line => exact .trivia rfl hcs
  | trivia hread h ih =>
    rw [← lineAfter_rest hread] at hcs
    exact .trivia (Segment.read_lineEnd hread Shape.noConfusion cs) (ih hcs)
  | token hread h ih =>
    rw [← lineAfter_rest hread] at hcs
    exact .token (Segment.read_lineEnd hread Shape.noConfusion cs) (ih hcs)

/-- The tokens of a text that begins further down. -/
theorem raise (h : Scans line s ts) (k : Nat) :
    Scans (line + k) s (ts.map (Token.relabel (· + k))) := by
  induction h with
  | nil line => exact .nil (line + k)
  | trivia hread h ih =>
    rw [← lineAfter_add] at ih
    exact .trivia hread ih
  | token hread h ih =>
    rw [← lineAfter_add] at ih
    have htoken := Scans.token hread ih
    rw [lineAfter_add] at htoken
    exact htoken

/-- Empty lines in front of a text only make it begin further down. -/
theorem feeds {k : Nat} (h : Scans (line + k) s ts) :
    Scans line (List.replicate k '\n' ++ s) ts := by
  induction k generalizing line with
  | zero => exact h
  | succ k ih =>
    have hnext : Scans (line + 1 + k) s ts := by rwa [Nat.add_assoc, Nat.add_comm 1 k]
    exact .trivia rfl (ih hnext)

/-- A carriage return at the end of a text makes no difference. -/
theorem ret (h : Scans line s ts) : Scans line (s ++ ['\r']) ts := by
  induction h with
  | nil line => exact .trivia rfl (.nil _)
  | trivia hread h ih =>
    obtain hret | ⟨-, rfl, hret⟩ := Segment.read_return hread Shape.noConfusion
    · exact .trivia hret ih
    · cases h
      exact .trivia hret (.nil _)
  | token hread h ih =>
    obtain hret | ⟨htrivia, -, -⟩ := Segment.read_return hread Shape.noConfusion
    · exact .token hret ih
    · cases htrivia

end Scans

theorem Segment.eq_of_shape {s : Segment} {shape : Shape} (h : s.shape = shape) :
    s = ⟨shape, s.tail, s.rest⟩ := by
  rw [← h]

/-- A text without lexical faults has its tokens. -/
theorem exists_scans {line : Nat} {s : List Char}
    (h : ∀ item ∈ scanFrom line s, item.diagnostic? = none) : ∃ ts, Scans line s ts := by
  fun_induction scanFrom line s with
  | case1 line => exact ⟨[], .nil line⟩
  | case2 line c cs segment line' _ hi ih =>
    obtain ⟨ts, hts⟩ := ih h
    unfold Segment.item? at hi
    split at hi
    · next hshape => exact ⟨ts, .trivia (Segment.eq_of_shape hshape) hts⟩
    all_goals cases hi
  | case3 line c cs segment line' _ item hi ih =>
    obtain ⟨hitem, hrest⟩ := List.forall_mem_cons.mp h
    obtain ⟨ts, hts⟩ := ih hrest
    unfold Segment.item? at hi
    split at hi
    · cases hi
    · next kind hshape => exact ⟨_, .token (Segment.eq_of_shape hshape) hts⟩
    all_goals
      cases hi
      cases hitem

/-- A source without lexical faults. -/
theorem scans_of_scanFaults {source : String} (h : scanFaults source = []) :
    ∃ ts, Scans 1 source.toList ts :=
  exists_scans (List.filterMap_eq_nil_iff.mp h)

theorem Scans.scanFaults_eq {source : String} {ts : List Token} (h : Scans 1 source.toList ts) :
    scanFaults source = [] := by
  unfold scanFaults scan
  rw [h.scanFrom_eq]
  simp [Item.diagnostic?]

theorem Scans.scanTokens_eq {source : String} {ts : List Token} (h : Scans 1 source.toList ts) :
    scanTokens source = ts ++ [endOf 1 source.toList] := by
  unfold scanTokens scan
  rw [h.scanFrom_eq, List.filterMap_map]
  exact List.filterMap_some

end Lox
