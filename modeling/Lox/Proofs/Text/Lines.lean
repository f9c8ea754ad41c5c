/-
Lines of bytes.

A dialogue splits bytes into lines and then reads each line as text.  A script reads all bytes as
text.  Both see the same lines, since no line end is part of a longer sequence of bytes.

* `Text.lines_layout` — a text is its lines, with line ends behind all but the last one;
* `Utf8.Decodes` — bytes, and the characters that they are read as;
* `Report.sourcesOf_lines` — the lines of bytes that are text are the lines of that text.
-/
import Lox.Command.Execute
import Mathlib.Data.List.Forall2

namespace Lox

namespace Text

variable {α : Type} [DecidableEq α] {feed : α}

/-! ### The layout of a text -/

/-- A line is what stands in front of a line feed, with a carriage return or without one. -/
theorem eq_dropReturn (ret : α) (line : List α) :
    line = dropReturn ret line ∨ line = dropReturn ret line ++ [ret] := by
  unfold dropReturn
  split
  · next h => exact .inr (List.dropLast_append_getLast? ret h).symm
  · exact .inl rfl

theorem linesFrom_layout (feed ret : α) (done text : List α) :
    ∃ (raws : List (List α)) (last : List α),
      done.reverse ++ text = raws.flatMap (· ++ [feed]) ++ last ∧
      linesFrom feed ret done text =
        raws.map (dropReturn ret) ++ if last = [] then [] else [last] := by
  induction text generalizing done with
  | nil =>
    refine ⟨[], done.reverse, by simp, ?_⟩
    cases done with
    | nil => rfl
    | cons x done => simp [linesFrom]
  | cons c text ih =>
    rw [linesFrom]
    by_cases hc : c = feed
    · obtain ⟨raws, last, htext, hlines⟩ := ih []
      rw [List.reverse_nil, List.nil_append] at htext
      refine ⟨done.reverse :: raws, last, ?_, ?_⟩
      · rw [List.flatMap_cons, List.append_assoc, List.append_assoc, ← htext, hc]
        rfl
      · rw [if_pos hc, hlines]
        rfl
    · obtain ⟨raws, last, htext, hlines⟩ := ih (c :: done)
      refine ⟨raws, last, ?_, ?_⟩
      · rw [← htext, List.reverse_cons, List.append_assoc]
        rfl
      · rw [if_neg hc, hlines]

/-- A text is its lines: those that end, each with what ends it, and a last one unless it is
empty. -/
theorem lines_layout (feed ret : α) (text : List α) :
    ∃ (raws : List (List α)) (last : List α), text = raws.flatMap (· ++ [feed]) ++ last ∧
      lines feed ret text = raws.map (dropReturn ret) ++ if last = [] then [] else [last] :=
  linesFrom_layout feed ret [] text

/-- What is before a line end goes to the line that is being read. -/
theorem linesFrom_append (ret : α) {taken : List α} (h : feed ∉ taken) (done text : List α) :
    linesFrom feed ret done (taken ++ text) = linesFrom feed ret (taken.reverse ++ done) text := by
  induction taken generalizing done with
  | nil => rfl
  | cons x taken ih =>
    have hx : x ≠ feed := fun hx => h (hx ▸ List.mem_cons_self)
    rw [List.cons_append, linesFrom, if_neg hx, ih fun ht => h (List.mem_cons_of_mem x ht),
      List.reverse_cons, List.append_assoc]
    rfl

namespace Utf8

/-! ### Single characters -/

theorem within_iff {low high b : UInt8} :
    within low high b = true ↔ low.toNat ≤ b.toNat ∧ b.toNat ≤ high.toNat := by
  unfold within
  rw [Bool.and_eq_true, decide_eq_true_iff, decide_eq_true_iff, UInt8.le_iff_toNat_le,
    UInt8.le_iff_toNat_le]

theorem continues_ge {b : UInt8} (h : continues b = true) : 128 ≤ b.toNat :=
  (within_iff.mp h).1

/-- The range of the second byte lies above all characters of one byte, and higher where the first
byte holds no bits of the value. -/
theorem second_low (first : UInt8) :
    128 ≤ (second first).1.toNat ∧ (second first).2.toNat < 192 ∧
      (first.toNat = 0xE0 → 160 ≤ (second first).1.toNat) ∧
      (first.toNat = 0xF0 → 144 ≤ (second first).1.toNat) := by
  unfold second
  simp only [← UInt8.toNat_inj, UInt8.toNat_ofNat]
  split_ifs
  all_goals simp_all

theorem announced_cases (first : UInt8) :
    (announced first = 1 ∧ first.toNat < 128) ∨
    (announced first = 2 ∧ 0xC2 ≤ first.toNat ∧ first.toNat ≤ 0xDF) ∨
    (announced first = 3 ∧ 0xE0 ≤ first.toNat ∧ first.toNat ≤ 0xEF) ∨
    (announced first = 4 ∧ 0xF0 ≤ first.toNat ∧ first.toNat ≤ 0xF4) ∨ announced first = 0 := by
  unfold announced within
  simp only [UInt8.lt_iff_toNat_lt, UInt8.le_iff_toNat_le, Bool.and_eq_true, decide_eq_true_iff,
    UInt8.toNat_ofNat]
  split_ifs
  all_goals simp_all

section Values

variable {first b : UInt8} (hb : within (second first).1 (second first).2 b = true)

theorem extend_two (h : announced first = 2) (b : UInt8) :
    128 ≤ first.toNat ∧ 128 ≤ extend (first.toNat % 32) b := by
  have hfirst := announced_cases first
  unfold extend
  omega

include hb

theorem second_ge : 128 ≤ b.toNat :=
  Nat.le_trans (second_low first).1 (within_iff.mp hb).1

theorem extend_three (h : announced first = 3) (c : UInt8) :
    128 ≤ first.toNat ∧ 128 ≤ extend (extend (first.toNat % 16) b) c := by
  have hfirst := announced_cases first
  obtain ⟨-, hhigh, hlow, -⟩ := second_low first
  have hb := within_iff.mp hb
  unfold extend
  omega

theorem extend_four (h : announced first = 4) (c d : UInt8) :
    128 ≤ first.toNat ∧ 128 ≤ extend (extend (extend (first.toNat % 8) b) c) d := by
  have hfirst := announced_cases first
  obtain ⟨-, hhigh, -, hlow⟩ := second_low first
  have hb := within_iff.mp hb
  unfold extend
  omega

end Values

theorem toNat_ofNat_small {n : Nat} (hn : n < 128) : (Char.ofNat n).toNat = n := by
  unfold Char.ofNat
  rw [dif_pos (.inl (by omega))]
  rfl

/-- A value above all characters of one byte is no such character. -/
theorem ofNat_ne {n : Nat} (hn : 128 ≤ n) {c : Char} (hc : 0 < c.toNat ∧ c.toNat < 128) :
    Char.ofNat n ≠ c := by
  rintro rfl
  have hval : (Char.ofNat n).toNat = n ∨ (Char.ofNat n).toNat = 0 := by
    unfold Char.ofNat
    by_cases hv : n.isValidChar
    · rw [dif_pos hv]
      exact .inl rfl
    · rw [dif_neg hv]
      exact .inr rfl
  omega

/-- A character is read off one byte, or off several bytes above all characters of one byte. -/
theorem readOne_read {first : UInt8} {rest r : List UInt8} {c : Char}
    (h : readOne first rest = .read c r) :
    ∃ taken, rest = taken ++ r ∧ (∀ r', readOne first (taken ++ r') = .read c r') ∧
      ((taken = [] ∧ first.toNat < 128 ∧ c = Char.ofNat first.toNat) ∨
        ((∀ b ∈ first :: taken, 128 ≤ b.toNat) ∧ ∃ n, 128 ≤ n ∧ c = Char.ofNat n)) := by
  unfold readOne at h
  simp only at h
  split at h
  · next hone =>
    -- a character of one byte
    cases h
    refine ⟨[], rfl, fun r' => ?_, .inl ⟨rfl, ?_, rfl⟩⟩
    · unfold readOne
      simp only [hone]
      rfl
    · have hfirst := announced_cases first
      omega
  · cases h
  · next b r htwo =>
    -- of two bytes
    split at h
    · next hb =>
      cases h
      have hge := extend_two htwo b
      refine ⟨[b], rfl, fun r' => ?_, .inr ⟨?_, _, hge.2, rfl⟩⟩
      · unfold readOne
        simp [htwo, hb]
      · simp [hge.1, second_ge hb]
    · cases h
  · cases h
  · next b r hthree =>
    -- of three bytes
    split at h
    · next hb =>
      split at h
      · cases h
      · next c r =>
        split at h
        · next hc =>
          cases h
          have hge := extend_three hb hthree c
          refine ⟨[b, c], rfl, fun r' => ?_, .inr ⟨?_, _, hge.2, rfl⟩⟩
          · unfold readOne
            simp [hthree, hb, hc]
          · simp [hge.1, second_ge hb, continues_ge hc]
        · cases h
    · cases h
  · cases h
  · next b r hfour =>
    -- of four bytes
    split at h
    · next hb =>
      split at h
      · cases h
      · next c r =>
        split at h
        · next hc =>
          split at h
          · cases h
          · next d r =>
            split at h
            · next hd =>
              cases h
              have hge := extend_four hb hfour c d
              refine ⟨[b, c, d], rfl, fun r' => ?_, .inr ⟨?_, _, hge.2, rfl⟩⟩
              · unfold readOne
                simp [hfour, hb, hc, hd]
              · simp [hge.1, second_ge hb, continues_ge hc, continues_ge hd]
            · cases h
        · cases h
    · cases h
  · cases h

/-! ### Texts -/

/-- Bytes, and the characters that they are read as. -/
inductive Decodes : List UInt8 → List Char → Prop where
  | nil : Decodes [] []
  | cons {first : UInt8} {rest r : List UInt8} {c : Char} {cs : List Char}
      (hread : readOne first rest = .read c r) (h : Decodes r cs) :
      Decodes (first :: rest) (c :: cs)

theorem length_of_readOne {first : UInt8} {rest r : List UInt8} {c : Char}
    (h : readOne first rest = .read c r) : r.length ≤ rest.length := by
  obtain ⟨taken, rfl, -⟩ := readOne_read h
  rw [List.length_append]
  exact Nat.le_add_left ..

theorem Decodes.append {bytes bytes' : List UInt8} {cs cs' : List Char} (h : Decodes bytes cs)
    (h' : Decodes bytes' cs') : Decodes (bytes ++ bytes') (cs ++ cs') := by
  induction h with
  | nil => exact h'
  | @cons first rest r c cs hread h ih =>
    obtain ⟨taken, rfl, hlocal, -⟩ := readOne_read hread
    have hread' := hlocal (r ++ bytes')
    rw [← List.append_assoc] at hread'
    exact .cons hread' ih

theorem Decodes.decodeFrom_eq {bytes : List UInt8} {cs : List Char} (h : Decodes bytes cs)
    {limit : Nat} (hlimit : bytes.length ≤ limit) (start : Nat) (done : List Char) :
    decodeFrom limit start done bytes = .ok (done.reverse ++ cs) := by
  induction h generalizing limit start done with
  | nil => cases limit <;> simp [decodeFrom]
  | @cons first rest r c cs hread h ih =>
    rw [List.length_cons] at hlimit
    obtain ⟨limit, rfl⟩ : ∃ j, limit = j + 1 := ⟨limit - 1, by omega⟩
    have hlength := length_of_readOne hread
    rw [decodeFrom, hread]
    simp only
    rw [ih (by omega), List.reverse_cons, List.append_assoc]
    rfl

theorem decodes_of_decodeFrom {limit start : Nat} {done cs : List Char} {bytes : List UInt8}
    (hlimit : bytes.length ≤ limit) (h : decodeFrom limit start done bytes = .ok cs) :
    ∃ cs', cs = done.reverse ++ cs' ∧ Decodes bytes cs' := by
  induction limit generalizing start done bytes with
  | zero =>
    rw [List.eq_nil_of_length_eq_zero (Nat.le_zero.mp hlimit)] at h ⊢
    cases h
    exact ⟨[], (List.append_nil _).symm, .nil⟩
  | succ limit ih =>
    cases bytes with
    | nil =>
      cases h
      exact ⟨[], (List.append_nil _).symm, .nil⟩
    | cons first rest =>
      rw [List.length_cons] at hlimit
      rw [decodeFrom] at h
      cases hread : readOne first rest with
      | read c r =>
        rw [hread] at h
        have hlength := length_of_readOne hread
        obtain ⟨cs', rfl, hd⟩ := ih (by omega) h
        refine ⟨c :: cs', ?_, .cons hread hd⟩
        rw [List.reverse_cons, List.append_assoc]
        rfl
      | wrong length =>
        rw [hread] at h
        cases h
      | short =>
        rw [hread] at h
        cases h

theorem decode_iff {bytes : List UInt8} {cs : List Char} :
    decode bytes = .ok cs ↔ Decodes bytes cs := by
  constructor
  · intro h
    obtain ⟨cs', rfl, hd⟩ := decodes_of_decodeFrom (Nat.le_refl _) h
    exact hd
  · intro h
    exact h.decodeFrom_eq (Nat.le_refl _) 0 []

theorem Decodes.eq_nil_iff {bytes : List UInt8} {cs : List Char} (h : Decodes bytes cs) :
    bytes = [] ↔ cs = [] := by
  cases h with
  | nil => simp
  | cons hread h => simp

/-! ### Lines of texts -/

/-- A byte that is a character by itself, other than zero. -/
structure Plain (b : UInt8) (x : Char) : Prop where
  pos : 0 < b.toNat
  small : b.toNat < 128
  eq : x = Char.ofNat b.toNat

theorem plain_feed : Plain 0x0A '\n' := ⟨by decide, by decide, rfl⟩

theorem plain_return : Plain 0x0D '\r' := ⟨by decide, by decide, rfl⟩

section Plain

variable {b : UInt8} {x : Char} (hb : Plain b x)

include hb

/-- A byte that is a character by itself is in no longer sequence. -/
theorem readOne_apart {first : UInt8} {rest r : List UInt8} {c : Char}
    (h : readOne first rest = .read c r) :
    ∃ taken, rest = taken ++ r ∧ Decodes (first :: taken) [c] ∧
      ((taken = [] ∧ first = b ∧ c = x) ∨ (b ∉ first :: taken ∧ c ≠ x)) := by
  obtain ⟨taken, rfl, hlocal, hcases⟩ := readOne_read h
  have hd : Decodes (first :: taken) [c] := by
    have hread := hlocal []
    rw [List.append_nil] at hread
    exact .cons hread .nil
  refine ⟨taken, rfl, hd, ?_⟩
  have hx := toNat_ofNat_small hb.small
  rw [← hb.eq] at hx
  obtain ⟨rfl, hsmall, rfl⟩ | ⟨hge, n, hn, rfl⟩ := hcases
  · by_cases hfirst : first = b
    · exact .inl ⟨rfl, hfirst, by rw [hfirst, hb.eq]⟩
    · refine .inr ⟨by simpa using Ne.symm hfirst, fun hc => hfirst (UInt8.toNat_inj.mp ?_)⟩
      rw [← toNat_ofNat_small hsmall, hc, hx]
  · refine .inr ⟨fun hmem => ?_, ofNat_ne hn (by rw [hx]; exact ⟨hb.pos, hb.small⟩)⟩
    exact absurd hb.small (Nat.not_lt.mpr (hge b hmem))

/-- Bytes end with a byte of this kind if and only if their characters end with its character. -/
theorem Decodes.ends {bytes : List UInt8} {cs : List Char} (h : Decodes bytes cs) :
    (∃ bytes' cs', bytes = bytes' ++ [b] ∧ cs = cs' ++ [x] ∧ Decodes bytes' cs') ∨
      (bytes.getLast? ≠ some b ∧ cs.getLast? ≠ some x) := by
  induction h with
  | nil => exact .inr ⟨by simp, by simp⟩
  | @cons first rest r c cs hread h ih =>
    obtain ⟨taken, rfl, hd, hcases⟩ := readOne_apart hb hread
    obtain ⟨r', cs', rfl, rfl, hd'⟩ | ⟨hr, hcs⟩ := ih
    · exact .inl ⟨first :: taken ++ r', c :: cs', by simp, rfl, hd.append hd'⟩
    · by_cases hnil : r = []
      · have hcs := h.eq_nil_iff.mp hnil
        subst hnil hcs
        obtain ⟨rfl, rfl, rfl⟩ | ⟨hmem, hc⟩ := hcases
        · exact .inl ⟨[], [], rfl, rfl, .nil⟩
        · rw [List.append_nil]
          exact .inr ⟨fun hlast => hmem (List.mem_of_getLast? hlast), by simpa using hc⟩
      · have hcsnil : cs ≠ [] := fun hcs => hnil (h.eq_nil_iff.mpr hcs)
        refine .inr ⟨?_, ?_⟩
        · rwa [← List.cons_append, List.getLast?_append_of_ne_nil _ hnil]
        · rwa [← List.singleton_append, List.getLast?_append_of_ne_nil _ hcsnil]

end Plain

theorem Decodes.dropReturn {bytes : List UInt8} {cs : List Char} (h : Decodes bytes cs) :
    Decodes (Text.dropReturn 0x0D bytes) (Text.dropReturn '\r' cs) := by
  unfold Text.dropReturn
  obtain ⟨bytes', cs', rfl, rfl, hd⟩ | ⟨hbytes, hcs⟩ := h.ends plain_return
  · rw [List.getLast?_concat, List.getLast?_concat, if_pos rfl, if_pos rfl, List.dropLast_concat,
      List.dropLast_concat]
    exact hd
  · rw [if_neg hbytes, if_neg hcs]
    exact h

theorem Decodes.linesFrom {bytes done : List UInt8} {cs done' : List Char} (h : Decodes bytes cs)
    (hdone : Decodes done.reverse done'.reverse) :
    List.Forall₂ Decodes (Text.linesFrom 0x0A 0x0D done bytes)
      (Text.linesFrom '\n' '\r' done' cs) := by
  induction h generalizing done done' with
  | nil =>
    unfold Text.linesFrom
    have hnil := hdone.eq_nil_iff
    rw [List.reverse_eq_nil_iff, List.reverse_eq_nil_iff] at hnil
    by_cases hd : done = []
    · rw [hd, hnil.mp hd]
      exact .nil
    · rw [if_neg (by simpa using hd), if_neg (by simpa using fun h => hd (hnil.mpr h))]
      exact .cons hdone .nil
  | @cons first rest r c cs hread h ih =>
    obtain ⟨taken, rfl, hd, ⟨rfl, rfl, rfl⟩ | ⟨hmem, hc⟩⟩ := readOne_apart plain_feed hread
    · exact .cons hdone.dropReturn (ih .nil)
    · have hmem' : '\n' ∉ [c] := by simpa using Ne.symm hc
      have hbytes := Text.linesFrom_append 0x0D hmem done r
      have hchars := Text.linesFrom_append '\r' hmem' done' cs
      rw [List.cons_append] at hbytes hchars
      rw [hbytes, ← List.nil_append cs, hchars]
      refine ih ?_
      rw [List.reverse_append, List.reverse_append, List.reverse_reverse, List.reverse_reverse]
      exact hdone.append hd

end Utf8

end Text

/-- Lines that are text are read one by one. -/
theorem Report.sourcesOf_eq {lines : List (List UInt8)} {texts : List (List Char)}
    (h : List.Forall₂ Text.Utf8.Decodes lines texts) :
    sourcesOf lines = (texts.map String.ofList, false) := by
  induction h with
  | nil => rfl
  | cons hline _ ih =>
    rw [sourcesOf, sourceOf, Text.Utf8.decode_iff.mpr hline]
    simp only [Except.map, ih]
    rfl

/-- The lines of bytes that are text are the lines of that text. -/
theorem Report.sourcesOf_lines {input : List UInt8} {text : String}
    (h : sourceOf input = .ok text) :
    sourcesOf (Text.lines 0x0A 0x0D input) =
      ((Text.lines '\n' '\r' text.toList).map String.ofList, false) := by
  unfold sourceOf at h
  cases hd : Text.Utf8.decode input with
  | error fault =>
    rw [hd] at h
    cases h
  | ok cs =>
    rw [hd] at h
    cases h
    rw [String.toList_ofList]
    exact sourcesOf_eq ((Text.Utf8.decode_iff.mp hd).linesFrom .nil)

end Lox
