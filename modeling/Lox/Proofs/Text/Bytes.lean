/-
The bytes of a text.

A text is kept as its UTF-8 bytes, and may be read byte by byte.  A character outside of ASCII is
two bytes or more, none of them below 128, so a question to which all of those have one answer can
be put to bytes as well as to characters.

* `bytes` — the bytes of a text;
* `utf8EncodeChar_cases` — a character is one byte below 128, or a first byte from 192 on
  with others from 128 on;
* `Bytewise` — a test that bytes and characters answer alike;
* `Bytewise.takeWhile` — where such a test stops in a text;
* `count_lineEnd` — the line ends of a text can be counted by bytes.
-/
import Mathlib.Data.List.TakeWhile
import Mathlib.Data.List.Basic
import Mathlib.Data.Char

namespace Lox

/-- The UTF-8 bytes of a text. -/
def bytes (cs : List Char) : List UInt8 :=
  cs.flatMap String.utf8EncodeChar

theorem bytes_cons (c : Char) (cs : List Char) :
    bytes (c :: cs) = String.utf8EncodeChar c ++ bytes cs := rfl

theorem bytes_append (cs ds : List Char) : bytes (cs ++ ds) = bytes cs ++ bytes ds :=
  List.flatMap_append ..

theorem bytes_flatten (texts : List (List Char)) : bytes texts.flatten = texts.flatMap bytes := by
  induction texts with
  | nil => rfl
  | cons text texts ih => rw [List.flatten_cons, bytes_append, ih, List.flatMap_cons]

theorem bytes_toList (s : String) : s.toUTF8.data.toList = bytes s.toList := by
  have hs : s.toUTF8 = (bytes s.toList).toByteArray := by
    conv_lhs => rw [← String.ofList_toList (s := s)]
    exact String.toByteArray_ofList
  rw [hs, List.toList_data_toByteArray]

/-- The bytes of a text are read as the text. -/
theorem fromUTF8?_bytes (cs : List Char) :
    String.fromUTF8? (bytes cs).toByteArray = some (String.ofList cs) := by
  unfold String.fromUTF8?
  rw [dif_pos ⟨cs, rfl⟩]
  rfl

/-- A byte below 128, or a first byte from 192 on and further bytes from 128 on. -/
theorem utf8EncodeChar_cases (c : Char) :
    (c.toNat < 128 ∧ ∃ b, String.utf8EncodeChar c = [b] ∧ b.toNat = c.toNat) ∨
      128 ≤ c.toNat ∧ ∃ b bs, String.utf8EncodeChar c = b :: bs ∧ 192 ≤ b.toNat ∧
        ∀ x ∈ bs, 128 ≤ x.toNat := by
  have hval : c.val.toNat = c.toNat := rfl
  unfold String.utf8EncodeChar
  simp only [hval]
  split
  · refine .inl ⟨by omega, _, rfl, ?_⟩
    rw [UInt8.toNat_ofNat']
    omega
  · right
    refine ⟨by omega, ?_⟩
    split
    · refine ⟨_, _, rfl, ?_, ?_⟩
      · rw [UInt8.toNat_ofNat']
        omega
      · simp only [List.mem_singleton, forall_eq, UInt8.toNat_ofNat']
        omega
    · split
      · refine ⟨_, _, rfl, ?_, ?_⟩
        · rw [UInt8.toNat_ofNat']
          omega
        · simp only [List.mem_cons, List.not_mem_nil, or_false, forall_eq_or_imp, forall_eq,
            UInt8.toNat_ofNat']
          omega
      · refine ⟨_, _, rfl, ?_, ?_⟩
        · rw [UInt8.toNat_ofNat']
          omega
        · simp only [List.mem_cons, List.not_mem_nil, or_false, forall_eq_or_imp, forall_eq,
            UInt8.toNat_ofNat']
          omega

theorem utf8EncodeChar_ne_nil (c : Char) : String.utf8EncodeChar c ≠ [] := by
  obtain ⟨-, b, h, -⟩ | ⟨-, b, bs, h, -⟩ := utf8EncodeChar_cases c
  · rw [h]
    exact List.cons_ne_nil b []
  · rw [h]
    exact List.cons_ne_nil b bs

theorem toNat_ofUInt8 (b : UInt8) : (Char.ofUInt8 b).toNat = b.toNat := rfl

theorem ofUInt8_eq {b : UInt8} {c : Char} (h : b.toNat = c.toNat) : Char.ofUInt8 b = c :=
  Char.toNat_inj.mp ((toNat_ofUInt8 b).trans h)

/-- The bytes of a character answer as the character does. -/
def Bytewise (p : Char → Bool) : Prop :=
  ∀ c, ∀ b ∈ String.utf8EncodeChar c, p (Char.ofUInt8 b) = p c

namespace Bytewise

variable {p : Char → Bool}

/-- It is enough that there is one answer outside of ASCII. -/
theorem of_const {v : Bool} (h : ∀ c : Char, 128 ≤ c.toNat → p c = v) : Bytewise p := by
  intro c b hb
  obtain ⟨-, x, henc, hx⟩ | ⟨hc, x, xs, henc, hx, hxs⟩ := utf8EncodeChar_cases c
  · rw [henc, List.mem_singleton] at hb
    rw [hb, ofUInt8_eq hx]
  · rw [henc] at hb
    have hlarge : 128 ≤ b.toNat := by
      rcases List.mem_cons.mp hb with rfl | hb
      · omega
      · exact hxs b hb
    rw [h c hc, h (Char.ofUInt8 b) (by rwa [toNat_ofUInt8])]

theorem eq_char {y : Char} (hy : y.toNat < 128) : Bytewise (· == y) := by
  refine of_const (v := false) fun c hc => beq_eq_false_iff_ne.mpr ?_
  rintro rfl
  omega

theorem ne_char {y : Char} (hy : y.toNat < 128) : Bytewise (· != y) := by
  refine of_const (v := true) fun c hc => bne_iff_ne.mpr ?_
  rintro rfl
  omega

theorem takeWhile (h : Bytewise p) (cs : List Char) :
    (bytes cs).takeWhile (fun b => p (Char.ofUInt8 b)) = bytes (cs.takeWhile p) := by
  induction cs with
  | nil => rfl
  | cons c cs ih =>
    rw [bytes_cons, List.takeWhile_cons]
    split
    · next hc =>
      have hall : ∀ b ∈ String.utf8EncodeChar c, p (Char.ofUInt8 b) = true := fun b hb => by
        rw [h c b hb, hc]
      rw [List.takeWhile_append_of_pos hall, ih, bytes_cons]
    · next hc =>
      -- the first byte of the character ends the stretch
      obtain ⟨b, bs, henc⟩ := List.exists_cons_of_ne_nil (utf8EncodeChar_ne_nil c)
      have hb : ¬ p (Char.ofUInt8 b) = true := by
        rw [h c b (by rw [henc]; exact List.mem_cons_self)]
        exact hc
      rw [henc, List.cons_append, List.takeWhile_cons, if_neg hb]
      rfl

end Bytewise

/-- A text has as many line ends as its bytes. -/
theorem count_lineEnd (cs : List Char) : (bytes cs).count 0x0A = cs.count '\n' := by
  induction cs with
  | nil => rfl
  | cons c cs ih =>
    rw [bytes_cons, List.count_append, ih, List.count_cons, Nat.add_comm]
    congr 1
    obtain ⟨-, b, henc, hb⟩ | ⟨hc, b, bs, henc, hb, hbs⟩ := utf8EncodeChar_cases c
    · rw [henc, List.count_singleton]
      have hiff : b = 0x0A ↔ c = '\n' := by
        rw [← UInt8.toNat_inj, ← Char.toNat_inj, hb]
        exact Iff.rfl
      by_cases hline : c = '\n'
      · rw [hiff.mpr hline, hline]
        rfl
      · rw [if_neg (fun h => hline (hiff.mp (eq_of_beq h))), if_neg (fun h => hline (eq_of_beq h))]
    · -- outside of ASCII there is no line end
      rw [henc, List.count_eq_zero.mpr, if_neg]
      · intro h
        rw [eq_of_beq h] at hc
        exact absurd hc (by decide)
      · intro h
        rcases List.mem_cons.mp h with h | h
        · rw [← h] at hb
          exact absurd hb (by decide)
        · exact absurd (hbs _ h) (by decide)

end Lox
