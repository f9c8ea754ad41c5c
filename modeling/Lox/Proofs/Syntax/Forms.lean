/-
Forms.

A form is a word, or a list of forms with a word for its head.  Its text has parentheses around each
list and a blank in front of each item, and it can be read in one way only: a word ends at the first
character that is no part of words, and a list at its own parenthesis.

* `Form.text` — the text of a form;
* `Form.Sound` — all words in a form are words, without blanks and parentheses;
* `Form.text_append_injective` — a form and the text behind it are known from the text of both;
* `Form.text_injective` — two sound forms with one text are the same form.

Design notes: what stands behind a form matters only where the form is a word,
which must not go on there.
-/
import Mathlib.Data.List.TakeWhile

namespace Lox

/-- A word, or a list with a head. -/
inductive Form where
  | word (s : String)
  | list (head : String) (items : List Form)

mutual

/-- The text of a form. -/
@[simp]
def Form.text : Form → List Char
  | .word s => s.toList
  | .list head items => '(' :: (head.toList ++ (Form.spaced items ++ [')']))

/-- The texts of items, each behind a blank. -/
@[simp]
def Form.spaced : List Form → List Char
  | [] => []
  | f :: fs => ' ' :: (f.text ++ Form.spaced fs)

end

/-- A character that may stand in a word. -/
def inWord (c : Char) : Bool :=
  c != ' ' && c != '(' && c != ')'

/-- A text without blanks and parentheses that is not empty. -/
structure IsWord (s : String) : Prop where
  ne : s.toList ≠ []
  inner : ∀ c ∈ s.toList, inWord c = true

/-- That a text is a word can be evaluated. -/
theorem isWord_of_all {s : String} (hne : s.toList.isEmpty = false)
    (hall : s.toList.all inWord = true) : IsWord s where
  ne := List.isEmpty_eq_false_iff.mp hne
  inner := List.all_eq_true.mp hall

/-- All characters of a kind may stand in words if blanks and parentheses are none of it. -/
theorem inWord_of {p : Char → Bool} (hblank : p ' ' = false) (hleft : p '(' = false)
    (hright : p ')' = false) {c : Char} (h : p c = true) : inWord c = true := by
  have hne {d : Char} (hd : p d = false) : (c != d) = true := by
    refine bne_iff_ne.mpr ?_
    rintro rfl
    exact Bool.false_ne_true (hd.symm.trans h)
  rw [inWord, hne hblank, hne hleft, hne hright]
  rfl

mutual

/-- All words in a form are words. -/
def Form.Sound : Form → Prop
  | .word s => IsWord s
  | .list head items => IsWord head ∧ Form.AllSound items

/-- All words in a list of forms are words. -/
def Form.AllSound : List Form → Prop
  | [] => True
  | f :: fs => f.Sound ∧ Form.AllSound fs

end

/-! ### Unique reading -/

/-- No word goes on with the text. -/
def Stops (cs : List Char) : Prop :=
  cs.takeWhile inWord = []

theorem stops_nil : Stops [] := rfl

theorem stops_cons {c : Char} {cs : List Char} (h : inWord c = false) : Stops (c :: cs) :=
  List.takeWhile_cons_of_neg (Bool.eq_false_iff.mp h)

/-- A word and what stops it. -/
theorem IsWord.append_injective {s t : String} {r r' : List Char} (hs : IsWord s) (ht : IsWord t)
    (hr : Stops r) (hr' : Stops r') (h : s.toList ++ r = t.toList ++ r') : s = t ∧ r = r' := by
  have htake := congrArg (List.takeWhile inWord) h
  rw [List.takeWhile_append_of_pos hs.inner, List.takeWhile_append_of_pos ht.inner, hr, hr',
    List.append_nil, List.append_nil] at htake
  rw [htake] at h
  exact ⟨String.toList_inj.mp htake, List.append_cancel_left h⟩

/-- No word begins like a list. -/
theorem IsWord.not_list {s : String} {r r' : List Char} (hs : IsWord s)
    (h : s.toList ++ r = '(' :: r') : False := by
  obtain ⟨c, tail, htext⟩ := List.exists_cons_of_ne_nil hs.ne
  have hc := hs.inner c (htext ▸ List.mem_cons_self ..)
  rw [htext] at h
  cases (List.cons.inj h).1
  cases hc

namespace Form

/-- No word goes on behind the items of a list or in front of one. -/
theorem stops_spaced (fs : List Form) (r : List Char) : Stops (spaced fs ++ ')' :: r) := by
  cases fs with
  | nil => exact stops_cons rfl
  | cons f fs => exact stops_cons rfl

theorem text_list_append (head : String) (items : List Form) (r : List Char) :
    (list head items).text ++ r = '(' :: (head.toList ++ (spaced items ++ ')' :: r)) := by
  simp

theorem spaced_cons_append (f : Form) (fs : List Form) (r : List Char) :
    spaced (f :: fs) ++ r = ' ' :: (f.text ++ (spaced fs ++ r)) := by
  simp

mutual

/-- A form and what stops it are known from their text. -/
theorem text_append_injective (f g : Form) (hf : f.Sound) (hg : g.Sound) {r r' : List Char}
    (hr : Stops r) (hr' : Stops r') (h : f.text ++ r = g.text ++ r') : f = g ∧ r = r' := by
  match f, g with
  | .word s, .word t =>
    obtain ⟨rfl, hrest⟩ := IsWord.append_injective hf hg hr hr' h
    exact ⟨rfl, hrest⟩
  | .word s, .list head items =>
    rw [text_list_append] at h
    exact (IsWord.not_list hf h).elim
  | .list head items, .word t =>
    rw [text_list_append] at h
    exact (IsWord.not_list hg h.symm).elim
  | .list head items, .list head' items' =>
    rw [text_list_append, text_list_append] at h
    -- the head stops at a blank or a parenthesis, and the items at the parenthesis of the list
    obtain ⟨rfl, hitems⟩ := IsWord.append_injective hf.1 hg.1 (stops_spaced items r)
      (stops_spaced items' r') (List.cons.inj h).2
    obtain ⟨rfl, hrest⟩ := spaced_append_injective items items' hf.2 hg.2 hitems
    exact ⟨rfl, hrest⟩

/-- The items of a list and what stands behind the list are known from their text. -/
theorem spaced_append_injective (fs gs : List Form) (hfs : AllSound fs) (hgs : AllSound gs)
    {r r' : List Char} (h : spaced fs ++ ')' :: r = spaced gs ++ ')' :: r') : fs = gs ∧ r = r' := by
  match fs, gs with
  | [], [] => exact ⟨rfl, (List.cons.inj h).2⟩
  | [], g :: gs => cases (List.cons.inj h).1
  | f :: fs, [] => cases (List.cons.inj h).1
  | f :: fs, g :: gs =>
    rw [spaced_cons_append, spaced_cons_append] at h
    -- what stands behind the first item stops it, be it a blank or the parenthesis
    obtain ⟨rfl, hothers⟩ := text_append_injective f g hfs.1 hgs.1 (stops_spaced fs r)
      (stops_spaced gs r') (List.cons.inj h).2
    obtain ⟨rfl, hrest⟩ := spaced_append_injective fs gs hfs.2 hgs.2 hothers
    exact ⟨rfl, hrest⟩

end

/-- Two sound forms with one text are the same form. -/
theorem text_injective {f g : Form} (hf : f.Sound) (hg : g.Sound) (h : f.text = g.text) :
    f = g := by
  refine (text_append_injective f g hf hg stops_nil stops_nil ?_).1
  rw [h]

end Form

end Lox
