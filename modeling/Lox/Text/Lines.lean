/-
Lines.

`lines` splits a text behind each line end.  A line end is a line feed, or a carriage return and a
line feed, and belongs to no line; a text that ends with one has no empty line after it.

* `not_mem_of_mem_lines` — no line holds a line feed.

Design notes: the text may consist of characters or of bytes, so the two parts of a line end are
given.
-/
namespace Lox.Text

variable {α : Type} [DecidableEq α]

/-- A line without the carriage return at its end. -/
def dropReturn (ret : α) (line : List α) : List α :=
  if line.getLast? = some ret then line.dropLast else line

/-- The lines of a text of which `done` is already read, the latest first. -/
def linesFrom (feed ret : α) (done : List α) : List α → List (List α)
  | [] => if done.isEmpty then [] else [done.reverse]
  | c :: cs =>
    if c = feed then dropReturn ret done.reverse :: linesFrom feed ret [] cs
    else linesFrom feed ret (c :: done) cs

/-- The lines of a text. -/
def lines (feed ret : α) (text : List α) : List (List α) :=
  linesFrom feed ret [] text

theorem dropReturn_subset (ret : α) (line : List α) : dropReturn ret line ⊆ line := by
  unfold dropReturn
  split
  · exact List.dropLast_subset line
  · exact List.Subset.refl line

theorem not_mem_of_mem_linesFrom (feed ret : α) (done text : List α) (hdone : feed ∉ done)
    (line : List α) (h : line ∈ linesFrom feed ret done text) : feed ∉ line := by
  induction text generalizing done with
  | nil =>
    unfold linesFrom at h
    split at h
    · simp at h
    · rw [List.mem_singleton.mp h]
      simpa using hdone
  | cons c cs ih =>
    unfold linesFrom at h
    split at h
    · rcases List.mem_cons.mp h with rfl | h
      · exact fun hmem => hdone (List.mem_reverse.mp (dropReturn_subset ret _ hmem))
      · exact ih [] (by simp) h
    · next hc =>
      refine ih (c :: done) ?_ h
      simp [hdone, Ne.symm hc]

/-- No line holds a line feed. -/
theorem not_mem_of_mem_lines (feed ret : α) (text line : List α)
    (h : line ∈ lines feed ret text) : feed ∉ line :=
  not_mem_of_mem_linesFrom feed ret [] text (by simp) line h

end Lox.Text
