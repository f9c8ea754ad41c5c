/-
Tables of names.

A `NameTable` holds at most one entry for a name, in the order in which the names first came.

* `find?_insert` — after an insertion the name has the new value and all others what they had;
* `keys_insert_of_mem` — writing to a present name moves nothing.
-/
namespace Lox

/-- Entries for names. -/
abbrev NameTable (α : Type) := List (String × α)

namespace NameTable

variable {α : Type}

/-- The entry for a name. -/
def find? : NameTable α → String → Option α
  | [], _ => none
  | (key, a) :: t, name => if key = name then some a else find? t name

/-- The table has an entry for a name. -/
def contains (t : NameTable α) (name : String) : Bool :=
  (t.find? name).isSome

/-- The table with an entry for a name, in place of the one it may have had. -/
def insert : NameTable α → String → α → NameTable α
  | [], name, a => [(name, a)]
  | (key, b) :: t, name, a => if key = name then (key, a) :: t else (key, b) :: insert t name a

/-- The names of a table. -/
def keys (t : NameTable α) : List String :=
  t.map Prod.fst

@[simp] theorem find?_nil (name : String) : find? ([] : NameTable α) name = none := rfl

/-- After an insertion the name has the new value and all others what they had. -/
theorem find?_insert (t : NameTable α) (name other : String) (a : α) :
    (t.insert name a).find? other = if name = other then some a else t.find? other := by
  induction t with
  | nil => rfl
  | cons e t ih =>
    obtain ⟨key, b⟩ := e
    by_cases hk : key = name
    · subst hk
      by_cases hko : key = other <;> simp [insert, find?, hko]
    · simp only [insert, hk, if_false, find?, ih]
      by_cases hko : key = other
      · subst hko
        simp [Ne.symm hk]
      · simp [hko]

@[simp] theorem contains_insert (t : NameTable α) (name other : String) (a : α) :
    (t.insert name a).contains other = (decide (name = other) || t.contains other) := by
  unfold contains
  rw [find?_insert]
  by_cases h : name = other <;> simp [h]

/-- A table has an entry for exactly its names. -/
theorem contains_iff_mem_keys (t : NameTable α) (name : String) :
    t.contains name = true ↔ name ∈ t.keys := by
  induction t with
  | nil => simp [contains, keys]
  | cons e t ih =>
    obtain ⟨key, b⟩ := e
    unfold contains at ih ⊢
    by_cases hk : key = name
    · simp [find?, keys, hk]
    · simp only [find?, hk, if_false, ih, keys, List.map_cons, List.mem_cons]
      simp [Ne.symm hk]

/-- Writing to a present name moves nothing. -/
theorem keys_insert_of_mem (t : NameTable α) (name : String) (a : α) (h : name ∈ t.keys) :
    (t.insert name a).keys = t.keys := by
  induction t with
  | nil => simp [keys] at h
  | cons e t ih =>
    obtain ⟨key, b⟩ := e
    by_cases hk : key = name
    · simp [insert, keys, hk]
    · have hmem : name ∈ keys t := by
        simpa [keys, Ne.symm hk] using h
      simp only [insert, hk, if_false]
      simpa [keys] using ih hmem

end NameTable

end Lox
