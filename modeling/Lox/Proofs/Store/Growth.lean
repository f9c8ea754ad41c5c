/-
Growing frames.

Frames are only added, and a write changes one variable of one frame.

* `value?_push`, `parent?_push` — a new frame is empty, and nothing else changes;
* `value?_define`, `parent?_define` — a write changes the one variable, and no link;
* `outwards_eq` — the frames outwards from a frame are that frame and those outwards from its
  parent;
* `ancestor?_succ`, `ancestor?_succ_eq` — a number of links out, by its first and by its last link.
-/
import Lox.Store.Frames

namespace Lox.Frames

variable (s : Frames)

@[simp] theorem size_push (parent : Option FrameId) : (s.push parent).size = s.size + 1 := by
  simp [size, push]

@[simp] theorem size_define (f : FrameId) (name : String) (v : Value) :
    (s.define f name v).size = s.size := by
  simp [size, define]

theorem parent?_push (parent : Option FrameId) (f : FrameId) :
    (s.push parent).parent? f = if f = s.size then parent else s.parent? f := by
  unfold parent? push size
  rw [Array.getElem?_push]
  split
  · rfl
  · rfl

/-- A new frame has no variables. -/
@[simp] theorem value?_push (parent : Option FrameId) (f : FrameId) (name : String) :
    (s.push parent).value? f name = s.value? f name := by
  unfold value? push
  rw [Array.getElem?_push]
  split
  · next h => simp [h, NameTable.find?]
  · rfl

@[simp] theorem parent?_define (f : FrameId) (name : String) (v : Value) (g : FrameId) :
    (s.define f name v).parent? g = s.parent? g := by
  unfold parent? define
  rw [Array.getElem?_modify]
  split
  · cases s.all[g]? <;> rfl
  · rfl

/-- A write changes the variable of one name in one frame. -/
theorem value?_define {f : FrameId} (hf : f < s.size) (name : String) (v : Value) (g : FrameId)
    (other : String) :
    (s.define f name v).value? g other =
      if f = g ∧ name = other then some v else s.value? g other := by
  unfold value? define
  rw [Array.getElem?_modify]
  by_cases hg : f = g
  · subst hg
    have he : s.all[f]? = some s.all[f] := Array.getElem?_eq_getElem hf
    simp only [he, if_true, Option.map_some, Option.bind_some, NameTable.find?_insert, true_and]
  · rw [if_neg hg, if_neg fun h => hg h.1]

/-- A frame that does not exist has no variables. -/
theorem lt_size_of_value? {f : FrameId} {name : String} {v : Value}
    (h : s.value? f name = some v) : f < s.size := by
  unfold value? at h
  cases he : s.all[f]? with
  | none => simp [he] at h
  | some frame => exact (Array.getElem?_eq_some_iff.mp he).1

/-- A frame that does not exist has no variables. -/
theorem value?_of_size_le {f : FrameId} (h : s.size ≤ f) (name : String) :
    s.value? f name = none := by
  cases hv : s.value? f name with
  | none => rfl
  | some v => exact absurd (s.lt_size_of_value? hv) (Nat.not_lt.mpr h)

theorem lt_size_of_parent? {f parent : FrameId} (h : s.parent? f = some parent) : f < s.size := by
  unfold parent? at h
  cases he : s.all[f]? with
  | none => simp [he] at h
  | some frame => exact (Array.getElem?_eq_some_iff.mp he).1

/-- A new frame leaves the links of the others as they are. -/
theorem parent?_push_of_some {f g : FrameId} (parent : Option FrameId)
    (h : s.parent? f = some g) : (s.push parent).parent? f = some g := by
  rw [parent?_push, if_neg (Nat.ne_of_lt (s.lt_size_of_parent? h)), h]

@[simp] theorem defines_push (parent : Option FrameId) (f : FrameId) (name : String) :
    (s.push parent).defines f name = s.defines f name := by
  rw [defines, value?_push, defines]

theorem defines_iff {f : FrameId} {name : String} :
    s.defines f name = true ↔ ∃ v, s.value? f name = some v :=
  Option.isSome_iff_exists

/-- Writing to a frame that does not exist changes nothing. -/
theorem define_of_size_le {f : FrameId} (h : s.size ≤ f) (name : String) (v : Value) :
    s.define f name v = s := by
  have hmodify : s.all.modify f (fun frame => { frame with values := frame.values.insert name v }) =
      s.all := by
    refine Array.ext (Array.size_modify ..) fun i hi hi' => ?_
    rw [Array.getElem_modify, if_neg (Nat.ne_of_gt (Nat.lt_of_lt_of_le hi' h))]
  unfold define
  rw [hmodify]

/-- A write to any frame leaves the other variables as they are. -/
theorem value?_define_of_ne {f g : FrameId} {name other : String}
    (h : ¬ (f = g ∧ name = other)) (v : Value) :
    (s.define f name v).value? g other = s.value? g other := by
  by_cases hf : f < s.size
  · rw [s.value?_define hf, if_neg h]
  · rw [s.define_of_size_le (Nat.le_of_not_lt hf)]

/-- Behind a write to any frame, a variable has the written value or the one it had. -/
theorem value?_define_cases {f g : FrameId} {name other : String} {v u : Value}
    (h : (s.define f name v).value? g other = some u) : u = v ∨ s.value? g other = some u := by
  by_cases hf : f < s.size
  · rw [s.value?_define hf] at h
    split at h
    · cases h
      exact .inl rfl
    · exact .inr h
  · rw [s.define_of_size_le (Nat.le_of_not_lt hf)] at h
    exact .inr h

/-- Writing to any frame makes no other variable disappear. -/
theorem defines_define {f : FrameId} (hf : f < s.size) (name : String) (v : Value) {g : FrameId}
    {other : String} (h : s.defines g other = true) :
    (s.define f name v).defines g other = true := by
  rw [defines_iff] at h ⊢
  obtain ⟨u, hu⟩ := h
  rw [s.value?_define hf]
  split
  · exact ⟨v, rfl⟩
  · exact ⟨u, hu⟩

theorem defines_define_self {f : FrameId} (hf : f < s.size) (name : String) (v : Value) :
    (s.define f name v).defines f name = true := by
  rw [defines_iff]
  exact ⟨v, by rw [s.value?_define hf, if_pos ⟨rfl, rfl⟩]⟩

/-- The one variable of a frame that has just been made. -/
theorem value?_define_push (parent : Option FrameId) (name : String) (v : Value) :
    ((s.push parent).define s.size name v).value? s.size name = some v := by
  rw [value?_define _ (by rw [size_push]; exact Nat.lt_succ_self _), if_pos ⟨rfl, rfl⟩]

/-! ### Links -/

/-- The link of a frame that has just been made. -/
theorem parent?_define_push (parent : Option FrameId) (name : String) (v : Value) :
    ((s.push parent).define s.size name v).parent? s.size = parent := by
  rw [parent?_define, parent?_push, if_pos rfl]

/-- A frame without a parent is the last one outwards. -/
theorem outwards_of_none {f : FrameId} (h : s.parent? f = none) : s.outwards f = [f] := by
  unfold outwards
  rw [chain_eq, h]

/-- The frames outwards are the frame itself and those outwards from its parent. -/
theorem outwards_eq {f parent : FrameId} (h : s.parent? f = some parent) (hlt : parent < f) :
    s.outwards f = f :: s.outwards parent := by
  unfold outwards
  rw [chain_eq, h]
  simp only [if_pos hlt]

theorem ancestor?_succ {f parent : FrameId} (h : s.parent? f = some parent) (d : Nat) :
    s.ancestor? f (d + 1) = s.ancestor? parent d := by
  rw [ancestor?, h]

/-- One link more leads to the frame around the one a number of links out. -/
theorem ancestor?_succ_eq (f : FrameId) (d : Nat) :
    s.ancestor? f (d + 1) = (s.ancestor? f d).bind s.parent? := by
  induction d generalizing f with
  | zero =>
    rw [ancestor?, ancestor?, Option.bind_some]
    cases s.parent? f <;> rfl
  | succ d ih =>
    cases hp : s.parent? f with
    | none =>
      rw [ancestor?, hp, ancestor?, hp]
      rfl
    | some parent => rw [s.ancestor?_succ hp, s.ancestor?_succ hp, ih]

/-- The nearest frame with a name is the frame itself, if it has it. -/
theorem holder?_self {f : FrameId} {name : String} (h : s.defines f name = true) :
    s.holder? f name = some f := by
  unfold holder? outwards
  rw [chain_eq]
  exact List.find?_cons_of_pos h

/-! ### Reading -/

/-- What is read at a distance stands in some frame. -/
theorem value?_of_getAt {f : FrameId} {d : Nat} {name : String} {line : Nat} {v : Value}
    (h : s.getAt f d name line = .ok v) : ∃ g, s.value? g name = some v := by
  unfold getAt at h
  split at h
  · next u hu =>
    cases h
    obtain ⟨g, -, hg⟩ := Option.bind_eq_some_iff.mp hu
    exact ⟨g, hg⟩
  · cases h

theorem value?_of_get {f : FrameId} {name : String} {line : Nat} {v : Value}
    (h : s.get f name line = .ok v) : ∃ g, s.value? g name = some v := by
  unfold get at h
  split at h
  · next u hu =>
    cases h
    obtain ⟨g, -, hg⟩ := List.exists_of_findSome?_eq_some hu
    exact ⟨g, hg⟩
  · cases h

end Lox.Frames
