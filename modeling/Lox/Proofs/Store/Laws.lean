/-
Laws of the frame store.

The two ways to a variable, by name outwards and by a number of links, lead to one place: the
nearest frame that has the name.  Frames are shared by all frames inside of them, so that a write is
seen from every frame whose nearest one it is, and from no other.

* `Built` — frames that the operations of the store make, in any order;
* `Links`, `Nearest`, `Lacks` — where the links lead, the nearest frame with a
  name, and that there is none;
* `get_eq`, `assign_eq` — the ways by name, link by link;
* `nearest_or_lacks`, `Nearest.unique` — of a name there is one nearest frame or none;
* `Descending.get_define` — what a write makes of all that can be read;
* `store_laws` — reads and writes by name and by distance.

Design notes: `Nearest` is about links and variables only and does not mention how a name is looked
up; the proofs about it are by the number of links.
-/
import Lox.Proofs.Store.Growth
import Lox.Run.Machine

namespace Lox

namespace Frames

/-- Frames that are made by the operations of the store. -/
inductive Built : Frames → Prop where
  | empty : Built .empty
  | new {s : Frames} (h : Built s) : Built (s.push none)
  | child {s : Frames} {f : FrameId} (h : Built s) (hf : f < s.size) : Built (s.push (some f))
  | define {s : Frames} {f : FrameId} {x : String} {v : Value} (h : Built s) (hf : f < s.size) :
      Built (s.define f x v)
  | assign {s s' : Frames} {f : FrameId} {x : String} {v : Value} {line : Nat} (h : Built s)
      (hassign : s.assign f x v line = .ok s') : Built s'
  | assignAt {s s' : Frames} {f : FrameId} {d : Nat} {x : String} {v : Value} {line : Nat}
      (h : Built s) (hassign : s.assignAt f d x v line = .ok s') : Built s'

/-- So many links lead from one frame to another. -/
inductive Links (s : Frames) : FrameId → Nat → FrameId → Prop where
  | here (f : FrameId) : Links s f 0 f
  | out {f p g : FrameId} {d : Nat} (hp : s.parent? f = some p) (h : Links s p d g) :
      Links s f (d + 1) g

/-- The nearest frame with a name is so many links out. -/
structure Nearest (s : Frames) (f : FrameId) (x : String) (d : Nat) (g : FrameId) : Prop where
  links : s.Links f d g
  has : ∃ v, s.value? g x = some v
  before : ∀ e h, e < d → s.Links f e h → s.value? h x = none

/-- No frame outwards has the name. -/
def Lacks (s : Frames) (f : FrameId) (x : String) : Prop :=
  ∀ d g, s.Links f d g → s.value? g x = none

/-- Links lead to earlier frames. -/
def Descending (s : Frames) : Prop :=
  ∀ f p, s.parent? f = some p → p < f

variable {s : Frames} {f g : FrameId} {x : String} {d : Nat}

/-! ### What the operations keep -/

theorem Descending.define (h : s.Descending) (f : FrameId) (x : String) (v : Value) :
    (s.define f x v).Descending := by
  intro g p hp
  rw [parent?_define] at hp
  exact h g p hp

theorem Descending.push (h : s.Descending) {parent : Option FrameId}
    (hparent : ∀ p ∈ parent, p < s.size) : (s.push parent).Descending := by
  intro g p hp
  rw [parent?_push] at hp
  split at hp
  · next hg =>
    rw [hg]
    exact hparent p hp
  · exact h g p hp

theorem exists_define_of_assign {s' : Frames} {v : Value} {line : Nat}
    (h : s.assign f x v line = .ok s') : ∃ g, s' = s.define g x v := by
  unfold Frames.assign at h
  split at h
  · cases h
    exact ⟨_, rfl⟩
  · cases h

theorem exists_define_of_assignAt {s' : Frames} {v : Value} {line : Nat}
    (h : s.assignAt f d x v line = .ok s') : ∃ g, s' = s.define g x v := by
  unfold Frames.assignAt at h
  split at h
  · cases h
    exact ⟨_, rfl⟩
  · cases h

theorem Built.descending (h : Built s) : s.Descending := by
  induction h with
  | empty =>
    intro f p hp
    cases hp
  | new _ ih =>
    refine ih.push fun p hp => ?_
    cases hp
  | child _ hf ih => exact ih.push fun p hp => Option.some.inj hp ▸ hf
  | define _ _ ih => exact ih.define _ _ _
  | assign _ hassign ih =>
    obtain ⟨g, rfl⟩ := exists_define_of_assign hassign
    exact ih.define _ _ _
  | assignAt _ hassign ih =>
    obtain ⟨g, rfl⟩ := exists_define_of_assignAt hassign
    exact ih.define _ _ _

/-! ### Looking outwards, link by link -/

/-- A variable is read in the frame itself if it has the name, and else in the frame around it. -/
theorem get_eq (h : s.Descending) (f : FrameId) (x : String) (line : Nat) :
    s.get f x line = match s.value? f x, s.parent? f with
      | some v, _ => .ok v
      | none, some p => s.get p x line
      | none, none => .error (undefined x line) := by
  cases hp : s.parent? f with
  | none =>
    unfold get
    rw [s.outwards_of_none hp, List.findSome?_cons]
    cases s.value? f x <;> rfl
  | some p =>
    unfold get
    rw [s.outwards_eq hp (h f p hp), List.findSome?_cons]
    cases s.value? f x <;> rfl

/-- A variable is written in the frame itself if it has the name, and else
in the frame around it. -/
theorem assign_eq (h : s.Descending) (f : FrameId) (x : String) (v : Value) (line : Nat) :
    s.assign f x v line = match s.value? f x, s.parent? f with
      | some _, _ => .ok (s.define f x v)
      | none, some p => s.assign p x v line
      | none, none => .error (undefined x line) := by
  cases hp : s.parent? f with
  | none =>
    unfold assign holder?
    rw [s.outwards_of_none hp, List.find?_cons]
    unfold defines
    cases s.value? f x <;> rfl
  | some p =>
    unfold assign holder?
    rw [s.outwards_eq hp (h f p hp), List.find?_cons]
    unfold defines
    cases s.value? f x <;> rfl

/-! ### The nearest frame -/

theorem links_iff : s.Links f d g ↔ s.ancestor? f d = some g := by
  constructor
  · intro h
    induction h with
    | here f => rfl
    | out hp _ ih => rwa [s.ancestor?_succ hp]
  · intro h
    induction d generalizing f with
    | zero =>
      cases h
      exact .here _
    | succ d ih =>
      cases hp : s.parent? f with
      | none =>
        rw [ancestor?, hp] at h
        cases h
      | some p =>
        rw [s.ancestor?_succ hp] at h
        exact .out hp (ih h)

theorem Links.unique {g' : FrameId} (h : s.Links f d g) (h' : s.Links f d g') : g = g' :=
  Option.some.inj ((links_iff.mp h).symm.trans (links_iff.mp h'))

theorem Nearest.unique {e : Nat} {g' : FrameId} (h : s.Nearest f x d g) (h' : s.Nearest f x e g') :
    d = e ∧ g = g' := by
  obtain ⟨v, hv⟩ := h.has
  obtain ⟨v', hv'⟩ := h'.has
  -- the nearer of two has the name, and stands before the other one
  obtain hlt | rfl | hlt := Nat.lt_trichotomy d e
  · rw [h'.before d g hlt h.links] at hv
    cases hv
  · exact ⟨rfl, h.links.unique h'.links⟩
  · rw [h.before e g' hlt h'.links] at hv'
    cases hv'

theorem Nearest.here {v : Value} (h : s.value? f x = some v) : s.Nearest f x 0 f :=
  ⟨.here f, ⟨v, h⟩, fun e _ he => absurd he (Nat.not_lt_zero e)⟩

/-- The nearest frame is the frame itself or the nearest one from the frame around it. -/
theorem nearest_succ {p : FrameId} (hnone : s.value? f x = none) (hp : s.parent? f = some p) :
    s.Nearest f x (d + 1) g ↔ s.Nearest p x d g := by
  constructor
  · rintro ⟨hlinks, hhas, hbefore⟩
    cases hlinks with
    | out hp' hlinks =>
      cases hp.symm.trans hp'
      exact ⟨hlinks, hhas, fun e h he hlinks' =>
        hbefore (e + 1) h (Nat.succ_lt_succ he) (.out hp hlinks')⟩
  · rintro ⟨hlinks, hhas, hbefore⟩
    refine ⟨.out hp hlinks, hhas, fun e h he hlinks' => ?_⟩
    cases hlinks' with
    | here => exact hnone
    | out hp' hlinks' =>
      cases hp.symm.trans hp'
      exact hbefore _ h (Nat.lt_of_succ_lt_succ he) hlinks'

theorem Nearest.eq_of_zero (h : s.Nearest f x 0 g) : g = f := by
  cases h.links
  rfl

theorem Nearest.out (h : s.Nearest f x (d + 1) g) :
    s.value? f x = none ∧ ∃ p, s.parent? f = some p ∧ s.Nearest p x d g := by
  have hnone := h.before 0 f (Nat.succ_pos d) (.here f)
  cases h.links with
  | out hp _ => exact ⟨hnone, _, hp, (nearest_succ hnone hp).mp h⟩

theorem Lacks.none (h : s.Lacks f x) : s.value? f x = none :=
  h 0 f (.here f)

theorem Lacks.out {p : FrameId} (h : s.Lacks f x) (hp : s.parent? f = some p) : s.Lacks p x :=
  fun d g hlinks => h (d + 1) g (.out hp hlinks)

/-- Of a name there is a nearest frame, or no frame outwards has it. -/
theorem nearest_or_lacks (h : s.Descending) (f : FrameId) (x : String) :
    (∃ d g, s.Nearest f x d g) ∨ s.Lacks f x := by
  -- links lead to earlier frames, so that the induction is on the frame itself
  induction f using Nat.strongRecOn with
  | _ f ih =>
    cases hv : s.value? f x with
    | some v => exact .inl ⟨0, f, .here hv⟩
    | none =>
      cases hp : s.parent? f with
      | none =>
        refine .inr fun d g hlinks => ?_
        cases hlinks with
        | here => exact hv
        | out hp' _ => cases hp.symm.trans hp'
      | some p =>
        obtain ⟨d, g, hnear⟩ | hlacks := ih p (h f p hp)
        · exact .inl ⟨d + 1, g, (nearest_succ hv hp).mpr hnear⟩
        · refine .inr fun d g hlinks => ?_
          cases hlinks with
          | here => exact hv
          | out hp' hlinks =>
            cases hp.symm.trans hp'
            exact hlacks _ g hlinks

/-! ### Reads and writes -/

namespace Descending

variable (h : s.Descending) (line : Nat)

include h

/-- The variable of the nearest frame is read. -/
theorem get_of_nearest (hnear : s.Nearest f x d g) {v : Value} (hv : s.value? g x = some v) :
    s.get f x line = .ok v := by
  induction d generalizing f with
  | zero =>
    rw [hnear.eq_of_zero] at hv
    rw [get_eq h, hv]
  | succ d ih =>
    obtain ⟨hnone, p, hp, hnear⟩ := hnear.out
    rw [get_eq h, hnone, hp]
    exact ih hnear

theorem get_of_lacks (hlacks : s.Lacks f x) : s.get f x line = .error (undefined x line) := by
  induction f using Nat.strongRecOn with
  | _ f ih =>
    rw [get_eq h, hlacks.none]
    cases hp : s.parent? f with
    | none => rfl
    | some p => exact ih p (h f p hp) (hlacks.out hp)

/-- The variable of the nearest frame is written. -/
theorem assign_of_nearest (hnear : s.Nearest f x d g) (v : Value) :
    s.assign f x v line = .ok (s.define g x v) := by
  induction d generalizing f with
  | zero =>
    obtain ⟨u, hu⟩ := hnear.has
    rw [hnear.eq_of_zero] at hu ⊢
    rw [assign_eq h, hu]
  | succ d ih =>
    obtain ⟨hnone, p, hp, hnear⟩ := hnear.out
    rw [assign_eq h, hnone, hp]
    exact ih hnear

theorem assign_of_lacks (hlacks : s.Lacks f x) (v : Value) :
    s.assign f x v line = .error (undefined x line) := by
  induction f using Nat.strongRecOn with
  | _ f ih =>
    rw [assign_eq h, hlacks.none]
    cases hp : s.parent? f with
    | none => rfl
    | some p => exact ih p (h f p hp) (hlacks.out hp)

end Descending

/-- What is read at a distance stands in the frame that the links lead to. -/
theorem getAt_eq_ok_iff (f : FrameId) (d : Nat) (x : String) (line : Nat) (v : Value) :
    s.getAt f d x line = .ok v ↔ ∃ g, s.Links f d g ∧ s.value? g x = some v := by
  simp only [links_iff]
  rw [← Option.bind_eq_some_iff]
  unfold getAt
  cases (s.ancestor? f d).bind fun g => s.value? g x with
  | none => simp
  | some u => simp

theorem getAt_error {f : FrameId} {d : Nat} {x : String} {line : Nat} {e : Diagnostic}
    (h : s.getAt f d x line = .error e) : e = undefined x line := by
  unfold getAt at h
  split at h
  · cases h
  · cases h
    rfl

theorem assignAt_of_links (h : s.Links f d g) (x : String) (v : Value) (line : Nat) :
    s.assignAt f d x v line = .ok (s.define g x v) := by
  unfold assignAt
  rw [links_iff.mp h]

/-! ### What a write changes -/

theorem links_define (h : FrameId) (y : String) (v : Value) :
    (s.define h y v).Links f d g ↔ s.Links f d g := by
  constructor
  · intro hlinks
    induction hlinks with
    | here f => exact .here f
    | out hp _ ih =>
      rw [parent?_define] at hp
      exact .out hp ih
  · intro hlinks
    induction hlinks with
    | here f => exact .here f
    | out hp _ ih => exact .out (by rwa [parent?_define]) ih

section Write

variable {u : Value} (hu : s.value? g x = some u) (v : Value)

include hu

/-- A write to a variable that is there changes this variable and no other. -/
theorem value?_write (k : FrameId) (y : String) :
    (s.define g x v).value? k y = if g = k ∧ x = y then some v else s.value? k y :=
  s.value?_define (s.lt_size_of_value? hu) x v k y

/-- Behind a write to a variable that is there, the same variables are there. -/
theorem value?_write_eq_none (k : FrameId) (y : String) :
    (s.define g x v).value? k y = none ↔ s.value? k y = none := by
  rw [value?_write hu]
  split
  · next h =>
    obtain ⟨rfl, rfl⟩ := h
    simp [hu]
  · exact Iff.rfl

/-- Behind a write to a variable that is there, the frames that see it are those whose
nearest one it is in. -/
theorem get_write (h : s.Descending) (k : FrameId) (y : String) (line : Nat) :
    ((y = x ∧ ∃ e, s.Nearest k x e g) → (s.define g x v).get k y line = .ok v) ∧
      (¬ (y = x ∧ ∃ e, s.Nearest k x e g) → (s.define g x v).get k y line = s.get k y line) := by
  have h' := h.define g x v
  obtain ⟨e, k', hnear⟩ | hlacks := nearest_or_lacks h k y
  · -- the nearest frame stays what it was
    have hnear' : (s.define g x v).Nearest k y e k' := by
      refine ⟨(links_define ..).mpr hnear.links, ?_, fun e' h' he hlinks => ?_⟩
      · rw [← Option.ne_none_iff_exists', Ne, value?_write_eq_none hu, ← Ne,
          Option.ne_none_iff_exists']
        exact hnear.has
      · exact (value?_write_eq_none hu v ..).mpr
          (hnear.before e' h' he ((links_define ..).mp hlinks))
    constructor
    · rintro ⟨rfl, e', he'⟩
      obtain ⟨-, rfl⟩ := hnear.unique he'
      exact h'.get_of_nearest line hnear' (by rw [value?_write hu, if_pos ⟨rfl, rfl⟩])
    · intro hother
      obtain ⟨w, hw⟩ := hnear.has
      have hne : ¬ (g = k' ∧ x = y) := by
        rintro ⟨rfl, rfl⟩
        exact hother ⟨rfl, e, hnear⟩
      rw [h.get_of_nearest line hnear hw]
      exact h'.get_of_nearest line hnear' (by rw [value?_write hu, if_neg hne, hw])
  · have hlacks' : (s.define g x v).Lacks k y := fun e k' hlinks =>
      (value?_write_eq_none hu v ..).mpr (hlacks e k' ((links_define ..).mp hlinks))
    constructor
    · rintro ⟨rfl, e, hnear⟩
      rw [hlacks e g hnear.links] at hu
      cases hu
    · intro _
      rw [h.get_of_lacks line hlacks, h'.get_of_lacks line hlacks']

end Write

end Frames

/-- In frames that are made by the operations of the store, in any order, a name has one nearest
frame outwards from a frame, or no frame outwards has it.

If there is a nearest one, so many links out, the value that is read by name and at this
distance is the one in that frame; and an assignment, by name or at this distance, succeeds and
is a write to that frame: no frame and no link is made or lost, no other variable changes, and
what is read by name becomes the value exactly for the name in the frames whose nearest one is
that frame.  If there is none, a read and an assignment are faults, and the machine behind the
assignment is the one before.

At any distance, what is read is in the frame so many links out, or it is a fault. -/
theorem store_laws {s : Frames} (hs : s.Built) (f : FrameId) (x : String) (line : Nat) :
    ((∃ d g, s.Nearest f x d g ∧ ∀ e h, s.Nearest f x e h → e = d ∧ h = g) ∨ s.Lacks f x) ∧
    (∀ d g, s.Nearest f x d g →
      (∃ u, s.value? g x = some u ∧ s.get f x line = .ok u ∧ s.getAt f d x line = .ok u) ∧
      ∀ v, ∃ s', s.assign f x v line = .ok s' ∧ s.assignAt f d x v line = .ok s' ∧
        s'.size = s.size ∧ (∀ k, s'.parent? k = s.parent? k) ∧
        (∀ k y, s'.value? k y = if g = k ∧ x = y then some v else s.value? k y) ∧
        ∀ k y line', ((y = x ∧ ∃ e, s.Nearest k x e g) → s'.get k y line' = .ok v) ∧
          (¬ (y = x ∧ ∃ e, s.Nearest k x e g) → s'.get k y line' = s.get k y line')) ∧
    (s.Lacks f x →
      s.get f x line = .error (.runtime line (.undefinedVariable x)) ∧
      ∀ v, s.assign f x v line = .error (.runtime line (.undefinedVariable x)) ∧
        ∀ (m : Machine) (name : Token), m.frames = s → m.active = f → name.lexeme = x →
          Run.assign name v m =
            .error (.raised (.runtime name.line (.undefinedVariable x))) m) ∧
    ∀ d, (∀ v, s.getAt f d x line = .ok v ↔ ∃ g, s.Links f d g ∧ s.value? g x = some v) ∧
      ∀ e, s.getAt f d x line = .error e → e = .runtime line (.undefinedVariable x) := by
  -- links lead to earlier frames, so the nearest frame with the name is found, or there is none
  have h := hs.descending
  refine ⟨?_, fun d g hnear => ⟨?_, fun v => ?_⟩, fun hlacks => ⟨h.get_of_lacks line hlacks, ?_⟩,
    fun d => ⟨s.getAt_eq_ok_iff f d x line, fun e he => Frames.getAt_error he⟩⟩
  · obtain ⟨d, g, hnear⟩ | hlacks := Frames.nearest_or_lacks h f x
    · refine .inl ⟨d, g, hnear, fun e k hnear' => ?_⟩
      obtain ⟨rfl, rfl⟩ := hnear.unique hnear'
      exact ⟨rfl, rfl⟩
    · exact .inr hlacks
  · obtain ⟨u, hu⟩ := hnear.has
    exact ⟨u, hu, h.get_of_nearest line hnear hu,
      (s.getAt_eq_ok_iff ..).mpr ⟨g, hnear.links, hu⟩⟩
  · obtain ⟨u, hu⟩ := hnear.has
    exact ⟨s.define g x v, h.assign_of_nearest line hnear v,
      Frames.assignAt_of_links hnear.links x v line, s.size_define .., s.parent?_define g x v,
      Frames.value?_write hu v, Frames.get_write hu v h⟩
  · refine fun v => ⟨h.assign_of_lacks line hlacks v, ?_⟩
    rintro m name rfl rfl rfl
    unfold Run.assign
    rw [Run.assignIn_holder, h.assign_of_lacks name.line hlacks v]
    rfl

/-- Two frames inside of the globals, one of which has a variable that the globals have as well, and
a frame inside of that one. -/
def shadowingFrames : Frames :=
  let globals := (Frames.empty.push none).define 0 "a" .nil
  let inner := ((globals.push (some 0)).define 1 "a" (.bool false)).push (some 1)
  inner.push (some 0)

theorem shadowingFrames_built : shadowingFrames.Built :=
  .child (.child (.define (.child (.define (.new .empty) (by decide)) (by decide)) (by decide))
    (by decide)) (by decide)

/-- The nearest variable is written, which the globals and the other frame
inside of them do not see. -/
theorem store_laws_shadowing :
    ∃ s', shadowingFrames.assign 2 "a" (.bool true) 1 = .ok s' ∧
      shadowingFrames.assignAt 2 1 "a" (.bool true) 1 = .ok s' ∧
      s'.get 1 "a" 1 = .ok (.bool true) ∧ s'.get 3 "a" 1 = shadowingFrames.get 3 "a" 1 ∧
      shadowingFrames.get 3 "b" 7 = .error (.runtime 7 (.undefinedVariable "b")) := by
  have hone : shadowingFrames.Nearest 1 "a" 0 1 := .here rfl
  have hglobal : shadowingFrames.Nearest 3 "a" 1 0 := (Frames.nearest_succ rfl rfl).mpr (.here rfl)
  obtain ⟨-, hnear, -⟩ := store_laws shadowingFrames_built 2 "a" 1
  obtain ⟨-, hwrite⟩ := hnear 1 1 ((Frames.nearest_succ rfl rfl).mpr hone)
  obtain ⟨s', hassign, hassignAt, -, -, -, hseen⟩ := hwrite (.bool true)
  obtain ⟨-, -, hlacks, -⟩ := store_laws shadowingFrames_built 3 "b" 7
  refine ⟨s', hassign, hassignAt, (hseen 1 "a" 1).1 ⟨rfl, 0, hone⟩, (hseen 3 "a" 1).2 ?_, ?_⟩
  · rintro ⟨-, e, hother⟩
    cases (hglobal.unique hother).2
  · refine (hlacks fun d g hlinks => ?_).1
    cases hlinks with
    | here => rfl
    | out hp hlinks =>
      cases hp
      cases hlinks with
      | here => rfl
      | out hp _ => cases hp

end Lox
