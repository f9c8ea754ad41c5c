/-
What a program can get at.

From the frame in which a program is, links, variables and objects lead on to other frames and
objects.  Whatever they lead to is live.  A territory is a set of frames and objects that they do
not lead out of; the program that runs in it stays in it, as all that it makes belongs to it.

* `Ref`, `Machine.Leads`, `Machine.Live` — frames and objects, and what they lead to;
* `Occurrence.AssignsGlobal` — an assignment to a global of some name;
* `Territory`, `Territory.Encloses` — a territory whose functions assign no global of one name;
* `Encloses.push`, `Encloses.define`, … — what a run does to a machine does not lead out;
* `Encloses.ancestor?`, `Encloses.methodClosure?` — what is found from within is within;
* `Territory.live` — what is live, together with all that does not exist yet, is a territory.

Design notes: a territory stays the same while a program runs.  Therefore it has all frames and
objects that are still to be made.
-/
import Mathlib.Logic.Relation
import Lox.Proofs.Run.Leads
import Lox.Proofs.Store.Lineage
import Lox.Syntax.Occurrence

namespace Lox

/-! ### Frames and objects -/

/-- A frame or an object. -/
inductive Ref where
  | frame (f : FrameId)
  | closure (id : Nat)
  | klass (k : Nat)
  | object (i : Nat)

/-- The frame or object exists. -/
def Ref.Exists (m : Machine) : Ref → Prop
  | frame f => f < m.frames.size
  | closure id => id < m.objects.closures.size
  | klass k => k < m.objects.classes.size
  | object i => i < m.objects.instances.size

/-- What a value refers to. -/
def Value.ref? : Value → Option Ref
  | .callable (.closure id) => some (.closure id)
  | .callable (.klass k) => some (.klass k)
  | .object i => some (.object i)
  | _ => none

/-- A frame or object leads to another one: by a link, by a value, or as what it was made with. -/
inductive Machine.Leads (m : Machine) : Ref → Ref → Prop where
  | parent {f g : FrameId} (h : m.frames.parent? f = some g) : Leads m (.frame f) (.frame g)
  | variable {f : FrameId} {x : String} {v : Value} {a : Ref} (h : m.frames.value? f x = some v)
      (ha : v.ref? = some a) : Leads m (.frame f) a
  | captured {id : Nat} {c : Closure} (h : m.objects.closures[id]? = some c) :
      Leads m (.closure id) (.frame c.captured)
  | superclass {k above : Nat} (h : m.objects.superclass? k = some above) :
      Leads m (.klass k) (.klass above)
  | method {k id : Nat} {x : String} (h : m.objects.ownMethod? k x = some id) :
      Leads m (.klass k) (.closure id)
  | classOf {i k : Nat} (h : m.objects.classOf? i = some k) : Leads m (.object i) (.klass k)
  | field {i : Nat} {x : String} {v : Value} {a : Ref} (h : m.objects.field? i x = some v)
      (ha : v.ref? = some a) : Leads m (.object i) a

/-- What the frame in which the program is leads to. -/
def Machine.Live (m : Machine) : Ref → Prop :=
  Relation.ReflTransGen m.Leads (.frame m.active)

/-- What leads anywhere exists. -/
theorem Machine.Leads.exists {m : Machine} {a b : Ref} (h : m.Leads a b) : a.Exists m := by
  cases h with
  | parent h => exact m.frames.lt_size_of_parent? h
  | «variable» h _ => exact m.frames.lt_size_of_value? h
  | captured h => exact (Array.getElem?_eq_some_iff.mp h).1
  | superclass h =>
    obtain ⟨c, hc, -⟩ := Option.bind_eq_some_iff.mp h
    exact (Array.getElem?_eq_some_iff.mp hc).1
  | method h =>
    obtain ⟨c, hc, -⟩ := Option.bind_eq_some_iff.mp h
    exact (Array.getElem?_eq_some_iff.mp hc).1
  | classOf h =>
    obtain ⟨i, hi, -⟩ := Option.map_eq_some_iff.mp h
    exact (Array.getElem?_eq_some_iff.mp hi).1
  | field h _ =>
    obtain ⟨i, hi, -⟩ := Option.bind_eq_some_iff.mp h
    exact (Array.getElem?_eq_some_iff.mp hi).1

/-! ### Assignments to globals -/

/-- An assignment to the global of a name: it has no distance. -/
structure Occurrence.AssignsGlobal (ds : Distances) (x : String) (o : Occurrence) : Prop where
  kind : o.kind = .assign
  name : o.token.lexeme = x
  distance : ds.find? o.id = none

/-- What a native yields is no frame and no object. -/
def Native.Inert (n : Native) : Prop :=
  ∀ now vs v, n.run now vs = .ok v → v.ref? = none

/-! ### Territories -/

/-- Frames and objects, with the distances of nodes, and the name of a global. -/
structure Territory where
  has : Ref → Prop
  distances : Distances
  name : String

namespace Territory

variable (T : Territory)

/-- What a value refers to is in the territory. -/
def Holds (v : Value) : Prop :=
  ∀ a, v.ref? = some a → T.has a

/-- No occurrence is an assignment to the global. -/
def Spared (os : List Occurrence) : Prop :=
  ∀ o ∈ os, ¬ o.AssignsGlobal T.distances T.name

/-- Nothing leads out of the territory, in which the functions do not assign the global.  It has the
globals, and whatever does not exist yet. -/
structure Encloses (m : Machine) : Prop where
  made : ∀ a : Ref, ¬ a.Exists m → T.has a
  outermost : T.has (.frame globals)
  globals_lt : globals < m.frames.size
  parent : ∀ f g, m.frames.parent? f = some g → T.has (.frame f) → T.has (.frame g)
  values : ∀ f x v, m.frames.value? f x = some v → T.has (.frame f) → T.Holds v
  closures : ∀ (id : Nat) (c : Closure), m.objects.closures[id]? = some c → T.has (.closure id) →
    T.has (.frame c.captured) ∧ T.Spared c.declaration.occurrences
  superclass : ∀ k above, m.objects.superclass? k = some above → T.has (.klass k) →
    T.has (.klass above)
  methods : ∀ k x id, m.objects.ownMethod? k x = some id → T.has (.klass k) → T.has (.closure id)
  classOf : ∀ i k, m.objects.classOf? i = some k → T.has (.object i) → T.has (.klass k)
  fields : ∀ i x v, m.objects.field? i x = some v → T.has (.object i) → T.Holds v
  natives : ∀ n ∈ m.objects.natives, n.Inert

variable {T} {m : Machine} {v : Value} {os os' : List Occurrence}

theorem Holds.of_none (h : v.ref? = none) : T.Holds v := by
  intro a ha
  rw [h] at ha
  cases ha

theorem Holds.closure {id : Nat} (h : T.has (.closure id)) :
    T.Holds (.callable (.closure id)) := by
  intro a ha
  cases ha
  exact h

theorem Holds.klass {k : Nat} (h : T.has (.klass k)) : T.Holds (.callable (.klass k)) := by
  intro a ha
  cases ha
  exact h

theorem Holds.object {i : Nat} (h : T.has (.object i)) : T.Holds (.object i) := by
  intro a ha
  cases ha
  exact h

theorem Spared.mono (h : T.Spared os) (hs : ∀ o ∈ os', o ∈ os) : T.Spared os' :=
  fun o ho => h o (hs o ho)

theorem spared_append : T.Spared (os ++ os') ↔ T.Spared os ∧ T.Spared os' :=
  List.forall_mem_append

theorem Spared.member {f : FunDecl} {fs : List FunDecl} (h : T.Spared (FunDecl.occurrencesIn fs))
    (hf : f ∈ fs) : T.Spared f.occurrences := by
  induction fs with
  | nil => cases hf
  | cons g fs ih =>
    obtain ⟨hg, hfs⟩ := spared_append.mp h
    rcases List.mem_cons.mp hf with rfl | hf
    · exact hg
    · exact ih hfs hf

theorem Spared.body {f : FunDecl} (h : T.Spared f.occurrences) :
    T.Spared (Stmt.occurrencesIn f.body) := by
  cases f
  exact h

/-! ### Steps of a machine -/

namespace Encloses

variable (h : T.Encloses m)

include h

/-- What is still to be made, where no kind of thing gets fewer. -/
theorem made_of_le {m' : Machine} (hf : m.frames.size ≤ m'.frames.size)
    (hc : m.objects.closures.size ≤ m'.objects.closures.size)
    (hk : m.objects.classes.size ≤ m'.objects.classes.size)
    (hi : m.objects.instances.size ≤ m'.objects.instances.size) (a : Ref) (ha : ¬ a.Exists m') :
    T.has a := by
  refine h.made a fun hm => ha ?_
  cases a with
  | frame f => exact Nat.lt_of_lt_of_le hm hf
  | closure id => exact Nat.lt_of_lt_of_le hm hc
  | klass k => exact Nat.lt_of_lt_of_le hm hk
  | object i => exact Nat.lt_of_lt_of_le hm hi

/-- What the machine is beside its frames and objects does not matter. -/
theorem of_eq {m' : Machine} (hf : m'.frames = m.frames) (ho : m'.objects = m.objects) :
    T.Encloses m' where
  made := h.made_of_le (by rw [hf]) (by rw [ho]) (by rw [ho]) (by rw [ho])
  outermost := h.outermost
  globals_lt := hf ▸ h.globals_lt
  parent := hf ▸ h.parent
  values := hf ▸ h.values
  closures := ho ▸ h.closures
  superclass := ho ▸ h.superclass
  methods := ho ▸ h.methods
  classOf := ho ▸ h.classOf
  fields := ho ▸ h.fields
  natives := ho ▸ h.natives

/-- A frame is made inside of one of the territory. -/
theorem push {parent : FrameId} (hp : T.has (.frame parent)) :
    T.Encloses { m with frames := m.frames.push (some parent) } :=
  { h with
    made := h.made_of_le ((m.frames.size_push _).symm ▸ Nat.le_succ _) (Nat.le_refl _)
      (Nat.le_refl _) (Nat.le_refl _)
    globals_lt := (m.frames.size_push _).symm ▸ Nat.lt_succ_of_lt h.globals_lt
    parent := fun f g hg hf => by
      rw [Frames.parent?_push] at hg
      split at hg
      · cases hg
        exact hp
      · exact h.parent f g hg hf
    values := fun f x v hv => h.values f x v ((m.frames.value?_push ..).symm.trans hv) }

/-- A variable gets a value of the territory. -/
theorem define (f : FrameId) (x : String) (hv : T.Holds v) :
    T.Encloses { m with frames := m.frames.define f x v } :=
  { h with
    made := h.made_of_le (Nat.le_of_eq (m.frames.size_define ..).symm) (Nat.le_refl _)
      (Nat.le_refl _) (Nat.le_refl _)
    globals_lt := (m.frames.size_define ..).symm ▸ h.globals_lt
    parent := fun g g' hg => h.parent g g' ((m.frames.parent?_define ..).symm.trans hg)
    values := fun g y u hu hg => by
      rcases m.frames.value?_define_cases hu with rfl | hu
      · exact hv
      · exact h.values g y u hu hg }

/-- A function of the territory is made. -/
theorem addClosure {c : Closure} (hc : T.has (.frame c.captured))
    (hs : T.Spared c.declaration.occurrences) :
    T.Encloses { m with
      objects := { m.objects with closures := m.objects.closures.push c } } :=
  { h with
    made := h.made_of_le (Nat.le_refl _) ((m.objects.closures.size_push c).symm ▸ Nat.le_succ _)
      (Nat.le_refl _) (Nat.le_refl _)
    closures := fun id c' hc' hid => by
      rw [Array.getElem?_push] at hc'
      split at hc'
      · cases hc'
        exact ⟨hc, hs⟩
      · exact h.closures id c' hc' hid }

/-- A class is made, the superclass and the methods of which are in the territory. -/
theorem addClass {c : ClassObject} (hs : ∀ k, c.superclass = some k → T.has (.klass k))
    (hm : ∀ x id, c.methods.find? x = some id → T.has (.closure id)) :
    T.Encloses { m with objects := m.objects.addClass c } := by
  have hcases : ∀ (k : Nat) (c' : ClassObject), (m.objects.addClass c).classes[k]? = some c' →
      c' = c ∨ m.objects.classes[k]? = some c' := by
    intro k c' hc'
    unfold Objects.addClass at hc'
    rw [Array.getElem?_push] at hc'
    split at hc'
    · exact Or.inl (Option.some.inj hc').symm
    · exact Or.inr hc'
  exact
    { h with
      made := h.made_of_le (Nat.le_refl _) (Nat.le_refl _)
        ((m.objects.classes.size_push c).symm ▸ Nat.le_succ _) (Nat.le_refl _)
      superclass := fun k above ha hk => by
        obtain ⟨c', hc', habove⟩ := Option.bind_eq_some_iff.mp ha
        rcases hcases k c' hc' with rfl | hold
        · exact hs above habove
        · exact h.superclass k above (Option.bind_eq_some_iff.mpr ⟨c', hold, habove⟩) hk
      methods := fun k x id hid hk => by
        obtain ⟨c', hc', hmethod⟩ := Option.bind_eq_some_iff.mp hid
        rcases hcases k c' hc' with rfl | hold
        · exact hm x id hmethod
        · exact h.methods k x id (Option.bind_eq_some_iff.mpr ⟨c', hold, hmethod⟩) hk }

/-- An instance of a class of the territory is made. -/
theorem addInstance {k : Nat} (hk : T.has (.klass k)) :
    T.Encloses { m with objects := m.objects.addInstance k } :=
  { h with
    made := h.made_of_le (Nat.le_refl _) (Nat.le_refl _) (Nat.le_refl _)
      ((m.objects.instances.size_push _).symm ▸ Nat.le_succ _)
    classOf := fun i k' hk' hi => by
      unfold Objects.classOf? Objects.addInstance at hk'
      simp only [Array.getElem?_push] at hk'
      split at hk'
      · cases hk'
        exact hk
      · exact h.classOf i k' hk' hi
    fields := fun i x v hv => h.fields i x v (Objects.field?_addInstance hv) }

/-- A field gets a value of the territory. -/
theorem setField (i : Nat) (x : String) (hv : T.Holds v) :
    T.Encloses { m with objects := m.objects.setField i x v } :=
  { h with
    made := h.made_of_le (Nat.le_refl _) (Nat.le_refl _) (Nat.le_refl _)
      (Nat.le_of_eq Array.size_modify.symm)
    classOf := fun j k hk => h.classOf j k ((m.objects.classOf?_setField i x v j).symm.trans hk)
    fields := fun j y u hu hj => by
      rcases Objects.field?_setField_cases hu with rfl | hu
      · exact hv
      · exact h.fields j y u hu hj }

/-! ### What is found -/

/-- The frames outwards from a frame of the territory are in it. -/
theorem ancestor? {f g : FrameId} {d : Nat} (hf : T.has (.frame f))
    (hg : m.frames.ancestor? f d = some g) : T.has (.frame g) := by
  induction d generalizing f with
  | zero =>
    cases hg
    exact hf
  | succ d ih =>
    cases hp : m.frames.parent? f with
    | none =>
      rw [Frames.ancestor?, hp] at hg
      cases hg
    | some parent =>
      rw [Frames.ancestor?_succ _ hp] at hg
      exact ih (h.parent f parent hp hf) hg

/-- The classes above a class of the territory are in it. -/
theorem lineage {k above : Nat} (hk : T.has (.klass k)) (ha : above ∈ m.objects.lineage k) :
    T.has (.klass above) := by
  induction k using Nat.strongRecOn with
  | _ k ih =>
    rcases mem_chain_iff.mp ha with rfl | ⟨j, hj, hlt, ha⟩
    · exact hk
    · exact ih j hlt (h.superclass k j hj hk) ha

/-- A method that is found in a class of the territory is one of its functions. -/
theorem methodClosure? {k : Nat} {x : String} {c : Closure} (hk : T.has (.klass k))
    (hc : m.objects.methodClosure? k x = some c) :
    T.has (.frame c.captured) ∧ T.Spared c.declaration.occurrences := by
  obtain ⟨id, hid, hclosure⟩ := Option.bind_eq_some_iff.mp hc
  obtain ⟨above, ha, hown⟩ := Objects.exists_own_of_method? hid
  exact h.closures id c hclosure (h.methods above x id hown (h.lineage hk ha))

theorem getAt {f : FrameId} {d : Nat} {x : String} {line : Nat} (hf : T.has (.frame f))
    (hv : m.frames.getAt f d x line = .ok v) : T.Holds v := by
  unfold Frames.getAt at hv
  cases hg : (m.frames.ancestor? f d).bind fun g => m.frames.value? g x with
  | none =>
    rw [hg] at hv
    cases hv
  | some u =>
    rw [hg] at hv
    cases hv
    obtain ⟨g, hanc, hvalue⟩ := Option.bind_eq_some_iff.mp hg
    exact h.values g x v hvalue (h.ancestor? hf hanc)

/-- What is found from the globals on, which have no frame around them. -/
theorem get {x : String} {line : Nat} (hp : m.frames.parent? globals = none)
    (hv : m.frames.get globals x line = .ok v) : T.Holds v := by
  unfold Frames.get at hv
  rw [Frames.outwards_of_none _ hp, List.findSome?_singleton] at hv
  cases hg : m.frames.value? globals x with
  | none =>
    rw [hg] at hv
    cases hv
  | some u =>
    rw [hg] at hv
    cases hv
    exact h.values globals x v hg h.outermost

end Encloses

/-! ### What is live -/

/-- What is live on a machine, with all that does not exist yet. -/
def live (m : Machine) (x : String) : Territory where
  has a := m.Live a ∨ ¬ a.Exists m
  distances := m.distances
  name := x

/-- Nothing leads away from what is live. -/
theorem live_has {a b : Ref} {x : String} (hl : m.Leads a b) (ha : (live m x).has a) :
    (live m x).has b := by
  rcases ha with ha | ha
  · exact Or.inl (ha.tail hl)
  · exact absurd hl.exists ha

/-- A machine that is in the frame of the globals is in the territory of what is live on it. -/
theorem live_encloses {x : String} (hlt : globals < m.frames.size) (ha : m.active = globals)
    (hc : ∀ (id : Nat) (c : Closure), m.Live (.closure id) →
      m.objects.closures[id]? = some c → (live m x).Spared c.declaration.occurrences)
    (hn : ∀ n ∈ m.objects.natives, n.Inert) : (live m x).Encloses m where
  made a ha := Or.inr ha
  outermost := Or.inl (ha ▸ Relation.ReflTransGen.refl)
  globals_lt := hlt
  parent f g hg hf := live_has (.parent hg) hf
  values f x v hv hf a hva := live_has (.variable hv hva) hf
  closures id c hclosure hid := by
    refine ⟨live_has (.captured hclosure) hid, ?_⟩
    rcases hid with hlive | hnone
    · exact hc id c hlive hclosure
    · exact absurd (Machine.Leads.captured hclosure).exists hnone
  superclass k above hs hk := live_has (.superclass hs) hk
  methods k x id hid hk := live_has (.method hid) hk
  classOf i k hk hi := live_has (.classOf hk) hi
  fields i x v hv hi a hva := live_has (.field hv hva) hi
  natives := hn

end Territory

end Lox
