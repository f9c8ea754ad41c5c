/-
Machines of renamed programs.

While a program runs, its renamed form runs on a machine that mirrors the record: the same frames
with the same variables, those of the renamed region under their new names, and the same objects,
with closures of renamed functions.

* `Renaming.Mirrors` — a machine that mirrors a record;
* `Mirrors.write`, `Mirrors.push`, `Mirrors.addClosure` — what happens to a record and to a machine
  that mirrors it;
* `Mirrors.methodClosure?`, `Mirrors.display` — what is read off both of them.

Design notes: which frames belong to the renamed region is told by the notes of the record, so
that frames are compared cell by cell.  The new name is the name of no cell that a program uses, and
nothing is said about it.
-/
import Lox.Proofs.Binding.Renaming
import Lox.Proofs.Run.Conformance

namespace Lox

/-- The function with a body at given surroundings, renamed. -/
def FunDecl.renameIn (ρ : Renaming) (body : Surroundings) (f : FunDecl) : FunDecl :=
  .mk f.name (f.params.map (ρ.declared body)) (Stmt.renameAll ρ body 0 f.body)

/-- The closure with a body at a place, renamed. -/
def Closure.rename (ρ : Renaming) (body : Place) (c : Closure) : Closure :=
  { c with declaration := c.declaration.renameIn ρ body.around }

theorem FunDecl.rename_eq (ρ : Renaming) (p : Place) (s : Surrounding) (f : FunDecl) :
    f.rename ρ p.around s = f.renameIn ρ (p.body s f).around := by
  obtain ⟨name, params, body⟩ := f
  unfold FunDecl.rename FunDecl.renameIn Place.body
  have hd : ρ.declared ((p.around.enter (.routine s) []).declareAll params) =
      ρ.declared (p.around.enter (.routine s) []) := by
    unfold Renaming.declared
    rw [Surroundings.openerAt_declareAll]
  simp only [FunDecl.name, FunDecl.params, FunDecl.body, hd]

namespace Renaming

/-- A machine mirrors a record: it differs in the names of the variables in the frames of the
renamed region, and in the functions that are renamed. -/
structure Mirrors (ρ : Renaming) (r : Record) (m : Machine) : Prop where
  size : m.frames.size = r.machine.frames.size
  parent : ∀ f, m.frames.parent? f = r.machine.frames.parent? f
  value : ∀ c : Cell, c.Known r → c.name ≠ ρ.new →
    m.frames.value? c.activation (ρ.name c.opener c.name) =
      r.machine.frames.value? c.activation c.name
  natives : m.objects.natives = r.machine.objects.natives
  closures_size : m.objects.closures.size = r.machine.objects.closures.size
  closures : ∀ id, m.objects.closures[id]? =
    r.machine.objects.closures[id]?.map (Closure.rename ρ (r.bodies id))
  classes : m.objects.classes = r.machine.objects.classes
  instances : m.objects.instances = r.machine.objects.instances
  active : m.active = r.machine.active
  distances : ∀ id, m.distances.find? id = r.machine.distances.find? id
  printed : m.printed = r.machine.printed
  sink : m.sink = r.machine.sink
  clock : m.clock = r.machine.clock
  readings : m.readings = r.machine.readings

namespace Mirrors

variable {ρ : Renaming} {r : Record} {m : Machine} {ds : Distances} {q : Site → Prop}

/-! ### What is the same -/

theorem ancestor? (h : ρ.Mirrors r m) (f : FrameId) (d : Nat) :
    m.frames.ancestor? f d = r.machine.frames.ancestor? f d := by
  induction d generalizing f with
  | zero => rfl
  | succ d ih =>
    unfold Frames.ancestor?
    rw [h.parent f]
    cases r.machine.frames.parent? f with
    | none => rfl
    | some g => exact ih g

/-- A global has its name. -/
theorem value?_globals (h : ρ.Mirrors r m) {x : String} (hx : x ≠ ρ.new) :
    m.frames.value? globals x = r.machine.frames.value? globals x := by
  have hv := h.value ⟨globals, none, x⟩ (Or.inl ⟨rfl, rfl⟩) hx
  rwa [name_none] at hv

/-- A reserved word has its name in each frame. -/
theorem value?_word (h : ρ.Mirrors r m) {f : FrameId} {o : Option Opener}
    (hk : Cell.Known r ⟨f, o, ""⟩) (k : Keyword) :
    m.frames.value? f k.text = r.machine.frames.value? f k.text := by
  have hv := h.value ⟨f, o, k.text⟩ hk (Ne.symm (ρ.new_ne k))
  rwa [name_word] at hv

theorem field? (h : ρ.Mirrors r m) (object : Nat) (name : String) :
    m.objects.field? object name = r.machine.objects.field? object name := by
  unfold Objects.field?
  rw [h.instances]

theorem classOf? (h : ρ.Mirrors r m) (object : Nat) :
    m.objects.classOf? object = r.machine.objects.classOf? object := by
  unfold Objects.classOf?
  rw [h.instances]

theorem method? (h : ρ.Mirrors r m) (klass : Nat) (name : String) :
    m.objects.method? klass name = r.machine.objects.method? klass name := by
  unfold Objects.method? Objects.ownMethod? Objects.lineage Objects.superclass?
  rw [h.classes]

/-- A method is renamed with the place of its body. -/
theorem methodClosure? (h : ρ.Mirrors r m) (klass : Nat) (name : String) :
    m.objects.methodClosure? klass name =
      (r.machine.objects.methodClosure? klass name).map
        (Closure.rename ρ (r.methodBody (some klass) name)) := by
  unfold Objects.methodClosure? Record.methodBody
  rw [h.method?]
  cases hid : r.machine.objects.method? klass name with
  | none => rfl
  | some id => exact (h.closures id).trans (by simp [hid])

theorem bind_methodClosure? (h : ρ.Mirrors r m) (klass : Option Nat) (name : String) :
    (klass.bind fun k => m.objects.methodClosure? k name) =
      (klass.bind fun k => r.machine.objects.methodClosure? k name).map
        (Closure.rename ρ (r.methodBody klass name)) := by
  cases klass with
  | none => rfl
  | some k => exact h.methodClosure? k name

theorem arity (h : ρ.Mirrors r m) (c : Callable) :
    m.objects.arity c = r.machine.objects.arity c := by
  have hlen : ∀ body (c : Closure), (c.rename ρ body).declaration.arity = c.declaration.arity :=
    fun body c => List.length_map ..
  cases c with
  | native id =>
    simp only [Objects.arity, h.natives]
  | closure id =>
    simp only [Objects.arity, h.closures id]
    cases r.machine.objects.closures[id]? with
    | none => rfl
    | some c => exact hlen _ c
  | klass k =>
    simp only [Objects.arity, Objects.initializer?, h.methodClosure?]
    cases r.machine.objects.methodClosure? k initializerName with
    | none => rfl
    | some c => exact hlen _ c

theorem display (h : ρ.Mirrors r m) (v : Value) :
    m.objects.display v = r.machine.objects.display v := by
  have hclass : m.objects.className = r.machine.objects.className := by
    funext k
    unfold Objects.className
    rw [h.classes]
  cases v with
  | callable c =>
    cases c with
    | native id => rfl
    | closure id =>
      show "<fn " ++ _ ++ ">" = "<fn " ++ _ ++ ">"
      rw [h.closures id, Option.map_map]
      rfl
    | klass k => exact congrFun hclass k
  | object id =>
    show ((m.objects.classOf? id).map m.objects.className).getD "" ++ " instance" = _
    rw [h.classOf?, hclass]
    rfl
  | bool b => cases b <;> rfl
  | _ => rfl

/-! ### Steps -/

/-- An event is noted that opens no frame. -/
theorem note (h : ρ.Mirrors r m) {e : Event} (he : e.IsNote) :
    ρ.Mirrors { r with log := e :: r.log } m :=
  { h with
    value := fun c hc hx => h.value c (hc.imp id fun ho => by
      rcases List.mem_cons.mp ho with rfl | ho
      · cases he
      · exact ho) hx }

theorem meet (h : ρ.Mirrors r m) (p : Place) (node : Node) : ρ.Mirrors (r.meet p node) m :=
  h.note trivial

theorem did (h : ρ.Mirrors r m) (deed : Deed) : ρ.Mirrors (r.did deed) m :=
  h.note trivial

theorem inside (h : ρ.Mirrors r m) (f : FrameId) :
    ρ.Mirrors (r.inside f) { m with active := f } :=
  { h with active := rfl }

/-- A write to a cell, under the name that it has now. -/
theorem write (h : ρ.Mirrors r m) (hl : Lawful ds q r) {c : Cell} (hc : c.Known r)
    (hne : c.name ≠ ρ.new) (v : Value) :
    ρ.Mirrors (r.write c v)
      { m with frames := m.frames.define c.activation (ρ.name c.opener c.name) v } := by
  have hlt := hc.lt_size hl
  have hlt' : c.activation < m.frames.size := h.size ▸ hlt
  refine { h with
    size := ?_
    parent := fun f => ?_
    value := fun c' hc' hne' => ?_ }
  · exact (m.frames.size_define ..).trans (h.size.trans (r.machine.frames.size_define ..).symm)
  · exact (m.frames.parent?_define ..).trans
      ((h.parent f).trans (r.machine.frames.parent?_define ..).symm)
  · replace hc' : c'.Known r := hc'.imp id fun ho => by
      rcases List.mem_cons.mp ho with he | ho
      · cases he
      · exact ho
    show (m.frames.define _ _ v).value? _ _ = (r.machine.frames.define _ _ v).value? _ _
    rw [m.frames.value?_define hlt', r.machine.frames.value?_define hlt, h.value c' hc' hne']
    -- cells of one frame have one opener, and stay apart under their new names
    have hiff : (c.activation = c'.activation ∧ ρ.name c.opener c.name = ρ.name c'.opener c'.name) ↔
        (c.activation = c'.activation ∧ c.name = c'.name) := by
      constructor
      · rintro ⟨ha, hn⟩
        exact ⟨ha, name_inj hne hne' hn⟩
      · rintro ⟨ha, hn⟩
        exact ⟨ha, by rw [hc.opener_eq hl hc' ha, hn]⟩
    simp only [hiff]

theorem push (h : ρ.Mirrors r m) (parent : FrameId) (opener : Option Opener) :
    ρ.Mirrors (r.push parent opener) { m with frames := m.frames.push (some parent) } := by
  have hsize := h.size
  refine { h with
    size := ?_
    parent := fun f => ?_
    value := fun c hc hne => ?_ }
  · exact (m.frames.size_push _).trans (hsize ▸ (r.machine.frames.size_push _).symm)
  · show (m.frames.push (some parent)).parent? f = (r.machine.frames.push (some parent)).parent? f
    rw [Frames.parent?_push, Frames.parent?_push, hsize, h.parent f]
  · show (m.frames.push _).value? _ _ = (r.machine.frames.push _).value? _ _
    rw [Frames.value?_push, Frames.value?_push]
    rcases hc with hg | ho
    · exact h.value c (Or.inl hg) hne
    · rcases List.mem_cons.mp ho with he | ho
      · -- the frame was not there before
        have hact : c.activation = r.machine.frames.size := (Event.opened.inj he).1
        rw [m.frames.value?_of_size_le (hsize ▸ Nat.le_of_eq hact.symm),
          r.machine.frames.value?_of_size_le (Nat.le_of_eq hact.symm)]
      · exact h.value c (Or.inr ho) hne

theorem addClosure (h : ρ.Mirrors r m) (body : Place) (c : Closure) :
    ρ.Mirrors (r.addClosure body c) { m with
      objects := { m.objects with closures := m.objects.closures.push (c.rename ρ body) } } := by
  refine { h with
    closures_size := ?_
    closures := fun id => ?_ }
  · show (m.objects.closures.push _).size = (r.machine.objects.closures.push _).size
    rw [Array.size_push, Array.size_push, h.closures_size]
  · show (m.objects.closures.push _)[id]? = (r.machine.objects.closures.push _)[id]?.map
      (Closure.rename ρ (if id = r.machine.objects.closures.size then body else r.bodies id))
    rw [Array.getElem?_push, Array.getElem?_push, h.closures_size]
    split
    · rfl
    · exact h.closures id

/-- The same instances. -/
theorem withInstances (h : ρ.Mirrors r m) (instances : Array Instance) :
    ρ.Mirrors (r.withObjects { r.machine.objects with instances := instances })
      { m with objects := { m.objects with instances := instances } } :=
  { h with instances := rfl }

/-- The same classes. -/
theorem withClasses (h : ρ.Mirrors r m) (classes : Array ClassObject) :
    ρ.Mirrors (r.withObjects { r.machine.objects with classes := classes })
      { m with objects := { m.objects with classes := classes } } :=
  { h with classes := rfl }

/-- Before anything has run there is nothing to rename. -/
theorem start (ρ : Renaming) (clock : Nat → Float) (sink : Sink) {ds ds' : Distances}
    (h : ∀ id, ds'.find? id = ds.find? id) :
    ρ.Mirrors (Record.start { Machine.start clock sink with distances := ds })
      { Machine.start clock sink with distances := ds' } where
  size := rfl
  parent _ := rfl
  value c hc _ := by
    rcases hc with ⟨-, ho⟩ | ho
    · rw [ho, name_none]
      rfl
    · cases ho
  natives := rfl
  closures_size := rfl
  closures id := by simp [Machine.start, Machine.defineNative, Record.start, Objects.empty]
  classes := rfl
  instances := rfl
  active := rfl
  distances := h
  printed := rfl
  sink := rfl
  clock := rfl
  readings := rfl

end Mirrors

end Renaming

end Lox
