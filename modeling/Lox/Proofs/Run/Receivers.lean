/-
Receivers.

When a method is bound to an instance, a frame is made that holds the instance as `this`, inside of
the frame that the method captured.  What is known of such a frame stays true, as no later write
changes `this` or `super`.  A record is grounded if each activation of a method stands in the frame
in which the method was bound, and each class in the frame that holds its superclass.

* `Binds` — a frame in which a method was bound to an instance that has it;
* `ClassObject.DeclaredIn` — a class the methods of which captured a frame
  that holds its superclass;
* `Place.Receives`, `Place.Inherits` — the frames through which a place in a method sees its
  receiver, and the superclass;
* `Refers` — what `this` and `super` stand for where they are met;
* `Grounded` — the invariant of a record;
* `Retains` — what later records keep of it.

Design notes: a closure of a class is not bound, so that its frame is not yet that of a receiver.
Values are only bound methods and functions; that is why groundedness is asked of values, and not of
all closures that there are.
-/
import Lox.Proofs.Binding.Enclosing
import Lox.Proofs.Run.Ensures
import Lox.Proofs.Store.Lineage

namespace Lox

/-! ### Bound methods -/

/-- A frame in which a method of a class was bound to an instance.  It was made for the
region around the body of the method, and the class of the instance is that of the
method or inherits from it. -/
structure Binds (r : Record) (f : FrameId) (object klass method : Nat) : Prop where
  receiver : r.machine.frames.value? f "this" = some (.object object)
  opened : .opened f ((r.bodies method).openerAt 1) ∈ r.log
  own : ∃ name, r.machine.objects.ownMethod? klass name = some method
  captured : ∃ c, r.machine.objects.closures[method]? = some c ∧
    r.machine.frames.parent? f = some c.captured
  heir : ∃ k, r.machine.objects.classOf? object = some k ∧ klass ∈ r.machine.objects.lineage k

/-- The methods of a table captured one frame and stand directly in one region. -/
def Captured (r : Record) (frame : FrameId) (o : Opener) (table : NameTable Nat) : Prop :=
  ∀ name id, table.find? name = some id → ∃ c, r.machine.objects.closures[id]? = some c ∧
    c.captured = frame ∧ (r.bodies id).openerAt 1 = some o

/-- A class the methods of which captured one frame and stand directly in one region of `this`.  If
the class has a superclass, the frame holds it as `super`. -/
structure ClassObject.DeclaredIn (r : Record) (f : FrameId) (o : Opener) (c : ClassObject) :
    Prop where
  methods : Captured r f o c.methods
  superclass : ∀ k, c.superclass = some k →
    r.machine.frames.value? f "super" = some (.callable (.klass k))
  kind : o.kind = .receiver (if c.superclass.isSome then .subclass else .rootClass)

/-- A closure that is bound if it is a method. -/
def Closure.Grounded (r : Record) (body : Place) (c : Closure) : Prop :=
  ∀ o, body.openerAt 0 = some o → o.kind.isMethod = true →
    ∃ object klass method, Binds r c.captured object klass method ∧ r.bodies method = body

/-- A value that is a class only if there is that class, and a method only if it is bound. -/
structure Value.Grounded (r : Record) (v : Value) : Prop where
  klass : ∀ k, v = .callable (.klass k) → k < r.machine.objects.classes.size
  closure : ∀ id, v = .callable (.closure id) →
    ∃ c, r.machine.objects.closures[id]? = some c ∧ c.Grounded r (r.bodies id)

/-- The frame of an activation of a method stands in one in which that method was bound. -/
def Activates (r : Record) (a : FrameId) (o : Opener) : Prop :=
  ∃ f object klass method, r.machine.frames.parent? a = some f ∧
    Binds r f object klass method ∧ (r.bodies method).openerAt 0 = some o

/-! ### What is seen from a place -/

/-- The frames through which a place in a method sees its receiver.  The innermost method around the
place is `n` regions out; the frame of that number outwards is its activation, and the one around it
is the frame in which the method was bound. -/
structure Place.Receives (p : Place) (r : Record) (n : Nat) (f : FrameId)
    (object klass method : Nat) : Prop where
  innermost : p.around.method? = some n
  activation : ∃ a, r.machine.frames.ancestor? r.machine.active n = some a ∧
    .opened a (p.openerAt n) ∈ r.log
  receiver : r.machine.frames.ancestor? r.machine.active (n + 1) = some f
  body : (r.bodies method).openerAt 0 = p.openerAt n
  around : (r.bodies method).openerAt 1 = p.openerAt (n + 1)
  binds : Binds r f object klass method

/-- The frame through which a place in a method of a class sees the superclass of the
class.  The class was declared by the construct around the innermost method, and its
methods captured the frame. -/
structure Place.Inherits (p : Place) (r : Record) (n klass : Nat) (g : FrameId) (super : Nat) :
    Prop where
  frame : r.machine.frames.ancestor? r.machine.active (n + 2) = some g
  opened : .opened g (p.openerAt (n + 2)) ∈ r.log
  value : r.machine.frames.value? g "super" = some (.callable (.klass super))
  declared : ∃ o c, p.openerAt (n + 1) = some o ∧ r.machine.objects.classes[klass]? = some c ∧
    c.DeclaredIn r g o ∧ c.superclass = some super

/-- `this` is one frame farther out than the innermost method, and it is the instance to which the
method was bound. -/
def RefersThis (p : Place) (r : Record) (id : NodeId) (keyword : Token) : Prop :=
  ∃ n f object klass method, p.Receives r n f object klass method ∧
    r.machine.distances.find? id = some (n + 1) ∧
    ∀ fuel, Run.evaluate (fuel + 1) (.thisRef id keyword) r.machine =
      .ok (.object object) r.machine

/-- A method that is bound to an instance: a closure over a frame that holds the instance as `this`,
inside of the frame that the method captured. -/
def Machine.Bound (m : Machine) (id : Nat) (method : Closure) (object : Nat) : Prop :=
  ∃ f, m.objects.closures[id]? = some { method with captured := f } ∧
    m.frames.parent? f = some method.captured ∧ m.frames.value? f "this" = some (.object object)

/-- `super` is two frames farther out than the innermost method, and it is the superclass of the
class that declares the method.  A method that is found from there on is bound to the receiver, and
nothing goes wrong unless there is none. -/
def RefersSuper (p : Place) (r : Record) (id : NodeId) (keyword name : Token) : Prop :=
  ∃ n f object klass method g super, p.Receives r n f object klass method ∧
    p.Inherits r n klass g super ∧ r.machine.distances.find? id = some (n + 2) ∧
    ∀ fuel, match r.machine.objects.method? super name.lexeme with
      | some found => ∃ c bound m, r.machine.objects.closures[found]? = some c ∧
        Run.evaluate (fuel + 1) (.superRef id keyword name) r.machine =
          .ok (.callable (.closure bound)) m ∧ m.Bound bound c object
      | none => Run.evaluate (fuel + 1) (.superRef id keyword name) r.machine =
        .error (.raised (.runtime name.line (.undefinedProperty name.lexeme))) r.machine

/-- What `this` or `super` stands for where it is met. -/
structure Refers (p : Place) (node : Node) (r : Record) : Prop where
  this : ∀ id keyword, node = .expression (.thisRef id keyword) → RefersThis p r id keyword
  super : ∀ id keyword name, node = .expression (.superRef id keyword name) →
    RefersSuper p r id keyword name

/-! ### Grounded records -/

/-- Activations of methods stand in the frames in which the methods were bound, and classes in those
that hold their superclasses; and `this` and `super` have stood for these wherever they were met. -/
structure Grounded (r : Record) : Prop where
  values : ∀ f x v, r.machine.frames.value? f x = some v → v.Grounded r
  fields : ∀ i x v, r.machine.objects.field? i x = some v → v.Grounded r
  classes : ∀ (k : Nat) (c : ClassObject), r.machine.objects.classes[k]? = some c →
    (∀ k', c.superclass = some k' → k' < k) ∧ ∃ f o, c.DeclaredIn r f o
  activations : ∀ a o, .opened a (some o) ∈ r.log → o.kind.isMethod = true → Activates r a o
  met : ∀ later p node m earlier, r.log = later ++ .met p node m :: earlier →
    ∃ bodies, Later ⟨m, bodies, earlier⟩ r ∧ Refers p node ⟨m, bodies, earlier⟩

/-- A later record in which classes, instances, `this` and `super` are what they were. -/
structure Retains (r r' : Record) : Prop extends Later r r' where
  objects : r.machine.objects.Extends r'.machine.objects
  words : ∀ (k : Keyword) f v, r.machine.frames.value? f k.text = some v →
    r'.machine.frames.value? f k.text = some v

namespace Retains

variable {r r' r'' : Record}

theorem refl (r : Record) : Retains r r := ⟨.refl r, .refl _, fun _ _ _ h => h⟩

theorem trans (h : Retains r r') (h' : Retains r' r'') : Retains r r'' :=
  ⟨h.toLater.trans h'.toLater, h.objects.trans h'.objects,
    fun k f v hv => h'.words k f v (h.words k f v hv)⟩

/-- Nothing is lost if frames, objects and notes stay as they are. -/
theorem of_eq (hf : r'.machine.frames = r.machine.frames)
    (ho : r'.machine.objects = r.machine.objects) (hb : r'.bodies = r.bodies)
    (hl : r'.log = r.log) : Retains r r' :=
  ⟨.of_eq hf (by rw [ho]) hb hl, by rw [ho]; exact .refl _, fun k f v hv => by rw [hf]; exact hv⟩

/-- A write that does not change a reserved word. -/
theorem write {c : Cell} (hc : c.activation < r.machine.frames.size) {v : Value}
    (hw : ∀ k : Keyword, c.name = k.text → r.machine.frames.value? c.activation c.name = none) :
    Retains r (r.write c v) := by
  refine ⟨.write hc v, .refl _, fun k f u hu => ?_⟩
  show (r.machine.frames.define c.activation c.name v).value? f k.text = some u
  rw [r.machine.frames.value?_define hc]
  split
  · next he =>
    obtain ⟨rfl, hk⟩ := he
    rw [← hk, hw k hk] at hu
    cases hu
  · exact hu

theorem push (parent : FrameId) (opener : Option Opener) : Retains r (r.push parent opener) :=
  ⟨.push parent opener, .refl _, fun _ _ _ hv => (r.machine.frames.value?_push ..).trans hv⟩

theorem addClosure (body : Place) (c : Closure) : Retains r (r.addClosure body c) :=
  ⟨.addClosure body c, .of_eq rfl fun _ _ h => h, fun _ _ _ hv => hv⟩

theorem withObjects {o : Objects} (hc : o.closures = r.machine.objects.closures)
    (ho : r.machine.objects.Extends o) : Retains r (r.withObjects o) :=
  ⟨.of_eq rfl hc rfl rfl, ho, fun _ _ _ hv => hv⟩

theorem meet (p : Place) (node : Node) : Retains r (r.meet p node) :=
  ⟨.meet p node, .refl _, fun _ _ _ hv => hv⟩

theorem did (deed : Deed) : Retains r (r.did deed) :=
  ⟨.did deed, .refl _, fun _ _ _ hv => hv⟩

theorem inside (r : Record) (f : FrameId) : Retains r (r.inside f) :=
  .of_eq rfl rfl rfl rfl

end Retains

section

variable {r r' : Record}

theorem Binds.mono (h : Retains r r') {f : FrameId} {object klass method : Nat}
    (hb : Binds r f object klass method) : Binds r' f object klass method := by
  obtain ⟨c, hc, hp⟩ := hb.captured
  obtain ⟨hc', hbody⟩ := h.closures method c hc
  obtain ⟨name, hn⟩ := hb.own
  obtain ⟨k, hk, hl⟩ := hb.heir
  exact
    { receiver := h.words .this_ f _ hb.receiver
      opened := hbody ▸ h.log _ hb.opened
      own := ⟨name, h.objects.ownMethod? hn⟩
      captured := ⟨c, hc', h.parent f _ hp⟩
      heir := ⟨k, h.objects.instances object k hk, h.objects.mem_lineage hl⟩ }

/-- The method of a frame in which it was bound has its place in later records as well. -/
theorem Binds.body_eq (h : Later r r') {f : FrameId} {object klass method : Nat}
    (hb : Binds r f object klass method) : r'.bodies method = r.bodies method := by
  obtain ⟨c, hc, -⟩ := hb.captured
  exact (h.closures method c hc).2

theorem Captured.mono (h : Later r r') {frame : FrameId} {o : Opener} {table : NameTable Nat}
    (ht : Captured r frame o table) : Captured r' frame o table := by
  intro name id hid
  obtain ⟨c, hc, hf, ho⟩ := ht name id hid
  obtain ⟨hc', hb⟩ := h.closures id c hc
  exact ⟨c, hc', hf, by rw [hb]; exact ho⟩

theorem ClassObject.DeclaredIn.mono (h : Retains r r') {f : FrameId} {o : Opener}
    {c : ClassObject} (hd : c.DeclaredIn r f o) : c.DeclaredIn r' f o where
  methods := hd.methods.mono h.toLater
  superclass k hk := h.words .super_ f _ (hd.superclass k hk)
  kind := hd.kind

theorem Closure.Grounded.mono (h : Retains r r') {body : Place} {c : Closure}
    (hc : c.Grounded r body) : c.Grounded r' body := by
  intro o ho hm
  obtain ⟨object, klass, method, hb, hbody⟩ := hc o ho hm
  exact ⟨object, klass, method, hb.mono h, (hb.body_eq h.toLater).trans hbody⟩

theorem Value.Grounded.mono (h : Retains r r') {v : Value} (hv : v.Grounded r) :
    v.Grounded r' where
  klass k he := Nat.lt_of_lt_of_le (hv.klass k he) h.objects.size_le
  closure id he := by
    obtain ⟨c, hc, hg⟩ := hv.closure id he
    obtain ⟨hc', hb⟩ := h.closures id c hc
    exact ⟨c, hc', by rw [hb]; exact hg.mono h⟩

/-! The places of the closures that there are do not change. -/

theorem Later.relocate {m : Machine} {bodies : Nat → Place} {log : List Event}
    (h : Later ⟨m, bodies, log⟩ r) : Retains ⟨m, bodies, log⟩ ⟨m, r.bodies, log⟩ :=
  ⟨⟨fun _ _ hp => hp, fun _ _ hd => hd, fun _ he => he,
    fun id c hc => ⟨hc, (h.closures id c hc).2⟩⟩, .refl _, fun _ _ _ hv => hv⟩

theorem Place.Receives.mono {p : Place} {n : Nat} {f : FrameId} {object klass method : Nat}
    (hp : p.Receives r n f object klass method) (h : Retains r r')
    (ha : r'.machine.active = r.machine.active) (hs : r'.machine.frames = r.machine.frames) :
    p.Receives r' n f object klass method := by
  obtain ⟨a, hactivation, hopened⟩ := hp.activation
  have hbody := hp.binds.body_eq h.toLater
  exact
    { innermost := hp.innermost
      activation := ⟨a, by rw [ha, hs]; exact hactivation, h.log _ hopened⟩
      receiver := by rw [ha, hs]; exact hp.receiver
      body := hbody ▸ hp.body
      around := hbody ▸ hp.around
      binds := hp.binds.mono h }

/-- What is referred to does not depend on the closures that are still to come. -/
theorem Refers.relocate {p : Place} {node : Node} {m : Machine} {bodies : Nat → Place}
    {log : List Event} (hr : Refers p node ⟨m, bodies, log⟩) (h : Later ⟨m, bodies, log⟩ r) :
    Refers p node ⟨m, r.bodies, log⟩ where
  this id keyword he := by
    obtain ⟨n, f, object, klass, method, hp, hd, hrun⟩ := hr.this id keyword he
    exact ⟨n, f, object, klass, method, hp.mono h.relocate rfl rfl, hd, hrun⟩
  super id keyword name he := by
    obtain ⟨n, f, object, klass, method, g, super, hp, hi, hd, hrun⟩ := hr.super id keyword name he
    obtain ⟨o, c, ho, hc, hdeclared, hk⟩ := hi.declared
    exact ⟨n, f, object, klass, method, g, super, hp.mono h.relocate rfl rfl,
      ⟨hi.frame, hi.opened, hi.value, o, c, ho, hc, hdeclared.mono h.relocate, hk⟩, hd, hrun⟩

/-- Only what can be called has to be looked at. -/
theorem Value.Grounded.of_ne {v : Value} (h : ∀ c, v ≠ .callable c) : v.Grounded r :=
  ⟨fun _ he => absurd he (h _), fun _ he => absurd he (h _)⟩

theorem Value.Grounded.nil : Value.Grounded r .nil := .of_ne nofun

theorem Value.Grounded.object {i : Nat} : Value.Grounded r (.object i) := .of_ne nofun

theorem Activates.mono (h : Retains r r') {a : FrameId} {o : Opener} (ha : Activates r a o) :
    Activates r' a o := by
  obtain ⟨f, object, klass, method, hp, hb, ho⟩ := ha
  exact ⟨f, object, klass, method, h.parent a f hp, hb.mono h,
    by rw [hb.body_eq h.toLater]; exact ho⟩

end

/-! ### Steps -/

namespace Grounded

variable {r r' : Record}

/-- A step keeps a record grounded if all that is new in it is grounded. -/
theorem step (h : Grounded r) (hr : Retains r r')
    (hvalues : ∀ f x v, r'.machine.frames.value? f x = some v →
      r.machine.frames.value? f x = some v ∨ v.Grounded r')
    (hfields : ∀ i x v, r'.machine.objects.field? i x = some v →
      r.machine.objects.field? i x = some v ∨ v.Grounded r')
    (hclasses : ∀ (k : Nat) (c : ClassObject), r'.machine.objects.classes[k]? = some c →
      r.machine.objects.classes[k]? = some c ∨
        (∀ k', c.superclass = some k' → k' < k) ∧ ∃ f o, c.DeclaredIn r' f o)
    (hlog : r'.log = r.log ∨ ∃ e, r'.log = e :: r.log ∧
      (∀ p node m, e ≠ .met p node m) ∧
      ∀ a o, e = .opened a (some o) → o.kind.isMethod = true → Activates r' a o) :
    Grounded r' where
  -- what was there before is grounded still, since the step retains what it refers to
  values f x v hv := (hvalues f x v hv).elim (fun h' => (h.values f x v h').mono hr) id
  fields i x v hv := (hfields i x v hv).elim (fun h' => (h.fields i x v h').mono hr) id
  classes k c hc := by
    rcases hclasses k c hc with hc | hnew
    · obtain ⟨hlt, f, o, hd⟩ := h.classes k c hc
      exact ⟨hlt, f, o, hd.mono hr⟩
    · exact hnew
  activations a o ho hm := by
    rcases hlog with he | ⟨e, he, -, hnew⟩
    · exact (h.activations a o (he ▸ ho) hm).mono hr
    · rw [he] at ho
      rcases List.mem_cons.mp ho with rfl | ho
      · exact hnew a o rfl hm
      · exact (h.activations a o ho hm).mono hr
  met later p node m earlier hl := by
    have hold : ∀ later, r.log = later ++ .met p node m :: earlier →
        ∃ bodies, Later ⟨m, bodies, earlier⟩ r' ∧ Refers p node ⟨m, bodies, earlier⟩ := by
      intro later hl
      obtain ⟨bodies, hlater, hrefers⟩ := h.met later p node m earlier hl
      exact ⟨bodies, hlater.trans hr.toLater, hrefers⟩
    rcases hlog with he | ⟨e, he, hne, -⟩
    · exact hold later (he ▸ hl)
    · -- a node that was met is not the event of this step
      rw [he] at hl
      cases later with
      | nil => exact absurd (List.cons.inj hl).1 (hne p node m)
      | cons e' later => exact hold later (List.cons.inj hl).2

/-- A step that changes no frame, no object and no note. -/
theorem of_eq (h : Grounded r) (hf : r'.machine.frames = r.machine.frames)
    (ho : r'.machine.objects = r.machine.objects) (hb : r'.bodies = r.bodies)
    (hl : r'.log = r.log) : Grounded r' :=
  h.step (.of_eq hf ho hb hl) (fun _ _ _ hv => Or.inl (hf ▸ hv)) (fun _ _ _ hv => Or.inl (ho ▸ hv))
    (fun _ _ hc => Or.inl (ho ▸ hc)) (Or.inl hl)

/-- A grounded value is written, and no reserved word is changed. -/
theorem write (h : Grounded r) {c : Cell} (hc : c.activation < r.machine.frames.size)
    (hw : ∀ k : Keyword, c.name = k.text → r.machine.frames.value? c.activation c.name = none)
    {v : Value} (hv : v.Grounded r) : Grounded (r.write c v) := by
  have hr : Retains r (r.write c v) := .write hc hw
  refine h.step hr (fun f x u hu => ?_) (fun _ _ _ hu => Or.inl hu) (fun _ _ hc => Or.inl hc)
    (Or.inr ⟨_, rfl, fun _ _ _ he => (by cases he), fun _ _ he => (by cases he)⟩)
  have hu' : (r.machine.frames.define c.activation c.name v).value? f x = some u := hu
  rw [r.machine.frames.value?_define hc] at hu'
  split at hu'
  · cases hu'
    exact Or.inr (hv.mono hr)
  · exact Or.inl hu'

/-- A frame is made, inside of that in which a method was bound if it is an activation of the
method. -/
theorem push (h : Grounded r) {parent : FrameId} {opener : Option Opener}
    (ho : ∀ o, opener = some o → o.kind.isMethod = true →
      ∃ object klass method, Binds r parent object klass method ∧
        (r.bodies method).openerAt 0 = some o) : Grounded (r.push parent opener) := by
  have hr : Retains r (r.push parent opener) := .push parent opener
  refine h.step hr (fun f x v hv => Or.inl ((r.machine.frames.value?_push ..).symm.trans hv))
    (fun _ _ _ hv => Or.inl hv) (fun _ _ hc => Or.inl hc)
    (Or.inr ⟨_, rfl, fun _ _ _ he => (by cases he), fun a o he hm => ?_⟩)
  cases he
  obtain ⟨object, klass, method, hb, hbody⟩ := ho o rfl hm
  exact ⟨parent, object, klass, method, r.parent?_push .., hb.mono hr, hbody⟩

/-- A closure is made: no value refers to it yet. -/
theorem addClosure (h : Grounded r) (body : Place) (c : Closure) :
    Grounded (r.addClosure body c) :=
  h.step (.addClosure body c) (fun _ _ _ hv => Or.inl hv) (fun _ _ _ hv => Or.inl hv)
    (fun _ _ hc => Or.inl hc) (Or.inl rfl)

theorem addInstance (h : Grounded r) (k : Nat) : Grounded (r.addInstance k) :=
  h.step (.withObjects rfl (r.machine.objects.extends_addInstance k))
    (fun _ _ _ hv => Or.inl hv) (fun _ _ _ hv => Or.inl (Objects.field?_addInstance hv))
    (fun _ _ hc => Or.inl hc) (Or.inl rfl)

theorem setField (h : Grounded r) (i : Nat) (name : String) {v : Value} (hv : v.Grounded r) :
    Grounded (r.withObjects (r.machine.objects.setField i name v)) := by
  have hr : Retains r (r.withObjects (r.machine.objects.setField i name v)) :=
    .withObjects rfl (r.machine.objects.extends_setField i name v)
  refine h.step hr (fun _ _ _ hv => Or.inl hv) (fun j x u hu => ?_)
    (fun _ _ hc => Or.inl hc) (Or.inl rfl)
  rcases Objects.field?_setField_cases hu with rfl | hu
  · exact Or.inr (hv.mono hr)
  · exact Or.inl hu

/-- A class is made, the superclass of which is there. -/
theorem addClass (h : Grounded r) {c : ClassObject}
    (hlt : ∀ k, c.superclass = some k → k < r.machine.objects.classes.size)
    {f : FrameId} {o : Opener} (hd : c.DeclaredIn r f o) :
    Grounded (r.withObjects (r.machine.objects.addClass c)) := by
  have hr : Retains r (r.withObjects (r.machine.objects.addClass c)) :=
    .withObjects rfl (r.machine.objects.extends_addClass c)
  refine h.step hr (fun _ _ _ hv => Or.inl hv) (fun _ _ _ hv => Or.inl hv)
    (fun k c' hc' => ?_) (Or.inl rfl)
  have hc'' : (r.machine.objects.classes.push c)[k]? = some c' := hc'
  rw [Array.getElem?_push] at hc''
  split at hc''
  · next hk =>
    cases hc''
    exact Or.inr ⟨fun k' hk' => hk ▸ hlt k' hk', f, o, hd.mono hr⟩
  · exact Or.inl hc''

/-- A node is met at which `this` or `super` stands for what it should. -/
theorem meet (h : Grounded r) {p : Place} {node : Node} (hrefers : Refers p node r) :
    Grounded (r.meet p node) where
  values f x v hv := (h.values f x v hv).mono (.meet p node)
  fields i x v hv := (h.fields i x v hv).mono (.meet p node)
  classes k c hc := by
    obtain ⟨hlt, f, o, hd⟩ := h.classes k c hc
    exact ⟨hlt, f, o, hd.mono (.meet p node)⟩
  activations a o ho hm := by
    rcases List.mem_cons.mp ho with he | ho
    · cases he
    · exact (h.activations a o ho hm).mono (.meet p node)
  met later p' node' m earlier hl := by
    have hlog : .met p node r.machine :: r.log = later ++ .met p' node' m :: earlier := hl
    cases later with
    | nil =>
      cases hlog
      exact ⟨r.bodies, .meet p node, hrefers⟩
    | cons e later =>
      obtain ⟨bodies, hlater, hrefers'⟩ :=
        h.met later p' node' m earlier (List.cons.inj hlog).2
      exact ⟨bodies, hlater.trans (.meet p node), hrefers'⟩

/-- A deed is noted. -/
theorem did (h : Grounded r) (deed : Deed) : Grounded (r.did deed) :=
  h.step (.did deed) (fun _ _ _ hv => Or.inl hv) (fun _ _ _ hv => Or.inl hv)
    (fun _ _ hc => Or.inl hc)
    (Or.inr ⟨_, rfl, fun _ _ _ he => (by cases he), fun _ _ he => (by cases he)⟩)

theorem inside (h : Grounded r) (f : FrameId) : Grounded (r.inside f) :=
  h.of_eq rfl rfl rfl rfl

end Grounded

end Lox
