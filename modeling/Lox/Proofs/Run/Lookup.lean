/-
Looking up properties.

A property of an instance is the value last assigned to it, or else the method of its name that is
declared nearest, from the class of the instance on; and each time it is read, a method is a new
function, bound to the instance.

* `Machine.FreshMethod` — a method that was bound to an instance;
* `Run.property_apply` — what a property yields, and what that does to the machine;
* `History.Accords.methodClosure?` — the method that is found is the one of the first
  class body that has one;
* `Run.property_setField` — a property that is assigned does not change the others;
* `session_lookups` — properties and arities, at each moment of a session.

Design notes: the bodies of a class are told by the history, so that the statement does not depend
on how methods are stored and found.
-/
import Lox.Proofs.Run.Accord

namespace Lox

/-- A method that was bound to an instance: a new function, over a new frame which holds the
instance as `this` and nothing else, and from which so many links lead to the frame in which the
class of the method was declared.  Whatever was there before is as it was. -/
structure Machine.FreshMethod (m m' : Machine) (id : Nat) (f : FunDecl) (object : Nat)
    (body : ClassBody) : Prop where
  new : id = m.objects.closures.size
  closure : m'.objects.closures[id]? = some ⟨f, m.frames.size, f.isInitializer⟩
  receiver : ∀ x, m'.frames.value? m.frames.size x =
    if x = "this" then some (.object object) else none
  scope : ∀ d x line,
    m'.frames.getAt m.frames.size (d + if body.superclass.isSome then 2 else 1) x line =
      m'.frames.getAt body.scope d x line
  values : ∀ g, g < m.frames.size → ∀ x, m'.frames.value? g x = m.frames.value? g x
  spares : m.Spares m'

/-- The machine on which a method has been bound to an instance. -/
def Machine.bindTo (m : Machine) (c : Closure) (object : Nat) : Machine :=
  { m with
    frames := (m.frames.push (some c.captured)).define m.frames.size "this" (.object object)
    objects := { m.objects with
      closures := m.objects.closures.push { c with captured := m.frames.size } } }

/-- The machine on which a property of an instance has been assigned. -/
def Machine.assignTo (m : Machine) (object : Nat) (x : String) (v : Value) : Machine :=
  { m with objects := m.objects.setField object x v }

/-! ### Binding -/

theorem Machine.bindTo_fresh {m : Machine} {body : ClassBody} {captured : FrameId}
    (hcaptures : body.Captures m captured) (f : FunDecl) (object : Nat) :
    m.FreshMethod (m.bindTo ⟨f, captured, f.isInitializer⟩ object) m.objects.closures.size f object
      body := by
  have hlt : m.frames.size < (m.frames.push (some captured)).size := by
    rw [Frames.size_push]
    exact Nat.lt_succ_self _
  have hspares : m.Spares (m.bindTo ⟨f, captured, f.isInitializer⟩ object) :=
    (Machine.Spares.push m captured).trans
      ((Machine.Spares.define _ m.frames.size "this" (.object object)).trans
        (Machine.Spares.addClosure _ ⟨f, m.frames.size, f.isInitializer⟩))
  have hvalue : ∀ g x, (m.bindTo ⟨f, captured, f.isInitializer⟩ object).frames.value? g x =
      if m.frames.size = g ∧ "this" = x then some (.object object) else m.frames.value? g x := by
    intro g x
    refine (Frames.value?_define _ hlt ..).trans ?_
    rw [Frames.value?_push]
  have hparent : (m.bindTo ⟨f, captured, f.isInitializer⟩ object).frames.parent? m.frames.size =
      some captured := m.frames.parent?_define_push ..
  refine ⟨rfl, Array.getElem?_push_size, fun x => ?_, fun d x line => ?_, fun g hg x => ?_, hspares⟩
  · rw [hvalue, m.frames.value?_of_size_le (Nat.le_refl _)]
    simp only [true_and, eq_comm]
  · unfold Frames.getAt
    -- a class with a superclass has a frame for it, inside of the one in which it was declared
    cases hsuper : body.superclass with
    | none =>
      simp only [ClassBody.Captures, hsuper] at hcaptures
      simp only [Option.isSome_none, Bool.false_eq_true, if_false]
      rw [Frames.ancestor?_succ _ hparent, hcaptures]
    | some k =>
      simp only [ClassBody.Captures, hsuper] at hcaptures
      simp only [Option.isSome_some, if_true]
      rw [Frames.ancestor?_succ _ hparent,
        Frames.ancestor?_succ _ (hspares.parents _ _ hcaptures.1)]
  · rw [hvalue, if_neg fun h => absurd h.1 (Nat.ne_of_gt hg)]

namespace Run

theorem boundMethod_apply (klass : Option Nat) (object : Nat) (name : Token) (m : Machine) :
    boundMethod klass object name m =
      match klass.bind fun k => m.objects.methodClosure? k name.lexeme with
      | some c => .ok (.callable (.closure m.objects.closures.size)) (m.bindTo c object)
      | none => .error (.raised (.runtime name.line (.undefinedProperty name.lexeme))) m := by
  simp only [boundMethod, bind_apply, ofObjects]
  cases klass.bind fun k => m.objects.methodClosure? k name.lexeme <;> rfl

/-- A property is the field of its name, or else the method that is found, bound to the instance. -/
theorem property_apply (object : Nat) (name : Token) (m : Machine) :
    property object name m =
      match m.objects.field? object name.lexeme with
      | some v => .ok v m
      | none => boundMethod (m.objects.classOf? object) object name m := by
  simp only [property, bind_apply, ofObjects]
  cases m.objects.field? object name.lexeme <;> rfl

/-- A property that is assigned does not change what another instance or another property yields. -/
theorem property_assignTo {i j : Nat} {x : String} {name : Token} (h : ¬ (i = j ∧ x = name.lexeme))
    (v : Value) (m : Machine) :
    property j name (m.assignTo i x v) =
      match property j name m with
      | .ok u m' => .ok u (m'.assignTo i x v)
      | .error e m' => .error e (m'.assignTo i x v) := by
  have hfield : (m.assignTo i x v).objects.field? j name.lexeme = m.objects.field? j name.lexeme :=
    Objects.field?_setField_of_ne h v
  have hclass : (m.assignTo i x v).objects.classOf? j = m.objects.classOf? j :=
    m.objects.classOf?_setField i x v j
  have hmethod : ∀ k, (m.assignTo i x v).objects.methodClosure? k name.lexeme =
      m.objects.methodClosure? k name.lexeme := fun _ => rfl
  rw [property_apply, property_apply, hfield]
  cases m.objects.field? j name.lexeme with
  | some u => rfl
  | none =>
    simp only [boundMethod_apply, hclass, hmethod]
    cases (m.objects.classOf? j).bind fun k => m.objects.methodClosure? k name.lexeme <;> rfl

end Run

/-! ### Methods and the bodies of classes -/

/-- The method of a class is its own one, or that of the class above it. -/
theorem Objects.methodClosure?_eq {o : Objects} {k : Nat}
    (habove : ∀ k', o.superclass? k = some k' → k' < k) (x : String) :
    o.methodClosure? k x =
      match o.ownMethod? k x, o.superclass? k with
      | some id, _ => o.closures[id]?
      | none, some k' => o.methodClosure? k' x
      | none, none => none := by
  unfold methodClosure? method? lineage
  rw [chain_eq, List.findSome?_cons]
  cases o.ownMethod? k x with
  | some id => rfl
  | none =>
    cases hs : o.superclass? k with
    | none => rfl
    | some k' => simp only [if_pos (habove k' hs)]

theorem ClassBody.find?_cons (body : ClassBody) (bodies : List ClassBody) (x : String) :
    ClassBody.find? (body :: bodies) x =
      match FunDecl.last? body.methods x with
      | some f => some (body, f)
      | none => ClassBody.find? bodies x := by
  unfold ClassBody.find?
  rw [List.findSome?_cons]
  cases FunDecl.last? body.methods x <;> rfl

section

variable {m : Machine} {k : Nat} {body : ClassBody}

theorem ClassBody.Made.superclass?_eq (h : body.Made m k) :
    m.objects.superclass? k = body.superclass := by
  obtain ⟨c, frame, hc, -, hsuper, -⟩ := h.made
  unfold Objects.superclass?
  rw [hc, Option.bind_some, hsuper]

/-- The method of a class is the last one of its body, or that of the class above it. -/
theorem ClassBody.Made.methodClosure? (h : body.Made m k) (x : String) :
    match FunDecl.last? body.methods x with
    | some f => ∃ captured, body.Captures m captured ∧
        m.objects.methodClosure? k x = some ⟨f, captured, f.isInitializer⟩
    | none => m.objects.methodClosure? k x =
        body.superclass.bind fun above => m.objects.methodClosure? above x := by
  obtain ⟨c, frame, hc, -, -, hcaptures, hfill⟩ := h.made
  have hown : m.objects.ownMethod? k x = c.methods.find? x := by
    unfold Objects.ownMethod?
    rw [hc, Option.bind_some]
  have hx := hfill x
  rw [Objects.methodClosure?_eq (by rw [h.superclass?_eq]; exact h.above), hown, h.superclass?_eq]
  cases hlast : FunDecl.last? body.methods x with
  | some f =>
    rw [hlast] at hx
    obtain ⟨id, hid, hclosure⟩ := hx
    rw [hid]
    exact ⟨frame, hcaptures, hclosure⟩
  | none =>
    rw [hlast] at hx
    simp only at hx ⊢
    rw [hx]
    cases body.superclass <;> rfl

end

namespace History.Accords

variable {m : Machine} {deeds : List Deed} (h : History.Accords ⟨m, deeds⟩)

include h

/-- A class that exists was declared, and so were the classes above it. -/
theorem exists_descends {k : Nat} (hk : k < m.objects.classes.size) :
    ∃ bodies, Descends deeds k bodies := by
  -- a class is made behind the class above it, and has a greater number
  induction k using Nat.strongRecOn with
  | _ k ih =>
    obtain ⟨body, hbody⟩ := h.classes k hk
    cases hs : body.superclass with
    | none => exact ⟨[body], .root hbody hs⟩
    | some above =>
      have hlt := (h.bodies k body hbody).above above hs
      obtain ⟨bodies, hbodies⟩ := ih above hlt (Nat.lt_trans hlt hk)
      exact ⟨body :: bodies, .heir hbody hs hbodies⟩

/-- The method that is found from a class on is that of the first body which has one. -/
theorem methodClosure? {k : Nat} {bodies : List ClassBody} (hd : Descends deeds k bodies)
    (x : String) :
    match ClassBody.find? bodies x with
    | some (body, f) => ∃ captured, body.Captures m captured ∧
        m.objects.methodClosure? k x = some ⟨f, captured, f.isInitializer⟩
    | none => m.objects.methodClosure? k x = none := by
  induction hd with
  | @root k body hbody hs =>
    have hbody := (h.bodies k body hbody).methodClosure? x
    rw [hs] at hbody
    rw [ClassBody.find?_cons]
    cases hlast : FunDecl.last? body.methods x with
    | some f => rwa [hlast] at hbody
    | none => rwa [hlast] at hbody
  | @heir k above body bodies hbody hs hbodies ih =>
    have hbody := (h.bodies k body hbody).methodClosure? x
    rw [hs] at hbody
    rw [ClassBody.find?_cons]
    cases hlast : FunDecl.last? body.methods x with
    | some f => rwa [hlast] at hbody
    | none =>
      rw [hlast] at hbody
      simp only [Option.bind_some] at hbody
      rwa [hbody]

/-- A property yields the value last assigned to it, or else the method that is
found, or is a fault. -/
theorem property {i k : Nat} {bodies : List ClassBody} (hi : m.objects.classOf? i = some k)
    (hd : Descends deeds k bodies) (name : Token) :
    match lastAssigned deeds i name.lexeme, ClassBody.find? bodies name.lexeme with
    | some v, _ => Run.property i name m = .ok v m
    | none, some (body, f) => ∃ id m', Run.property i name m = .ok (.callable (.closure id)) m' ∧
        m.FreshMethod m' id f i body
    | none, none => Run.property i name m =
        .error (.raised (.runtime name.line (.undefinedProperty name.lexeme))) m := by
  have hmethod := h.methodClosure? hd name.lexeme
  rw [Run.property_apply, ← show m.objects.field? i name.lexeme = _ from h.fields i name.lexeme, hi]
  cases m.objects.field? i name.lexeme with
  | some v => rfl
  | none =>
    rw [Run.boundMethod_apply, Option.bind_some]
    cases hfind : ClassBody.find? bodies name.lexeme with
    | none =>
      rw [hfind] at hmethod
      simp only at hmethod
      rw [hmethod]
    | some found =>
      obtain ⟨body, f⟩ := found
      rw [hfind] at hmethod
      obtain ⟨captured, hcaptures, hclosure⟩ := hmethod
      rw [hclosure]
      exact ⟨_, _, rfl, Machine.bindTo_fresh hcaptures f i⟩

/-- A class takes as many arguments as the initializer that is found. -/
theorem arity {k : Nat} {bodies : List ClassBody} (hd : Descends deeds k bodies) :
    m.objects.arity (.klass k) =
      match ClassBody.find? bodies initializerName with
      | some (_, f) => f.params.length
      | none => 0 := by
  have hmethod := h.methodClosure? hd initializerName
  unfold Objects.arity Objects.initializer?
  cases hfind : ClassBody.find? bodies initializerName with
  | none =>
    rw [hfind] at hmethod
    simp only at hmethod ⊢
    rw [hmethod]
    rfl
  | some found =>
    obtain ⟨body, f⟩ := found
    rw [hfind] at hmethod
    obtain ⟨captured, -, hclosure⟩ := hmethod
    simp only
    rw [hclosure]
    rfl

end History.Accords

/-- A session keeps, beside what it does, the history of its classes and instances; no class is
declared twice under one number.  At each moment, which is one of those at which a node is
about to be evaluated or a property to be read, or the end, every instance has a class which
was declared, and so were the classes above it; and of each instance and the bodies of its
classes the following holds.

What a property yields is the value last assigned to it in this instance, if there was one; or
else the last method of its name in the first body which has one, as a new function bound to the
instance, from which links lead to the frame in which the body was declared; or else it is a
fault, which leaves the machine as it is.  The class takes as many arguments as the method that
is found for `init` has parameters, or none.  A value that is assigned to a property is what
this property then yields, and any other property, of this instance or of another one, yields
what it yielded before. -/
theorem session_lookups (clock : Nat → Float) (sink : Sink) (fuel : Nat) (sources : List String) :
    let h := Session.narrate fuel (.start clock sink) sources
    h.machine = ((Session.start (.start clock sink)).runEach fuel sources).machine ∧
      (h.deeds.filterMap Deed.declared?).Nodup ∧
      ∀ m deeds, h.At m deeds →
        (∀ i, i < m.objects.instances.size →
          ∃ k bodies, m.objects.classOf? i = some k ∧ Descends deeds k bodies) ∧
        ∀ i k bodies, m.objects.classOf? i = some k → Descends deeds k bodies →
          (∀ n e m₀ name, Run.evaluate n e m₀ = .ok (.object i) m →
            match lastAssigned deeds i name.lexeme, ClassBody.find? bodies name.lexeme with
            | some v, _ => Run.evaluate (n + 1) (.get e name) m₀ = .ok v m
            | none, some (body, f) => ∃ id m',
                Run.evaluate (n + 1) (.get e name) m₀ = .ok (.callable (.closure id)) m' ∧
                m.FreshMethod m' id f i body
            | none, none => Run.evaluate (n + 1) (.get e name) m₀ =
                .error (.raised (.runtime name.line (.undefinedProperty name.lexeme))) m) ∧
          m.objects.arity (.klass k) =
            (match ClassBody.find? bodies initializerName with
              | some (_, f) => f.params.length
              | none => 0) ∧
          ∀ (x : Token) v,
            Run.setField i x.lexeme v m = .ok () (m.assignTo i x.lexeme v) ∧
            Run.property i x (m.assignTo i x.lexeme v) = .ok v (m.assignTo i x.lexeme v) ∧
            ∀ j name, ¬ (i = j ∧ x.lexeme = name.lexeme) →
              Run.property j name (m.assignTo i x.lexeme v) =
                match Run.property j name m with
                | .ok u m' => .ok u (m'.assignTo i x.lexeme v)
                | .error e m' => .error e (m'.assignTo i x.lexeme v) := by
  intro h
  have hfaithful := Session.narrate_faithful clock sink fuel sources
  refine ⟨Session.trace_erases fuel _ sources, hfaithful.once, fun m deeds hat => ?_⟩
  have haccords := hfaithful.at_ hat
  refine ⟨fun i hi => ?_, fun i k bodies hi hd => ⟨fun n e m₀ name he => ?_, haccords.arity hd,
    fun x v => ⟨rfl, ?_, fun j name hne => Run.property_assignTo hne v m⟩⟩⟩
  · -- each instance has a class, and that has the classes above it
    have hclass : m.objects.classOf? i = some m.objects.instances[i].klass := by
      unfold Objects.classOf?
      rw [Array.getElem?_eq_getElem hi]
      rfl
    obtain ⟨bodies, hbodies⟩ := haccords.exists_descends (haccords.whole.instances i _ hclass)
    exact ⟨_, bodies, hclass, hbodies⟩
  · -- behind the object the property is looked up at once
    have hget : Run.evaluate (n + 1) (.get e name) m₀ = Run.property i name m := by
      rw [Run.evaluate, Run.bind_apply, he]
    rw [hget]
    exact haccords.property hi hd name
  · -- what was just assigned is the field of the instance
    obtain ⟨inst, hinst, -⟩ := Option.map_eq_some_iff.mp hi
    have hlt := (Array.getElem?_eq_some_iff.mp hinst).1
    rw [Run.property_apply, show (m.assignTo i x.lexeme v).objects.field? i x.lexeme = some v from
      (Objects.field?_setField hlt ..).trans (if_pos ⟨rfl, rfl⟩)]

end Lox
