/-
Runs of copies.

On two machines that differ in lines and numbers at most, a program and its copy run
alike: they print the same and end alike, a fault in the copy being on a line that belongs
to the line of the fault.

* `Machine.Copy` — machines that differ in lines and numbers, and in what was printed before;
* `Run.Copy` — runs that end alike on all such machines, and leave such machines behind;
* `AllCopy` — the same for each of the functions of the evaluation, with some fuel;
* `runAll_copy` — a program and its copy.

Design notes: frames and objects are made in the same order on both sides, so their numbers and with
them all values are the same.  Only closures hold a piece of the program.  Of the distances no more
is asked than that they agree on numbers that belong together, since one machine may know the
distances of a program that the other one has not seen yet.
-/
import Lox.Proofs.Run.Growth
import Lox.Proofs.Syntax.Copies
import Lox.Run.Program

namespace Lox

/-- Two closures that differ in lines and numbers at most. -/
structure Closure.Copy (π : Pairing) (c c' : Closure) : Prop where
  declaration : c.declaration.Copy π c'.declaration
  captured : c'.captured = c.captured
  isInitializer : c'.isInitializer = c.isInitializer

theorem FunDecl.Copy.closure {π : Pairing} {f f' : FunDecl} (h : f.Copy π f') (frame : FrameId)
    (b : Bool) : Closure.Copy π ⟨f, frame, b⟩ ⟨f', frame, b⟩ := ⟨h, rfl, rfl⟩

theorem Closure.Copy.mono? {π π' : Pairing} (hπ : π.Within π') {c? c?' : Option Closure}
    (h : Option.Rel (Closure.Copy π) c? c?') : Option.Rel (Closure.Copy π') c? c?' := by
  cases h with
  | none => exact .none
  | some hc => exact .some ⟨hc.declaration.mono hπ, hc.captured, hc.isInitializer⟩

/-- What is the same for copies is the same for closures that may be absent. -/
theorem Closure.Copy.read {α : Type} {π : Pairing} {f : Closure → α}
    (hf : ∀ {c c'}, Closure.Copy π c c' → f c' = f c) {c? c?' : Option Closure}
    (h : Option.Rel (Closure.Copy π) c? c?') (a : α) :
    (c?'.map f).getD a = (c?.map f).getD a := by
  cases h with
  | none => rfl
  | some hc => exact hf hc

/-- Two ends of runs that differ in lines at most. -/
inductive Halt.Copy (π : Pairing) : Halt → Halt → Prop where
  | raised {d d' : Diagnostic} (hd : d.Copy π d') : Halt.Copy π (.raised d) (.raised d')
  | outOfFuel : Halt.Copy π .outOfFuel .outOfFuel
  | malformed {t t' : Token} (ht : t.Copy π t') : Halt.Copy π (.malformed t) (.malformed t')
  | dangling : Halt.Copy π .dangling .dangling

theorem Diagnostic.Copy.mono {π π' : Pairing} (hπ : π.Within π') {d d' : Diagnostic}
    (h : d.Copy π d') : d.Copy π' d' := by
  cases h with
  | runtime hline fault => exact .runtime (hπ.lines hline) fault
  | output text => exact .output text

theorem Halt.Copy.mono {π π' : Pairing} (hπ : π.Within π') {h h' : Halt} (hh : h.Copy π h') :
    h.Copy π' h' := by
  cases hh with
  | raised hd => exact .raised (hd.mono hπ)
  | outOfFuel => exact .outOfFuel
  | malformed ht => exact .malformed (ht.mono hπ)
  | dangling => exact .dangling

/-- All faults of a native are on lines that belong to themselves. -/
def Native.Copies (π : Pairing) (n : Native) : Prop :=
  ∀ now arguments d, n.run now arguments = .error d → d.Copy π d

/-- Two machines that differ in lines and numbers at most, and in what was printed before. -/
structure Machine.Copy (π : Pairing) (before : List String) (m m' : Machine) : Prop where
  frames : m'.frames = m.frames
  natives : m'.objects.natives = m.objects.natives
  native : ∀ (id : Nat) (n : Native), m.objects.natives[id]? = some n → n.Copies π
  closures_size : m'.objects.closures.size = m.objects.closures.size
  closures : ∀ id : Nat,
    Option.Rel (Closure.Copy π) m.objects.closures[id]? m'.objects.closures[id]?
  classes : m'.objects.classes = m.objects.classes
  instances : m'.objects.instances = m.objects.instances
  active : m'.active = m.active
  distances : ∀ id id', π.ids id id' → m'.distances.find? id' = m.distances.find? id
  printed : m'.printed = m.printed ++ before
  sink : m'.sink = m.sink
  clock : m'.clock = m.clock
  readings : m'.readings = m.readings

namespace Machine.Copy

variable {π : Pairing} {before : List String} {m m' : Machine}

/-! ### What is the same -/

theorem method? (h : Machine.Copy π before m m') (klass : Nat) (name : String) :
    m'.objects.method? klass name = m.objects.method? klass name := by
  unfold Objects.method? Objects.ownMethod? Objects.lineage Objects.superclass?
  rw [h.classes]

/-- A method is found under the same number. -/
theorem methodClosure? (h : Machine.Copy π before m m') (klass : Nat) (name : String) :
    Option.Rel (Closure.Copy π) (m.objects.methodClosure? klass name)
      (m'.objects.methodClosure? klass name) := by
  unfold Objects.methodClosure?
  rw [h.method?]
  cases m.objects.method? klass name with
  | none => exact .none
  | some id => exact h.closures id

theorem bind_methodClosure? (h : Machine.Copy π before m m') (klass : Option Nat)
    (name : String) :
    Option.Rel (Closure.Copy π) (klass.bind fun k => m.objects.methodClosure? k name)
      (klass.bind fun k => m'.objects.methodClosure? k name) := by
  cases klass with
  | none => exact .none
  | some k => exact h.methodClosure? k name

theorem arity (h : Machine.Copy π before m m') (c : Callable) :
    m'.objects.arity c = m.objects.arity c := by
  cases c with
  | native id =>
    unfold Objects.arity
    rw [h.natives]
  | closure id => exact Closure.Copy.read (fun hc => hc.declaration.arity) (h.closures id) 0
  | klass k =>
    exact Closure.Copy.read (fun hc => hc.declaration.arity)
      (h.methodClosure? k initializerName) 0

theorem field? (h : Machine.Copy π before m m') (object : Nat) (name : String) :
    m'.objects.field? object name = m.objects.field? object name := by
  unfold Objects.field?
  rw [h.instances]

theorem classOf? (h : Machine.Copy π before m m') (object : Nat) :
    m'.objects.classOf? object = m.objects.classOf? object := by
  unfold Objects.classOf?
  rw [h.instances]

theorem className (h : Machine.Copy π before m m') (klass : Nat) :
    m'.objects.className klass = m.objects.className klass := by
  unfold Objects.className
  rw [h.classes]

/-- Values are displayed alike. -/
theorem display (h : Machine.Copy π before m m') (v : Value) :
    m'.objects.display v = m.objects.display v := by
  cases v with
  | bool b => cases b <;> rfl
  | callable c =>
    cases c with
    | closure id =>
      exact congrArg (fun name => "<fn " ++ name ++ ">")
        (Closure.Copy.read (fun hc => hc.declaration.name.lexeme) (h.closures id) "")
    | klass k => exact h.className k
    | native id => rfl
  | object id =>
    show ((m'.objects.classOf? id).map m'.objects.className).getD "" ++ " instance" = _
    rw [h.classOf?, funext h.className]
    rfl
  | _ => rfl

/-! ### What may happen to both machines -/

theorem inside (h : Machine.Copy π before m m') (frame : FrameId) :
    Machine.Copy π before { m with active := frame } { m' with active := frame } :=
  { h with active := rfl }

theorem withFrames (h : Machine.Copy π before m m') (f : Frames → Frames) :
    Machine.Copy π before { m with frames := f m.frames } { m' with frames := f m'.frames } :=
  { h with frames := congrArg f h.frames }

theorem addClosure (h : Machine.Copy π before m m') {c c' : Closure} (hc : c.Copy π c') :
    Machine.Copy π before
      { m with objects := { m.objects with closures := m.objects.closures.push c } }
      { m' with objects := { m'.objects with closures := m'.objects.closures.push c' } } where
  frames := h.frames
  natives := h.natives
  native := h.native
  closures_size := by
    simp only [Array.size_push, h.closures_size]
  closures id := by
    simp only [Array.getElem?_push, h.closures_size]
    split
    · exact .some hc
    · exact h.closures id
  classes := h.classes
  instances := h.instances
  active := h.active
  distances := h.distances
  printed := h.printed
  sink := h.sink
  clock := h.clock
  readings := h.readings

/-- Both machines may know other distances, which agree on numbers that belong together. -/
theorem withDistances (h : Machine.Copy π before m m') {π' : Pairing} (hπ : π.Within π')
    {ds ds' : Distances} (hds : ∀ id id', π'.ids id id' → ds'.find? id' = ds.find? id) :
    Machine.Copy π' before { m with distances := ds } { m' with distances := ds' } where
  frames := h.frames
  natives := h.natives
  native id n hn now arguments d hd := (h.native id n hn now arguments d hd).mono hπ
  closures_size := h.closures_size
  closures id := Closure.Copy.mono? hπ (h.closures id)
  classes := h.classes
  instances := h.instances
  active := h.active
  distances := hds
  printed := h.printed
  sink := h.sink
  clock := h.clock
  readings := h.readings

/-- One of the machines may learn distances that the other one knows already. -/
theorem learn (h : Machine.Copy π before m m') {π' : Pairing} (hπ : π.Within π') {ds : Distances}
    (hds : ∀ id id', π'.ids id id' →
      m'.distances.find? id' = (m.distances.merge ds).find? id) :
    Machine.Copy π' before { m with distances := m.distances.merge ds } m' :=
  h.withDistances hπ hds

/-- One of the machines may begin a new piece of output. -/
theorem clearOutput (h : Machine.Copy π before m m') :
    Machine.Copy π (m.printed ++ before) m.clearOutput m' :=
  { h with printed := h.printed }

end Machine.Copy

/-- Two readings of a variable: the same value, or the same fault up to its line. -/
inductive Reading.Copy {α : Type} (π : Pairing) :
    Except Diagnostic α → Except Diagnostic α → Prop where
  | ok (a : α) : Reading.Copy π (.ok a) (.ok a)
  | error {d d' : Diagnostic} (hd : d.Copy π d') : Reading.Copy π (.error d) (.error d')

namespace Frames

variable {π : Pairing} {line line' : Nat}

theorem getAt_copy (s : Frames) (h : π.lines line line') (f : FrameId) (d : Nat) (name : String) :
    Reading.Copy π (s.getAt f d name line) (s.getAt f d name line') := by
  unfold Frames.getAt
  split
  · exact .ok _
  · exact .error (.runtime h _)

theorem get_copy (s : Frames) (h : π.lines line line') (f : FrameId) (name : String) :
    Reading.Copy π (s.get f name line) (s.get f name line') := by
  unfold Frames.get
  split
  · exact .ok _
  · exact .error (.runtime h _)

end Frames

namespace Run

/-- On machines that are copies, the runs end alike and leave copies behind, with results that are
related. -/
structure Copy {α : Type} (π : Pairing) (before : List String) (R : α → α → Prop)
    (run run' : Run α) : Prop where
  after : ∀ m m', Machine.Copy π before m m' → match run m, run' m' with
    | .ok a n, .ok a' n' => R a a' ∧ Machine.Copy π before n n'
    | .error h n, .error h' n' => h.Copy π h' ∧ Machine.Copy π before n n'
    | _, _ => False

namespace Copy

variable {α β : Type} {π : Pairing} {before : List String} {R : α → α → Prop}
  {S : β → β → Prop} {run run' : Run α}

theorem pure {a a' : α} (h : R a a') : Copy π before R (Pure.pure a) (Pure.pure a') :=
  ⟨fun _ _ hm => ⟨h, hm⟩⟩

theorem halt {h h' : Halt} (hh : h.Copy π h') :
    Copy π before R (Run.halt h : Run α) (Run.halt h') :=
  ⟨fun _ _ hm => ⟨hh, hm⟩⟩

theorem raise {line line' : Nat} (h : π.lines line line') (fault : RuntimeFault) :
    Copy π before R (Run.raise line fault : Run α) (Run.raise line' fault) :=
  halt (.raised (.runtime h fault))

/-- Either both runs end with results, or both are halted. -/
theorem outcomes (h : Copy π before R run run') {m m' : Machine}
    (hm : Machine.Copy π before m m') :
    (∃ a a' n n', run m = .ok a n ∧ run' m' = .ok a' n' ∧ R a a' ∧ Machine.Copy π before n n') ∨
    (∃ e e' n n', run m = .error e n ∧ run' m' = .error e' n' ∧ e.Copy π e' ∧
      Machine.Copy π before n n') := by
  have hafter := h.after m m' hm
  cases he : run m with
  | ok a n =>
    cases he' : run' m' with
    | ok a' n' =>
      rw [he, he'] at hafter
      exact .inl ⟨a, a', n, n', rfl, rfl, hafter⟩
    | error e' n' =>
      rw [he, he'] at hafter
      cases hafter
  | error e n =>
    cases he' : run' m' with
    | ok a' n' =>
      rw [he, he'] at hafter
      cases hafter
    | error e' n' =>
      rw [he, he'] at hafter
      exact .inr ⟨e, e', n, n', rfl, rfl, hafter⟩

theorem bind {next next' : α → Run β} (h : Copy π before R run run')
    (hn : ∀ a a', R a a' → Copy π before S (next a) (next' a')) :
    Copy π before S (run >>= next) (run' >>= next') := by
  refine ⟨fun m m' hm => ?_⟩
  rw [bind_apply, bind_apply]
  obtain ⟨a, a', n, n', he, he', ha, hcopy⟩ | ⟨e, e', n, n', he, he', hcopy⟩ := h.outcomes hm
  · rw [he, he']
    exact (hn a a' ha).after n n' hcopy
  · rw [he, he']
    exact hcopy

/-- Runs that go on with the same value. -/
theorem andThen {next next' : α → Run β} (h : Copy π before Eq run run')
    (hn : ∀ a, Copy π before S (next a) (next' a)) :
    Copy π before S (run >>= next) (run' >>= next') :=
  h.bind fun a _ ha => ha ▸ hn a

theorem within (h : Copy π before R run run') (frame : FrameId) :
    Copy π before R (Run.within frame run) (Run.within frame run') := by
  refine ⟨fun m m' hm => ?_⟩
  unfold Run.within
  -- Whatever happened inside, both machines go back to the frame that was active before.
  obtain ⟨a, a', n, n', he, he', ha, hn⟩ | ⟨e, e', n, n', he, he', hh, hn⟩ :=
    h.outcomes (hm.inside frame)
  · rw [he, he']
    exact ⟨ha, { hn with active := hm.active }⟩
  · rw [he, he']
    exact ⟨hh, { hn with active := hm.active }⟩

/-! ### Frames -/

theorem ofExcept {x x' : Except Diagnostic α} (h : Reading.Copy π x x') :
    Copy π before Eq (Run.ofExcept x) (Run.ofExcept x') := by
  cases h with
  | ok a => exact pure rfl
  | error hd => exact halt (.raised hd)

theorem newFrame (parent : FrameId) :
    Copy π before Eq (Run.newFrame parent) (Run.newFrame parent) :=
  ⟨fun _ _ hm => ⟨congrArg Frames.size hm.frames.symm, hm.withFrames (Frames.push · (some parent))⟩⟩

theorem activeFrame : Copy π before Eq Run.activeFrame Run.activeFrame :=
  ⟨fun _ _ hm => ⟨hm.active.symm, hm⟩⟩

theorem define (frame : FrameId) (name : String) (v : Value) :
    Copy π before Eq (Run.define frame name v) (Run.define frame name v) :=
  ⟨fun _ _ hm => ⟨rfl, hm.withFrames (Frames.define · frame name v)⟩⟩

theorem defineAll (frame : FrameId) {names names' : List Token}
    (h : List.Forall₂ (Token.Copy π) names names') (vs : List Value) :
    Copy π before Eq (Run.defineAll frame (names.zip vs))
      (Run.defineAll frame (names'.zip vs)) := by
  induction h generalizing vs with
  | nil => exact pure rfl
  | cons hname _ ih =>
    cases vs with
    | nil => exact pure rfl
    | cons v vs =>
      rw [List.zip_cons_cons, List.zip_cons_cons, Run.defineAll, Run.defineAll, hname.lexeme]
      exact (define ..).andThen fun _ => ih vs

theorem getAt (frame : FrameId) (d : Nat) (name : String) {line line' : Nat}
    (h : π.lines line line') :
    Copy π before Eq (Run.getAt frame d name line) (Run.getAt frame d name line') := by
  refine ⟨fun m m' hm => ?_⟩
  unfold Run.getAt
  rw [hm.frames]
  exact (ofExcept (m.frames.getAt_copy h frame d name)).after m m' hm

theorem lookUp {id id' : NodeId} (hid : π.ids id id') {name name' : Token}
    (hname : name.Copy π name') : Copy π before Eq (Run.lookUp id name) (Run.lookUp id' name') := by
  refine ⟨fun m m' hm => ?_⟩
  unfold Run.lookUp
  rw [hm.distances id id' hid, hm.frames, hm.active, hname.lexeme]
  cases m.distances.find? id with
  | some d => exact (ofExcept (m.frames.getAt_copy hname.line _ d _)).after m m' hm
  | none => exact (ofExcept (m.frames.get_copy hname.line _ _)).after m m' hm

theorem assignIn (frame : Option FrameId) {name name' : Token} (hname : name.Copy π name')
    (v : Value) : Copy π before Eq (Run.assignIn frame name v) (Run.assignIn frame name' v) := by
  cases frame with
  | none =>
    refine ⟨fun m m' hm => ⟨.raised ?_, hm⟩⟩
    rw [hname.lexeme]
    exact .runtime hname.line _
  | some f =>
    refine ⟨fun m m' hm => ⟨rfl, ?_⟩⟩
    rw [hname.lexeme]
    exact hm.withFrames (Frames.define · f name.lexeme v)

theorem store {id id' : NodeId} (hid : π.ids id id') {name name' : Token}
    (hname : name.Copy π name') (v : Value) :
    Copy π before Eq (Run.store id name v) (Run.store id' name' v) := by
  refine ⟨fun m m' hm => ?_⟩
  unfold Run.store
  rw [hm.distances id id' hid, hm.frames, hm.active, hname.lexeme]
  cases m.distances.find? id with
  | some d => exact (assignIn _ hname v).after m m' hm
  | none => exact (assignIn _ hname v).after m m' hm

theorem assign {name name' : Token} (hname : name.Copy π name') (v : Value) :
    Copy π before Eq (Run.assign name v) (Run.assign name' v) := by
  refine ⟨fun m m' hm => ?_⟩
  unfold Run.assign
  rw [hm.frames, hm.active, hname.lexeme]
  exact (assignIn _ hname v).after m m' hm

/-! ### Objects and output -/

/-- What is the same on both machines is read off their objects. -/
theorem ofObjects {f f' : Objects → α}
    (h : ∀ m m', Machine.Copy π before m m' → R (f m.objects) (f' m'.objects)) :
    Copy π before R (Run.ofObjects f) (Run.ofObjects f') :=
  ⟨fun m m' hm => ⟨h m m' hm, hm⟩⟩

theorem ofOption {x x' : Option α} (h : Option.Rel R x x') :
    Copy π before R (Run.ofOption x) (Run.ofOption x') := by
  cases h with
  | none => exact halt .dangling
  | some ha => exact pure ha

theorem newClosure {c c' : Closure} (hc : c.Copy π c') :
    Copy π before Eq (Run.newClosure c) (Run.newClosure c') :=
  ⟨fun _ _ hm => ⟨hm.closures_size.symm, hm.addClosure hc⟩⟩

theorem newClass (c : ClassObject) : Copy π before Eq (Run.newClass c) (Run.newClass c) :=
  ⟨fun _ _ hm => ⟨congrArg Array.size hm.classes.symm,
    { hm with classes := congrArg (Array.push · c) hm.classes }⟩⟩

theorem newInstance (klass : Nat) :
    Copy π before Eq (Run.newInstance klass) (Run.newInstance klass) :=
  ⟨fun _ _ hm => ⟨congrArg Array.size hm.instances.symm,
    { hm with instances := congrArg (Array.push · ⟨klass, []⟩) hm.instances }⟩⟩

theorem setField (object : Nat) (name : String) (v : Value) :
    Copy π before Eq (Run.setField object name v) (Run.setField object name v) :=
  ⟨fun _ _ hm => ⟨rfl, { hm with instances := congrArg (fun instances => instances.modify object
    fun i => { i with fields := i.fields.insert name v }) hm.instances }⟩⟩

theorem bindMethod {c c' : Closure} (hc : c.Copy π c') (object : Nat) :
    Copy π before (Closure.Copy π) (Run.bindMethod c object) (Run.bindMethod c' object) := by
  unfold Run.bindMethod
  rw [hc.captured]
  exact (newFrame _).andThen fun frame => (define ..).andThen fun _ =>
    pure ⟨hc.declaration, rfl, hc.isInitializer⟩

theorem bound {c c' : Closure} (hc : c.Copy π c') (object : Nat) :
    Copy π before Eq (Run.bound c object) (Run.bound c' object) :=
  (bindMethod hc object).bind fun _ _ hc => (newClosure hc).andThen fun _ => pure rfl

theorem callNative {n : Native} (hn : n.Copies π) (arguments : List Value) :
    Copy π before Eq (Run.callNative n arguments) (Run.callNative n arguments) := by
  refine ⟨fun m m' hm => ?_⟩
  have hm' : Machine.Copy π before { m with readings := m.readings + 1 }
      { m' with readings := m'.readings + 1 } :=
    { hm with readings := congrArg (· + 1) hm.readings }
  have hx : Reading.Copy π (n.run (m.clock m.readings) arguments)
      (n.run (m.clock m.readings) arguments) := by
    cases he : n.run (m.clock m.readings) arguments with
    | ok v => exact .ok v
    | error d => exact .error (hn _ _ d he)
  have hnow : m'.clock m'.readings = m.clock m.readings := by rw [hm.clock, hm.readings]
  unfold Run.callNative
  rw [hnow]
  exact (ofExcept hx).after _ _ hm'

theorem write (text : String) : Copy π before Eq (Run.write text) (Run.write text) := by
  refine ⟨fun m m' hm => ?_⟩
  unfold Run.write
  by_cases ht : text.isEmpty = true
  · rw [if_pos ht, if_pos ht]
    exact ⟨rfl, hm⟩
  · rw [if_neg ht, if_neg ht, hm.sink]
    have hm' : ∀ part, Machine.Copy π before
        { m with printed := part :: m.printed, sink := m.sink.next }
        { m' with printed := part :: m'.printed, sink := m.sink.next } := fun part =>
      { hm with printed := congrArg (part :: ·) hm.printed, sink := rfl }
    cases m.sink.answer.cut? text with
    | some cut => exact ⟨.raised (.output cut.fault), hm' cut.part⟩
    | none => exact ⟨rfl, hm' text⟩

/-! ### Operators -/

theorem applyUnary {operator operator' : Token} (h : operator.Copy π operator') (v : Value) :
    Copy π before Eq (Run.applyUnary operator v) (Run.applyUnary operator' v) := by
  unfold Run.applyUnary
  rw [h.kind]
  split
  · split
    · exact pure rfl
    · exact raise h.line _
  · exact pure rfl
  · exact halt (.malformed h)

theorem applyBinary {operator operator' : Token} (h : operator.Copy π operator') (a b : Value) :
    Copy π before Eq (Run.applyBinary operator a b) (Run.applyBinary operator' a b) := by
  unfold Run.applyBinary
  rw [h.kind]
  split
  · unfold Run.add
    split
    · exact pure rfl
    · exact pure rfl
    · exact raise h.line _
  · exact pure rfl
  · exact pure rfl
  · split
    · unfold Run.applyNumeric
      rw [h.kind]
      split <;> first | exact pure rfl | exact halt (.malformed h)
    · exact raise h.line _

theorem decides_eq {operator operator' : Token} (h : operator.Copy π operator') (v : Value) :
    decides operator' v = decides operator v := by
  unfold decides
  rw [h.kind]

/-! ### Properties and declarations -/

theorem boundMethod (klass : Option Nat) (object : Nat) {name name' : Token}
    (hname : name.Copy π name') :
    Copy π before Eq (Run.boundMethod klass object name)
      (Run.boundMethod klass object name') := by
  unfold Run.boundMethod
  rw [hname.lexeme]
  refine (ofObjects fun m m' hm => hm.bind_methodClosure? klass name.lexeme).bind
    fun c? c?' hc => ?_
  cases hc with
  | none => exact raise hname.line _
  | some hc => exact bound hc object

theorem property (object : Nat) {name name' : Token} (hname : name.Copy π name') :
    Copy π before Eq (Run.property object name) (Run.property object name') := by
  unfold Run.property
  rw [hname.lexeme]
  refine (ofObjects fun m m' hm => (hm.field? object name.lexeme).symm).andThen fun v => ?_
  cases v with
  | some v => exact pure rfl
  | none =>
    exact (ofObjects fun m m' hm => (hm.classOf? object).symm).andThen fun _ =>
      boundMethod _ object hname

theorem superReference {id id' : NodeId} (hid : π.ids id id') {keyword keyword' : Token}
    (h : keyword.Copy π keyword') :
    Copy π before Eq (Run.superReference id keyword) (Run.superReference id' keyword') := by
  refine andThen ⟨fun m m' hm => ?_⟩ fun d => activeFrame.andThen fun frame =>
    (getAt frame d "super" h.line).andThen fun _ =>
      (getAt frame (d - 1) "this" h.line).andThen fun _ => pure rfl
  rw [hm.distances id id' hid]
  cases m.distances.find? id with
  | some d => exact ⟨rfl, hm⟩
  | none => exact ⟨.raised (.runtime h.line _), hm⟩

theorem superMethod {id id' : NodeId} (hid : π.ids id id') {keyword keyword' method method' : Token}
    (hkeyword : keyword.Copy π keyword') (hmethod : method.Copy π method') :
    Copy π before Eq (Run.superMethod id keyword method)
      (Run.superMethod id' keyword' method') := by
  refine (superReference hid hkeyword).andThen fun found => ?_
  split
  · exact boundMethod _ _ hmethod
  · exact raise hkeyword.line _

theorem functionValue {f f' : FunDecl} (hf : f.Copy π f') :
    Copy π before Eq (Run.functionValue f) (Run.functionValue f') :=
  activeFrame.andThen fun frame => (newClosure (hf.closure frame false)).andThen fun _ => pure rfl

theorem methodTable (frame : FrameId) {fs fs' : List FunDecl} (h : FunDecl.CopyAll π fs fs')
    (table : NameTable Nat) :
    Copy π before Eq (Run.methodTable frame fs table) (Run.methodTable frame fs' table) := by
  induction fs generalizing fs' table with
  | nil =>
    cases h
    exact pure rfl
  | cons f fs ih =>
    cases h with
    | cons hf hfs =>
      rw [Run.methodTable, Run.methodTable, hf.name.lexeme, hf.isInitializer]
      exact (newClosure (hf.closure frame _)).andThen fun _ => ih hfs _

theorem methodFrame (frame : FrameId) (superclass : Option Nat) :
    Copy π before Eq (Run.methodFrame frame superclass) (Run.methodFrame frame superclass) := by
  cases superclass with
  | none => exact pure rfl
  | some k => exact (newFrame _).andThen fun _ => (define ..).andThen fun _ => pure rfl

theorem declareClass {name name' : Token} (hname : name.Copy π name') (superclass : Option Nat)
    {methods methods' : List FunDecl} (h : FunDecl.CopyAll π methods methods') :
    Copy π before Eq (Run.declareClass name superclass methods)
      (Run.declareClass name' superclass methods') := by
  unfold Run.declareClass
  rw [hname.lexeme]
  exact activeFrame.andThen fun _ => (define ..).andThen fun _ =>
    (methodFrame ..).andThen fun _ => (methodTable _ h []).andThen fun _ =>
      (newClass _).andThen fun _ => assign hname _

theorem asSuperclass {name name' : Token} (hname : name.Copy π name') (v : Value) :
    Copy π before Eq (Run.asSuperclass name v) (Run.asSuperclass name' v) := by
  unfold Run.asSuperclass
  split
  · exact pure rfl
  · exact raise hname.line _

end Copy

/-! ### Evaluation -/

/-- With some fuel, all evaluations of copies are alike. -/
structure AllCopy (π : Pairing) (before : List String) (fuel : Nat) : Prop where
  evaluate : ∀ {e e'}, Expr.Copy π e e' → Copy π before Eq (evaluate fuel e) (evaluate fuel e')
  evaluateAll : ∀ {es es'}, Expr.CopyAll π es es' →
    Copy π before Eq (evaluateAll fuel es) (evaluateAll fuel es')
  invoke : ∀ c vs, Copy π before Eq (invoke fuel c vs) (invoke fuel c vs)
  invokeClosure : ∀ {c c'}, Closure.Copy π c c' → ∀ vs,
    Copy π before Eq (invokeClosure fuel c vs) (invokeClosure fuel c' vs)
  execute : ∀ {s s'}, Stmt.Copy π s s' → Copy π before Eq (execute fuel s) (execute fuel s')
  executeAll : ∀ {ss ss'}, Stmt.CopyAll π ss ss' →
    Copy π before Eq (executeAll fuel ss) (executeAll fuel ss')
  repeatWhile : ∀ {e e' s s'}, Expr.Copy π e e' → Stmt.Copy π s s' →
    Copy π before Eq (repeatWhile fuel e s) (repeatWhile fuel e' s')

namespace AllCopy

variable {π : Pairing} {before : List String} {fuel : Nat} (h : AllCopy π before fuel)

include h

theorem evaluate_succ {e e' : Expr} (he : e.Copy π e') :
    Copy π before Eq (Run.evaluate (fuel + 1) e) (Run.evaluate (fuel + 1) e') := by
  cases he with
  | literal l => exact .pure rfl
  | grouping hinner => exact h.evaluate hinner
  | unary hoperator hright => exact (h.evaluate hright).andThen fun v => .applyUnary hoperator v
  | binary hleft hoperator hright =>
    exact (h.evaluate hleft).andThen fun a => (h.evaluate hright).andThen fun b =>
      .applyBinary hoperator a b
  | logical hleft hoperator hright =>
    refine (h.evaluate hleft).andThen fun a => ?_
    rw [Copy.decides_eq hoperator]
    split
    · exact .pure rfl
    · exact h.evaluate hright
  | var hid hname => exact .lookUp hid hname
  | thisRef hid hkeyword => exact .lookUp hid hkeyword
  | assign hid hname hvalue =>
    exact (h.evaluate hvalue).andThen fun v => (Copy.store hid hname v).andThen fun _ => .pure rfl
  | call hcallee hparen harguments =>
    refine (h.evaluate hcallee).andThen fun f => (h.evaluateAll harguments).andThen fun vs => ?_
    split
    · refine (Copy.ofObjects fun m m' hm => (hm.arity _).symm).andThen fun arity => ?_
      split
      · exact h.invoke ..
      · exact .raise hparen.line _
    · exact .raise hparen.line _
  | get hobject hname =>
    refine (h.evaluate hobject).andThen fun v => ?_
    split
    · exact .property _ hname
    · exact .raise hname.line _
  | set hobject hname hvalue =>
    refine (h.evaluate hobject).andThen fun v => ?_
    split
    · rw [hname.lexeme]
      exact (h.evaluate hvalue).andThen fun v => (Copy.setField ..).andThen fun _ => .pure rfl
    · exact .raise hname.line _
  | superRef hid hkeyword hmethod => exact .superMethod hid hkeyword hmethod

theorem evaluateAll_succ {es es' : List Expr} (hes : Expr.CopyAll π es es') :
    Copy π before Eq (Run.evaluateAll (fuel + 1) es) (Run.evaluateAll (fuel + 1) es') := by
  cases hes with
  | nil => exact .pure rfl
  | cons he hes =>
    exact (h.evaluate he).andThen fun _ => (h.evaluateAll hes).andThen fun _ => .pure rfl

theorem invoke_succ (c : Callable) (vs : List Value) :
    Copy π before Eq (Run.invoke (fuel + 1) c vs) (Run.invoke (fuel + 1) c vs) := by
  cases c with
  | native id =>
    have hn : ∀ m m', Machine.Copy π before m m' →
        Option.Rel (fun n n' => n = n' ∧ n.Copies π) m.objects.natives[id]?
          m'.objects.natives[id]? := by
      intro m m' hm
      rw [hm.natives]
      cases hid : m.objects.natives[id]? with
      | none => exact .none
      | some n => exact .some ⟨rfl, hm.native id n hid⟩
    refine (Copy.ofObjects hn).bind fun _ _ hn => (Copy.ofOption hn).bind fun n n' hn => ?_
    obtain ⟨rfl, hn⟩ := hn
    exact .callNative hn vs
  | closure id =>
    refine (Copy.ofObjects fun m m' hm => hm.closures id).bind fun _ _ hc =>
      (Copy.ofOption hc).bind fun c c' hc => ?_
    exact h.invokeClosure hc vs
  | klass k =>
    refine (Copy.newInstance k).andThen fun object =>
      (Copy.ofObjects fun m m' hm => hm.methodClosure? k initializerName).bind fun _ _ hc => ?_
    cases hc with
    | none => exact .pure rfl
    | some hc =>
      exact (Copy.bindMethod hc object).bind fun _ _ hc =>
        (h.invokeClosure hc vs).andThen fun _ => .pure rfl

theorem invokeClosure_succ {c c' : Closure} (hc : c.Copy π c') (vs : List Value) :
    Copy π before Eq (Run.invokeClosure (fuel + 1) c vs)
      (Run.invokeClosure (fuel + 1) c' vs) := by
  rw [Run.invokeClosure, Run.invokeClosure, hc.captured, hc.isInitializer]
  refine (Copy.newFrame _).andThen fun frame =>
    (Copy.defineAll frame hc.declaration.params vs).andThen fun _ => ?_
  refine ((h.executeAll hc.declaration.body).within frame).andThen fun signal => ?_
  split
  · exact .getAt _ _ _ hc.declaration.name.line
  · split
    · exact .pure rfl
    · exact .pure rfl

theorem execute_succ {s s' : Stmt} (hs : s.Copy π s') :
    Copy π before Eq (Run.execute (fuel + 1) s) (Run.execute (fuel + 1) s') := by
  cases hs with
  | expression he => exact (h.evaluate he).andThen fun _ => .pure rfl
  | print he =>
    exact (h.evaluate he).andThen fun v =>
      (Copy.ofObjects fun m m' hm => (hm.display v).symm).andThen fun text =>
        (Copy.write _).andThen fun _ => .pure rfl
  | varDecl hname hinitializer =>
    cases hinitializer with
    | none =>
      rw [Run.execute, Run.execute, hname.lexeme]
      exact Copy.activeFrame.andThen fun _ => (Copy.define ..).andThen fun _ => .pure rfl
    | some he =>
      rw [Run.execute, Run.execute, hname.lexeme]
      exact (h.evaluate he).andThen fun _ => Copy.activeFrame.andThen fun _ =>
        (Copy.define ..).andThen fun _ => .pure rfl
  | block hbody =>
    exact Copy.activeFrame.andThen fun _ => (Copy.newFrame _).andThen fun frame =>
      (h.executeAll hbody).within frame
  | branch hcondition hthen =>
    refine (h.evaluate hcondition).andThen fun v => ?_
    split
    · exact h.execute hthen
    · exact .pure rfl
  | branchElse hcondition hthen helse =>
    refine (h.evaluate hcondition).andThen fun v => ?_
    split
    · exact h.execute hthen
    · exact h.execute helse
  | loop hcondition hbody => exact h.repeatWhile hcondition hbody
  | function hf =>
    rw [Run.execute, Run.execute, hf.name.lexeme]
    exact (Copy.functionValue hf).andThen fun _ => Copy.activeFrame.andThen fun _ =>
      (Copy.define ..).andThen fun _ => .pure rfl
  | ret hkeyword hvalue =>
    cases hvalue with
    | none => exact .pure rfl
    | some he => exact (h.evaluate he).andThen fun _ => .pure rfl
  | classDecl hname hsuperclass hmethods =>
    cases hsuperclass with
    | none => exact (Copy.declareClass hname none hmethods).andThen fun _ => .pure rfl
    | some he =>
      exact (h.evaluate he).andThen fun v => (Copy.asSuperclass hname v).andThen fun k =>
        (Copy.declareClass hname (some k) hmethods).andThen fun _ => .pure rfl

theorem executeAll_succ {ss ss' : List Stmt} (hss : Stmt.CopyAll π ss ss') :
    Copy π before Eq (Run.executeAll (fuel + 1) ss) (Run.executeAll (fuel + 1) ss') := by
  cases hss with
  | nil => exact .pure rfl
  | cons hs hss =>
    refine (h.execute hs).andThen fun signal => ?_
    cases signal with
    | normal => exact h.executeAll hss
    | returned v => exact .pure rfl

theorem repeatWhile_succ {e e' : Expr} {s s' : Stmt} (he : e.Copy π e') (hs : s.Copy π s') :
    Copy π before Eq (Run.repeatWhile (fuel + 1) e s) (Run.repeatWhile (fuel + 1) e' s') := by
  refine (h.evaluate he).andThen fun v => ?_
  split
  · refine (h.execute hs).andThen fun signal => ?_
    cases signal with
    | normal => exact h.repeatWhile he hs
    | returned v => exact .pure rfl
  · exact .pure rfl

end AllCopy

theorem allCopy (π : Pairing) (before : List String) (fuel : Nat) : AllCopy π before fuel := by
  induction fuel with
  | zero =>
    constructor
    · intro e e' _
      exact .halt .outOfFuel
    · intro es es' _
      exact .halt .outOfFuel
    · intro c vs
      exact .halt .outOfFuel
    · intro c c' _ vs
      exact .halt .outOfFuel
    · intro s s' _
      exact .halt .outOfFuel
    · intro ss ss' _
      exact .halt .outOfFuel
    · intro e e' s s' _ _
      exact .halt .outOfFuel
  | succ fuel ih =>
    exact ⟨ih.evaluate_succ, ih.evaluateAll_succ, ih.invoke_succ, ih.invokeClosure_succ,
      ih.execute_succ, ih.executeAll_succ, ih.repeatWhile_succ⟩

/-- A program and its copy run alike. -/
theorem runAll_copy {π : Pairing} {before : List String} (fuel : Nat) {ss ss' : List Stmt}
    (h : Stmt.CopyAll π ss ss') : Copy π before Eq (runAll fuel ss) (runAll fuel ss') := by
  induction ss generalizing ss' with
  | nil =>
    cases h
    exact .pure rfl
  | cons s ss ih =>
    cases h with
    | cons hs hss => exact ((allCopy π before fuel).execute hs).andThen fun _ => ih hss

end Run

end Lox
