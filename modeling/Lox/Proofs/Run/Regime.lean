/-
Regimes.

A regime says with what a run may halt, and which functions may become closures.  It may also ask
that every operator is one, and that every value exists; then no run needs to halt over an operator
that is none, or over an object that is missing.

* `Regime`, `Regime.Admits` — a regime, and the machines that keep to it;
* `Run.Heeds` — on a machine that keeps to a regime, a run leads to one that does, and halts only as
  the regime allows;
* `AllHeed` — the same for each of the functions of the evaluation, with some fuel;
* `allHeed`, `interpret_heeds` — with any fuel, and for whole programs;
* `Machine.equipped`, `Regime.admits_unused` — a machine with natives of any kind, on which nothing
  has run;
* `Regime.Admits.run` — one source after another.

Design notes: one induction over the evaluation serves every regime, so what only some of them ask
for stands behind the premises `R.operators` and `R.references`.  Values need to exist only if they
are called: the evaluation looks up natives and closures by number, and everything else by way of
them.
-/
import Lox.Proofs.Store.Growth
import Lox.Proofs.Store.Lineage
import Lox.Proofs.Syntax.Operators
import Lox.Session

namespace Lox

/-! ### Functions in statements -/

mutual

/-- The functions that a statement declares outside of other functions. -/
def Stmt.functions : Stmt → List FunDecl
  | .block body => Stmt.functionsIn body
  | .classDecl _ _ methods => methods
  | .function f => [f]
  | .branch _ thenBranch none => thenBranch.functions
  | .branch _ thenBranch (some elseBranch) => thenBranch.functions ++ elseBranch.functions
  | .loop _ body => body.functions
  | .expression _ | .print _ | .ret .. | .varDecl .. => []

/-- The functions that a list of statements declares outside of other functions. -/
def Stmt.functionsIn : List Stmt → List FunDecl
  | [] => []
  | s :: ss => s.functions ++ Stmt.functionsIn ss

end

theorem FunDecl.AllOperate.mem {fs : List FunDecl} (h : FunDecl.AllOperate fs) {f : FunDecl}
    (hf : f ∈ fs) : f.Operates := by
  induction fs with
  | nil => cases hf
  | cons g fs ih =>
    rcases List.mem_cons.mp hf with rfl | hf
    · exact h.1
    · exact ih h.2 hf

mutual

/-- The functions in a statement that operates do so too. -/
theorem Stmt.Operates.functions {s : Stmt} (h : s.Operates) : ∀ f ∈ s.functions, f.Operates := by
  intro f hf
  match s with
  | .block body =>
    have hbody : Stmt.AllOperate body := h
    exact hbody.functionsIn f hf
  | .classDecl _ _ methods => exact FunDecl.AllOperate.mem h.2 hf
  | .function g =>
    cases List.mem_singleton.mp hf
    exact h
  | .branch _ thenBranch none => exact Stmt.Operates.functions (s := thenBranch) h.2 f hf
  | .branch _ thenBranch (some elseBranch) =>
    rcases List.mem_append.mp hf with hf | hf
    · exact Stmt.Operates.functions (s := thenBranch) h.2.1 f hf
    · exact Stmt.Operates.functions (s := elseBranch) h.2.2 f hf
  | .loop _ body => exact Stmt.Operates.functions (s := body) h.2 f hf
  | .expression _ => cases hf
  | .print _ => cases hf
  | .ret _ _ => cases hf
  | .varDecl _ _ => cases hf

theorem Stmt.AllOperate.functionsIn {ss : List Stmt} (h : Stmt.AllOperate ss) :
    ∀ f ∈ Stmt.functionsIn ss, f.Operates := by
  intro f hf
  match ss with
  | [] => cases hf
  | s :: ss =>
    rcases List.mem_append.mp hf with hf | hf
    · exact Stmt.Operates.functions h.1 f hf
    · exact Stmt.AllOperate.functionsIn h.2 f hf

end

/-! ### Values and natives -/

/-- A native or a closure that can be called is one of the objects. -/
def Value.Held (o : Objects) : Value → Prop
  | .callable (.native id) => id < o.natives.size
  | .callable (.closure id) => id < o.closures.size
  | _ => True

/-- What a native yields can be called only if it is an argument or one of `count` natives: a native
has no way to make other objects. -/
def Native.Passes (count : Nat) (n : Native) : Prop :=
  ∀ now vs v, n.run now vs = .ok v → v ∈ vs ∨ ∀ c, v = .callable c → ∃ id < count, c = .native id

/-- The natives are the same, and no closure is gone. -/
structure Objects.Within (o o' : Objects) : Prop where
  natives : o'.natives = o.natives
  closures : o.closures.size ≤ o'.closures.size

namespace Objects.Within

variable {o o' o'' : Objects}

theorem refl (o : Objects) : o.Within o := ⟨rfl, Nat.le_refl _⟩

theorem trans (h : o.Within o') (h' : o'.Within o'') : o.Within o'' :=
  ⟨h'.natives.trans h.natives, Nat.le_trans h.closures h'.closures⟩

/-- Classes and instances may change in any way. -/
theorem of_eq (hn : o'.natives = o.natives) (hc : o'.closures = o.closures) : o.Within o' :=
  ⟨hn, Nat.le_of_eq (congrArg Array.size hc.symm)⟩

end Objects.Within

theorem Value.Held.mono {o o' : Objects} (h : o.Within o') {v : Value} (hv : v.Held o) :
    v.Held o' := by
  match v with
  | .callable (.native id) =>
    show id < o'.natives.size
    rw [h.natives]
    exact hv
  | .callable (.closure id) => exact Nat.lt_of_lt_of_le hv h.closures
  | .callable (.klass _) => trivial
  | .nil => trivial
  | .bool _ => trivial
  | .number _ => trivial
  | .string _ => trivial
  | .object _ => trivial

/-! ### Regimes -/

/-- With what a run may halt, and which functions may become closures. -/
structure Regime where
  halts : Halt → Prop
  declared : FunDecl → Prop
  /-- every operator is one -/
  operators : Prop
  /-- every value exists -/
  references : Prop
  outOfFuel : halts .outOfFuel
  runtime : ∀ line fault, halts (.raised (.runtime line fault))
  output : ∀ text, halts (.raised (.output text))
  malformed : ¬operators → ∀ operator, halts (.malformed operator)
  dangling : ¬references → halts .dangling
  operates : operators → ∀ f, declared f → f.Operates
  nested : ∀ f, declared f → ∀ g ∈ Stmt.functionsIn f.body, declared g

namespace Regime

variable (R : Regime)

/-- The value exists, if the regime asks for it. -/
def Holds (v : Value) (o : Objects) : Prop :=
  R.references → v.Held o

/-- A value that is returned exists, if the regime asks for it. -/
def Ends (signal : Signal) (o : Objects) : Prop :=
  ∀ v, signal = .returned v → R.Holds v o

/-- A statement that may run: it operates, and its functions may become closures. -/
structure Allows (s : Stmt) : Prop where
  operates : R.operators → s.Operates
  declares : ∀ f ∈ s.functions, R.declared f

/-- Statements that may run. -/
structure AllowsAll (ss : List Stmt) : Prop where
  operates : R.operators → Stmt.AllOperate ss
  declares : ∀ f ∈ Stmt.functionsIn ss, R.declared f

/-- A machine that keeps to the regime. -/
structure Admits (m : Machine) : Prop where
  natives : ∀ n ∈ m.objects.natives, ∀ now vs d, n.run now vs = .error d → R.halts (.raised d)
  passes : R.references → ∀ n ∈ m.objects.natives, n.Passes m.objects.natives.size
  closures : ∀ c ∈ m.objects.closures, R.declared c.declaration
  values : ∀ f x v, m.frames.value? f x = some v → R.Holds v m.objects
  fields : ∀ i x v, m.objects.field? i x = some v → R.Holds v m.objects

variable {R} {m : Machine} {v : Value} {o o' : Objects}

theorem Holds.mono (h : R.Holds v o) (ho : o.Within o') : R.Holds v o' :=
  fun hs => (h hs).mono ho

/-- Plain data, objects and classes always exist. -/
theorem Holds.of_ne (h : ∀ c, v ≠ .callable c) : R.Holds v o := by
  intro _
  match v with
  | .callable c => exact absurd rfl (h c)
  | .nil => trivial
  | .bool _ => trivial
  | .number _ => trivial
  | .string _ => trivial
  | .object _ => trivial

theorem Ends.normal : R.Ends .normal o := fun _ h => by cases h

/-! ### Parts of statements -/

theorem Allows.branch {condition : Expr} {thenBranch : Stmt} {elseBranch : Option Stmt}
    (h : R.Allows (.branch condition thenBranch elseBranch)) :
    (R.operators → condition.Operates) ∧ R.Allows thenBranch ∧ ∀ s ∈ elseBranch, R.Allows s := by
  cases elseBranch with
  | none =>
    exact ⟨fun hs => (h.operates hs).1, ⟨fun hs => (h.operates hs).2, h.declares⟩,
      fun _ hs => by cases hs⟩
  | some s =>
    refine ⟨fun hs => (h.operates hs).1, ⟨fun hs => (h.operates hs).2.1, fun f hf => ?_⟩, ?_⟩
    · exact h.declares f (List.mem_append_left _ hf)
    · intro s' hs'
      cases hs'
      exact ⟨fun hs => (h.operates hs).2.2, fun f hf => h.declares f (List.mem_append_right _ hf)⟩

theorem AllowsAll.cons {s : Stmt} {ss : List Stmt} (h : R.AllowsAll (s :: ss)) :
    R.Allows s ∧ R.AllowsAll ss :=
  ⟨⟨fun hs => (h.operates hs).1, fun f hf => h.declares f (List.mem_append_left _ hf)⟩,
    ⟨fun hs => (h.operates hs).2, fun f hf => h.declares f (List.mem_append_right _ hf)⟩⟩

/-- The body of a function that may become a closure may run. -/
theorem allowsAll_body {f : FunDecl} (h : R.declared f) : R.AllowsAll f.body :=
  ⟨fun hs => (R.operates hs f h).body, R.nested f h⟩

/-! ### Machines -/

namespace Admits

variable (h : R.Admits m)

include h

/-- What the machine is beside its frames and objects does not matter. -/
theorem of_eq {m' : Machine} (hf : m'.frames = m.frames) (ho : m'.objects = m.objects) :
    R.Admits m' where
  natives := ho ▸ h.natives
  passes := ho ▸ h.passes
  closures := ho ▸ h.closures
  values f x v hv := ho ▸ h.values f x v (hf ▸ hv)
  fields i x v hv := ho ▸ h.fields i x v (ho ▸ hv)

theorem push (parent : FrameId) :
    R.Admits { m with frames := m.frames.push (some parent) } :=
  { h with values := fun f x v hv => h.values f x v ((m.frames.value?_push ..).symm.trans hv) }

theorem define (f : FrameId) (x : String) (hv : R.Holds v m.objects) :
    R.Admits { m with frames := m.frames.define f x v } := by
  refine { h with values := fun g y u hu => ?_ }
  rcases m.frames.value?_define_cases hu with rfl | hu
  · exact hv
  · exact h.values g y u hu

/-- Behind a change of the objects that makes none of them disappear. -/
theorem withObjects (hw : m.objects.Within o)
    (hc : ∀ c ∈ o.closures, R.declared c.declaration)
    (hf : ∀ i x v, o.field? i x = some v → R.Holds v m.objects) :
    R.Admits { m with objects := o } where
  natives n hn := h.natives n (hw.natives ▸ hn)
  passes hs n hn := by
    show n.Passes o.natives.size
    rw [hw.natives] at hn ⊢
    exact h.passes hs n hn
  closures := hc
  values f x v hv := (h.values f x v hv).mono hw
  fields i x v hv := (hf i x v hv).mono hw

end Admits

end Regime

namespace Run

/-- On a machine that keeps to the regime, the run leads to one that does, with nothing gone; it
ends with a value of which `post` holds, or halts as the regime allows. -/
structure Heeds {α : Type} (R : Regime) (m : Machine) (run : Run α)
    (post : α → Objects → Prop) : Prop where
  after : R.Admits m → match run m with
    | .ok a m' => R.Admits m' ∧ m.objects.Within m'.objects ∧ post a m'.objects
    | .error h m' => R.Admits m' ∧ m.objects.Within m'.objects ∧ R.halts h

namespace Heeds

variable {α β : Type} {R : Regime} {m : Machine} {run : Run α} {post : α → Objects → Prop}

/-! ### Rules -/

theorem pure {a : α} (h : post a m.objects) : Heeds R m (Pure.pure a) post :=
  ⟨fun hm => ⟨hm, .refl _, h⟩⟩

theorem halt {e : Halt} (h : R.halts e) : Heeds R m (Run.halt e) post :=
  ⟨fun hm => ⟨hm, .refl _, h⟩⟩

theorem raise (line : Nat) (fault : RuntimeFault) : Heeds R m (Run.raise line fault) post :=
  halt (R.runtime line fault)

theorem bind {next : α → Run β} {post' : β → Objects → Prop} (h : Heeds R m run post)
    (hn : ∀ a m', m.objects.Within m'.objects → post a m'.objects → Heeds R m' (next a) post') :
    Heeds R m (run >>= next) post' := by
  refine ⟨fun hm => ?_⟩
  have hrun := h.after hm
  rw [bind_apply]
  cases hr : run m with
  | error e m' =>
    rw [hr] at hrun
    exact hrun
  | ok a m' =>
    rw [hr] at hrun
    obtain ⟨hm', hw, ha⟩ := hrun
    have hnext := (hn a m' hw ha).after hm'
    cases hb : next a m' with
    | error e m'' =>
      simp only [hb] at hnext ⊢
      exact ⟨hnext.1, hw.trans hnext.2.1, hnext.2.2⟩
    | ok b m'' =>
      simp only [hb] at hnext ⊢
      exact ⟨hnext.1, hw.trans hnext.2.1, hnext.2.2⟩

theorem within {run : Run α} {frame : FrameId} (h : Heeds R { m with active := frame } run post) :
    Heeds R m (Run.within frame run) post := by
  refine ⟨fun hm => ?_⟩
  have hrun := h.after (hm.of_eq rfl rfl)
  unfold Run.within
  cases hr : run { m with active := frame } with
  | error e m' =>
    rw [hr] at hrun
    exact ⟨hrun.1.of_eq rfl rfl, hrun.2⟩
  | ok a m' =>
    rw [hr] at hrun
    exact ⟨hrun.1.of_eq rfl rfl, hrun.2⟩

/-! ### Frames -/

theorem newFrame (parent : FrameId) : Heeds R m (Run.newFrame parent) fun _ _ => True :=
  ⟨fun hm => ⟨hm.push parent, .refl _, trivial⟩⟩

theorem activeFrame : Heeds R m Run.activeFrame fun _ _ => True :=
  ⟨fun hm => ⟨hm, .refl _, trivial⟩⟩

theorem define (frame : FrameId) (name : String) {v : Value} (hv : R.Holds v m.objects) :
    Heeds R m (Run.define frame name v) fun _ _ => True :=
  ⟨fun hm => ⟨hm.define frame name hv, .refl _, trivial⟩⟩

theorem defineAll (frame : FrameId) (entries : List (Token × Value))
    (h : ∀ e ∈ entries, R.Holds e.2 m.objects) :
    Heeds R m (Run.defineAll frame entries) fun _ _ => True := by
  induction entries generalizing m with
  | nil => exact pure trivial
  | cons e rest ih =>
    refine (define frame e.1.lexeme (h e (List.mem_cons_self ..))).bind fun _ m' hw _ => ?_
    exact ih fun e' he' => (h e' (List.mem_cons_of_mem _ he')).mono hw

/-- What is read off the frames exists, and that nothing is found is a runtime fault. -/
theorem ofFound {x : Except Diagnostic Value}
    (hv : ∀ v, x = .ok v → ∃ f name, m.frames.value? f name = some v)
    (he : ∀ d, x = .error d → ∃ name line, d = Frames.undefined name line) :
    Heeds R m (Run.ofExcept x) R.Holds := by
  refine ⟨fun hm => ?_⟩
  cases x with
  | ok v =>
    obtain ⟨f, name, hfound⟩ := hv v rfl
    exact ⟨hm, .refl _, hm.values f name v hfound⟩
  | error d =>
    obtain ⟨name, line, rfl⟩ := he d rfl
    exact ⟨hm, .refl _, R.runtime line _⟩

theorem getAt (frame : FrameId) (d : Nat) (name : String) (line : Nat) :
    Heeds R m (Run.getAt frame d name line) R.Holds := by
  refine ⟨(ofFound (x := m.frames.getAt frame d name line) (fun v hv => ?_)
    fun fault hf => ?_).after⟩
  · obtain ⟨g, hg⟩ := m.frames.value?_of_getAt hv
    exact ⟨g, name, hg⟩
  · unfold Frames.getAt at hf
    split at hf
    · cases hf
    · cases hf
      exact ⟨name, line, rfl⟩

theorem lookUp (id : NodeId) (name : Token) : Heeds R m (Run.lookUp id name) R.Holds := by
  cases hd : m.distances.find? id with
  | some d =>
    have hat : Run.lookUp id name m = Run.getAt m.active d name.lexeme name.line m := by
      unfold Run.lookUp Run.getAt
      rw [hd]
    refine ⟨?_⟩
    rw [hat]
    exact (getAt m.active d name.lexeme name.line).after
  | none =>
    have hget : Run.lookUp id name m =
        Run.ofExcept (m.frames.get globals name.lexeme name.line) m := by
      unfold Run.lookUp
      rw [hd]
    refine ⟨?_⟩
    rw [hget]
    refine (ofFound (fun v hv => ?_) fun fault hf => ?_).after
    · obtain ⟨g, hg⟩ := m.frames.value?_of_get hv
      exact ⟨g, name.lexeme, hg⟩
    · unfold Frames.get at hf
      split at hf
      · cases hf
      · cases hf
        exact ⟨name.lexeme, name.line, rfl⟩

theorem assignIn (frame : Option FrameId) (name : Token) {v : Value} (hv : R.Holds v m.objects) :
    Heeds R m (Run.assignIn frame name v) fun _ _ => True := by
  cases frame with
  | some f => exact ⟨fun hm => ⟨hm.define f name.lexeme hv, .refl _, trivial⟩⟩
  | none => exact ⟨fun hm => ⟨hm, .refl _, R.runtime _ _⟩⟩

theorem store (id : NodeId) (name : Token) {v : Value} (hv : R.Holds v m.objects) :
    Heeds R m (Run.store id name v) fun _ _ => True := by
  refine ⟨?_⟩
  unfold Run.store
  cases m.distances.find? id with
  | some d => exact (assignIn _ name hv).after
  | none => exact (assignIn _ name hv).after

theorem assign (name : Token) {v : Value} (hv : R.Holds v m.objects) :
    Heeds R m (Run.assign name v) fun _ _ => True :=
  ⟨(assignIn (m.frames.holder? m.active name.lexeme) name hv).after⟩

/-! ### Objects and output -/

theorem ofObjects (f : Objects → α) : Heeds R m (Run.ofObjects f) fun a o => a = f o :=
  ⟨fun hm => ⟨hm, .refl _, rfl⟩⟩

/-- A closure that is made has the next number. -/
theorem newClosure {c : Closure} (hc : R.declared c.declaration) :
    Heeds R m (Run.newClosure c) fun id o => R.Holds (.callable (.closure id)) o := by
  refine ⟨fun hm => ?_⟩
  have hsize := m.objects.closures.size_push c
  have hw : m.objects.Within { m.objects with closures := m.objects.closures.push c } :=
    ⟨rfl, by rw [hsize]; exact Nat.le_succ _⟩
  refine ⟨hm.withObjects hw (fun c' hc' => ?_) hm.fields, hw, fun _ => ?_⟩
  · rcases Array.mem_push.mp hc' with hc' | rfl
    · exact hm.closures c' hc'
    · exact hc
  · show m.objects.closures.size < (m.objects.closures.push c).size
    rw [hsize]
    exact Nat.lt_succ_self _

theorem newClass (c : ClassObject) : Heeds R m (Run.newClass c) fun _ _ => True := by
  refine ⟨fun hm => ?_⟩
  have hw : m.objects.Within (m.objects.addClass c) := .of_eq rfl rfl
  exact ⟨hm.withObjects hw hm.closures hm.fields, hw, trivial⟩

theorem newInstance (klass : Nat) : Heeds R m (Run.newInstance klass) fun _ _ => True := by
  refine ⟨fun hm => ?_⟩
  have hw : m.objects.Within (m.objects.addInstance klass) := .of_eq rfl rfl
  exact ⟨hm.withObjects hw hm.closures fun i x v hv =>
    hm.fields i x v (Objects.field?_addInstance hv), hw, trivial⟩

theorem setField (object : Nat) (name : String) {v : Value} (hv : R.Holds v m.objects) :
    Heeds R m (Run.setField object name v) fun _ _ => True := by
  refine ⟨fun hm => ?_⟩
  have hw : m.objects.Within (m.objects.setField object name v) := .of_eq rfl rfl
  refine ⟨hm.withObjects hw hm.closures fun i x u hu => ?_, hw, trivial⟩
  rcases Objects.field?_setField_cases hu with rfl | hu
  · exact hv
  · exact hm.fields i x u hu

theorem bindMethod {method : Closure} (object : Nat) (hc : R.declared method.declaration) :
    Heeds R m (Run.bindMethod method object) fun c _ => R.declared c.declaration :=
  (newFrame _).bind fun _ _ _ _ => (define _ _ (.of_ne fun c => by simp)).bind fun _ _ _ _ =>
    pure hc

theorem bound {method : Closure} (object : Nat) (hc : R.declared method.declaration) :
    Heeds R m (Run.bound method object) R.Holds :=
  (bindMethod object hc).bind fun _ _ _ hc => (newClosure hc).bind fun _ _ _ hid => pure hid

theorem callNative {n : Native} (hmem : n ∈ m.objects.natives) {vs : List Value}
    (hvs : ∀ v ∈ vs, R.Holds v m.objects) : Heeds R m (Run.callNative n vs) R.Holds := by
  refine ⟨fun hm => ?_⟩
  have hm' : R.Admits { m with readings := m.readings + 1 } := hm.of_eq rfl rfl
  unfold Run.callNative
  cases hr : n.run (m.clock m.readings) vs with
  | error d => exact ⟨hm', .refl _, hm.natives n hmem _ _ d hr⟩
  | ok v =>
    refine ⟨hm', .refl _, fun hs => ?_⟩
    rcases hm.passes hs n hmem _ _ v hr with hv | hnative
    · exact hvs v hv hs
    · match v with
      | .callable c =>
        obtain ⟨id, hlt, rfl⟩ := hnative c rfl
        exact hlt
      | .nil => trivial
      | .bool _ => trivial
      | .number _ => trivial
      | .string _ => trivial
      | .object _ => trivial

theorem write (text : String) : Heeds R m (Run.write text) fun _ _ => True := by
  refine ⟨fun hm => ?_⟩
  unfold Run.write
  by_cases ht : text.isEmpty = true
  · rw [if_pos ht]
    exact ⟨hm, .refl _, trivial⟩
  · rw [if_neg ht]
    cases m.sink.answer.cut? text with
    | some cut => exact ⟨hm.of_eq rfl rfl, .refl _, R.output cut.fault⟩
    | none => exact ⟨hm.of_eq rfl rfl, .refl _, trivial⟩

theorem flush : Heeds R m Run.flush fun _ _ => True := by
  refine ⟨fun hm => ?_⟩
  unfold Run.flush
  cases m.sink.answer.flushFault? with
  | some fault => exact ⟨hm.of_eq rfl rfl, .refl _, R.output fault⟩
  | none => exact ⟨hm.of_eq rfl rfl, .refl _, trivial⟩

theorem thenFlush {run : Run Unit} (h : Heeds R m run fun _ _ => True) :
    Heeds R m (Run.thenFlush run) fun _ _ => True := by
  refine ⟨fun hm => ?_⟩
  have hrun := h.after hm
  unfold Run.thenFlush
  cases hr : run m with
  | ok _ m' =>
    rw [hr] at hrun
    have hflush := (flush (R := R) (m := m')).after hrun.1
    simp only
    cases hf : Run.flush m' with
    | ok _ m'' =>
      rw [hf] at hflush
      exact ⟨hflush.1, hrun.2.1.trans hflush.2.1, trivial⟩
    | error fault m'' =>
      rw [hf] at hflush
      exact ⟨hflush.1, hrun.2.1.trans hflush.2.1, hflush.2.2⟩
  | error e m' =>
    rw [hr] at hrun
    have hflush := (flush (R := R) (m := m')).after hrun.1
    simp only
    cases hf : Run.flush m' with
    | ok _ m'' =>
      rw [hf] at hflush
      exact ⟨hflush.1, hrun.2.1.trans hflush.2.1, hrun.2.2⟩
    | error fault m'' =>
      rw [hf] at hflush
      exact ⟨hflush.1, hrun.2.1.trans hflush.2.1, hflush.2.2⟩

/-! ### Operators, properties and declarations -/

/-- An operator that is none is met only where the regime does not ask for operators. -/
theorem malformed {operator : Token} (h : ¬R.operators) :
    Heeds R m (Run.halt (.malformed operator)) post :=
  halt (R.malformed h operator)

theorem applyUnary {operator : Token}
    (ho : R.operators → Parse.unaryOperators operator.kind = true) (v : Value) :
    Heeds R m (Run.applyUnary operator v) R.Holds := by
  unfold Run.applyUnary
  split
  · split
    · exact pure (.of_ne fun c => by simp)
    · exact raise ..
  · exact pure (.of_ne fun c => by simp)
  · next hminus hbang =>
    refine malformed fun hs => ?_
    have hop := ho hs
    unfold Parse.unaryOperators at hop
    split at hop
    · next hk => exact hbang hk
    · next hk => exact hminus hk
    · cases hop

theorem applyNumeric {operator : Token}
    (ho : R.operators → operator.kind.isBinaryOperator = true) (hplus : operator.kind ≠ .mark .plus)
    (heq : operator.kind ≠ .mark .equalEqual) (hne : operator.kind ≠ .mark .bangEqual)
    (x y : Float) : Heeds R m (Run.applyNumeric operator x y) R.Holds := by
  unfold Run.applyNumeric
  split
  any_goals exact pure (.of_ne fun c => by simp)
  refine malformed fun hs => ?_
  have hop := ho hs
  -- all kinds of binary operators are dealt with
  cases hk : operator.kind with
  | mark k => cases k <;> simp_all [Kind.isBinaryOperator, Parse.factorOperators,
      Parse.termOperators, Parse.comparisonOperators, Parse.equalityOperators]
  | _ => simp [hk, Kind.isBinaryOperator, Parse.factorOperators, Parse.termOperators,
      Parse.comparisonOperators, Parse.equalityOperators] at hop

theorem applyBinary {operator : Token}
    (ho : R.operators → operator.kind.isBinaryOperator = true) (a b : Value) :
    Heeds R m (Run.applyBinary operator a b) R.Holds := by
  unfold Run.applyBinary
  split
  · unfold Run.add
    split
    · exact pure (.of_ne fun c => by simp)
    · exact pure (.of_ne fun c => by simp)
    · exact raise ..
  · exact pure (.of_ne fun c => by simp)
  · exact pure (.of_ne fun c => by simp)
  · next hplus heq hne =>
    split
    · exact applyNumeric ho hplus heq hne _ _
    · exact raise ..

/-- The closure of a method is one of the closures. -/
theorem declared_of_methodClosure? (hm : R.Admits m) {klass : Nat} {name : String} {c : Closure}
    (h : m.objects.methodClosure? klass name = some c) : R.declared c.declaration := by
  obtain ⟨id, -, hid⟩ := Option.bind_eq_some_iff.mp h
  exact hm.closures c (Array.mem_of_getElem? hid)

theorem boundMethod (klass : Option Nat) (object : Nat) (name : Token) :
    Heeds R m (Run.boundMethod klass object name) R.Holds := by
  refine ⟨fun hm => ?_⟩
  refine ((ofObjects _).bind fun c? m' hw hc => ⟨fun hm' => ?_⟩).after hm
  cases c? with
  | none =>
    have hraise : Heeds R m' (Run.raise name.line (.undefinedProperty name.lexeme)) R.Holds :=
      raise ..
    exact hraise.after hm'
  | some c =>
    obtain ⟨k, -, hk⟩ := Option.bind_eq_some_iff.mp hc.symm
    exact (bound object (declared_of_methodClosure? hm' hk)).after hm'

theorem property (object : Nat) (name : Token) :
    Heeds R m (Run.property object name) R.Holds := by
  refine (ofObjects _).bind fun v? m' hw hv => ?_
  cases v? with
  | some v => exact ⟨fun hm => ⟨hm, .refl _, hm.fields object name.lexeme v hv.symm⟩⟩
  | none => exact (ofObjects _).bind fun _ _ _ _ => boundMethod ..

theorem superReference (id : NodeId) (keyword : Token) :
    Heeds R m (Run.superReference id keyword) fun _ _ => True := by
  refine bind (⟨fun hm => ?_⟩ : Heeds R m _ fun _ _ => True) fun d _ _ _ => activeFrame.bind
    fun frame _ _ _ => (getAt ..).bind fun _ _ _ _ => (getAt ..).bind fun _ _ _ _ => pure trivial
  cases m.distances.find? id with
  | some d => exact ⟨hm, .refl _, trivial⟩
  | none => exact ⟨hm, .refl _, R.runtime _ _⟩

theorem superMethod (id : NodeId) (keyword method : Token) :
    Heeds R m (Run.superMethod id keyword method) R.Holds := by
  refine (superReference ..).bind fun found _ _ _ => ?_
  split
  · exact boundMethod ..
  · exact raise ..

theorem functionValue {f : FunDecl} (hf : R.declared f) :
    Heeds R m (Run.functionValue f) R.Holds :=
  activeFrame.bind fun _ _ _ _ => (newClosure hf).bind fun _ _ _ hid => pure hid

theorem methodTable (frame : FrameId) {fs : List FunDecl} (hfs : ∀ f ∈ fs, R.declared f)
    (table : NameTable Nat) :
    Heeds R m (Run.methodTable frame fs table) fun _ _ => True := by
  induction fs generalizing m table with
  | nil => exact pure trivial
  | cons f fs ih =>
    refine (newClosure (hfs f (List.mem_cons_self ..))).bind fun _ _ _ _ => ?_
    exact ih (fun g hg => hfs g (List.mem_cons_of_mem _ hg)) _

theorem methodFrame (frame : FrameId) (superclass : Option Nat) :
    Heeds R m (Run.methodFrame frame superclass) fun _ _ => True := by
  cases superclass with
  | none => exact pure trivial
  | some k =>
    have hk (o : Objects) : R.Holds (.callable (.klass k)) o := fun _ => trivial
    exact (newFrame _).bind fun _ _ _ _ => (define _ _ (hk _)).bind fun _ _ _ _ => pure trivial

theorem declareClass (name : Token) (superclass : Option Nat) {methods : List FunDecl}
    (hfs : ∀ f ∈ methods, R.declared f) :
    Heeds R m (Run.declareClass name superclass methods) fun _ _ => True := by
  refine activeFrame.bind fun frame _ _ _ => ?_
  refine (define frame _ (.of_ne fun c => by simp)).bind fun _ _ _ _ => ?_
  refine (methodFrame frame superclass).bind fun inner _ _ _ => ?_
  refine (methodTable inner hfs []).bind fun table _ _ _ => ?_
  exact (newClass _).bind fun klass _ _ _ =>
    assign name (v := .callable (.klass klass)) fun _ => trivial

theorem asSuperclass (name : Token) (v : Value) :
    Heeds R m (Run.asSuperclass name v) fun _ _ => True := by
  unfold Run.asSuperclass
  split
  · exact pure trivial
  · exact raise ..

end Heeds

/-! ### Evaluation -/

/-- With some fuel, every evaluation of what the regime allows heeds it. -/
structure AllHeed (R : Regime) (fuel : Nat) : Prop where
  evaluate : ∀ e m, (R.operators → e.Operates) → Heeds R m (evaluate fuel e) R.Holds
  evaluateAll : ∀ es m, (R.operators → Expr.AllOperate es) →
    Heeds R m (evaluateAll fuel es) fun vs o => ∀ v ∈ vs, R.Holds v o
  invoke : ∀ c vs m, R.Holds (.callable c) m.objects → (∀ v ∈ vs, R.Holds v m.objects) →
    Heeds R m (invoke fuel c vs) R.Holds
  invokeClosure : ∀ c vs m, R.declared c.declaration → (∀ v ∈ vs, R.Holds v m.objects) →
    Heeds R m (invokeClosure fuel c vs) R.Holds
  execute : ∀ s m, R.Allows s → Heeds R m (execute fuel s) R.Ends
  executeAll : ∀ ss m, R.AllowsAll ss → Heeds R m (executeAll fuel ss) R.Ends
  repeatWhile : ∀ e s m, (R.operators → e.Operates) → R.Allows s →
    Heeds R m (repeatWhile fuel e s) R.Ends

namespace AllHeed

variable {R : Regime} {fuel : Nat} (h : AllHeed R fuel)

include h

theorem evaluate_succ (e : Expr) (m : Machine) (he : R.operators → e.Operates) :
    Heeds R m (Run.evaluate (fuel + 1) e) R.Holds := by
  rw [Run.evaluate.eq_def]
  cases e with
  | literal l => exact .pure (.of_ne fun c => by cases l <;> simp [Literal.value])
  | grouping inner => exact h.evaluate inner m he
  | unary operator right =>
    exact (h.evaluate right m fun hs => (he hs).2).bind fun v _ _ _ =>
      .applyUnary (fun hs => (he hs).1) v
  | binary left operator right =>
    refine (h.evaluate left m fun hs => (he hs).1).bind fun a m₁ _ _ => ?_
    exact (h.evaluate right m₁ fun hs => (he hs).2.2).bind fun b _ _ _ =>
      .applyBinary (fun hs => (he hs).2.1) a b
  | logical left operator right =>
    refine (h.evaluate left m fun hs => (he hs).1).bind fun a m₁ _ ha => ?_
    split
    · exact .pure ha
    · exact h.evaluate right m₁ fun hs => (he hs).2
  | var id name => exact .lookUp id name
  | thisRef id keyword => exact .lookUp id keyword
  | assign id name value =>
    refine (h.evaluate value m he).bind fun v m₁ _ hv => ?_
    exact (Heeds.store id name hv).bind fun _ _ hw _ => .pure (hv.mono hw)
  | call callee paren arguments =>
    refine (h.evaluate callee m fun hs => (he hs).1).bind fun f m₁ _ hf => ?_
    refine (h.evaluateAll arguments m₁ fun hs => (he hs).2).bind fun vs m₂ hw hvs => ?_
    split
    · next c =>
      refine (Heeds.ofObjects _).bind fun arity m₃ hw' _ => ?_
      split
      · exact h.invoke c vs m₃ (hf.mono (hw.trans hw')) fun v hv => (hvs v hv).mono hw'
      · exact .raise ..
    · exact .raise ..
  | get object name =>
    refine (h.evaluate object m he).bind fun v m₁ _ _ => ?_
    split
    · exact .property ..
    · exact .raise ..
  | set object name value =>
    refine (h.evaluate object m fun hs => (he hs).1).bind fun v m₁ _ _ => ?_
    split
    · refine (h.evaluate value m₁ fun hs => (he hs).2).bind fun u m₂ _ hu => ?_
      exact (Heeds.setField _ _ hu).bind fun _ _ hw _ => .pure (hu.mono hw)
    · exact .raise ..
  | superRef id keyword method => exact .superMethod id keyword method

theorem evaluateAll_succ (es : List Expr) (m : Machine) (hes : R.operators → Expr.AllOperate es) :
    Heeds R m (Run.evaluateAll (fuel + 1) es) fun vs o => ∀ v ∈ vs, R.Holds v o := by
  cases es with
  | nil => exact .pure fun _ hv => by cases hv
  | cons e es =>
    refine (h.evaluate e m fun hs => (hes hs).1).bind fun v m₁ _ hv => ?_
    refine (h.evaluateAll es m₁ fun hs => (hes hs).2).bind fun vs m₂ hw hvs => ?_
    exact .pure (List.forall_mem_cons.mpr ⟨hv.mono hw, hvs⟩)

theorem invoke_succ (c : Callable) (vs : List Value) (m : Machine)
    (hc : R.Holds (.callable c) m.objects) (hvs : ∀ v ∈ vs, R.Holds v m.objects) :
    Heeds R m (Run.invoke (fuel + 1) c vs) R.Holds := by
  cases c with
  | native id =>
    -- if references are kept no number of a callable is without its object
    refine ⟨fun hm => ?_⟩
    cases hn : m.objects.natives[id]? with
    | some n =>
      have hrun : Run.invoke (fuel + 1) (.native id) vs m = Run.callNative n vs m := by
        simp only [Run.invoke, bind_apply, Run.ofObjects, hn, Run.ofOption, pure_apply]
      rw [hrun]
      exact (Heeds.callNative (Array.mem_of_getElem? hn) hvs).after hm
    | none =>
      have hrun : Run.invoke (fuel + 1) (.native id) vs m = .error .dangling m := by
        simp only [Run.invoke, bind_apply, Run.ofObjects, hn, Run.ofOption, Run.halt]
      rw [hrun]
      refine ⟨hm, .refl _, R.dangling fun hs => ?_⟩
      exact absurd (hc hs) (Nat.not_lt.mpr (Array.getElem?_eq_none_iff.mp hn))
  | closure id =>
    refine ⟨fun hm => ?_⟩
    cases hn : m.objects.closures[id]? with
    | some c =>
      have hrun : Run.invoke (fuel + 1) (.closure id) vs m = Run.invokeClosure fuel c vs m := by
        simp only [Run.invoke, bind_apply, Run.ofObjects, hn, Run.ofOption, pure_apply]
      rw [hrun]
      exact (h.invokeClosure c vs m (hm.closures c (Array.mem_of_getElem? hn)) hvs).after hm
    | none =>
      have hrun : Run.invoke (fuel + 1) (.closure id) vs m = .error .dangling m := by
        simp only [Run.invoke, bind_apply, Run.ofObjects, hn, Run.ofOption, Run.halt]
      rw [hrun]
      refine ⟨hm, .refl _, R.dangling fun hs => ?_⟩
      exact absurd (hc hs) (Nat.not_lt.mpr (Array.getElem?_eq_none_iff.mp hn))
  | klass k =>
    refine (Heeds.newInstance k).bind fun object m₁ hw₁ _ => ?_
    refine (Heeds.ofObjects _).bind fun c? m₂ hw₂ hfound => ?_
    cases c? with
    | none => exact .pure (.of_ne fun c => by simp)
    | some c =>
      refine ⟨fun hm₂ => ?_⟩
      refine ((Heeds.bindMethod object (Heeds.declared_of_methodClosure? hm₂
        hfound.symm)).bind fun c m₃ hw₃ hc => ?_).after hm₂
      refine (h.invokeClosure c vs m₃ hc fun v hv =>
        (hvs v hv).mono (hw₁.trans (hw₂.trans hw₃))).bind fun _ _ _ _ => ?_
      exact .pure (.of_ne fun c => by simp)

theorem invokeClosure_succ (c : Closure) (vs : List Value) (m : Machine)
    (hc : R.declared c.declaration) (hvs : ∀ v ∈ vs, R.Holds v m.objects) :
    Heeds R m (Run.invokeClosure (fuel + 1) c vs) R.Holds := by
  refine (Heeds.newFrame _).bind fun frame m₁ hw _ => ?_
  refine (Heeds.defineAll frame _ fun e he =>
    (hvs e.2 (List.of_mem_zip he).2).mono hw).bind fun _ m₂ _ _ => ?_
  have hbody := h.executeAll c.declaration.body { m₂ with active := frame } (R.allowsAll_body hc)
  refine (Heeds.within hbody).bind fun signal m₃ _ hs => ?_
  split
  · exact .getAt ..
  · split
    · exact .pure (hs _ rfl)
    · exact .pure (.of_ne fun c => by simp)

theorem execute_succ (s : Stmt) (m : Machine) (hs : R.Allows s) :
    Heeds R m (Run.execute (fuel + 1) s) R.Ends := by
  rw [Run.execute.eq_def]
  cases s with
  | expression e => exact (h.evaluate e m hs.operates).bind fun _ _ _ _ => .pure .normal
  | print e =>
    exact (h.evaluate e m hs.operates).bind fun _ _ _ _ => (Heeds.ofObjects _).bind
      fun _ _ _ _ => (Heeds.write _).bind fun _ _ _ _ => .pure .normal
  | varDecl name initializer =>
    cases initializer with
    | none =>
      exact Heeds.activeFrame.bind fun _ _ _ _ =>
        (Heeds.define _ _ (.of_ne fun c => by simp)).bind fun _ _ _ _ => .pure .normal
    | some e =>
      refine (h.evaluate e m fun hst => hs.operates hst e rfl).bind fun v m₁ _ hv => ?_
      exact Heeds.activeFrame.bind fun _ _ hw _ => (Heeds.define _ _ (hv.mono hw)).bind
        fun _ _ _ _ => .pure .normal
  | block body =>
    refine Heeds.activeFrame.bind fun _ _ _ _ => (Heeds.newFrame _).bind fun frame m₁ _ _ => ?_
    exact .within (h.executeAll body _ ⟨hs.operates, hs.declares⟩)
  | branch condition thenBranch elseBranch =>
    obtain ⟨hcondition, hthen, helse⟩ := hs.branch
    refine (h.evaluate condition m hcondition).bind fun v m₁ _ _ => ?_
    split
    · exact h.execute thenBranch m₁ hthen
    · split
      · exact h.execute _ m₁ (helse _ rfl)
      · exact .pure .normal
  | loop condition body =>
    exact h.repeatWhile condition body m (fun hst => (hs.operates hst).1)
      ⟨fun hst => (hs.operates hst).2, hs.declares⟩
  | function f =>
    refine (Heeds.functionValue (hs.declares f (List.mem_singleton_self f))).bind
      fun v m₁ _ hv => ?_
    exact Heeds.activeFrame.bind fun _ _ hw _ => (Heeds.define _ _ (hv.mono hw)).bind
      fun _ _ _ _ => .pure .normal
  | ret keyword value =>
    cases value with
    | none =>
      refine .pure fun v hv => ?_
      cases hv
      exact .of_ne fun c => by simp
    | some e =>
      refine (h.evaluate e m fun hst => hs.operates hst e rfl).bind fun v m₁ _ hv => ?_
      refine .pure fun u hu => ?_
      cases hu
      exact hv
  | classDecl name superclass methods =>
    cases superclass with
    | none => exact (Heeds.declareClass name none hs.declares).bind fun _ _ _ _ => .pure .normal
    | some e =>
      refine (h.evaluate e m fun hst => (hs.operates hst).1 e rfl).bind fun v m₁ _ _ => ?_
      exact (Heeds.asSuperclass name v).bind fun k _ _ _ =>
        (Heeds.declareClass name (some k) hs.declares).bind fun _ _ _ _ => .pure .normal

theorem executeAll_succ (ss : List Stmt) (m : Machine) (hss : R.AllowsAll ss) :
    Heeds R m (Run.executeAll (fuel + 1) ss) R.Ends := by
  cases ss with
  | nil => exact .pure .normal
  | cons s ss =>
    obtain ⟨hs, hrest⟩ := hss.cons
    refine (h.execute s m hs).bind fun signal m₁ _ hsignal => ?_
    cases signal with
    | normal => exact h.executeAll ss m₁ hrest
    | returned v => exact .pure hsignal

theorem repeatWhile_succ (e : Expr) (s : Stmt) (m : Machine) (he : R.operators → e.Operates)
    (hs : R.Allows s) : Heeds R m (Run.repeatWhile (fuel + 1) e s) R.Ends := by
  refine (h.evaluate e m he).bind fun v m₁ _ _ => ?_
  split
  · refine (h.execute s m₁ hs).bind fun signal m₂ _ hsignal => ?_
    cases signal with
    | normal => exact h.repeatWhile e s m₂ he hs
    | returned v => exact .pure hsignal
  · exact .pure .normal

end AllHeed

theorem allHeed (R : Regime) (fuel : Nat) : AllHeed R fuel := by
  induction fuel with
  | zero =>
    constructor
    · intro e m _
      rw [Run.evaluate]
      exact .halt R.outOfFuel
    · intro es m _
      rw [Run.evaluateAll]
      exact .halt R.outOfFuel
    · intro c vs m _ _
      rw [Run.invoke]
      exact .halt R.outOfFuel
    · intro c vs m _ _
      rw [Run.invokeClosure]
      exact .halt R.outOfFuel
    · intro s m _
      rw [Run.execute]
      exact .halt R.outOfFuel
    · intro ss m _
      rw [Run.executeAll]
      exact .halt R.outOfFuel
    · intro e s m _ _
      rw [Run.repeatWhile]
      exact .halt R.outOfFuel
  | succ fuel ih =>
    exact ⟨ih.evaluate_succ, ih.evaluateAll_succ, ih.invoke_succ, ih.invokeClosure_succ,
      ih.execute_succ, ih.executeAll_succ, ih.repeatWhile_succ⟩

theorem runAll_heeds {R : Regime} (fuel : Nat) {ss : List Stmt} {m : Machine}
    (hss : R.AllowsAll ss) : Heeds R m (runAll fuel ss) fun _ _ => True := by
  induction ss generalizing m with
  | nil => exact .pure trivial
  | cons s ss ih =>
    obtain ⟨hs, hrest⟩ := hss.cons
    exact ((allHeed R fuel).execute s m hs).bind fun _ _ _ _ => ih hrest

theorem interpret_heeds {R : Regime} (fuel : Nat) {ss : List Stmt} (distances : Distances)
    {m : Machine} (hss : R.AllowsAll ss) :
    Heeds R m (interpret fuel ss distances) fun _ _ => True := by
  have hlearn : Heeds R m (learn distances) fun _ _ => True :=
    ⟨fun hm => ⟨hm.of_eq rfl rfl, .refl _, trivial⟩⟩
  exact hlearn.bind fun _ _ _ _ => (runAll_heeds fuel hss).thenFlush

end Run

/-! ### Machines with natives -/

/-- A machine on which nothing has run, with further natives beside the clock. -/
def Machine.equipped (clock : Nat → Float) (sink : Sink) (natives : List Native) : Machine :=
  natives.foldl Machine.defineNative (.start clock sink)

/-- Nothing has run on the machine, and it has the given natives. -/
structure Machine.Unused (ns : List Native) (m : Machine) : Prop where
  natives : m.objects.natives = ns.toArray
  closures : m.objects.closures = #[]
  instances : m.objects.instances = #[]
  distances : m.distances = []
  values : ∀ f x v, m.frames.value? f x = some v → ∃ id < ns.length, v = .callable (.native id)

namespace Machine

variable {natives : List Native} {m : Machine}

theorem start_unused (clock : Nat → Float) (sink : Sink) :
    Unused [.clock] (.start clock sink) := by
  refine ⟨rfl, rfl, rfl, rfl, fun f x v hv => ?_⟩
  rcases Frames.value?_define_cases _ hv with rfl | hv
  · exact ⟨0, Nat.one_pos, rfl⟩
  · rw [Frames.value?_push] at hv
    simp [Frames.value?, Frames.empty] at hv

theorem Unused.defineNative (h : m.Unused natives) (n : Native) :
    (m.defineNative n).Unused (natives ++ [n]) := by
  have hsize : m.objects.natives.size = natives.length := by rw [h.natives, List.size_toArray]
  refine ⟨?_, h.closures, h.instances, h.distances, fun f x v hv => ?_⟩
  · show m.objects.natives.push n = _
    rw [h.natives, List.push_toArray]
  · rw [List.length_append, List.length_singleton]
    rcases Frames.value?_define_cases _ hv with rfl | hv
    · exact ⟨m.objects.natives.size, by rw [hsize]; exact Nat.lt_succ_self _, rfl⟩
    · obtain ⟨id, hlt, rfl⟩ := h.values f x v hv
      exact ⟨id, Nat.lt_succ_of_lt hlt, rfl⟩

theorem equipped_unused (clock : Nat → Float) (sink : Sink) (natives : List Native) :
    (equipped clock sink natives).Unused (.clock :: natives) := by
  have hfold : ∀ (later : List Native) {known : List Native} {m : Machine}, m.Unused known →
      (later.foldl Machine.defineNative m).Unused (known ++ later) := by
    intro later
    induction later with
    | nil =>
      intro known m hm
      rwa [List.append_nil]
    | cons n later ih =>
      intro known m hm
      have := ih (hm.defineNative n)
      rwa [List.append_assoc] at this
  exact hfold natives (start_unused clock sink)

end Machine

/-- A regime that allows what the natives may raise admits a machine on which nothing has run. -/
theorem Regime.admits_unused {R : Regime} {natives : List Native} {m : Machine}
    (h : m.Unused natives)
    (hraise : ∀ n ∈ natives, ∀ now vs d, n.run now vs = .error d → R.halts (.raised d))
    (hpass : R.references → ∀ n ∈ natives, n.Passes natives.length) : R.Admits m where
  natives n hn := by
    rw [h.natives] at hn
    exact hraise n (List.mem_toArray.mp hn)
  passes hs n hn := by
    rw [h.natives] at hn ⊢
    rw [List.size_toArray]
    exact hpass hs n (List.mem_toArray.mp hn)
  closures c hc := by
    rw [h.closures] at hc
    simp at hc
  values f x v hv := by
    obtain ⟨id, hlt, rfl⟩ := h.values f x v hv
    intro _
    show id < m.objects.natives.size
    rw [h.natives, List.size_toArray]
    exact hlt
  fields i x v hv := by
    unfold Objects.field? at hv
    rw [h.instances] at hv
    simp at hv

/-- Everything is allowed. -/
def Regime.lax : Regime where
  halts _ := True
  declared _ := True
  operators := False
  references := False
  outOfFuel := trivial
  runtime _ _ := trivial
  output _ := trivial
  malformed _ _ := trivial
  dangling _ := trivial
  operates h := h.elim
  nested _ _ _ _ := trivial

namespace Regime

theorem lax_admits (m : Machine) : lax.Admits m where
  natives _ _ _ _ _ _ := trivial
  passes h := h.elim
  closures _ _ := trivial
  values _ _ _ _ h := h.elim
  fields _ _ _ _ h := h.elim

theorem lax_allowsAll (ss : List Stmt) : lax.AllowsAll ss := ⟨fun h => h.elim, fun _ _ => trivial⟩

end Regime

/-- Statements that run to their end leave the natives as they are. -/
theorem Run.natives_of_runAll {fuel : Nat} {ss : List Stmt} {m m' : Machine}
    (h : runAll fuel ss m = .ok () m') : m'.objects.natives = m.objects.natives := by
  have hrun := (runAll_heeds fuel (Regime.lax_allowsAll ss)).after (Regime.lax_admits m)
  rw [h] at hrun
  exact hrun.2.1.natives

/-! ### Sources in a session -/

namespace Session

/-- A source leaves the natives as they are, however it ends. -/
theorem natives_run (fuel : Nat) (s : Session) (source : String) :
    (s.run fuel source).2.machine.objects.natives = s.machine.objects.natives := by
  unfold run
  simp only
  cases (check source s.nextId).result with
  | error faults => rfl
  | ok p =>
    have hrun := (Run.interpret_heeds fuel p.distances (Regime.lax_allowsAll p.statements)).after
      (Regime.lax_admits s.machine.clearOutput)
    unfold runProgram
    simp only
    split
    · next he =>
      rw [he] at hrun
      exact hrun.2.1.natives
    · next he =>
      rw [he] at hrun
      exact hrun.2.1.natives

end Session

/-- A source whose program the regime allows leaves a machine that keeps to the regime, and is
stopped only as the regime allows. -/
theorem Regime.Admits.run {R : Regime} {s : Session} (h : R.Admits s.machine) (fuel : Nat)
    {source : String}
    (hallows : ∀ p, (check source s.nextId).result = .ok p → R.AllowsAll p.statements) :
    R.Admits (s.run fuel source).2.machine ∧
      ∀ e, (s.run fuel source).1.outcome = .stopped e → R.halts e := by
  unfold Session.run
  simp only
  cases hc : (check source s.nextId).result with
  | error faults => exact ⟨h, fun e he => by cases he⟩
  | ok p =>
    have hcleared : R.Admits s.machine.clearOutput := h.of_eq rfl rfl
    have hrun := (Run.interpret_heeds fuel p.distances (hallows p hc)).after hcleared
    unfold Session.runProgram
    simp only
    split
    · next he =>
      rw [he] at hrun
      exact ⟨hrun.1, fun e he => by cases he⟩
    · next he =>
      rw [he] at hrun
      refine ⟨hrun.1, fun e he => ?_⟩
      cases he
      exact hrun.2.2

end Lox
