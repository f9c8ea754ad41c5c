/-
Where closures and classes come from.

A program can only call what it has declared.  Each closure was made by a function declaration or by
a class declaration that was met before, and each class has the last method of every name among
those of the class declaration that made it.

* `FunDecl.last?` — the last method of a name among the methods of a class;
* `Closure.Stems`, `ClassObject.Declares` — a closure, or a class, that was made by a declaration
  which was met;
* `Rooted` — the invariant of a record: all its closures and classes stem from declarations;
* `Silent` — what a run makes of a record while it meets no node: what it adds is rooted;
* `bound_silent`, `declareClass_silent`, … — the runs that add closures and classes.

Design notes: a bound method is a closure of its own, with the declaration of the method, so that it
stems from the same class.  That the parameters of a function have different names is noted with the
closure, since a call binds them one after the other.
-/
import Lox.Proofs.Run.Grounding

namespace Lox

/-! ### Methods of a class declaration -/

/-- The last method of a name among the methods of a class. -/
def FunDecl.last? (methods : List FunDecl) (name : String) : Option FunDecl :=
  methods.reverse.find? fun f => f.name.lexeme == name

/-- Of two methods with one name the later one counts. -/
theorem FunDecl.last?_concat (methods : List FunDecl) (f : FunDecl) (name : String) :
    FunDecl.last? (methods ++ [f]) name =
      if f.name.lexeme = name then some f else FunDecl.last? methods name := by
  unfold FunDecl.last?
  rw [List.reverse_append, List.reverse_singleton, List.singleton_append, List.find?_cons]
  by_cases hn : f.name.lexeme = name
  · rw [if_pos hn, beq_iff_eq.mpr hn]
  · rw [if_neg hn, beq_eq_false_iff_ne.mpr hn]

theorem FunDecl.last?_eq_some {methods : List FunDecl} {name : String} {f : FunDecl}
    (h : FunDecl.last? methods name = some f) : f ∈ methods ∧ f.name.lexeme = name := by
  have hname := List.find?_some h
  exact ⟨List.mem_reverse.mp (List.mem_of_find?_eq_some h), beq_iff_eq.mp hname⟩

/-- The parameters of a function have different names. -/
def FunDecl.Distinct (f : FunDecl) : Prop :=
  (f.params.map Token.lexeme).Nodup

/-- Parameters at sites without faults have different names, and none that was visible before in the
region of the function. -/
theorem nodup_of_paramSites {a : Surroundings} {g : Region} {outer : List Region}
    (hr : a.regions = g :: outer) {ps : List Token} (hf : ∀ x ∈ paramSites a ps, x.faults = []) :
    (ps.map Token.lexeme).Nodup ∧ ∀ t ∈ ps, t.lexeme ∉ g.names := by
  induction ps generalizing a g with
  | nil => exact ⟨List.nodup_nil, fun t ht => by cases ht⟩
  | cons p ps ih =>
    have hfirst : p.lexeme ∉ g.names := by
      have hnone := hf _ (List.mem_cons_self ..)
      simpa [Site.faults, Surroundings.isDeclared, hr, Site.faultIf_eq_nil] using hnone
    -- the names behind the first parameter are those in front of it and its own
    have hnext : (a.declare p).regions =
        { g with names := p.lexeme :: g.names, pending := none } :: outer := by
      rw [Surroundings.declare, hr]
    obtain ⟨hnodup, hnew⟩ := ih hnext fun x hx => hf x (List.mem_cons_of_mem _ hx)
    refine ⟨List.nodup_cons.mpr ⟨fun hm => ?_, hnodup⟩, fun t ht => ?_⟩
    · obtain ⟨t, ht, he⟩ := List.mem_map.mp hm
      exact hnew t ht (he ▸ List.mem_cons_self ..)
    · rcases List.mem_cons.mp ht with rfl | ht
      · exact hfirst
      · exact fun hm => hnew t ht (List.mem_cons_of_mem _ hm)

/-- A function that has been checked has parameters of different names. -/
theorem FunDecl.Ready.distinct {ds : Distances} {q : Site → Prop} (hq : ∀ x, q x → x.Good ds)
    {p : Place} {s : Surrounding} {f : FunDecl} (h : f.Ready q p s) : f.Distinct :=
  (nodup_of_paramSites rfl fun x hx => (hq x (h.params x hx)).faults).1

/-! ### Closures and classes of a record -/

/-- A closure the body of which stands at a place was made by a function declaration, or by a class
declaration as one of its methods.  Only a method can initialize, if it has the name for it. -/
inductive Closure.Stems (log : List Event) (body : Place) (c : Closure) : Prop where
  | function {p : Place} {m : Machine}
      (met : .met p (.statement (.function c.declaration)) m ∈ log)
      (plain : c.isInitializer = false) (distinct : c.declaration.Distinct)
  | method {p : Place} {name : Token} {superclass : Option Expr} {methods : List FunDecl}
      {m : Machine} (met : .met p (.statement (.classDecl name superclass methods)) m ∈ log)
      (declared : c.declaration ∈ methods)
      (initializes : c.isInitializer = c.declaration.isInitializer)
      (opener : ∃ o, body.openerAt 0 = some o ∧ o.kind.isMethod = true)
      (distinct : c.declaration.Distinct)

theorem Closure.Stems.distinct {log : List Event} {body : Place} {c : Closure}
    (h : c.Stems log body) : c.declaration.Distinct := by
  cases h with
  | function _ _ hd => exact hd
  | method _ _ _ _ hd => exact hd

/-- An initializer is a method of its class, and stands in the region of `this`. -/
theorem Closure.Stems.isMethod {log : List Event} {body : Place} {c : Closure}
    (h : c.Stems log body) (hi : c.isInitializer = true) :
    ∃ o, body.openerAt 0 = some o ∧ o.kind.isMethod = true := by
  cases h with
  | function _ hplain _ => cases hplain.symm.trans hi
  | method _ _ _ ho _ => exact ho

theorem Closure.Stems.mono {log log' : List Event} {body : Place} {c : Closure}
    (hl : ∀ e ∈ log, e ∈ log') (h : c.Stems log body) : c.Stems log' body := by
  cases h with
  | function hm hp hd => exact .function (hl _ hm) hp hd
  | method hm hd hi ho hn => exact .method (hl _ hm) hd hi ho hn

/-- A method that is bound stems from the declaration of the method. -/
theorem Closure.Stems.captured {log : List Event} {body : Place} {c : Closure}
    (h : c.Stems log body) (frame : FrameId) :
    Closure.Stems log body { c with captured := frame } := by
  cases h with
  | function hm hp hd => exact .function hm hp hd
  | method hm hd hi ho hn => exact .method hm hd hi ho hn

/-- A table that has the last method of each name among some methods, and nothing else. -/
def Tabulates (m : Machine) (table : NameTable Nat) (methods : List FunDecl) : Prop :=
  ∀ x, match FunDecl.last? methods x with
    | some f => ∃ id frame, table.find? x = some id ∧
        m.objects.closures[id]? = some ⟨f, frame, f.isInitializer⟩
    | none => table.find? x = none

/-- A class that was made by a class declaration with given methods. -/
structure ClassObject.Declares (log : List Event) (m : Machine) (c : ClassObject)
    (methods : List FunDecl) : Prop where
  met : ∃ p name superclass m₀, .met p (.statement (.classDecl name superclass methods)) m₀ ∈ log ∧
    c.name = name.lexeme ∧ c.superclass.isSome = superclass.isSome
  table : Tabulates m c.methods methods

/-- All closures and classes were made by declarations that were met. -/
structure Rooted (r : Record) : Prop where
  closures : ∀ (id : Nat) (c : Closure), r.machine.objects.closures[id]? = some c →
    c.Stems r.log (r.bodies id)
  classes : ∀ (k : Nat) (c : ClassObject), r.machine.objects.classes[k]? = some c →
    ∃ methods, c.Declares r.log r.machine methods

/-- A method that is found in a class stems from a declaration. -/
theorem Rooted.method {r : Record} (h : Rooted r) {k : Nat} {name : String} {c : Closure}
    (hc : r.machine.objects.methodClosure? k name = some c) :
    c.Stems r.log (r.methodBody (some k) name) := by
  obtain ⟨id, hid, hclosure⟩ := Option.bind_eq_some_iff.mp hc
  have hbody : r.methodBody (some k) name = r.bodies id := by
    rw [Record.methodBody, Option.bind_some, hid, Option.getD_some]
  rw [hbody]
  exact h.closures id c hclosure

section

variable {m m' : Machine} {log log' : List Event}

theorem Tabulates.mono
    (hm : ∀ (id : Nat) (c : Closure), m.objects.closures[id]? = some c →
      m'.objects.closures[id]? = some c)
    {table : NameTable Nat} {methods : List FunDecl} (h : Tabulates m table methods) :
    Tabulates m' table methods := by
  intro x
  have hx := h x
  split at hx
  · obtain ⟨id, frame, hid, hc⟩ := hx
    exact ⟨id, frame, hid, hm id _ hc⟩
  · exact hx

theorem ClassObject.Declares.mono (hl : ∀ e ∈ log, e ∈ log')
    (hm : ∀ (id : Nat) (c : Closure), m.objects.closures[id]? = some c →
      m'.objects.closures[id]? = some c)
    {c : ClassObject} {methods : List FunDecl} (h : c.Declares log m methods) :
    c.Declares log' m' methods := by
  obtain ⟨p, name, superclass, m₀, hmet, hn, hs⟩ := h.met
  exact ⟨⟨p, name, superclass, m₀, hl _ hmet, hn, hs⟩, h.table.mono hm⟩

end

/-! ### Writing to variables -/

namespace Run

/-- A run that leaves the objects as they are. -/
def KeepsObjects {α : Type} (run : Run α) : Prop :=
  ∀ m, (∃ a m', run m = .ok a m' ∧ m'.objects = m.objects) ∨
    ∃ e m', run m = .error e m' ∧ m'.objects = m.objects

theorem assignIn_keepsObjects (frame : Option FrameId) (name : Token) (v : Value) :
    (assignIn frame name v).KeepsObjects := by
  intro m
  cases frame with
  | none => exact Or.inr ⟨_, _, rfl, rfl⟩
  | some f => exact Or.inl ⟨_, _, rfl, rfl⟩

theorem store_keepsObjects (id : NodeId) (name : Token) (v : Value) :
    (store id name v).KeepsObjects := by
  intro m
  unfold store
  split
  · exact assignIn_keepsObjects _ name v m
  · exact assignIn_keepsObjects _ name v m

theorem assign_keepsObjects (name : Token) (v : Value) : (assign name v).KeepsObjects :=
  fun m => assignIn_keepsObjects (m.frames.holder? m.active name.lexeme) name v m

end Run

/-! ### Runs that meet no node -/

/-- What a run makes of a record while it meets no node.  The closures and classes that it adds stem
from declarations that were met. -/
structure Silent (r r' : Record) : Prop where
  log : ∃ new, r'.log = new ++ r.log ∧ ∀ p node m, .met p node m ∉ new
  kept : ∀ (id : Nat) (c : Closure), r.machine.objects.closures[id]? = some c →
    r'.machine.objects.closures[id]? = some c ∧ r'.bodies id = r.bodies id
  closures : ∀ (id : Nat) (c : Closure), r'.machine.objects.closures[id]? = some c →
    r.machine.objects.closures[id]? = some c ∨ c.Stems r'.log (r'.bodies id)
  classes : ∀ (k : Nat) (c : ClassObject), r'.machine.objects.classes[k]? = some c →
    r.machine.objects.classes[k]? = some c ∨ ∃ methods, c.Declares r'.log r'.machine methods

namespace Silent

variable {r r' r'' : Record}

theorem mem_log (h : Silent r r') : ∀ e ∈ r.log, e ∈ r'.log := by
  obtain ⟨new, hnew, -⟩ := h.log
  intro e he
  rw [hnew]
  exact List.mem_append_right _ he

/-- Only frames, instances and the output change, and no node is met. -/
theorem of_eq (hc : r'.machine.objects.closures = r.machine.objects.closures)
    (hk : r'.machine.objects.classes = r.machine.objects.classes) (hb : r'.bodies = r.bodies)
    (hl : ∃ new, r'.log = new ++ r.log ∧ ∀ p node m, .met p node m ∉ new) : Silent r r' where
  log := hl
  kept id c h := by rw [hc, hb]; exact ⟨h, rfl⟩
  closures id c h := Or.inl (hc ▸ h)
  classes k c h := Or.inl (hk ▸ h)

theorem refl (r : Record) : Silent r r :=
  .of_eq rfl rfl rfl ⟨[], rfl, fun _ _ _ hm => by cases hm⟩

theorem trans (h : Silent r r') (h' : Silent r' r'') : Silent r r'' where
  log := by
    obtain ⟨new, hnew, hsilent⟩ := h.log
    obtain ⟨new', hnew', hsilent'⟩ := h'.log
    refine ⟨new' ++ new, by rw [hnew', hnew, List.append_assoc], fun p node m hm => ?_⟩
    exact (List.mem_append.mp hm).elim (hsilent' p node m) (hsilent p node m)
  kept id c hc := by
    obtain ⟨hc', hb⟩ := h.kept id c hc
    obtain ⟨hc'', hb'⟩ := h'.kept id c hc'
    exact ⟨hc'', hb'.trans hb⟩
  closures id c hc := by
    rcases h'.closures id c hc with hc' | hstems
    · refine (h.closures id c hc').imp_right fun hstems => ?_
      rw [(h'.kept id c hc').2]
      exact hstems.mono h'.mem_log
    · exact Or.inr hstems
  classes k c hc := by
    rcases h'.classes k c hc with hc' | hdeclares
    · refine (h.classes k c hc').imp_right fun ⟨methods, hd⟩ => ⟨methods, ?_⟩
      exact hd.mono h'.mem_log fun id c hc => (h'.kept id c hc).1
    · exact Or.inr hdeclares

/-- A record stays rooted while no node is met. -/
theorem rooted (h : Silent r r') (hr : Rooted r) : Rooted r' where
  closures id c hc := by
    rcases h.closures id c hc with hold | hstems
    · rw [(h.kept id c hold).2]
      exact (hr.closures id c hold).mono h.mem_log
    · exact hstems
  classes k c hc := by
    rcases h.classes k c hc with hold | hdeclares
    · obtain ⟨methods, hd⟩ := hr.classes k c hold
      exact ⟨methods, hd.mono h.mem_log fun id c hc => (h.kept id c hc).1⟩
    · exact hdeclares

theorem addInstance (k : Nat) : Silent r (r.addInstance k) :=
  .of_eq rfl rfl rfl ⟨[], rfl, fun _ _ _ hm => by cases hm⟩

theorem push (parent : FrameId) (opener : Option Opener) : Silent r (r.push parent opener) :=
  .of_eq rfl rfl rfl ⟨[_], rfl, fun _ _ _ hm => by simp at hm⟩

theorem did (deed : Deed) : Silent r (r.did deed) :=
  .of_eq rfl rfl rfl ⟨[_], rfl, fun _ _ _ hm => by simp at hm⟩

/-- A new closure. -/
theorem addClosure {body : Place} {c : Closure} (hc : c.Stems r.log body) :
    Silent r (r.addClosure body c) where
  log := ⟨[], rfl, fun _ _ _ hm => by cases hm⟩
  kept := (Later.addClosure body c).closures
  closures id c' hc' := by
    have hc' : (r.machine.objects.closures.push c)[id]? = some c' := hc'
    rw [Array.getElem?_push] at hc'
    split at hc'
    · next he =>
      cases hc'
      refine Or.inr ?_
      rw [he, r.bodies_addClosure]
      exact hc
    · exact Or.inl hc'
  classes k c hk := Or.inl hk

/-- A new class. -/
theorem addClass {c : ClassObject} {methods : List FunDecl}
    (hc : c.Declares r.log r.machine methods) :
    Silent r (r.withObjects (r.machine.objects.addClass c)) where
  log := ⟨[], rfl, fun _ _ _ hm => by cases hm⟩
  kept id c hc := ⟨hc, rfl⟩
  closures id c hc := Or.inl hc
  classes k c' hc' := by
    have hc' : (r.machine.objects.classes.push c)[k]? = some c' := hc'
    rw [Array.getElem?_push] at hc'
    split at hc'
    · cases hc'
      exact Or.inr ⟨methods, hc.met, hc.table⟩
    · exact Or.inl hc'

end Silent

namespace Traced

/-- However it ends, the run meets no node, and something holds of what it yields. -/
def Silently {α : Type} (r : Record) (t : Traced α) (post : α → Record → Prop) : Prop :=
  Leads Silent r t post

variable {α β : Type} {r : Record}

namespace Silently

variable {t : Traced α} {post : α → Record → Prop}

theorem pure {a : α} (hp : post a r) : Silently r (Pure.pure a) post :=
  Leads.pure (.refl r) hp

/-- A run that goes on behind a record to which no node has led. -/
theorem of_silent {r₁ : Record} (hs : Silent r r₁) {u : Traced α} (he : t r = u r₁)
    (h : Silently r₁ u post) : Silently r t post :=
  Leads.of_step (fun _ hs' => hs.trans hs') he h

theorem bind (h : Silently r t post) {next : α → Traced β} {postNext : β → Record → Prop}
    (hn : ∀ a r', Silent r r' → post a r' → Silently r' (next a) postNext) :
    Silently r (t >>= next) postNext :=
  Leads.bind (fun _ _ _ hs hs' => hs.trans hs') h fun a r' _ hs hp => hn a r' hs hp

theorem still {run : Run α} (hs : run.Still) : Silently r (lift run) fun _ _ => True :=
  Leads.still hs (.refl r) fun _ _ => trivial

theorem halt (e : Halt) : Silently r (lift (Run.halt e : Run α)) post :=
  Leads.of_error rfl (.refl r)

/-- Reading something off the objects. -/
theorem ofObjects {f : Objects → α} {next : α → Traced β} {postNext : β → Record → Prop}
    (hn : Silently r (next (f r.machine.objects)) postNext) :
    Silently r (lift (Run.ofObjects f) >>= next) postNext :=
  of_silent (.refl r) rfl hn

theorem activeFrame {next : FrameId → Traced β} {postNext : β → Record → Prop}
    (hn : Silently r (next r.machine.active) postNext) :
    Silently r (lift Run.activeFrame >>= next) postNext :=
  of_silent (.refl r) rfl hn

end Silently

/-! ### Frames and instances -/

theorem openFrame_silent (parent : FrameId) (opener : Option Opener) :
    Silently r (openFrame parent opener) fun _ _ => True :=
  Leads.of_ok rfl (.push parent opener) trivial

theorem define_silent (frame : FrameId) (opener : Option Opener) (name : String) (v : Value) :
    Silently r (define frame opener name v) fun _ _ => True :=
  Leads.of_ok rfl (.of_eq rfl rfl rfl ⟨[_], rfl, fun _ _ _ hm => by simp at hm⟩) trivial

/-- A run of which an event is noted that is no meeting of a node. -/
theorem noting_silent {run : Run α} (hr : run.KeepsObjects) {event : Record → α → Event}
    (he : ∀ a p node m r, event r a ≠ .met p node m) :
    Silently r (noting run event) fun _ _ => True := by
  unfold Silently Leads noting
  rcases hr r.machine with ⟨a, m, hrun, ho⟩ | ⟨e, m, hrun, ho⟩
  · rw [hrun]
    refine ⟨.of_eq (by rw [ho]) (by rw [ho]) rfl ⟨[event r a], rfl, fun p node m hm => ?_⟩, trivial⟩
    exact he a p node m r (List.mem_singleton.mp hm).symm
  · rw [hrun]
    exact .of_eq (by rw [ho]) (by rw [ho]) rfl ⟨[], rfl, fun _ _ _ hm => by cases hm⟩

theorem defineAll_silent (frame : FrameId) (opener : Option Opener)
    (entries : List (Token × Value)) :
    Silently r (defineAll frame opener entries) fun _ _ => True := by
  induction entries generalizing r with
  | nil => exact .pure trivial
  | cons e rest ih => exact (define_silent ..).bind fun _ _ _ _ => ih

theorem declare_silent (p : Place) (name : Token) (v : Value) :
    Silently r (declare p name v) fun _ _ => True :=
  .activeFrame (define_silent ..)

theorem store_silent (p : Place) (id : NodeId) (name : Token) (v : Value) :
    Silently r (store p id name v) fun _ _ => True :=
  noting_silent (Run.store_keepsObjects id name v) fun _ _ _ _ _ he => by cases he

theorem assign_silent (p : Place) (name : Token) (v : Value) :
    Silently r (assign p name v) fun _ _ => True :=
  noting_silent (Run.assign_keepsObjects name v) fun _ _ _ _ _ he => by cases he

theorem setField_silent (object : Nat) (name : String) (v : Value) :
    Silently r (lift (Run.setField object name v)) fun _ _ => True :=
  Leads.of_ok rfl (.of_eq rfl rfl rfl ⟨[], rfl, fun _ _ _ hm => by cases hm⟩) trivial

/-! ### Methods -/

theorem bindMethod_silent (body : Place) (c : Closure) (object : Nat) :
    Silently r (bindMethod body c object) fun c' _ => ∃ frame, c' = { c with captured := frame } :=
  (openFrame_silent ..).bind fun frame _ _ _ => (define_silent ..).bind fun _ _ _ _ =>
    .pure ⟨frame, rfl⟩

theorem bound_silent {body : Place} {c : Closure} (hc : c.Stems r.log body) (object : Nat) :
    Silently r (bound body c object) fun _ _ => True := by
  refine (bindMethod_silent body c object).bind fun c' r₁ hs hc' => ?_
  obtain ⟨frame, rfl⟩ := hc'
  exact .of_silent (.addClosure ((hc.mono hs.mem_log).captured frame)) rfl (.pure trivial)

theorem boundMethod_silent (h : Rooted r) (klass : Option Nat) (object : Nat) (name : Token) :
    Silently r (boundMethod klass object name) fun _ _ => True := by
  refine .ofObjects ?_
  cases hc : klass.bind fun k => r.machine.objects.methodClosure? k name.lexeme with
  | none => exact .halt _
  | some c =>
    obtain ⟨k, rfl, hk⟩ := Option.bind_eq_some_iff.mp hc
    exact .of_silent (.refl r) (u := bound (r.methodBody (some k) name.lexeme) c object) rfl
      (bound_silent (h.method hk) object)

theorem property_silent (h : Rooted r) (object : Nat) (name : Token) :
    Silently r (property object name) fun _ _ => True := by
  refine .ofObjects ?_
  cases r.machine.objects.field? object name.lexeme with
  | some v => exact .pure trivial
  | none => exact .ofObjects (boundMethod_silent h ..)

theorem superMethod_silent (h : Rooted r) (id : NodeId) (keyword method : Token) :
    Silently r (superMethod id keyword method) fun _ _ => True := by
  refine (Silently.still (.superReference id keyword)).bind fun vs r₁ hs _ => ?_
  split
  · exact boundMethod_silent (hs.rooted h) ..
  · exact .halt _

/-! ### Declarations -/

/-- A function is a closure of its declaration. -/
theorem functionValue_silent {ds : Distances} {q : Site → Prop} (hq : ∀ x, q x → x.Good ds)
    {p : Place} {f : FunDecl} (hs : (Stmt.function f).Ready q p) {m : Machine}
    (hmet : .met p (.statement (.function f)) m ∈ r.log) :
    Silently r (functionValue p f) fun _ _ => True := by
  have hstems : Closure.Stems r.log ((p.declare f.name).body .function f)
      ⟨f, r.machine.active, false⟩ := .function hmet rfl (hs.function.2.distinct hq)
  exact .activeFrame (.of_silent (.addClosure hstems) rfl (.pure trivial))

theorem tabulates_nil (m : Machine) : Tabulates m [] [] := fun _ => rfl

/-- The closures of the methods of a class that was met: of two with one name the later one is in
the table. -/
theorem methodTable_silent {ds : Distances} {q : Site → Prop} (hq : ∀ x, q x → x.Good ds)
    {p : Place} {name : Token} {superclass : Option Expr} {m : Machine} {inner : Place}
    {frame : FrameId} {i : Nat} (before : List FunDecl) {methods : List FunDecl}
    (hmet : .met p (.statement (.classDecl name superclass (before ++ methods))) m ∈ r.log)
    (hready : FunDecl.AllReady q inner i methods) {table : NameTable Nat}
    (ht : Tabulates r.machine table before) :
    Silently r (methodTable frame inner i methods table) fun table' r' =>
      Tabulates r'.machine table' (before ++ methods) := by
  induction methods generalizing r inner i table before with
  | nil => exact .pure (by rwa [List.append_nil])
  | cons f fs ih =>
    obtain ⟨hf, hrest⟩ := hready.cons hq
    rw [List.append_cons] at hmet ⊢
    -- the method is among those of the declaration that was met, and stands in its region
    have hstems : Closure.Stems r.log ((inner.child i).body f.methodContext f)
        ⟨f, frame, f.isInitializer⟩ := by
      refine .method hmet ?_ rfl ⟨⟨.routine f.methodContext, (inner.child i).around.position⟩, ?_,
        f.methodContext_isMethod⟩ (hf.distinct hq)
      · exact List.mem_append_left _ (List.mem_append_right _ (List.mem_singleton_self f))
      · rw [Place.openerAt, Surroundings.openerAt, Place.regions_body]
        rfl
    refine .of_silent (.addClosure hstems) (u := methodTable frame (inner.afterMethod f) (i + 1) fs
      (table.insert f.name.lexeme r.machine.objects.closures.size)) rfl
      (ih (r := r.addClosure _ _) (before ++ [f]) hmet hrest ?_)
    -- the new closure hides an earlier one of its name, and the others stay
    intro x
    rw [FunDecl.last?_concat, NameTable.find?_insert]
    by_cases hx : f.name.lexeme = x
    · rw [if_pos hx, if_pos hx]
      exact ⟨_, frame, rfl, Array.getElem?_push_size⟩
    · rw [if_neg hx, if_neg hx]
      exact ht.mono (fun id c hc => ((Later.addClosure _ _).closures id c hc).1) x

theorem methodFrame_silent (p : Place) (frame : FrameId) (superclass : Option Nat) :
    Silently r (methodFrame p frame superclass) fun _ _ => True := by
  cases superclass with
  | none => exact .pure trivial
  | some k =>
    exact (openFrame_silent ..).bind fun _ _ _ _ => (define_silent ..).bind fun _ _ _ _ =>
      .pure trivial

/-- A class that was met gets the last method of each name. -/
theorem declareClass_silent {ds : Distances} {q : Site → Prop} (hq : ∀ x, q x → x.Good ds)
    {p : Place} {name : Token} {superclass : Option Expr} {methods : List FunDecl} {m : Machine}
    (hs : (Stmt.classDecl name superclass methods).Ready q p)
    (hmet : .met p (.statement (.classDecl name superclass methods)) m ∈ r.log) {k : Option Nat}
    (hk : k.isSome = superclass.isSome) :
    Silently r (declareClass p (p.methods name superclass) name k methods) fun _ _ => True := by
  refine .activeFrame ((define_silent ..).bind fun _ r₁ hs₁ _ => ?_)
  refine (methodFrame_silent ..).bind fun captured r₂ hs₂ _ => ?_
  -- the name and the frame are noted behind the declaration, and the log only grows
  have hmet₂ := hs₂.mem_log _ (hs₁.mem_log _ hmet)
  refine (methodTable_silent hq [] hmet₂ hs.methods (tabulates_nil _)).bind
    fun table r₃ hs₃ htable => ?_
  have hdeclares : ClassObject.Declares r₃.log r₃.machine ⟨name.lexeme, k, table⟩ methods :=
    ⟨⟨p, name, superclass, m, hs₃.mem_log _ hmet₂, rfl, hk⟩, htable⟩
  let klass := r₃.machine.objects.classes.size
  refine .of_silent (.addClass hdeclares) (u := do
    note fun _ => .declared klass ⟨name.lexeme, k, methods, r.machine.active⟩
    assign p name (.callable (.klass klass))) rfl ?_
  exact .of_silent (.did _) rfl (assign_silent ..)

end Traced

end Lox
