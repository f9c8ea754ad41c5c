/-
Constructors and initializers.

A call of a class makes an instance, binds the initializer to it that the declarations of the class
and of the classes above it give, runs the body of that initializer once, and yields the instance.
An initializer that is called as a method yields the instance to which it is bound, whatever its
body does: what a frame holds as `this` is never written again, so that it is found behind the body
as well.

* `Declared`, `Nearest` — the last method of a name in a class declaration, and the one that counts
  for a class;
* `Constructs` — what a call of a class comes to;
* `Standing.construct`, `Standing.initializer` — a call of a class, and of an initializer, from a
  record within a run;
* `Initializes` — what is known of classes and initializers where an expression is met;
* `session_constructions` — every such call in the run of any session.
-/
import Lox.Proofs.Run.Calls
import Lox.Proofs.Run.Moments

namespace Lox

/-! ### Methods by their declarations -/

/-- The last method of a name in the class declaration that made a class, if there is one. -/
def Declared (r : Record) (k : Nat) (name : String) (f : Option FunDecl) : Prop :=
  ∃ c methods, r.machine.objects.classes[k]? = some c ∧
    c.Declares r.log r.machine methods ∧ FunDecl.last? methods name = f

/-- The method of a name that counts for a class: that of the nearest class of its lineage whose
declaration has one. -/
def Nearest (r : Record) (k : Nat) (name : String) : Option FunDecl → Prop
  | some f => ∃ above j below, r.machine.objects.lineage k = above ++ j :: below ∧
      (∀ i ∈ above, Declared r i name none) ∧ Declared r j name (some f)
  | none => ∀ i ∈ r.machine.objects.lineage k, Declared r i name none

section

variable {r : Record} {k : Nat} {name : String}

/-- All classes of a lineage are there. -/
theorem Objects.lt_size_of_mem_lineage {o : Objects} (hk : k < o.classes.size) {j : Nat}
    (hj : j ∈ o.lineage k) : j < o.classes.size :=
  Nat.lt_of_le_of_lt (mem_chain_le _ _ _ hj) hk

/-- What a class has as its own method is the last one of the name in its declaration. -/
theorem Rooted.own (h : Rooted r) {id : Nat}
    (hown : r.machine.objects.ownMethod? k name = some id) :
    ∃ f frame, r.machine.objects.closures[id]? = some ⟨f, frame, f.isInitializer⟩ ∧
      f.name.lexeme = name ∧ Declared r k name (some f) := by
  obtain ⟨c, hc, hid⟩ := Option.bind_eq_some_iff.mp hown
  obtain ⟨methods, hdeclares⟩ := h.classes k c hc
  have htable := hdeclares.table name
  cases hlast : FunDecl.last? methods name with
  | none =>
    rw [hlast] at htable
    cases htable.symm.trans hid
  | some f =>
    rw [hlast] at htable
    obtain ⟨id', frame, hid', hclosure⟩ := htable
    cases hid'.symm.trans hid
    exact ⟨f, frame, hclosure, (FunDecl.last?_eq_some hlast).2, c, methods, hc, hdeclares, hlast⟩

/-- A class without an own method has none of the name in its declaration. -/
theorem Rooted.own_none (h : Rooted r) (hk : k < r.machine.objects.classes.size)
    (hown : r.machine.objects.ownMethod? k name = none) : Declared r k name none := by
  have hc := Array.getElem?_eq_getElem hk
  obtain ⟨methods, hdeclares⟩ := h.classes k _ hc
  have htable := hdeclares.table name
  rw [Objects.ownMethod?, hc, Option.bind_some] at hown
  cases hlast : FunDecl.last? methods name with
  | none => exact ⟨_, methods, hc, hdeclares, hlast⟩
  | some f =>
    rw [hlast] at htable
    obtain ⟨id, frame, hid, -⟩ := htable
    cases hown.symm.trans hid

/-- The method that is found in a class is the one that counts for it. -/
theorem Rooted.nearest (h : Rooted r) (hk : k < r.machine.objects.classes.size)
    (name : String) :
    Nearest r k name ((r.machine.objects.methodClosure? k name).map Closure.declaration) := by
  unfold Objects.methodClosure?
  cases hm : r.machine.objects.method? k name with
  | none =>
    intro i hi
    exact h.own_none (Objects.lt_size_of_mem_lineage hk hi) (List.findSome?_eq_none_iff.mp hm i hi)
  | some id =>
    -- the search has gone through the lineage up to the first class with such a method
    obtain ⟨above, j, below, hsplit, hj, habove⟩ := List.findSome?_eq_some_iff.mp hm
    obtain ⟨f, frame, hclosure, -, hdeclared⟩ := h.own hj
    rw [Option.bind_some, hclosure]
    refine ⟨above, j, below, hsplit, fun i hi => ?_, hdeclared⟩
    have hmem : i ∈ r.machine.objects.lineage k := hsplit ▸ List.mem_append_left _ hi
    exact h.own_none (Objects.lt_size_of_mem_lineage hk hmem) (habove i hi)

/-- What is found as the initializer of a class initializes. -/
theorem Rooted.isInitializer (h : Rooted r) {c : Closure}
    (hc : r.machine.objects.initializer? k = some c) : c.isInitializer = true := by
  obtain ⟨id, hid, hclosure⟩ := Option.bind_eq_some_iff.mp hc
  obtain ⟨j, -, hown⟩ := Objects.exists_own_of_method? hid
  obtain ⟨f, frame, hclosure', hname, -⟩ := h.own hown
  cases hclosure.symm.trans hclosure'
  exact beq_iff_eq.mpr hname

end

/-! ### What calls come to -/

/-- What a call of a class comes to when its arguments have their values: `r` is the record in front
of the call, which may take `n` steps, and `m` the machine behind it.  If there is an initializer,
the body of that is run exactly once, in front of which the receiver is the new instance. -/
structure Constructs (r : Record) (k : Nat) (vs : List Value) (n : Nat) (v : Value) (m : Machine) :
    Prop where
  yields : v = .object r.machine.objects.instances.size
  fresh : r.machine.objects.classOf? r.machine.objects.instances.size = none
  klass : m.objects.classOf? r.machine.objects.instances.size = some k
  nearest : Nearest r k initializerName
    ((r.machine.objects.initializer? k).map Closure.declaration)
  plain : r.machine.objects.initializer? k = none → m = r.machine.instantiate k
  enters : ∀ c, r.machine.objects.initializer? k = some c →
    (r.machine.beginning k c vs).Receives c.declaration r.machine.objects.instances.size vs ∧
      ∃ steps signal m', n = steps + 2 ∧
        Run.executeAll steps c.declaration.body (r.machine.beginning k c vs) = .ok signal m' ∧
        m = { m' with active := r.machine.active }

/-! ### Calls from a record within a run -/

section

variable {ds : Distances} {q : Site → Prop} {r : Record} {p : Place} {c : Closure}
  {vs : List Value} {object n : Nat}

/-- The run of the body of a closure keeps what there was in front of the call, the receiver of a
method above all. -/
theorem Standing.keeps_of_executeAll (h : Standing ds q r) (hc : ReadyClosure q r p c)
    (hcg : c.Grounded r p) (hvs : ∀ v ∈ vs, v.Sound q r) (hvsg : ∀ v ∈ vs, v.Grounded r)
    (harity : vs.length = c.declaration.arity) {signal : Signal} {m : Machine}
    (hrun : Run.executeAll n c.declaration.body (r.machine.enter c vs) = .ok signal m) :
    r.machine.Keeps { m with active := r.machine.active } := by
  have hg := (Traced.allGround h.good h.placed (n + 1)).invokeClosure r p c vs h.lawful h.grounded
    hc hvs harity hcg hvsg
  -- the call is what is known to keep things, and behind the body it only changes the active frame
  rw [← Record.machine_enter r p] at hrun
  obtain ⟨u, hbody, rfl⟩ := ((Traced.allErase n).executeAll p 0 c.declaration.body).exists_ok hrun
  rcases Traced.record_of_invokeClosure hbody with ⟨v, hcall⟩ | ⟨e, hcall⟩
  · exact (Traced.Leads.ok hg hcall).1.toRetains.keeps
  · exact (Traced.Leads.error hg hcall).toRetains.keeps

/-- The body of the initializer of a new instance keeps what there was in front of it. -/
theorem Standing.instance_kept (h : Standing ds q r) {k : Nat}
    (hc : r.machine.objects.initializer? k = some c) (hvs : ∀ v ∈ vs, v.Sound q r)
    (hvsg : ∀ v ∈ vs, v.Grounded r) (harity : vs.length = c.declaration.arity) {signal : Signal}
    {m : Machine}
    (hrun : Run.executeAll n c.declaration.body (r.machine.beginning k c vs) = .ok signal m) :
    ((r.machine.instantiate k).receive c r.machine.objects.instances.size).Keeps
      { m with active := r.machine.active } := by
  obtain ⟨hbound, ⟨hready, -⟩, hgrounded⟩ := Traced.Leads.ok (Traced.Stands.initializer h hc) rfl
  have hnext := (h.addInstance k).trans hbound
  exact hnext.standing.keeps_of_executeAll hready hgrounded
    (fun v hv => hnext.continues.sound (hvs v hv)) (hnext.upholds.values hvsg) harity hrun

/-- Behind the body of the initializer of a new instance the receiver is found. -/
theorem Standing.instance_found (h : Standing ds q r) {k : Nat}
    (hc : r.machine.objects.initializer? k = some c) (hvs : ∀ v ∈ vs, v.Sound q r)
    (hvsg : ∀ v ∈ vs, v.Grounded r) (harity : vs.length = c.declaration.arity) {signal : Signal}
    {m : Machine}
    (hrun : Run.executeAll n c.declaration.body (r.machine.beginning k c vs) = .ok signal m) :
    m.frames.value? r.machine.frames.size "this" =
      some (.object r.machine.objects.instances.size) :=
  (h.instance_kept hc hvs hvsg harity hrun).words .this_ _ _
    ((Machine.value?_receive c _ "this").trans (if_pos rfl))

/-- A call of a class. -/
theorem Standing.construct (h : Standing ds q r) {k : Nat}
    (hk : k < r.machine.objects.classes.size) (hvs : ∀ v ∈ vs, v.Sound q r)
    (hvsg : ∀ v ∈ vs, v.Grounded r) (harity : vs.length = r.machine.objects.arity (.klass k))
    {v : Value} {m : Machine} (hrun : Run.invoke n (.klass k) vs r.machine = .ok v m) :
    Constructs r k vs n v m := by
  have hfresh : r.machine.objects.classOf? r.machine.objects.instances.size = none := by
    rw [Objects.classOf?, Array.getElem?_eq_none (Nat.le_refl _)]
    rfl
  have hnearest := h.annals.rooted.nearest hk initializerName
  -- one step of fuel makes the instance, and another one enters the initializer
  cases n with
  | zero => cases hrun
  | succ n =>
    cases hi : r.machine.objects.initializer? k with
    | none =>
      rw [Run.invoke_klass_of_none hi] at hrun
      cases hrun
      exact ⟨rfl, hfresh, Objects.classOf?_addInstance_self .., hnearest, fun _ => rfl,
        fun c hc => by cases hi.symm.trans hc⟩
    | some c =>
      have harity' : vs.length = c.declaration.arity := harity.trans (Objects.arity_klass hi)
      cases n with
      | zero =>
        obtain ⟨m', hhalt⟩ := Run.invoke_klass_one hi
        cases hhalt.symm.trans hrun
      | succ n =>
        rw [Run.invoke_klass_of_initializer hi (h.annals.rooted.isInitializer hi)
          fun signal m' hbody => h.instance_found hi hvs hvsg harity' hbody] at hrun
        obtain ⟨signal, m', hbody, rfl, rfl⟩ := Run.leave_eq_ok hrun
        refine ⟨rfl, hfresh, ?_, hnearest, fun hc => (by cases hi.symm.trans hc), fun c' hc => ?_⟩
        · exact (h.instance_kept hi hvs hvsg harity' hbody).objects.instances _ k
            (Objects.classOf?_addInstance_self ..)
        · cases hi.symm.trans hc
          exact ⟨Machine.receives_beginning (h.annals.rooted.method hi).distinct harity', n,
            signal, m', rfl, hbody, rfl⟩

/-- An initializer that can be called is bound to an instance. -/
theorem Standing.exists_bound (h : Standing ds q r) {id : Nat}
    (hid : Value.Grounded r (.callable (.closure id)))
    (hc : r.machine.objects.closures[id]? = some c) (hi : c.isInitializer = true) :
    ∃ method object, r.machine.Bound id method object ∧ method.isInitializer = true := by
  obtain ⟨c', hc', hgrounded⟩ := hid.closure id rfl
  cases hc.symm.trans hc'
  -- the body of an initializer stands in the region of a method, so what it captured has a receiver
  obtain ⟨o, ho, hm⟩ := (h.annals.rooted.closures id c hc).isMethod hi
  obtain ⟨object, klass, method, hbinds, -⟩ := hgrounded o ho hm
  obtain ⟨c₀, -, hparent⟩ := hbinds.captured
  exact ⟨{ c with captured := c₀.captured }, object, ⟨c.captured, hc, hparent, hbinds.receiver⟩, hi⟩

/-- The body of an initializer leaves the receiver where it is. -/
theorem Standing.receiver_kept (h : Standing ds q r) {id : Nat} {method : Closure}
    (hid : Value.Sound q r (.callable (.closure id)))
    (hidg : Value.Grounded r (.callable (.closure id))) (hb : r.machine.Bound id method object)
    (hc : r.machine.objects.closures[id]? = some c) (hvs : ∀ v ∈ vs, v.Sound q r)
    (hvsg : ∀ v ∈ vs, v.Grounded r) (harity : vs.length = c.declaration.arity) {signal : Signal}
    {m : Machine}
    (hrun : Run.executeAll n c.declaration.body (r.machine.enter c vs) = .ok signal m) :
    m.frames.value? c.captured "this" = some (.object object) := by
  obtain ⟨c₁, hc₁, hready⟩ := hid id rfl
  obtain ⟨c₂, hc₂, hgrounded⟩ := hidg.closure id rfl
  obtain ⟨f, hcf, -, hthis⟩ := hb
  cases hc.symm.trans hc₁
  cases hc.symm.trans hc₂
  cases hc.symm.trans hcf
  exact (h.keeps_of_executeAll hready hgrounded hvs hvsg harity hrun).words .this_ f _ hthis

end

/-! ### Calls and methods that are met -/

/-- From a record in front of a call its callee and its arguments get their values, with some steps.
-/
def Prepares (n : Nat) (p : Place) (callee : Expr) (arguments : List Expr) (r : Record) (f : Value)
    (vs : List Value) (r₂ : Record) : Prop :=
  ∃ r₁, Traced.evaluate n p callee r = .ok f r₁ ∧
    Traced.evaluateAll n (p.afterExpr callee) arguments r₁ = .ok vs r₂

/-- What is known of classes and initializers where an expression is met, on the record in front of
its operands. -/
structure Initializes (p : Place) (e : Expr) (r : Record) : Prop where
  /-- A call of a class constructs a new instance. -/
  construct : ∀ callee paren arguments n k vs r₂, e = .call callee paren arguments →
    Prepares n p callee arguments r (.callable (.klass k)) vs r₂ →
    ∀ v m, Run.evaluate (n + 1) e r.machine = .ok v m → Constructs r₂ k vs n v m ∧
      r.machine.objects.classOf? r₂.machine.objects.instances.size = none
  /-- Behind the body of the initializer that the call of a class runs, the new instance is found.
  -/
  found : ∀ callee paren arguments n k c vs r₂, e = .call callee paren arguments →
    Prepares n p callee arguments r (.callable (.klass k)) vs r₂ →
    r₂.machine.objects.initializer? k = some c → vs.length = c.declaration.arity →
    ∀ steps signal m,
      Run.executeAll steps c.declaration.body (r₂.machine.beginning k c vs) = .ok signal m →
      Run.getAt r₂.machine.frames.size 0 "this" c.declaration.name.line m =
        .ok (.object r₂.machine.objects.instances.size) m
  /-- An initializer that is called is bound to an instance, which is what the call yields. -/
  initializer : ∀ callee paren arguments n id c vs r₂, e = .call callee paren arguments →
    Prepares n p callee arguments r (.callable (.closure id)) vs r₂ →
    r₂.machine.objects.closures[id]? = some c → c.isInitializer = true →
    (∃ method object, r₂.machine.Bound id method object) ∧
    ∀ method object, r₂.machine.Bound id method object →
      (∀ v m, Run.evaluate (n + 1) e r.machine = .ok v m → v = .object object) ∧
      ∀ steps signal m, vs.length = c.declaration.arity →
        Run.executeAll steps c.declaration.body (r₂.machine.enter c vs) = .ok signal m →
        Run.getAt c.captured 0 "this" c.declaration.name.line m = .ok (.object object) m
  /-- The initializer of an instance is bound to the instance, unless a field hides it. -/
  method : ∀ object name n i r₁, e = .get object name → name.lexeme = initializerName →
    Traced.evaluate n p object r = .ok (.object i) r₁ →
    r₁.machine.objects.field? i name.lexeme = none →
    ∀ v m, Run.evaluate (n + 1) e r.machine = .ok v m →
      ∃ id c, v = .callable (.closure id) ∧ m.Bound id c i ∧ c.isInitializer = true
  /-- An initializer that is called in place yields the instance of which it is a method. -/
  direct : ∀ object name paren arguments n i r₁,
    e = .call (.get object name) paren arguments → name.lexeme = initializerName →
    Traced.evaluate n p object (r.meet p (.expression (.get object name))) = .ok (.object i) r₁ →
    r₁.machine.objects.field? i name.lexeme = none →
    ∀ v m, Run.evaluate (n + 2) e r.machine = .ok v m → v = .object i
  /-- The initializer of the superclass is bound to the receiver of the innermost method. -/
  super : ∀ id keyword name n, e = .superRef id keyword name → name.lexeme = initializerName →
    ∀ v m, Run.evaluate (n + 1) e r.machine = .ok v m →
      ∃ k f object klass method bound c, p.Receives r k f object klass method ∧
        v = .callable (.closure bound) ∧ m.Bound bound c object ∧ c.isInitializer = true
  /-- What is bound stays bound while the expression is evaluated. -/
  keeps : ∀ n v m, Run.evaluate n e r.machine = .ok v m → r.machine.Keeps m
  /-- What is bound stays bound while the operands of a call are evaluated. -/
  operands : ∀ callee paren arguments n f vs r₂, e = .call callee paren arguments →
    Prepares n p callee arguments r f vs r₂ → r.machine.Keeps r₂.machine

/-- A property that is no field is a method of the class of the instance, bound to the instance. -/
theorem Run.bound_of_property {i : Nat} {name : Token} {m m' : Machine} {v : Value}
    (hf : m.objects.field? i name.lexeme = none) (h : Run.property i name m = .ok v m') :
    ∃ k c id, m.objects.classOf? i = some k ∧ m.objects.methodClosure? k name.lexeme = some c ∧
      v = .callable (.closure id) ∧ m'.Bound id c i := by
  simp only [Run.property, Run.boundMethod, Run.bind_apply, Run.ofObjects, hf] at h
  cases hc : (m.objects.classOf? i).bind fun k => m.objects.methodClosure? k name.lexeme with
  | none =>
    rw [hc] at h
    cases h
  | some c =>
    obtain ⟨k, hk, hfound⟩ := Option.bind_eq_some_iff.mp hc
    obtain ⟨id, m₁, hbound, hb⟩ := Run.bound_apply c i m
    rw [hc] at h
    cases h.symm.trans hbound
    exact ⟨k, c, id, hk, hfound, rfl, hb⟩

section

variable {ds : Distances} {q : Site → Prop} {r r₂ : Record} {p : Place} {n : Nat} {callee : Expr}
  {paren : Token} {arguments : List Expr} {f : Value} {vs : List Value}

/-- What is known when the operands of a call have got their values. -/
theorem Standing.prepared (h : Standing ds q r)
    (he : (Expr.call callee paren arguments).Ready q p) (hf : p.Fits r)
    (hp : Prepares n p callee arguments r f vs r₂) :
    Standing ds q r₂ ∧ Retains r r₂ ∧ (f.Sound q r₂ ∧ f.Grounded r₂) ∧
      (∀ v ∈ vs, v.Sound q r₂) ∧ ∀ v ∈ vs, v.Grounded r₂ := by
  obtain ⟨r₁, hcallee, hargs⟩ := hp
  obtain ⟨hready, hreadyAll⟩ := he.call h.good
  obtain ⟨hnext, hsound, hgrounded⟩ := h.evaluate hready hf hcallee
  have hfits : (p.afterExpr callee).Fits r₁ := hnext.fits hf
  obtain ⟨hnext₂, hsounds, hgroundeds⟩ := hnext.standing.evaluateAll hreadyAll hfits hargs
  exact ⟨hnext₂.standing, hnext.retains.trans hnext₂.retains,
    ⟨hsound.mono (fun _ hx => hx) hnext₂.retains.toLater, hgrounded.mono hnext₂.retains⟩, hsounds,
    hgroundeds⟩

/-- A call is the call of its callee with its arguments, if these are as many as it takes. -/
theorem Prepares.evaluate {c : Callable}
    (hp : Prepares n p callee arguments r (.callable c) vs r₂) :
    Run.evaluate (n + 1) (.call callee paren arguments) r.machine =
      (if vs.length = r₂.machine.objects.arity c then Run.invoke n c vs
        else Run.raise paren.line (.arityMismatch (r₂.machine.objects.arity c) vs.length))
        r₂.machine := by
  obtain ⟨r₁, hcallee, hargs⟩ := hp
  exact Run.evaluate_call ((Traced.evaluate_erases n p callee).run_eq hcallee)
    (((Traced.allErase n).evaluateAll (p.afterExpr callee) arguments).run_eq hargs)

/-- A call that ends with a value has as many arguments as the callee takes. -/
theorem Prepares.invoke {c : Callable} (hp : Prepares n p callee arguments r (.callable c) vs r₂)
    {v : Value} {m : Machine}
    (hrun : Run.evaluate (n + 1) (.call callee paren arguments) r.machine = .ok v m) :
    vs.length = r₂.machine.objects.arity c ∧ Run.invoke n c vs r₂.machine = .ok v m := by
  rw [hp.evaluate] at hrun
  split at hrun
  · next harity => exact ⟨harity, hrun⟩
  · cases hrun

/-- The initializer of an instance is bound to the instance, unless a field hides it. -/
theorem Standing.method (h : Standing ds q r) {object : Expr} {name : Token}
    (he : (Expr.get object name).Ready q p) (hf : p.Fits r) (hname : name.lexeme = initializerName)
    {i : Nat} {r₁ : Record} (hobject : Traced.evaluate n p object r = .ok (.object i) r₁)
    (hfield : r₁.machine.objects.field? i name.lexeme = none) {v : Value} {m : Machine}
    (hrun : Run.evaluate (n + 1) (.get object name) r.machine = .ok v m) :
    ∃ id c, v = .callable (.closure id) ∧ m.Bound id c i ∧ c.isInitializer = true := by
  have hready : object.Ready q p := he.part fun _ ho => ho
  obtain ⟨hnext, -, -⟩ := h.evaluate hready hf hobject
  have hproperty : Run.property i name r₁.machine = .ok v m := by
    refine Eq.trans (Eq.symm ?_) hrun
    refine (Run.bind_apply _ _ r.machine).trans ?_
    rw [(Traced.evaluate_erases n p object).run_eq hobject]
  obtain ⟨k, c, id, -, hc, hv, hbound⟩ := Run.bound_of_property hfield hproperty
  rw [hname] at hc
  exact ⟨id, c, hv, hbound, hnext.standing.annals.rooted.isInitializer hc⟩

/-- An initializer that is called yields the instance to which it is bound. -/
theorem Standing.initializer (h : Standing ds q r)
    (he : (Expr.call callee paren arguments).Ready q p) (hf : p.Fits r) {id object : Nat}
    {c method : Closure} (hp : Prepares n p callee arguments r (.callable (.closure id)) vs r₂)
    (hc : r₂.machine.objects.closures[id]? = some c) (hi : c.isInitializer = true)
    (hbound : r₂.machine.Bound id method object) :
    (∀ v m, Run.evaluate (n + 1) (.call callee paren arguments) r.machine = .ok v m →
      v = .object object) ∧
      ∀ steps signal m, vs.length = c.declaration.arity →
        Run.executeAll steps c.declaration.body (r₂.machine.enter c vs) = .ok signal m →
        Run.getAt c.captured 0 "this" c.declaration.name.line m = .ok (.object object) m := by
  obtain ⟨h₂, -, hid, hvs, hvsg⟩ := h.prepared he hf hp
  have hkept {steps : Nat} {signal : Signal} {m : Machine}
      (harity : vs.length = c.declaration.arity)
      (hbody : Run.executeAll steps c.declaration.body (r₂.machine.enter c vs) = .ok signal m) :=
    h₂.receiver_kept hid.1 hid.2 hbound hc hvs hvsg harity hbody
  refine ⟨fun v m hrun => ?_, fun steps signal m harity hbody => ?_⟩
  · obtain ⟨harity, hinvoke⟩ := hp.invoke hrun
    have harity' : vs.length = c.declaration.arity := harity.trans (Objects.arity_closure hc)
    -- with fewer steps the body is not run at all
    cases n with
    | zero => cases hinvoke
    | succ n =>
      rw [Run.invoke_closure hc] at hinvoke
      cases n with
      | zero => cases hinvoke
      | succ n =>
        rw [Run.invokeClosure_of_initializer hi fun signal m' hbody => hkept harity' hbody]
          at hinvoke
        obtain ⟨signal, m', -, hv, -⟩ := Run.leave_eq_ok hinvoke
        exact hv
  · exact Run.getAt_of_value? (hkept harity hbody) _

/-- A call that ends with a value has got those of its operands before. -/
theorem exists_prepares {v : Value} {m : Machine}
    (hrun : Run.evaluate (n + 1) (.call callee paren arguments) r.machine = .ok v m) (p : Place) :
    ∃ f vs r₂, Prepares n p callee arguments r f vs r₂ := by
  obtain ⟨f, m₁, hcallee, hrest⟩ := exists_of_bind_eq_ok hrun
  obtain ⟨vs, m₂, hargs, -⟩ := exists_of_bind_eq_ok hrest
  obtain ⟨r₁, ht, rfl⟩ := (Traced.evaluate_erases n p callee).exists_ok hcallee
  obtain ⟨r₂, ht₂, -⟩ := ((Traced.allErase n).evaluateAll (p.afterExpr callee) arguments).exists_ok
    hargs
  exact ⟨f, vs, r₂, r₁, ht, ht₂⟩

/-- Where an expression is met, classes construct and initializers yield their instances. -/
theorem Standing.initializes (h : Standing ds q r) {e : Expr} (he : e.Ready q p) (hf : p.Fits r) :
    Initializes p e r where
  construct := by
    rintro callee paren arguments n k vs r₂ rfl hp v m hrun
    obtain ⟨h₂, hretains, hk, hvs, hvsg⟩ := h.prepared he hf hp
    obtain ⟨harity, hinvoke⟩ := hp.invoke hrun
    have hconstructs := h₂.construct (hk.2.klass k rfl) hvs hvsg harity hinvoke
    refine ⟨hconstructs, ?_⟩
    -- an instance that was there before the operands is there behind them as well
    cases ho : r.machine.objects.classOf? r₂.machine.objects.instances.size with
    | none => rfl
    | some k' => cases (hretains.objects.instances _ k' ho).symm.trans hconstructs.fresh
  found := by
    rintro callee paren arguments n k c vs r₂ rfl hp hc harity steps signal m hbody
    obtain ⟨h₂, -, -, hvs, hvsg⟩ := h.prepared he hf hp
    exact Run.getAt_of_value? (h₂.instance_found hc hvs hvsg harity hbody) _
  initializer := by
    rintro callee paren arguments n id c vs r₂ rfl hp hc hi
    obtain ⟨h₂, -, hid, -⟩ := h.prepared he hf hp
    obtain ⟨method, object, hbound, -⟩ := h₂.exists_bound hid.2 hc hi
    exact ⟨⟨method, object, hbound⟩, fun _ _ => h.initializer he hf hp hc hi⟩
  method := by
    rintro object name n i r₁ rfl hname hobject hfield v m hrun
    exact h.method he hf hname hobject hfield hrun
  direct := by
    rintro object name paren arguments n i r₁ rfl hname hobject hfield v m hrun
    obtain ⟨f, vs, r₂, hp⟩ := exists_prepares hrun p
    have hoperands := hp
    obtain ⟨r', hget, hargs⟩ := hoperands
    obtain ⟨hready, hreadyAll⟩ := he.call h.good
    have hmet := h.meet (.expression (.get object name)) hready hf
    have hrunGet : Run.evaluate (n + 1) (.get object name) r.machine = .ok f r'.machine :=
      (Traced.evaluate_erases (n + 1) p (.get object name)).run_eq hget
    obtain ⟨id, c, rfl, hbound, hi⟩ :=
      hmet.standing.method hready (hmet.fits hf) hname hobject hfield hrunGet
    -- the arguments leave the method bound
    obtain ⟨hnext, -, -⟩ := h.evaluate hready hf hget
    have hfits : (p.afterExpr (.get object name)).Fits r' := hnext.fits hf
    obtain ⟨hnext₂, -, -⟩ := hnext.standing.evaluateAll hreadyAll hfits hargs
    have hbound₂ := hbound.mono hnext₂.retains.keeps
    have hclosure := hbound₂
    obtain ⟨f, hc, -⟩ := hclosure
    exact (h.initializer he hf hp hc hi hbound₂).1 v m hrun
  super := by
    rintro id keyword name n rfl hname v m hrun
    obtain ⟨k, f, object, klass, method, g, super, hreceives, -, -, hrefers⟩ :=
      he.refersSuper h.good h.placed h.lawful h.grounded hf
    specialize hrefers n
    cases hfound : r.machine.objects.method? super name.lexeme with
    | none =>
      rw [hfound] at hrefers
      cases hrefers.symm.trans hrun
    | some found =>
      rw [hfound] at hrefers
      obtain ⟨c, bound, m', hc, hevaluate, hbound⟩ := hrefers
      cases hevaluate.symm.trans hrun
      have hi : r.machine.objects.initializer? super = some c := by
        rw [hname] at hfound
        exact Option.bind_eq_some_iff.mpr ⟨found, hfound, hc⟩
      exact ⟨k, f, object, klass, method, bound, c, hreceives, rfl, hbound,
        h.annals.rooted.isInitializer hi⟩
  keeps n v m hrun := by
    have hg := (Traced.allGround h.good h.placed n).evaluate r p e h.lawful h.grounded he hf
    obtain ⟨r', ht, rfl⟩ := (Traced.evaluate_erases n p e).exists_ok hrun
    exact (Traced.Leads.ok hg ht).1.toRetains.keeps
  operands := by
    rintro callee paren arguments n f vs r₂ rfl hp
    obtain ⟨-, hretains, -⟩ := h.prepared he hf hp
    exact hretains.keeps

end

/-! ### Sessions -/

/-- In the record of any session, which is the session with notes: what is bound to an instance
stays bound to it, from each node that is met to all later ones and to the end; and wherever an
expression is met, a call of a class constructs a new instance and runs the initializer on it, a
call of an initializer yields the instance to which it is bound, and what is found as an initializer
is bound to the instance in which it was found. -/
theorem session_constructions (clock : Nat → Float) (sink : Sink) (fuel : Nat)
    (sources : List String) :
    let r := Session.trace fuel (.start clock sink) sources
    r.machine = ((Session.start (.start clock sink)).runEach fuel sources).machine ∧
      (∀ m ∈ machines r.log, ∀ id method object, m.Bound id method object →
        r.machine.Bound id method object) ∧
      ((machines r.log).Pairwise fun later earlier => ∀ id method object,
        earlier.Bound id method object → later.Bound id method object) ∧
      ∀ later p e m earlier, r.log = later ++ .met p (.expression e) m :: earlier →
        ∃ bodies, Initializes p e ⟨m, bodies, .met p (.expression e) m :: earlier⟩ := by
  intro r
  have hannals : Annals r := session_annals clock sink fuel sources
  refine ⟨Session.trace_erases fuel _ sources, fun m hm id method object hb => ?_, ?_, ?_⟩
  · exact hb.mono (hannals.kept m hm)
  · exact hannals.ordered.imp fun hkeeps id method object hb => hb.mono hkeeps
  · intro later p e m earlier hlog
    obtain ⟨ds, q, bodies, hstanding, hready, hfits⟩ := hannals.standing hlog
    have hmet := hstanding.meet (.expression e) hready hfits
    exact ⟨bodies, hmet.standing.initializes hready (hmet.fits hfits)⟩

/-- An initializer that returns at once yields its instance, when it is called as a method as well.
-/
example :
    ((Session.start (.start (fun _ => 0) .sound)).run 12
      "class A { init() { return; } } var a = A(); print a.init() == a;").1.printed = "true\n" := by
  cbv

end Lox
