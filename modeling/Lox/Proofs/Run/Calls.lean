/-
Calls.

A call makes a frame for the parameters of the function, runs the body in it, and comes back to the
frame of the caller.  An initializer that is called through a class has its receiver in one more
frame around that one.  What a call does apart from the run of the body is said here once, so that
what is shown of calls does not depend on how the evaluation makes them.

* `Machine.instantiate`, `Machine.receive`, `Machine.enter` — the machine with a new instance, with
  a method bound to an instance, and in front of the body of a function; `Record.receive` and
  `Record.enter` are the same with notes;
* `Machine.Receives` — what the frames in front of the body of a method hold;
* `Traced.invokeClosure_of_plain`, `Traced.invokeClosure_of_initializer` — a call of a function, and
  of an initializer;
* `Traced.invoke_klass_of_none`, `Traced.invoke_klass_of_initializer` — a call of a class;
* `Traced.evaluate_call` — a call expression, when its operands have their values.

Design notes: the calls are opened where they are recorded, and what is said of them without notes
follows from that.
-/
import Lox.Proofs.Run.References
import Lox.Proofs.Run.Unwinding
import Lox.Proofs.Run.Leads

namespace Lox

/-! ### Variables of a new frame -/

namespace Frames

theorem lt_size_push (s : Frames) (parent : Option FrameId) : s.size < (s.push parent).size := by
  rw [size_push]
  exact Nat.lt_succ_self _

/-- Variables of a frame get values, one after the other. -/
def defineAll (s : Frames) (f : FrameId) : List (Token × Value) → Frames
  | [] => s
  | (name, v) :: rest => (s.define f name.lexeme v).defineAll f rest

theorem parent?_defineAll (s : Frames) (f : FrameId) (entries : List (Token × Value))
    (g : FrameId) : (s.defineAll f entries).parent? g = s.parent? g := by
  induction entries generalizing s with
  | nil => rfl
  | cons e rest ih => exact (ih _).trans (s.parent?_define ..)

/-- Only the given variables of the one frame change. -/
theorem value?_defineAll_of_ne {s : Frames} {f g : FrameId} (hf : f < s.size) {x : String}
    {entries : List (Token × Value)} (h : ∀ e ∈ entries, ¬(f = g ∧ e.1.lexeme = x)) :
    (s.defineAll f entries).value? g x = s.value? g x := by
  induction entries generalizing s with
  | nil => rfl
  | cons e rest ih =>
    have hlt : f < (s.define f e.1.lexeme e.2).size := by rwa [size_define]
    refine (ih hlt fun e he => h e (List.mem_cons_of_mem _ he)).trans ?_
    rw [s.value?_define hf, if_neg (h e (List.mem_cons_self ..))]

/-- Of variables with different names each one gets its value. -/
theorem value?_defineAll_of_mem {s : Frames} {f : FrameId} (hf : f < s.size)
    {entries : List (Token × Value)} (hn : (entries.map fun e => e.1.lexeme).Nodup)
    {e : Token × Value} (he : e ∈ entries) :
    (s.defineAll f entries).value? f e.1.lexeme = some e.2 := by
  induction entries generalizing s with
  | nil => cases he
  | cons e' rest ih =>
    -- the first one is not written again, as the others have other names
    obtain ⟨hnew, hrest⟩ := List.nodup_cons.mp hn
    have hlt : f < (s.define f e'.1.lexeme e'.2).size := by rwa [size_define]
    rcases List.mem_cons.mp he with rfl | he
    · refine (value?_defineAll_of_ne hlt fun e' he' hsame => hnew ?_).trans ?_
      · exact List.mem_map.mpr ⟨e', he', hsame.2⟩
      · rw [s.value?_define hf, if_pos ⟨rfl, rfl⟩]
    · exact ih hlt hrest he

end Frames

/-! ### Machines in front of a body -/

namespace Machine

/-- The machine with a new instance of a class, which has no fields. -/
def instantiate (m : Machine) (klass : Nat) : Machine :=
  { m with objects := m.objects.addInstance klass }

/-- The machine with a frame that holds an instance as `this`, inside of the one that a method
captured. -/
def receive (m : Machine) (method : Closure) (object : Nat) : Machine :=
  { m with
    frames := (m.frames.push (some method.captured)).define m.frames.size "this" (.object object) }

/-- The machine in front of the body of a function: it is in a new frame that holds the arguments
under the names of the parameters, inside of the frame that the function captured. -/
def enter (m : Machine) (c : Closure) (vs : List Value) : Machine :=
  { m with
    frames := (m.frames.push (some c.captured)).defineAll m.frames.size
      (c.declaration.params.zip vs)
    active := m.frames.size }

/-- The machine in front of the body of an initializer that a call of a class runs on the new
instance. -/
def beginning (m : Machine) (klass : Nat) (c : Closure) (vs : List Value) : Machine :=
  ((m.instantiate klass).receive c m.objects.instances.size).enter
    { c with captured := m.frames.size } vs

/-- In front of the body of a method the frame of the activation holds exactly the parameters, each
with its argument, and the frame around it exactly the receiver. -/
structure Receives (m : Machine) (f : FunDecl) (object : Nat) (vs : List Value) : Prop where
  arity : vs.length = f.params.length
  parameters : ∀ i (h : i < f.params.length), m.frames.value? m.active f.params[i].lexeme = vs[i]?
  only : ∀ x v, m.frames.value? m.active x = some v → ∃ t ∈ f.params, t.lexeme = x
  around : ∃ g, m.frames.parent? m.active = some g ∧
    ∀ x, m.frames.value? g x = if x = "this" then some (.object object) else none

variable {m : Machine} {c : Closure} {vs : List Value}

/-- Frames that there were keep their variables. -/
theorem value?_enter {g : FrameId} (hg : g < m.frames.size) (x : String) :
    (m.enter c vs).frames.value? g x = m.frames.value? g x := by
  have hlt := m.frames.lt_size_push (some c.captured)
  refine (Frames.value?_defineAll_of_ne hlt fun e _ hsame => ?_).trans (m.frames.value?_push ..)
  exact Nat.ne_of_gt hg hsame.1

theorem parent?_enter : (m.enter c vs).frames.parent? (m.enter c vs).active = some c.captured :=
  (Frames.parent?_defineAll ..).trans ((m.frames.parent?_push ..).trans (if_pos rfl))

/-- Each parameter has its argument. -/
theorem value?_enter_param (hd : (c.declaration.params.map Token.lexeme).Nodup)
    (hl : vs.length = c.declaration.params.length) {i : Nat}
    (hi : i < c.declaration.params.length) :
    (m.enter c vs).frames.value? (m.enter c vs).active c.declaration.params[i].lexeme = vs[i]? := by
  have hlt := m.frames.lt_size_push (some c.captured)
  have hi' : i < vs.length := hl ▸ hi
  have hzip : i < (c.declaration.params.zip vs).length := by
    rw [List.length_zip]
    exact Nat.lt_min.mpr ⟨hi, hi'⟩
  have hmem : (c.declaration.params[i], vs[i]) ∈ c.declaration.params.zip vs :=
    List.mem_iff_getElem.mpr ⟨i, hzip, List.getElem_zip⟩
  have hn : ((c.declaration.params.zip vs).map fun e => e.1.lexeme).Nodup := by
    have hfirst : (c.declaration.params.zip vs).map Prod.fst = c.declaration.params :=
      List.map_fst_zip (Nat.le_of_eq hl.symm)
    rw [← hfirst, List.map_map] at hd
    exact hd
  rw [List.getElem?_eq_getElem hi']
  exact Frames.value?_defineAll_of_mem hlt hn hmem

/-- There are no other variables. -/
theorem exists_param_of_value?_enter {x : String} {v : Value}
    (h : (m.enter c vs).frames.value? (m.enter c vs).active x = some v) :
    ∃ t ∈ c.declaration.params, t.lexeme = x := by
  have hlt := m.frames.lt_size_push (some c.captured)
  -- a name that is no parameter is not written, and the frame was empty
  by_contra hnone
  have hnew : (m.enter c vs).frames.value? m.frames.size x = none := by
    refine (Frames.value?_defineAll_of_ne hlt fun e he hsame => ?_).trans ?_
    · exact hnone ⟨e.1, (List.of_mem_zip he).1, hsame.2⟩
    · rw [Frames.value?_push]
      exact m.frames.value?_of_size_le (Nat.le_refl _) x
  cases hnew.symm.trans h

/-- The frame of a receiver holds exactly `this`. -/
theorem value?_receive (method : Closure) (object : Nat) (x : String) :
    (m.receive method object).frames.value? m.frames.size x =
      if x = "this" then some (.object object) else none := by
  have hlt := m.frames.lt_size_push (some method.captured)
  refine (Frames.value?_define _ hlt ..).trans ?_
  rw [Frames.value?_push, m.frames.value?_of_size_le (Nat.le_refl _)]
  by_cases hx : x = "this"
  · rw [if_pos hx, if_pos ⟨rfl, hx.symm⟩]
  · rw [if_neg hx, if_neg fun hsame => hx hsame.2.symm]

theorem size_receive (method : Closure) (object : Nat) :
    (m.receive method object).frames.size = m.frames.size + 1 :=
  (Frames.size_define ..).trans (m.frames.size_push _)

/-- In front of the body of a method, the frame of which holds exactly its receiver. -/
theorem receives_enter {object : Nat} (hd : (c.declaration.params.map Token.lexeme).Nodup)
    (hl : vs.length = c.declaration.params.length) (hg : c.captured < m.frames.size)
    (hthis : ∀ x, m.frames.value? c.captured x =
      if x = "this" then some (.object object) else none) :
    (m.enter c vs).Receives c.declaration object vs where
  arity := hl
  parameters _ hi := value?_enter_param hd hl hi
  only _ _ h := exists_param_of_value?_enter h
  around := ⟨c.captured, parent?_enter, fun x => (value?_enter hg x).trans (hthis x)⟩

/-- In front of the body of an initializer the receiver is the new instance. -/
theorem receives_beginning {klass : Nat} (hd : (c.declaration.params.map Token.lexeme).Nodup)
    (hl : vs.length = c.declaration.params.length) :
    (m.beginning klass c vs).Receives c.declaration m.objects.instances.size vs :=
  receives_enter (c := { c with captured := m.frames.size }) hd hl
    (Nat.lt_of_lt_of_eq (Nat.lt_succ_self _) (size_receive ..).symm) (value?_receive c _)

end Machine

/-! ### Records in front of a body -/

namespace Record

/-- Variables of a frame get values, one after the other. -/
def writeAll (r : Record) (f : FrameId) (opener : Option Opener) : List (Token × Value) → Record
  | [] => r
  | (name, v) :: rest => (r.write ⟨f, opener, name.lexeme⟩ v).writeAll f opener rest

/-- The record with a frame that holds an instance as `this`, inside of the one that a method
captured. -/
def receive (r : Record) (body : Place) (method : Closure) (object : Nat) : Record :=
  (r.push method.captured (body.openerAt 1)).write
    ⟨r.machine.frames.size, body.openerAt 1, "this"⟩ (.object object)

/-- The record in front of the body of a function, which stands at a place. -/
def enter (r : Record) (body : Place) (c : Closure) (vs : List Value) : Record :=
  ((r.push c.captured (body.openerAt 0)).writeAll r.machine.frames.size (body.openerAt 0)
    (c.declaration.params.zip vs)).inside r.machine.frames.size

/-- The record in front of the body of an initializer that a call of a class runs on the new
instance. -/
def beginning (r : Record) (klass : Nat) (c : Closure) (vs : List Value) : Record :=
  ((r.addInstance klass).receive (r.methodBody (some klass) initializerName) c
      r.machine.objects.instances.size).enter (r.methodBody (some klass) initializerName)
    { c with captured := r.machine.frames.size } vs

theorem machine_writeAll (r : Record) (f : FrameId) (opener : Option Opener)
    (entries : List (Token × Value)) :
    (r.writeAll f opener entries).machine =
      { r.machine with frames := r.machine.frames.defineAll f entries } := by
  induction entries generalizing r with
  | nil => rfl
  | cons e rest ih => exact ih _

theorem machine_enter (r : Record) (body : Place) (c : Closure) (vs : List Value) :
    (r.enter body c vs).machine = r.machine.enter c vs := by
  rw [enter, inside, machine_writeAll]
  rfl

theorem machine_beginning (r : Record) (klass : Nat) (c : Closure) (vs : List Value) :
    (r.beginning klass c vs).machine = r.machine.beginning klass c vs :=
  machine_enter ..

end Record

/-! ### Calls of functions -/

/-- The value of a call, the body of which has ended with a signal. -/
def Signal.value : Signal → Value
  | .returned v => v
  | .normal => .nil

/-- What a frame holds is found in it, and nothing changes. -/
theorem Run.getAt_of_value? {m : Machine} {f : FrameId} {x : String} {v : Value}
    (h : m.frames.value? f x = some v) (line : Nat) : Run.getAt f 0 x line m = .ok v m := by
  rw [Run.getAt, Frames.getAt_of_value? rfl h]
  rfl

namespace Traced

/-- What a call comes to behind the run of a body: the value that the signal gives, in the frame of
the caller. -/
def leave (caller : FrameId) (value : Signal → Value) :
    EStateM.Result Halt Record Signal → EStateM.Result Halt Record Value
  | .ok signal u => .ok (value signal) (u.inside caller)
  | .error h u => .error h (u.inside caller)

/-- A value that does not depend on the signal may as well be yielded behind the call. -/
theorem leave_const {t : Traced Value} {r : Record} {caller : FrameId} {v : Value}
    {body : EStateM.Result Halt Record Signal} (ht : t r = leave caller (fun _ => v) body) :
    (t >>= fun _ => pure v) r = leave caller (fun _ => v) body := by
  rw [bind_apply, ht]
  cases body <;> rfl

variable {n : Nat} {p : Place} {c : Closure} {vs : List Value} {r : Record}

theorem defineAll_apply (f : FrameId) (opener : Option Opener) (entries : List (Token × Value))
    (r : Record) : defineAll f opener entries r = .ok () (r.writeAll f opener entries) := by
  induction entries generalizing r with
  | nil => rfl
  | cons e rest ih => exact ih _

/-- A call runs the body in front of which the arguments have been bound. -/
theorem invokeClosure_apply (n : Nat) (p : Place) (c : Closure) (vs : List Value) (r : Record) :
    invokeClosure (n + 1) p c vs r =
      match executeAll n p 0 c.declaration.body (r.enter p c vs) with
      | .ok signal u =>
        (if c.isInitializer then lift (Run.getAt c.captured 0 "this" c.declaration.name.line)
          else pure signal.value : Traced Value) (u.inside r.machine.active)
      | .error h u => .error h (u.inside r.machine.active) := by
  have hdefine := defineAll_apply r.machine.frames.size (p.openerAt 0)
    (c.declaration.params.zip vs) (r.push c.captured (p.openerAt 0))
  have hactive : ((r.push c.captured (p.openerAt 0)).writeAll r.machine.frames.size
      (p.openerAt 0) (c.declaration.params.zip vs)).machine.active = r.machine.active := by
    rw [Record.machine_writeAll]
    rfl
  -- making the frame and writing to it can not halt, so the body is the first step that matters
  refine (bind_of_ok rfl _).trans ((bind_of_ok hdefine _).trans ((bind_apply _ _ _).trans ?_))
  have henter : ((r.push c.captured (p.openerAt 0)).writeAll r.machine.frames.size
      (p.openerAt 0) (c.declaration.params.zip vs)).inside r.machine.frames.size =
      r.enter p c vs := rfl
  rw [within, hactive, henter]
  cases executeAll n p 0 c.declaration.body (r.enter p c vs) with
  | error h u => rfl
  | ok signal u => cases c.isInitializer <;> cases signal <;> rfl

/-- A call leaves what its body has left, in the frame of the caller. -/
theorem record_of_invokeClosure {signal : Signal} {u : Record}
    (hbody : executeAll n p 0 c.declaration.body (r.enter p c vs) = .ok signal u) :
    (∃ v, invokeClosure (n + 1) p c vs r = .ok v (u.inside r.machine.active)) ∨
      ∃ e, invokeClosure (n + 1) p c vs r = .error e (u.inside r.machine.active) := by
  rw [invokeClosure_apply, hbody]
  simp only
  split
  · rcases Run.Still.getAt c.captured 0 "this" c.declaration.name.line
      (u.inside r.machine.active).machine with ⟨v, hv⟩ | ⟨e, he⟩
    · exact Or.inl ⟨v, by rw [lift, hv]⟩
    · exact Or.inr ⟨e, by rw [lift, he]⟩
  · exact Or.inl ⟨signal.value, rfl⟩

/-- A call of a function that is no initializer yields what its body returns, or `nil`. -/
theorem invokeClosure_of_plain (hc : c.isInitializer = false) :
    invokeClosure (n + 1) p c vs r = leave r.machine.active Signal.value
      (executeAll n p 0 c.declaration.body (r.enter p c vs)) := by
  rw [invokeClosure_apply, hc]
  cases executeAll n p 0 c.declaration.body (r.enter p c vs) <;> rfl

/-- A call of an initializer yields its receiver, if the body leaves it where it is. -/
theorem invokeClosure_of_initializer (hc : c.isInitializer = true) {object : Nat}
    (hthis : ∀ signal u, executeAll n p 0 c.declaration.body (r.enter p c vs) =
      .ok signal u → u.machine.frames.value? c.captured "this" = some (.object object)) :
    invokeClosure (n + 1) p c vs r = leave r.machine.active (fun _ => .object object)
      (executeAll n p 0 c.declaration.body (r.enter p c vs)) := by
  rw [invokeClosure_apply, hc]
  cases hrun : executeAll n p 0 c.declaration.body (r.enter p c vs) with
  | error h u => rfl
  | ok signal u =>
    have hvalue : (u.inside r.machine.active).machine.frames.value? c.captured "this" =
        some (.object object) := hthis signal u hrun
    simp only [if_true, lift, Run.getAt_of_value? hvalue]
    rfl

/-! ### Calls of callables -/

theorem invoke_closure {id : Nat} (hc : r.machine.objects.closures[id]? = some c) :
    invoke (n + 1) (.closure id) vs r = invokeClosure n (r.bodies id) c vs r := by
  have hfound : lift (Run.ofObjects fun o => o.closures[id]?) r = .ok (some c) r := by
    rw [lift, Run.ofObjects, hc]
  exact (bind_of_ok hfound _).trans (bind_of_ok rfl _)

variable {k : Nat}

/-- A class without an initializer yields a new instance, and does nothing else. -/
theorem invoke_klass_of_none (hc : r.machine.objects.initializer? k = none) :
    invoke (n + 1) (.klass k) vs r =
      .ok (.object r.machine.objects.instances.size) (r.addInstance k) := by
  have hfound : lift (Run.ofObjects fun o => o.initializer? k) (r.addInstance k) =
      .ok none (r.addInstance k) := by
    rw [lift, Run.ofObjects]
    exact congrArg (EStateM.Result.ok · (r.addInstance k)) hc
  exact (bind_of_ok rfl _).trans (bind_of_ok hfound _)

/-- A class with an initializer binds it to the new instance, calls it, and yields the instance. -/
theorem invoke_klass_of_some (hc : r.machine.objects.initializer? k = some c) :
    invoke (n + 1) (.klass k) vs r =
      (invokeClosure n (r.methodBody (some k) initializerName)
        { c with captured := r.machine.frames.size } vs >>= fun _ =>
          pure (.object r.machine.objects.instances.size))
        ((r.addInstance k).receive (r.methodBody (some k) initializerName) c
          r.machine.objects.instances.size) := by
  have hfound : lift (Run.ofObjects fun o => o.initializer? k) (r.addInstance k) =
      .ok (some c) (r.addInstance k) := by
    rw [lift, Run.ofObjects]
    exact congrArg (EStateM.Result.ok · (r.addInstance k)) hc
  exact (bind_of_ok rfl _).trans (bind_of_ok hfound _)

/-- A class whose initializer leaves the receiver where it is runs the body of that, and yields the
instance. -/
theorem invoke_klass_of_initializer (hc : r.machine.objects.initializer? k = some c)
    (hi : c.isInitializer = true)
    (hthis : ∀ signal u, executeAll n (r.methodBody (some k) initializerName) 0 c.declaration.body
      (r.beginning k c vs) = .ok signal u →
      u.machine.frames.value? r.machine.frames.size "this" =
        some (.object r.machine.objects.instances.size)) :
    invoke (n + 2) (.klass k) vs r =
      leave r.machine.active (fun _ => .object r.machine.objects.instances.size)
        (executeAll n (r.methodBody (some k) initializerName) 0 c.declaration.body
          (r.beginning k c vs)) := by
  have hcall := invokeClosure_of_initializer (n := n)
    (p := r.methodBody (some k) initializerName)
    (r := (r.addInstance k).receive (r.methodBody (some k) initializerName) c
      r.machine.objects.instances.size)
    (c := { c with captured := r.machine.frames.size }) hi hthis
  exact (invoke_klass_of_some hc).trans (leave_const hcall)

/-- A call expression, the operands of which have their values. -/
theorem evaluate_call {callee : Expr} {paren : Token} {arguments : List Expr}
    {f : Callable} {r₁ r₂ : Record}
    (hf : evaluate n p callee (r.meet p (.expression (.call callee paren arguments))) =
      .ok (.callable f) r₁)
    (hvs : evaluateAll n (p.afterExpr callee) arguments r₁ = .ok vs r₂) :
    evaluate (n + 1) p (.call callee paren arguments) r =
      (if vs.length = r₂.machine.objects.arity f then invoke n f vs
        else lift (Run.raise paren.line (.arityMismatch (r₂.machine.objects.arity f) vs.length)))
        r₂ :=
  (bind_of_ok hf _).trans ((bind_of_ok hvs _).trans (bind_of_ok rfl _))

end Traced

namespace Run

/-- What a call comes to behind the run of a body, without notes. -/
def leave (caller : FrameId) (value : Signal → Value) :
    EStateM.Result Halt Machine Signal → EStateM.Result Halt Machine Value
  | .ok signal m => .ok (value signal) { m with active := caller }
  | .error h m => .error h { m with active := caller }

theorem forget_leave (caller : FrameId) (value : Signal → Value)
    (body : EStateM.Result Halt Record Signal) :
    Traced.forget (Traced.leave caller value body) = leave caller value (Traced.forget body) := by
  cases body <;> rfl

/-- A call that ends with a value does so behind a body that has ended. -/
theorem leave_eq_ok {caller : FrameId} {value : Signal → Value}
    {body : EStateM.Result Halt Machine Signal} {v : Value} {m : Machine}
    (h : leave caller value body = .ok v m) :
    ∃ signal m', body = .ok signal m' ∧ v = value signal ∧ m = { m' with active := caller } := by
  cases body with
  | ok signal m' =>
    cases h
    exact ⟨signal, m', rfl, rfl, rfl⟩
  | error e m' => cases h

variable {n : Nat} {c : Closure} {vs : List Value} {m : Machine} {k : Nat}

/-- A call of an initializer yields its receiver, if the body leaves it where it is. -/
theorem invokeClosure_of_initializer (hc : c.isInitializer = true) {object : Nat}
    (hthis : ∀ signal m', executeAll n c.declaration.body (m.enter c vs) = .ok signal m' →
      m'.frames.value? c.captured "this" = some (.object object)) :
    invokeClosure (n + 1) c vs m =
      leave m.active (fun _ => .object object)
        (executeAll n c.declaration.body (m.enter c vs)) := by
  have hbody := (Traced.allErase n).executeAll (.top 0) 0 c.declaration.body
  have hcall : Traced.invokeClosure (n + 1) (.top 0) c vs (.start m) = _ :=
    Traced.invokeClosure_of_initializer hc fun signal u hu => by
      have hu' := hbody.run_eq hu
      rw [Record.machine_enter] at hu'
      exact hthis signal u.machine hu'
  have hrun := ((Traced.allErase (n + 1)).invokeClosure (.top 0) c vs).forget_eq (.start m)
  refine hrun.symm.trans ?_
  rw [hcall, forget_leave, hbody.forget_eq, Record.machine_enter]
  rfl

/-- A class without an initializer yields a new instance, and does nothing else. -/
theorem invoke_klass_of_none (hc : m.objects.initializer? k = none) :
    invoke (n + 1) (.klass k) vs m =
      .ok (.object m.objects.instances.size) (m.instantiate k) := by
  have hcall : Traced.invoke (n + 1) (.klass k) vs (.start m) = _ := Traced.invoke_klass_of_none hc
  have hrun := ((Traced.allErase (n + 1)).invoke (.klass k) vs).forget_eq (.start m)
  exact hrun.symm.trans (congrArg Traced.forget hcall)

/-- A class whose initializer leaves the receiver where it is runs the body of that, and yields the
instance. -/
theorem invoke_klass_of_initializer (hc : m.objects.initializer? k = some c)
    (hi : c.isInitializer = true)
    (hthis : ∀ signal m', executeAll n c.declaration.body (m.beginning k c vs) = .ok signal m' →
      m'.frames.value? m.frames.size "this" = some (.object m.objects.instances.size)) :
    invoke (n + 2) (.klass k) vs m =
      leave m.active (fun _ => .object m.objects.instances.size)
        (executeAll n c.declaration.body (m.beginning k c vs)) := by
  have hbody := (Traced.allErase n).executeAll
    ((Record.start m).methodBody (some k) initializerName) 0 c.declaration.body
  have hcall : Traced.invoke (n + 2) (.klass k) vs (.start m) = _ :=
    Traced.invoke_klass_of_initializer hc hi fun signal u hu => by
      have hu' := hbody.run_eq hu
      rw [Record.machine_beginning] at hu'
      exact hthis signal u.machine hu'
  have hrun := ((Traced.allErase (n + 2)).invoke (.klass k) vs).forget_eq (.start m)
  refine hrun.symm.trans ?_
  rw [hcall, forget_leave, hbody.forget_eq, Record.machine_beginning]
  rfl

/-- With a single step no initializer is run. -/
theorem invoke_klass_one (hc : m.objects.initializer? k = some c) :
    ∃ m', invoke 1 (.klass k) vs m = .error .outOfFuel m' := by
  have hcall : Traced.invoke 1 (.klass k) vs (.start m) = _ := Traced.invoke_klass_of_some hc
  have hrun := ((Traced.allErase 1).invoke (.klass k) vs).forget_eq (.start m)
  exact ⟨_, hrun.symm.trans (congrArg Traced.forget hcall)⟩

theorem invoke_closure {id : Nat} (hc : m.objects.closures[id]? = some c) :
    invoke (n + 1) (.closure id) vs m = invokeClosure n c vs m := by
  have hcall : Traced.invoke (n + 1) (.closure id) vs (.start m) = _ := Traced.invoke_closure hc
  have hrun := ((Traced.allErase (n + 1)).invoke (.closure id) vs).forget_eq (.start m)
  exact hrun.symm.trans ((congrArg Traced.forget hcall).trans
    (((Traced.allErase n).invokeClosure _ c vs).forget_eq (.start m)))

/-- A call expression, the operands of which have their values. -/
theorem evaluate_call {callee : Expr} {paren : Token} {arguments : List Expr} {f : Callable}
    {m₁ m₂ : Machine} (hf : evaluate n callee m = .ok (.callable f) m₁)
    (hvs : evaluateAll n arguments m₁ = .ok vs m₂) :
    evaluate (n + 1) (.call callee paren arguments) m =
      (if vs.length = m₂.objects.arity f then invoke n f vs
        else raise paren.line (.arityMismatch (m₂.objects.arity f) vs.length)) m₂ := by
  refine (bind_apply _ _ m).trans ?_
  rw [hf]
  refine (bind_apply _ _ m₁).trans ?_
  rw [hvs]
  rfl

end Run

end Lox
