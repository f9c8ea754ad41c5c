/-
What calls answer.

A call yields the value of the `return` statement of its own body that has ended it, or `nil` if
there was none.  Behind that statement nothing of the body is run, however deep in blocks, branches
and loops it stands: the record that it leaves is the one that the call leaves, but for the frame of
the caller.  Calls of initializers differ in the answer only, which is the instance.

* `Yields`, `Raises` — what a `return` statement yields, and that one of them ends what is run;
* `Course.run_eq_returned_iff` — what is run returns exactly if a `return` statement of its own ends
  it;
* `Concludes` — how a call ends, the body of which is run from a record on;
* `Answers` — what is known of calls where an expression is met;
* `session_returns` — every call in the run of any session, and every statement of a checked
  program.
-/
import Lox.Proofs.Run.Unwinding
import Lox.Proofs.Run.Construction

namespace Lox

/-! ### Return statements -/

/-- What a `return` statement at a place yields, and the record that it leaves. -/
def Yields (n : Nat) (q : Place) (keyword : Token) (value : Option Expr) (u : Record) (v : Value)
    (u' : Record) : Prop :=
  match value with
  | none => v = .nil ∧ u' = u.meet q (.statement (.ret keyword none))
  | some e => Traced.evaluate n (q.returned keyword) e
      (u.meet q (.statement (.ret keyword (some e)))) = .ok v u'

/-- In the course of what is run a `return` statement of the same activation is begun, which yields
a value and leaves a record. -/
def Raises (v : Value) (u' : Record) (fuel : Nat) (c : Course) (r : Record) : Prop :=
  ∃ n q keyword value u, .ret keyword value ∈ c.own ∧
    Begins (n + 1) q (.ret keyword value) u fuel c r ∧ Yields n q keyword value u v u'

section

variable {n fuel : Nat} {q : Place} {keyword : Token} {value : Option Expr} {u u' r r' : Record}
  {v : Value} {c : Course}

theorem execute_ret_eq_returned_iff :
    Traced.execute (n + 1) q (.ret keyword value) u = .ok (.returned v) u' ↔
      Yields n q keyword value u v u' := by
  cases value with
  | none =>
    have hrun : Traced.execute (n + 1) q (.ret keyword none) u =
        .ok (.returned .nil) (u.meet q (.statement (.ret keyword none))) := rfl
    rw [hrun]
    constructor
    · intro h
      cases h
      exact ⟨rfl, rfl⟩
    · rintro ⟨rfl, rfl⟩
      rfl
  | some e =>
    constructor
    · intro h
      obtain ⟨w, u₁, he, hw⟩ := exists_of_bind_eq_ok h
      cases hw
      exact he
    · intro h
      exact Traced.bind_of_ok h _

/-- What is run returns exactly if a `return` statement of the same activation ends it, and it
leaves what that statement has left. -/
theorem Course.run_eq_returned_iff :
    c.run fuel r = .ok (.returned v) r' ↔
      ∃ u', Raises v u' fuel c r ∧ r' = u'.inside r.machine.active := by
  constructor
  · intro h
    obtain ⟨n, q, keyword, value, u, u', hbegins, hret⟩ := exists_begins_ret h
    have hrun := hbegins.returns hret
    cases n with
    | zero =>
      -- without a step nothing returns
      have hzero := (Course.one q (.ret keyword value)).run_zero u
      cases hzero.symm.trans hret
    | succ n =>
      refine ⟨u', ⟨n, q, keyword, value, u, hbegins.mem_own, hbegins, ?_⟩, ?_⟩
      · exact execute_ret_eq_returned_iff.mp hret
      · cases h.symm.trans hrun
        rfl
  · rintro ⟨u', ⟨n, q, keyword, value, u, -, hbegins, hyields⟩, rfl⟩
    exact hbegins.returns (execute_ret_eq_returned_iff.mpr hyields)

end

/-! ### How calls end -/

/-- How a call ends, the body of which is run from a record on: what the body yields is turned into
an answer, in the frame of the caller. -/
structure Concludes (caller : FrameId) (answer : Signal → Value) (n : Nat) (body : Course)
    (entry : Record) (result : EStateM.Result Halt Record Value) : Prop where
  /-- The body returns only by a `return` statement of its own. -/
  raised : ∀ v u, body.run n entry = .ok (.returned v) u →
    ∃ u', Raises v u' n body entry ∧ u = u'.inside entry.machine.active
  /-- Behind a `return` statement of the body nothing happens before the call has ended. -/
  returned : ∀ v u', Raises v u' n body entry →
    result = .ok (answer (.returned v)) (u'.inside caller)
  normal : ∀ u, body.run n entry = .ok .normal u → result = .ok (answer .normal) (u.inside caller)
  halted : ∀ e u, body.run n entry = .error e u → result = .error e (u.inside caller)

theorem Concludes.of_leave {caller : FrameId} {answer : Signal → Value} {n : Nat} {body : Course}
    {entry : Record} {result : EStateM.Result Halt Record Value}
    (h : result = Traced.leave caller answer (body.run n entry)) :
    Concludes caller answer n body entry result where
  raised _ _ hrun := Course.run_eq_returned_iff.mp hrun
  returned v u' hraises := by
    have hrun := Course.run_eq_returned_iff.mpr ⟨u', hraises, rfl⟩
    rw [h, hrun]
    rfl
  normal u hrun := by rw [h, hrun]; rfl
  halted e u hrun := by rw [h, hrun]; rfl

/-- What is known of calls where an expression is met, on the record in front of it. -/
structure Answers (p : Place) (e : Expr) (r : Record) : Prop where
  /-- A function was declared, and it answers with what its body returns; an initializer, that is a
  method of that name in a class declaration, answers with the instance to which it is bound. -/
  function : ∀ callee paren arguments n id c vs r₂, e = .call callee paren arguments →
    Prepares (n + 2) p callee arguments (r.meet p (.expression e)) (.callable (.closure id)) vs r₂ →
    r₂.machine.objects.closures[id]? = some c → vs.length = c.declaration.arity →
    c.Stems r₂.log (r₂.bodies id) ∧ ∃ answer,
      Concludes r₂.machine.active answer n (.all (r₂.bodies id) 0 c.declaration.body)
        (r₂.enter (r₂.bodies id) c vs) (Traced.evaluate (n + 3) p e r) ∧
      (c.isInitializer = false → answer = Signal.value) ∧
      (c.isInitializer = true → ∃ method object, r₂.machine.Bound id method object ∧
        answer = fun _ => .object object)
  /-- A class answers with the new instance, whatever its initializer returns. -/
  construct : ∀ callee paren arguments n k c vs r₂, e = .call callee paren arguments →
    Prepares (n + 2) p callee arguments (r.meet p (.expression e)) (.callable (.klass k)) vs r₂ →
    r₂.machine.objects.initializer? k = some c → vs.length = c.declaration.arity →
    c.Stems r₂.log (r₂.methodBody (some k) initializerName) ∧ c.isInitializer = true ∧
      Concludes r₂.machine.active (fun _ => .object r₂.machine.objects.instances.size) n
        (.all (r₂.methodBody (some k) initializerName) 0 c.declaration.body)
        (r₂.beginning k c vs) (Traced.evaluate (n + 3) p e r)

section

variable {ds : Distances} {q : Site → Prop} {r r₂ : Record} {p : Place} {n : Nat} {callee : Expr}
  {paren : Token} {arguments : List Expr} {vs : List Value}

/-- A call with as many arguments as the callee takes is the call of the callee. -/
theorem Prepares.traced {f : Callable}
    (hp : Prepares n p callee arguments (r.meet p (.expression (.call callee paren arguments)))
      (.callable f) vs r₂) (harity : vs.length = r₂.machine.objects.arity f) :
    Traced.evaluate (n + 1) p (.call callee paren arguments) r = Traced.invoke n f vs r₂ := by
  obtain ⟨r₁, hcallee, harguments⟩ := hp
  rw [Traced.evaluate_call hcallee harguments, if_pos harity]

/-- A function answers with what its body returns, and an initializer with its instance. -/
theorem Standing.answer (h : Standing ds q r₂) {id : Nat} {c : Closure}
    (hid : Value.Sound q r₂ (.callable (.closure id)))
    (hidg : Value.Grounded r₂ (.callable (.closure id)))
    (hvs : ∀ v ∈ vs, v.Sound q r₂) (hvsg : ∀ v ∈ vs, v.Grounded r₂)
    (hc : r₂.machine.objects.closures[id]? = some c) (harity : vs.length = c.declaration.arity)
    (n : Nat) :
    ∃ answer, Traced.invokeClosure (n + 1) (r₂.bodies id) c vs r₂ =
        Traced.leave r₂.machine.active answer (Traced.executeAll n (r₂.bodies id) 0
          c.declaration.body (r₂.enter (r₂.bodies id) c vs)) ∧
      (c.isInitializer = false → answer = Signal.value) ∧
      (c.isInitializer = true → ∃ method object, r₂.machine.Bound id method object ∧
        answer = fun _ => .object object) := by
  cases hi : c.isInitializer with
  | false => exact ⟨_, Traced.invokeClosure_of_plain hi, fun _ => rfl, fun hn => by cases hn⟩
  | true =>
    obtain ⟨method, object, hbound, -⟩ := h.exists_bound hidg hc hi
    -- whatever the signal is, the receiver is still in the frame that the initializer captured
    refine ⟨fun _ => .object object, Traced.invokeClosure_of_initializer hi fun signal u hu => ?_,
      fun hn => (by cases hn), fun _ => ⟨method, object, hbound, rfl⟩⟩
    have hbody := ((Traced.allErase n).executeAll (r₂.bodies id) 0 c.declaration.body).run_eq hu
    rw [Record.machine_enter] at hbody
    exact h.receiver_kept hid hidg hbound hc hvs hvsg harity hbody

/-- Where an expression is met, calls answer. -/
theorem Standing.answers (h : Standing ds q r) {e : Expr} (he : e.Ready q p) (hf : p.Fits r) :
    Answers p e r where
  function := by
    rintro callee paren arguments n id c vs r₂ rfl hp hc harity
    have hmet := h.meet (.expression (.call callee paren arguments)) he hf
    obtain ⟨h₂, -, hid, hvs, hvsg⟩ := hmet.standing.prepared he (hmet.fits hf) hp
    obtain ⟨answer, hcall, hplain, hinitializer⟩ :=
      h₂.answer hid.1 hid.2 hvs hvsg hc harity n
    have harity' : vs.length = r₂.machine.objects.arity (.closure id) :=
      harity.trans (Objects.arity_closure hc).symm
    refine ⟨h₂.annals.rooted.closures id c hc, answer, .of_leave ?_, hplain, hinitializer⟩
    exact (hp.traced harity').trans ((Traced.invoke_closure hc).trans hcall)
  construct := by
    rintro callee paren arguments n k c vs r₂ rfl hp hc harity
    have hmet := h.meet (.expression (.call callee paren arguments)) he hf
    obtain ⟨h₂, -, -, hvs, hvsg⟩ := hmet.standing.prepared he (hmet.fits hf) hp
    have hi := h₂.annals.rooted.isInitializer hc
    have harity' : vs.length = r₂.machine.objects.arity (.klass k) :=
      harity.trans (Objects.arity_klass hc).symm
    have hcall : Traced.invoke (n + 2) (.klass k) vs r₂ = _ :=
      Traced.invoke_klass_of_initializer hc hi fun signal u hu => by
        have hbody := ((Traced.allErase n).executeAll _ 0 c.declaration.body).run_eq hu
        rw [Record.machine_beginning] at hbody
        exact h₂.instance_found hc hvs hvsg harity hbody
    exact ⟨h₂.annals.rooted.method hc, hi, .of_leave ((hp.traced harity').trans hcall)⟩

end

/-! ### Sessions -/

/-- No statement of a program that has been checked returns.  In the record of any session, which is
the session with notes: wherever an expression is met, a call of a function is ended by the first
`return` statement of its own body that is run, if any, behind which nothing more of the body is
run, and answers with the value of that statement or `nil`; only calls of initializers and of
classes answer with the instance. -/
theorem session_returns (clock : Nat → Float) (sink : Sink) (fuel : Nat) (sources : List String) :
    let r := Session.trace fuel (.start clock sink) sources
    r.machine = ((Session.start (.start clock sink)).runEach fuel sources).machine ∧
      (∀ text firstId program, (check text firstId).result = .ok program →
        ∀ s ∈ program.statements, ∀ fuel m v m', Run.execute fuel s m ≠ .ok (.returned v) m') ∧
      ∀ later p e m earlier, r.log = later ++ .met p (.expression e) m :: earlier →
        ∃ bodies, Answers p e ⟨m, bodies, earlier⟩ := by
  intro r
  refine ⟨Session.trace_erases fuel _ sources, ?_, ?_⟩
  · intro text firstId program hp s hs
    exact execute_ne_returned hp hs
  · intro later p e m earlier hlog
    have hannals : Annals r := session_annals clock sink fuel sources
    obtain ⟨ds, q, bodies, hstanding, hready, hfits⟩ := hannals.standing hlog
    exact ⟨bodies, hstanding.answers hready hfits⟩

/-- A `return` ends the loop in which it stands. -/
example :
    ((Session.start (.start (fun _ => 0) .sound)).run 12
      "fun f() { while (true) { return true; print f; } } print f();").1.printed = "true\n" := by
  cbv

end Lox
