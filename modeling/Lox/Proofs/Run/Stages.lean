/-
Stages of runs.

The run of a program goes through stages.  At each of them a machine is given something to do: an
expression to evaluate, a statement to execute, a callable to invoke.  A stage calls others, with
less fuel, on the machines that it has brought about until then, and what it leaves behind depends
on them alone.  So a property that holds of the first stage of a program, and of each stage that is
called by one of which it holds, holds at every moment at which the evaluation takes something up.

* `Job`, `Stage` — what a machine can be given to do, and this with the machine and the fuel;
* `Job.not_isCall_of_first` — a call is not what anything begins with;
* `Stage.Calls` — one stage calls another;
* `Job.run_congr` — a stage ends as the stages that it calls let it end, so that none is missing;
* `Run.Passes` — the stages of a program that runs on a machine;
* `Forced` — the machines that a session leads to in which any program may run, with any fuel and
  any distances;
* `Forced.Passes` — the stages of such a session;
* `Session.forced_runEach` — a session in which sources are run is a case of that.

Design notes: in a forced session nothing is asked of a program, so that it may have faults, and its
distances may be wrong ones.  A run that ends early does so at any depth, also because its fuel is
too small, and what it leaves behind is a machine of the session as well.
-/
import Lox.Proofs.Run.Calls
import Lox.Proofs.Run.Identity

namespace Lox

/-! ### Jobs -/

/-- What the evaluation can be given to do. -/
inductive Job where
  | evaluate (e : Expr)
  | evaluateAll (es : List Expr)
  | invoke (c : Callable) (arguments : List Value)
  | invokeClosure (c : Closure) (arguments : List Value)
  | execute (s : Stmt)
  | executeAll (ss : List Stmt)
  | repeatWhile (condition : Expr) (body : Stmt)

/-- What a job yields. -/
abbrev Job.Yield : Job → Type
  | .evaluate _ | .invoke .. | .invokeClosure .. => Value
  | .evaluateAll _ => List Value
  | .execute _ | .executeAll _ | .repeatWhile .. => Signal

/-- The run of a job. -/
def Job.run (fuel : Nat) : (j : Job) → Run j.Yield
  | .evaluate e => Run.evaluate fuel e
  | .evaluateAll es => Run.evaluateAll fuel es
  | .invoke c vs => Run.invoke fuel c vs
  | .invokeClosure c vs => Run.invokeClosure fuel c vs
  | .execute s => Run.execute fuel s
  | .executeAll ss => Run.executeAll fuel ss
  | .repeatWhile condition body => Run.repeatWhile fuel condition body

/-- The operand that is evaluated first. -/
def Expr.first? : Expr → Option Expr
  | .assign _ _ value => some value
  | .binary left _ _ | .logical left _ _ => some left
  | .call callee _ _ => some callee
  | .get object _ | .set object _ _ => some object
  | .grouping inner => some inner
  | .unary _ right => some right
  | .literal _ | .superRef .. | .thisRef .. | .var .. => none

/-- What a statement begins with. -/
def Stmt.first? : Stmt → Option Job
  | .classDecl _ superclass _ => superclass.map .evaluate
  | .expression e | .print e => some (.evaluate e)
  | .branch condition _ _ => some (.evaluate condition)
  | .loop condition body => some (.repeatWhile condition body)
  | .ret _ value => value.map .evaluate
  | .varDecl _ initializer => initializer.map .evaluate
  | .block _ | .function _ => none

/-- What a job begins with, on the machine that it is given. -/
def Job.first? : Job → Option Job
  | .evaluate e => e.first?.map .evaluate
  | .evaluateAll es => es.head?.map .evaluate
  | .invoke .. | .invokeClosure .. => none
  | .execute s => s.first?
  | .executeAll ss => ss.head?.map .execute
  | .repeatWhile condition _ => some (.evaluate condition)

/-- Something is called. -/
def Job.IsCall : Job → Prop
  | .invoke .. | .invokeClosure .. => True
  | _ => False

theorem Job.not_isCall_of_map {α : Type} {x : Option α} {f : α → Job} {j : Job}
    (h : x.map f = some j) (hf : ∀ a, ¬ (f a).IsCall) : ¬ j.IsCall := by
  obtain ⟨a, -, rfl⟩ := Option.map_eq_some_iff.mp h
  exact hf a

/-- No job begins with a call. -/
theorem Job.not_isCall_of_first {j j' : Job} (h : j.first? = some j') : ¬ j'.IsCall := by
  cases j with
  | evaluate e => exact not_isCall_of_map h fun _ => id
  | evaluateAll es => exact not_isCall_of_map h fun _ => id
  | invoke c vs => cases h
  | invokeClosure c vs => cases h
  | execute s =>
    cases s with
    | classDecl name superclass methods => exact not_isCall_of_map h fun _ => id
    | ret keyword value => exact not_isCall_of_map h fun _ => id
    | varDecl name initializer => exact not_isCall_of_map h fun _ => id
    | block body => cases h
    | function f => cases h
    | _ =>
      cases h
      exact id
  | executeAll ss => exact not_isCall_of_map h fun _ => id
  | repeatWhile condition body =>
    cases h
    exact id

/-! ### Stages -/

/-- A machine that is given a job, and fuel for it. -/
structure Stage where
  fuel : Nat
  job : Job
  machine : Machine

/-- The machine that a run leaves, however it ends. -/
def Run.behind {α : Type} (run : Run α) (m : Machine) : Machine :=
  match run m with
  | .ok _ m' => m'
  | .error _ m' => m'

/-- The machine that a stage leaves. -/
def Stage.behind (s : Stage) : Machine :=
  (s.job.run s.fuel).behind s.machine

/-- The machine inside of a new block. -/
def Machine.open (m : Machine) : Machine :=
  { m with frames := m.frames.push (some m.active), active := m.frames.size }

open Run in
/-- A stage calls another one: the first at once, and further ones behind those that have ended. -/
inductive Stage.Calls : Stage → Stage → Prop where
  | first {n : Nat} {j j' : Job} {m : Machine} (h : j.first? = some j') :
    Calls ⟨n + 1, j, m⟩ ⟨n, j', m⟩
  -- expressions
  | right {n : Nat} {left right : Expr} {operator : Token} {a : Value} {m m₁ : Machine}
      (hleft : evaluate n left m = .ok a m₁) :
    Calls ⟨n + 1, .evaluate (.binary left operator right), m⟩ ⟨n, .evaluate right, m₁⟩
  | undecided {n : Nat} {left right : Expr} {operator : Token} {a : Value} {m m₁ : Machine}
      (hleft : evaluate n left m = .ok a m₁) (hd : decides operator a = false) :
    Calls ⟨n + 1, .evaluate (.logical left operator right), m⟩ ⟨n, .evaluate right, m₁⟩
  | arguments {n : Nat} {callee : Expr} {paren : Token} {arguments : List Expr} {f : Value}
      {m m₁ : Machine} (hcallee : evaluate n callee m = .ok f m₁) :
    Calls ⟨n + 1, .evaluate (.call callee paren arguments), m⟩ ⟨n, .evaluateAll arguments, m₁⟩
  | call {n : Nat} {callee : Expr} {paren : Token} {arguments : List Expr} {c : Callable}
      {vs : List Value} {m m₁ m₂ : Machine}
      (hcallee : evaluate n callee m = .ok (.callable c) m₁)
      (harguments : evaluateAll n arguments m₁ = .ok vs m₂)
      (harity : vs.length = m₂.objects.arity c) :
    Calls ⟨n + 1, .evaluate (.call callee paren arguments), m⟩ ⟨n, .invoke c vs, m₂⟩
  | value {n : Nat} {object value : Expr} {name : Token} {i : Nat} {m m₁ : Machine}
      (hobject : evaluate n object m = .ok (.object i) m₁) :
    Calls ⟨n + 1, .evaluate (.set object name value), m⟩ ⟨n, .evaluate value, m₁⟩
  | others {n : Nat} {e : Expr} {es : List Expr} {v : Value} {m m₁ : Machine}
      (he : evaluate n e m = .ok v m₁) :
    Calls ⟨n + 1, .evaluateAll (e :: es), m⟩ ⟨n, .evaluateAll es, m₁⟩
  -- calls
  | closure {n id : Nat} {c : Closure} {vs : List Value} {m : Machine}
      (hc : m.objects.closures[id]? = some c) :
    Calls ⟨n + 1, .invoke (.closure id) vs, m⟩ ⟨n, .invokeClosure c vs, m⟩
  | initializer {n k : Nat} {c : Closure} {vs : List Value} {m : Machine}
      (hc : m.objects.initializer? k = some c) :
    Calls ⟨n + 1, .invoke (.klass k) vs, m⟩
      ⟨n, .invokeClosure { c with captured := m.frames.size } vs,
        (m.instantiate k).receive c m.objects.instances.size⟩
  | body {n : Nat} {c : Closure} {vs : List Value} {m : Machine} :
    Calls ⟨n + 1, .invokeClosure c vs, m⟩ ⟨n, .executeAll c.declaration.body, m.enter c vs⟩
  -- statements
  | block {n : Nat} {body : List Stmt} {m : Machine} :
    Calls ⟨n + 1, .execute (.block body), m⟩ ⟨n, .executeAll body, m.open⟩
  | thenBranch {n : Nat} {condition : Expr} {thenBranch : Stmt} {elseBranch : Option Stmt}
      {v : Value} {m m₁ : Machine} (hcondition : evaluate n condition m = .ok v m₁)
      (hv : v.isTruthy = true) :
    Calls ⟨n + 1, .execute (.branch condition thenBranch elseBranch), m⟩
      ⟨n, .execute thenBranch, m₁⟩
  | elseBranch {n : Nat} {condition : Expr} {thenBranch elseBranch : Stmt} {v : Value}
      {m m₁ : Machine} (hcondition : evaluate n condition m = .ok v m₁)
      (hv : v.isTruthy = false) :
    Calls ⟨n + 1, .execute (.branch condition thenBranch (some elseBranch)), m⟩
      ⟨n, .execute elseBranch, m₁⟩
  | rest {n : Nat} {s : Stmt} {ss : List Stmt} {m m₁ : Machine}
      (hs : execute n s m = .ok .normal m₁) :
    Calls ⟨n + 1, .executeAll (s :: ss), m⟩ ⟨n, .executeAll ss, m₁⟩
  | turn {n : Nat} {condition : Expr} {body : Stmt} {v : Value} {m m₁ : Machine}
      (hcondition : evaluate n condition m = .ok v m₁) (hv : v.isTruthy = true) :
    Calls ⟨n + 1, .repeatWhile condition body, m⟩ ⟨n, .execute body, m₁⟩
  | again {n : Nat} {condition : Expr} {body : Stmt} {v : Value} {m m₁ m₂ : Machine}
      (hcondition : evaluate n condition m = .ok v m₁) (hv : v.isTruthy = true)
      (hbody : execute n body m₁ = .ok .normal m₂) :
    Calls ⟨n + 1, .repeatWhile condition body, m⟩ ⟨n, .repeatWhile condition body, m₂⟩

/-! ### Runs by stages -/

namespace Run

variable {α β : Type} {m : Machine}

/-- Two runs that begin alike, and go on alike from there, end alike. -/
theorem bind_congr {run run' : Run α} {next next' : α → Run β} (h : run m = run' m)
    (hn : ∀ a m', run m = .ok a m' → next a m' = next' a m') :
    (run >>= next) m = (run' >>= next') m := by
  rw [bind_apply, bind_apply, ← h]
  cases hr : run m with
  | ok a m' => exact hn a m' hr
  | error e m' => rfl

theorem bind_of_ok {run : Run α} {a : α} {m' : Machine} (h : run m = .ok a m') (next : α → Run β) :
    (run >>= next) m = next a m' := by
  rw [bind_apply, h]

theorem within_congr {run run' : Run α} {frame : FrameId}
    (h : run { m with active := frame } = run' { m with active := frame }) :
    within frame run m = within frame run' m := by
  unfold within
  rw [h]

/-! ### Calls without notes -/

variable {n k : Nat} {c : Closure} {vs : List Value}

theorem defineAll_apply (f : FrameId) (entries : List (Token × Value)) (m : Machine) :
    defineAll f entries m = .ok () { m with frames := m.frames.defineAll f entries } := by
  induction entries generalizing m with
  | nil => rfl
  | cons e rest ih => exact ih _

/-- What is left of a call when its body has ended. -/
def finish (c : Closure) (signal : Signal) : Run Value :=
  if c.isInitializer then getAt c.captured 0 "this" c.declaration.name.line
  else pure signal.value

/-- A call runs the body in front of which the arguments have been bound, and comes back to the
frame of the caller. -/
theorem invokeClosure_apply :
    invokeClosure (n + 1) c vs m =
      match executeAll n c.declaration.body (m.enter c vs) with
      | .ok signal m' => finish c signal { m' with active := m.active }
      | .error h m' => .error h { m' with active := m.active } := by
  have hdefine := defineAll_apply m.frames.size (c.declaration.params.zip vs)
    { m with frames := m.frames.push (some c.captured) }
  -- making the frame and writing to it can not halt, so the body is the first step that matters
  refine (bind_of_ok rfl _).trans ((bind_of_ok hdefine _).trans ((bind_apply _ _ _).trans ?_))
  simp only [within]
  have henter : m.enter c vs = { m with
    frames := (m.frames.push (some c.captured)).defineAll m.frames.size
      (c.declaration.params.zip vs)
    active := m.frames.size } := rfl
  rw [henter]
  unfold finish
  cases executeAll n c.declaration.body _ with
  | error h u => rfl
  | ok signal u => cases c.isInitializer <;> cases signal <;> rfl

/-- A class with an initializer binds it to the new instance, calls it, and yields the instance. -/
theorem invoke_klass_of_some (hc : m.objects.initializer? k = some c) :
    invoke (n + 1) (.klass k) vs m =
      (invokeClosure n { c with captured := m.frames.size } vs >>= fun _ =>
        pure (.object m.objects.instances.size))
        ((m.instantiate k).receive c m.objects.instances.size) := by
  have hfound : ofObjects (fun o => o.initializer? k) (m.instantiate k) =
      .ok (some c) (m.instantiate k) := by
    rw [ofObjects]
    exact congrArg (EStateM.Result.ok · (m.instantiate k)) hc
  exact (bind_of_ok rfl _).trans (bind_of_ok hfound _)

/-- A block runs its statements in a new frame, and comes back. -/
theorem execute_block {body : List Stmt} :
    execute (n + 1) (.block body) m =
      within m.frames.size (executeAll n body)
        { m with frames := m.frames.push (some m.active) } :=
  (bind_of_ok rfl _).trans (bind_of_ok rfl _)

end Run

/-- The stages that a job calls with one amount of fuel end alike with another one. -/
def Job.Alike (n n' : Nat) (j : Job) (m : Machine) : Prop :=
  ∀ j' m', Stage.Calls ⟨n + 1, j, m⟩ ⟨n, j', m'⟩ → j'.run n m' = j'.run n' m'

namespace Run

variable {n n' : Nat} {m : Machine}

theorem evaluate_congr {e : Expr} (h : (Job.evaluate e).Alike n n' m) :
    evaluate (n + 1) e m = evaluate (n' + 1) e m := by
  have hfirst (e' : Expr) (he : e.first? = some e') : evaluate n e' m = evaluate n' e' m :=
    h (.evaluate e') m (.first (congrArg (Option.map Job.evaluate) he))
  rw [evaluate.eq_def, evaluate.eq_def]
  cases e with
  | literal l => rfl
  | var id name => rfl
  | thisRef id keyword => rfl
  | superRef id keyword method => rfl
  | grouping inner => exact hfirst inner rfl
  | unary operator right => exact bind_congr (hfirst right rfl) fun _ _ _ => rfl
  | assign id name value => exact bind_congr (hfirst value rfl) fun _ _ _ => rfl
  | get object name => exact bind_congr (hfirst object rfl) fun _ _ _ => rfl
  | binary left operator right =>
    refine bind_congr (hfirst left rfl) fun a m₁ ha => ?_
    exact bind_congr (h (.evaluate right) m₁ (.right ha)) fun _ _ _ => rfl
  | logical left operator right =>
    refine bind_congr (hfirst left rfl) fun a m₁ ha => ?_
    cases hd : decides operator a with
    | true => rfl
    | false => exact h (.evaluate right) m₁ (.undecided ha hd)
  | call callee paren arguments =>
    refine bind_congr (hfirst callee rfl) fun f m₁ hf => ?_
    refine bind_congr (h (.evaluateAll arguments) m₁ (.arguments hf)) fun vs m₂ hvs => ?_
    cases f with
    | callable c =>
      by_cases ha : vs.length = m₂.objects.arity c
      · have hcall := h (.invoke c vs) m₂ (.call hf hvs ha)
        simp only [bind_apply, ofObjects, if_pos ha]
        exact hcall
      · simp only [bind_apply, ofObjects, if_neg ha]
    | _ => rfl
  | set object name value =>
    refine bind_congr (hfirst object rfl) fun o m₁ ho => ?_
    cases o with
    | object i => exact bind_congr (h (.evaluate value) m₁ (.value ho)) fun _ _ _ => rfl
    | _ => rfl

theorem evaluateAll_congr {es : List Expr} (h : (Job.evaluateAll es).Alike n n' m) :
    evaluateAll (n + 1) es m = evaluateAll (n' + 1) es m := by
  cases es with
  | nil => rfl
  | cons e es =>
    refine bind_congr (h (.evaluate e) m (.first rfl)) fun v m₁ hv => ?_
    exact bind_congr (h (.evaluateAll es) m₁ (.others hv)) fun _ _ _ => rfl

theorem invoke_congr {c : Callable} {vs : List Value} (h : (Job.invoke c vs).Alike n n' m) :
    invoke (n + 1) c vs m = invoke (n' + 1) c vs m := by
  cases c with
  | native id => rfl
  | closure id =>
    cases hc : m.objects.closures[id]? with
    | none => simp only [invoke, bind_apply, ofObjects, hc, ofOption, Run.halt]
    | some c =>
      have hrun := h (.invokeClosure c vs) m (.closure hc)
      simp only [invoke, bind_apply, ofObjects, hc, ofOption, pure_apply]
      exact hrun
  | klass k =>
    cases hc : m.objects.initializer? k with
    | none => rw [invoke_klass_of_none hc, invoke_klass_of_none hc]
    | some c =>
      have hrun := h (.invokeClosure { c with captured := m.frames.size } vs) _ (.initializer hc)
      rw [invoke_klass_of_some hc, invoke_klass_of_some hc]
      exact bind_congr hrun fun _ _ _ => rfl

theorem invokeClosure_congr {c : Closure} {vs : List Value}
    (h : (Job.invokeClosure c vs).Alike n n' m) :
    invokeClosure (n + 1) c vs m = invokeClosure (n' + 1) c vs m := by
  have hbody : executeAll n c.declaration.body (m.enter c vs) =
      executeAll n' c.declaration.body (m.enter c vs) := h (.executeAll _) _ .body
  rw [invokeClosure_apply, invokeClosure_apply, hbody]

theorem execute_congr {s : Stmt} (h : (Job.execute s).Alike n n' m) :
    execute (n + 1) s m = execute (n' + 1) s m := by
  rw [execute.eq_def, execute.eq_def]
  cases s with
  | expression e => exact bind_congr (h (.evaluate e) m (.first rfl)) fun _ _ _ => rfl
  | print e => exact bind_congr (h (.evaluate e) m (.first rfl)) fun _ _ _ => rfl
  | varDecl name initializer =>
    cases initializer with
    | none => rfl
    | some e => exact bind_congr (h (.evaluate e) m (.first rfl)) fun _ _ _ => rfl
  | block body =>
    have hbody : executeAll n body m.open = executeAll n' body m.open := h (.executeAll _) _ .block
    exact execute_block.trans ((within_congr hbody).trans execute_block.symm)
  | branch condition thenBranch elseBranch =>
    refine bind_congr (h (.evaluate condition) m (.first rfl)) fun v m₁ hv => ?_
    cases ht : v.isTruthy with
    | true => exact h (.execute thenBranch) m₁ (.thenBranch hv ht)
    | false =>
      cases elseBranch with
      | none => rfl
      | some elseBranch => exact h (.execute elseBranch) m₁ (.elseBranch hv ht)
  | loop condition body => exact h (.repeatWhile condition body) m (.first rfl)
  | function f => rfl
  | ret keyword value =>
    cases value with
    | none => rfl
    | some e => exact bind_congr (h (.evaluate e) m (.first rfl)) fun _ _ _ => rfl
  | classDecl name superclass methods =>
    cases superclass with
    | none => rfl
    | some e => exact bind_congr (h (.evaluate e) m (.first rfl)) fun _ _ _ => rfl

theorem executeAll_congr {ss : List Stmt} (h : (Job.executeAll ss).Alike n n' m) :
    executeAll (n + 1) ss m = executeAll (n' + 1) ss m := by
  cases ss with
  | nil => rfl
  | cons s ss =>
    refine bind_congr (h (.execute s) m (.first rfl)) fun signal m₁ hs => ?_
    cases signal with
    | normal => exact h (.executeAll ss) m₁ (.rest hs)
    | returned v => rfl

theorem repeatWhile_congr {condition : Expr} {body : Stmt}
    (h : (Job.repeatWhile condition body).Alike n n' m) :
    repeatWhile (n + 1) condition body m = repeatWhile (n' + 1) condition body m := by
  refine bind_congr (h (.evaluate condition) m (.first rfl)) fun v m₁ hv => ?_
  cases ht : v.isTruthy with
  | false => rfl
  | true =>
    refine bind_congr (h (.execute body) m₁ (.turn hv ht)) fun signal m₂ hs => ?_
    cases signal with
    | normal => exact h (.repeatWhile condition body) m₂ (.again hv ht hs)
    | returned v => rfl

end Run

/-- A job ends as the stages that it calls let it end: with other fuel it ends alike if they do.  So
a run takes up nothing but these stages. -/
theorem Job.run_congr {n n' : Nat} {j : Job} {m : Machine} (h : j.Alike n n' m) :
    j.run (n + 1) m = j.run (n' + 1) m := by
  cases j with
  | evaluate e => exact Run.evaluate_congr h
  | evaluateAll es => exact Run.evaluateAll_congr h
  | invoke c vs => exact Run.invoke_congr h
  | invokeClosure c vs => exact Run.invokeClosure_congr h
  | execute s => exact Run.execute_congr h
  | executeAll ss => exact Run.executeAll_congr h
  | repeatWhile condition body => exact Run.repeatWhile_congr h

/-! ### Programs and sessions -/

/-- The stages of statements that run one after the other on a machine. -/
inductive Run.Passes (fuel : Nat) (ss : List Stmt) (m : Machine) : Stage → Prop where
  | statement {before after : List Stmt} {s : Stmt} {m' : Machine} (hs : ss = before ++ s :: after)
      (hm : runAll fuel before m = .ok () m') : Passes fuel ss m ⟨fuel, .execute s, m'⟩
  | called {s s' : Stage} (h : Passes fuel ss m s) (hc : s.Calls s') : Passes fuel ss m s'

/-- The machine that knows more distances. -/
def Machine.learn (m : Machine) (distances : Distances) : Machine :=
  { m with distances := m.distances.merge distances }

/-- The machines that a session leads to in which some programs have run, the latest first, each
with any fuel and with any distances, its own or others. -/
inductive Forced (start : Machine) : List Program → Machine → Prop where
  | start : Forced start [] start
  | run {ps : List Program} {m : Machine} (h : Forced start ps m) (fuel : Nat) (p : Program) :
    Forced start (p :: ps) ((Run.interpret fuel p.statements p.distances).behind m)
  | alter {ps : List Program} {m : Machine} (h : Forced start ps m) (distances : Distances) :
    Forced start ps { m with distances := distances }
  | clear {ps : List Program} {m : Machine} (h : Forced start ps m) : Forced start ps m.clearOutput

/-- The stages of the latest program of such a session. -/
inductive Forced.Passes (start : Machine) : List Program → Stage → Prop where
  | mk {ps : List Program} {m : Machine} {fuel : Nat} {p : Program} {s : Stage}
      (h : Forced start ps m) (hs : Run.Passes fuel p.statements (m.learn p.distances) s) :
    Passes start (p :: ps) s

namespace Session

variable {s : Session} {start : Machine} {ps : List Program}

theorem forced_runProgram (h : Forced start ps s.machine) (fuel : Nat) (p : Program) :
    Forced start (p :: ps) (s.runProgram fuel p).2.machine := by
  have hrun := h.clear.run fuel p
  unfold Run.behind at hrun
  unfold runProgram
  cases he : Run.interpret fuel p.statements p.distances s.machine.clearOutput with
  | ok a m =>
    rw [he] at hrun
    exact hrun
  | error e m =>
    rw [he] at hrun
    exact hrun

/-- Sources that are run one after the other are a session in which nothing is forced. -/
theorem forced_runEach (h : Forced start ps s.machine) (fuel : Nat) (sources : List String) :
    Forced start ((s.programs fuel sources).reverse ++ ps) (s.runEach fuel sources).machine := by
  induction sources generalizing s ps with
  | nil => exact h
  | cons source sources ih =>
    have hnext (q : List Program) (hq : Forced start q (s.run fuel source).2.machine) := ih hq
    unfold programs
    cases hc : (check source s.nextId).result with
    | error faults =>
      refine hnext ps ?_
      unfold run
      simp only [hc]
      exact h
    | ok p =>
      rw [List.reverse_cons, List.append_assoc]
      refine hnext (p :: ps) ?_
      unfold run
      simp only [hc]
      exact forced_runProgram (s := { s with nextId := (check source s.nextId).nextId }) h fuel p

end Session

/-! ### Regimes at stages -/

theorem Expr.Operates.first {e e' : Expr} (h : e.Operates) (he : e.first? = some e') :
    e'.Operates := by
  cases e with
  | binary left operator right =>
    cases he
    exact h.1
  | logical left operator right =>
    cases he
    exact h.1
  | call callee paren arguments =>
    cases he
    exact h.1
  | set object name value =>
    cases he
    exact h.1
  | unary operator right =>
    cases he
    exact h.2
  | assign id name value =>
    cases he
    exact h
  | get object name =>
    cases he
    exact h
  | grouping inner =>
    cases he
    exact h
  | literal l => cases he
  | superRef id keyword method => cases he
  | thisRef id keyword => cases he
  | var id name => cases he

namespace Run.Heeds

variable {α : Type} {R : Regime} {m m' : Machine} {run : Run α} {post : α → Objects → Prop}

theorem ok {a : α} (h : Heeds R m run post) (hm : R.Admits m) (he : run m = .ok a m') :
    R.Admits m' ∧ m.objects.Within m'.objects ∧ post a m'.objects := by
  have hrun := h.after hm
  rwa [he] at hrun

theorem error {e : Halt} (h : Heeds R m run post) (hm : R.Admits m) (he : run m = .error e m') :
    R.Admits m' ∧ m.objects.Within m'.objects ∧ R.halts e := by
  have hrun := h.after hm
  rwa [he] at hrun

theorem behind (h : Heeds R m run post) (hm : R.Admits m) : R.Admits (run.behind m) := by
  unfold Run.behind
  cases he : run m with
  | ok a m' => exact (h.ok hm he).1
  | error e m' => exact (h.error hm he).1

end Run.Heeds

namespace Regime

variable {R : Regime} {o o' : Objects}

/-- The regime allows a job, and what it is about exists if the regime asks for it. -/
def Permits (R : Regime) (o : Objects) : Job → Prop
  | .evaluate e => R.operators → e.Operates
  | .evaluateAll es => R.operators → Expr.AllOperate es
  | .invoke c vs => R.Holds (.callable c) o ∧ ∀ v ∈ vs, R.Holds v o
  | .invokeClosure c vs => R.declared c.declaration ∧ ∀ v ∈ vs, R.Holds v o
  | .execute s => R.Allows s
  | .executeAll ss => R.AllowsAll ss
  | .repeatWhile condition body => (R.operators → condition.Operates) ∧ R.Allows body

theorem Allows.loop {condition : Expr} {body : Stmt} (h : R.Allows (.loop condition body)) :
    (R.operators → condition.Operates) ∧ R.Allows body :=
  ⟨fun hs => (h.operates hs).1, ⟨fun hs => (h.operates hs).2, h.declares⟩⟩

theorem Allows.first {s : Stmt} {j : Job} (h : R.Allows s) (hj : s.first? = some j) :
    R.Permits o j := by
  cases s with
  | classDecl name superclass methods =>
    obtain ⟨e, he, rfl⟩ := Option.map_eq_some_iff.mp hj
    exact fun hs => (h.operates hs).1 e he
  | expression e =>
    cases hj
    exact h.operates
  | print e =>
    cases hj
    exact h.operates
  | branch condition thenBranch elseBranch =>
    cases hj
    exact h.branch.1
  | loop condition body =>
    cases hj
    exact h.loop
  | ret keyword value =>
    obtain ⟨e, he, rfl⟩ := Option.map_eq_some_iff.mp hj
    exact fun hs => h.operates hs e he
  | varDecl name initializer =>
    obtain ⟨e, he, rfl⟩ := Option.map_eq_some_iff.mp hj
    exact fun hs => h.operates hs e he
  | block body => cases hj
  | function f => cases hj

theorem Permits.first {j j' : Job} (h : R.Permits o j) (hj : j.first? = some j') :
    R.Permits o j' := by
  cases j with
  | evaluate e =>
    obtain ⟨e', he, rfl⟩ := Option.map_eq_some_iff.mp hj
    exact fun hs => (h hs).first he
  | evaluateAll es =>
    cases es with
    | nil => cases hj
    | cons e es =>
      cases hj
      exact fun hs => (h hs).1
  | invoke c vs => cases hj
  | invokeClosure c vs => cases hj
  | execute s => exact Allows.first h hj
  | executeAll ss =>
    cases ss with
    | nil => cases hj
    | cons s ss =>
      cases hj
      exact (AllowsAll.cons h).1
  | repeatWhile condition body =>
    cases hj
    exact h.1

/-- At the stage the machine keeps to the regime, which allows the job. -/
structure Grants (R : Regime) (s : Stage) : Prop where
  admits : R.Admits s.machine
  permits : R.Permits s.machine.objects s.job

/-- The stages that are called keep to the regime. -/
theorem Grants.calls {s s' : Stage} (h : R.Grants s) (hc : s.Calls s') : R.Grants s' := by
  obtain ⟨hm, hj⟩ := h
  -- what has run in between keeps to the regime, since all of it is part of the calling job
  cases hc with
  | first hfirst => exact ⟨hm, hj.first hfirst⟩
  | @right n left right operator a m m₁ hleft =>
    have hrun := ((Run.allHeed R n).evaluate left m fun hs => (hj hs).1).ok hm hleft
    exact ⟨hrun.1, fun hs => (hj hs).2.2⟩
  | @undecided n left right operator a m m₁ hleft hd =>
    have hrun := ((Run.allHeed R n).evaluate left m fun hs => (hj hs).1).ok hm hleft
    exact ⟨hrun.1, fun hs => (hj hs).2⟩
  | @arguments n callee paren es f m m₁ hcallee =>
    have hrun := ((Run.allHeed R n).evaluate callee m fun hs => (hj hs).1).ok hm hcallee
    exact ⟨hrun.1, fun hs => (hj hs).2⟩
  | @call n callee paren es c vs m m₁ m₂ hcallee hes harity =>
    have hrun := ((Run.allHeed R n).evaluate callee m fun hs => (hj hs).1).ok hm hcallee
    have hrun' := ((Run.allHeed R n).evaluateAll es m₁ fun hs => (hj hs).2).ok hrun.1 hes
    exact ⟨hrun'.1, hrun.2.2.mono hrun'.2.1, hrun'.2.2⟩
  | @value n object value name i m m₁ hobject =>
    have hrun := ((Run.allHeed R n).evaluate object m fun hs => (hj hs).1).ok hm hobject
    exact ⟨hrun.1, fun hs => (hj hs).2⟩
  | @others n e es v m m₁ he =>
    have hrun := ((Run.allHeed R n).evaluate e m fun hs => (hj hs).1).ok hm he
    exact ⟨hrun.1, fun hs => (hj hs).2⟩
  | closure hclosure => exact ⟨hm, hm.closures _ (Array.mem_of_getElem? hclosure), hj.2⟩
  | @initializer n k c vs m hinit =>
    have hc := Run.Heeds.declared_of_methodClosure? hm hinit
    have hnew := (Run.Heeds.newInstance k).ok hm rfl
    have hbound := (Run.Heeds.bindMethod m.objects.instances.size hc).ok hnew.1 rfl
    exact ⟨hbound.1, hc, fun v hv => (hj.2 v hv).mono (hnew.2.1.trans hbound.2.1)⟩
  | @body n c vs m =>
    have hargs : ∀ e ∈ c.declaration.params.zip vs, R.Holds e.2 m.objects :=
      fun e he => hj.2 e.2 (List.of_mem_zip he).2
    have hdefine : Run.Heeds R { m with frames := m.frames.push (some c.captured) }
        (Run.defineAll m.frames.size (c.declaration.params.zip vs)) fun _ _ => True :=
      .defineAll m.frames.size _ hargs
    have hdefined := hdefine.ok (hm.push c.captured) (Run.defineAll_apply ..)
    exact ⟨hdefined.1.of_eq rfl rfl, allowsAll_body hj.1⟩
  | @block n body m =>
    have hs : R.Allows (.block body) := hj
    exact ⟨(hm.push m.active).of_eq rfl rfl, hs.operates, hs.declares⟩
  | @thenBranch n condition thenBranch elseBranch v m m₁ hcondition hv =>
    have hs : R.Allows (.branch condition thenBranch elseBranch) := hj
    have hrun := ((Run.allHeed R n).evaluate condition m hs.branch.1).ok hm hcondition
    exact ⟨hrun.1, hs.branch.2.1⟩
  | @elseBranch n condition thenBranch elseBranch v m m₁ hcondition hv =>
    have hs : R.Allows (.branch condition thenBranch (some elseBranch)) := hj
    have hrun := ((Run.allHeed R n).evaluate condition m hs.branch.1).ok hm hcondition
    exact ⟨hrun.1, hs.branch.2.2 _ rfl⟩
  | @rest n s ss m m₁ hs =>
    obtain ⟨hfirst, hrest⟩ := AllowsAll.cons hj
    exact ⟨(((Run.allHeed R n).execute s m hfirst).ok hm hs).1, hrest⟩
  | @turn n condition body v m m₁ hcondition hv =>
    have hrun := ((Run.allHeed R n).evaluate condition m hj.1).ok hm hcondition
    exact ⟨hrun.1, hj.2⟩
  | @again n condition body v m m₁ m₂ hcondition hv hbody =>
    have hrun := ((Run.allHeed R n).evaluate condition m hj.1).ok hm hcondition
    exact ⟨(((Run.allHeed R n).execute body m₁ hj.2).ok hrun.1 hbody).1, hj⟩

/-- What a stage leaves keeps to the regime, and it halts only as that allows. -/
theorem Grants.behind {s : Stage} (h : R.Grants s) :
    R.Admits s.behind ∧ ∀ e m, s.job.run s.fuel s.machine = .error e m → R.halts e := by
  obtain ⟨n, j, m⟩ := s
  obtain ⟨hm, hj⟩ := h
  have hall := Run.allHeed R n
  cases j with
  | evaluate e =>
    have hrun := hall.evaluate e m hj
    exact ⟨hrun.behind hm, fun _ _ he => (hrun.error hm he).2.2⟩
  | evaluateAll es =>
    have hrun := hall.evaluateAll es m hj
    exact ⟨hrun.behind hm, fun _ _ he => (hrun.error hm he).2.2⟩
  | invoke c vs =>
    have hrun := hall.invoke c vs m hj.1 hj.2
    exact ⟨hrun.behind hm, fun _ _ he => (hrun.error hm he).2.2⟩
  | invokeClosure c vs =>
    have hrun := hall.invokeClosure c vs m hj.1 hj.2
    exact ⟨hrun.behind hm, fun _ _ he => (hrun.error hm he).2.2⟩
  | execute s =>
    have hrun := hall.execute s m hj
    exact ⟨hrun.behind hm, fun _ _ he => (hrun.error hm he).2.2⟩
  | executeAll ss =>
    have hrun := hall.executeAll ss m hj
    exact ⟨hrun.behind hm, fun _ _ he => (hrun.error hm he).2.2⟩
  | repeatWhile condition body =>
    have hrun := hall.repeatWhile condition body m hj.1 hj.2
    exact ⟨hrun.behind hm, fun _ _ he => (hrun.error hm he).2.2⟩

theorem AllowsAll.append {before after : List Stmt} (h : R.AllowsAll (before ++ after)) :
    R.AllowsAll before ∧ R.AllowsAll after := by
  induction before with
  | nil => exact ⟨⟨fun _ => trivial, fun f hf => by cases hf⟩, h⟩
  | cons s before ih =>
    obtain ⟨hs, hrest⟩ := AllowsAll.cons h
    obtain ⟨hbefore, hafter⟩ := ih hrest
    refine ⟨⟨fun ho => ⟨hs.operates ho, hbefore.operates ho⟩, fun f hf => ?_⟩, hafter⟩
    rcases List.mem_append.mp hf with hf | hf
    · exact hs.declares f hf
    · exact hbefore.declares f hf

theorem Admits.learn {m : Machine} (h : R.Admits m) (distances : Distances) :
    R.Admits (m.learn distances) :=
  h.of_eq rfl rfl

/-- The stages of statements that the regime allows keep to it. -/
theorem grants_passes {fuel : Nat} {ss : List Stmt} {m : Machine} {s : Stage} (hm : R.Admits m)
    (hss : R.AllowsAll ss) (h : Run.Passes fuel ss m s) : R.Grants s := by
  induction h with
  | statement hs hrun =>
    subst hs
    obtain ⟨hbefore, hafter⟩ := AllowsAll.append hss
    exact ⟨((Run.runAll_heeds fuel hbefore).ok hm hrun).1, (AllowsAll.cons hafter).1⟩
  | called h hc ih => exact ih.calls hc

/-- The machines of a session keep to a regime that allows its programs. -/
theorem admits_forced {start m : Machine} {ps : List Program} (hstart : R.Admits start)
    (hps : ∀ p ∈ ps, R.AllowsAll p.statements) (h : Forced start ps m) : R.Admits m := by
  induction h with
  | start => exact hstart
  | run h fuel p ih =>
    obtain ⟨hp, hps⟩ := List.forall_mem_cons.mp hps
    exact (Run.interpret_heeds fuel p.distances hp).behind (ih hps)
  | alter h distances ih => exact (ih hps).of_eq rfl rfl
  | clear h ih => exact (ih hps).of_eq rfl rfl

/-- The stages of a session keep to a regime that allows its programs. -/
theorem grants_forced {start : Machine} {ps : List Program} {s : Stage} (hstart : R.Admits start)
    (hps : ∀ p ∈ ps, R.AllowsAll p.statements) (h : Forced.Passes start ps s) : R.Grants s := by
  cases h with
  | mk h hs =>
    obtain ⟨hp, hps⟩ := List.forall_mem_cons.mp hps
    exact grants_passes ((admits_forced hstart hps h).learn _) hp hs

end Regime

end Lox
