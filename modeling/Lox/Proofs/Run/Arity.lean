/-
The number of arguments of a call.

Parameters are bound to arguments one after the other, which would drop what is left over on either
side.  Nothing ever is: a callable is only entered with as many arguments as it takes, also the
initializer that a class calls, since the class takes those of its initializer.

* `Run.length_of_evaluateAll` — as many values as there are arguments;
* `Machine.Binds` — the parameters of a function stand in a frame of their own in front of its body;
* `Run.evaluate_call_of_mismatch` — a call with another number of arguments does no more than
  evaluate its callee and them;
* `Regime.declaring` — closures are functions of the programs that have run;
* `Stage.Matched`, `calls_matched` — this is so at each stage of every session, whatever is forced.
-/
import Lox.Proofs.Binding.Faultless
import Lox.Proofs.Run.Stages

namespace Lox

namespace Run

/-- As many values as there are expressions. -/
theorem length_of_evaluateAll {n : Nat} {es : List Expr} {m m' : Machine} {vs : List Value}
    (h : evaluateAll n es m = .ok vs m') : vs.length = es.length := by
  induction es generalizing n m vs with
  | nil =>
    cases n with
    | zero => cases h
    | succ n =>
      cases h
      rfl
  | cons e es ih =>
    cases n with
    | zero => cases h
    | succ n =>
      obtain ⟨v, m₁, -, hrest⟩ := exists_of_bind_eq_ok h
      obtain ⟨vs', m₂, hvs, hpure⟩ := exists_of_bind_eq_ok hrest
      cases hpure
      exact congrArg (· + 1) (ih hvs)

/-- A call with another number of arguments than the callable takes ends behind the evaluation of
callee and arguments, on the machine that this has brought about. -/
theorem evaluate_call_of_mismatch {n : Nat} {callee : Expr} {paren : Token} {arguments : List Expr}
    {c : Callable} {vs : List Value} {m m₁ m₂ : Machine}
    (hcallee : evaluate n callee m = .ok (.callable c) m₁)
    (harguments : evaluateAll n arguments m₁ = .ok vs m₂)
    (hne : arguments.length ≠ m₂.objects.arity c) :
    evaluate (n + 1) (.call callee paren arguments) m =
      .error (.raised (.runtime paren.line
        (.arityMismatch (m₂.objects.arity c) arguments.length))) m₂ := by
  have hlength := length_of_evaluateAll harguments
  rw [evaluate_call hcallee harguments, hlength, if_neg hne]
  rfl

end Run

/-! ### Functions of programs -/

/-- Any halt is allowed, and the functions of some programs may become closures. -/
def Regime.declaring (ps : List Program) : Regime where
  halts _ := True
  declared f := ∃ p ∈ ps, Stmt.Declares p.statements f
  operators := False
  references := False
  outOfFuel := trivial
  runtime _ _ := trivial
  output _ := trivial
  malformed _ _ := trivial
  dangling _ := trivial
  operates h := h.elim
  nested := by
    rintro f ⟨p, hp, hf⟩ g hg
    exact ⟨p, hp, .inside hf hg⟩

theorem Regime.declaring_allowsAll {ps : List Program} :
    ∀ p ∈ ps, (declaring ps).AllowsAll p.statements :=
  fun p hp => ⟨fun h => h.elim, fun _ hf => ⟨p, hp, .outermost hf⟩⟩

/-- At each stage of a session the closures are functions of its programs. -/
theorem Forced.Passes.declaring {clock : Nat → Float} {sink : Sink} {natives : List Native}
    {ps : List Program} {s : Stage} (h : Forced.Passes (.equipped clock sink natives) ps s) :
    (Regime.declaring ps).Grants s := by
  have hstart : (Regime.declaring ps).Admits (.equipped clock sink natives) :=
    Regime.admits_unused (Machine.equipped_unused clock sink natives) (fun _ _ _ _ _ _ => trivial)
      fun hs => hs.elim
  exact Regime.grants_forced hstart Regime.declaring_allowsAll h

/-! ### Parameters and arguments -/

/-- A machine is in front of the body of a function: it is in a new frame, which holds exactly the
parameters, each with the argument at its position, and all else is as it was. -/
structure Machine.Binds (m : Machine) (c : Closure) (vs : List Value) (m' : Machine) : Prop where
  fresh : m'.active = m.frames.size
  around : m'.frames.parent? m'.active = some c.captured
  parameters : ∀ i (h : i < c.declaration.params.length), ∃ v, vs[i]? = some v ∧
    m'.frames.value? m'.active c.declaration.params[i].lexeme = some v
  only : ∀ x v, m'.frames.value? m'.active x = some v → ∃ t ∈ c.declaration.params, t.lexeme = x
  others : ∀ f < m.frames.size, ∀ x, m'.frames.value? f x = m.frames.value? f x
  objects : m'.objects = m.objects

theorem Machine.binds_enter {m : Machine} {c : Closure} {vs : List Value}
    (hd : c.declaration.Distinct) (hl : vs.length = c.declaration.params.length) :
    m.Binds c vs (m.enter c vs) where
  fresh := rfl
  around := parent?_enter
  parameters i hi := by
    have hlt : i < vs.length := hl ▸ hi
    refine ⟨vs[i], List.getElem?_eq_getElem hlt, ?_⟩
    rw [value?_enter_param hd hl hi, List.getElem?_eq_getElem hlt]
  only _ _ hv := exists_param_of_value?_enter hv
  others _ hf x := value?_enter hf x
  objects := rfl

namespace Stage

/-- What is called at the stage is given as many arguments as it takes. -/
def Fits (s : Stage) : Prop :=
  match s.job with
  | .invoke c vs => vs.length = s.machine.objects.arity c
  | .invokeClosure c vs => vs.length = c.declaration.params.length
  | _ => True

theorem fits_of_not_isCall {n : Nat} {j : Job} {m : Machine} (h : ¬ j.IsCall) : Fits ⟨n, j, m⟩ := by
  cases j with
  | invoke c vs => exact absurd trivial h
  | invokeClosure c vs => exact absurd trivial h
  | _ => trivial

/-- A call expression looks at the number of arguments, and from there on it stays the same. -/
theorem Fits.calls {s s' : Stage} (h : s.Fits) (hc : s.Calls s') : s'.Fits := by
  cases hc with
  | first hfirst => exact fits_of_not_isCall (Job.not_isCall_of_first hfirst)
  | call hcallee harguments harity => exact harity
  | @closure n id c vs m hclosure =>
    have hfits : vs.length = c.declaration.arity := h.trans (Objects.arity_closure hclosure)
    exact hfits
  | @initializer n k c vs m hinit =>
    have hfits : vs.length = c.declaration.arity := h.trans (Objects.arity_klass hinit)
    exact hfits
  | _ => trivial

end Stage

theorem Run.Passes.fits {fuel : Nat} {ss : List Stmt} {m : Machine} {s : Stage}
    (h : Run.Passes fuel ss m s) : s.Fits := by
  induction h with
  | statement hs hm => trivial
  | called h hc ih => exact ih.calls hc

theorem Forced.Passes.fits {start : Machine} {ps : List Program} {s : Stage}
    (h : Forced.Passes start ps s) : s.Fits := by
  cases h with
  | mk h hs => exact hs.fits

/-- The calls at a stage of a session in which some programs have run. -/
structure Stage.Matched (ps : List Program) (s : Stage) : Prop where
  /-- a callable is entered with as many arguments as it takes -/
  invoke : ∀ c vs, s.job = .invoke c vs → vs.length = s.machine.objects.arity c
  /-- a function is entered with an argument for each parameter, however it is called, and if its
  program has no faults its body begins where the arguments are bound -/
  invokeClosure : ∀ c vs, s.job = .invokeClosure c vs →
    vs.length = c.declaration.params.length ∧
      ∃ p ∈ ps, Stmt.Declares p.statements c.declaration ∧
        ((resolve p.statements).faults = [] → ∀ s', s.Calls s' →
          s'.job = .executeAll c.declaration.body ∧ s.machine.Binds c vs s'.machine)
  /-- a call of a callable with another number of arguments fails behind the evaluation of callee
  and arguments, in this order, and nothing else is called -/
  mismatch : ∀ n callee paren arguments c vs m₁ m₂, s.fuel = n + 1 →
    s.job = .evaluate (.call callee paren arguments) →
    Run.evaluate n callee s.machine = .ok (.callable c) m₁ →
    Run.evaluateAll n arguments m₁ = .ok vs m₂ →
    arguments.length ≠ m₂.objects.arity c →
    Run.evaluate s.fuel (.call callee paren arguments) s.machine =
        .error (.raised (.runtime paren.line
          (.arityMismatch (m₂.objects.arity c) arguments.length))) m₂ ∧
      ∀ s', s.Calls s' →
        s' = ⟨n, .evaluate callee, s.machine⟩ ∨ s' = ⟨n, .evaluateAll arguments, m₁⟩

/-- A call with another number of arguments calls nothing but its callee and its arguments. -/
theorem Stage.calls_of_mismatch {n : Nat} {callee : Expr} {paren : Token} {arguments : List Expr}
    {c : Callable} {vs : List Value} {m m₁ m₂ : Machine} {s : Stage}
    (hcallee : Run.evaluate n callee m = .ok (.callable c) m₁)
    (harguments : Run.evaluateAll n arguments m₁ = .ok vs m₂)
    (hne : arguments.length ≠ m₂.objects.arity c)
    (hc : Stage.Calls ⟨n + 1, .evaluate (.call callee paren arguments), m⟩ s) :
    s = ⟨n, .evaluate callee, m⟩ ∨ s = ⟨n, .evaluateAll arguments, m₁⟩ := by
  cases hc with
  | first hfirst =>
    cases hfirst
    exact .inl rfl
  | arguments hcallee' =>
    cases hcallee.symm.trans hcallee'
    exact .inr rfl
  | call hcallee' harguments' harity =>
    cases hcallee.symm.trans hcallee'
    cases harguments.symm.trans harguments'
    exact absurd ((Run.length_of_evaluateAll harguments).symm.trans harity) hne

/-- In every session, in which programs may run in spite of faults and with any distances, each call
is given as many arguments as the callable takes. -/
theorem calls_matched {clock : Nat → Float} {sink : Sink} {natives : List Native}
    {ps : List Program} {s : Stage} (h : Forced.Passes (.equipped clock sink natives) ps s) :
    s.Matched ps := by
  have hfits := h.fits
  have hpermits := h.declaring.permits
  obtain ⟨fuel, job, m⟩ := s
  refine ⟨?_, ?_, ?_⟩
  · rintro c vs rfl
    exact hfits
  · rintro c vs rfl
    obtain ⟨⟨p, hp, hdeclared⟩, -⟩ := hpermits
    refine ⟨hfits, p, hp, hdeclared, fun hnone s' hc => ?_⟩
    have hdistinct := distinct_of_resolve hnone hdeclared
    cases hc with
    | first hfirst => cases hfirst
    | body => exact ⟨rfl, Machine.binds_enter hdistinct hfits⟩
  · rintro n callee paren arguments c vs m₁ m₂ rfl rfl hcallee harguments hne
    exact ⟨Run.evaluate_call_of_mismatch hcallee harguments hne, fun s' hc =>
      Stage.calls_of_mismatch hcallee harguments hne hc⟩

/-- `class A { init(a) {} } A(nil);` -/
def constructing : Program where
  statements :=
    [.classDecl ⟨.identifier, "A", 1⟩ none
      [.mk ⟨.identifier, "init", 1⟩ [⟨.identifier, "a", 1⟩] []],
    .expression (.call (.var 0 ⟨.identifier, "A", 1⟩) ⟨.mark .rightParen, ")", 1⟩ [.literal .nil])]
  distances := []

/-- The class passes its one argument on to its initializer, in front of the body of which it is
bound. -/
theorem calls_matched_constructing :
    (resolve constructing.statements).faults = [] ∧
      ∃ s c, Forced.Passes (.equipped (fun _ => 0) .sound []) [constructing] s ∧
        s.job = .invokeClosure c [.nil] ∧ s.Matched [constructing] := by
  have hstatement : Run.Passes 9 constructing.statements
      ((Machine.equipped (fun _ => 0) .sound []).learn constructing.distances) _ :=
    @Run.Passes.statement 9 _ _ (constructing.statements.take 1) _ _ _ rfl rfl
  have hcall : Forced.Passes (.equipped (fun _ => 0) .sound []) [constructing] _ :=
    .mk .start (.called (.called (.called hstatement (.first rfl)) (.call rfl rfl rfl))
      (.initializer rfl))
  exact ⟨rfl, _, _, hcall, rfl, calls_matched hcall⟩

end Lox
