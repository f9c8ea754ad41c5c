/-
The shapes of the nodes that are evaluated.

The evaluation of an operator takes for granted that its token is an operator.  All code that is
ever evaluated stands in some program, also that of closures and methods which are left from earlier
ones, and in the programs that the parser yields each operator is one.

* `Expr.Shaped`, `Part.Shaped` — a node has an operator of its level, a superclass is a variable;
* `Stmt.parts_functions` — the parts of a function are parts of the statement that declares it;
* `Job.parts`, `Stage.Calls.parts` — what a stage calls is a part of it, or the body of a closure;
* `Regime.shaped` — closures have such parts only, and no run halts over an operator that is none;
* `evaluated_nodes_shaped` — this is so at each stage of every session.

Design notes: that no run halts so is shown on its own, as it follows from the operators of whole
trees and not from the stages that are called.
-/
import Lox.Proofs.Run.Stages
import Lox.Proofs.Syntax.Parts

namespace Lox

/-! ### Shapes -/

/-- The node has an operator that its evaluation knows. -/
def Expr.Shaped : Expr → Prop
  | .unary operator _ => operator.kind = .mark .bang ∨ operator.kind = .mark .minus
  | .binary _ operator _ => ∃ m ∈ Mark.binary, operator.kind = .mark m
  | .logical _ operator _ => operator.kind = .keyword .and_ ∨ operator.kind = .keyword .or_
  | _ => True

/-- The expression is a variable. -/
def Expr.IsVar (e : Expr) : Prop :=
  ∃ id name, e = .var id name

/-- The part has the shape that its evaluation takes for granted. -/
def Part.Shaped : Part → Prop
  | .expression e => e.Shaped
  | .superclass e => e.IsVar

/-- What the grammar makes has a shape. -/
theorem Part.Made.shaped {ts : List Token} {x : Part} (h : x.Made ts) : x.Shaped := by
  cases x with
  | superclass e => exact h
  | expression e =>
    cases e with
    | unary operator right => exact Kind.eq_of_unaryOperators h.2
    | binary left operator right => exact Kind.eq_of_isBinaryOperator h.2
    | logical left operator right => exact Kind.eq_of_isConnective h.2
    | _ => trivial

/-! ### Parts of functions -/

theorem FunDecl.parts_eq (f : FunDecl) : f.parts = Stmt.partsIn f.body := by
  cases f with
  | mk name params body => rfl

theorem FunDecl.parts_subset_of_mem {fs : List FunDecl} {f : FunDecl} (hf : f ∈ fs) :
    f.parts ⊆ FunDecl.partsIn fs := by
  induction fs with
  | nil => cases hf
  | cons g fs ih =>
    rcases List.mem_cons.mp hf with rfl | hf
    · exact List.subset_append_left ..
    · exact List.Subset.trans (ih hf) (List.subset_append_right ..)

mutual

/-- The parts of a function are parts of the statement that declares it. -/
theorem Stmt.parts_functions (s : Stmt) {f : FunDecl} (hf : f ∈ s.functions) :
    f.parts ⊆ s.parts := by
  match s with
  | .block body => exact Stmt.parts_functionsIn body hf
  | .classDecl _ _ methods =>
    exact List.Subset.trans (FunDecl.parts_subset_of_mem hf) (List.subset_append_right ..)
  | .function g =>
    cases List.mem_singleton.mp hf
    exact List.Subset.refl _
  | .branch _ thenBranch none =>
    exact List.Subset.trans (thenBranch.parts_functions hf) (List.subset_append_right ..)
  | .branch _ thenBranch (some elseBranch) =>
    refine List.Subset.trans ?_ (List.subset_append_right ..)
    rcases List.mem_append.mp hf with hf | hf
    · exact List.Subset.trans (thenBranch.parts_functions hf) (List.subset_append_left ..)
    · exact List.Subset.trans (elseBranch.parts_functions hf) (List.subset_append_right ..)
  | .loop _ body =>
    exact List.Subset.trans (body.parts_functions hf) (List.subset_append_right ..)
  | .expression _ => cases hf
  | .print _ => cases hf
  | .ret _ _ => cases hf
  | .varDecl _ _ => cases hf

theorem Stmt.parts_functionsIn (ss : List Stmt) {f : FunDecl} (hf : f ∈ Stmt.functionsIn ss) :
    f.parts ⊆ Stmt.partsIn ss := by
  match ss with
  | [] => cases hf
  | s :: ss =>
    rcases List.mem_append.mp hf with hf | hf
    · exact List.Subset.trans (s.parts_functions hf) (List.subset_append_left ..)
    · exact List.Subset.trans (Stmt.parts_functionsIn ss hf) (List.subset_append_right ..)

end

theorem Stmt.partsIn_append (ss ts : List Stmt) :
    Stmt.partsIn (ss ++ ts) = Stmt.partsIn ss ++ Stmt.partsIn ts := by
  induction ss with
  | nil => rfl
  | cons s ss ih => exact (congrArg (s.parts ++ ·) ih).trans (List.append_assoc ..).symm

/-! ### Parts of stages -/

/-- The parts of what a job is about. -/
def Job.parts : Job → List Part
  | .evaluate e => e.parts
  | .evaluateAll es => Expr.partsIn es
  | .invoke .. => []
  | .invokeClosure c _ => c.declaration.parts
  | .execute s => s.parts
  | .executeAll ss => Stmt.partsIn ss
  | .repeatWhile condition body => condition.parts ++ body.parts

theorem Expr.parts_first {e e' : Expr} (h : e.first? = some e') : e'.parts ⊆ e.parts := by
  rw [Expr.parts.eq_def e]
  refine List.subset_cons_of_subset _ ?_
  cases e with
  | assign id name value =>
    cases h
    exact List.Subset.refl _
  | binary left operator right =>
    cases h
    exact List.subset_append_left ..
  | logical left operator right =>
    cases h
    exact List.subset_append_left ..
  | call callee paren arguments =>
    cases h
    exact List.subset_append_left ..
  | set object name value =>
    cases h
    exact List.subset_append_left ..
  | get object name =>
    cases h
    exact List.Subset.refl _
  | grouping inner =>
    cases h
    exact List.Subset.refl _
  | unary operator right =>
    cases h
    exact List.Subset.refl _
  | literal l => cases h
  | superRef id keyword method => cases h
  | thisRef id keyword => cases h
  | var id name => cases h

theorem Stmt.parts_first {s : Stmt} {j : Job} (h : s.first? = some j) : j.parts ⊆ s.parts := by
  cases s with
  | classDecl name superclass methods =>
    obtain ⟨e, rfl, rfl⟩ := Option.map_eq_some_iff.mp h
    exact List.Subset.trans (List.subset_cons_self ..) (List.subset_append_left ..)
  | expression e =>
    cases h
    exact List.Subset.refl _
  | print e =>
    cases h
    exact List.Subset.refl _
  | branch condition thenBranch elseBranch =>
    cases h
    cases elseBranch with
    | none => exact List.subset_append_left ..
    | some s => exact List.subset_append_left ..
  | loop condition body =>
    cases h
    exact List.Subset.refl _
  | ret keyword value =>
    obtain ⟨e, rfl, rfl⟩ := Option.map_eq_some_iff.mp h
    exact List.Subset.refl _
  | varDecl name initializer =>
    obtain ⟨e, rfl, rfl⟩ := Option.map_eq_some_iff.mp h
    exact List.Subset.refl _
  | block body => cases h
  | function f => cases h

theorem Job.parts_first {j j' : Job} (h : j.first? = some j') : j'.parts ⊆ j.parts := by
  cases j with
  | evaluate e =>
    obtain ⟨e', he, rfl⟩ := Option.map_eq_some_iff.mp h
    exact Expr.parts_first he
  | evaluateAll es =>
    cases es with
    | nil => cases h
    | cons e es =>
      cases h
      exact List.subset_append_left ..
  | invoke c vs => cases h
  | invokeClosure c vs => cases h
  | execute s => exact Stmt.parts_first h
  | executeAll ss =>
    cases ss with
    | nil => cases h
    | cons s ss =>
      cases h
      exact List.subset_append_left ..
  | repeatWhile condition body =>
    cases h
    exact List.subset_append_left ..

/-- What a stage calls is made of parts of it, or it is a closure of its machine. -/
theorem Stage.Calls.parts {s s' : Stage} (h : s.Calls s') :
    s'.job.parts ⊆ s.job.parts ∨
      ∃ c ∈ s.machine.objects.closures, s'.job.parts = c.declaration.parts := by
  have hright {e : Expr} {xs ys : List Part} : ys ⊆ .expression e :: (xs ++ ys) :=
    List.subset_cons_of_subset _ (List.subset_append_right ..)
  cases h with
  | first hfirst => exact .inl (Job.parts_first hfirst)
  | right hleft => exact .inl hright
  | undecided hleft hd => exact .inl hright
  | arguments hcallee => exact .inl hright
  | value hobject => exact .inl hright
  | others he => exact .inl (List.subset_append_right ..)
  | call hcallee harguments harity => exact .inl (List.nil_subset _)
  | closure hclosure => exact .inr ⟨_, Array.mem_of_getElem? hclosure, rfl⟩
  | initializer hinit =>
    obtain ⟨id, -, hid⟩ := Option.bind_eq_some_iff.mp hinit
    exact .inr ⟨_, Array.mem_of_getElem? hid, rfl⟩
  | @body n c vs m =>
    left
    show Stmt.partsIn c.declaration.body ⊆ c.declaration.parts
    rw [FunDecl.parts_eq]
    exact List.Subset.refl _
  | block => exact .inl (List.Subset.refl _)
  | @thenBranch n condition thenBranch elseBranch v m m₁ hcondition hv =>
    cases elseBranch with
    | none => exact .inl (List.subset_append_right ..)
    | some s =>
      exact .inl (List.Subset.trans (List.subset_append_left ..) (List.subset_append_right ..))
  | elseBranch hcondition hv =>
    exact .inl (List.Subset.trans (List.subset_append_right ..) (List.subset_append_right ..))
  | rest hs => exact .inl (List.subset_append_right ..)
  | turn hcondition hv => exact .inl (List.subset_append_right ..)
  | again hcondition hv hbody => exact .inl (List.Subset.refl _)

/-! ### The regime of shapes -/

/-- A program the statements of which are parsed from some source; its distances may be any. -/
def Program.Parsed (p : Program) : Prop :=
  ∃ source firstId, (parse (scanTokens source) firstId).result = .ok p.statements

theorem Program.Parsed.shaped {p : Program} (h : p.Parsed) :
    ∀ x ∈ Stmt.partsIn p.statements, x.Shaped := by
  obtain ⟨source, firstId, hp⟩ := h
  exact fun x hx => (parse_parts hp x hx).shaped

/-- No run halts over an operator that is none, and closures have shaped parts. -/
def Regime.shaped : Regime where
  halts h := ∀ operator, h ≠ .malformed operator
  declared f := f.Operates ∧ ∀ x ∈ f.parts, x.Shaped
  operators := True
  references := False
  outOfFuel _ h := by cases h
  runtime _ _ _ h := by cases h
  output _ _ h := by cases h
  malformed h := absurd trivial h
  dangling _ _ h := by cases h
  operates _ _ h := h.1
  nested := by
    rintro f ⟨hoperates, hshaped⟩ g hg
    refine ⟨hoperates.body.functionsIn g hg, fun x hx => hshaped x ?_⟩
    rw [FunDecl.parts_eq]
    exact Stmt.parts_functionsIn f.body hg hx

theorem Program.Parsed.allowsAll {p : Program} (h : p.Parsed) :
    Regime.shaped.AllowsAll p.statements := by
  have hshaped := h.shaped
  obtain ⟨source, firstId, hp⟩ := h
  have hoperates := parse_operates hp
  exact ⟨fun _ => hoperates, fun f hf => ⟨hoperates.functionsIn f hf, fun x hx =>
    hshaped x (Stmt.parts_functionsIn p.statements hf hx)⟩⟩

theorem Regime.shaped_admits (clock : Nat → Float) (sink : Sink) (natives : List Native) :
    shaped.Admits (.equipped clock sink natives) :=
  admits_unused (Machine.equipped_unused clock sink natives) (fun _ _ _ _ _ _ _ h => by cases h)
    fun h => h.elim

theorem Run.Passes.shaped {fuel : Nat} {ss : List Stmt} {m : Machine} {s : Stage}
    (hm : Regime.shaped.Admits m) (hss : Regime.shaped.AllowsAll ss)
    (hshaped : ∀ x ∈ Stmt.partsIn ss, x.Shaped) (h : Run.Passes fuel ss m s) :
    ∀ x ∈ s.job.parts, x.Shaped := by
  induction h with
  | @statement before after s m' hs hrun =>
    intro x hx
    refine hshaped x ?_
    rw [hs, Stmt.partsIn_append]
    exact List.mem_append_right _ (List.mem_append_left _ hx)
  | called h hc ih =>
    have hgrants := Regime.grants_passes hm hss h
    intro x hx
    rcases hc.parts with hsub | ⟨c, hclosure, hparts⟩
    · exact ih x (hsub hx)
    · rw [hparts] at hx
      exact (hgrants.admits.closures c hclosure).2 x hx

/-! ### The nodes that are evaluated -/

/-- At the stage a node is evaluated that has the shape which its evaluation takes for granted, the
closures of the machine have only such parts, and the run does not halt over an operator. -/
structure Stage.Shaped (s : Stage) : Prop where
  unary : ∀ operator right, s.job = .evaluate (.unary operator right) →
    operator.kind = .mark .bang ∨ operator.kind = .mark .minus
  binary : ∀ left operator right, s.job = .evaluate (.binary left operator right) →
    ∃ m ∈ Mark.binary, operator.kind = .mark m
  logical : ∀ left operator right, s.job = .evaluate (.logical left operator right) →
    operator.kind = .keyword .and_ ∨ operator.kind = .keyword .or_
  superclass : ∀ name superclass methods,
    s.job = .execute (.classDecl name (some superclass) methods) → superclass.IsVar
  closures : ∀ c ∈ s.machine.objects.closures, ∀ x ∈ c.declaration.parts, x.Shaped
  halts : ∀ operator m, s.job.run s.fuel s.machine ≠ .error (.malformed operator) m

/-- In a session of programs that the parser yields, with any distances and in spite of any faults,
each node that is evaluated has an operator that its evaluation knows, and no run halts over one. -/
theorem evaluated_nodes_shaped {clock : Nat → Float} {sink : Sink} {natives : List Native}
    {ps : List Program} (hps : ∀ p ∈ ps, p.Parsed) :
    (∀ s, Forced.Passes (.equipped clock sink natives) ps s → s.Shaped) ∧
      ∀ m, Forced (.equipped clock sink natives) ps m → ∀ fuel (p : Program), p.Parsed →
        ∀ operator m',
          Run.interpret fuel p.statements p.distances m ≠ .error (.malformed operator) m' := by
  have hstart := Regime.shaped_admits clock sink natives
  have hallows : ∀ p ∈ ps, Regime.shaped.AllowsAll p.statements := fun p hp => (hps p hp).allowsAll
  constructor
  · intro s hs
    have hgrants := Regime.grants_forced hstart hallows hs
    have hparts : ∀ x ∈ s.job.parts, x.Shaped := by
      cases hs with
      | mk h hs =>
        obtain ⟨hp, hps'⟩ := List.forall_mem_cons.mp hps
        have hm := Regime.admits_forced hstart (fun q hq => (hps' q hq).allowsAll) h
        exact hs.shaped (hm.learn _) hp.allowsAll hp.shaped
    refine ⟨fun operator right hj => ?_, fun left operator right hj => ?_,
      fun left operator right hj => ?_, fun name superclass methods hj => ?_,
      fun c hc => (hgrants.admits.closures c hc).2, fun operator m he => ?_⟩
    · rw [hj] at hparts
      exact hparts _ (Expr.mem_parts _)
    · rw [hj] at hparts
      exact hparts _ (Expr.mem_parts _)
    · rw [hj] at hparts
      exact hparts _ (Expr.mem_parts _)
    · rw [hj] at hparts
      exact hparts (.superclass superclass) (List.mem_append_left _ (List.mem_cons_self ..))
    · exact hgrants.behind.2 _ m he operator rfl
  · intro m hm fuel p hp operator m' he
    have hadmits := Regime.admits_forced hstart hallows hm
    have hrun := Run.interpret_heeds (m := m) fuel p.distances hp.allowsAll
    exact (hrun.error hadmits he).2.2 operator rfl

/-- `fun f(){!nil;}` -/
def negating : Program where
  statements := [.function (.mk ⟨.identifier, "f", 1⟩ []
    [.expression (.unary ⟨.mark .bang, "!", 1⟩ (.literal .nil))])]
  distances := []

/-- `f();` -/
def callingNegation : Program where
  statements := [.expression (.call (.var 0 ⟨.identifier, "f", 1⟩) ⟨.mark .rightParen, ")", 1⟩ [])]
  distances := []

/-- A function that is left from one source is called by the next, and its operator is evaluated. -/
theorem evaluated_nodes_shaped_negating :
    (∀ p ∈ [callingNegation, negating], p.Parsed) ∧
      ∃ s operator right, Forced.Passes (.equipped (fun _ => 0) .sound [])
        [callingNegation, negating] s ∧
        s.job = .evaluate (.unary operator right) ∧ s.Shaped := by
  have hparsed : ∀ p ∈ [callingNegation, negating], p.Parsed := by
    intro p hp
    simp only [List.mem_cons, List.not_mem_nil, or_false] at hp
    rcases hp with rfl | rfl
    · exact ⟨"f();", 0, by cbv⟩
    · exact ⟨"fun f(){!nil;}", 0, by cbv⟩
  let m := (Run.interpret 9 negating.statements negating.distances).behind
    (.equipped (fun _ => 0) .sound [])
  have hforced : Forced (.equipped (fun _ => 0) .sound []) [negating] m := .run .start 9 negating
  have hstatement := @Run.Passes.statement 9 callingNegation.statements
    (m.learn callingNegation.distances) [] _ _ _ rfl rfl
  have hbody := Run.Passes.called (.called (.called (.called hstatement (.first rfl))
    (.call rfl rfl rfl)) (.closure rfl)) .body
  have hunary : Forced.Passes (.equipped (fun _ => 0) .sound []) [callingNegation, negating] _ :=
    .mk hforced (.called (.called hbody (.first rfl)) (.first rfl))
  exact ⟨hparsed, _, _, _, hunary, rfl, (evaluated_nodes_shaped hparsed).1 _ hunary⟩

end Lox
