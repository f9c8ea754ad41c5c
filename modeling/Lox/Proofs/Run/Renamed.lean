/-
Renamed programs run alike.

The evaluation of a ready node and that of the renamed node, on a machine that mirrors the record,
end alike.  A program and its renamed form therefore print the same and end in the same way.

* `AllMimic` — the same for each of the functions of the evaluation, with some fuel;
* `allMimic` — with any fuel;
* `runProgram_rename` — for a whole program, on a new machine;
* `renamed_program_runs_alike` — a local variable or parameter may be renamed.

Design notes: the induction is on the fuel, as in `Conformance`, from which it has all that is known
of the record in between.
-/
import Lox.Proofs.Run.Agreement
import Lox.Proofs.Run.Mimicry

namespace Lox

namespace Traced

/-- With some fuel, every evaluation of something ready, in a chain of frames that fits its place,
is mimicked by the evaluation of what it is renamed to. -/
structure AllMimic (ρ : Renaming) (ds : Distances) (q : Site → Prop) (fuel : Nat) : Prop where
  evaluate : ∀ r p e, Lawful ds q r → e.Ready q p → p.Fits r →
    Mimics ρ r (evaluate fuel p e) (Run.evaluate fuel (e.rename ρ p.around))
  evaluateAll : ∀ r p es, Lawful ds q r → Expr.AllReady q p es → p.Fits r →
    Mimics ρ r (evaluateAll fuel p es) (Run.evaluateAll fuel (Expr.renameAll ρ p.around es))
  invoke : ∀ r c vs, Lawful ds q r → Value.Sound q r (.callable c) → (∀ v ∈ vs, v.Sound q r) →
    vs.length = r.machine.objects.arity c →
    Mimics ρ r (invoke fuel c vs) (Run.invoke fuel c vs)
  invokeClosure : ∀ r p c vs, Lawful ds q r → ReadyClosure q r p c → (∀ v ∈ vs, v.Sound q r) →
    vs.length = c.declaration.arity →
    Mimics ρ r (invokeClosure fuel p c vs) (Run.invokeClosure fuel (c.rename ρ p) vs)
  execute : ∀ r p s, Lawful ds q r → s.Ready q p → p.Fits r →
    Mimics ρ r (execute fuel p s) (Run.execute fuel (s.rename ρ p.around))
  executeAll : ∀ r p i ss, Lawful ds q r → Stmt.AllReady q p i ss → p.Fits r →
    Mimics ρ r (executeAll fuel p i ss) (Run.executeAll fuel (Stmt.renameAll ρ p.around i ss))
  repeatWhile : ∀ r p condition body, Lawful ds q r → condition.Ready q p →
    body.Ready q ((p.afterExpr condition).child 0) → p.Fits r →
    Mimics ρ r (repeatWhile fuel p condition body)
      (Run.repeatWhile fuel (condition.rename ρ p.around) (body.rename ρ (p.around.child 0)))

namespace AllMimic

variable {ρ : Renaming} {ds : Distances} {q : Site → Prop} {fuel : Nat}
  (ih : AllMimic ρ ds q fuel) (hq : ∀ x, q x → x.Good ds) (hρ : ∀ x, q x → ρ.Suits x)

include ih hq hρ

theorem evaluate_succ (r : Record) (p : Place) (e : Expr) (h : Lawful ds q r) (he : e.Ready q p)
    (hf : p.Fits r) :
    Mimics ρ r (Traced.evaluate (fuel + 1) p e)
      (Run.evaluate (fuel + 1) (e.rename ρ p.around)) := by
  have hen := allEnsure hq fuel
  show Mimics ρ r (Traced.meet p (.expression e) _) _
  refine .meet ?_
  have hmeet := Continues.meetExpression h hq he hf
  replace hf := hmeet.fits hf
  have h' := hmeet.lawful
  generalize r.meet p (.expression e) = r' at h' hf
  clear hmeet h r
  cases e with
  | literal l => exact .pure l.value
  | grouping inner => exact ih.evaluate r' p inner h' (he.part fun _ ho => ho) hf
  | unary operator right =>
    have hr : right.Ready q p := he.part fun _ ho => ho
    refine (ih.evaluate r' p right h' hr hf).bind (hen.evaluate r' p right h' hr hf)
      fun v r₁ hc _ => ?_
    exact .plain (Run.applyUnary_plain operator v)
  | binary left operator right =>
    obtain ⟨hl, hr⟩ := he.binary hq
    refine (ih.evaluate r' p left h' hl hf).bind (hen.evaluate r' p left h' hl hf)
      fun a r₁ hc _ => ?_
    refine (ih.evaluate r₁ _ right hc.lawful hr (hc.fits hf)).bind
      (hen.evaluate r₁ _ right hc.lawful hr (hc.fits hf)) fun b r₂ hc₂ _ => ?_
    exact .plain (Run.applyBinary_plain operator a b)
  | logical left operator right =>
    obtain ⟨hl, hr⟩ := he.logical hq
    refine (ih.evaluate r' p left h' hl hf).bind (hen.evaluate r' p left h' hl hf)
      fun a r₁ hc _ => ?_
    split
    · exact .pure a
    · exact ih.evaluate r₁ _ right hc.lawful hr (hc.fits hf)
  | var id name => exact lookUp_mimics hq hρ h' he hf rfl
  | thisRef id keyword => exact lookUp_mimics hq hρ h' he hf rfl
  | assign id name value =>
    obtain ⟨hv, hsite⟩ := he.assign
    refine (ih.evaluate r' p value h' hv hf).bind (hen.evaluate r' p value h' hv hf)
      fun v r₁ hc hsound => ?_
    refine (store_mimics hq hρ hc.lawful (hc.fits hf) hsite v).bind
      (store_ensures hc.lawful (hc.fits hf) (hq _ hsite) hsound) fun _ _ _ _ => ?_
    exact .pure v
  | call callee paren arguments =>
    obtain ⟨hcallee, hargs⟩ := he.call hq
    refine (ih.evaluate r' p callee h' hcallee hf).bind (hen.evaluate r' p callee h' hcallee hf)
      fun f r₁ hc hcf => ?_
    refine (ih.evaluateAll r₁ _ arguments hc.lawful hargs (hc.fits hf)).bind
      (hen.evaluateAll r₁ _ arguments hc.lawful hargs (hc.fits hf)) fun vs r₂ hc₂ hvs => ?_
    cases f with
    | callable c =>
      refine .ofObjects (fun m hm => hm.arity c) ?_
      split
      · next harity => exact ih.invoke r₂ c vs hc₂.lawful (hc₂.sound hcf) hvs harity
      · exact .halt _
    | _ => exact .halt _
  | get object name =>
    have ho : object.Ready q p := he.part fun _ ho => ho
    refine (ih.evaluate r' p object h' ho hf).bind (hen.evaluate r' p object h' ho hf)
      fun v r₁ hc _ => ?_
    cases v with
    | object i => exact .note (property_mimics (hc.lawful.did _) i name)
    | _ => exact .halt _
  | set object name value =>
    -- the renamed object stands behind the renamed value, too
    obtain ⟨hv, ho⟩ := he.set hq
    refine (ih.evaluate r' _ object h' ho hf).bind (hen.evaluate r' _ object h' ho hf)
      fun u r₁ hc _ => ?_
    cases u with
    | object i =>
      refine (ih.evaluate r₁ p value hc.lawful hv (hc.fits hf)).bind
        (hen.evaluate r₁ p value hc.lawful hv (hc.fits hf)) fun v r₂ hc₂ hsound => ?_
      exact (setField_mimics i name.lexeme v).bind (setField_ensures hc₂.lawful i _ hsound)
        fun _ _ _ _ => .note (.pure v)
    | _ => exact .halt _
  | superRef id keyword method => exact superMethod_mimics hq h' he hf

omit hρ in
theorem evaluateAll_succ (r : Record) (p : Place) (es : List Expr) (h : Lawful ds q r)
    (hes : Expr.AllReady q p es) (hf : p.Fits r) :
    Mimics ρ r (Traced.evaluateAll (fuel + 1) p es)
      (Run.evaluateAll (fuel + 1) (Expr.renameAll ρ p.around es)) := by
  have hen := allEnsure hq fuel
  cases es with
  | nil => exact .pure []
  | cons e es =>
    obtain ⟨he, hrest⟩ := hes.cons hq
    refine (ih.evaluate r p e h he hf).bind (hen.evaluate r p e h he hf) fun v r₁ hc _ => ?_
    refine (ih.evaluateAll r₁ _ es hc.lawful hrest (hc.fits hf)).bind
      (hen.evaluateAll r₁ _ es hc.lawful hrest (hc.fits hf)) fun vs r₂ _ _ => ?_
    exact .pure (v :: vs)

omit hρ in
theorem invoke_succ (r : Record) (c : Callable) (vs : List Value) (h : Lawful ds q r)
    (hc : Value.Sound q r (.callable c)) (hvs : ∀ v ∈ vs, v.Sound q r)
    (harity : vs.length = r.machine.objects.arity c) :
    Mimics ρ r (Traced.invoke (fuel + 1) c vs) (Run.invoke (fuel + 1) c vs) := by
  have hen := allEnsure hq fuel
  cases c with
  | native id =>
    refine .ofObjects (a := r.machine.objects.natives[id]?) (fun m hm => by rw [hm.natives]) ?_
    cases r.machine.objects.natives[id]? with
    | none => exact .halt _
    | some n => exact callNative_mimics n vs
  | closure id =>
    obtain ⟨c, hclosure, hready⟩ := hc id rfl
    have harity' : vs.length = c.declaration.arity :=
      harity.trans (Objects.arity_closure hclosure)
    -- the renamed session has the closure with its body renamed where that stands
    refine .ofObjects (a := some (c.rename ρ (r.bodies id)))
      (fun m hm => (hm.closures id).trans (by rw [hclosure]; rfl)) ?_
    rw [hclosure]
    exact ih.invokeClosure r _ c vs h hready hvs harity'
  | klass k =>
    have hcont := continues_addInstance h k
    refine newInstance_mimics k (.ofObjects
      (a := ((r.addInstance k).machine.objects.initializer? k).map
        (Closure.rename ρ ((r.addInstance k).methodBody (some k) initializerName)))
      (fun m hm => hm.methodClosure? k initializerName) ?_)
    cases hi : (r.addInstance k).machine.objects.initializer? k with
    | none => exact .pure _
    | some c =>
      have hready := readyMethod_of_find hcont.lawful hi
      refine .methodBody (bindMethod_mimics hcont.lawful hready _ fun c' r₁ hc₁ hready' hdecl => ?_)
      have harity' : vs.length = c'.declaration.arity := by
        rw [hdecl, harity, Objects.arity_klass (o := r.machine.objects) hi]
      have hvs' : ∀ v ∈ vs, v.Sound q r₁ := fun v hv => hc₁.sound (hcont.sound (hvs v hv))
      exact (ih.invokeClosure r₁ _ c' vs hc₁.lawful hready' hvs' harity').bind
        (hen.invokeClosure r₁ _ c' vs hc₁.lawful hready' hvs' harity') fun _ _ _ _ => .pure _

theorem invokeClosure_succ (r : Record) (p : Place) (c : Closure) (vs : List Value)
    (h : Lawful ds q r) (hc : ReadyClosure q r p c) (hvs : ∀ v ∈ vs, v.Sound q r)
    (harity : vs.length = c.declaration.arity) :
    Mimics ρ r (Traced.invokeClosure (fuel + 1) p c vs)
      (Run.invokeClosure (fuel + 1) (c.rename ρ p) vs) := by
  have hcont := Continues.push h c.captured (p.openerAt 0)
  have hne : ∀ t ∈ c.declaration.params, t.lexeme ≠ ρ.new := by
    obtain ⟨outer, hstands, -⟩ := hc
    intro t ht
    obtain ⟨a, ha⟩ := hstands.params t ht
    exact (hρ _ ha).names t (List.mem_singleton_self t)
  refine .openFrame ?_
  refine (defineAll_mimics hcont.lawful (r.known_push _ _) hne fun v hv =>
    hcont.sound (hvs v hv)).bind (defineParams_ensures h c _ hvs) fun _ r₁ hc₁ hdefined => ?_
  obtain ⟨hready, hfits⟩ := hc.body_fits h harity hc₁ hdefined
  have hlaw := hc₁.lawful.inside r.machine.frames.size
  have hwithin := within_ensures ((allEnsure hq fuel).executeAll _ p 0 _ hlaw hready hfits)
  refine (Mimics.within (ih.executeAll _ p 0 _ hlaw hready hfits)).bind hwithin
    fun signal r₂ hc₂ _ => ?_
  show Mimics ρ r₂ (if c.isInitializer then _ else _) (if c.isInitializer then _ else _)
  split
  · obtain ⟨outer, -, hcaptured⟩ := hc
    obtain ⟨o, ho⟩ := hcaptured.known
    have hlater := hcont.toLater.trans (hc₁.toLater.trans hc₂.toLater)
    refine .ofExcept fun m hm => ?_
    exact getAt_word hm rfl ((ho "this").mono hlater) .this_ _
  · cases signal with
    | returned v => exact .pure v
    | normal => exact .pure _

theorem execute_succ (r : Record) (p : Place) (s : Stmt) (h : Lawful ds q r) (hs : s.Ready q p)
    (hf : p.Fits r) :
    Mimics ρ r (Traced.execute (fuel + 1) p s)
      (Run.execute (fuel + 1) (s.rename ρ p.around)) := by
  have hen := allEnsure hq fuel
  show Mimics ρ r (Traced.meet p (.statement s) _) _
  refine .meet ?_
  have hmeet := Continues.meetStatement h hs hf
  replace hf := hmeet.fits hf
  have h' := hmeet.lawful
  generalize r.meet p (.statement s) = r' at h' hf
  clear hmeet h r
  cases s with
  | expression e =>
    exact (ih.evaluate r' p e h' hs.expression hf).bind (hen.evaluate r' p e h' hs.expression hf)
      fun _ _ _ _ => .pure _
  | print e =>
    refine (ih.evaluate r' p e h' hs.print hf).bind (hen.evaluate r' p e h' hs.print hf)
      fun v r₁ hc _ => ?_
    refine .ofObjects (fun m hm => hm.display v) ?_
    exact (write_mimics _).bind (write_ensures hc.lawful _) fun _ _ _ _ => .pure _
  | varDecl name initializer =>
    have hne : name.lexeme ≠ ρ.new :=
      (hρ _ (hs.sites _ (List.mem_cons_self ..))).names name (List.mem_singleton_self name)
    cases initializer with
    | none => exact declare_mimics h' hf hne rfl (.pure _)
    | some e =>
      refine (ih.evaluate r' _ e h' hs.varDecl (hs.place.fits_initializer hf name)).bind
        (hen.evaluate r' _ e h' hs.varDecl (hs.place.fits_initializer hf name))
        fun v r₁ hc _ => ?_
      exact declare_mimics hc.lawful (hc.fits hf) hne rfl (.pure _)
  | block body =>
    have hcont := Continues.push h' r'.machine.active (p.block.openerAt 0)
    exact .activeFrame (.openFrame (.within (ih.executeAll _ p.block 0 body
      (hcont.lawful.inside _) hs.block (hs.place.fits_block h' hf))))
  | branch condition thenBranch elseBranch =>
    obtain ⟨hcond, hthen⟩ := hs.condition hq
    have hrun := ih.evaluate r' p condition h' hcond hf
    have hensures := hen.evaluate r' p condition h' hcond hf
    cases elseBranch with
    | none =>
      refine hrun.bind hensures fun v r₁ hc _ => ?_
      split
      · exact ih.execute r₁ _ thenBranch hc.lawful hthen (hc.fits hf)
      · exact .pure _
    | some s =>
      refine hrun.bind hensures fun v r₁ hc _ => ?_
      split
      · exact ih.execute r₁ _ thenBranch hc.lawful hthen (hc.fits hf)
      · exact ih.execute r₁ _ s hc.lawful (hs.elseBranch hq) (hc.fits hf)
  | loop condition body =>
    obtain ⟨hcond, hbody⟩ := hs.loop hq
    exact ih.repeatWhile r' p condition body h' hcond hbody hf
  | function f =>
    have hsuits := hρ _ hs.function.1
    -- functions keep their names, which are shown when they are printed
    have hname : ρ.declared p.around f.name =
        (f.rename ρ (p.around.declare f.name) .function).name := by
      obtain ⟨name, params, body⟩ := f
      exact Renaming.token_eq (hsuits.kept .function name rfl (Or.inl rfl))
    have hcont := Continues.addClosure h' ((p.declare f.name).body .function f)
      ⟨f, r'.machine.active, false⟩
    exact functionValue_mimics (declare_mimics hcont.lawful (hcont.fits hf)
      (hsuits.names f.name (List.mem_singleton_self _)) hname (.pure _))
  | ret keyword value =>
    cases value with
    | none => exact .pure _
    | some e =>
      exact (ih.evaluate r' _ e h' hs.ret hf).bind (hen.evaluate r' _ e h' hs.ret hf)
        fun v _ _ _ => .pure _
  | classDecl name superclass methods =>
    cases superclass with
    | none =>
      exact (declareClass_mimics hq hρ h' hs hf rfl).bind (declareClass_ensures h' hq hs hf rfl)
        fun _ _ _ _ => .pure _
    | some e =>
      have hfits := hs.place.fits_superclass hf name e
      refine (ih.evaluate r' _ e h' (hs.superclass hq) hfits).bind
        (hen.evaluate r' _ e h' (hs.superclass hq) hfits) fun v r₁ hc _ => ?_
      refine (asSuperclass_mimics name v).bind (asSuperclass_ensures hc.lawful name v)
        fun k r₂ hc₂ _ => ?_
      have hf₂ := hc₂.fits (hc.fits hf)
      exact (declareClass_mimics hq hρ hc₂.lawful hs hf₂ rfl).bind
        (declareClass_ensures hc₂.lawful hq hs hf₂ rfl) fun _ _ _ _ => .pure _

omit hρ in
theorem executeAll_succ (r : Record) (p : Place) (i : Nat) (ss : List Stmt) (h : Lawful ds q r)
    (hss : Stmt.AllReady q p i ss) (hf : p.Fits r) :
    Mimics ρ r (Traced.executeAll (fuel + 1) p i ss)
      (Run.executeAll (fuel + 1) (Stmt.renameAll ρ p.around i ss)) := by
  cases ss with
  | nil => exact .pure _
  | cons s ss =>
    obtain ⟨hs, hrest⟩ := hss.cons hq
    refine (ih.execute r _ s h hs hf).bind ((allEnsure hq fuel).execute r _ s h hs hf)
      fun signal r₁ hc hsignal => ?_
    cases signal with
    | normal =>
      exact ih.executeAll r₁ _ (i + 1) ss hc.lawful hrest
        (hss.place.fits_after (hc.fits hf) (hsignal.2 rfl))
    | returned v => exact .pure _

omit hρ in
theorem repeatWhile_succ (r : Record) (p : Place) (condition : Expr) (body : Stmt)
    (h : Lawful ds q r) (hcond : condition.Ready q p)
    (hbody : body.Ready q ((p.afterExpr condition).child 0)) (hf : p.Fits r) :
    Mimics ρ r (Traced.repeatWhile (fuel + 1) p condition body)
      (Run.repeatWhile (fuel + 1) (condition.rename ρ p.around)
        (body.rename ρ (p.around.child 0))) := by
  have hen := allEnsure hq fuel
  refine (ih.evaluate r p condition h hcond hf).bind (hen.evaluate r p condition h hcond hf)
    fun v r₁ hc _ => ?_
  split
  · refine (ih.execute r₁ _ body hc.lawful hbody (hc.fits hf)).bind
      (hen.execute r₁ _ body hc.lawful hbody (hc.fits hf)) fun signal r₂ hc₂ _ => ?_
    cases signal with
    | normal =>
      exact ih.repeatWhile r₂ p condition body hc₂.lawful hcond hbody (hc₂.fits (hc.fits hf))
    | returned v => exact .pure _
  · exact .pure _

end AllMimic

theorem allMimic {ρ : Renaming} {ds : Distances} {q : Site → Prop}
    (hq : ∀ x, q x → x.Good ds) (hρ : ∀ x, q x → ρ.Suits x) (fuel : Nat) :
    AllMimic ρ ds q fuel := by
  induction fuel with
  | zero =>
    constructor
    · intro r p e _ _ _
      rw [Traced.evaluate, Run.evaluate]
      exact .halt _
    · intro r p es _ _ _
      rw [Traced.evaluateAll, Run.evaluateAll]
      exact .halt _
    · intro r c vs _ _ _ _
      rw [Traced.invoke, Run.invoke]
      exact .halt _
    · intro r p c vs _ _ _ _
      rw [Traced.invokeClosure, Run.invokeClosure]
      exact .halt _
    · intro r p s _ _ _
      rw [Traced.execute, Run.execute]
      exact .halt _
    · intro r p i ss _ _ _
      rw [Traced.executeAll, Run.executeAll]
      exact .halt _
    · intro r p condition body _ _ _ _
      rw [Traced.repeatWhile, Run.repeatWhile]
      exact .halt _
  | succ fuel ih =>
    exact ⟨ih.evaluate_succ hq hρ, ih.evaluateAll_succ hq, ih.invoke_succ hq,
      ih.invokeClosure_succ hq hρ, ih.execute_succ hq hρ, ih.executeAll_succ hq,
      ih.repeatWhile_succ hq⟩

variable {ρ : Renaming} {ds : Distances} {q : Site → Prop} {r : Record}

theorem runAll_mimics (hq : ∀ x, q x → x.Good ds) (hρ : ∀ x, q x → ρ.Suits x) (fuel : Nat)
    {p : Place} (hp : p.around.regions = []) {i : Nat} {ss : List Stmt} (h : Lawful ds q r)
    (ha : r.machine.active = globals) (hss : Stmt.AllReady q p i ss) :
    Mimics ρ r (runAll fuel p i ss) (Run.runAll fuel (Stmt.renameAll ρ p.around i ss)) := by
  induction ss generalizing r p i with
  | nil => exact .pure ()
  | cons s ss ih =>
    obtain ⟨hs, hrest⟩ := hss.cons hq
    refine ((allMimic hq hρ fuel).execute r _ s h hs (fits_top hp ha)).bind
      ((allEnsure hq fuel).execute r _ s h hs (fits_top hp ha)) fun _ r₁ hc _ => ?_
    exact ih (p := p.afterStmt s) (Surroundings.regions_after hp s) hc.lawful (hc.active.trans ha)
      hrest

theorem thenFlush_mimics {t : Traced Unit} {run : Run Unit} (h : Mimics ρ r t run) :
    Mimics ρ r (thenFlush t) (Run.thenFlush run) := by
  intro m hm
  have hrun := h m hm
  unfold thenFlush Run.thenFlush
  cases ht : t r with
  | ok u r₁ =>
    rw [ht] at hrun
    obtain ⟨m₁, he₁, hm₁⟩ := hrun
    rw [he₁]
    exact flush_mimics m₁ hm₁
  | error e r₁ =>
    rw [ht] at hrun
    obtain ⟨m₁, he₁, hm₁⟩ := hrun
    have hflush := flush_mimics m₁ hm₁
    simp only [he₁]
    cases hf : lift Run.flush r₁ with
    | ok u r₂ =>
      rw [hf] at hflush
      obtain ⟨m₂, he₂, hm₂⟩ := hflush
      rw [he₂]
      exact ⟨m₂, rfl, hm₂⟩
    | error fault r₂ =>
      rw [hf] at hflush
      obtain ⟨m₂, he₂, hm₂⟩ := hflush
      rw [he₂]
      exact ⟨m₂, rfl, hm₂⟩

end Traced

/-! ### Programs -/

/-- What is shown at the end of a run. -/
def Reply.ofResult : EStateM.Result Halt Machine Unit → Reply
  | .ok () m => ⟨m.output, .finished⟩
  | .error h m => ⟨m.output, .stopped h⟩

theorem Session.runProgram_reply (fuel : Nat) (s : Session) (p : Program) :
    (s.runProgram fuel p).1 =
      .ofResult (Run.interpret fuel p.statements p.distances s.machine.clearOutput) := by
  unfold Session.runProgram
  cases Run.interpret fuel p.statements p.distances s.machine.clearOutput <;> rfl

/-- A run that is mimicked shows the same. -/
theorem Traced.Mimics.reply_eq {ρ : Renaming} {r : Record} {t : Traced Unit} {run run' : Run Unit}
    (h : Mimics ρ r t run') (he : Erases t run) {m : Machine} (hm : ρ.Mirrors r m) :
    Reply.ofResult (run' m) = .ofResult (run r.machine) := by
  have hrun := h m hm
  rw [← he.forget_eq r]
  cases ht : t r with
  | ok u r₁ =>
    rw [ht] at hrun
    obtain ⟨m₁, he₁, hm₁⟩ := hrun
    rw [he₁]
    show (⟨m₁.output, .finished⟩ : Reply) = ⟨r₁.machine.output, .finished⟩
    unfold Machine.output
    rw [hm₁.printed]
  | error e r₁ =>
    rw [ht] at hrun
    obtain ⟨m₁, he₁, hm₁⟩ := hrun
    rw [he₁]
    show (⟨m₁.output, .stopped e⟩ : Reply) = ⟨r₁.machine.output, .stopped e⟩
    unfold Machine.output
    rw [hm₁.printed]

/-- A program without faults and its renamed form show the same when they run on a new machine. -/
theorem runProgram_rename {ρ : Renaming} {first next : Nat} {p p' : Program}
    (h : Parse.StmtsRead first p.statements next)
    (hd : p.distances = (resolve p.statements).distances)
    (hf : (resolve p.statements).faults = [])
    (hs : ∀ x ∈ Stmt.sitesIn (.top 0) 0 p.statements, ρ.Suits x)
    (hp' : p'.statements = Stmt.renameAll ρ (.top 0) 0 p.statements)
    (hd' : ∀ id, p'.distances.find? id = p.distances.find? id)
    (clock : Nat → Float) (sink : Sink) (fuel : Nat) :
    ((Session.start (.start clock sink)).runProgram fuel p').1 =
      ((Session.start (.start clock sink)).runProgram fuel p).1 := by
  -- the sites of the program, once its distances are known
  let q : Site → Prop := fun x => x.Good p.distances ∧ ρ.Suits x
  have hlearnt : Distances.merge [] p.distances = p.distances := List.append_nil _
  have hsites : ∀ x ∈ Stmt.sitesIn (.top 0) 0 p.statements, q x := by
    intro x hx
    have hknown := sites_known h hf (fun e (he : e ∈ []) => by cases he) 0 x hx
    rw [← hd, hlearnt] at hknown
    exact ⟨hknown.1, hs x hx⟩
  have hready : Stmt.AllReady q (.top 0) 0 p.statements :=
    ⟨⟨.start 0, .top 0, rfl⟩, h.2, hsites⟩
  let m : Machine := { Machine.start clock sink with distances := p.distances }
  have hlaw : Lawful p.distances q (.start m) :=
    (Session.start_lawful clock sink q).learn (m := m) (fun _ hx => hx) rfl rfl
  have hmimics := Traced.thenFlush_mimics
    (Traced.runAll_mimics (fun _ hx => hx.1) (fun _ hx => hx.2) fuel rfl hlaw rfl hready)
  have herases := Traced.thenFlush_erases (Traced.runAll_erases fuel (.top 0) 0 p.statements)
  have hreply := hmimics.reply_eq herases (Renaming.Mirrors.start ρ clock sink hd')
  have happly : ∀ p : Program, Run.interpret fuel p.statements p.distances
      (Session.start (.start clock sink)).machine.clearOutput =
      Run.thenFlush (Run.runAll fuel p.statements)
        { Machine.start clock sink with distances := p.distances } := by
    intro p
    unfold Run.interpret
    refine (Run.bind_apply _ _ _).trans ?_
    show Run.thenFlush _ { Machine.start clock sink with
      distances := Distances.merge [] p.distances } = _
    rw [show Distances.merge [] p.distances = p.distances from List.append_nil _]
  rw [Session.runProgram_reply, Session.runProgram_reply, happly, happly, hp']
  exact hreply

/-- A local variable or parameter may be renamed to whatever does not occur in the program: with
that declaration and all that is bound to it renamed, the program binds without faults, at the same
distances, and shows the same when it runs. -/
theorem renamed_program_runs_alike {text : String} {firstId : NodeId} {statements : List Stmt}
    {p : Program} (hparse : (parse (scanTokens text) firstId).result = .ok statements)
    (hbind : bindNames statements = .ok p) {x : Site}
    (hx : x ∈ Stmt.sitesIn (.top 0) 0 statements) {kind : DeclarationKind} {name : Token}
    (hd : x.feature = .declaration kind name) (hk : kind = .variable_ ∨ kind = .parameter)
    (hlocal : x.around.regions ≠ []) {new : String} (hname : Keyword.ofText? new = none)
    (hnew : ∀ z ∈ Stmt.sitesIn (.top 0) 0 statements, ∀ t ∈ z.names, t.lexeme ≠ new) :
    ∃ ρ : Renaming, x.binding? = some (ρ.target, ρ.old) ∧ ρ.new = new ∧
      ρ.Renames p.distances (Stmt.sitesIn (.top 0) 0 statements) x ∧
      Stmt.sitesIn (.top 0) 0 (Stmt.renameAll ρ (.top 0) 0 statements) =
        (Stmt.sitesIn (.top 0) 0 statements).map ρ.site ∧
      ∃ p', bindNames (Stmt.renameAll ρ (.top 0) 0 statements) = .ok p' ∧
        (∀ id, p'.distances.find? id = p.distances.find? id) ∧
        ∀ clock sink fuel, ((Session.start (.start clock sink)).runProgram fuel p').1 =
          ((Session.start (.start clock sink)).runProgram fuel p).1 := by
  have hread := parse_proper (scanTokens_genuine text) hparse
  obtain ⟨hstatements, hdistances, hfaults⟩ := bindNames_eq_ok hbind
  subst hstatements
  have hapart := declarations_apart hread.2
    ((resolve_isExact hread 0).faults_eq_nil_iff.mp hfaults)
  -- a local declaration binds its name in the innermost region
  obtain ⟨g, outer, hregions⟩ := List.exists_cons_of_ne_nil hlocal
  have hbinding : x.binding? = some (g.opener, name.lexeme) := by
    refine (Site.binding?_eq_some_iff hd).mpr ⟨?_, rfl⟩
    unfold Surroundings.openerAt
    rw [hregions]
    rfl
  let ρ : Renaming := ⟨g.opener, name.lexeme, new, hapart.name_ne hx hbinding, hname⟩
  have hsuits := Renaming.suits_of_declaration (ρ := ρ) hread hfaults hx hd hk hbinding hnew
  obtain ⟨hfaults', hfind⟩ := resolve_rename hread hsuits hfaults
  let renamed := Stmt.renameAll ρ (.top 0) 0 p.statements
  have hbind' : bindNames renamed = .ok ⟨renamed, (resolve renamed).distances⟩ := by
    unfold bindNames
    simp only [renamed, hfaults']
    rfl
  rw [← hdistances] at hfind
  refine ⟨ρ, hbinding, rfl, ?_, (sitesIn_rename hsuits).eq, _, hbind', hfind, ?_⟩
  · rw [hdistances]
    exact Renaming.renames_declaration hread hfaults hx hd hk hbinding
  · exact runProgram_rename hread hdistances hfaults hsuits rfl hfind

/-- A block that prints its one variable. -/
def printingBlock (name : String) : List Stmt :=
  [.block [.varDecl ⟨.identifier, name, 1⟩ (some (.literal .nil)),
    .print (.var 0 ⟨.identifier, name, 1⟩)]]

/-- The variable of a block that prints it. -/
theorem renamed_program_runs_alike_printingBlock :
    ∃ p', bindNames (printingBlock "b") = .ok p' ∧
      ∀ clock sink fuel, ((Session.start (.start clock sink)).runProgram fuel p').1 =
        ((Session.start (.start clock sink)).runProgram fuel ⟨printingBlock "a", [(0, 0)]⟩).1 := by
  have hparse : (parse (scanTokens "{ var a = nil; print a; }") 0).result =
      .ok (printingBlock "a") := by cbv
  have hbind : bindNames (printingBlock "a") = .ok ⟨printingBlock "a", [(0, 0)]⟩ := by rfl
  obtain ⟨⟨target, old, new, hold, hisName⟩, hb, hnew, -, -, p', hbind', -, hrun⟩ :=
    renamed_program_runs_alike hparse hbind (List.mem_cons_self ..) rfl (Or.inl rfl)
      (List.cons_ne_nil _ _) (show Keyword.ofText? "b" = none by decide) (by decide)
  cases hb
  cases hnew
  exact ⟨p', hbind', hrun⟩

end Lox
