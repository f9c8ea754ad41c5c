/-
The meaning of `this` and `super`.

The evaluation of a ready node, in a chain of frames that fits its place, leads from a
grounded record to a grounded one, however it ends, and yields a grounded value.  So the
record of any session is grounded, and wherever `this` or `super` is met, it is what the
declarations of the classes say.

* `AllGround` — the same for each of the functions of the evaluation, with some fuel;
* `allGround` — with any fuel;
* `traceOne_rested`, `traceFrom_rested` — one source, and a whole session;
* `session_receivers` — what `this` and `super` stand for in the run of any session.

Design notes: the induction is on the fuel, as in `Conformance`, from which it has all that is known
of the frames in between.
-/
import Lox.Proofs.Run.Agreement
import Lox.Proofs.Run.Grounding

namespace Lox

/-- A value that is returned is grounded. -/
def Signal.Grounded (r : Record) (s : Signal) : Prop :=
  ∀ v, s = .returned v → v.Grounded r

theorem Signal.Grounded.normal {r : Record} : Signal.Grounded r .normal :=
  fun _ he => by cases he

theorem Signal.Grounded.returned {r : Record} {v : Value} (hv : v.Grounded r) :
    Signal.Grounded r (.returned v) := by
  intro u he
  cases he
  exact hv

namespace Traced

/-- Statements in a frame of their own yield a grounded signal for the frame around them, too. -/
theorem within_grounds {r : Record} {frame : FrameId} {t : Traced Signal}
    (ht : Grounds (r.inside frame) t fun signal r' => signal.Grounded r') :
    Grounds r (within frame t) fun signal r' => signal.Grounded r' :=
  .within ht fun _ r' hs v hv => (hs v hv).mono (.inside r' _)

/-- With some fuel, every evaluation of something ready, in a chain of frames that fits its place,
keeps the record grounded. -/
structure AllGround (ds : Distances) (q : Site → Prop) (fuel : Nat) : Prop where
  evaluate : ∀ r p e, Lawful ds q r → Grounded r → e.Ready q p → p.Fits r →
    Grounds r (evaluate fuel p e) fun v r' => v.Grounded r'
  evaluateAll : ∀ r p es, Lawful ds q r → Grounded r → Expr.AllReady q p es → p.Fits r →
    Grounds r (evaluateAll fuel p es) fun vs r' => ∀ v ∈ vs, v.Grounded r'
  invoke : ∀ r c vs, Lawful ds q r → Grounded r → Value.Sound q r (.callable c) →
    (∀ v ∈ vs, v.Sound q r) → vs.length = r.machine.objects.arity c →
    Value.Grounded r (.callable c) → (∀ v ∈ vs, v.Grounded r) →
    Grounds r (invoke fuel c vs) fun v r' => v.Grounded r'
  invokeClosure : ∀ r p c vs, Lawful ds q r → Grounded r → ReadyClosure q r p c →
    (∀ v ∈ vs, v.Sound q r) → vs.length = c.declaration.arity → c.Grounded r p →
    (∀ v ∈ vs, v.Grounded r) →
    Grounds r (invokeClosure fuel p c vs) fun v r' => v.Grounded r'
  execute : ∀ r p s, Lawful ds q r → Grounded r → s.Ready q p → p.Fits r →
    Grounds r (execute fuel p s) fun signal r' => signal.Grounded r'
  executeAll : ∀ r p i ss, Lawful ds q r → Grounded r → Stmt.AllReady q p i ss → p.Fits r →
    Grounds r (executeAll fuel p i ss) fun signal r' => signal.Grounded r'
  repeatWhile : ∀ r p condition body, Lawful ds q r → Grounded r → condition.Ready q p →
    body.Ready q ((p.afterExpr condition).child 0) → p.Fits r →
    Grounds r (repeatWhile fuel p condition body) fun signal r' => signal.Grounded r'

namespace AllGround

variable {ds : Distances} {q : Site → Prop} {fuel : Nat} (ih : AllGround ds q fuel)
  (hq : ∀ x, q x → x.Good ds) (hplaced : ∀ x, q x → x.Placed)

include ih hq hplaced

theorem evaluate_succ (r : Record) (p : Place) (e : Expr) (h : Lawful ds q r) (hr : Grounded r)
    (he : e.Ready q p) (hf : p.Fits r) :
    Grounds r (Traced.evaluate (fuel + 1) p e) fun v r' => v.Grounded r' := by
  have hen := allEnsure hq fuel
  show Grounds r (Traced.meet p (.expression e) _) _
  refine .meet hr (he.refers hq hplaced h hr hf) fun hr' => ?_
  have hmeet := Continues.meetExpression h hq he hf
  replace hf := hmeet.fits hf
  have h' := hmeet.lawful
  generalize r.meet p (.expression e) = r' at h' hr' hf
  clear hmeet h hr r
  cases e with
  | literal l =>
    refine .pure hr' (.of_ne fun c => ?_)
    cases l <;> simp [Literal.value]
  | grouping inner => exact ih.evaluate r' p inner h' hr' (he.part fun _ ho => ho) hf
  | unary operator right =>
    refine (ih.evaluate r' p right h' hr' (he.part fun _ ho => ho) hf).bind' fun v r₁ _ hu _ => ?_
    exact plain_grounds hu.grounded (Run.applyUnary_plain operator v)
  | binary left operator right =>
    obtain ⟨hl, hright⟩ := he.binary hq
    refine (ih.evaluate r' p left h' hr' hl hf).bind (hen.evaluate r' p left h' hl hf)
      fun a r₁ hc _ hu _ => ?_
    refine (ih.evaluate r₁ _ right hc.lawful hu.grounded hright (hc.fits hf)).bind'
      fun b r₂ _ hu₂ _ => ?_
    exact plain_grounds hu₂.grounded (Run.applyBinary_plain operator a b)
  | logical left operator right =>
    obtain ⟨hl, hright⟩ := he.logical hq
    refine (ih.evaluate r' p left h' hr' hl hf).bind (hen.evaluate r' p left h' hl hf)
      fun a r₁ hc _ hu ha => ?_
    split
    · exact .pure hu.grounded ha
    · exact ih.evaluate r₁ _ right hc.lawful hu.grounded hright (hc.fits hf)
  | var id name => exact lookUp_grounds hr' id name
  | thisRef id keyword => exact lookUp_grounds hr' id keyword
  | assign id name value =>
    obtain ⟨hv, hsite⟩ := he.assign
    refine (ih.evaluate r' p value h' hr' hv hf).bind (hen.evaluate r' p value h' hv hf)
      fun v r₁ hc _ hu hvg => ?_
    refine (store_grounds hc.lawful hu.grounded (hc.fits hf) (hq _ hsite) hvg).bind'
      fun _ r₂ _ hu₂ _ => ?_
    exact .pure hu₂.grounded (hu₂.value hvg)
  | call callee paren arguments =>
    obtain ⟨hcallee, hargs⟩ := he.call hq
    refine (ih.evaluate r' p callee h' hr' hcallee hf).bind (hen.evaluate r' p callee h' hcallee hf)
      fun f r₁ hc hsound hu hfg => ?_
    refine (ih.evaluateAll r₁ _ arguments hc.lawful hu.grounded hargs (hc.fits hf)).bind
      (hen.evaluateAll r₁ _ arguments hc.lawful hargs (hc.fits hf))
      fun vs r₂ hc₂ hvs hu₂ hvsg => ?_
    cases f with
    | callable c =>
      refine .ofObjects hu₂.grounded ?_
      split
      · next harity =>
        exact ih.invoke r₂ c vs hc₂.lawful hu₂.grounded (hc₂.sound hsound) hvs harity
          (hu₂.value hfg) hvsg
      · exact .raise hu₂.grounded ..
    | _ => exact .raise hu₂.grounded ..
  | get object name =>
    refine (ih.evaluate r' p object h' hr' (he.part fun _ ho => ho) hf).bind'
      fun v r₁ _ hu _ => ?_
    cases v with
    | object i =>
      exact (Grounds.note hu.grounded .moment).bind' fun _ r₂ _ hu₂ _ =>
        property_grounds hu₂.grounded i name
    | _ => exact .raise hu.grounded ..
  | set object name value =>
    -- the object runs before the value, but its place is behind that of the value
    obtain ⟨hv, ho⟩ := he.set hq
    refine (ih.evaluate r' _ object h' hr' ho hf).bind (hen.evaluate r' _ object h' ho hf)
      fun u r₁ hc _ hu _ => ?_
    cases u with
    | object i =>
      refine (ih.evaluate r₁ p value hc.lawful hu.grounded hv (hc.fits hf)).bind'
        fun v r₂ _ hu₂ hvg => ?_
      refine (setField_grounds hu₂.grounded i name.lexeme hvg).bind' fun _ r₃ _ hu₃ _ => ?_
      exact (Grounds.note hu₃.grounded _).bind' fun _ r₄ _ hu₄ _ =>
        .pure hu₄.grounded (hu₄.value (hu₃.value hvg))
    | _ => exact .raise hu.grounded ..
  | superRef id keyword name =>
    -- the place says that the receiver has the methods of the superclass
    exact superMethod_grounds hr' (he.refersSuper hq hplaced h' hr' hf)

omit hplaced in
theorem evaluateAll_succ (r : Record) (p : Place) (es : List Expr) (h : Lawful ds q r)
    (hr : Grounded r) (hes : Expr.AllReady q p es) (hf : p.Fits r) :
    Grounds r (Traced.evaluateAll (fuel + 1) p es) fun vs r' => ∀ v ∈ vs, v.Grounded r' := by
  have hen := allEnsure hq fuel
  cases es with
  | nil => exact .pure hr fun v hv => absurd hv (by simp)
  | cons e es =>
    obtain ⟨he, hrest⟩ := hes.cons hq
    refine (ih.evaluate r p e h hr he hf).bind (hen.evaluate r p e h he hf)
      fun v r₁ hc _ hu hv => ?_
    refine (ih.evaluateAll r₁ _ es hc.lawful hu.grounded hrest (hc.fits hf)).bind'
      fun vs r₂ _ hu₂ hvs => ?_
    exact .pure hu₂.grounded (List.forall_mem_cons.mpr ⟨hu₂.value hv, hvs⟩)

omit hq hplaced in
theorem invoke_succ (r : Record) (c : Callable) (vs : List Value) (h : Lawful ds q r)
    (hr : Grounded r) (hc : Value.Sound q r (.callable c)) (hvs : ∀ v ∈ vs, v.Sound q r)
    (harity : vs.length = r.machine.objects.arity c) (hcg : Value.Grounded r (.callable c))
    (hvsg : ∀ v ∈ vs, v.Grounded r) :
    Grounds r (Traced.invoke (fuel + 1) c vs) fun v r' => v.Grounded r' := by
  cases c with
  | native id =>
    refine .ofObjects hr ?_
    cases hn : r.machine.objects.natives[id]? with
    | none => exact .halt hr _
    | some n => exact callNative_grounds hr (h.natives n (Array.mem_of_getElem? hn)) vs
  | closure id =>
    obtain ⟨c, hclosure, hready⟩ := hc id rfl
    obtain ⟨c', hclosure', hgrounded⟩ := hcg.closure id rfl
    rw [hclosure] at hclosure'
    cases hclosure'
    refine .ofObjects hr ?_
    rw [hclosure]
    refine .of_upholds (.refl hr) (u := Traced.invokeClosure fuel (r.bodies id) c vs) rfl ?_
    exact ih.invokeClosure r _ c vs h hr hready hvs
      (harity.trans (Objects.arity_closure hclosure)) hgrounded hvsg
  | klass k =>
    have hcont := continues_addInstance h k
    refine newInstance_grounds hr k fun hu => .ofObjects hu.grounded ?_
    cases hi : (r.addInstance k).machine.objects.initializer? k with
    | none => exact .pure hu.grounded .object
    | some c =>
      refine .methodBody hu.grounded ?_
      -- the new instance has the initializer that is found in its class
      have hhas := has_of_find (r := r.addInstance k) hi
        (r.machine.objects.classOf?_addInstance_self k) (Objects.mem_lineage_self _ k)
      have hready := readyMethod_of_find hcont.lawful hi
      refine (bindMethod_grounds hu.grounded hhas).bind
        (bindMethod_ensures hcont.lawful hready _) fun c' r₁ hc₁ hc' hu₁ hc'g => ?_
      obtain ⟨hready', hdecl⟩ := hc'
      refine (ih.invokeClosure r₁ _ c' vs hc₁.lawful hu₁.grounded hready'
        (fun v hv => hc₁.sound (hcont.sound (hvs v hv))) ?_ hc'g
        (hu₁.values (hu.values hvsg))).bind' fun _ r₂ _ hu₂ _ => ?_
      · rw [hdecl, harity, Objects.arity_klass (o := r.machine.objects) hi]
      · exact .pure hu₂.grounded .object

omit hq in
theorem invokeClosure_succ (r : Record) (p : Place) (c : Closure) (vs : List Value)
    (h : Lawful ds q r) (hr : Grounded r) (hc : ReadyClosure q r p c)
    (hvs : ∀ v ∈ vs, v.Sound q r) (harity : vs.length = c.declaration.arity)
    (hcg : c.Grounded r p) (hvsg : ∀ v ∈ vs, v.Grounded r) :
    Grounds r (Traced.invokeClosure (fuel + 1) p c vs) fun v r' => v.Grounded r' := by
  refine .openFrame hr (activation_of_grounded hcg) fun hu => ?_
  refine (defineAll_grounds hu.grounded (r.lt_size_push ..) (isName_of_param hplaced hc) fun e he =>
    hu.value (hvsg _ (List.of_mem_zip he).2)).bind (defineParams_ensures h c _ hvs)
    fun _ r₁ hc₁ hdefined hu₁ _ => ?_
  obtain ⟨hready, hfits⟩ := hc.body_fits h harity hc₁ hdefined
  have hbody := ih.executeAll _ p 0 _ (hc₁.lawful.inside r.machine.frames.size)
    (hu₁.grounded.inside _) hready hfits
  refine (within_grounds hbody).bind' fun signal r₂ _ hu₂ hsignal => ?_
  split
  · exact getAt_grounds hu₂.grounded ..
  · cases signal with
    | returned v => exact .pure hu₂.grounded (hsignal v rfl)
    | normal => exact .pure hu₂.grounded .nil

omit hplaced in
theorem execute_succ (r : Record) (p : Place) (s : Stmt) (h : Lawful ds q r) (hr : Grounded r)
    (hs : s.Ready q p) (hf : p.Fits r) :
    Grounds r (Traced.execute (fuel + 1) p s) fun signal r' => signal.Grounded r' := by
  have hen := allEnsure hq fuel
  show Grounds r (Traced.meet p (.statement s) _) _
  refine .meet hr (.statement p s r) fun hr' => ?_
  have hmeet := Continues.meetStatement h hs hf
  replace hf := hmeet.fits hf
  have h' := hmeet.lawful
  generalize r.meet p (.statement s) = r' at h' hr' hf
  clear hmeet h hr r
  cases s with
  | expression e =>
    exact (ih.evaluate r' p e h' hr' hs.expression hf).bind' fun v r₁ _ hu _ =>
      .pure hu.grounded .normal
  | print e =>
    refine (ih.evaluate r' p e h' hr' hs.print hf).bind' fun v r₁ _ hu _ =>
      .ofObjects hu.grounded ?_
    exact (write_grounds hu.grounded _).bind' fun _ r₂ _ hu₂ _ => .pure hu₂.grounded .normal
  | varDecl name initializer =>
    have hn : name.IsName := hs.proper.declared_isName rfl
    cases initializer with
    | none =>
      exact (declare_grounds h' hr' hf hn .nil).bind' fun _ r₁ _ hu _ =>
        .pure hu.grounded .normal
    | some e =>
      have hfits := hs.place.fits_initializer hf name
      refine (ih.evaluate r' _ e h' hr' hs.varDecl hfits).bind
        (hen.evaluate r' _ e h' hs.varDecl hfits) fun v r₁ hc _ hu hv => ?_
      exact (declare_grounds hc.lawful hu.grounded (hc.fits hf) hn hv).bind'
        fun _ r₂ _ hu₂ _ => .pure hu₂.grounded .normal
  | block body =>
    refine .activeFrame hr' (.openFrame hr' (fun o ho hm => ?_) fun hu => ?_)
    · -- a block is no method
      cases ho
      cases hm
    have hcont := Continues.push h' r'.machine.active (p.block.openerAt 0)
    have hbody := ih.executeAll _ p.block 0 body (hcont.lawful.inside _) (hu.grounded.inside _)
      hs.block (hs.place.fits_block h' hf)
    exact within_grounds hbody
  | branch condition thenBranch elseBranch =>
    obtain ⟨hcond, hthen⟩ := hs.condition hq
    refine (ih.evaluate r' p condition h' hr' hcond hf).bind
      (hen.evaluate r' p condition h' hcond hf) fun v r₁ hc _ hu _ => ?_
    split
    · exact ih.execute r₁ _ thenBranch hc.lawful hu.grounded hthen (hc.fits hf)
    · cases elseBranch with
      | none => exact .pure hu.grounded .normal
      | some s =>
        exact ih.execute r₁ _ s hc.lawful hu.grounded (hs.elseBranch hq) (hc.fits hf)
  | loop condition body =>
    obtain ⟨hcond, hbody⟩ := hs.loop hq
    exact ih.repeatWhile r' p condition body h' hr' hcond hbody hf
  | function f =>
    have hcont := Continues.addClosure h' ((p.declare f.name).body .function f)
      ⟨f, r'.machine.active, false⟩
    have hvalue : Ensures ds q r' (functionValue p f) fun _ _ => True := ⟨hcont, trivial⟩
    refine (functionValue_grounds hr' f).bind hvalue fun v r₁ hc _ hu hv => ?_
    exact (declare_grounds hc.lawful hu.grounded (hc.fits hf) (hs.proper.declared_isName rfl)
      hv).bind' fun _ r₂ _ hu₂ _ => .pure hu₂.grounded .normal
  | ret keyword value =>
    cases value with
    | none => exact .pure hr' (.returned .nil)
    | some e =>
      exact (ih.evaluate r' _ e h' hr' hs.ret hf).bind' fun v r₁ _ hu hv =>
        .pure hu.grounded (.returned hv)
  | classDecl name superclass methods =>
    cases superclass with
    | none =>
      exact (declareClass_grounds h' hr' hq hs hf rfl fun k he => by cases he).bind'
        fun _ r₁ _ hu _ => .pure hu.grounded .normal
    | some e =>
      have hfits := hs.place.fits_superclass hf name e
      refine (ih.evaluate r' _ e h' hr' (hs.superclass hq) hfits).bind
        (hen.evaluate r' _ e h' (hs.superclass hq) hfits) fun v r₁ hc _ hu hv => ?_
      refine (asSuperclass_grounds hu.grounded name hv).bind
        (asSuperclass_ensures hc.lawful name v) fun k r₂ hc₂ _ hu₂ hk => ?_
      refine (declareClass_grounds hc₂.lawful hu₂.grounded hq hs (hc₂.fits (hc.fits hf)) rfl
        fun k' he => ?_).bind' fun _ r₃ _ hu₃ _ => .pure hu₃.grounded .normal
      cases he
      exact hk

omit hplaced in
theorem executeAll_succ (r : Record) (p : Place) (i : Nat) (ss : List Stmt) (h : Lawful ds q r)
    (hr : Grounded r) (hss : Stmt.AllReady q p i ss) (hf : p.Fits r) :
    Grounds r (Traced.executeAll (fuel + 1) p i ss) fun signal r' => signal.Grounded r' := by
  cases ss with
  | nil => exact .pure hr .normal
  | cons s ss =>
    obtain ⟨hs, hrest⟩ := hss.cons hq
    refine (ih.execute r _ s h hr hs hf).bind ((allEnsure hq fuel).execute r _ s h hs hf)
      fun signal r₁ hc hsignal hu hg => ?_
    cases signal with
    | normal =>
      exact ih.executeAll r₁ _ (i + 1) ss hc.lawful hu.grounded hrest
        (hss.place.fits_after (hc.fits hf) (hsignal.2 rfl))
    | returned v => exact .pure hu.grounded hg

omit hplaced in
theorem repeatWhile_succ (r : Record) (p : Place) (condition : Expr) (body : Stmt)
    (h : Lawful ds q r) (hr : Grounded r) (hcond : condition.Ready q p)
    (hbody : body.Ready q ((p.afterExpr condition).child 0)) (hf : p.Fits r) :
    Grounds r (Traced.repeatWhile (fuel + 1) p condition body) fun signal r' =>
      signal.Grounded r' := by
  have hen := allEnsure hq fuel
  refine (ih.evaluate r p condition h hr hcond hf).bind (hen.evaluate r p condition h hcond hf)
    fun v r₁ hc _ hu _ => ?_
  split
  · refine (ih.execute r₁ _ body hc.lawful hu.grounded hbody (hc.fits hf)).bind
      (hen.execute r₁ _ body hc.lawful hbody (hc.fits hf)) fun signal r₂ hc₂ _ hu₂ hg => ?_
    cases signal with
    | normal =>
      exact ih.repeatWhile r₂ p condition body hc₂.lawful hu₂.grounded hcond hbody
        (hc₂.fits (hc.fits hf))
    | returned v => exact .pure hu₂.grounded hg
  · exact .pure hu.grounded .normal

end AllGround

theorem allGround {ds : Distances} {q : Site → Prop} (hq : ∀ x, q x → x.Good ds)
    (hplaced : ∀ x, q x → x.Placed) (fuel : Nat) : AllGround ds q fuel := by
  induction fuel with
  | zero =>
    constructor
    · intro r p e _ hr _ _
      rw [Traced.evaluate]
      exact .halt hr _
    · intro r p es _ hr _ _
      rw [Traced.evaluateAll]
      exact .halt hr _
    · intro r c vs _ hr _ _ _ _ _
      rw [Traced.invoke]
      exact .halt hr _
    · intro r p c vs _ hr _ _ _ _ _
      rw [Traced.invokeClosure]
      exact .halt hr _
    · intro r p s _ hr _ _
      rw [Traced.execute]
      exact .halt hr _
    · intro r p i ss _ hr _ _
      rw [Traced.executeAll]
      exact .halt hr _
    · intro r p condition body _ hr _ _ _
      rw [Traced.repeatWhile]
      exact .halt hr _
  | succ fuel ih =>
    exact ⟨ih.evaluate_succ hq hplaced, ih.evaluateAll_succ hq, ih.invoke_succ,
      ih.invokeClosure_succ hplaced, ih.execute_succ hq, ih.executeAll_succ hq,
      ih.repeatWhile_succ hq⟩

/-! ### Programs -/

variable {ds : Distances} {q : Site → Prop} {r : Record}

theorem runAll_grounds (hq : ∀ x, q x → x.Good ds) (hplaced : ∀ x, q x → x.Placed) (fuel : Nat)
    {p : Place} (hp : p.around.regions = []) {i : Nat} {ss : List Stmt} (h : Lawful ds q r)
    (hr : Grounded r) (ha : r.machine.active = globals) (hss : Stmt.AllReady q p i ss) :
    Grounds r (runAll fuel p i ss) fun _ _ => True := by
  induction ss generalizing r p i with
  | nil => exact .pure hr trivial
  | cons s ss ih =>
    obtain ⟨hs, hrest⟩ := hss.cons hq
    refine ((allGround hq hplaced fuel).execute r _ s h hr hs (fits_top hp ha)).bind
      ((allEnsure hq fuel).execute r _ s h hs (fits_top hp ha)) fun _ r₁ hc _ hu _ => ?_
    exact ih (p := p.afterStmt s) (Surroundings.regions_after hp s) hc.lawful hu.grounded
      (hc.active.trans ha) hrest

theorem thenFlush_grounds {t : Traced Unit} (ht : Grounds r t fun _ _ => True) :
    Grounds r (thenFlush t) fun _ _ => True :=
  Leads.thenFlush (fun _ _ _ hu hu' => hu.trans hu') ht fun _ hu => flush_grounds hu.grounded

end Traced

/-! ### Sessions -/

/-- A grounded record between two sources. -/
structure Record.Rested (r : Record) (next : Nat) : Prop extends
    Record.Rests Site.Placed r next where
  grounded : Grounded r

namespace Session

/-- A source leaves a record grounded, whatever it is and however it ends. -/
theorem traceOne_rested (fuel source : Nat) (text : String) {r : Record} {next : Nat}
    (h : r.Rested next) :
    (traceOne fuel source text r next).1.Rested (traceOne fuel source text r next).2 := by
  have hle := check_nextId_le text next
  rw [traceOne_eq]
  cases hp : (check text next).result with
  | error faults => exact ⟨h.mono hle, h.grounded⟩
  | ok p =>
    obtain ⟨hread, hdistances, hfaults⟩ := check_eq_ok hp
    obtain ⟨hrests, hready⟩ := h.learn hread hle hfaults source
      (Stmt.sitesIn_placed (a := .top source) .top 0 p.statements hread.2)
    rw [← hdistances] at hrests hready
    have hgrounded : Grounded (r.learn p.distances) := h.grounded.of_eq rfl rfl rfl rfl
    have hensures := Traced.thenFlush_ensures
      (Traced.runAll_ensures (fun x hx => hx.1.1) fuel rfl hrests.lawful hrests.active hready)
    have hgrounds := Traced.thenFlush_grounds
      (Traced.runAll_grounds (fun x hx => hx.1.1) (fun x hx => hx.2) fuel rfl hrests.lawful
        hgrounded hrests.active hready)
    exact ⟨hrests.of_continues hensures.after, (Traced.Leads.after hgrounds).grounded⟩

theorem traceFrom_rested (fuel : Nat) (sources : List String) (i : Nat) {r : Record} {next : Nat}
    (h : r.Rested next) :
    (traceFrom fuel i r next sources).1.Rested (traceFrom fuel i r next sources).2 := by
  induction sources generalizing i r next with
  | nil => exact h
  | cons text texts ih => exact ih (i + 1) (traceOne_rested fuel i text h)

/-- On the machine at the start there are no classes, and one native. -/
theorem start_grounded (clock : Nat → Float) (sink : Sink) :
    Grounded (Record.start (.start clock sink)) where
  values f x v hv := by
    have hv' : ((Frames.empty.push none).define globals "clock"
        (.callable (.native 0))).value? f x = some v := hv
    rw [Frames.value?_define _ Nat.one_pos] at hv'
    split at hv'
    · cases hv'
      exact ⟨fun _ he => (by cases he), fun _ he => (by cases he)⟩
    · rw [Frames.value?_push] at hv'
      simp [Frames.value?, Frames.empty] at hv'
  fields i x v hv := by cases (show (none : Option Value) = some v from hv)
  classes k c hc := by cases (show (none : Option ClassObject) = some c from hc)
  activations a o ho := by cases ho
  met later p node m earlier hl := by
    have hnil : [] = later ++ .met p node m :: earlier := hl
    simp at hnil

theorem start_rested (clock : Nat → Float) (sink : Sink) :
    (Record.start (.start clock sink)).Rested 0 :=
  ⟨⟨start_lawful clock sink _, rfl, fun e he => by cases he⟩, start_grounded clock sink⟩

end Session

/-- In the record of any session, which is the session with notes: wherever `this` is met, it is the
instance to which the innermost method around it was bound for the activation through which it is
seen; and wherever `super` is met, in the body of a class, the superclass of that class is found two
frames outwards from the activation, and one frame closer the receiver, whose class inherits from
the class, so that the method of that name from the superclass on is bound to the receiver, or else
the one fault is that there is no such method. -/
theorem session_receivers (clock : Nat → Float) (sink : Sink) (fuel : Nat)
    (sources : List String) :
    let r := Session.trace fuel (.start clock sink) sources
    r.machine = ((Session.start (.start clock sink)).runEach fuel sources).machine ∧
      ∀ later p node m earlier, r.log = later ++ .met p node m :: earlier →
        Refers p node ⟨m, r.bodies, earlier⟩ := by
  intro r
  refine ⟨Session.trace_erases fuel _ sources, fun later p node m earlier hlog => ?_⟩
  have hrested := Session.traceFrom_rested fuel sources 0 (Session.start_rested clock sink)
  obtain ⟨bodies, hlater, hrefers⟩ := hrested.grounded.met later p node m earlier hlog
  exact hrefers.relocate hlater

/-- `super` stands for the class that was extended, although its name has
got another value since. -/
example :
    ((Session.start (.start (fun _ => 0) .sound)).run 12
      ("class A { m() { print true; } } class B < A { m() { super.m(); } } " ++
        "var b = B(); A = nil; b.m();")).1.printed = "true\n" := by
  cbv

end Lox
