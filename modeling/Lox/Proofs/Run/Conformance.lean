/-
Evaluation keeps a record lawful.

The evaluation of a ready node, in a chain of frames that fits its place, leads to a lawful record,
however it ends, and yields a sound value.

* `AllEnsure` — the same for each of the functions of the evaluation, with some fuel;
* `evaluate_ensures`, `execute_ensures` — with any fuel.

Design notes: the induction is on the fuel.  A call needs of its closure that it is ready, and
of the arguments that they are as many as the parameters, since each name of the region of the
body must get a variable.
-/
import Lox.Proofs.Run.Declarations
import Lox.Proofs.Store.Lineage

namespace Lox

/-- A value that is returned is sound. -/
def Signal.Sound (q : Site → Prop) (r : Record) (s : Signal) : Prop :=
  ∀ v, s = .returned v → v.Sound q r

theorem Signal.Sound.normal {q : Site → Prop} {r : Record} : Signal.Sound q r .normal :=
  fun _ he => by cases he

theorem Signal.Sound.returned {q : Site → Prop} {r : Record} {v : Value} (hv : v.Sound q r) :
    Signal.Sound q r (.returned v) := by
  intro u he
  cases he
  exact hv

/-! ### Operators and natives -/

/-- A run that does not depend on the machine, leaves it as it is and yields plain data. -/
def Run.Plain (run : Run Value) : Prop :=
  (∃ v, run = pure v ∧ ∀ c, v ≠ .callable c) ∨ ∃ e, run = halt e

namespace Run

theorem Plain.halt (e : Halt) : Plain (Run.halt e) := Or.inr ⟨e, rfl⟩

theorem Plain.pure {v : Value} (h : ∀ c, v ≠ .callable c) : Plain (Pure.pure v) :=
  Or.inl ⟨v, rfl, h⟩

theorem applyUnary_plain (operator : Token) (v : Value) : (applyUnary operator v).Plain := by
  unfold applyUnary
  split
  · split
    · exact .pure fun c => by simp
    · exact .halt _
  · exact .pure fun c => by simp
  · exact .halt _

theorem add_plain (operator : Token) (a b : Value) : (add operator a b).Plain := by
  unfold add
  split
  · exact .pure fun c => by simp
  · exact .pure fun c => by simp
  · exact .halt _

theorem applyNumeric_plain (operator : Token) (x y : Float) :
    (applyNumeric operator x y).Plain := by
  unfold applyNumeric
  split
  all_goals first | exact .pure fun c => by simp | exact .halt _

theorem applyBinary_plain (operator : Token) (a b : Value) : (applyBinary operator a b).Plain := by
  unfold applyBinary
  split
  · exact add_plain operator a b
  · exact .pure fun c => by simp
  · exact .pure fun c => by simp
  · split
    · exact applyNumeric_plain operator _ _
    · exact .halt _

end Run

namespace Traced

variable {ds : Distances} {q : Site → Prop} {r : Record} {p : Place}

theorem plain_ensures (h : Lawful ds q r) {run : Run Value} (hp : run.Plain) :
    Ensures ds q r (lift run) fun v r' => v.Sound q r' := by
  rcases hp with ⟨v, rfl, hne⟩ | ⟨e, rfl⟩
  · exact .pure h (.of_ne fun id => hne _)
  · exact .still h (.halt e) fun v hv => by cases hv

theorem lookUp_ensures (h : Lawful ds q r) (id : NodeId) (name : Token) :
    Ensures ds q r (lift (Run.lookUp id name)) fun v r' => v.Sound q r' := by
  refine .still h (.lookUp id name) fun v hv => ?_
  obtain ⟨f, hf⟩ := Run.exists_value_of_lookUp hv
  exact h.values f _ v hf

theorem getAt_ensures (h : Lawful ds q r) (frame : FrameId) (d : Nat) (name : String)
    (line : Nat) :
    Ensures ds q r (lift (Run.getAt frame d name line)) fun v r' => v.Sound q r' := by
  refine .still h (.getAt frame d name line) fun v hv => ?_
  obtain ⟨f, hf⟩ := Run.exists_value_of_getAt hv
  exact h.values f _ v hf

theorem store_ensures (h : Lawful ds q r) (hf : p.Fits r) {o : Occurrence}
    (hgood : Site.Good ds ⟨p.around, .occurrence o⟩) {v : Value} (hv : v.Sound q r) :
    Ensures ds q r (store p o.id o.token v) fun _ _ => True := by
  unfold Ensures
  rcases store_visible h hf hgood v with ⟨hok, hknown⟩ | ⟨halt, herr⟩
  · rw [hok]
    exact ⟨.write h hknown (hv.write h hknown v), trivial⟩
  · rw [herr]
    exact .refl h

/-- Statements in a frame of their own yield a sound signal for the frame around them, too. -/
theorem within_ensures {frame : FrameId} {t : Traced Signal}
    (ht : Ensures ds q (r.inside frame) t fun signal r' => signal.Sound q r') :
    Ensures ds q r (within frame t) fun signal r' => signal.Sound q r' :=
  .within ht fun _ r' hs v hv => (hs v hv).mono (fun _ hx => hx) (r'.later_inside _)

theorem callNative_ensures (h : Lawful ds q r) {n : Native} (hn : n.Plain) (vs : List Value) :
    Ensures ds q r (lift (Run.callNative n vs)) fun v r' => v.Sound q r' :=
  .quiet h (Run.callNative_quiet n vs) fun _ _ he =>
    .of_ne fun _ => Run.ne_callable_of_callNative hn he _

theorem write_ensures (h : Lawful ds q r) (text : String) :
    Ensures ds q r (lift (Run.write text)) fun _ _ => True :=
  .quiet h (Run.write_quiet text) fun _ _ _ => trivial

theorem asSuperclass_ensures (h : Lawful ds q r) (name : Token) (v : Value) :
    Ensures ds q r (lift (Run.asSuperclass name v)) fun _ _ => True := by
  refine .still h ?_ fun _ _ => trivial
  unfold Run.asSuperclass
  split
  · exact .pure _
  · exact .halt _

/-! ### Instances -/

theorem continues_addInstance (h : Lawful ds q r) (k : Nat) :
    Continues ds q r (r.addInstance k) := by
  exact ⟨.of_eq rfl rfl rfl rfl, h.objects rfl rfl
    (fun i x v hv => h.fields i x v (Objects.field?_addInstance hv)) h.methods, rfl⟩

theorem newInstance_ensures (h : Lawful ds q r) (k : Nat) {next : Nat → Traced Value}
    {post : Value → Record → Prop}
    (hn : Ensures ds q (r.addInstance k) (next r.machine.objects.instances.size) post) :
    Ensures ds q r (lift (Run.newInstance k) >>= next) post :=
  .of_continues (continues_addInstance h k) rfl hn

theorem setField_ensures (h : Lawful ds q r) (object : Nat) (name : String) {v : Value}
    (hv : v.Sound q r) : Ensures ds q r (lift (Run.setField object name v)) fun _ _ => True := by
  have hlaw : Lawful ds q (r.withObjects (r.machine.objects.setField object name v)) := by
    refine h.objects rfl rfl (fun i x u hu => ?_) h.methods
    rcases Objects.field?_setField_cases hu with rfl | hu
    · exact hv
    · exact h.fields i x u hu
  exact ⟨⟨.of_eq rfl rfl rfl rfl, hlaw, rfl⟩, trivial⟩

end Traced

/-! ### Bodies of functions -/

/-- In a new frame with a variable for each parameter the body of a ready closure can run. -/
theorem ReadyClosure.body_fits {ds : Distances} {q : Site → Prop} {r : Record} (h : Lawful ds q r)
    {p : Place} {c : Closure} (hc : ReadyClosure q r p c) {vs : List Value}
    (harity : vs.length = c.declaration.arity) {r' : Record}
    (hr : Continues ds q (r.push c.captured (p.openerAt 0)) r')
    (hd : ∀ e ∈ c.declaration.params.zip vs,
      r'.machine.frames.defines r.machine.frames.size e.1.lexeme = true) :
    Stmt.AllReady q p 0 c.declaration.body ∧ p.Fits (r'.inside r.machine.frames.size) := by
  obtain ⟨outer, hstands, hcaptured⟩ := hc
  obtain ⟨g, hregions, hpending, hnames⟩ := hstands.regions
  have hopener : p.openerAt 0 = some g.opener := by
    rw [Place.openerAt, Surroundings.openerAt, hregions]
    rfl
  have hpush := hcaptured.push h g
  rw [← hopener] at hpush
  have hfits : Fits r' (fun _ => False) (g :: outer) r.machine.frames.size := by
    refine (hpush.mono hr.toLater fun _ hx => hx).defined fun x hx _ => ?_
    -- each parameter stands before an argument
    obtain ⟨t, ht, rfl⟩ := hnames x hx
    obtain ⟨i, hi, rfl⟩ := List.mem_iff_getElem.mp ht
    have hi' : i < vs.length := harity ▸ hi
    refine hd (c.declaration.params[i], vs[i]) (List.mem_iff_getElem.mpr ⟨i, ?_, ?_⟩)
    · rw [List.length_zip]
      exact Nat.lt_min.mpr ⟨hi, hi'⟩
    · exact List.getElem_zip
  refine ⟨hstands.ready, Place.fits_of ?_⟩
  rw [hregions]
  exact hfits.mono (r'.later_inside _) fun _ hx => hx

/-! ### Places of statements -/

section

variable {r : Record} {p : Place}

/-- Behind a statement that has given its name a variable. -/
theorem Place.Regular.fits_after (hp : p.Regular) (hf : p.Fits r) {s : Stmt}
    (hd : ∀ name ∈ s.declared?, r.machine.frames.defines r.machine.active name.lexeme = true) :
    (p.afterStmt s).Fits r := by
  have hfits := hp.fits hf
  refine Place.fits_of ?_
  show Lox.Fits r _ (p.around.after s).regions r.machine.active
  unfold Surroundings.after
  split
  · next name hn => exact hfits.declare (hd name hn)
  · exact hfits

/-- In the initializer of a variable, which has no variable yet. -/
theorem Place.Regular.fits_initializer (hp : p.Regular) (hf : p.Fits r) (name : Token) :
    (p.initializer name).Fits r := by
  have hfits := hp.fits hf
  show Lox.Fits r _ (p.around.initializing name).regions r.machine.active
  unfold Surroundings.initializing
  cases hr : p.around.regions with
  | nil =>
    rw [hr] at hfits
    simp only [hr]
    exact hfits
  | cons g outer =>
    rw [hr] at hfits
    simp only
    split
    · rw [hr]
      exact hfits.mono (.refl r) fun _ hx => hx.elim
    · next hnew =>
      obtain ⟨ho, hdef, hrest⟩ := hfits
      refine ⟨ho, fun x hx hn => ?_, hrest⟩
      rcases List.mem_cons.mp hx with rfl | hx
      · refine absurd (Or.inl ⟨{ g with
          names := name.lexeme :: g.names, pending := some name.lexeme }, ?_, rfl⟩) hn
        show _ ∈ (p.around.initializing name).regions.head?
        unfold Surroundings.initializing
        simp only [hr, if_neg hnew]
        rfl
      · exact hdef x hx fun hno => hno

/-- At the superclass of a class, which has no variable yet. -/
theorem Place.Regular.fits_superclass (hp : p.Regular) (hf : p.Fits r) (name : Token) (e : Expr) :
    (p.superclass name e).Fits r := by
  have hfits := hp.fits hf
  show Lox.Fits r _ (p.around.declare name).regions r.machine.active
  unfold Surroundings.declare
  cases hr : p.around.regions with
  | nil =>
    rw [hr] at hfits
    simp only [hr]
    exact hfits
  | cons g outer =>
    rw [hr] at hfits
    obtain ⟨ho, hdef, hrest⟩ := hfits
    refine ⟨ho, fun x hx hn => ?_, hrest⟩
    rcases List.mem_cons.mp hx with rfl | hx
    · exact absurd (Or.inr rfl) hn
    · exact hdef x hx fun hno => hno

end

/-! ### Evaluation -/

namespace Traced

/-- With some fuel, every evaluation of something ready, in a chain of frames that fits its place,
keeps the record lawful. -/
structure AllEnsure (ds : Distances) (q : Site → Prop) (fuel : Nat) : Prop where
  evaluate : ∀ r p e, Lawful ds q r → e.Ready q p → p.Fits r →
    Ensures ds q r (evaluate fuel p e) fun v r' => v.Sound q r'
  evaluateAll : ∀ r p es, Lawful ds q r → Expr.AllReady q p es → p.Fits r →
    Ensures ds q r (evaluateAll fuel p es) fun vs r' => ∀ v ∈ vs, v.Sound q r'
  invoke : ∀ r c vs, Lawful ds q r → Value.Sound q r (.callable c) → (∀ v ∈ vs, v.Sound q r) →
    vs.length = r.machine.objects.arity c →
    Ensures ds q r (invoke fuel c vs) fun v r' => v.Sound q r'
  invokeClosure : ∀ r p c vs, Lawful ds q r → ReadyClosure q r p c → (∀ v ∈ vs, v.Sound q r) →
    vs.length = c.declaration.arity →
    Ensures ds q r (invokeClosure fuel p c vs) fun v r' => v.Sound q r'
  execute : ∀ r p s, Lawful ds q r → s.Ready q p → p.Fits r →
    Ensures ds q r (execute fuel p s) fun signal r' => signal.Sound q r' ∧
      (signal = .normal → ∀ name ∈ s.declared?,
        r'.machine.frames.defines r'.machine.active name.lexeme = true)
  executeAll : ∀ r p i ss, Lawful ds q r → Stmt.AllReady q p i ss → p.Fits r →
    Ensures ds q r (executeAll fuel p i ss) fun signal r' => signal.Sound q r'
  repeatWhile : ∀ r p condition body, Lawful ds q r → condition.Ready q p →
    body.Ready q ((p.afterExpr condition).child 0) → p.Fits r →
    Ensures ds q r (repeatWhile fuel p condition body) fun signal r' => signal.Sound q r'

namespace AllEnsure

variable {ds : Distances} {q : Site → Prop} {fuel : Nat} (ih : AllEnsure ds q fuel)
  (hq : ∀ x, q x → x.Good ds)

include ih hq

theorem evaluate_succ (r : Record) (p : Place) (e : Expr) (h : Lawful ds q r) (he : e.Ready q p)
    (hf : p.Fits r) :
    Ensures ds q r (Traced.evaluate (fuel + 1) p e) fun v r' => v.Sound q r' := by
  show Ensures ds q r (Traced.meet p (.expression e) _) _
  have hmeet := Continues.meetExpression h hq he hf
  refine .meet hmeet ?_
  replace hf := hmeet.fits hf
  have h' := hmeet.lawful
  generalize r.meet p (.expression e) = r' at h' hf
  clear hmeet h r
  cases e with
  | literal l =>
    refine .pure h' (.of_ne fun id => ?_)
    cases l <;> simp [Literal.value]
  | grouping inner => exact ih.evaluate r' p inner h' (he.part fun _ ho => ho) hf
  | unary operator right =>
    refine (ih.evaluate r' p right h' (he.part fun _ ho => ho) hf).bind fun v r₁ hc _ => ?_
    exact plain_ensures hc.lawful (Run.applyUnary_plain operator v)
  | binary left operator right =>
    obtain ⟨hl, hr⟩ := he.binary hq
    refine (ih.evaluate r' p left h' hl hf).bind fun a r₁ hc _ => ?_
    refine (ih.evaluate r₁ _ right hc.lawful hr (hc.fits hf)).bind fun b r₂ hc₂ _ => ?_
    exact plain_ensures hc₂.lawful (Run.applyBinary_plain operator a b)
  | logical left operator right =>
    obtain ⟨hl, hr⟩ := he.logical hq
    refine (ih.evaluate r' p left h' hl hf).bind fun a r₁ hc ha => ?_
    split
    · exact .pure hc.lawful ha
    · exact ih.evaluate r₁ _ right hc.lawful hr (hc.fits hf)
  | var id name => exact lookUp_ensures h' id name
  | thisRef id keyword => exact lookUp_ensures h' id keyword
  | assign id name value =>
    obtain ⟨hv, hsite⟩ := he.assign
    refine (ih.evaluate r' p value h' hv hf).bind fun v r₁ hc hsound => ?_
    refine (store_ensures hc.lawful (hc.fits hf) (hq _ hsite) hsound).bind fun _ r₂ hc₂ _ => ?_
    exact .pure hc₂.lawful (hc₂.sound hsound)
  | call callee paren arguments =>
    -- the callee was evaluated first, and is still sound behind its arguments
    obtain ⟨hcallee, hargs⟩ := he.call hq
    refine (ih.evaluate r' p callee h' hcallee hf).bind fun f r₁ hc hcf => ?_
    refine (ih.evaluateAll r₁ _ arguments hc.lawful hargs (hc.fits hf)).bind
      fun vs r₂ hc₂ hvs => ?_
    cases f with
    | callable c =>
      refine .ofObjects hc₂.lawful ?_
      split
      · next harity => exact ih.invoke r₂ c vs hc₂.lawful (hc₂.sound hcf) hvs harity
      · exact .raise hc₂.lawful ..
    | _ => exact .raise hc₂.lawful ..
  | get object name =>
    refine (ih.evaluate r' p object h' (he.part fun _ ho => ho) hf).bind fun v r₁ hc _ => ?_
    cases v with
    | object i =>
      exact (Ensures.note hc.lawful .moment).bind fun _ r₂ hc₂ _ =>
        property_ensures hc₂.lawful i name
    | _ => exact .raise hc.lawful ..
  | set object name value =>
    -- the object runs before the value, but its place is behind that of the value
    obtain ⟨hv, ho⟩ := he.set hq
    refine (ih.evaluate r' _ object h' ho hf).bind fun u r₁ hc _ => ?_
    cases u with
    | object i =>
      refine (ih.evaluate r₁ p value hc.lawful hv (hc.fits hf)).bind fun v r₂ hc₂ hsound => ?_
      refine (setField_ensures hc₂.lawful i name.lexeme hsound).bind fun _ r₃ hc₃ _ => ?_
      refine (Ensures.note hc₃.lawful _).bind fun _ r₄ hc₄ _ => ?_
      exact .pure hc₄.lawful (hc₄.sound (hc₃.sound hsound))
    | _ => exact .raise hc.lawful ..
  | superRef id keyword method => exact superMethod_ensures h' id keyword method

theorem evaluateAll_succ (r : Record) (p : Place) (es : List Expr) (h : Lawful ds q r)
    (hes : Expr.AllReady q p es) (hf : p.Fits r) :
    Ensures ds q r (Traced.evaluateAll (fuel + 1) p es) fun vs r' => ∀ v ∈ vs, v.Sound q r' := by
  cases es with
  | nil => exact .pure h fun v hv => absurd hv (by simp)
  | cons e es =>
    obtain ⟨he, hrest⟩ := hes.cons hq
    refine (ih.evaluate r p e h he hf).bind fun v r₁ hc hv => ?_
    refine (ih.evaluateAll r₁ _ es hc.lawful hrest (hc.fits hf)).bind fun vs r₂ hc₂ hvs => ?_
    refine .pure hc₂.lawful fun u hu => ?_
    rcases List.mem_cons.mp hu with rfl | hu
    · exact hc₂.sound hv
    · exact hvs u hu

omit hq in
theorem invoke_succ (r : Record) (c : Callable) (vs : List Value) (h : Lawful ds q r)
    (hc : Value.Sound q r (.callable c)) (hvs : ∀ v ∈ vs, v.Sound q r)
    (harity : vs.length = r.machine.objects.arity c) :
    Ensures ds q r (Traced.invoke (fuel + 1) c vs) fun v r' => v.Sound q r' := by
  cases c with
  | native id =>
    refine .ofObjects h ?_
    cases hn : r.machine.objects.natives[id]? with
    | none => exact .still h (.halt _) fun a he => by cases he
    | some n => exact callNative_ensures h (h.natives n (Array.mem_of_getElem? hn)) vs
  | closure id =>
    obtain ⟨c, hclosure, hready⟩ := hc id rfl
    refine .ofObjects h ?_
    rw [hclosure]
    refine .of_continues (.refl h) (u := Traced.invokeClosure fuel (r.bodies id) c vs) rfl ?_
    exact ih.invokeClosure r _ c vs h hready hvs (harity.trans (Objects.arity_closure hclosure))
  | klass k =>
    have hcont := continues_addInstance h k
    refine newInstance_ensures h k (.ofObjects hcont.lawful ?_)
    cases hi : (r.addInstance k).machine.objects.initializer? k with
    | none => exact .pure hcont.lawful .object
    | some c =>
      refine .methodBody hcont.lawful ?_
      have hready := readyMethod_of_find hcont.lawful hi
      refine (bindMethod_ensures hcont.lawful hready _).bind fun c' r₁ hc₁ hc' => ?_
      obtain ⟨hready', hdecl⟩ := hc'
      refine (ih.invokeClosure r₁ _ c' vs hc₁.lawful hready'
        (fun v hv => hc₁.sound (hcont.sound (hvs v hv))) ?_).bind fun _ r₂ hc₂ _ => ?_
      · rw [hdecl, harity, Objects.arity_klass (o := r.machine.objects) hi]
      · exact .pure hc₂.lawful .object

omit hq in
theorem invokeClosure_succ (r : Record) (p : Place) (c : Closure) (vs : List Value)
    (h : Lawful ds q r) (hc : ReadyClosure q r p c) (hvs : ∀ v ∈ vs, v.Sound q r)
    (harity : vs.length = c.declaration.arity) :
    Ensures ds q r (Traced.invokeClosure (fuel + 1) p c vs) fun v r' => v.Sound q r' := by
  refine .openFrame h ((defineParams_ensures h c _ hvs).bind fun _ r₁ hc₁ hdefined => ?_)
  -- in the frame of the parameters the chain of frames fits the place of the body
  obtain ⟨hready, hfits⟩ := hc.body_fits h harity hc₁ hdefined
  have hbody := ih.executeAll _ p 0 _ (hc₁.lawful.inside r.machine.frames.size) hready hfits
  refine (within_ensures hbody).bind fun signal r₂ hc₂ hsignal => ?_
  split
  · exact getAt_ensures hc₂.lawful ..
  · cases signal with
    | returned v => exact .pure hc₂.lawful (hsignal v rfl)
    | normal => exact .pure hc₂.lawful .nil

theorem execute_succ (r : Record) (p : Place) (s : Stmt) (h : Lawful ds q r) (hs : s.Ready q p)
    (hf : p.Fits r) :
    Ensures ds q r (Traced.execute (fuel + 1) p s) fun signal r' => signal.Sound q r' ∧
      (signal = .normal → ∀ name ∈ s.declared?,
        r'.machine.frames.defines r'.machine.active name.lexeme = true) := by
  show Ensures ds q r (Traced.meet p (.statement s) _) _
  have hmeet := Continues.meetStatement h hs hf
  refine .meet hmeet ?_
  replace hf := hmeet.fits hf
  have h' := hmeet.lawful
  generalize r.meet p (.statement s) = r' at h' hf
  clear hmeet h r
  cases s with
  | expression e =>
    refine (ih.evaluate r' p e h' hs.expression hf).bind fun v r₁ hc _ => ?_
    exact .pure hc.lawful ⟨.normal, fun _ name hn => by cases hn⟩
  | print e =>
    refine (ih.evaluate r' p e h' hs.print hf).bind fun v r₁ hc _ => .ofObjects hc.lawful ?_
    refine (write_ensures hc.lawful _).bind fun _ r₂ hc₂ _ => ?_
    exact .pure hc₂.lawful ⟨.normal, fun _ name hn => by cases hn⟩
  | varDecl name initializer =>
    cases initializer with
    | none =>
      refine (declare_ensures h' hf name .nil).bind fun _ r₁ hc hd => ?_
      exact .pure hc.lawful ⟨.normal, fun _ name' hn => by cases hn; exact hd⟩
    | some e =>
      refine (ih.evaluate r' _ e h' hs.varDecl (hs.place.fits_initializer hf name)).bind
        fun v r₁ hc hv => ?_
      have hf₁ := hc.fits hf
      have hw := hv.write hc.lawful (hf₁.ownCell_known name.lexeme) v
      refine (declare_ensures hc.lawful hf₁ name hw).bind fun _ r₂ hc₂ hd => ?_
      exact .pure hc₂.lawful ⟨.normal, fun _ name' hn => by cases hn; exact hd⟩
  | block body =>
    have hcont := Continues.push h' r'.machine.active (p.block.openerAt 0)
    have hbody := ih.executeAll _ p.block 0 body (hcont.lawful.inside _) hs.block
      (hs.place.fits_block h' hf)
    exact .activeFrame h' (.openFrame h' ((within_ensures hbody).weaken
      fun signal r₁ _ hsignal => ⟨hsignal, fun _ name hn => by cases hn⟩))
  | branch condition thenBranch elseBranch =>
    obtain ⟨hcond, hthen⟩ := hs.condition hq
    refine (ih.evaluate r' p condition h' hcond hf).bind fun v r₁ hc _ => ?_
    split
    · refine (ih.execute r₁ _ thenBranch hc.lawful hthen (hc.fits hf)).weaken
        fun signal r₂ _ hsignal => ⟨hsignal.1, fun _ name hn => by cases hn⟩
    · cases elseBranch with
      | none => exact .pure hc.lawful ⟨.normal, fun _ name hn => by cases hn⟩
      | some s =>
        refine (ih.execute r₁ _ s hc.lawful (hs.elseBranch hq) (hc.fits hf)).weaken
          fun signal r₂ _ hsignal => ⟨hsignal.1, fun _ name hn => by cases hn⟩
  | loop condition body =>
    obtain ⟨hcond, hbody⟩ := hs.loop hq
    refine (ih.repeatWhile r' p condition body h' hcond hbody hf).weaken
      fun signal r₁ _ hsignal => ⟨hsignal, fun _ name hn => by cases hn⟩
  | function f =>
    -- the closure is a sound value only where its name has a variable, so both steps are one
    have hdecl : Ensures ds q r'
        ((do let v ← functionValue p f; declare p f.name v) >>= fun _ => pure Signal.normal)
        fun signal r' => signal.Sound q r' ∧ (signal = .normal →
          ∀ name ∈ (Stmt.function f).declared?,
            r'.machine.frames.defines r'.machine.active name.lexeme = true) :=
      (declareFunction_ensures h' hs hf).bind fun _ r₁ hc hd =>
        .pure hc.lawful ⟨.normal, fun _ name hn => by cases hn; exact hd⟩
    rwa [bind_assoc] at hdecl
  | ret keyword value =>
    cases value with
    | none =>
      exact .pure h' ⟨.returned .nil, fun hn => by cases hn⟩
    | some e =>
      refine (ih.evaluate r' _ e h' hs.ret hf).bind fun v r₁ hc hv => ?_
      exact .pure hc.lawful ⟨.returned hv, fun hn => by cases hn⟩
  | classDecl name superclass methods =>
    cases superclass with
    | none =>
      refine (declareClass_ensures h' hq hs hf rfl).bind fun _ r₁ hc hd => ?_
      exact .pure hc.lawful ⟨.normal, fun _ name' hn => by cases hn; exact hd⟩
    | some e =>
      refine (ih.evaluate r' _ e h' (hs.superclass hq)
        (hs.place.fits_superclass hf name e)).bind fun v r₁ hc _ => ?_
      refine (asSuperclass_ensures hc.lawful name v).bind fun k r₂ hc₂ _ => ?_
      refine (declareClass_ensures hc₂.lawful hq hs (hc₂.fits (hc.fits hf)) rfl).bind
        fun _ r₃ hc₃ hd => ?_
      exact .pure hc₃.lawful ⟨.normal, fun _ name' hn => by cases hn; exact hd⟩

theorem executeAll_succ (r : Record) (p : Place) (i : Nat) (ss : List Stmt) (h : Lawful ds q r)
    (hss : Stmt.AllReady q p i ss) (hf : p.Fits r) :
    Ensures ds q r (Traced.executeAll (fuel + 1) p i ss) fun signal r' => signal.Sound q r' := by
  cases ss with
  | nil => exact .pure h fun v hv => by cases hv
  | cons s ss =>
    obtain ⟨hs, hrest⟩ := hss.cons hq
    refine (ih.execute r _ s h hs hf).bind fun signal r₁ hc hsignal => ?_
    cases signal with
    | normal =>
      exact ih.executeAll r₁ _ (i + 1) ss hc.lawful hrest
        (hss.place.fits_after (hc.fits hf) (hsignal.2 rfl))
    | returned v => exact .pure hc.lawful hsignal.1

omit hq in
theorem repeatWhile_succ (r : Record) (p : Place) (condition : Expr) (body : Stmt)
    (h : Lawful ds q r) (hcond : condition.Ready q p)
    (hbody : body.Ready q ((p.afterExpr condition).child 0)) (hf : p.Fits r) :
    Ensures ds q r (Traced.repeatWhile (fuel + 1) p condition body) fun signal r' =>
      signal.Sound q r' := by
  refine (ih.evaluate r p condition h hcond hf).bind fun v r₁ hc _ => ?_
  split
  · refine (ih.execute r₁ _ body hc.lawful hbody (hc.fits hf)).bind fun signal r₂ hc₂ hsignal => ?_
    cases signal with
    | normal =>
      exact ih.repeatWhile r₂ p condition body hc₂.lawful hcond hbody (hc₂.fits (hc.fits hf))
    | returned v => exact .pure hc₂.lawful hsignal.1
  · exact .pure hc.lawful fun v hv => by cases hv

end AllEnsure

theorem allEnsure {ds : Distances} {q : Site → Prop} (hq : ∀ x, q x → x.Good ds) (fuel : Nat) :
    AllEnsure ds q fuel := by
  induction fuel with
  | zero =>
    have houtOfFuel {α : Type} {r : Record} {post : α → Record → Prop} (h : Lawful ds q r) :
        Ensures ds q r (lift (Run.halt .outOfFuel)) post :=
      .still h (.halt _) fun a he => by cases he
    constructor
    · intro r p e h _ _
      rw [Traced.evaluate]
      exact houtOfFuel h
    · intro r p es h _ _
      rw [Traced.evaluateAll]
      exact houtOfFuel h
    · intro r c vs h _ _ _
      rw [Traced.invoke]
      exact houtOfFuel h
    · intro r p c vs h _ _ _
      rw [Traced.invokeClosure]
      exact houtOfFuel h
    · intro r p s h _ _
      rw [Traced.execute]
      exact houtOfFuel h
    · intro r p i ss h _ _
      rw [Traced.executeAll]
      exact houtOfFuel h
    · intro r p e s h _ _ _
      rw [Traced.repeatWhile]
      exact houtOfFuel h
  | succ fuel ih =>
    exact ⟨ih.evaluate_succ hq, ih.evaluateAll_succ hq, ih.invoke_succ, ih.invokeClosure_succ,
      ih.execute_succ hq, ih.executeAll_succ hq, ih.repeatWhile_succ⟩

end Traced

end Lox
