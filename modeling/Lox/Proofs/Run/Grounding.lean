/-
Methods and classes stay grounded.

`Grounds r t post` says that from the record `r` the recorded run `t` leads to a grounded record
that retains what `r` knows of receivers and classes, however it ends, and that `post` holds of the
value that it yields and of the record then.

* `Grounds.bind`, `Grounds.within`, `Grounds.meet` — how runs are put together;
* `bindMethod_grounds` — a method that an instance has is bound to it;
* `boundMethod_grounds`, `superMethod_grounds` — what is found and bound is a grounded value;
* `declareClass_grounds` — the methods of a class capture the frame that holds its superclass.
-/
import Lox.Proofs.Run.Conformance
import Lox.Proofs.Run.References

namespace Lox

/-- A grounded record that a run may lead to. -/
structure Upholds (r r' : Record) : Prop extends Retains r r' where
  grounded : Grounded r'

namespace Upholds

variable {r r' r'' : Record}

theorem refl (h : Grounded r) : Upholds r r := ⟨.refl r, h⟩

theorem trans (h : Upholds r r') (h' : Upholds r' r'') : Upholds r r'' :=
  ⟨h.toRetains.trans h'.toRetains, h'.grounded⟩

theorem value (h : Upholds r r') {v : Value} (hv : v.Grounded r) : v.Grounded r' :=
  hv.mono h.toRetains

theorem values (h : Upholds r r') {vs : List Value} (hvs : ∀ v ∈ vs, v.Grounded r) :
    ∀ v ∈ vs, v.Grounded r' :=
  fun v hv => h.value (hvs v hv)

end Upholds

/-- However it ends, the run leads to a grounded record, and something holds of what it yields. -/
def Traced.Grounds {α : Type} (r : Record) (t : Traced α) (post : α → Record → Prop) : Prop :=
  Leads Upholds r t post

namespace Traced

variable {α β : Type} {ds : Distances} {q : Site → Prop} {r : Record}

namespace Grounds

variable {t : Traced α} {post post' : α → Record → Prop}

theorem pure (h : Grounded r) {a : α} (hp : post a r) : Grounds r (Pure.pure a) post :=
  Leads.pure (.refl h) hp

/-- A run that goes on behind a record that upholds the first one. -/
theorem of_upholds {r₁ : Record} (hu : Upholds r r₁) {u : Traced α} (he : t r = u r₁)
    (h : Grounds r₁ u post) : Grounds r t post :=
  Leads.of_step (fun _ hu' => hu.trans hu') he h

/-- Two runs one after the other. -/
theorem bind' (h : Grounds r t post) {next : α → Traced β} {postNext : β → Record → Prop}
    (hn : ∀ a r', t r = .ok a r' → Upholds r r' → post a r' → Grounds r' (next a) postNext) :
    Grounds r (t >>= next) postNext :=
  Leads.bind (fun _ _ _ hu hu' => hu.trans hu') h hn

/-- Two runs one after the other, the first of which ensures what the second one needs. -/
theorem bind (h : Grounds r t post) {postEnsured : α → Record → Prop}
    (he : Ensures ds q r t postEnsured) {next : α → Traced β} {postNext : β → Record → Prop}
    (hn : ∀ a r', Continues ds q r r' → postEnsured a r' → Upholds r r' → post a r' →
      Grounds r' (next a) postNext) : Grounds r (t >>= next) postNext :=
  h.bind' fun a r' ht hu hp => hn a r' (he.ok ht).1 (he.ok ht).2 hu hp

/-- A run that only changes what is printed, and how often the clock was read. -/
theorem quiet (h : Grounded r) {run : Run α} (hq : run.Quiet)
    (hp : ∀ a m, run r.machine = .ok a m → post a { r with machine := m }) :
    Grounds r (Traced.lift run) post :=
  Leads.quiet hq (fun _ ha => ⟨.of_eq ha.frames ha.objects rfl rfl,
    h.of_eq ha.frames ha.objects rfl rfl⟩) hp

/-- A run that leaves the machine as it is. -/
theorem still (h : Grounded r) {run : Run α} (hs : run.Still)
    (hp : ∀ a, run r.machine = .ok a r.machine → post a r) :
    Grounds r (Traced.lift run) post :=
  Leads.still hs (.refl h) hp

theorem halt (h : Grounded r) (e : Halt) : Grounds r (Traced.lift (Run.halt e)) post :=
  .still h (.halt e) fun a he => by cases he

theorem raise (h : Grounded r) (line : Nat) (fault : RuntimeFault) :
    Grounds r (Traced.lift (Run.raise line fault)) post :=
  .halt h _

/-- Reading something off the objects. -/
theorem ofObjects (h : Grounded r) {f : Objects → α} {next : α → Traced β}
    {postNext : β → Record → Prop} (hn : Grounds r (next (f r.machine.objects)) postNext) :
    Grounds r (Traced.lift (Run.ofObjects f) >>= next) postNext :=
  of_upholds (.refl h) rfl hn

theorem activeFrame (h : Grounded r) {next : FrameId → Traced β}
    {postNext : β → Record → Prop} (hn : Grounds r (next r.machine.active) postNext) :
    Grounds r (Traced.lift Run.activeFrame >>= next) postNext :=
  of_upholds (.refl h) rfl hn

theorem methodBody (h : Grounded r) {klass : Option Nat} {name : String}
    {next : Place → Traced β} {postNext : β → Record → Prop}
    (hn : Grounds r (next (r.methodBody klass name)) postNext) :
    Grounds r (Traced.methodBody klass name >>= next) postNext :=
  of_upholds (.refl h) rfl hn

/-- A new frame, inside of that in which a method was bound if it is an activation of the method. -/
theorem openFrame (h : Grounded r) {parent : FrameId} {opener : Option Opener}
    (ho : ∀ o, opener = some o → o.kind.isMethod = true →
      ∃ object klass method, Binds r parent object klass method ∧
        (r.bodies method).openerAt 0 = some o)
    {next : FrameId → Traced β} {postNext : β → Record → Prop}
    (hn : Upholds r (r.push parent opener) →
      Grounds (r.push parent opener) (next r.machine.frames.size) postNext) :
    Grounds r (Traced.openFrame parent opener >>= next) postNext :=
  have hu : Upholds r (r.push parent opener) := ⟨.push parent opener, h.push ho⟩
  of_upholds hu rfl (hn hu)

theorem newClosure (h : Grounded r) {body : Place} {c : Closure} {next : Nat → Traced β}
    {postNext : β → Record → Prop}
    (hn : Upholds r (r.addClosure body c) →
      Grounds (r.addClosure body c) (next r.machine.objects.closures.size) postNext) :
    Grounds r (Traced.newClosure body c >>= next) postNext :=
  have hu : Upholds r (r.addClosure body c) := ⟨.addClosure body c, h.addClosure body c⟩
  of_upholds hu rfl (hn hu)

/-- A write that does not change a reserved word. -/
theorem define (h : Grounded r) {frame : FrameId} {opener : Option Opener} {name : String}
    {v : Value} (hlt : frame < r.machine.frames.size)
    (hw : ∀ k : Keyword, name = k.text → r.machine.frames.value? frame name = none)
    (hv : v.Grounded r) {next : Unit → Traced β} {postNext : β → Record → Prop}
    (hn : Upholds r (r.write ⟨frame, opener, name⟩ v) →
      Grounds (r.write ⟨frame, opener, name⟩ v) (next ()) postNext) :
    Grounds r (Traced.define frame opener name v >>= next) postNext :=
  have hu : Upholds r (r.write ⟨frame, opener, name⟩ v) :=
    ⟨.write (c := ⟨frame, opener, name⟩) hlt hw, h.write (c := ⟨frame, opener, name⟩) hlt hw hv⟩
  of_upholds hu rfl (hn hu)

/-- A deed is noted. -/
theorem note (h : Grounded r) (deed : Machine → Deed) :
    Grounds r (Traced.note deed) fun _ _ => True :=
  Leads.of_ok rfl ⟨.did _, h.did _⟩ trivial

theorem meet (h : Grounded r) {p : Place} {node : Node} (hrefers : Refers p node r)
    (ht : Grounded (r.meet p node) → Grounds (r.meet p node) t post) :
    Grounds r (Traced.meet p node t) post :=
  of_upholds ⟨.meet p node, h.meet hrefers⟩ rfl (ht (h.meet hrefers))

theorem within {frame : FrameId} (ht : Grounds (r.inside frame) t post)
    (hp : ∀ a r', post a r' → post' a (r'.inside r.machine.active)) :
    Grounds r (Traced.within frame t) post' :=
  have hup : ∀ r', Upholds (r.inside frame) r' → Upholds r (r'.inside r.machine.active) :=
    fun r' hu => ⟨(Retains.inside r frame).trans (hu.toRetains.trans (.inside r' _)),
      hu.grounded.inside _⟩
  Leads.within hup ht hp

end Grounds

/-! ### Plain data and variables -/

variable {p : Place}

/-- An identifier is no reserved word. -/
theorem not_word {name : Token} (hn : name.IsName) {P : Prop} :
    ∀ k : Keyword, name.lexeme = k.text → P :=
  fun k he => absurd he (hn.lexeme_ne k)

theorem plain_grounds (h : Grounded r) {run : Run Value} (hp : run.Plain) :
    Grounds r (lift run) fun v r' => v.Grounded r' := by
  rcases hp with ⟨v, rfl, hne⟩ | ⟨e, rfl⟩
  · exact .pure h (.of_ne hne)
  · exact .halt h e

theorem getAt_grounds (h : Grounded r) (frame : FrameId) (d : Nat) (name : String) (line : Nat) :
    Grounds r (lift (Run.getAt frame d name line)) fun v r' => v.Grounded r' := by
  refine .still h (.getAt frame d name line) fun v hv => ?_
  obtain ⟨f, hf⟩ := Run.exists_value_of_getAt hv
  exact h.values f _ v hf

theorem lookUp_grounds (h : Grounded r) (id : NodeId) (name : Token) :
    Grounds r (lift (Run.lookUp id name)) fun v r' => v.Grounded r' := by
  refine .still h (.lookUp id name) fun v hv => ?_
  obtain ⟨f, hf⟩ := Run.exists_value_of_lookUp hv
  exact h.values f _ v hf

theorem callNative_grounds (h : Grounded r) {n : Native} (hn : n.Plain) (vs : List Value) :
    Grounds r (lift (Run.callNative n vs)) fun v r' => v.Grounded r' :=
  .quiet h (Run.callNative_quiet n vs) fun _ _ he => .of_ne (Run.ne_callable_of_callNative hn he)

theorem write_grounds (h : Grounded r) (text : String) :
    Grounds r (lift (Run.write text)) fun _ _ => True :=
  .quiet h (Run.write_quiet text) fun _ _ _ => trivial

theorem flush_grounds (h : Grounded r) : Grounds r (lift Run.flush) fun _ _ => True :=
  .quiet h Run.flush_quiet fun _ _ _ => trivial

/-- The superclass of a class is there. -/
theorem asSuperclass_grounds (h : Grounded r) (name : Token) {v : Value} (hv : v.Grounded r) :
    Grounds r (lift (Run.asSuperclass name v)) fun k r' => k < r'.machine.objects.classes.size := by
  unfold Run.asSuperclass
  split
  · next k => exact .pure h (hv.klass k rfl)
  · exact .raise h ..

theorem newInstance_grounds (h : Grounded r) (k : Nat) {next : Nat → Traced β}
    {post : β → Record → Prop}
    (hn : Upholds r (r.addInstance k) →
      Grounds (r.addInstance k) (next r.machine.objects.instances.size) post) :
    Grounds r (lift (Run.newInstance k) >>= next) post :=
  have hu : Upholds r (r.addInstance k) :=
    ⟨.withObjects rfl (r.machine.objects.extends_addInstance k), h.addInstance k⟩
  .of_upholds hu rfl (hn hu)

theorem setField_grounds (h : Grounded r) (object : Nat) (name : String) {v : Value}
    (hv : v.Grounded r) : Grounds r (lift (Run.setField object name v)) fun _ _ => True :=
  ⟨⟨.withObjects rfl (r.machine.objects.extends_setField object name v),
    h.setField object name hv⟩, trivial⟩

/-- A name that is declared at a place gets a value. -/
theorem declare_grounds (h : Lawful ds q r) (hr : Grounded r) (hf : p.Fits r) {name : Token}
    (hn : name.IsName) {v : Value} (hv : v.Grounded r) :
    Grounds r (declare p name v) fun _ _ => True :=
  .activeFrame hr (.define hr ((hf.ownCell_known name.lexeme).lt_size h) (not_word hn) hv
    fun hu => .pure hu.grounded trivial)

theorem store_grounds (h : Lawful ds q r) (hr : Grounded r) (hf : p.Fits r) {id : NodeId}
    {name : Token} (hgood : Site.Good ds ⟨p.around, .occurrence ⟨id, .assign, name⟩⟩) {v : Value}
    (hv : v.Grounded r) : Grounds r (store p id name v) fun _ _ => True := by
  have hn : name.IsName := hgood.proper _ rfl
  have hname : (r.visibleCell p name.lexeme).name = name.lexeme := by
    unfold Record.visibleCell
    split <;> rfl
  rcases store_visible h hf hgood v with ⟨hok, hknown⟩ | ⟨halt, herr⟩
  · have hw : ∀ k : Keyword, (r.visibleCell p name.lexeme).name = k.text →
        r.machine.frames.value? (r.visibleCell p name.lexeme).activation
          (r.visibleCell p name.lexeme).name = none :=
      fun k he => not_word hn k (hname ▸ he)
    exact Leads.of_ok hok
      ⟨.write (hknown.lt_size h) hw, hr.write (hknown.lt_size h) hw hv⟩ trivial
  · exact Leads.of_error herr (.refl hr)

/-- Variables of a frame get grounded values. -/
theorem defineAll_grounds (h : Grounded r) {frame : FrameId} {opener : Option Opener}
    (hlt : frame < r.machine.frames.size) {entries : List (Token × Value)}
    (hn : ∀ e ∈ entries, e.1.IsName) (hv : ∀ e ∈ entries, e.2.Grounded r) :
    Grounds r (defineAll frame opener entries) fun _ _ => True := by
  induction entries generalizing r with
  | nil => exact .pure h trivial
  | cons e rest ih =>
    obtain ⟨name, v⟩ := e
    refine .define h hlt (not_word (hn (name, v) (List.mem_cons_self ..)))
      (hv (name, v) (List.mem_cons_self ..)) fun hu => ?_
    refine ih hu.grounded ?_ (fun e he => hn e (List.mem_cons_of_mem _ he))
      fun e he => hu.value (hv e (List.mem_cons_of_mem _ he))
    exact (r.machine.frames.size_define ..).symm ▸ hlt

/-! ### Methods -/

/-- A method that an instance has: a class declares it from which the class of the instance
inherits. -/
def Has (r : Record) (object : Nat) (body : Place) (c : Closure) : Prop :=
  ∃ klass method, (∃ name, r.machine.objects.ownMethod? klass name = some method) ∧
    r.machine.objects.closures[method]? = some c ∧ r.bodies method = body ∧
    ∃ k, r.machine.objects.classOf? object = some k ∧ klass ∈ r.machine.objects.lineage k

/-- An instance has the methods that are found in a class from which its own class inherits. -/
theorem has_of_find {object klass k : Nat} {name : String} {c : Closure}
    (hc : r.machine.objects.methodClosure? klass name = some c)
    (hk : r.machine.objects.classOf? object = some k)
    (hl : klass ∈ r.machine.objects.lineage k) :
    Has r object (r.methodBody (some klass) name) c := by
  obtain ⟨id, hid, hclosure⟩ := Option.bind_eq_some_iff.mp hc
  obtain ⟨klass', hl', hown⟩ := Objects.exists_own_of_method? hid
  refine ⟨klass', id, ⟨name, hown⟩, hclosure, ?_, k, hk, mem_chain_trans hl hl'⟩
  unfold Record.methodBody
  simp only [Option.bind_some, hid, Option.getD_some]

/-- The body of a method stands directly in the region of `this`. -/
theorem Has.opener (h : Grounded r) {object : Nat} {body : Place} {c : Closure}
    (hm : Has r object body c) : ∀ o, body.openerAt 1 = some o → o.kind.isMethod = false := by
  obtain ⟨klass, method, ⟨name, hown⟩, -, rfl, -⟩ := hm
  obtain ⟨declared, hc, hmethod⟩ := Option.bind_eq_some_iff.mp hown
  obtain ⟨-, f, o, hd⟩ := h.classes klass declared hc
  obtain ⟨-, -, -, ho⟩ := hd.methods name method hmethod
  intro o' ho'
  rw [ho] at ho'
  cases ho'
  rw [hd.kind]
  rfl

/-- A method that an instance has is bound to it. -/
theorem bindMethod_grounds (h : Grounded r) {object : Nat} {body : Place} {c : Closure}
    (hm : Has r object body c) :
    Grounds r (bindMethod body c object) fun c' r' => c'.Grounded r' body := by
  have hopener : ∀ o, body.openerAt 1 = some o → o.kind.isMethod = true →
      ∃ object klass method, Binds r c.captured object klass method ∧
        (r.bodies method).openerAt 0 = some o := fun o ho hk => by
    rw [hm.opener h o ho] at hk
    cases hk
  -- the new frame has no variables yet
  have hnew : ∀ k : Keyword, "this" = k.text →
      (r.push c.captured (body.openerAt 1)).machine.frames.value? r.machine.frames.size "this" =
        none := fun _ _ =>
    (r.machine.frames.value?_push ..).trans (r.machine.frames.value?_of_size_le (Nat.le_refl _) _)
  refine .openFrame h hopener fun hpush => ?_
  refine .define hpush.grounded (r.lt_size_push ..) hnew .object fun hwrite => ?_
  refine .pure hwrite.grounded fun o ho hk => ?_
  obtain ⟨klass, method, ⟨name, hown⟩, hclosure, hbody, k, hobject, hl⟩ := hm
  refine ⟨object, klass, method, ?_, hbody⟩
  exact
    { receiver := r.machine.frames.value?_define_push ..
      opened := by
        show Event.opened r.machine.frames.size ((r.bodies method).openerAt 1) ∈ _
        rw [hbody]
        exact List.mem_cons_of_mem _ (List.mem_cons_self ..)
      own := ⟨name, hown⟩
      captured := ⟨c, hclosure, r.machine.frames.parent?_define_push ..⟩
      heir := ⟨k, hobject, hl⟩ }

/-- What is bound is a grounded value. -/
theorem bound_grounds (h : Grounded r) {object : Nat} {body : Place} {c : Closure}
    (hm : Has r object body c) : Grounds r (bound body c object) fun v r' => v.Grounded r' := by
  refine (bindMethod_grounds h hm).bind' fun c' r₁ _ hu hc' => ?_
  refine .newClosure hu.grounded fun hclosure => .pure hclosure.grounded ⟨?_, ?_⟩
  · exact fun k he => by cases he
  · intro id he
    cases he
    refine ⟨c', Array.getElem?_push_size, ?_⟩
    rw [Record.bodies_addClosure]
    exact hc'.mono hclosure.toRetains

/-- The method of a class from which the class of the receiver inherits. -/
theorem boundMethod_grounds (h : Grounded r) {klass : Option Nat} {object : Nat}
    (hk : ∀ k, klass = some k → ∃ k₀, r.machine.objects.classOf? object = some k₀ ∧
      k ∈ r.machine.objects.lineage k₀) (name : Token) :
    Grounds r (boundMethod klass object name) fun v r' => v.Grounded r' := by
  refine .ofObjects h ?_
  cases hc : klass.bind fun k => r.machine.objects.methodClosure? k name.lexeme with
  | none => exact .raise h ..
  | some c =>
    obtain ⟨k, rfl, hfind⟩ := Option.bind_eq_some_iff.mp hc
    obtain ⟨k₀, hk₀, hl⟩ := hk k rfl
    exact .methodBody h (bound_grounds h (has_of_find hfind hk₀ hl))

theorem property_grounds (h : Grounded r) (object : Nat) (name : Token) :
    Grounds r (property object name) fun v r' => v.Grounded r' := by
  refine .ofObjects h ?_
  cases hv : r.machine.objects.field? object name.lexeme with
  | some v => exact .pure h (h.fields object name.lexeme v hv)
  | none =>
    refine .ofObjects h (boundMethod_grounds h (fun k hk => ⟨k, hk, ?_⟩) name)
    exact Objects.mem_lineage_self _ k

/-- The superclass is in the lineage of the receiver, which therefore has its methods. -/
theorem superMethod_grounds (h : Grounded r) {id : NodeId} {keyword name : Token}
    (hrefers : RefersSuper p r id keyword name) :
    Grounds r (superMethod id keyword name) fun v r' => v.Grounded r' := by
  obtain ⟨k, object, k₀, hreference, hk₀, hl⟩ := hrefers.reference h
  have hlift : lift (Run.superReference id keyword) r =
      .ok (.callable (.klass k), .object object) r := by
    unfold lift
    rw [hreference]
  refine .of_upholds (.refl h) (u := boundMethod (some k) object name) ?_
    (boundMethod_grounds h (fun k' hk' => ?_) name)
  · exact (bind_apply _ _ r).trans (by rw [hlift])
  · cases hk'
    exact ⟨k₀, hk₀, hl⟩

/-- The frame of an activation of a method is made inside of the one in which
the method was bound. -/
theorem activation_of_grounded {p : Place} {c : Closure} (h : c.Grounded r p) :
    ∀ o, p.openerAt 0 = some o → o.kind.isMethod = true →
      ∃ object klass method, Binds r c.captured object klass method ∧
        (r.bodies method).openerAt 0 = some o := by
  intro o ho hm
  obtain ⟨object, klass, method, hb, hbody⟩ := h o ho hm
  exact ⟨object, klass, method, hb, hbody ▸ ho⟩

/-- The parameters of a closure are identifiers. -/
theorem isName_of_param (hplaced : ∀ x, q x → x.Placed) {p : Place} {c : Closure}
    (hc : ReadyClosure q r p c) {vs : List Value} :
    ∀ e ∈ c.declaration.params.zip vs, e.1.IsName := by
  intro e he
  obtain ⟨outer, hstands, -⟩ := hc
  obtain ⟨a, ha⟩ := hstands.params e.1 (List.of_mem_zip he).1
  exact (hplaced _ ha).names _ _ rfl

/-! ### Declarations -/

/-- The value of a function that is no method. -/
theorem functionValue_grounds (h : Grounded r) (f : FunDecl) :
    Grounds r (functionValue p f) fun v r' => v.Grounded r' := by
  refine .activeFrame h (.newClosure h fun hu => .pure hu.grounded ⟨?_, ?_⟩)
  · exact fun k he => by cases he
  · intro id he
    cases he
    refine ⟨_, Array.getElem?_push_size, fun o ho hk => ?_⟩
    rw [Record.bodies_addClosure, Place.openerAt, Surroundings.openerAt, Place.regions_body] at ho
    cases ho
    cases hk

theorem methodTable_grounds (h : Grounded r) {inner : Place} {o : Opener}
    (ho : inner.openerAt 0 = some o) {frame : FrameId} {i : Nat} {fs : List FunDecl}
    {table : NameTable Nat} (ht : Captured r frame o table) :
    Grounds r (methodTable frame inner i fs table) fun table' r' => Captured r' frame o table' := by
  induction fs generalizing r inner i table with
  | nil => exact .pure h ht
  | cons f fs ih =>
    refine .newClosure h fun hu => @ih _ hu.grounded (inner.afterMethod f) ho (i + 1) _ ?_
    intro name id hid
    rw [NameTable.find?_insert] at hid
    split at hid
    · cases hid
      refine ⟨_, Array.getElem?_push_size, rfl, ?_⟩
      rw [Record.bodies_addClosure, Place.openerAt, Surroundings.openerAt, Place.regions_body]
      exact ho
    · exact ht.mono hu.toLater name id hid

/-- The frame that the methods of a class capture holds the superclass. -/
theorem methodFrame_grounds (h : Grounded r) (name : Token) (frame : FrameId)
    (superclass : Option Expr) {k : Option Nat} (hk : k.isSome = superclass.isSome)
    (hlt : ∀ k', k = some k' → k' < r.machine.objects.classes.size) :
    Grounds r (methodFrame (p.methods name superclass) frame k) fun captured r' =>
      ∀ k', k = some k' →
        r'.machine.frames.value? captured "super" = some (.callable (.klass k')) := by
  cases k with
  | none => exact .pure h fun k' he => by cases he
  | some k =>
    -- the region of `super` is there only if a superclass is written
    cases superclass with
    | none => cases hk
    | some e =>
      refine .openFrame h (fun o ho hm => ?_) fun hpush => ?_
      · cases ho
        cases hm
      refine .define hpush.grounded (r.lt_size_push ..) (fun _ _ => ?_)
        ⟨fun k' he => ?_, fun id he => ?_⟩ fun hwrite => .pure hwrite.grounded fun k' he => ?_
      · exact (r.machine.frames.value?_push ..).trans
          (r.machine.frames.value?_of_size_le (Nat.le_refl _) _)
      · cases he
        exact hlt k rfl
      · cases he
      · cases he
        exact r.machine.frames.value?_define_push ..

/-- A new class, the superclass of which is there. -/
theorem newClass_grounds (h : Grounded r) {c : ClassObject}
    (hlt : ∀ k, c.superclass = some k → k < r.machine.objects.classes.size) {f : FrameId}
    {o : Opener} (hd : c.DeclaredIn r f o) :
    Grounds r (lift (Run.newClass c)) fun k r' => k < r'.machine.objects.classes.size := by
  refine ⟨⟨.withObjects rfl (r.machine.objects.extends_addClass c), h.addClass hlt hd⟩, ?_⟩
  show _ < (r.machine.objects.classes.push c).size
  rw [Array.size_push]
  exact Nat.lt_succ_self _

/-- The region of `this` around the methods of a class. -/
theorem openerAt_methods (p : Place) (name : Token) {superclass : Option Expr}
    {k : Option Nat} (hk : k.isSome = superclass.isSome) :
    ∃ o, (p.methods name superclass).openerAt 0 = some o ∧
      o.kind = .receiver (if k.isSome then .subclass else .rootClass) := by
  cases superclass with
  | none => exact ⟨_, rfl, by rw [hk]; rfl⟩
  | some e => exact ⟨_, rfl, by rw [hk]; rfl⟩

/-- The declaration of a class whose superclass is known. -/
theorem declareClass_grounds (h : Lawful ds q r) (hr : Grounded r) (hq : ∀ x, q x → x.Good ds)
    {name : Token} {superclass : Option Expr} {methods : List FunDecl}
    (hs : (Stmt.classDecl name superclass methods).Ready q p) (hf : p.Fits r) {k : Option Nat}
    (hk : k.isSome = superclass.isSome)
    (hlt : ∀ k', k = some k' → k' < r.machine.objects.classes.size) :
    Grounds r (declareClass p (p.methods name superclass) name k methods) fun _ _ => True := by
  have hn : name.IsName := hs.proper.declared_isName rfl
  have hknown := hf.ownCell_known name.lexeme
  have hcont : Continues ds q r (r.write (r.ownCell p name.lexeme) .nil) := .write h hknown .nil
  have hfits := hs.place.fits_declared h hf name .nil
  obtain ⟨o, ho, hkind⟩ := openerAt_methods p name hk
  refine .activeFrame hr (.define hr (hknown.lt_size h) (not_word hn) .nil fun hwrite => ?_)
  refine (methodFrame_grounds hwrite.grounded name _ superclass hk fun k' he =>
    Nat.lt_of_lt_of_le (hlt k' he) hwrite.objects.size_le).bind
    (methodFrame_ensures hcont.lawful hfits superclass k hk)
    fun captured r₂ hc₂ hcap hu₂ hsuper => ?_
  obtain ⟨g, outer, hregions, hg, hcap⟩ := hcap
  refine (methodTable_grounds hu₂.grounded ho fun name id hid => by cases hid).bind
    (methodTable_ensures hc₂.lawful hq hregions hg hcap hs.methods fun x id hid => by cases hid)
    fun table r₃ hc₃ htable hu₃ hcaptured => ?_
  have hu := hwrite.trans (hu₂.trans hu₃)
  have hdeclared : ClassObject.DeclaredIn r₃ captured o ⟨name.lexeme, k, table⟩ :=
    ⟨hcaptured, fun k' he => hu₃.words .super_ captured _ (hsuper k' he), hkind⟩
  refine (newClass_grounds hu₃.grounded
    (fun k' he => Nat.lt_of_lt_of_le (hlt k' he) hu.objects.size_le) hdeclared).bind
    (newClass_ensures hc₃.lawful htable) fun klass r₄ hc₄ _ hu₄ hklass => ?_
  refine (Grounds.note hu₄.grounded _).bind (Ensures.note hc₄.lawful _)
    fun _ r₅ hc₅ _ hu₅ _ => ?_
  -- the class replaces the `nil` of its own declaration
  have hc := hc₂.trans (hc₃.trans (hc₄.trans hc₅))
  have hdef₅ : r₅.machine.frames.defines r₅.machine.active name.lexeme = true := by
    rw [hc.active]
    exact hc.defines _ _ (hf.defines_ownCell h name.lexeme .nil)
  have hlt₅ := (((hcont.trans hc).fits hf).ownCell_known name.lexeme).lt_size hc₅.lawful
  have hw : ∀ k : Keyword, (r₅.ownCell p name.lexeme).name = k.text →
      r₅.machine.frames.value? (r₅.ownCell p name.lexeme).activation
        (r₅.ownCell p name.lexeme).name = none := not_word hn
  refine Leads.of_ok (assign_apply hdef₅)
    ⟨.write hlt₅ hw, hu₅.grounded.write hlt₅ hw ⟨fun k' he => ?_, fun id he => ?_⟩⟩ trivial
  · cases he
    exact Nat.lt_of_lt_of_le hklass hu₅.objects.size_le
  · cases he

end Traced

end Lox
