/-
Functions, methods and classes.

* `defineAll_ensures`, `bindMethod_ensures` — the variables of a new frame;
* `boundMethod_ensures` — a method that is found is ready, and is sound once it is bound;
* `functionValue_ready` — a function is a sound value as soon as its name has a variable;
* `Place.Regular.fits_declared` — the chain of frames fits what stands inside of a declared class;
* `declareClass_ensures` — the methods of a declared class are ready.

Design notes: a closure sees its own name, which gets its variable only behind it.  Between the two
the closure is among the objects and no value refers to it, so that the record stays lawful.
-/
import Lox.Proofs.Run.Ensures

namespace Lox

/-! ### Functions and methods -/

namespace Traced

variable {ds : Distances} {q : Site → Prop} {r : Record}

/-- Variables of a frame get sound values. -/
theorem defineAll_ensures (h : Lawful ds q r) {frame : FrameId} {opener : Option Opener}
    (hc : ∀ x, Cell.Known r ⟨frame, opener, x⟩) {entries : List (Token × Value)}
    (hv : ∀ e ∈ entries, e.2.Sound q r) :
    Ensures ds q r (defineAll frame opener entries) fun _ r' =>
      ∀ e ∈ entries, r'.machine.frames.defines frame e.1.lexeme = true := by
  induction entries generalizing r with
  | nil => exact .pure h fun e he => absurd he (by simp)
  | cons e rest ih =>
    obtain ⟨name, v⟩ := e
    have hsound := (hv (name, v) (List.mem_cons_self ..)).write h (hc name.lexeme) v
    have hcont := Continues.write h (hc name.lexeme) hsound
    have hknown : ∀ x, Cell.Known (r.write ⟨frame, opener, name.lexeme⟩ v) ⟨frame, opener, x⟩ :=
      fun x => (hc x).imp id fun ho => List.mem_cons_of_mem _ ho
    refine .define h (hc name.lexeme) hsound ?_
    refine (ih hcont.lawful hknown fun e he =>
      hcont.sound (hv e (List.mem_cons_of_mem _ he))).weaken fun _ r' hc' hrest e he => ?_
    rcases List.mem_cons.mp he with rfl | he
    · exact hc'.defines _ _
        (r.machine.frames.defines_define_self ((hc name.lexeme).lt_size h) name.lexeme v)
    · exact hrest e he

/-- In the frame of a call each parameter gets the argument it stands for. -/
theorem defineParams_ensures (h : Lawful ds q r) (c : Closure) (opener : Option Opener)
    {vs : List Value} (hvs : ∀ v ∈ vs, v.Sound q r) :
    Ensures ds q (r.push c.captured opener)
      (defineAll r.machine.frames.size opener (c.declaration.params.zip vs)) fun _ r' =>
      ∀ e ∈ c.declaration.params.zip vs,
        r'.machine.frames.defines r.machine.frames.size e.1.lexeme = true := by
  have hpush := Continues.push h c.captured opener
  exact defineAll_ensures hpush.lawful (r.known_push c.captured opener) fun e he =>
    hpush.sound (hvs _ (List.of_mem_zip he).2)

/-- A method becomes ready when it is bound. -/
theorem bindMethod_ensures (h : Lawful ds q r) {body : Place} {c : Closure}
    (hm : ReadyMethod q r body c) (object : Nat) :
    Ensures ds q r (bindMethod body c object) fun c' r' =>
      ReadyClosure q r' body c' ∧ c'.declaration = c.declaration := by
  obtain ⟨g, outer, hs, hg, hf⟩ := hm
  obtain ⟨inner, hregions, -⟩ := hs.regions
  have hopener : body.openerAt 1 = some g.opener := by
    rw [Place.openerAt, Surroundings.openerAt, hregions]
    rfl
  unfold bindMethod
  rw [hopener]
  have hpush := hf.push h g
  have hlaw := h.push c.captured (some g.opener)
  have hknown : Cell.Known (r.push c.captured (some g.opener))
      ⟨r.machine.frames.size, some g.opener, "this"⟩ := Or.inr hpush.1
  refine .openFrame h (.define hlaw hknown .object ?_)
  have hcont := Continues.write (v := .object object) hlaw hknown .object
  refine .pure hcont.lawful ⟨⟨g :: outer, hs, ?_⟩, rfl⟩
  refine (hpush.mono hcont.toLater fun _ hx => hx).defined fun x hx _ => ?_
  rw [hg, List.mem_singleton] at hx
  subst hx
  exact Frames.defines_define_self _ (hknown.lt_size hlaw) "this" _

/-- What is bound is a sound value. -/
theorem bound_ensures (h : Lawful ds q r) {body : Place} {c : Closure}
    (hm : ReadyMethod q r body c) (object : Nat) :
    Ensures ds q r (bound body c object) fun v r' => v.Sound q r' := by
  refine (bindMethod_ensures h hm object).bind fun c' r₁ hc hready => ?_
  refine .newClosure hc.lawful (.pure (hc.lawful.addClosure body c') ?_)
  intro id he
  cases he
  refine ⟨c', Array.getElem?_push_size, ?_⟩
  rw [Record.bodies_addClosure]
  exact hready.1.mono (fun _ hx => hx) (.addClosure body c')

/-- A method that is found in a class is ready to be bound. -/
theorem readyMethod_of_find (h : Lawful ds q r) {k : Nat} {name : String} {c : Closure}
    (hc : r.machine.objects.methodClosure? k name = some c) :
    ReadyMethod q r (r.methodBody (some k) name) c := by
  unfold Objects.methodClosure? at hc
  obtain ⟨id, hid, hclosure⟩ := Option.bind_eq_some_iff.mp hc
  have hbody : r.methodBody (some k) name = r.bodies id := by
    unfold Record.methodBody
    simp only [Option.bind_some, hid, Option.getD_some]
  unfold Objects.method? at hid
  obtain ⟨k', -, hown⟩ := List.exists_of_findSome?_eq_some hid
  obtain ⟨c', hc', hready⟩ := h.methods k' name id hown
  rw [hclosure] at hc'
  cases hc'
  rw [hbody]
  exact hready

theorem boundMethod_ensures (h : Lawful ds q r) (klass : Option Nat) (object : Nat)
    (name : Token) : Ensures ds q r (boundMethod klass object name) fun v r' => v.Sound q r' := by
  refine .ofObjects h ?_
  cases hc : klass.bind fun k => r.machine.objects.methodClosure? k name.lexeme with
  | none => exact .raise h ..
  | some c =>
    obtain ⟨k, rfl, hk⟩ := Option.bind_eq_some_iff.mp hc
    exact .methodBody h (bound_ensures h (readyMethod_of_find h hk) object)

theorem property_ensures (h : Lawful ds q r) (object : Nat) (name : Token) :
    Ensures ds q r (property object name) fun v r' => v.Sound q r' := by
  refine .ofObjects h ?_
  cases hv : r.machine.objects.field? object name.lexeme with
  | some v => exact .pure h (h.fields object name.lexeme v hv)
  | none => exact .ofObjects h (boundMethod_ensures h ..)

theorem superMethod_ensures (h : Lawful ds q r) (id : NodeId) (keyword method : Token) :
    Ensures ds q r (superMethod id keyword method) fun v r' => v.Sound q r' := by
  have hs : Ensures ds q r (lift (Run.superReference id keyword)) fun _ _ => True :=
    .still h (.superReference id keyword) fun _ _ => trivial
  refine hs.bind fun vs r₁ hc _ => ?_
  split
  · exact boundMethod_ensures hc.lawful ..
  · exact .raise hc.lawful ..

/-! ### Declarations -/

end Traced

/-- The region of the body of a function, in which its parameters are visible. -/
theorem Place.regions_body (p : Place) (s : Surrounding) (f : FunDecl) :
    (p.body s f).around.regions =
      ⟨⟨.routine s, p.around.position⟩, (f.params.map Token.lexeme).reverse, none⟩ ::
        p.around.regions := by
  have := Surroundings.regions_declareAll (a := p.around.enter (.routine s) []) rfl rfl f.params
  rwa [List.append_nil] at this

/-- The body of a ready function stands inside of the regions around the function. -/
theorem FunDecl.Ready.stands {q : Site → Prop} {p : Place} {s : Surrounding} {f : FunDecl}
    (h : f.Ready q p s) : f.Stands q (p.body s f) p.around.regions := by
  refine ⟨exists_paramSite h.params, h.body, _, p.regions_body s f, rfl, fun x hx => ?_⟩
  obtain ⟨t, ht, he⟩ := List.mem_map.mp (List.mem_reverse.mp hx)
  exact ⟨t, ht, he⟩

/-- The closures of a table of methods are ready, for methods of a class inside of given regions. -/
def MethodsReady (q : Site → Prop) (r : Record) (table : NameTable Nat) : Prop :=
  ∀ x id, table.find? x = some id →
    ∃ c, r.machine.objects.closures[id]? = some c ∧ ReadyMethod q r (r.bodies id) c

theorem MethodsReady.mono {q : Site → Prop} {r r' : Record} (h : Later r r')
    {table : NameTable Nat} (ht : MethodsReady q r table) : MethodsReady q r' table :=
  fun x id hid => h.readyMethod (fun _ hx => hx) (ht x id hid)

namespace Traced

variable {ds : Distances} {q : Site → Prop} {r : Record} {p : Place}

/-- A function is a sound value where its name has a variable. -/
theorem functionValue_ready {f : FunDecl} (hs : (Stmt.function f).Ready q p)
    {id : Nat} (hc : r.machine.objects.closures[id]? = some ⟨f, r.machine.active, false⟩)
    (hb : r.bodies id = (p.declare f.name).body .function f)
    (hf : Fits r (fun _ => False) p.around.regions r.machine.active)
    (hd : r.machine.frames.defines r.machine.active f.name.lexeme = true) :
    Value.Sound q r (.callable (.closure id)) := by
  intro id' he
  cases he
  refine ⟨_, hc, ?_⟩
  rw [hb]
  exact ⟨_, hs.function.2.stands, hf.declare hd⟩

/-- A name that is declared at a place gets a value, which is sound where the name has a
variable. -/
theorem declare_ensures (h : Lawful ds q r) (hf : p.Fits r) (name : Token) {v : Value}
    (hv : v.Sound q (r.write (r.ownCell p name.lexeme) v)) :
    Ensures ds q r (declare p name v) fun _ r' =>
      r'.machine.frames.defines r'.machine.active name.lexeme = true := by
  have he : declare p name v r = .ok () (r.write (r.ownCell p name.lexeme) v) := rfl
  unfold Ensures
  rw [he]
  exact ⟨.write h (hf.ownCell_known name.lexeme) hv, hf.defines_ownCell h name.lexeme v⟩

/-- The declaration of a function. -/
theorem declareFunction_ensures (h : Lawful ds q r) {f : FunDecl}
    (hs : (Stmt.function f).Ready q p) (hf : p.Fits r) :
    Ensures ds q r (do let v ← functionValue p f; declare p f.name v) fun _ r' =>
      r'.machine.frames.defines r'.machine.active f.name.lexeme = true := by
  have hcont := Continues.addClosure h ((p.declare f.name).body .function f)
    ⟨f, r.machine.active, false⟩
  refine Ensures.of_continues hcont (u := declare p f.name _) rfl ?_
  refine declare_ensures hcont.lawful (hcont.fits hf) f.name ?_
  have hlt := ((hcont.fits hf).ownCell_known f.name.lexeme).lt_size hcont.lawful
  refine functionValue_ready hs Array.getElem?_push_size
    (r.bodies_addClosure _ ⟨f, r.machine.active, false⟩) ?_
    ((hcont.fits hf).defines_ownCell hcont.lawful f.name.lexeme _)
  exact (hs.place.fits hf).mono (hcont.toLater.trans (.write hlt _)) fun _ hx => hx

theorem methodTable_ensures (h : Lawful ds q r) (hq : ∀ x, q x → x.Good ds) {inner : Place}
    {g : Region} {outer : List Region} (hregions : inner.around.regions = g :: outer)
    (hg : g.names = ["this"]) {frame : FrameId} (hf : Fits r (fun _ => False) outer frame)
    {i : Nat} {fs : List FunDecl} (hfs : FunDecl.AllReady q inner i fs) {table : NameTable Nat}
    (ht : MethodsReady q r table) :
    Ensures ds q r (methodTable frame inner i fs table) fun table' r' =>
      MethodsReady q r' table' := by
  induction fs generalizing r inner i table with
  | nil => exact .pure h ht
  | cons f fs ih =>
    obtain ⟨hbody, hrest⟩ := hfs.cons hq
    have hcont := Continues.addClosure h ((inner.child i).body f.methodContext f)
      ⟨f, frame, f.isInitializer⟩
    have hnext : (inner.afterMethod f).around.regions = g :: outer := hregions
    refine .newClosure h (ih hcont.lawful hnext (hf.mono hcont.toLater fun _ hx => hx) hrest ?_)
    intro x id hid
    rw [NameTable.find?_insert] at hid
    split at hid
    · cases hid
      refine ⟨_, Array.getElem?_push_size, ?_⟩
      rw [Record.bodies_addClosure]
      have hstands := hbody.stands
      rw [show (inner.child i).around.regions = g :: outer from hregions] at hstands
      exact ⟨g, outer, hstands, hg, hf.mono hcont.toLater fun _ hx => hx⟩
    · exact ht.mono hcont.toLater x id hid

/-- The frame that the methods of a class capture, and the regions around that of `this`. -/
theorem methodFrame_ensures (h : Lawful ds q r) {name : Token} {frame : FrameId}
    (hf : Fits r (fun _ => False) (p.around.declare name).regions frame)
    (superclass : Option Expr) (k : Option Nat) (hk : k.isSome = superclass.isSome) :
    Ensures ds q r (methodFrame (p.methods name superclass) frame k) fun captured r' =>
      ∃ g outer, (p.methods name superclass).around.regions = g :: outer ∧ g.names = ["this"] ∧
        Fits r' (fun _ => False) outer captured := by
  cases superclass with
  | none =>
    cases k with
    | none => exact .pure h ⟨_, _, rfl, rfl, hf⟩
    | some k => cases hk
  | some e =>
    cases k with
    | none => cases hk
    | some k =>
      have hpush := hf.push h ⟨⟨.ancestor, (p.around.declare name).position⟩, ["super"], none⟩
      have hlaw := h.push frame (some ⟨.ancestor, (p.around.declare name).position⟩)
      have hknown : Cell.Known (r.push frame (some ⟨.ancestor, (p.around.declare name).position⟩))
          ⟨r.machine.frames.size, some ⟨.ancestor, (p.around.declare name).position⟩, "super"⟩ :=
        Or.inr hpush.1
      refine .openFrame h (.define hlaw hknown .klass ?_)
      have hcont := Continues.write (v := .callable (.klass k)) hlaw hknown .klass
      refine .pure hcont.lawful ⟨_, _, rfl, rfl, ?_⟩
      refine (hpush.mono hcont.toLater fun _ hx => hx).defined fun x hx _ => ?_
      cases List.mem_singleton.mp hx
      exact Frames.defines_define_self _ (hknown.lt_size hlaw) "super" _

/-- A new class whose methods are ready. -/
theorem newClass_ensures (h : Lawful ds q r) {c : ClassObject} (hc : MethodsReady q r c.methods) :
    Ensures ds q r (lift (Run.newClass c)) fun _ _ => True := by
  have hlaw : Lawful ds q (r.withObjects
      { r.machine.objects with classes := r.machine.objects.classes.push c }) := by
    refine h.objects rfl rfl h.fields fun k x id hid => ?_
    unfold Objects.ownMethod? at hid
    simp only [Array.getElem?_push] at hid
    split at hid
    · exact hc x id hid
    · exact h.methods k x id hid
  exact ⟨⟨.of_eq rfl rfl rfl rfl, hlaw, rfl⟩, trivial⟩

/-- The nearest variable of a name that was declared at a place is that of the declaration. -/
theorem assign_apply {name : Token} {v : Value}
    (hd : r.machine.frames.defines r.machine.active name.lexeme = true) :
    assign p name v r = .ok () (r.write (r.ownCell p name.lexeme) v) := by
  unfold assign noting Run.assign
  rw [Frames.holder?_self _ hd]
  rfl

/-- The declaration of a class whose superclass is known. -/
theorem declareClass_ensures (h : Lawful ds q r) (hq : ∀ x, q x → x.Good ds) {name : Token}
    {superclass : Option Expr} {methods : List FunDecl}
    (hs : (Stmt.classDecl name superclass methods).Ready q p) (hf : p.Fits r) {k : Option Nat}
    (hk : k.isSome = superclass.isSome) :
    Ensures ds q r (declareClass p (p.methods name superclass) name k methods) fun _ r' =>
      r'.machine.frames.defines r'.machine.active name.lexeme = true := by
  have hknown := hf.ownCell_known name.lexeme
  have hcont : Continues ds q r (r.write (r.ownCell p name.lexeme) .nil) := .write h hknown .nil
  have hfits := hs.place.fits_declared h hf name .nil
  refine .activeFrame h (.define h hknown .nil ?_)
  refine (methodFrame_ensures hcont.lawful hfits superclass k hk).bind
    fun captured r₂ hc₂ hcap => ?_
  obtain ⟨g, outer, hregions, hg, hcap⟩ := hcap
  refine (methodTable_ensures hc₂.lawful hq hregions hg hcap hs.methods
    (fun x id hid => by cases hid)).bind fun table r₃ hc₃ htable => ?_
  refine (newClass_ensures hc₃.lawful htable).bind fun klass r₄ hc₄ _ => ?_
  refine (Ensures.note hc₄.lawful _).bind fun _ r₅ hc₅ _ => ?_
  have hlater := hc₂.trans (hc₃.trans (hc₄.trans hc₅))
  have hc := hcont.trans hlater
  -- the class replaces the `nil` of its own declaration
  have hdef₅ : r₅.machine.frames.defines r₅.machine.active name.lexeme = true := by
    rw [hc.active]
    exact hlater.defines _ _ (hf.defines_ownCell h name.lexeme .nil)
  have hf₅ := hc.fits hf
  unfold Ensures
  rw [assign_apply hdef₅]
  exact ⟨.write hc₅.lawful (hf₅.ownCell_known name.lexeme) .klass,
    hf₅.defines_ownCell hc₅.lawful name.lexeme _⟩

end Traced

end Lox
