/-
Globals and local code.

A statement of the top level changes a global only if it declares it, or if an assignment is met
that has no distance.  Code in scopes, functions and methods may declare and assign as many
variables of that name as it likes: their frames are never that of the globals.

* `Territory.Inside`, `Territory.Keeps` — a record whose program runs in a territory, and what such
  a run makes of it: the one global stays as it is;
* `Traced.Stays`, `Traced.Remains` — runs that keep it, without and with all that is known of the
  frames;
* `AllStay`, `allStay` — evaluation does so, with any fuel;
* `Session.Executes` — a statement of a source is executed on a machine;
* `session_spares_globals` — a global that a statement does not declare, and that no function it can
  get at assigns, is left as it was.

Design notes: the induction is on the fuel, as in `Conformance`, from which it has that a distance
never leads to the globals.  What a run can get at is a territory that does not change.
-/
import Lox.Proofs.Run.Agreement
import Lox.Proofs.Run.Erasure
import Lox.Proofs.Run.Growth
import Lox.Proofs.Run.Reach
import Lox.Proofs.Run.Regime

namespace Lox

/-! ### Runs in a territory -/

namespace Territory

variable (T : Territory)

/-- A lawful record, the program of which is in a frame of the territory. -/
structure Inside (ds : Distances) (q : Site → Prop) (r : Record) : Prop where
  lawful : Lawful ds q r
  encloses : T.Encloses r.machine
  active : T.has (.frame r.machine.active)

/-- What a run in the territory makes of a record: nothing leads out of it, and the global has the
value that it had, or still has none. -/
structure Keeps (r r' : Record) : Prop where
  encloses : T.Encloses r'.machine
  global : r'.machine.frames.value? globals T.name = r.machine.frames.value? globals T.name

variable {T} {r r' r'' : Record}

theorem Keeps.refl (h : T.Encloses r.machine) : T.Keeps r r := ⟨h, rfl⟩

theorem Keeps.trans (h : T.Keeps r r') (h' : T.Keeps r' r'') : T.Keeps r r'' :=
  ⟨h'.encloses, h'.global.trans h.global⟩

/-- A write in the territory to any variable but the global. -/
theorem Keeps.write (h : T.Encloses r.machine) {c : Cell} {v : Value} (hv : T.Holds v)
    (hne : ¬ (c.activation = globals ∧ c.name = T.name)) : T.Keeps r (r.write c v) :=
  ⟨h.define c.activation c.name hv, r.machine.frames.value?_define_of_ne hne v⟩

theorem Keeps.push (h : T.Encloses r.machine) {parent : FrameId} (hp : T.has (.frame parent))
    (opener : Option Opener) : T.Keeps r (r.push parent opener) :=
  ⟨h.push hp, r.machine.frames.value?_push ..⟩

/-- A new frame belongs to the territory. -/
theorem Encloses.newFrame {m : Machine} (h : T.Encloses m) : T.has (.frame m.frames.size) :=
  h.made _ (Nat.lt_irrefl _)

theorem Encloses.newFrame_ne {m : Machine} (h : T.Encloses m) : m.frames.size ≠ globals :=
  Nat.ne_of_gt h.globals_lt

theorem Encloses.newClosure {m : Machine} (h : T.Encloses m) :
    T.has (.closure m.objects.closures.size) :=
  h.made _ (Nat.lt_irrefl _)

end Territory

namespace Traced

variable {α β : Type} {ds : Distances} {q : Site → Prop} {T : Territory} {r : Record}

/-- However it ends, the run keeps the global, and something holds of what it yields. -/
def Stays (T : Territory) (r : Record) (t : Traced α) (post : α → Prop) : Prop :=
  Leads T.Keeps r t fun a _ => post a

/-- The run also leads to a lawful record. -/
def Remains (ds : Distances) (q : Site → Prop) (T : Territory) (r : Record) (t : Traced α)
    (post : α → Record → Prop) : Prop :=
  Leads (fun r r' => Continues ds q r r' ∧ T.Keeps r r') r t post

namespace Stays

variable {t : Traced α} {post post' : α → Prop}

theorem pure (h : T.Encloses r.machine) {a : α} (hp : post a) : Stays T r (Pure.pure a) post :=
  Leads.pure (.refl h) hp

/-- A run that goes on behind a record that keeps the global. -/
theorem of_keeps {r₁ : Record} (hk : T.Keeps r r₁) {u : Traced α} (he : t r = u r₁)
    (h : Stays T r₁ u post) : Stays T r t post :=
  Leads.of_step (fun _ hk' => hk.trans hk') he h

/-- Two runs one after the other. -/
theorem bind (h : Stays T r t post) {next : α → Traced β} {postNext : β → Prop}
    (hn : ∀ a r', t r = .ok a r' → T.Encloses r'.machine → post a →
      Stays T r' (next a) postNext) : Stays T r (t >>= next) postNext :=
  Leads.bind (fun _ _ _ hk hk' => hk.trans hk') h fun a r' ht hk hp => hn a r' ht hk.encloses hp

theorem still (h : T.Encloses r.machine) {run : Run α} (hs : run.Still)
    (hp : ∀ a, run r.machine = .ok a r.machine → post a) : Stays T r (lift run) post :=
  Leads.still hs (.refl h) hp

/-- A run that only changes what is printed, and how often the clock was read. -/
theorem quiet (h : T.Encloses r.machine) {run : Run α} (hq : run.Quiet)
    (hp : ∀ a m, run r.machine = .ok a m → post a) : Stays T r (lift run) post :=
  Leads.quiet hq (fun m ha => ⟨h.of_eq ha.frames ha.objects, by
    show m.frames.value? globals T.name = _
    rw [ha.frames]⟩) hp

theorem halt (h : T.Encloses r.machine) (e : Halt) : Stays T r (lift (Run.halt e)) post :=
  .still h (.halt e) fun a he => by cases he

theorem raise (h : T.Encloses r.machine) (line : Nat) (fault : RuntimeFault) :
    Stays T r (lift (Run.raise line fault)) post :=
  .halt h _

/-- Reading something off the objects. -/
theorem ofObjects (h : T.Encloses r.machine) {f : Objects → α} {next : α → Traced β}
    {postNext : β → Prop} (hn : Stays T r (next (f r.machine.objects)) postNext) :
    Stays T r (lift (Run.ofObjects f) >>= next) postNext :=
  of_keeps (.refl h) rfl hn

theorem activeFrame (h : T.Encloses r.machine) {next : FrameId → Traced β} {postNext : β → Prop}
    (hn : Stays T r (next r.machine.active) postNext) :
    Stays T r (lift Run.activeFrame >>= next) postNext :=
  of_keeps (.refl h) rfl hn

theorem methodBody (h : T.Encloses r.machine) {klass : Option Nat} {name : String}
    {next : Place → Traced β} {postNext : β → Prop}
    (hn : Stays T r (next (r.methodBody klass name)) postNext) :
    Stays T r (Traced.methodBody klass name >>= next) postNext :=
  of_keeps (.refl h) rfl hn

theorem openFrame (h : T.Encloses r.machine) {parent : FrameId} {opener : Option Opener}
    (hp : T.has (.frame parent)) {next : FrameId → Traced β} {postNext : β → Prop}
    (hn : T.Encloses (r.push parent opener).machine →
      Stays T (r.push parent opener) (next r.machine.frames.size) postNext) :
    Stays T r (Traced.openFrame parent opener >>= next) postNext :=
  have hk := Territory.Keeps.push h hp opener
  of_keeps hk rfl (hn hk.encloses)

theorem newClosure (h : T.Encloses r.machine) {body : Place} {c : Closure}
    (hc : T.has (.frame c.captured)) (hs : T.Spared c.declaration.occurrences)
    {next : Nat → Traced β} {postNext : β → Prop}
    (hn : T.Encloses (r.addClosure body c).machine →
      Stays T (r.addClosure body c) (next r.machine.objects.closures.size) postNext) :
    Stays T r (Traced.newClosure body c >>= next) postNext :=
  have hk : T.Keeps r (r.addClosure body c) := ⟨h.addClosure hc hs, rfl⟩
  of_keeps hk rfl (hn hk.encloses)

theorem define (h : T.Encloses r.machine) {frame : FrameId} {opener : Option Opener}
    {name : String} {v : Value} (hv : T.Holds v) (hne : ¬ (frame = globals ∧ name = T.name))
    {next : Unit → Traced β} {postNext : β → Prop}
    (hn : T.Encloses (r.write ⟨frame, opener, name⟩ v).machine →
      Stays T (r.write ⟨frame, opener, name⟩ v) (next ()) postNext) :
    Stays T r (Traced.define frame opener name v >>= next) postNext :=
  have hk := Territory.Keeps.write (c := ⟨frame, opener, name⟩) h hv hne
  of_keeps hk rfl (hn hk.encloses)

/-- A deed is noted. -/
theorem note (h : T.Encloses r.machine) {deed : Machine → Deed} {next : Unit → Traced β}
    {postNext : β → Prop} (hn : Stays T (r.did (deed r.machine)) (next ()) postNext) :
    Stays T r (Traced.note deed >>= next) postNext :=
  have hk : T.Keeps r (r.did (deed r.machine)) := ⟨h, rfl⟩
  of_keeps hk rfl hn

theorem meet (h : T.Encloses r.machine) {p : Place} {node : Node}
    (ht : Stays T (r.meet p node) t post) : Stays T r (Traced.meet p node t) post :=
  have hk : T.Keeps r (r.meet p node) := ⟨h, rfl⟩
  of_keeps hk rfl ht

theorem newInstance {k : Nat} (h : T.Encloses (r.addInstance k).machine) {next : Nat → Traced β}
    {postNext : β → Prop}
    (hn : Stays T (r.addInstance k) (next r.machine.objects.instances.size) postNext) :
    Stays T r (lift (Run.newInstance k) >>= next) postNext :=
  have hk : T.Keeps r (r.addInstance k) := ⟨h, rfl⟩
  of_keeps hk rfl hn

/-- The objects change in a way that does not lead out of the territory. -/
theorem withObjects {o : Objects} (h : T.Encloses (r.withObjects o).machine) {u : Traced α}
    (he : t r = u (r.withObjects o)) (hu : Stays T (r.withObjects o) u post) : Stays T r t post :=
  have hk : T.Keeps r (r.withObjects o) := ⟨h, rfl⟩
  of_keeps hk he hu

theorem within {frame : FrameId} (ht : Stays T (r.inside frame) t post) :
    Stays T r (Traced.within frame t) post :=
  Leads.within (fun _ hk => ⟨hk.encloses.of_eq rfl rfl, hk.global⟩) ht fun _ _ hp => hp

/-- What is known of the frames is taken together with the global. -/
theorem remains (ht : Stays T r t post) {post' : α → Record → Prop}
    (he : Ensures ds q r t post') : Remains ds q T r t fun a r' => post a ∧ post' a r' := by
  cases hrun : t r with
  | ok a r' =>
    obtain ⟨hk, hp⟩ := Leads.ok ht hrun
    obtain ⟨hc, hp'⟩ := he.ok hrun
    exact Leads.of_ok hrun ⟨hc, hk⟩ ⟨hp, hp'⟩
  | error e r' => exact Leads.of_error hrun ⟨he.leads.error hrun, Leads.error ht hrun⟩

end Stays

/-- A run that goes on where another one has ended, with all that is known of the record there. -/
theorem Remains.bind {t : Traced α} {post : α → Record → Prop} (h : Remains ds q T r t post)
    (hin : T.Inside ds q r) {next : α → Traced β} {postNext : β → Prop}
    (hn : ∀ a r', T.Inside ds q r' → Continues ds q r r' → post a r' →
      Stays T r' (next a) postNext) : Stays T r (t >>= next) postNext := by
  cases ht : t r with
  | ok a r' =>
    obtain ⟨⟨hc, hk⟩, hp⟩ := Leads.ok h ht
    have hin' : T.Inside ds q r' := ⟨hc.lawful, hk.encloses, hc.active ▸ hin.active⟩
    refine .of_keeps hk (u := next a) ?_ (hn a r' hin' hc hp)
    rw [bind_apply, ht]
  | error e r' =>
    refine Leads.of_error (e := e) ?_ (Leads.error h ht).2
    rw [bind_apply, ht]

end Traced

/-! ### What operators yield -/

namespace Run

/-- What the run yields is no frame and no object. -/
def Inert (run : Run Value) : Prop :=
  ∀ m v m', run m = .ok v m' → v.ref? = none

theorem Inert.pure {v : Value} (h : v.ref? = none) : Inert (Pure.pure v) := by
  intro m u m' he
  cases he
  exact h

theorem Inert.halt (e : Halt) : Inert (Run.halt e) := fun m v m' he => by cases he

theorem applyUnary_inert (operator : Token) (v : Value) : (applyUnary operator v).Inert := by
  unfold applyUnary
  split
  · split
    · exact .pure rfl
    · exact .halt _
  · exact .pure rfl
  · exact .halt _

theorem add_inert (operator : Token) (a b : Value) : (add operator a b).Inert := by
  unfold add
  split
  · exact .pure rfl
  · exact .pure rfl
  · exact .halt _

theorem applyNumeric_inert (operator : Token) (x y : Float) :
    (applyNumeric operator x y).Inert := by
  unfold applyNumeric
  split
  any_goals exact .pure rfl
  exact .halt _

theorem applyBinary_inert (operator : Token) (a b : Value) : (applyBinary operator a b).Inert := by
  unfold applyBinary
  split
  · exact add_inert operator a b
  · exact .pure rfl
  · exact .pure rfl
  · split
    · exact applyNumeric_inert operator _ _
    · exact .halt _

end Run

namespace Traced

variable {ds : Distances} {q : Site → Prop} {T : Territory} {r : Record} {p : Place}

theorem plain_stays (h : T.Encloses r.machine) {run : Run Value} (hp : run.Plain)
    (hi : run.Inert) : Stays T r (lift run) T.Holds := by
  rcases hp with ⟨v, rfl, -⟩ | ⟨e, rfl⟩
  · exact .pure h (.of_none (hi r.machine v r.machine rfl))
  · exact .halt h e

/-! ### Variables -/

theorem getAt_stays (h : T.Encloses r.machine) {frame : FrameId} (hf : T.has (.frame frame))
    (d : Nat) (name : String) (line : Nat) :
    Stays T r (lift (Run.getAt frame d name line)) T.Holds :=
  .still h (.getAt frame d name line) fun _ hv => h.getAt hf (Run.eq_ok_of_ofExcept hv)

theorem lookUp_stays (hin : T.Inside ds q r) (id : NodeId) (name : Token) :
    Stays T r (lift (Run.lookUp id name)) T.Holds := by
  refine .still hin.encloses (.lookUp id name) fun v hv => ?_
  have hfound := Run.eq_ok_of_ofExcept hv
  split at hfound
  · exact hin.encloses.getAt hin.active hfound
  · exact hin.encloses.get hin.lawful.globals_parent hfound

/-- An assignment that may be met: it has a distance, which does not lead to the globals, or another
name. -/
theorem store_stays (hq : ∀ x, q x → x.Good ds) (hin : T.Inside ds q r) (hds : T.distances = ds)
    {id : NodeId} {name : Token} {e : Expr} (he : (Expr.assign id name e).Ready q p)
    (hf : p.Fits r) (hs : T.Spared (Expr.assign id name e).occurrences) {v : Value}
    (hv : T.Holds v) : Stays T r (store p id name v) fun _ => True := by
  have hwrite : ∀ f, ¬ (f = globals ∧ name.lexeme = T.name) →
      Stays T r (noting (Run.assignIn (some f) name v) fun r _ =>
        .wrote (r.visibleCell p name.lexeme) v) fun _ => True := fun f hne =>
    Leads.of_ok rfl ⟨hin.encloses.define f name.lexeme hv,
      r.machine.frames.value?_define_of_ne hne v⟩ trivial
  have hmiss : Stays T r (noting (Run.assignIn none name v) fun r _ =>
      .wrote (r.visibleCell p name.lexeme) v) fun _ => True :=
    Leads.of_error rfl (.refl hin.encloses)
  cases hd : r.machine.distances.find? id with
  | some d =>
    -- the frame at the distance was opened for a region of the program
    obtain ⟨f, -, hne, hat, -⟩ := (he.writeAgrees hq hin.lawful hf _ rfl).2 d hd
    refine .of_keeps (.refl hin.encloses) ?_ (hwrite f fun hg => hne hg.1)
    unfold store noting Run.store
    simp only [hd, hat]
  | none =>
    have hother : name.lexeme ≠ T.name := fun hn => hs _ (List.mem_cons_self ..)
      ⟨rfl, hn, by rw [hds, ← hin.lawful.distances]; exact hd⟩
    cases hg : r.machine.frames.holder? globals name.lexeme with
    | some f =>
      refine .of_keeps (.refl hin.encloses) ?_ (hwrite f fun hn => hother hn.2)
      unfold store noting Run.store
      simp only [hd, hg]
    | none =>
      refine .of_keeps (.refl hin.encloses) ?_ hmiss
      unfold store noting Run.store
      simp only [hd, hg]

/-- A name that is declared at a place gets a value. -/
theorem declare_stays (h : T.Encloses r.machine) {name : Token} {v : Value} (hv : T.Holds v)
    (hd : name.lexeme = T.name → r.machine.active ≠ globals) :
    Stays T r (declare p name v) fun _ => True :=
  .activeFrame h <| Leads.of_ok rfl
    (Territory.Keeps.write (c := r.ownCell p name.lexeme) h hv fun hn => hd hn.2 hn.1) trivial

/-- Variables of a frame that is not that of the globals get values. -/
theorem defineAll_stays (h : T.Encloses r.machine) {frame : FrameId} {opener : Option Opener}
    (hne : frame ≠ globals) {entries : List (Token × Value)} (hv : ∀ e ∈ entries, T.Holds e.2) :
    Stays T r (defineAll frame opener entries) fun _ => True := by
  induction entries generalizing r with
  | nil => exact .pure h trivial
  | cons e rest ih =>
    exact .define h (hv e (List.mem_cons_self ..)) (fun hn => hne hn.1) fun h' =>
      ih h' fun e' he' => hv e' (List.mem_cons_of_mem _ he')

/-! ### Methods -/

/-- A method of the territory is bound, in a new frame. -/
theorem bindMethod_stays (h : T.Encloses r.machine) {body : Place} {c : Closure} {object : Nat}
    (hc : T.has (.frame c.captured)) (ho : T.has (.object object)) :
    Stays T r (bindMethod body c object) fun c' =>
      T.has (.frame c'.captured) ∧ c'.declaration = c.declaration :=
  .openFrame h hc fun hpush => .define hpush (.object ho) (fun hn => h.newFrame_ne hn.1)
    fun hwrite => .pure hwrite ⟨h.newFrame, rfl⟩

theorem boundMethod_stays (h : T.Encloses r.machine) {klass : Option Nat} {object : Nat}
    (hk : ∀ k, klass = some k → T.has (.klass k)) (ho : T.has (.object object)) (name : Token) :
    Stays T r (boundMethod klass object name) T.Holds := by
  refine .ofObjects h ?_
  cases hc : klass.bind fun k => r.machine.objects.methodClosure? k name.lexeme with
  | none => exact .raise h ..
  | some c =>
    obtain ⟨k, rfl, hfind⟩ := Option.bind_eq_some_iff.mp hc
    obtain ⟨hcaptured, hspared⟩ := h.methodClosure? (hk k rfl) hfind
    refine .methodBody h ((bindMethod_stays h hcaptured ho).bind fun c' r₁ _ h₁ hc' => ?_)
    exact .newClosure h₁ hc'.1 (hc'.2 ▸ hspared) fun h₂ => .pure h₂ (.closure h₁.newClosure)

theorem property_stays (h : T.Encloses r.machine) {object : Nat} (ho : T.has (.object object))
    (name : Token) : Stays T r (property object name) T.Holds := by
  refine .ofObjects h ?_
  cases hv : r.machine.objects.field? object name.lexeme with
  | some v => exact .pure h (h.fields object _ v hv ho)
  | none =>
    exact .ofObjects h (boundMethod_stays h (fun k hk => h.classOf object k hk ho) ho name)

/-- The superclass and the receiver are in the territory. -/
theorem superReference_stays (h : T.Encloses r.machine) (ha : T.has (.frame r.machine.active))
    (id : NodeId) (keyword : Token) : Stays T r (lift (Run.superReference id keyword)) fun found =>
      T.Holds found.1 ∧ T.Holds found.2 := by
  refine .still h (.superReference id keyword) fun found hfound => ?_
  rw [Run.superReference_apply] at hfound
  cases hd : r.machine.distances.find? id with
  | none =>
    rw [hd] at hfound
    cases hfound
  | some d =>
    rw [hd] at hfound
    simp only at hfound
    cases hs : r.machine.frames.getAt r.machine.active d "super" keyword.line with
    | error e =>
      rw [hs] at hfound
      cases hfound
    | ok superclass =>
      cases ht : r.machine.frames.getAt r.machine.active (d - 1) "this" keyword.line with
      | error e =>
        rw [hs, ht] at hfound
        cases hfound
      | ok receiver =>
        rw [hs, ht] at hfound
        cases hfound
        exact ⟨h.getAt ha hs, h.getAt ha ht⟩

theorem superMethod_stays (h : T.Encloses r.machine) (ha : T.has (.frame r.machine.active))
    (id : NodeId) (keyword method : Token) :
    Stays T r (superMethod id keyword method) T.Holds := by
  refine (superReference_stays h ha id keyword).bind fun found r₁ _ h₁ hp => ?_
  split
  · exact boundMethod_stays h₁ (fun k hk => by cases hk; exact hp.1 _ rfl) (hp.2 _ rfl) method
  · exact .raise h₁ ..

/-! ### Declarations -/

theorem functionValue_stays (h : T.Encloses r.machine) (ha : T.has (.frame r.machine.active))
    {f : FunDecl} (hs : T.Spared f.occurrences) : Stays T r (functionValue p f) T.Holds :=
  .activeFrame h <| .newClosure h ha hs fun h' => .pure h' (.closure h.newClosure)

theorem methodTable_stays (h : T.Encloses r.machine) {frame : FrameId}
    (hf : T.has (.frame frame)) {i : Nat} {fs : List FunDecl}
    (hs : ∀ f ∈ fs, T.Spared f.occurrences) {table : NameTable Nat}
    (ht : ∀ x id, table.find? x = some id → T.has (.closure id)) :
    Stays T r (methodTable frame p i fs table) fun table' =>
      ∀ x id, table'.find? x = some id → T.has (.closure id) := by
  induction fs generalizing r p i table with
  | nil => exact .pure h ht
  | cons f fs ih =>
    refine .newClosure h hf (hs f (List.mem_cons_self ..)) fun h' =>
      ih h' (fun g hg => hs g (List.mem_cons_of_mem _ hg)) fun x id hid => ?_
    rw [NameTable.find?_insert] at hid
    split at hid
    · cases hid
      exact h.newClosure
    · exact ht x id hid

theorem methodFrame_stays (h : T.Encloses r.machine) {frame : FrameId}
    (hf : T.has (.frame frame)) {superclass : Option Nat}
    (hk : ∀ k, superclass = some k → T.has (.klass k)) :
    Stays T r (methodFrame p frame superclass) fun captured => T.has (.frame captured) := by
  cases superclass with
  | none => exact .pure h hf
  | some k =>
    exact .openFrame h hf fun hpush => .define hpush (.klass (hk k rfl))
      (fun hn => h.newFrame_ne hn.1) fun hwrite => .pure hwrite h.newFrame

/-- The declaration of a class whose superclass is known, and in the territory. -/
theorem declareClass_stays (h : T.Encloses r.machine) (ha : T.has (.frame r.machine.active))
    {inner : Place} {name : Token} {superclass : Option Nat} {methods : List FunDecl}
    (hk : ∀ k, superclass = some k → T.has (.klass k))
    (hs : T.Spared (FunDecl.occurrencesIn methods))
    (hlt : r.machine.active < r.machine.frames.size)
    (hd : name.lexeme = T.name → r.machine.active ≠ globals) :
    Stays T r (declareClass p inner name superclass methods) fun _ => True := by
  have hne : ¬ (r.machine.active = globals ∧ name.lexeme = T.name) := fun hn => hd hn.2 hn.1
  refine .activeFrame h (.define h (.of_none rfl) hne fun h₁ => ?_)
  refine (methodFrame_stays h₁ ha hk).bind fun captured r₂ ht₂ h₂ hcaptured => ?_
  refine (methodTable_stays h₂ hcaptured (fun f hf => hs.member hf) fun x id hid => by
    cases hid).bind fun table r₃ ht₃ h₃ htable => ?_
  -- the variable of the class is still there when the class is made
  have hgrows := ((Run.Grows.methodFrame _ _).ok ((methodFrame_echoes ..).run_eq ht₂)).trans
    ((Run.Grows.methodTable _ _ _).ok ((methodTable_echoes ..).run_eq ht₃))
  have hdef : r₃.machine.frames.defines r₃.machine.active name.lexeme = true := by
    rw [hgrows.active]
    exact hgrows.defines _ _ (Frames.defines_define_self _ hlt name.lexeme .nil)
  have hactive : r₃.machine.active = r.machine.active := hgrows.active
  -- the class replaces the `nil` of its own declaration
  have hclass : T.Encloses (r₃.withObjects
      (r₃.machine.objects.addClass ⟨name.lexeme, superclass, table⟩)).machine :=
    h₃.addClass hk htable
  have hmade : T.has (.klass r₃.machine.objects.classes.size) := h₃.made _ (Nat.lt_irrefl _)
  let klass := r₃.machine.objects.classes.size
  refine .withObjects hclass (u := do
    Traced.note fun _ => .declared klass ⟨name.lexeme, superclass, methods, r.machine.active⟩
    assign p name (.callable (.klass klass))) rfl (.note hclass ?_)
  exact Leads.of_ok (assign_apply hdef)
    (.write (r := Record.did _ _) hclass (.klass hmade) fun hn => hne (hactive ▸ hn)) trivial

/-! ### Evaluation -/

/-- A value that is returned is of the territory. -/
def Signal.Within (T : Territory) (s : Signal) : Prop :=
  ∀ v, s = .returned v → T.Holds v

theorem Signal.Within.normal : Signal.Within T .normal := fun v he => by cases he

theorem Signal.Within.returned {v : Value} (h : T.Holds v) : Signal.Within T (.returned v) := by
  intro u he
  cases he
  exact h

/-- With some fuel, every evaluation of something ready in the territory, that does not assign the
global and does not declare it at the top level, keeps it. -/
structure AllStay (ds : Distances) (q : Site → Prop) (T : Territory) (fuel : Nat) : Prop where
  evaluate : ∀ r p e, T.Inside ds q r → e.Ready q p → p.Fits r → T.Spared e.occurrences →
    Stays T r (evaluate fuel p e) T.Holds
  evaluateAll : ∀ r p es, T.Inside ds q r → Expr.AllReady q p es → p.Fits r →
    T.Spared (Expr.occurrencesIn es) →
    Stays T r (evaluateAll fuel p es) fun vs => ∀ v ∈ vs, T.Holds v
  invoke : ∀ r c vs, T.Inside ds q r → Value.Sound q r (.callable c) → (∀ v ∈ vs, v.Sound q r) →
    vs.length = r.machine.objects.arity c → T.Holds (.callable c) → (∀ v ∈ vs, T.Holds v) →
    Stays T r (invoke fuel c vs) T.Holds
  invokeClosure : ∀ r p c vs, T.Inside ds q r → ReadyClosure q r p c →
    (∀ v ∈ vs, v.Sound q r) → vs.length = c.declaration.arity → T.has (.frame c.captured) →
    T.Spared c.declaration.occurrences → (∀ v ∈ vs, T.Holds v) →
    Stays T r (invokeClosure fuel p c vs) T.Holds
  execute : ∀ r p s, T.Inside ds q r → s.Ready q p → p.Fits r → T.Spared s.occurrences →
    (∀ name ∈ s.declared?, name.lexeme = T.name → r.machine.active ≠ globals) →
    Stays T r (execute fuel p s) (Signal.Within T)
  executeAll : ∀ r p i ss, T.Inside ds q r → Stmt.AllReady q p i ss → p.Fits r →
    T.Spared (Stmt.occurrencesIn ss) → r.machine.active ≠ globals →
    Stays T r (executeAll fuel p i ss) (Signal.Within T)
  repeatWhile : ∀ r p condition body, T.Inside ds q r → condition.Ready q p →
    body.Ready q ((p.afterExpr condition).child 0) → body.declared? = none → p.Fits r →
    T.Spared condition.occurrences → T.Spared body.occurrences →
    Stays T r (repeatWhile fuel p condition body) (Signal.Within T)

namespace AllStay

variable {fuel : Nat} (ih : AllStay ds q T fuel) (hq : ∀ x, q x → x.Good ds)
  (hds : T.distances = ds)

include ih hq

/-- What is known of an expression that is evaluated in the territory. -/
theorem evaluates {e : Expr} (hin : T.Inside ds q r) (he : e.Ready q p) (hf : p.Fits r)
    (hs : T.Spared e.occurrences) :
    Remains ds q T r (Traced.evaluate fuel p e) fun v r' => T.Holds v ∧ v.Sound q r' :=
  (ih.evaluate r p e hin he hf hs).remains ((allEnsure hq fuel).evaluate r p e hin.lawful he hf)

include hds

theorem evaluate_succ (r : Record) (p : Place) (e : Expr) (hin : T.Inside ds q r)
    (he : e.Ready q p) (hf : p.Fits r) (hs : T.Spared e.occurrences) :
    Stays T r (Traced.evaluate (fuel + 1) p e) T.Holds := by
  have hmeet := Continues.meetExpression hin.lawful hq he hf
  show Stays T r (Traced.meet p (.expression e) _) _
  refine .meet hin.encloses ?_
  replace hin : T.Inside ds q (r.meet p (.expression e)) :=
    ⟨hmeet.lawful, hin.encloses, hin.active⟩
  replace hf := hmeet.fits hf
  generalize r.meet p (.expression e) = r' at hin hf
  clear hmeet r
  have hpart (e₁ : Expr) (ho : ∀ o ∈ e₁.occurrences, o ∈ e.occurrences) :
      Stays T r' (Traced.evaluate fuel p e₁) T.Holds :=
    ih.evaluate r' p e₁ hin (he.part ho) hf (hs.mono ho)
  cases e with
  | literal l =>
    refine .pure hin.encloses (.of_none ?_)
    cases l <;> rfl
  | grouping inner => exact hpart inner fun _ ho => ho
  | unary operator right =>
    refine (hpart right fun _ ho => ho).bind fun v r₁ _ h₁ _ => ?_
    exact plain_stays h₁ (Run.applyUnary_plain operator v) (Run.applyUnary_inert operator v)
  | binary left operator right =>
    obtain ⟨hl, hr⟩ := he.binary hq
    obtain ⟨hsl, hsr⟩ := Territory.spared_append.mp hs
    refine (ih.evaluates hq hin hl hf hsl).bind hin fun a r₁ hin₁ hc _ => ?_
    refine (ih.evaluate r₁ _ right hin₁ hr (hc.fits hf) hsr).bind fun b r₂ _ h₂ _ => ?_
    exact plain_stays h₂ (Run.applyBinary_plain operator a b) (Run.applyBinary_inert operator a b)
  | logical left operator right =>
    obtain ⟨hl, hr⟩ := he.logical hq
    obtain ⟨hsl, hsr⟩ := Territory.spared_append.mp hs
    refine (ih.evaluates hq hin hl hf hsl).bind hin fun a r₁ hin₁ hc ha => ?_
    split
    · exact .pure hin₁.encloses ha.1
    · exact ih.evaluate r₁ _ right hin₁ hr (hc.fits hf) hsr
  | var id name => exact lookUp_stays hin id name
  | thisRef id keyword => exact lookUp_stays hin id keyword
  | assign id name value =>
    -- the assignment itself is spared as well, so it does not write to the global
    have hsv : T.Spared value.occurrences := hs.mono fun _ ho => List.mem_cons_of_mem _ ho
    refine (ih.evaluates hq hin he.assign.1 hf hsv).bind hin fun v r₁ hin₁ hc hv => ?_
    exact (store_stays hq hin₁ hds he (hc.fits hf) hs hv.1).bind fun _ r₂ _ h₂ _ => .pure h₂ hv.1
  | call callee paren arguments =>
    obtain ⟨hcallee, hargs⟩ := he.call hq
    obtain ⟨hsc, hsa⟩ := Territory.spared_append.mp hs
    refine (ih.evaluates hq hin hcallee hf hsc).bind hin fun f r₁ hin₁ hc hcf => ?_
    have hall := (ih.evaluateAll r₁ _ arguments hin₁ hargs (hc.fits hf) hsa).remains
      ((allEnsure hq fuel).evaluateAll r₁ _ arguments hin₁.lawful hargs (hc.fits hf))
    refine hall.bind hin₁ fun vs r₂ hin₂ hc₂ hvs => ?_
    cases f with
    | callable c =>
      refine .ofObjects hin₂.encloses ?_
      split
      · next harity =>
        exact ih.invoke r₂ c vs hin₂ (hc₂.sound hcf.2) hvs.2 harity hcf.1 hvs.1
      · exact .raise hin₂.encloses ..
    | _ => exact .raise hin₂.encloses ..
  | get object name =>
    refine (hpart object fun _ ho => ho).bind fun v r₁ _ h₁ hv => ?_
    cases v with
    | object i => exact .note h₁ (property_stays (r := r₁.did _) h₁ (hv _ rfl) name)
    | _ => exact .raise h₁ ..
  | set object name value =>
    obtain ⟨hv, ho⟩ := he.set hq
    obtain ⟨hso, hsv⟩ := Territory.spared_append.mp hs
    refine (ih.evaluates hq hin ho hf hso).bind hin fun u r₁ hin₁ hc _ => ?_
    cases u with
    | object i =>
      refine (ih.evaluate r₁ p value hin₁ hv (hc.fits hf) hsv).bind fun v r₂ _ h₂ hheld => ?_
      -- what is written is of the territory, so it does not matter whose field it is
      have hset : T.Encloses (r₂.withObjects
        (r₂.machine.objects.setField i name.lexeme v)).machine := h₂.setField i name.lexeme hheld
      exact .withObjects hset (u := do
        Traced.note fun _ => .assigned i name.lexeme v
        Pure.pure v) rfl (.note hset (.pure (r := Record.did _ _) hset hheld))
    | _ => exact .raise hin₁.encloses ..
  | superRef id keyword name => exact superMethod_stays hin.encloses hin.active id keyword name

omit hds in
theorem evaluateAll_succ (r : Record) (p : Place) (es : List Expr) (hin : T.Inside ds q r)
    (hes : Expr.AllReady q p es) (hf : p.Fits r) (hs : T.Spared (Expr.occurrencesIn es)) :
    Stays T r (Traced.evaluateAll (fuel + 1) p es) fun vs => ∀ v ∈ vs, T.Holds v := by
  cases es with
  | nil => exact .pure hin.encloses fun v hv => by cases hv
  | cons e es =>
    obtain ⟨he, hrest⟩ := hes.cons hq
    obtain ⟨hse, hsr⟩ := Territory.spared_append.mp hs
    refine (ih.evaluates hq hin he hf hse).bind hin fun v r₁ hin₁ hc hv => ?_
    refine (ih.evaluateAll r₁ _ es hin₁ hrest (hc.fits hf) hsr).bind fun vs r₂ _ h₂ hvs => ?_
    exact .pure h₂ (List.forall_mem_cons.mpr ⟨hv.1, hvs⟩)

omit hq hds in
theorem invoke_succ (r : Record) (c : Callable) (vs : List Value) (hin : T.Inside ds q r)
    (hc : Value.Sound q r (.callable c)) (hvs : ∀ v ∈ vs, v.Sound q r)
    (harity : vs.length = r.machine.objects.arity c) (hct : T.Holds (.callable c))
    (hvst : ∀ v ∈ vs, T.Holds v) : Stays T r (Traced.invoke (fuel + 1) c vs) T.Holds := by
  cases c with
  | native id =>
    refine .ofObjects hin.encloses ?_
    cases hn : r.machine.objects.natives[id]? with
    | none => exact .halt hin.encloses _
    | some n =>
      have hinert := hin.encloses.natives n (Array.mem_of_getElem? hn)
      exact .quiet hin.encloses (Run.callNative_quiet n vs) fun v _ he =>
        .of_none (hinert _ _ v (Run.eq_ok_of_ofExcept he))
  | closure id =>
    obtain ⟨c, hclosure, hready⟩ := hc id rfl
    obtain ⟨hcaptured, hspared⟩ := hin.encloses.closures id c hclosure (hct _ rfl)
    refine .ofObjects hin.encloses ?_
    rw [hclosure]
    refine .of_keeps (.refl hin.encloses) (u := Traced.invokeClosure fuel (r.bodies id) c vs) rfl ?_
    exact ih.invokeClosure r _ c vs hin hready hvs
      (harity.trans (Objects.arity_closure hclosure)) hcaptured hspared hvst
  | klass k =>
    have hcont := continues_addInstance hin.lawful k
    -- what does not exist yet is of the territory
    have hmade : T.has (.object r.machine.objects.instances.size) :=
      hin.encloses.made _ (Nat.lt_irrefl _)
    have hnew : T.Encloses (r.addInstance k).machine := hin.encloses.addInstance (hct _ rfl)
    refine .newInstance hnew (.ofObjects hnew ?_)
    cases hi : (r.addInstance k).machine.objects.initializer? k with
    | none => exact .pure hnew (.object hmade)
    | some c =>
      obtain ⟨hcaptured, hspared⟩ := hnew.methodClosure? (hct _ rfl) hi
      refine .methodBody hnew ?_
      have hbind := (bindMethod_stays hnew hcaptured hmade).remains
        (bindMethod_ensures hcont.lawful (readyMethod_of_find hcont.lawful hi) _)
      refine hbind.bind ⟨hcont.lawful, hnew, hin.active⟩ fun c' r₁ hin₁ hc₁ hp => ?_
      obtain ⟨⟨hcaptured', hdecl⟩, hready, -⟩ := hp
      refine (ih.invokeClosure r₁ _ c' vs hin₁ hready
        (fun v hv => hc₁.sound (hcont.sound (hvs v hv))) ?_ hcaptured' (hdecl ▸ hspared)
        hvst).bind fun _ r₂ _ h₂ _ => .pure h₂ (.object hmade)
      rw [hdecl, harity, Objects.arity_klass (o := r.machine.objects) hi]

omit hq hds in
theorem invokeClosure_succ (r : Record) (p : Place) (c : Closure) (vs : List Value)
    (hin : T.Inside ds q r) (hc : ReadyClosure q r p c) (hvs : ∀ v ∈ vs, v.Sound q r)
    (harity : vs.length = c.declaration.arity) (hcaptured : T.has (.frame c.captured))
    (hs : T.Spared c.declaration.occurrences) (hvst : ∀ v ∈ vs, T.Holds v) :
    Stays T r (Traced.invokeClosure (fuel + 1) p c vs) T.Holds := by
  have hcont := Continues.push hin.lawful c.captured (p.openerAt 0)
  have hnew := hin.encloses.newFrame
  have hne := hin.encloses.newFrame_ne
  refine .openFrame hin.encloses hcaptured fun hpush => ?_
  have hvalues : ∀ e ∈ c.declaration.params.zip vs, T.Holds e.2 := fun e he =>
    hvst _ (List.of_mem_zip he).2
  have hdefine := (defineAll_stays hpush hne hvalues).remains
    (defineParams_ensures hin.lawful c _ hvs)
  refine hdefine.bind ⟨hcont.lawful, hpush, hin.active⟩ fun _ r₁ hin₁ hc₁ hp => ?_
  obtain ⟨hready, hfits⟩ := hc.body_fits hin.lawful harity hc₁ hp.2
  have hinside : T.Inside ds q (r₁.inside r.machine.frames.size) :=
    ⟨hin₁.lawful.inside _, hin₁.encloses.of_eq rfl rfl, hnew⟩
  have hbody := ih.executeAll _ p 0 _ hinside hready hfits hs.body hne
  refine (Stays.within hbody).bind fun signal r₂ _ h₂ hsignal => ?_
  split
  · exact getAt_stays h₂ hcaptured 0 "this" c.declaration.name.line
  · cases signal with
    | returned v => exact .pure h₂ (hsignal v rfl)
    | normal => exact .pure h₂ (.of_none rfl)

omit hds in
theorem execute_succ (r : Record) (p : Place) (s : Stmt) (hin : T.Inside ds q r)
    (hs : s.Ready q p) (hf : p.Fits r) (hspared : T.Spared s.occurrences)
    (hd : ∀ name ∈ s.declared?, name.lexeme = T.name → r.machine.active ≠ globals) :
    Stays T r (Traced.execute (fuel + 1) p s) (Signal.Within T) := by
  have hmeet := Continues.meetStatement hin.lawful hs hf
  show Stays T r (Traced.meet p (.statement s) _) _
  refine .meet hin.encloses ?_
  replace hin : T.Inside ds q (r.meet p (.statement s)) :=
    ⟨hmeet.lawful, hin.encloses, hin.active⟩
  replace hf := hmeet.fits hf
  replace hd : ∀ name ∈ s.declared?, name.lexeme = T.name →
      (r.meet p (.statement s)).machine.active ≠ globals := hd
  generalize r.meet p (.statement s) = r' at hin hf hd
  clear hmeet r
  cases s with
  | expression e =>
    exact (ih.evaluate r' p e hin hs.expression hf hspared).bind fun v r₁ _ h₁ _ =>
      .pure h₁ .normal
  | print e =>
    refine (ih.evaluate r' p e hin hs.print hf hspared).bind fun v r₁ _ h₁ _ => .ofObjects h₁ ?_
    have hwrite : Stays T r₁ (lift (Run.write (r₁.machine.objects.display v ++ "\n")))
        fun _ => True := .quiet h₁ (Run.write_quiet _) fun _ _ _ => trivial
    exact hwrite.bind fun _ r₂ _ h₂ _ => .pure h₂ .normal
  | varDecl name initializer =>
    cases initializer with
    | none =>
      exact (declare_stays hin.encloses (.of_none rfl) (hd name rfl)).bind fun _ r₁ _ h₁ _ =>
        .pure h₁ .normal
    | some e =>
      have hfits := hs.place.fits_initializer hf name
      refine (ih.evaluates hq hin hs.varDecl hfits hspared).bind hin fun v r₁ hin₁ hc hv => ?_
      exact (declare_stays hin₁.encloses hv.1 fun hn => hc.active ▸ hd name rfl hn).bind
        fun _ r₂ _ h₂ _ => .pure h₂ .normal
  | block body =>
    have hlaw := hin.lawful.push r'.machine.active (p.block.openerAt 0)
    refine .activeFrame hin.encloses (.openFrame hin.encloses hin.active fun h₁ => .within ?_)
    have hinside : T.Inside ds q
        ((r'.push r'.machine.active (p.block.openerAt 0)).inside r'.machine.frames.size) :=
      ⟨hlaw.inside _, h₁.of_eq rfl rfl, hin.encloses.newFrame⟩
    exact ih.executeAll _ p.block 0 body hinside hs.block (hs.place.fits_block hin.lawful hf)
      hspared hin.encloses.newFrame_ne
  | branch condition thenBranch elseBranch =>
    obtain ⟨hcond, hthen⟩ := hs.condition hq
    have hparts : T.Spared condition.occurrences ∧ T.Spared thenBranch.occurrences := by
      cases elseBranch with
      | none => exact Territory.spared_append.mp hspared
      | some _ => exact Territory.spared_append.mp (Territory.spared_append.mp hspared).1
    -- a branch declares no name, so nothing is asked of the frame it runs in
    have hnone : thenBranch.declared? = none := by
      cases elseBranch with
      | none => exact hs.proper.2
      | some _ => exact hs.proper.1.2
    refine (ih.evaluates hq hin hcond hf hparts.1).bind hin fun v r₁ hin₁ hc _ => ?_
    split
    · exact ih.execute r₁ _ thenBranch hin₁ hthen (hc.fits hf) hparts.2 fun name hn => by
        rw [hnone] at hn
        cases hn
    · cases elseBranch with
      | none => exact .pure hin₁.encloses .normal
      | some s =>
        exact ih.execute r₁ _ s hin₁ (hs.elseBranch hq) (hc.fits hf)
          (Territory.spared_append.mp hspared).2 fun name hn => by
            rw [hs.proper.2.2] at hn
            cases hn
  | loop condition body =>
    obtain ⟨hcond, hbody⟩ := hs.loop hq
    obtain ⟨hsc, hsb⟩ := Territory.spared_append.mp hspared
    exact ih.repeatWhile r' p condition body hin hcond hbody hs.proper.2 hf hsc hsb
  | function f =>
    refine (functionValue_stays hin.encloses hin.active hspared).bind fun v r₁ ht h₁ hv => ?_
    -- the closure leaves the active frame, in which its name is declared
    have hactive : r₁.machine.active = r'.machine.active :=
      ((Run.Grows.functionValue f).ok ((functionValue_echoes p f).run_eq ht)).active
    exact (declare_stays h₁ hv fun hn => hactive ▸ hd f.name rfl hn).bind fun _ r₂ _ h₂ _ =>
      .pure h₂ .normal
  | ret keyword value =>
    cases value with
    | none => exact .pure hin.encloses (.returned (.of_none rfl))
    | some e =>
      exact (ih.evaluate r' _ e hin hs.ret hf hspared).bind fun v r₁ _ h₁ hv =>
        .pure h₁ (.returned hv)
  | classDecl name superclass methods =>
    obtain ⟨hss, hsm⟩ := Territory.spared_append.mp hspared
    have hlt := (hf.ownCell_known name.lexeme).lt_size hin.lawful
    cases superclass with
    | none =>
      exact (declareClass_stays hin.encloses hin.active (fun k he => by cases he) hsm hlt
        (hd name rfl)).bind fun _ r₁ _ h₁ _ => .pure h₁ .normal
    | some e =>
      have hfits := hs.place.fits_superclass hf name e
      refine (ih.evaluates hq hin (hs.superclass hq) hfits hss).bind hin
        fun v r₁ hin₁ hc hv => ?_
      have hclass : Stays T r₁ (lift (Run.asSuperclass name v)) fun k => T.has (.klass k) := by
        unfold Run.asSuperclass
        split
        · exact .pure hin₁.encloses (hv.1 _ rfl)
        · exact .raise hin₁.encloses ..
      refine (hclass.remains (asSuperclass_ensures hin₁.lawful name v)).bind hin₁
        fun k r₂ hin₂ hc₂ hk => ?_
      have hactive : r₂.machine.active = r'.machine.active := hc₂.active.trans hc.active
      have hlt₂ := ((hc₂.fits (hc.fits hf)).ownCell_known name.lexeme).lt_size hin₂.lawful
      exact (declareClass_stays hin₂.encloses hin₂.active (fun k' he => by cases he; exact hk.1)
        hsm hlt₂ fun hn => hactive ▸ hd name rfl hn).bind fun _ r₃ _ h₃ _ => .pure h₃ .normal

omit hds in
theorem executeAll_succ (r : Record) (p : Place) (i : Nat) (ss : List Stmt)
    (hin : T.Inside ds q r) (hss : Stmt.AllReady q p i ss) (hf : p.Fits r)
    (hspared : T.Spared (Stmt.occurrencesIn ss)) (hne : r.machine.active ≠ globals) :
    Stays T r (Traced.executeAll (fuel + 1) p i ss) (Signal.Within T) := by
  cases ss with
  | nil => exact .pure hin.encloses .normal
  | cons s ss =>
    obtain ⟨hs, hrest⟩ := hss.cons hq
    obtain ⟨hsf, hsr⟩ := Territory.spared_append.mp hspared
    have hfirst := (ih.execute r _ s hin hs hf hsf fun _ _ _ => hne).remains
      ((allEnsure hq fuel).execute r _ s hin.lawful hs hf)
    refine hfirst.bind hin fun signal r₁ hin₁ hc hp => ?_
    cases signal with
    | normal =>
      exact ih.executeAll r₁ _ (i + 1) ss hin₁ hrest
        (hss.place.fits_after (hc.fits hf) (hp.2.2 rfl)) hsr (hc.active ▸ hne)
    | returned v => exact .pure hin₁.encloses hp.1

omit hds in
theorem repeatWhile_succ (r : Record) (p : Place) (condition : Expr) (body : Stmt)
    (hin : T.Inside ds q r) (hcond : condition.Ready q p)
    (hbody : body.Ready q ((p.afterExpr condition).child 0)) (hnone : body.declared? = none)
    (hf : p.Fits r) (hsc : T.Spared condition.occurrences) (hsb : T.Spared body.occurrences) :
    Stays T r (Traced.repeatWhile (fuel + 1) p condition body) (Signal.Within T) := by
  refine (ih.evaluates hq hin hcond hf hsc).bind hin fun v r₁ hin₁ hc _ => ?_
  split
  · have hturn := (ih.execute r₁ _ body hin₁ hbody (hc.fits hf) hsb fun name hn => by
      rw [hnone] at hn
      cases hn).remains ((allEnsure hq fuel).execute r₁ _ body hin₁.lawful hbody (hc.fits hf))
    refine hturn.bind hin₁ fun signal r₂ hin₂ hc₂ hp => ?_
    cases signal with
    | normal =>
      exact ih.repeatWhile r₂ p condition body hin₂ hcond hbody hnone (hc₂.fits (hc.fits hf))
        hsc hsb
    | returned v => exact .pure hin₂.encloses hp.1
  · exact .pure hin₁.encloses .normal

end AllStay

theorem allStay (hq : ∀ x, q x → x.Good ds) (hds : T.distances = ds) (fuel : Nat) :
    AllStay ds q T fuel := by
  induction fuel with
  | zero =>
    constructor
    · intro r p e hin _ _ _
      rw [Traced.evaluate]
      exact .halt hin.encloses _
    · intro r p es hin _ _ _
      rw [Traced.evaluateAll]
      exact .halt hin.encloses _
    · intro r c vs hin _ _ _ _ _
      rw [Traced.invoke]
      exact .halt hin.encloses _
    · intro r p c vs hin _ _ _ _ _ _
      rw [Traced.invokeClosure]
      exact .halt hin.encloses _
    · intro r p s hin _ _ _ _
      rw [Traced.execute]
      exact .halt hin.encloses _
    · intro r p i ss hin _ _ _ _
      rw [Traced.executeAll]
      exact .halt hin.encloses _
    · intro r p condition body hin _ _ _ _ _ _
      rw [Traced.repeatWhile]
      exact .halt hin.encloses _
  | succ fuel ih =>
    exact ⟨ih.evaluate_succ hq hds, ih.evaluateAll_succ hq, ih.invoke_succ,
      ih.invokeClosure_succ, ih.execute_succ hq, ih.executeAll_succ hq, ih.repeatWhile_succ hq⟩

end Traced

/-! ### Statements of the top level -/

/-- The statements in front of one of the top level, and the place of that one. -/
theorem Stmt.AllReady.split {ds : Distances} {q : Site → Prop} (hq : ∀ x, q x → x.Good ds)
    {p : Place} {i : Nat} {before after : List Stmt} {s : Stmt}
    (h : Stmt.AllReady q p i (before ++ s :: after)) (hp : p.around.regions = []) :
    Stmt.AllReady q p i before ∧ ∃ p', p'.around.regions = [] ∧ s.Ready q p' := by
  induction before generalizing p i with
  | nil =>
    obtain ⟨hs, -⟩ := h.cons hq
    exact ⟨⟨h.place, trivial, fun x hx => by cases hx⟩, p.child i, hp, hs⟩
  | cons b before ih =>
    obtain ⟨hb, hrest⟩ := h.cons hq
    obtain ⟨hbefore, hs⟩ := @ih (p.afterStmt b) _ hrest (Surroundings.regions_after hp b)
    refine ⟨⟨h.place, ⟨hb.proper, hbefore.proper⟩, fun x hx => ?_⟩, hs⟩
    rcases List.mem_append.mp hx with hx | hx
    · exact hb.sites x hx
    · exact hbefore.sites x hx

namespace Session

theorem natives_runEach (fuel : Nat) (s : Session) (sources : List String) :
    (s.runEach fuel sources).machine.objects.natives = s.machine.objects.natives := by
  induction sources generalizing s with
  | nil => rfl
  | cons source sources ih => exact (ih (s.run fuel source).2).trans (s.natives_run fuel source)

/-- In the run of a further source of a session, a statement of its top level is executed on a
machine: the distances of the program are known, and the statements in front have been executed. -/
def Executes (fuel : Nat) (session : Session) (text : String) (s : Stmt) (m : Machine) : Prop :=
  ∃ p before after, (check text session.nextId).result = .ok p ∧
    p.statements = before ++ s :: after ∧
    (do Run.learn p.distances; Run.runAll fuel before) session.machine.clearOutput = .ok () m

/-- The machine of a session is that of an idle record. -/
theorem exists_idle (clock : Nat → Float) (sink : Sink) (fuel : Nat) (sources : List String) :
    ∃ r : Record, r.machine = ((Session.start (.start clock sink)).runEach fuel sources).machine ∧
      r.Idle ((Session.start (.start clock sink)).runEach fuel sources).nextId := by
  obtain ⟨hmachine, hnext⟩ := Prod.mk.inj
    (traceFrom_erases fuel sources 0 (.start (.start clock sink)) (.start (.start clock sink)) rfl)
  exact ⟨_, hmachine, hnext ▸ traceFrom_idle fuel sources 0 (start_idle clock sink)⟩

section

variable {clock : Nat → Float} {sink : Sink} {fuel : Nat} {sources : List String} {text : String}
  {s : Stmt} {m : Machine}
  (h : Executes fuel ((Session.start (.start clock sink)).runEach fuel sources) text s m)

include h

/-- A statement of the top level is executed in the frame of the globals, on the machine of a record
on which it stands ready. -/
theorem Executes.ready :
    ∃ ds q p r, r.machine = m ∧ m.active = globals ∧ (∀ x, q x → x.Good ds) ∧ Lawful ds q r ∧
      s.Ready q p ∧ p.Fits r := by
  obtain ⟨program, before, after, hcheck, hsplit, hrun⟩ := h
  obtain ⟨r₀, hmachine, hidle⟩ := exists_idle clock sink fuel sources
  obtain ⟨hread, hdistances, hfaults⟩ := check_eq_ok hcheck
  obtain ⟨hrests, hready⟩ := hidle.rests.learn hread (check_nextId_le ..) hfaults 0
    fun _ _ => trivial
  rw [← hdistances] at hrests hready
  rw [hsplit] at hready
  obtain ⟨hbefore, p, hp, hs⟩ := hready.split (fun x hx => hx.1.1) rfl
  have hrun : Run.runAll fuel before (r₀.learn program.distances).machine = .ok () m := by
    rw [← hmachine] at hrun
    exact hrun
  obtain ⟨r, ht, rfl⟩ := (Traced.runAll_erases fuel (.top 0) 0 before).exists_ok hrun
  obtain ⟨hc, -⟩ := (Traced.runAll_ensures (fun x hx => hx.1.1) fuel rfl hrests.lawful
    hrests.active hbefore).ok ht
  have hactive : r.machine.active = globals := hc.active.trans hrests.active
  exact ⟨_, _, p, r, rfl, hactive, fun x hx => hx.1.1, hc.lawful, hs, Traced.fits_top hp hactive⟩

/-- In a session there is no native but the clock. -/
theorem Executes.natives : ∀ n ∈ m.objects.natives, n.Inert := by
  obtain ⟨program, before, after, -, -, hrun⟩ := h
  have hkept := Run.natives_of_runAll
    (show Run.runAll fuel before { Machine.clearOutput _ with distances := _ } = .ok () m from hrun)
  rw [show m.objects.natives = #[.clock] from
    hkept.trans (natives_runEach fuel (.start (.start clock sink)) sources)]
  intro n hn
  cases Array.mem_singleton.mp hn
  intro now vs v hv
  cases hv
  rfl

end

end Session

/-- However it ends, the run leaves a global as it is: with the value that it has, or absent. -/
def Run.LeavesGlobal {α : Type} (run : Run α) (m : Machine) (x : String) : Prop :=
  match run m with
  | .ok _ m' => m'.frames.value? globals x = m.frames.value? globals x
  | .error _ m' => m'.frames.value? globals x = m.frames.value? globals x

/-- In a session, a statement of the top level is executed.  If it does not declare the global of a
name, and neither the statement nor any function that is live when it starts has an assignment to
that name without a distance, then the statement leaves the global as it is, with any fuel and
however it ends. -/
theorem session_spares_globals (clock : Nat → Float) (sink : Sink) (fuel : Nat)
    (sources : List String) {text : String} {s : Stmt} {m : Machine} {x : String}
    (hrun : ((Session.start (.start clock sink)).runEach fuel sources).Executes fuel text s m)
    (hdeclared : ∀ name ∈ s.declared?, name.lexeme ≠ x)
    (hstatement : ∀ o ∈ s.occurrences, ¬ o.AssignsGlobal m.distances x)
    (hlive : ∀ (id : Nat) (c : Closure), m.Live (.closure id) →
      m.objects.closures[id]? = some c →
        ∀ o ∈ c.declaration.occurrences, ¬ o.AssignsGlobal m.distances x) (n : Nat) :
    (Run.execute n s).LeavesGlobal m x := by
  have hnatives := hrun.natives
  obtain ⟨ds, q, p, r, rfl, hactive, hgood, hlawful, hs, hf⟩ := hrun.ready
  have hencloses : (Territory.live r.machine x).Encloses r.machine :=
    Territory.live_encloses hlawful.globals_lt hactive hlive hnatives
  have hin : (Territory.live r.machine x).Inside ds q r :=
    ⟨hlawful, hencloses, hactive ▸ hencloses.outermost⟩
  have hstays := (Traced.allStay hgood hlawful.distances n).execute r p s hin hs hf hstatement
    fun name hn hx => absurd hx (hdeclared name hn)
  -- without its notes the recorded run is that of the statement
  have herases := (Traced.execute_erases n p s).forget_eq r
  unfold Run.LeavesGlobal
  rw [← herases]
  cases ht : Traced.execute n p s r with
  | ok signal r' => exact (Traced.Leads.ok hstays ht).1.global
  | error e r' => exact (Traced.Leads.error hstays ht).global

/-- A source that calls a function whose parameter has the name of a global, and is assigned. -/
def shadowing : String := "var a = nil; fun f(a) { a = true; } f(nil);"

/-- The function in `shadowing`. -/
def shadowingFunction : FunDecl :=
  .mk ⟨.identifier, "f", 1⟩ [⟨.identifier, "a", 1⟩]
    [.expression (.assign 1 ⟨.identifier, "a", 1⟩ (.literal (.bool true)))]

/-- The call in `shadowing`. -/
def shadowingCall : Stmt :=
  .expression (.call (.var 2 ⟨.identifier, "f", 1⟩) ⟨.mark .rightParen, ")", 1⟩ [.literal .nil])

/-- The machine on which `shadowingCall` is executed: the assignment has a distance. -/
def shadowingMachine : Machine :=
  let m := Machine.start (fun _ => 0) .sound
  { m with
    frames := (m.frames.define globals "a" .nil).define globals "f" (.callable (.closure 0))
    objects := { m.objects with closures := #[⟨shadowingFunction, globals, false⟩] }
    distances := [(1, 0)] }

/-- The call assigns to the parameter, and leaves the global of that name as it is. -/
theorem session_spares_globals_shadowing :
    ((Session.start (.start (fun _ => 0) .sound)).runEach 9 []).Executes 9 shadowing shadowingCall
        shadowingMachine ∧
      shadowingMachine.frames.value? globals "a" = some .nil ∧
      ∀ n, (Run.execute n shadowingCall).LeavesGlobal shadowingMachine "a" := by
  have hrun : ((Session.start (.start (fun _ => 0) .sound)).runEach 9 []).Executes 9 shadowing
      shadowingCall shadowingMachine :=
    ⟨⟨[.varDecl ⟨.identifier, "a", 1⟩ (some (.literal .nil)), .function shadowingFunction,
      shadowingCall], [(1, 0)]⟩, [.varDecl ⟨.identifier, "a", 1⟩ (some (.literal .nil)),
      .function shadowingFunction], [], by cbv, rfl, rfl⟩
  refine ⟨hrun, rfl, session_spares_globals _ _ _ _ hrun (fun name hn => by cases hn)
    (fun o ho ha => ?_) fun id c _ hc o ho ha => ?_⟩
  · -- the only occurrence is a variable
    cases List.mem_singleton.mp ho
    cases ha.kind
  · -- the only function has one assignment, the distance of which is known
    cases id with
    | zero =>
      cases hc
      cases List.mem_singleton.mp ho
      cases ha.distance
    | succ id => cases hc

end Lox
