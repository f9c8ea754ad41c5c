/-
Runs of renamed programs.

`Mimics ρ r t run` says that from the record `r` the recorded run `t` does what `run` does on every
machine that mirrors the record: they end alike, and the machine then mirrors the record then.

* `Mimics.bind`, `Mimics.within`, `Mimics.meet` — how runs are put together;
* `lookUp_mimics`, `store_mimics` — a variable is found under its new name, in the same frame;
* `declare_mimics` — a declared name gets its variable under the new name;
* `boundMethod_mimics`, `superMethod_mimics` — reserved words and properties keep their names.

Design notes: what is read in the renamed region is compared only where it is known to be there.  A
variable that was missing would be reported under its name, and that name has changed.
-/
import Lox.Proofs.Run.Mirror

namespace Lox

/-- The run does, on every machine that mirrors the record, what the recorded run does. -/
def Traced.Mimics {α : Type} (ρ : Renaming) (r : Record) (t : Traced α) (run : Run α) : Prop :=
  ∀ m, ρ.Mirrors r m →
    match t r with
    | .ok a r' => ∃ m', run m = .ok a m' ∧ ρ.Mirrors r' m'
    | .error h r' => ∃ m', run m = .error h m' ∧ ρ.Mirrors r' m'

namespace Traced

variable {α β : Type} {ρ : Renaming} {ds : Distances} {q : Site → Prop} {r : Record}

namespace Mimics

variable {t : Traced α} {run : Run α}

theorem pure (a : α) : Mimics ρ r (Pure.pure a) (Pure.pure a) := fun m hm => ⟨m, rfl, hm⟩

theorem halt (e : Halt) : Mimics ρ r (Traced.lift (Run.halt e : Run α)) (Run.halt e) :=
  fun m hm => ⟨m, rfl, hm⟩

theorem plain {run : Run Value} (hp : run.Plain) : Mimics ρ r (Traced.lift run) run := by
  rcases hp with ⟨v, rfl, -⟩ | ⟨e, rfl⟩
  · exact .pure v
  · exact .halt e

/-- Runs that go on, one behind another record and one behind another machine. -/
theorem of_step {r₁ : Record} {u : Traced α} {run' : Run α} (h : Mimics ρ r₁ u run')
    (he : t r = u r₁) (hs : ∀ m, ρ.Mirrors r m → ∃ m₁, run m = run' m₁ ∧ ρ.Mirrors r₁ m₁) :
    Mimics ρ r t run := by
  intro m hm
  obtain ⟨m₁, hrun, hm₁⟩ := hs m hm
  rw [he, hrun]
  exact h m₁ hm₁

theorem bind (h : Mimics ρ r t run) {post : α → Record → Prop} (he : Ensures ds q r t post)
    {next : α → Traced β} {next' : α → Run β}
    (hn : ∀ a r', Continues ds q r r' → post a r' → Mimics ρ r' (next a) (next' a)) :
    Mimics ρ r (t >>= next) (run >>= next') := by
  intro m hm
  have hrun := h m hm
  rw [bind_apply, Run.bind_apply]
  cases ht : t r with
  | ok a r₁ =>
    rw [ht] at hrun
    obtain ⟨m₁, he₁, hm₁⟩ := hrun
    obtain ⟨hc, hp⟩ := he.ok ht
    rw [he₁]
    exact hn a r₁ hc hp m₁ hm₁
  | error e r₁ =>
    rw [ht] at hrun
    obtain ⟨m₁, he₁, hm₁⟩ := hrun
    rw [he₁]
    exact ⟨m₁, rfl, hm₁⟩

theorem within {frame : FrameId} (h : Mimics ρ (r.inside frame) t run) :
    Mimics ρ r (Traced.within frame t) (Run.within frame run) := by
  intro m hm
  have hrun := h _ (hm.inside frame)
  unfold Traced.within Run.within
  cases ht : t (r.inside frame) with
  | ok a r₁ =>
    rw [ht] at hrun
    obtain ⟨m₁, he₁, hm₁⟩ := hrun
    refine ⟨{ m₁ with active := m.active }, by rw [he₁], ?_⟩
    rw [hm.active]
    exact hm₁.inside _
  | error e r₁ =>
    rw [ht] at hrun
    obtain ⟨m₁, he₁, hm₁⟩ := hrun
    refine ⟨{ m₁ with active := m.active }, by rw [he₁], ?_⟩
    rw [hm.active]
    exact hm₁.inside _

theorem note {deed : Machine → Deed} {next : Unit → Traced α}
    (h : Mimics ρ (r.did (deed r.machine)) (next ()) run) :
    Mimics ρ r (Traced.note deed >>= next) run :=
  h.of_step rfl fun m hm => ⟨m, rfl, hm.did (deed r.machine)⟩

theorem meet {p : Place} {node : Node} (h : Mimics ρ (r.meet p node) t run) :
    Mimics ρ r (Traced.meet p node t) run :=
  h.of_step rfl fun m hm => ⟨m, rfl, hm.meet p node⟩

/-! ### Steps -/

/-- Reading something off the objects. -/
theorem ofObjects {f : Objects → α} {a : α} (ha : ∀ m, ρ.Mirrors r m → f m.objects = a)
    {next : α → Traced β} {next' : α → Run β}
    (hn : Mimics ρ r (next (f r.machine.objects)) (next' a)) :
    Mimics ρ r (Traced.lift (Run.ofObjects f) >>= next) (Run.ofObjects f >>= next') := by
  refine hn.of_step rfl fun m hm => ⟨m, ?_, hm⟩
  rw [← ha m hm]
  rfl

theorem activeFrame {next : FrameId → Traced β} {next' : FrameId → Run β}
    (hn : Mimics ρ r (next r.machine.active) (next' r.machine.active)) :
    Mimics ρ r (Traced.lift Run.activeFrame >>= next) (Run.activeFrame >>= next') := by
  refine hn.of_step rfl fun m hm => ⟨m, ?_, hm⟩
  rw [← hm.active]
  rfl

theorem methodBody {klass : Option Nat} {name : String} {next : Place → Traced β} {run : Run β}
    (hn : Mimics ρ r (next (r.methodBody klass name)) run) :
    Mimics ρ r (Traced.methodBody klass name >>= next) run :=
  hn.of_step rfl fun m hm => ⟨m, rfl, hm⟩

theorem openFrame {parent : FrameId} {opener : Option Opener} {next : FrameId → Traced β}
    {next' : FrameId → Run β}
    (hn : Mimics ρ (r.push parent opener) (next r.machine.frames.size)
      (next' r.machine.frames.size)) :
    Mimics ρ r (Traced.openFrame parent opener >>= next) (Run.newFrame parent >>= next') := by
  refine hn.of_step rfl fun m hm => ⟨_, ?_, hm.push parent opener⟩
  rw [← hm.size]
  rfl

theorem newClosure {body : Place} {c : Closure} {next : Nat → Traced β} {next' : Nat → Run β}
    (hn : Mimics ρ (r.addClosure body c) (next r.machine.objects.closures.size)
      (next' r.machine.objects.closures.size)) :
    Mimics ρ r (Traced.newClosure body c >>= next)
      (Run.newClosure (c.rename ρ body) >>= next') := by
  refine hn.of_step rfl fun m hm => ⟨_, ?_, hm.addClosure body c⟩
  rw [← hm.closures_size]
  rfl

theorem define (h : Lawful ds q r) {frame : FrameId} {opener : Option Opener}
    {name name' : String} (hc : Cell.Known r ⟨frame, opener, name⟩) (hne : name ≠ ρ.new)
    (hname : ρ.name opener name = name') {v : Value} {next : Unit → Traced β}
    {next' : Unit → Run β}
    (hn : Mimics ρ (r.write ⟨frame, opener, name⟩ v) (next ()) (next' ())) :
    Mimics ρ r (Traced.define frame opener name v >>= next)
      (Run.define frame name' v >>= next') := by
  subst hname
  exact hn.of_step rfl fun m hm => ⟨_, rfl, hm.write h hc hne v⟩

/-- Reading something off the machine, which may fail. -/
theorem ofExcept {f f' : Machine → Except Diagnostic α}
    (hf : ∀ m, ρ.Mirrors r m → f' m = f r.machine) :
    Mimics ρ r (Traced.lift fun m => Run.ofExcept (f m) m) fun m => Run.ofExcept (f' m) m := by
  intro m hm
  unfold Traced.lift
  simp only [hf m hm]
  cases f r.machine with
  | ok a => exact ⟨m, rfl, hm⟩
  | error d => exact ⟨m, rfl, hm⟩

end Mimics

/-! ### Variables -/

/-- A reserved word is found as before. -/
theorem getAt_word {m : Machine} (hm : ρ.Mirrors r m) {f f' : FrameId} {d : Nat}
    {opener : Option Opener} {x : String} (ha : r.machine.frames.ancestor? f d = some f')
    (hk : Cell.Known r ⟨f', opener, x⟩) (k : Keyword) (line : Nat) :
    m.frames.getAt f d k.text line = r.machine.frames.getAt f d k.text line := by
  unfold Frames.getAt
  rw [hm.ancestor?, ha, Option.bind_some, Option.bind_some, hm.value?_word hk]

/-- A global is found as before. -/
theorem get_globals (h : Lawful ds q r) {m : Machine} (hm : ρ.Mirrors r m) {x : String}
    (hx : x ≠ ρ.new) (line : Nat) :
    m.frames.get globals x line = r.machine.frames.get globals x line := by
  have hp : m.frames.parent? globals = none := (hm.parent globals).trans h.globals_parent
  unfold Frames.get
  rw [Frames.outwards_of_none _ hp, Frames.outwards_of_none _ h.globals_parent]
  simp only [List.findSome?_cons, List.findSome?_nil, hm.value?_globals hx]

/-- A global is in the frame of the globals as before. -/
theorem holder?_globals (h : Lawful ds q r) {m : Machine} (hm : ρ.Mirrors r m) {x : String}
    (hx : x ≠ ρ.new) :
    m.frames.holder? globals x = r.machine.frames.holder? globals x := by
  have hp : m.frames.parent? globals = none := (hm.parent globals).trans h.globals_parent
  unfold Frames.holder? Frames.defines
  rw [Frames.outwards_of_none _ hp, Frames.outwards_of_none _ h.globals_parent]
  simp only [List.find?_cons, List.find?_nil, hm.value?_globals hx]

variable {p : Place} (hq : ∀ x, q x → x.Good ds) (hρ : ∀ x, q x → ρ.Suits x)

include hq hρ

/-- What is read is found under its new name. -/
theorem lookUp_mimics (h : Lawful ds q r) {e : Expr} (he : e.Ready q p) (hf : p.Fits r)
    {o : Occurrence} (ho : o ∈ (Node.expression e).read?) :
    Mimics ρ r (lift (Run.lookUp o.id o.token))
      (Run.lookUp o.id (ρ.occurrence p.around o).token) := by
  have hsite := he.sites _ (List.mem_map.mpr ⟨o, Node.read?_mem ho, rfl⟩)
  have hne : o.token.lexeme ≠ ρ.new := (hρ _ hsite).names _ (List.mem_singleton_self _)
  have hlexeme := Renaming.lexeme_occurrence (ρ := ρ) p.around ((hq _ hsite).proper o rfl)
  have hline := ρ.line_occurrence p.around o
  obtain ⟨-, hread⟩ := he.readAgrees hq h hf o ho
  have hfind : r.machine.distances.find? o.id = p.around.distance? o.token.lexeme :=
    h.distances ▸ (hq _ hsite).known o rfl
  refine .ofExcept fun m hm => ?_
  simp only [hm.distances, hm.active, hlexeme, hline]
  unfold Surroundings.openerOf
  cases hd : r.machine.distances.find? o.id with
  | some d =>
    obtain ⟨f, v, opener, -, -, ha, hopener, hopened, hv, -⟩ := hread d hd
    have hv' := hm.value ⟨f, some opener, o.token.lexeme⟩ (Or.inr hopened) hne
    rw [← hfind, hd, Option.bind_some, show p.around.openerAt d = some opener from hopener]
    unfold Frames.getAt
    simp only [hm.ancestor?, ha, Option.bind_some]
    rw [hv', show r.machine.frames.value? f o.token.lexeme = some v from hv]
  | none =>
    rw [← hfind, hd, Option.bind_none, Renaming.name_none]
    exact get_globals h hm hne _

/-- What is assigned to is found under its new name. -/
theorem store_mimics (h : Lawful ds q r) (hf : p.Fits r) {id : NodeId} {name : Token}
    (hsite : q ⟨p.around, .occurrence ⟨id, .assign, name⟩⟩) (v : Value) :
    Mimics ρ r (store p id name v) (Run.store id (ρ.used p.around name) v) := by
  have hne : name.lexeme ≠ ρ.new := (hρ _ hsite).names _ (List.mem_singleton_self _)
  have hfind : r.machine.distances.find? id = p.around.distance? name.lexeme :=
    h.distances ▸ (hq _ hsite).known ⟨id, .assign, name⟩ rfl
  intro m hm
  -- a local is renamed with its region, whereas globals keep their names
  cases hd : p.around.distance? name.lexeme with
  | some d =>
    obtain ⟨f, o, ha, ho, hopened, hcell⟩ := hf.visibleCell_eq h hd
    have hused : (ρ.used p.around name).lexeme = ρ.name (some o) name.lexeme := by
      show ρ.name ((p.around.distance? name.lexeme).bind p.around.openerAt) _ = _
      rw [hd, Option.bind_some, show p.around.openerAt d = some o from ho]
    have hrun : Run.store id (ρ.used p.around name) v m =
        .ok () { m with frames := m.frames.define f (ρ.name (some o) name.lexeme) v } := by
      unfold Run.store
      rw [hm.distances, hfind, hd]
      have ha' : m.frames.ancestor? m.active d = some f := by
        rw [hm.ancestor?, hm.active, ha]
      simp only [ha', ← hused]
      rfl
    have hok : store p id name v r = .ok () (r.write ⟨f, some o, name.lexeme⟩ v) := by
      unfold store noting Run.store
      simp only [hfind, hd, ha, Run.assignIn, hcell]
      rfl
    rw [hok, hrun]
    exact ⟨_, rfl, hm.write h (c := ⟨f, some o, name.lexeme⟩) (Or.inr hopened) hne v⟩
  | none =>
    have hused : ρ.used p.around name = name := by
      refine Renaming.token_eq ?_
      show ρ.name ((p.around.distance? name.lexeme).bind p.around.openerAt) _ = _
      rw [hd, Option.bind_none, Renaming.name_none]
    have hcell : r.visibleCell p name.lexeme = ⟨globals, none, name.lexeme⟩ := by
      unfold Record.visibleCell
      rw [hd]
    unfold store noting Run.store
    simp only [hm.distances, hfind, hd, hused, holder?_globals h hm hne, h.holder?_globals, hcell]
    cases r.machine.frames.defines globals name.lexeme with
    | true =>
      have hw := hm.write h (c := ⟨globals, none, name.lexeme⟩) (Or.inl ⟨rfl, rfl⟩) hne v
      simp only [Renaming.name_none] at hw
      exact ⟨_, rfl, hw⟩
    | false => exact ⟨m, rfl, hm⟩

omit hq hρ

/-- A declared name gets its variable under its new name. -/
theorem declare_mimics (h : Lawful ds q r) (hf : p.Fits r) {name name' : Token}
    (hne : name.lexeme ≠ ρ.new) (hname : ρ.declared p.around name = name') {v : Value}
    {t : Traced α} {run : Run α}
    (hn : Mimics ρ (r.write (r.ownCell p name.lexeme) v) t run) :
    Mimics ρ r (do declare p name v; t)
      (do Run.define (← Run.activeFrame) name'.lexeme v; run) := by
  subst hname
  unfold declare
  rw [bind_assoc]
  exact .activeFrame (.define h (hf.ownCell_known name.lexeme) hne rfl hn)

/-- Parameters get their variables under their new names. -/
theorem defineAll_mimics (h : Lawful ds q r) {frame : FrameId} {opener : Option Opener}
    (hc : ∀ x, Cell.Known r ⟨frame, opener, x⟩) {ps : List Token} {vs : List Value}
    (hne : ∀ t ∈ ps, t.lexeme ≠ ρ.new) (hv : ∀ v ∈ vs, v.Sound q r) :
    Mimics ρ r (defineAll frame opener (ps.zip vs))
      (Run.defineAll frame ((ps.map (ρ.token opener)).zip vs)) := by
  induction ps generalizing r vs with
  | nil => exact .pure ()
  | cons t ts ih =>
    cases vs with
    | nil => exact .pure ()
    | cons v vs =>
      have hsound := (hv v (List.mem_cons_self ..)).write h (hc t.lexeme) v
      have hcont := Continues.write h (hc t.lexeme) hsound
      have hknown : ∀ x, Cell.Known (r.write ⟨frame, opener, t.lexeme⟩ v) ⟨frame, opener, x⟩ :=
        fun x => (hc x).imp id fun ho => List.mem_cons_of_mem _ ho
      refine .define h (hc t.lexeme) (hne t (List.mem_cons_self ..)) rfl ?_
      exact ih hcont.lawful hknown (fun t' ht' => hne t' (List.mem_cons_of_mem _ ht'))
        fun v' hv' => hcont.sound (hv v' (List.mem_cons_of_mem _ hv'))

/-! ### Natives, output and instances -/

theorem callNative_mimics (n : Native) (vs : List Value) :
    Mimics ρ r (lift (Run.callNative n vs)) (Run.callNative n vs) := by
  intro m hm
  have hm' : ρ.Mirrors { r with machine := { r.machine with readings := r.machine.readings + 1 } }
      { m with readings := m.readings + 1 } := { hm with readings := congrArg (· + 1) hm.readings }
  have htime : m.clock m.readings = r.machine.clock r.machine.readings := by
    rw [hm.clock, hm.readings]
  unfold lift Run.callNative
  simp only [htime]
  cases n.run (r.machine.clock r.machine.readings) vs with
  | ok v => exact ⟨_, rfl, hm'⟩
  | error d => exact ⟨_, rfl, hm'⟩

theorem write_mimics (text : String) : Mimics ρ r (lift (Run.write text)) (Run.write text) := by
  intro m hm
  have hm' : ∀ part, ρ.Mirrors
      { r with machine := { r.machine with
          printed := part :: r.machine.printed, sink := r.machine.sink.next } }
      { m with printed := part :: m.printed, sink := m.sink.next } := fun part =>
    { hm with printed := congrArg (part :: ·) hm.printed, sink := congrArg Sink.next hm.sink }
  unfold lift Run.write
  by_cases ht : text.isEmpty = true
  · rw [if_pos ht, if_pos ht]
    exact ⟨m, rfl, hm⟩
  · rw [if_neg ht, if_neg ht]
    simp only [hm.sink]
    cases r.machine.sink.answer.cut? text with
    | some cut => exact ⟨_, rfl, hm.sink ▸ hm' cut.part⟩
    | none => exact ⟨_, rfl, hm.sink ▸ hm' text⟩

theorem flush_mimics : Mimics ρ r (lift Run.flush) Run.flush := by
  intro m hm
  have hm' : ρ.Mirrors
      { r with machine := { r.machine with sink := r.machine.sink.next } }
      { m with sink := m.sink.next } :=
    { hm with sink := congrArg Sink.next hm.sink }
  unfold lift Run.flush
  simp only [hm.sink]
  cases r.machine.sink.answer.flushFault? with
  | some _ => exact ⟨_, rfl, hm.sink ▸ hm'⟩
  | none => exact ⟨_, rfl, hm.sink ▸ hm'⟩

theorem asSuperclass_mimics (name : Token) (v : Value) :
    Mimics ρ r (lift (Run.asSuperclass name v)) (Run.asSuperclass name v) := by
  unfold Run.asSuperclass
  split
  · exact .pure _
  · exact .halt _

theorem newInstance_mimics (k : Nat) {next : Nat → Traced β} {next' : Nat → Run β}
    (hn : Mimics ρ (r.addInstance k) (next r.machine.objects.instances.size)
      (next' r.machine.objects.instances.size)) :
    Mimics ρ r (lift (Run.newInstance k) >>= next) (Run.newInstance k >>= next') := by
  refine hn.of_step rfl fun m hm => ⟨_, ?_, hm.withInstances _⟩
  rw [← hm.instances]
  rfl

theorem setField_mimics (object : Nat) (name : String) (v : Value) :
    Mimics ρ r (lift (Run.setField object name v)) (Run.setField object name v) := by
  intro m hm
  refine ⟨_, ?_, hm.withInstances _⟩
  unfold Run.setField Objects.setField
  rw [hm.instances]

theorem newClass_mimics (c : ClassObject) :
    Mimics ρ r (lift (Run.newClass c)) (Run.newClass c) := by
  intro m hm
  refine ⟨_, ?_, hm.withClasses _⟩
  unfold Run.newClass
  rw [hm.classes]

/-! ### Methods -/

/-- A bound method is renamed with the place of its body. -/
theorem bindMethod_mimics (h : Lawful ds q r) {body : Place} {c : Closure}
    (hm : ReadyMethod q r body c) (object : Nat) {next : Closure → Traced β}
    {next' : Closure → Run β}
    (hn : ∀ c' r', Continues ds q r r' → ReadyClosure q r' body c' →
      c'.declaration = c.declaration → Mimics ρ r' (next c') (next' (c'.rename ρ body))) :
    Mimics ρ r (bindMethod body c object >>= next)
      (Run.bindMethod (c.rename ρ body) object >>= next') := by
  obtain ⟨hc, hready, hdecl⟩ := (bindMethod_ensures h hm object).ok rfl
  refine (hn _ _ hc hready hdecl).of_step rfl fun m hmir => ?_
  have hpush := hmir.push c.captured (body.openerAt 1)
  have hlaw := h.push c.captured (body.openerAt 1)
  have hknown : Cell.Known (r.push c.captured (body.openerAt 1))
      ⟨r.machine.frames.size, body.openerAt 1, "this"⟩ := Or.inr (List.mem_cons_self ..)
  have hwrite := hpush.write hlaw hknown (Ne.symm (ρ.new_ne .this_)) (.object object)
  have hname : ρ.name (body.openerAt 1) "this" = "this" := Renaming.name_word _ .this_
  simp only [hname] at hwrite
  refine ⟨_, ?_, hwrite⟩
  rw [← hmir.size]
  rfl

/-- What is bound is the same value. -/
theorem bound_mimics (h : Lawful ds q r) {body : Place} {c : Closure}
    (hm : ReadyMethod q r body c) (object : Nat) :
    Mimics ρ r (bound body c object) (Run.bound (c.rename ρ body) object) :=
  bindMethod_mimics h hm object fun _ _ _ _ _ => .newClosure (.pure _)

theorem boundMethod_mimics (h : Lawful ds q r) (klass : Option Nat) (object : Nat)
    (name : Token) :
    Mimics ρ r (boundMethod klass object name) (Run.boundMethod klass object name) := by
  refine .ofObjects (fun m hm => hm.bind_methodClosure? klass name.lexeme) ?_
  cases hc : klass.bind fun k => r.machine.objects.methodClosure? k name.lexeme with
  | none => exact .halt _
  | some c =>
    obtain ⟨k, rfl, hk⟩ := Option.bind_eq_some_iff.mp hc
    exact .methodBody (bound_mimics h (readyMethod_of_find h hk) object)

theorem property_mimics (h : Lawful ds q r) (object : Nat) (name : Token) :
    Mimics ρ r (property object name) (Run.property object name) := by
  refine .ofObjects (fun m hm => hm.field? object name.lexeme) ?_
  cases r.machine.objects.field? object name.lexeme with
  | some v => exact .pure v
  | none =>
    exact .ofObjects (fun m hm => hm.classOf? object) (boundMethod_mimics h _ object name)

/-- The superclass and the receiver are found as before. -/
theorem superReference_mimics (hq : ∀ x, q x → x.Good ds) (h : Lawful ds q r)
    {id : NodeId} {keyword method : Token} (he : (Expr.superRef id keyword method).Ready q p)
    (hf : p.Fits r) :
    Mimics ρ r (lift (Run.superReference id keyword)) (Run.superReference id keyword) := by
  have hgood := hq _ (he.sites _ (List.mem_singleton_self _))
  have hfind : r.machine.distances.find? id = p.around.distance? keyword.lexeme :=
    h.distances ▸ hgood.known _ rfl
  rw [funext (Run.superReference_apply id keyword)]
  refine .ofExcept fun m hm => ?_
  rw [hm.distances]
  cases hd : r.machine.distances.find? id with
  | none => rfl
  | some d =>
    rw [hfind] at hd
    obtain ⟨g, hg, -⟩ := Surroundings.region_of_distance? hd
    have hlt : d < p.around.regions.length := (List.getElem?_eq_some_iff.mp hg).1
    have hword : ∀ k ≤ d, ∀ w : Keyword, m.frames.getAt m.active k w.text keyword.line =
        r.machine.frames.getAt r.machine.active k w.text keyword.line := by
      intro k hk w
      obtain ⟨f, -, -, hat⟩ := hf.at_region h
        (List.getElem?_eq_getElem (Nat.lt_of_le_of_lt hk hlt))
      rw [hm.active]
      exact getAt_word hm hat.ancestor (x := w.text) (Or.inr hat.opened) w _
    have hsuper := hword d (Nat.le_refl d) .super_
    have hthis := hword (d - 1) (Nat.sub_le d 1) .this_
    simp only [Keyword.text] at hsuper hthis
    simp only [hsuper, hthis]

/-- A method of the superclass is bound as before. -/
theorem superMethod_mimics (hq : ∀ x, q x → x.Good ds) (h : Lawful ds q r)
    {id : NodeId} {keyword method : Token} (he : (Expr.superRef id keyword method).Ready q p)
    (hf : p.Fits r) :
    Mimics ρ r (superMethod id keyword method) (Run.superMethod id keyword method) := by
  have hs : Ensures ds q r (lift (Run.superReference id keyword)) fun _ _ => True :=
    .still h (.superReference id keyword) fun _ _ => trivial
  refine (superReference_mimics hq h he hf).bind hs fun ⟨superclass, receiver⟩ r₁ hc _ => ?_
  cases superclass with
  | callable c =>
    cases c with
    | klass k =>
      cases receiver with
      | object i => exact boundMethod_mimics hc.lawful _ i method
      | _ => exact .halt _
    | _ => exact .halt _
  | _ => exact .halt _

/-! ### Declarations -/

theorem functionValue_mimics {f : FunDecl} {next : Value → Traced β} {next' : Value → Run β}
    (hn : Mimics ρ (r.addClosure ((p.declare f.name).body .function f) ⟨f, r.machine.active, false⟩)
      (next (.callable (.closure r.machine.objects.closures.size)))
      (next' (.callable (.closure r.machine.objects.closures.size)))) :
    Mimics ρ r (functionValue p f >>= next)
      (Run.functionValue (f.rename ρ (p.around.declare f.name) .function) >>= next') := by
  rw [show f.rename ρ (p.around.declare f.name) .function = _ from
    f.rename_eq ρ (p.declare f.name) .function]
  unfold functionValue Run.functionValue
  rw [bind_assoc, bind_assoc]
  refine .activeFrame ?_
  rw [bind_assoc, bind_assoc]
  exact .newClosure (by rw [pure_bind, pure_bind]; exact hn)

theorem methodTable_mimics (frame : FrameId) {inner : Place} {i : Nat} (fs : List FunDecl)
    (table : NameTable Nat) :
    Mimics ρ r (methodTable frame inner i fs table)
      (Run.methodTable frame (FunDecl.renameAll ρ inner.around i fs) table) := by
  induction fs generalizing r inner i table with
  | nil => exact .pure table
  | cons f fs ih =>
    rw [FunDecl.renameAll, show f.rename ρ (inner.around.child i) f.methodContext = _ from
      f.rename_eq ρ (inner.child i) f.methodContext]
    exact .newClosure (@ih _ (inner.afterMethod f) (i + 1) _)

theorem methodFrame_mimics (h : Lawful ds q r) (frame : FrameId) (k : Option Nat) :
    Mimics ρ r (methodFrame p frame k) (Run.methodFrame frame k) := by
  cases k with
  | none => exact .pure frame
  | some k =>
    have hknown : Cell.Known (r.push frame (p.openerAt 1))
        ⟨r.machine.frames.size, p.openerAt 1, "super"⟩ := Or.inr (List.mem_cons_self ..)
    exact .openFrame (.define (h.push ..) hknown (Ne.symm (ρ.new_ne .super_))
      (Renaming.name_word _ .super_) (.pure _))

/-- The name of a class keeps its variable. -/
theorem assign_mimics (h : Lawful ds q r) (hf : p.Fits r) {name : Token}
    (hne : name.lexeme ≠ ρ.new) (hkept : ρ.name (p.openerAt 0) name.lexeme = name.lexeme)
    (hd : r.machine.frames.defines r.machine.active name.lexeme = true) (v : Value) :
    Mimics ρ r (assign p name v) (Run.assign name v) := by
  have hknown := hf.ownCell_known name.lexeme
  intro m hm
  have hvalue := hm.value _ hknown hne
  have hwrite := hm.write h hknown hne v
  simp only [Record.ownCell, hkept] at hvalue hwrite
  have hd' : m.frames.defines m.active name.lexeme = true := by
    unfold Frames.defines at hd ⊢
    rw [hm.active, hvalue]
    exact hd
  rw [assign_apply hd]
  refine ⟨_, ?_, hwrite⟩
  unfold Run.assign
  rw [Frames.holder?_self _ hd']
  simp only [Run.assignIn, hm.active]

/-- The declaration of a class, with renamed methods. -/
theorem declareClass_mimics (hq : ∀ x, q x → x.Good ds) (hρ : ∀ x, q x → ρ.Suits x)
    (h : Lawful ds q r) {name : Token} {superclass : Option Expr} {methods : List FunDecl}
    (hs : (Stmt.classDecl name superclass methods).Ready q p) (hf : p.Fits r) {k : Option Nat}
    (hk : k.isSome = superclass.isSome) :
    Mimics ρ r (declareClass p (p.methods name superclass) name k methods)
      (Run.declareClass name k
        (FunDecl.renameAll ρ (p.methods name superclass).around 0 methods)) := by
  have hsuits := hρ _ (hs.sites _ (Stmt.classDecl_mem_sites p.around name superclass methods))
  have hne : name.lexeme ≠ ρ.new := hsuits.names name (List.mem_singleton_self name)
  have hkept : ρ.name (p.openerAt 0) name.lexeme = name.lexeme :=
    hsuits.kept .class_ name rfl (Or.inr rfl)
  have hknown := hf.ownCell_known name.lexeme
  have hcont : Continues ds q r (r.write (r.ownCell p name.lexeme) .nil) := .write h hknown .nil
  have hfits := hs.place.fits_declared h hf name .nil
  refine .activeFrame (.define h hknown hne hkept ?_)
  refine (methodFrame_mimics hcont.lawful r.machine.active k).bind
    (methodFrame_ensures hcont.lawful hfits superclass k hk) fun captured r₂ hc₂ hcap => ?_
  obtain ⟨g, outer, hregions, hg, hcap⟩ := hcap
  refine (methodTable_mimics captured methods []).bind
    (methodTable_ensures hc₂.lawful hq hregions hg hcap hs.methods fun x id hid => by cases hid)
    fun table r₃ hc₃ htable => ?_
  refine (newClass_mimics _).bind (newClass_ensures hc₃.lawful htable) fun klass r₄ hc₄ _ => ?_
  have hc := hc₂.trans (hc₃.trans hc₄)
  refine .note (assign_mimics (hc₄.lawful.did _) ?_ hne hkept ?_ _)
  · exact (Continues.did hc₄.lawful _).fits ((hcont.trans hc).fits hf)
  · show r₄.machine.frames.defines r₄.machine.active name.lexeme = true
    rw [hc.active]
    exact hc.defines _ _ (hf.defines_ownCell h name.lexeme .nil)

end Traced

end Lox
