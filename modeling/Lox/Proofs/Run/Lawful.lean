/-
Lawful records.

A record is lawful if the machine is in step with what is visible in the program: each value that
can be reached is sound, each frame was opened for a construct, holds what was last written to its
cells, and each node was met in a chain of frames that fits the regions around it.

* `Fits` — the frames outwards from a frame are one for each region, and the globals;
* `Later` — what a run may make of a record: frames keep their links and variables, closures stay;
* `Value.Sound`, `ReadyMethod` — a function that can be called is captured in a fitting chain;
* `Agreement` — what is known of a node that is met;
* `Lawful` — all of it, of a record.

Design notes: `Fits` holds of a closure from its making to its last call, since it looks at nothing
that a run takes back.  The names of the innermost region that need not have a variable yet are
given as `absent`: the variable that is being initialized, and the class of a superclass.
-/
import Lox.Proofs.Run.Trace
import Lox.Proofs.Store.Growth

namespace Lox

/-! ### Chains of frames -/

/-- The frames outwards from a frame are one for each region, opened for what opens the region and
with a variable for each name that is visible there, and then the globals. -/
def Fits (r : Record) (absent : String → Prop) : List Region → FrameId → Prop
  | [], f => f = globals
  | g :: outer, f =>
    .opened f (some g.opener) ∈ r.log ∧
    (∀ x ∈ g.names, ¬ absent x → r.machine.frames.defines f x = true) ∧
    ∃ parent, r.machine.frames.parent? f = some parent ∧ parent < f ∧
      Fits r (fun _ => False) outer parent

/-- The names of the innermost region that need not have a variable yet. -/
def Place.Absent (p : Place) (x : String) : Prop :=
  (∃ g ∈ p.around.regions.head?, g.pending = some x) ∨ p.declaring = some x

/-- The chain of frames from the one in which the program is fits the regions around a place. -/
def Place.Fits (p : Place) (r : Record) : Prop :=
  Lox.Fits r p.Absent p.around.regions r.machine.active

/-- What a run may make of a record. -/
structure Later (r r' : Record) : Prop where
  parent : ∀ f parent, r.machine.frames.parent? f = some parent →
    r'.machine.frames.parent? f = some parent
  defines : ∀ f x, r.machine.frames.defines f x = true → r'.machine.frames.defines f x = true
  log : ∀ e ∈ r.log, e ∈ r'.log
  closures : ∀ id c, r.machine.objects.closures[id]? = some c →
    r'.machine.objects.closures[id]? = some c ∧ r'.bodies id = r.bodies id

namespace Later

variable {r r' r'' : Record}

theorem refl (r : Record) : Later r r :=
  ⟨fun _ _ h => h, fun _ _ h => h, fun _ h => h, fun _ _ h => ⟨h, rfl⟩⟩

theorem trans (h : Later r r') (h' : Later r' r'') : Later r r'' where
  parent f parent hp := h'.parent f parent (h.parent f parent hp)
  defines f x hd := h'.defines f x (h.defines f x hd)
  log e he := h'.log e (h.log e he)
  closures id c hc := by
    obtain ⟨h₁, hb₁⟩ := h.closures id c hc
    obtain ⟨h₂, hb₂⟩ := h'.closures id c h₁
    exact ⟨h₂, hb₂.trans hb₁⟩

end Later

theorem Fits.mono {r r' : Record} (h : Later r r') {absent absent' : String → Prop}
    (ha : ∀ x, absent x → absent' x) {regions : List Region} {f : FrameId}
    (hf : Fits r absent regions f) : Fits r' absent' regions f := by
  induction regions generalizing f absent absent' with
  | nil => exact hf
  | cons g outer ih =>
    obtain ⟨ho, hd, parent, hp, hlt, hout⟩ := hf
    exact ⟨h.log _ ho, fun x hx hn => h.defines f x (hd x hx fun hax => hn (ha x hax)), parent,
      h.parent f parent hp, hlt, ih (fun _ hx => hx) hout⟩

/-! ### Values -/

/-- The body of a function at a place: its region is the innermost one, and its parameters, which
are declared at sites of the program, are all that is visible in it at first. -/
structure FunDecl.Stands (q : Site → Prop) (body : Place) (f : FunDecl) (outer : List Region) :
    Prop where
  params : ∀ t ∈ f.params, ∃ a, q ⟨a, .declaration .parameter t⟩
  ready : Stmt.AllReady q body 0 f.body
  regions : ∃ g, body.around.regions = g :: outer ∧ g.pending = none ∧
    ∀ x ∈ g.names, ∃ t ∈ f.params, t.lexeme = x

/-- A closure the frame of which fits the regions around its body. -/
def ReadyClosure (q : Site → Prop) (r : Record) (body : Place) (c : Closure) : Prop :=
  ∃ outer, c.declaration.Stands q body outer ∧ Fits r (fun _ => False) outer c.captured

/-- A method that is not bound: between its frame and its body the region of `this` is missing. -/
def ReadyMethod (q : Site → Prop) (r : Record) (body : Place) (c : Closure) : Prop :=
  ∃ g outer, c.declaration.Stands q body (g :: outer) ∧ g.names = ["this"] ∧
    Fits r (fun _ => False) outer c.captured

/-- A closure among the values is ready to be called. -/
def Value.Sound (q : Site → Prop) (r : Record) (v : Value) : Prop :=
  ∀ id, v = .callable (.closure id) →
    ∃ c, r.machine.objects.closures[id]? = some c ∧ ReadyClosure q r (r.bodies id) c

/-- What a native yields is plain data. -/
def Native.Plain (n : Native) : Prop :=
  ∀ now vs v, n.run now vs = .ok v → ∀ c, v ≠ .callable c

section

variable {q : Site → Prop} {r r' : Record}

theorem FunDecl.Stands.imp {q' : Site → Prop} (hq : ∀ x, q x → q' x) {body : Place} {f : FunDecl}
    {outer : List Region} (h : f.Stands q body outer) : f.Stands q' body outer :=
  ⟨fun t ht => (h.params t ht).imp fun _ ha => hq _ ha,
    ⟨h.ready.place, h.ready.proper, fun x hx => hq x (h.ready.sites x hx)⟩, h.regions⟩

theorem ReadyClosure.mono {q' : Site → Prop} (hq : ∀ x, q x → q' x) (h : Later r r')
    {body : Place} {c : Closure} (hc : ReadyClosure q r body c) : ReadyClosure q' r' body c := by
  obtain ⟨outer, hs, hf⟩ := hc
  exact ⟨outer, hs.imp hq, hf.mono h fun _ hx => hx⟩

theorem ReadyMethod.mono {q' : Site → Prop} (hq : ∀ x, q x → q' x) (h : Later r r')
    {body : Place} {c : Closure} (hc : ReadyMethod q r body c) : ReadyMethod q' r' body c := by
  obtain ⟨g, outer, hs, hg, hf⟩ := hc
  exact ⟨g, outer, hs.imp hq, hg, hf.mono h fun _ hx => hx⟩

/-- What is ready as a method stays so. -/
theorem Later.readyMethod {q' : Site → Prop} (hq : ∀ x, q x → q' x) (h : Later r r') {id : Nat}
    (hm : ∃ c, r.machine.objects.closures[id]? = some c ∧ ReadyMethod q r (r.bodies id) c) :
    ∃ c, r'.machine.objects.closures[id]? = some c ∧ ReadyMethod q' r' (r'.bodies id) c := by
  obtain ⟨c, hc, hready⟩ := hm
  obtain ⟨hc', hb⟩ := h.closures id c hc
  refine ⟨c, hc', ?_⟩
  rw [hb]
  exact hready.mono hq h

theorem Value.Sound.mono {q' : Site → Prop} (hq : ∀ x, q x → q' x) (h : Later r r') {v : Value}
    (hv : v.Sound q r) : v.Sound q' r' := by
  intro id he
  obtain ⟨c, hc, hr⟩ := hv id he
  obtain ⟨hc', hb⟩ := h.closures id c hc
  refine ⟨c, hc', ?_⟩
  rw [hb]
  exact hr.mono hq h

/-- Only closures have to be looked at. -/
theorem Value.Sound.of_ne {v : Value} (h : ∀ id, v ≠ .callable (.closure id)) : v.Sound q r :=
  fun id he => absurd he (h id)

theorem Value.Sound.nil : Value.Sound q r .nil := .of_ne nofun

theorem Value.Sound.object {i : Nat} : Value.Sound q r (.object i) := .of_ne nofun

theorem Value.Sound.klass {k : Nat} : Value.Sound q r (.callable (.klass k)) := .of_ne nofun

end

/-! ### What is known of a node that is met -/

/-- The frame that an event opens. -/
def Event.opened? : Event → Option FrameId
  | .opened f _ => some f
  | _ => none

/-- The occurrence that a node is, if it is one that is read. -/
def Node.read? : Node → Option Occurrence
  | .expression (.var id name) => some ⟨id, .variable_, name⟩
  | .expression (.thisRef id keyword) => some ⟨id, .this_, keyword⟩
  | .expression (.superRef id keyword _) => some ⟨id, .super_, keyword⟩
  | _ => none

/-- The occurrence that a node is, if it is one that is written to. -/
def Node.written? : Node → Option Occurrence
  | .expression (.assign id name _) => some ⟨id, .assign, name⟩
  | _ => none

/-- The frames outwards from the one in which the program is are one for each scope of the walk, and
the globals.  Each was opened for the construct that opens the scope, and has a variable for each
name that is defined in the scope, except that the class of a superclass may be without. -/
def ChainAgrees (log : List Event) (p : Place) (m : Machine) : Prop :=
  ∃ frames : List FrameId, m.frames.outwards m.active = frames ++ [globals] ∧
    globals ∉ frames ∧ frames.length = p.walk.scopes.length ∧
    ∀ k f scope, frames[k]? = some f → p.walk.scopes[k]? = some scope →
      (∃ o, p.openerAt k = some o ∧ .opened f (some o) ∈ log) ∧
      ∀ x, scope.find? x = some true → ¬ (k = 0 ∧ p.declaring = some x) →
        m.frames.defines f x = true

/-- A node that is read has the distance that is found in the scopes of the walk.  If there is one,
it has a variable in the frame of that number outwards, which is not the globals, and the value of
the variable is what was last written to its cell. -/
def ReadAgrees (log : List Event) (p : Place) (node : Node) (m : Machine) : Prop :=
  ∀ o ∈ node.read?, m.distances.find? o.id = distance? p.walk.scopes o.token.lexeme ∧
    ∀ d, m.distances.find? o.id = some d →
      ∃ f v opener, (m.frames.outwards m.active)[d]? = some f ∧ f ≠ globals ∧
        m.frames.ancestor? m.active d = some f ∧
        p.openerAt d = some opener ∧ .opened f (some opener) ∈ log ∧
        m.frames.value? f o.token.lexeme = some v ∧
        lastWritten log ⟨f, some opener, o.token.lexeme⟩ = some v

/-- A node that is written to has the distance that is found in the scopes of the walk.  If there is
one, the frame of that number outwards is not the globals, and it has a variable of the name, except
in the initializer of that variable. -/
def WriteAgrees (p : Place) (node : Node) (m : Machine) : Prop :=
  ∀ o ∈ node.written?, m.distances.find? o.id = distance? p.walk.scopes o.token.lexeme ∧
    ∀ d, m.distances.find? o.id = some d →
      ∃ f, (m.frames.outwards m.active)[d]? = some f ∧ f ≠ globals ∧
        m.frames.ancestor? m.active d = some f ∧
        (p.walk.isPending o.token = false → m.frames.defines f o.token.lexeme = true)

/-- Each node was met in a chain of frames that agrees with its place. -/
def Told : List Event → Prop
  | [] => True
  | .met p node m :: log =>
    ChainAgrees log p m ∧ ReadAgrees log p node m ∧ WriteAgrees p node m ∧ Told log
  | .opened .. :: log => Told log
  | .wrote .. :: log => Told log
  | .did _ :: log => Told log

theorem Told.of_append {later log : List Event} (h : Told (later ++ log)) : Told log := by
  induction later with
  | nil => exact h
  | cons e later ih =>
    cases e with
    | met p node m => exact ih h.2.2.2
    | opened f o => exact ih h
    | wrote c v => exact ih h
    | did deed => exact ih h

/-- A cell of a frame that was opened for the construct of the cell, or of the globals. -/
def Cell.Known (r : Record) (c : Cell) : Prop :=
  (c.activation = globals ∧ c.opener = none) ∨ .opened c.activation c.opener ∈ r.log

theorem Cell.Known.mono {r r' : Record} {c : Cell} (h : c.Known r) (hr : Later r r') : c.Known r' :=
  h.imp id (hr.log _)

/-- Each frame of a fitting chain is known. -/
theorem Fits.known {r : Record} {absent : String → Prop} {regions : List Region} {f : FrameId}
    (hf : Fits r absent regions f) : ∃ o, ∀ x, Cell.Known r ⟨f, o, x⟩ := by
  cases regions with
  | nil => exact ⟨none, fun x => Or.inl ⟨hf, rfl⟩⟩
  | cons g outer => exact ⟨some g.opener, fun x => Or.inr hf.1⟩

/-- The machine of a record is in step with what was noted, and with what is visible. -/
structure Lawful (ds : Distances) (q : Site → Prop) (r : Record) : Prop where
  distances : r.machine.distances = ds
  globals_lt : globals < r.machine.frames.size
  globals_parent : r.machine.frames.parent? globals = none
  opened_lt : ∀ f o, .opened f o ∈ r.log → f < r.machine.frames.size ∧ f ≠ globals
  opened_once : (r.log.filterMap Event.opened?).Nodup
  wrote_lt : ∀ c v, .wrote c v ∈ r.log → c.activation < r.machine.frames.size
  holds : ∀ f o, .opened f o ∈ r.log → ∀ x,
    r.machine.frames.value? f x = lastWritten r.log ⟨f, o, x⟩
  values : ∀ f x v, r.machine.frames.value? f x = some v → v.Sound q r
  fields : ∀ i x v, r.machine.objects.field? i x = some v → v.Sound q r
  methods : ∀ k x id, r.machine.objects.ownMethod? k x = some id →
    ∃ c, r.machine.objects.closures[id]? = some c ∧ ReadyMethod q r (r.bodies id) c
  natives : ∀ n ∈ r.machine.objects.natives, n.Plain
  told : Told r.log

end Lox
