/-
The moments of a run.

A node is met at a moment of a run, and the machine of that moment is noted.  All that is known of
records holds of the record at each such moment, and whatever a machine has that can not be taken
back — links of frames, receivers, superclasses, closures and classes — the machines of later
moments have as well.

* `Machine.Keeps` — what a later machine has kept;
* `Moment` — what is known of a node and of the record on which it is met;
* `Annals` — the invariant: each node was met at a moment, and later machines keep what there was;
* `Standing`, `Standing.Next` — a record within a run, and one to which a run may lead from it;
* `AllChronicle`, `allChronicle` — evaluation writes such annals, with any fuel;
* `Annals.standing` — at each moment of a run the record was one within a run;
* `session_annals` — the record of any session.

Design notes: the induction is on the fuel.  What is known of the records in between is taken from
`Conformance` and `Inheritance` by `Chronicles.stands`, so that each case only says which nodes are
met and what is declared.
-/
import Lox.Proofs.Run.Inheritance
import Lox.Proofs.Run.Origins

namespace Lox

/-! ### Machines at moments -/

/-- What a later machine has kept of an earlier one. -/
structure Machine.Keeps (m m' : Machine) : Prop where
  closures : ∀ (id : Nat) (c : Closure), m.objects.closures[id]? = some c →
    m'.objects.closures[id]? = some c
  parent : ∀ f parent, m.frames.parent? f = some parent → m'.frames.parent? f = some parent
  words : ∀ (k : Keyword) f v, m.frames.value? f k.text = some v →
    m'.frames.value? f k.text = some v
  objects : m.objects.Extends m'.objects

theorem Machine.Keeps.refl (m : Machine) : m.Keeps m :=
  ⟨fun _ _ h => h, fun _ _ h => h, fun _ _ _ h => h, .refl _⟩

theorem Machine.Keeps.trans {m m' m'' : Machine} (h : m.Keeps m') (h' : m'.Keeps m'') :
    m.Keeps m'' where
  closures id c hc := h'.closures id c (h.closures id c hc)
  parent f parent hp := h'.parent f parent (h.parent f parent hp)
  words k f v hv := h'.words k f v (h.words k f v hv)
  objects := h.objects.trans h'.objects

theorem Retains.keeps {r r' : Record} (h : Retains r r') : r.machine.Keeps r'.machine :=
  ⟨fun id c hc => (h.closures id c hc).1, h.parent, h.words, h.objects⟩

/-- A method that is bound to an instance stays bound to it. -/
theorem Machine.Bound.mono {m m' : Machine} (h : m.Keeps m') {id : Nat} {method : Closure}
    {object : Nat} (hb : m.Bound id method object) : m'.Bound id method object := by
  obtain ⟨f, hc, hp, hv⟩ := hb
  exact ⟨f, h.closures id _ hc, h.parent f _ hp, h.words .this_ f _ hv⟩

/-- The machine on which a node is met. -/
def Event.machine? : Event → Option Machine
  | .met _ _ m => some m
  | _ => none

/-- The machines on which nodes were met, the latest first. -/
def machines (log : List Event) : List Machine :=
  log.filterMap Event.machine?

theorem machines_silent {new log : List Event} (h : ∀ p node m, .met p node m ∉ new) :
    machines (new ++ log) = machines log := by
  unfold machines
  rw [List.filterMap_append, List.filterMap_eq_nil_iff.mpr, List.nil_append]
  intro e he
  cases e with
  | met p node m => exact absurd he (h p node m)
  | opened f o => rfl
  | wrote c v => rfl
  | did deed => rfl

/-- A node stands ready at a place. -/
def Node.Ready (q : Site → Prop) (p : Place) : Node → Prop
  | .expression e => e.Ready q p
  | .statement s => s.Ready q p

/-- A node that is met on a record of which all is known that is ever known of records. -/
def Moment (p : Place) (node : Node) (r : Record) : Prop :=
  ∃ ds q, (∀ x, q x → x.Good ds) ∧ (∀ x, q x → x.Placed) ∧ Lawful ds q r ∧ Grounded r ∧
    Rooted r ∧ node.Ready q p ∧ p.Fits r

/-- Each node was met at a moment, and the machines of later moments keep what those of earlier ones
had. -/
structure Annals (r : Record) : Prop where
  rooted : Rooted r
  met : ∀ later p node m earlier, r.log = later ++ .met p node m :: earlier →
    ∃ bodies, Moment p node ⟨m, bodies, earlier⟩
  kept : ∀ m ∈ machines r.log, m.Keeps r.machine
  ordered : (machines r.log).Pairwise fun later earlier => earlier.Keeps later

namespace Annals

variable {r r' : Record}

/-- Nothing is added while no node is met. -/
theorem silent (h : Annals r) (hs : Silent r r') (hr : Retains r r') : Annals r' := by
  obtain ⟨new, hnew, hsilent⟩ := hs.log
  have hmachines : machines r'.log = machines r.log := by rw [hnew, machines_silent hsilent]
  refine
    { rooted := hs.rooted h.rooted
      met := fun later p node m earlier hlog => ?_
      kept := fun m hm => (h.kept m (hmachines ▸ hm)).trans hr.keeps
      ordered := hmachines ▸ h.ordered }
  rw [hnew] at hlog
  -- the meeting stands in the old part of the log, or else among the new events
  rcases List.append_eq_append_iff.mp hlog with ⟨rest, -, hrest⟩ | ⟨rest, hrest, hold⟩
  · exact h.met rest p node m earlier hrest
  · cases rest with
    | nil => exact h.met [] p node m earlier hold.symm
    | cons e rest =>
      -- a node that is met is not among the new events
      cases hold
      exact absurd (hrest ▸ List.mem_append_right _ (List.mem_cons_self ..)) (hsilent p node m)

/-- A node is met. -/
theorem meet (h : Annals r) {p : Place} {node : Node} (hm : Moment p node r) :
    Annals (r.meet p node) where
  rooted :=
    { closures := fun id c hc =>
        (h.rooted.closures id c hc).mono fun _ he => List.mem_cons_of_mem _ he
      classes := fun k c hc => by
        obtain ⟨methods, hd⟩ := h.rooted.classes k c hc
        exact ⟨methods, hd.mono (fun _ he => List.mem_cons_of_mem _ he) fun _ _ hc => hc⟩ }
  met later p' node' m earlier hlog := by
    have hlog : .met p node r.machine :: r.log = later ++ .met p' node' m :: earlier := hlog
    cases later with
    | nil =>
      cases hlog
      exact ⟨r.bodies, hm⟩
    | cons e later =>
      obtain ⟨-, hlog⟩ := List.cons.inj hlog
      exact h.met later p' node' m earlier hlog
  kept := List.forall_mem_cons.mpr ⟨.refl r.machine, h.kept⟩
  ordered := List.pairwise_cons.mpr ⟨h.kept, h.ordered⟩

theorem inside (h : Annals r) (f : FrameId) : Annals (r.inside f) :=
  h.silent (.of_eq rfl rfl rfl ⟨[], rfl, fun _ _ _ hm => by cases hm⟩) (.inside r f)

/-- A deed is noted. -/
theorem did (h : Annals r) (deed : Deed) : Annals (r.did deed) :=
  h.silent (.did deed) (.did deed)

/-- What is printed, and the readings of the clock, do not matter. -/
theorem alike (h : Annals r) {m : Machine} (hm : r.machine.Alike m) :
    Annals { r with machine := m } :=
  h.silent (.of_eq (by rw [hm.objects]) (by rw [hm.objects]) rfl
    ⟨[], rfl, fun _ _ _ he => by cases he⟩) (.of_eq hm.frames hm.objects rfl rfl)

end Annals

/-! ### Records within a run -/

/-- A record within a run: all is known of it that is ever known of records. -/
structure Standing (ds : Distances) (q : Site → Prop) (r : Record) : Prop where
  good : ∀ x, q x → x.Good ds
  placed : ∀ x, q x → x.Placed
  lawful : Lawful ds q r
  grounded : Grounded r
  annals : Annals r

/-- A record within a run to which a run may lead from an earlier one. -/
structure Standing.Next (ds : Distances) (q : Site → Prop) (r r' : Record) : Prop where
  standing : Standing ds q r'
  continues : Continues ds q r r'
  upholds : Upholds r r'

namespace Standing

variable {ds : Distances} {q : Site → Prop} {r r' : Record} {p : Place}

theorem Next.retains (h : Next ds q r r') : Retains r r' := h.upholds.toRetains

theorem Next.fits (h : Next ds q r r') (hf : p.Fits r) : p.Fits r' := h.continues.fits hf

theorem Next.trans {r'' : Record} (h : Next ds q r r') (h' : Next ds q r' r'') :
    Next ds q r r'' :=
  ⟨h'.standing, h.continues.trans h'.continues, h.upholds.trans h'.upholds⟩

theorem inside (h : Standing ds q r) (f : FrameId) : Standing ds q (r.inside f) where
  good := h.good
  placed := h.placed
  lawful := h.lawful.inside f
  grounded := h.grounded.inside f
  annals := h.annals.inside f

/-- A node is met. -/
theorem meet (h : Standing ds q r) (node : Node) (hn : node.Ready q p) (hf : p.Fits r) :
    Next ds q r (r.meet p node) := by
  have hannals : Annals (r.meet p node) :=
    h.annals.meet ⟨ds, q, h.good, h.placed, h.lawful, h.grounded, h.annals.rooted, hn, hf⟩
  cases node with
  | expression e =>
    have he : e.Ready q p := hn
    have hmeet := Continues.meetExpression h.lawful h.good he hf
    have hgrounded := h.grounded.meet (he.refers h.good h.placed h.lawful h.grounded hf)
    exact ⟨⟨h.good, h.placed, hmeet.lawful, hgrounded, hannals⟩, hmeet, ⟨.meet p _, hgrounded⟩⟩
  | statement s =>
    have hs : s.Ready q p := hn
    have hmeet := Continues.meetStatement h.lawful hs hf
    have hgrounded := h.grounded.meet (.statement p s r)
    exact ⟨⟨h.good, h.placed, hmeet.lawful, hgrounded, hannals⟩, hmeet, ⟨.meet p _, hgrounded⟩⟩

/-- A frame is made. -/
theorem push (h : Standing ds q r) (parent : FrameId) (opener : Option Opener)
    (hg : Grounded (r.push parent opener)) : Next ds q r (r.push parent opener) where
  standing :=
    { good := h.good
      placed := h.placed
      lawful := h.lawful.push parent opener
      grounded := hg
      annals := h.annals.silent (.push parent opener) (.push parent opener) }
  continues := .push h.lawful parent opener
  upholds := ⟨.push parent opener, hg⟩

/-- An instance is made. -/
theorem addInstance (h : Standing ds q r) (k : Nat) : Next ds q r (r.addInstance k) := by
  have hcont := Traced.continues_addInstance h.lawful k
  have hu : Upholds r (r.addInstance k) :=
    ⟨.withObjects rfl (r.machine.objects.extends_addInstance k), h.grounded.addInstance k⟩
  exact ⟨⟨h.good, h.placed, hcont.lawful, hu.grounded,
    h.annals.silent (.addInstance k) hu.toRetains⟩,
    hcont, hu⟩

end Standing

/-! ### Evaluation -/

namespace Traced

variable {α β : Type} {ds : Distances} {q : Site → Prop} {r : Record}

/-- However it ends, the run leads to a record with annals. -/
def Chronicles (r : Record) (t : Traced α) : Prop :=
  Leads (fun _ r' => Annals r') r t fun _ _ => True

/-- From a record within a run the run leads to one, and something holds of what it yields. -/
def Stands (ds : Distances) (q : Site → Prop) (r : Record) (t : Traced α)
    (post : α → Record → Prop) : Prop :=
  Leads (Standing.Next ds q) r t post

namespace Chronicles

variable {t : Traced α} {post post' post'' : α → Record → Prop}

theorem pure (h : Annals r) (a : α) : Chronicles r (Pure.pure a : Traced α) :=
  Leads.pure h trivial

theorem plain (h : Annals r) {run : Run Value} (hp : run.Plain) : Chronicles r (lift run) := by
  rcases hp with ⟨v, rfl, -⟩ | ⟨e, rfl⟩
  · exact pure h v
  · exact Leads.of_error rfl h

theorem halt (h : Annals r) (e : Halt) : Chronicles r (lift (Run.halt e) : Traced α) :=
  Leads.of_error rfl h

theorem raise (h : Annals r) (line : Nat) (fault : RuntimeFault) :
    Chronicles r (lift (Run.raise line fault) : Traced α) :=
  .halt h _

/-- A run that meets no node. -/
theorem silently (h : Annals r) (hs : Silently r t post) (hg : Grounds r t post') :
    Chronicles r t := by
  cases ht : t r with
  | ok a r' =>
    exact Leads.of_ok ht (h.silent (Leads.ok hs ht).1 (Leads.ok hg ht).1.toRetains) trivial
  | error e r' =>
    exact Leads.of_error ht (h.silent (Leads.error hs ht) (Leads.error hg ht).toRetains)

/-- A run that leaves the machine as it is. -/
theorem still (h : Annals r) {run : Run α} (hs : run.Still) : Chronicles r (lift run) :=
  Leads.still hs h fun _ _ => trivial

/-- A run that only changes what is printed, and how often the clock was read. -/
theorem quiet (h : Annals r) {run : Run α} (hq : run.Quiet) : Chronicles r (lift run) :=
  Leads.quiet hq (fun _ hm => h.alike hm) fun _ _ _ => trivial

/-- A run that goes on from another record. -/
theorem of_eq {r₁ : Record} {u : Traced α} (he : t r = u r₁) (hu : Chronicles r₁ u) :
    Chronicles r t :=
  Leads.of_step (fun _ h => h) he hu

/-- Reading something off the objects. -/
theorem ofObjects {f : Objects → α} {next : α → Traced β}
    (hn : Chronicles r (next (f r.machine.objects))) :
    Chronicles r (lift (Run.ofObjects f) >>= next) :=
  of_eq rfl hn

theorem activeFrame {next : FrameId → Traced β} (hn : Chronicles r (next r.machine.active)) :
    Chronicles r (lift Run.activeFrame >>= next) :=
  of_eq rfl hn

theorem methodBody {klass : Option Nat} {name : String} {next : Place → Traced β}
    (hn : Chronicles r (next (r.methodBody klass name))) :
    Chronicles r (Traced.methodBody klass name >>= next) :=
  of_eq rfl hn

theorem newInstance {k : Nat} {next : Nat → Traced β}
    (hn : Chronicles (r.addInstance k) (next r.machine.objects.instances.size)) :
    Chronicles r (lift (Run.newInstance k) >>= next) :=
  of_eq rfl hn

theorem openFrame {parent : FrameId} {opener : Option Opener} {next : FrameId → Traced β}
    (hn : Chronicles (r.push parent opener) (next r.machine.frames.size)) :
    Chronicles r (Traced.openFrame parent opener >>= next) :=
  of_eq rfl hn

theorem note {deed : Machine → Deed} {next : Unit → Traced β}
    (hn : Chronicles (r.did (deed r.machine)) (next ())) :
    Chronicles r (Traced.note deed >>= next) :=
  of_eq rfl hn

theorem meet {p : Place} {node : Node} (ht : Chronicles (r.meet p node) t) :
    Chronicles r (Traced.meet p node t) :=
  of_eq rfl ht

/-- Two runs one after the other. -/
theorem andThen (h : Chronicles r t) {next : α → Traced β}
    (hn : ∀ a r', Annals r' → Chronicles r' (next a)) : Chronicles r (t >>= next) :=
  Leads.bind (fun _ _ _ _ h => h) h fun a r' _ h' _ => hn a r' h'

theorem within {frame : FrameId} (ht : Chronicles (r.inside frame) t) :
    Chronicles r (Traced.within frame t) :=
  Leads.within (fun _ h => h.inside _) ht fun _ _ _ => trivial

/-- What is known of a run apart from its annals is taken together with them. -/
theorem stands (ht : Chronicles r t) (h : Standing ds q r) (he : Ensures ds q r t post)
    (hg : Grounds r t post') : Stands ds q r t fun a r' => post a r' ∧ post' a r' := by
  cases hrun : t r with
  | ok a r' =>
    obtain ⟨ha, -⟩ := Leads.ok ht hrun
    obtain ⟨hc, hp⟩ := he.ok hrun
    obtain ⟨hu, hp'⟩ := Leads.ok hg hrun
    exact Leads.of_ok hrun ⟨⟨h.good, h.placed, hc.lawful, hu.grounded, ha⟩, hc, hu⟩ ⟨hp, hp'⟩
  | error e r' =>
    have ha := Leads.error ht hrun
    have hc := he.leads.error hrun
    have hu := Leads.error hg hrun
    exact Leads.of_error hrun ⟨⟨h.good, h.placed, hc.lawful, hu.grounded, ha⟩, hc, hu⟩

end Chronicles

namespace Stands

variable {t : Traced α} {post post' post'' : α → Record → Prop}

/-- A run that meets no node. -/
theorem silently (h : Standing ds q r) (hs : Silently r t post'') (he : Ensures ds q r t post)
    (hg : Grounds r t post') : Stands ds q r t fun a r' => post a r' ∧ post' a r' :=
  (Chronicles.silently h.annals hs hg).stands h he hg

theorem chronicles (h : Stands ds q r t post) : Chronicles r t := by
  cases ht : t r with
  | ok a r' => exact Leads.of_ok ht (Leads.ok h ht).1.standing.annals trivial
  | error e r' => exact Leads.of_error ht (Leads.error h ht).standing.annals

/-- A run that goes on where another one has ended, with all that is known of the record there. -/
theorem bind (h : Stands ds q r t post) {next : α → Traced β}
    (hn : ∀ a r', Standing.Next ds q r r' → post a r' → Chronicles r' (next a)) :
    Chronicles r (t >>= next) :=
  Leads.bind (fun _ _ _ _ h => h) h.chronicles fun a r' ht _ _ =>
    hn a r' (Leads.ok h ht).1 (Leads.ok h ht).2

/-- The initializer of a class is bound to a new instance. -/
theorem initializer (h : Standing ds q r) {k : Nat} {c : Closure}
    (hc : r.machine.objects.initializer? k = some c) :
    Stands ds q (r.addInstance k)
      (bindMethod (r.methodBody (some k) initializerName) c r.machine.objects.instances.size)
      fun c' r' => (ReadyClosure q r' (r.methodBody (some k) initializerName) c' ∧
        c'.declaration = c.declaration) ∧
        c'.Grounded r' (r.methodBody (some k) initializerName) := by
  have hnew := (h.addInstance k).standing
  have hhas := has_of_find (r := r.addInstance k) hc
    (r.machine.objects.classOf?_addInstance_self k) (Objects.mem_lineage_self _ k)
  exact .silently hnew (bindMethod_silent ..)
    (bindMethod_ensures hnew.lawful (readyMethod_of_find hnew.lawful hc) _)
    (bindMethod_grounds hnew.grounded hhas)

end Stands

/-- With some fuel, every evaluation of something ready, in a chain of frames that fits its place,
leads to a record with annals. -/
structure AllChronicle (ds : Distances) (q : Site → Prop) (fuel : Nat) : Prop where
  evaluate : ∀ r p e, Standing ds q r → e.Ready q p → p.Fits r → Chronicles r (evaluate fuel p e)
  evaluateAll : ∀ r p es, Standing ds q r → Expr.AllReady q p es → p.Fits r →
    Chronicles r (evaluateAll fuel p es)
  invoke : ∀ r c vs, Standing ds q r → Value.Sound q r (.callable c) →
    (∀ v ∈ vs, v.Sound q r) → vs.length = r.machine.objects.arity c →
    Value.Grounded r (.callable c) → (∀ v ∈ vs, v.Grounded r) → Chronicles r (invoke fuel c vs)
  invokeClosure : ∀ r p c vs, Standing ds q r → ReadyClosure q r p c →
    (∀ v ∈ vs, v.Sound q r) → vs.length = c.declaration.arity → c.Grounded r p →
    (∀ v ∈ vs, v.Grounded r) → Chronicles r (invokeClosure fuel p c vs)
  execute : ∀ r p s, Standing ds q r → s.Ready q p → p.Fits r → Chronicles r (execute fuel p s)
  executeAll : ∀ r p i ss, Standing ds q r → Stmt.AllReady q p i ss → p.Fits r →
    Chronicles r (executeAll fuel p i ss)
  repeatWhile : ∀ r p condition body, Standing ds q r → condition.Ready q p →
    body.Ready q ((p.afterExpr condition).child 0) → p.Fits r →
    Chronicles r (repeatWhile fuel p condition body)

namespace AllChronicle

variable {fuel : Nat} (ih : AllChronicle ds q fuel)

include ih

/-- From a record within a run the evaluation of an expression leads to one. -/
theorem stands {p : Place} {e : Expr} (h : Standing ds q r) (he : e.Ready q p) (hf : p.Fits r) :
    Stands ds q r (Traced.evaluate fuel p e) fun v r' => v.Sound q r' ∧ v.Grounded r' :=
  (ih.evaluate r p e h he hf).stands h ((allEnsure h.good fuel).evaluate r p e h.lawful he hf)
    ((allGround h.good h.placed fuel).evaluate r p e h.lawful h.grounded he hf)

theorem standsAll {p : Place} {es : List Expr} (h : Standing ds q r) (hes : Expr.AllReady q p es)
    (hf : p.Fits r) : Stands ds q r (Traced.evaluateAll fuel p es) fun vs r' =>
      (∀ v ∈ vs, v.Sound q r') ∧ ∀ v ∈ vs, v.Grounded r' :=
  (ih.evaluateAll r p es h hes hf).stands h
    ((allEnsure h.good fuel).evaluateAll r p es h.lawful hes hf)
    ((allGround h.good h.placed fuel).evaluateAll r p es h.lawful h.grounded hes hf)

/-- From a record within a run a statement leads to one, on which it has declared its name. -/
theorem standsBehind {p : Place} {s : Stmt} (h : Standing ds q r) (hs : s.Ready q p)
    (hf : p.Fits r) : Stands ds q r (Traced.execute fuel p s) fun signal r' =>
      (signal.Sound q r' ∧ (signal = .normal → ∀ name ∈ s.declared?,
        r'.machine.frames.defines r'.machine.active name.lexeme = true)) ∧ signal.Grounded r' :=
  (ih.execute r p s h hs hf).stands h ((allEnsure h.good fuel).execute r p s h.lawful hs hf)
    ((allGround h.good h.placed fuel).execute r p s h.lawful h.grounded hs hf)

theorem evaluate_succ (r : Record) (p : Place) (e : Expr) (h : Standing ds q r)
    (he : e.Ready q p) (hf : p.Fits r) : Chronicles r (Traced.evaluate (fuel + 1) p e) := by
  have hmeet := h.meet (.expression e) he hf
  have h' := hmeet.standing
  replace hf : p.Fits (r.meet p (.expression e)) := hmeet.fits hf
  show Chronicles r (Traced.meet p (.expression e) _)
  refine .meet ?_
  generalize r.meet p (.expression e) = r' at h' hf
  clear hmeet h r
  cases e with
  | literal l => exact .pure h'.annals _
  | grouping inner => exact ih.evaluate r' p inner h' (he.part fun _ ho => ho) hf
  | unary operator right =>
    have hright : right.Ready q p := he.part fun _ ho => ho
    refine (ih.stands h' hright hf).bind fun v r₁ hn _ => ?_
    exact .plain hn.standing.annals (Run.applyUnary_plain operator v)
  | binary left operator right =>
    obtain ⟨hl, hright⟩ := he.binary h'.good
    refine (ih.stands h' hl hf).bind fun a r₁ hn _ => ?_
    refine (ih.stands hn.standing hright (hn.fits hf)).bind fun b r₂ hn₂ _ => ?_
    exact .plain hn₂.standing.annals (Run.applyBinary_plain operator a b)
  | logical left operator right =>
    obtain ⟨hl, hright⟩ := he.logical h'.good
    refine (ih.stands h' hl hf).bind fun a r₁ hn _ => ?_
    split
    · exact .pure hn.standing.annals _
    · exact ih.evaluate r₁ _ right hn.standing hright (hn.fits hf)
  | var id name => exact .still h'.annals (.lookUp id name)
  | thisRef id keyword => exact .still h'.annals (.lookUp id keyword)
  | assign id name value =>
    obtain ⟨hv, hsite⟩ := he.assign
    refine (ih.stands h' hv hf).bind fun v r₁ hn hp => ?_
    -- a write meets no node, so all that happened before it still stands
    have hstore : Chronicles r₁ (store p id name v) :=
      .silently hn.standing.annals (store_silent p id name v) (store_grounds hn.standing.lawful
        hn.standing.grounded (hn.fits hf) (h'.good _ hsite) hp.2)
    exact hstore.andThen fun _ r₂ ha₂ => .pure ha₂ _
  | call callee paren arguments =>
    obtain ⟨hcallee, hargs⟩ := he.call h'.good
    refine (ih.stands h' hcallee hf).bind fun f r₁ hn hp => ?_
    refine (ih.standsAll hn.standing hargs (hn.fits hf)).bind fun vs r₂ hn₂ hps => ?_
    cases f with
    | callable c =>
      refine .ofObjects ?_
      split
      · next harity =>
        exact ih.invoke r₂ c vs hn₂.standing (hn₂.continues.sound hp.1) hps.1 harity
          (hn₂.upholds.value hp.2) hps.2
      · exact .raise hn₂.standing.annals ..
    | _ => exact .raise hn₂.standing.annals ..
  | get object name =>
    have hobject : object.Ready q p := he.part fun _ ho => ho
    refine (ih.stands h' hobject hf).bind fun v r₁ hn _ => ?_
    cases v with
    | object i =>
      have hannals := hn.standing.annals.did (.moment r₁.machine)
      exact .note (.silently hannals (property_silent hannals.rooted i name)
        (property_grounds (hn.standing.grounded.did _) i name))
    | _ => exact .raise hn.standing.annals ..
  | set object name value =>
    obtain ⟨hv, ho⟩ := he.set h'.good
    refine (ih.stands h' ho hf).bind fun u r₁ hn _ => ?_
    cases u with
    | object i =>
      refine (ih.stands hn.standing hv (hn.fits hf)).bind fun v r₂ hn₂ hp => ?_
      have hset : Chronicles r₂ (lift (Run.setField i name.lexeme v)) :=
        .silently hn₂.standing.annals (setField_silent i name.lexeme v)
          (setField_grounds hn₂.standing.grounded i name.lexeme hp.2)
      exact hset.andThen fun _ r₃ ha₃ => .note (.pure (ha₃.did _) _)
    | _ => exact .raise hn.standing.annals ..
  | superRef id keyword name =>
    exact .silently h'.annals (superMethod_silent h'.annals.rooted id keyword name)
      (superMethod_grounds h'.grounded
        (he.refersSuper h'.good h'.placed h'.lawful h'.grounded hf))

theorem evaluateAll_succ (r : Record) (p : Place) (es : List Expr) (h : Standing ds q r)
    (hes : Expr.AllReady q p es) (hf : p.Fits r) :
    Chronicles r (Traced.evaluateAll (fuel + 1) p es) := by
  cases es with
  | nil => exact .pure h.annals _
  | cons e es =>
    obtain ⟨he, hrest⟩ := hes.cons h.good
    refine (ih.stands h he hf).bind fun v r₁ hn _ => ?_
    exact (ih.evaluateAll r₁ _ es hn.standing hrest (hn.fits hf)).andThen
      fun vs r₂ ha₂ => .pure ha₂ _

theorem invoke_succ (r : Record) (c : Callable) (vs : List Value) (h : Standing ds q r)
    (hc : Value.Sound q r (.callable c)) (hvs : ∀ v ∈ vs, v.Sound q r)
    (harity : vs.length = r.machine.objects.arity c) (hcg : Value.Grounded r (.callable c))
    (hvsg : ∀ v ∈ vs, v.Grounded r) : Chronicles r (Traced.invoke (fuel + 1) c vs) := by
  cases c with
  | native id =>
    refine .ofObjects ?_
    cases r.machine.objects.natives[id]? with
    | none => exact .halt h.annals _
    | some n =>
      exact .quiet h.annals (Run.callNative_quiet n vs)
  | closure id =>
    obtain ⟨c, hclosure, hready⟩ := hc id rfl
    obtain ⟨c', hclosure', hgrounded⟩ := hcg.closure id rfl
    cases hclosure.symm.trans hclosure'
    refine .ofObjects ?_
    rw [hclosure]
    refine .of_eq (u := Traced.invokeClosure fuel (r.bodies id) c vs) rfl
      (ih.invokeClosure r _ c vs h hready hvs (harity.trans (Objects.arity_closure hclosure))
        hgrounded hvsg)
  | klass k =>
    have hnew := h.addInstance k
    refine .newInstance (.ofObjects ?_)
    cases hi : (r.addInstance k).machine.objects.initializer? k with
    | none => exact .pure hnew.standing.annals _
    | some c =>
      -- binding the initializer meets no node either; its body is what can meet some
      refine .methodBody ((Stands.initializer h hi).bind fun c' r₂ hn hp => ?_)
      obtain ⟨⟨hready', hdecl⟩, hgrounded⟩ := hp
      refine (ih.invokeClosure r₂ _ c' vs hn.standing hready'
        (fun v hv => hn.continues.sound (hnew.continues.sound (hvs v hv))) ?_ hgrounded
        (hn.upholds.values (hnew.upholds.values hvsg))).andThen fun _ r₃ ha₃ => .pure ha₃ _
      rw [hdecl, harity, Objects.arity_klass (o := r.machine.objects) hi]

theorem invokeClosure_succ (r : Record) (p : Place) (c : Closure) (vs : List Value)
    (h : Standing ds q r) (hc : ReadyClosure q r p c) (hvs : ∀ v ∈ vs, v.Sound q r)
    (harity : vs.length = c.declaration.arity) (hcg : c.Grounded r p)
    (hvsg : ∀ v ∈ vs, v.Grounded r) :
    Chronicles r (Traced.invokeClosure (fuel + 1) p c vs) := by
  have hpush := h.push c.captured (p.openerAt 0) (h.grounded.push (activation_of_grounded hcg))
  have hdefine : Stands ds q (r.push c.captured (p.openerAt 0)) (defineAll r.machine.frames.size
      (p.openerAt 0) (c.declaration.params.zip vs)) _ :=
    .silently hpush.standing (defineAll_silent ..)
      (defineParams_ensures h.lawful c _ hvs)
      (defineAll_grounds hpush.standing.grounded (r.lt_size_push ..)
        (isName_of_param h.placed hc)
        fun e he => hpush.upholds.value (hvsg _ (List.of_mem_zip he).2))
  refine .openFrame (hdefine.bind fun _ r₁ hn hp => ?_)
  -- in the frame of the parameters the chain of frames fits the place of the body
  obtain ⟨hready, hfits⟩ := hc.body_fits h.lawful harity hn.continues hp.1
  have hbody := ih.executeAll _ p 0 _ (hn.standing.inside r.machine.frames.size) hready hfits
  refine hbody.within.andThen fun signal r₂ ha₂ => ?_
  split
  · exact .still ha₂ (.getAt c.captured 0 "this" c.declaration.name.line)
  · cases signal with
    | returned v => exact .pure ha₂ _
    | normal => exact .pure ha₂ _

theorem execute_succ (r : Record) (p : Place) (s : Stmt) (h : Standing ds q r)
    (hs : s.Ready q p) (hf : p.Fits r) : Chronicles r (Traced.execute (fuel + 1) p s) := by
  have hmeet := h.meet (.statement s) hs hf
  have h' := hmeet.standing
  replace hf : p.Fits (r.meet p (.statement s)) := hmeet.fits hf
  have hmet : .met p (.statement s) r.machine ∈ (r.meet p (.statement s)).log :=
    List.mem_cons_self ..
  show Chronicles r (Traced.meet p (.statement s) _)
  refine .meet ?_
  generalize r.machine = m at hmet
  generalize r.meet p (.statement s) = r' at h' hf hmet
  clear hmeet h r
  cases s with
  | expression e =>
    exact (ih.evaluate r' p e h' hs.expression hf).andThen fun v r₁ ha₁ => .pure ha₁ _
  | print e =>
    refine (ih.evaluate r' p e h' hs.print hf).andThen fun v r₁ ha₁ => .ofObjects ?_
    exact (Chronicles.quiet ha₁ (Run.write_quiet _)).andThen fun _ r₂ ha₂ => .pure ha₂ _
  | varDecl name initializer =>
    have hn : name.IsName := hs.proper.declared_isName rfl
    cases initializer with
    | none =>
      have hdeclare : Chronicles r' (declare p name .nil) :=
        .silently h'.annals (declare_silent ..)
          (declare_grounds h'.lawful h'.grounded hf hn .nil)
      exact hdeclare.andThen fun _ r₁ ha₁ => .pure ha₁ _
    | some e =>
      have hfits := hs.place.fits_initializer hf name
      refine (ih.stands h' hs.varDecl hfits).bind fun v r₁ hn₁ hp => ?_
      have hdeclare : Chronicles r₁ (declare p name v) :=
        .silently hn₁.standing.annals (declare_silent ..)
          (declare_grounds hn₁.standing.lawful hn₁.standing.grounded (hn₁.fits hf) hn hp.2)
      exact hdeclare.andThen fun _ r₂ ha₂ => .pure ha₂ _
  | block body =>
    -- the frame of a block is no activation
    have hpush := h'.push r'.machine.active (p.block.openerAt 0) (h'.grounded.push fun o ho hm => by
      cases ho
      cases hm)
    exact .activeFrame (.openFrame (.within (ih.executeAll _ p.block 0 body
      (hpush.standing.inside _) hs.block (hs.place.fits_block h'.lawful hf))))
  | branch condition thenBranch elseBranch =>
    obtain ⟨hcond, hthen⟩ := hs.condition h'.good
    refine (ih.stands h' hcond hf).bind fun v r₁ hn _ => ?_
    split
    · exact ih.execute r₁ _ thenBranch hn.standing hthen (hn.fits hf)
    · cases elseBranch with
      | none => exact .pure hn.standing.annals _
      | some s => exact ih.execute r₁ _ s hn.standing (hs.elseBranch h'.good) (hn.fits hf)
  | loop condition body =>
    obtain ⟨hcond, hbody⟩ := hs.loop h'.good
    exact ih.repeatWhile r' p condition body h' hcond hbody hf
  | function f =>
    have hvalue : Ensures ds q r' (functionValue p f) fun _ _ => True :=
      ⟨.addClosure h'.lawful ((p.declare f.name).body .function f) ⟨f, r'.machine.active, false⟩,
        trivial⟩
    refine (Stands.silently h' (functionValue_silent h'.good hs hmet) hvalue
      (functionValue_grounds h'.grounded f)).bind fun v r₁ hn hp => ?_
    have hdeclare : Chronicles r₁ (declare p f.name v) :=
      .silently hn.standing.annals (declare_silent ..) (declare_grounds hn.standing.lawful
        hn.standing.grounded (hn.fits hf) (hs.proper.declared_isName rfl) hp.2)
    exact hdeclare.andThen fun _ r₂ ha₂ => .pure ha₂ _
  | ret keyword value =>
    cases value with
    | none => exact .pure h'.annals _
    | some e =>
      exact (ih.evaluate r' _ e h' hs.ret hf).andThen fun v r₁ ha₁ => .pure ha₁ _
  | classDecl name superclass methods =>
    cases superclass with
    | none =>
      have hdeclare : Chronicles r' (declareClass p (p.methods name none) name none methods) :=
        .silently h'.annals (declareClass_silent h'.good hs hmet rfl)
          (declareClass_grounds h'.lawful h'.grounded h'.good hs hf rfl fun k he => by cases he)
      exact hdeclare.andThen fun _ r₁ ha₁ => .pure ha₁ _
    | some e =>
      have hfits := hs.place.fits_superclass hf name e
      refine (ih.stands h' (hs.superclass h'.good) hfits).bind fun v r₁ hn hp => ?_
      refine ((Chronicles.still hn.standing.annals (.asSuperclass name v)).stands
        hn.standing (asSuperclass_ensures hn.standing.lawful name v)
        (asSuperclass_grounds hn.standing.grounded name hp.2)).bind fun k r₂ hn₂ hk => ?_
      -- the declaration was met in front of the superclass, and the log only grows
      have hmet₂ := hn₂.upholds.log _ (hn.upholds.log _ hmet)
      have hdeclare : Chronicles r₂
          (declareClass p (p.methods name (some e)) name (some k) methods) := by
        refine .silently hn₂.standing.annals (declareClass_silent h'.good hs hmet₂ rfl)
          (declareClass_grounds hn₂.standing.lawful hn₂.standing.grounded h'.good hs
            (hn₂.fits (hn.fits hf)) rfl fun k' he => ?_)
        cases he
        exact hk.2
      exact hdeclare.andThen fun _ r₃ ha₃ => .pure ha₃ _

theorem executeAll_succ (r : Record) (p : Place) (i : Nat) (ss : List Stmt) (h : Standing ds q r)
    (hss : Stmt.AllReady q p i ss) (hf : p.Fits r) :
    Chronicles r (Traced.executeAll (fuel + 1) p i ss) := by
  cases ss with
  | nil => exact .pure h.annals _
  | cons s ss =>
    obtain ⟨hs, hrest⟩ := hss.cons h.good
    refine (ih.standsBehind h hs hf).bind fun signal r₁ hn hp => ?_
    cases signal with
    | normal =>
      exact ih.executeAll r₁ _ (i + 1) ss hn.standing hrest
        (hss.place.fits_after (hn.fits hf) (hp.1.2 rfl))
    | returned v => exact .pure hn.standing.annals _

theorem repeatWhile_succ (r : Record) (p : Place) (condition : Expr) (body : Stmt)
    (h : Standing ds q r) (hcond : condition.Ready q p)
    (hbody : body.Ready q ((p.afterExpr condition).child 0)) (hf : p.Fits r) :
    Chronicles r (Traced.repeatWhile (fuel + 1) p condition body) := by
  refine (ih.stands h hcond hf).bind fun v r₁ hn _ => ?_
  split
  · refine (ih.standsBehind hn.standing hbody (hn.fits hf)).bind fun signal r₂ hn₂ _ => ?_
    cases signal with
    | normal =>
      exact ih.repeatWhile r₂ p condition body hn₂.standing hcond hbody (hn₂.fits (hn.fits hf))
    | returned v => exact .pure hn₂.standing.annals _
  · exact .pure hn.standing.annals _

end AllChronicle

theorem allChronicle (fuel : Nat) : AllChronicle ds q fuel := by
  induction fuel with
  | zero =>
    constructor
    · intro r p e h _ _
      rw [Traced.evaluate]
      exact .halt h.annals _
    · intro r p es h _ _
      rw [Traced.evaluateAll]
      exact .halt h.annals _
    · intro r c vs h _ _ _ _ _
      rw [Traced.invoke]
      exact .halt h.annals _
    · intro r p c vs h _ _ _ _ _
      rw [Traced.invokeClosure]
      exact .halt h.annals _
    · intro r p s h _ _
      rw [Traced.execute]
      exact .halt h.annals _
    · intro r p i ss h _ _
      rw [Traced.executeAll]
      exact .halt h.annals _
    · intro r p condition body h _ _ _
      rw [Traced.repeatWhile]
      exact .halt h.annals _
  | succ fuel ih =>
    exact ⟨ih.evaluate_succ, ih.evaluateAll_succ, ih.invoke_succ, ih.invokeClosure_succ,
      ih.execute_succ, ih.executeAll_succ, ih.repeatWhile_succ⟩

end Traced

namespace Standing

variable {ds : Distances} {q : Site → Prop} {r r' : Record} {p : Place} {n : Nat}

/-- An expression has got its value. -/
theorem evaluate (h : Standing ds q r) {e : Expr} (he : e.Ready q p) (hf : p.Fits r) {v : Value}
    (hrun : Traced.evaluate n p e r = .ok v r') :
    Next ds q r r' ∧ v.Sound q r' ∧ v.Grounded r' :=
  Traced.Leads.ok ((Traced.allChronicle n).stands h he hf) hrun

/-- Several expressions have got their values. -/
theorem evaluateAll (h : Standing ds q r) {es : List Expr} (hes : Expr.AllReady q p es)
    (hf : p.Fits r) {vs : List Value} (hrun : Traced.evaluateAll n p es r = .ok vs r') :
    Next ds q r r' ∧ (∀ v ∈ vs, v.Sound q r') ∧ ∀ v ∈ vs, v.Grounded r' :=
  Traced.Leads.ok ((Traced.allChronicle n).standsAll h hes hf) hrun

end Standing

/-- At each moment of a run the record was one within a run. -/
theorem Annals.standing {r : Record} (h : Annals r) {later : List Event} {p : Place} {node : Node}
    {m : Machine} {earlier : List Event} (hlog : r.log = later ++ .met p node m :: earlier) :
    ∃ ds q bodies, Standing ds q ⟨m, bodies, earlier⟩ ∧ node.Ready q p ∧
      p.Fits ⟨m, bodies, earlier⟩ := by
  obtain ⟨bodies, ds, q, hgood, hplaced, hlawful, hgrounded, hrooted, hready, hfits⟩ :=
    h.met later p node m earlier hlog
  -- behind the split stands all that an earlier record had noted
  have hmachines : machines r.log = machines later ++ m :: machines earlier := by
    unfold machines
    rw [hlog, List.filterMap_append]
    rfl
  obtain ⟨-, hpairs, -⟩ := List.pairwise_append.mp (hmachines ▸ h.ordered)
  obtain ⟨hkept, hordered⟩ := List.pairwise_cons.mp hpairs
  refine ⟨ds, q, bodies, ⟨hgood, hplaced, hlawful, hgrounded, ?_⟩, hready, hfits⟩
  refine ⟨hrooted, fun later' p' node' m' earlier' hlog' => ?_, hkept, hordered⟩
  refine h.met (later ++ .met p node m :: later') p' node' m' earlier' ?_
  have hlog' : earlier = later' ++ .met p' node' m' :: earlier' := hlog'
  rw [hlog, hlog', List.append_assoc, List.cons_append]

/-! ### Programs -/

namespace Traced

variable {ds : Distances} {q : Site → Prop} {r : Record}

theorem runAll_chronicles (fuel : Nat) {p : Place} (hp : p.around.regions = []) {i : Nat}
    {ss : List Stmt} (h : Standing ds q r) (htop : r.machine.active = globals)
    (hss : Stmt.AllReady q p i ss) : Chronicles r (runAll fuel p i ss) := by
  induction ss generalizing r p i with
  | nil => exact .pure h.annals _
  | cons s ss ih =>
    obtain ⟨hs, hrest⟩ := hss.cons h.good
    have hfits := fits_top (p := p.child i) hp htop
    refine ((allChronicle fuel).standsBehind h hs hfits).bind fun _ r₁ hn _ => ?_
    exact ih (p := p.afterStmt s) (Surroundings.regions_after hp s) hn.standing
      (hn.continues.active.trans htop) hrest

theorem thenFlush_chronicles {t : Traced Unit} (ht : Chronicles r t) :
    Chronicles r (thenFlush t) :=
  Leads.thenFlush (fun _ _ _ _ h => h) ht fun _ ha => Chronicles.quiet ha Run.flush_quiet

end Traced

/-! ### Sessions -/

/-- A record with annals between two sources. -/
structure Record.Annotated (r : Record) (next : Nat) : Prop extends Record.Rested r next where
  annals : Annals r

namespace Session

/-- A source leaves a record with annals, whatever it is and however it ends. -/
theorem traceOne_annotated (fuel source : Nat) (text : String) {r : Record} {next : Nat}
    (h : r.Annotated next) :
    (traceOne fuel source text r next).1.Annotated (traceOne fuel source text r next).2 := by
  refine ⟨traceOne_rested fuel source text h.toRested, ?_⟩
  rw [traceOne_eq]
  cases hp : (check text next).result with
  | error faults => exact h.annals
  | ok p =>
    obtain ⟨hread, hdistances, hfaults⟩ := check_eq_ok hp
    obtain ⟨hrests, hready⟩ := h.learn hread (check_nextId_le text next) hfaults source
      (Stmt.sitesIn_placed (a := .top source) .top 0 p.statements hread.2)
    rw [← hdistances] at hrests hready
    have hannals : Annals (r.learn p.distances) := h.annals.silent
      (.of_eq rfl rfl rfl ⟨[], rfl, fun _ _ _ hm => by cases hm⟩) (.of_eq rfl rfl rfl rfl)
    have hgrounded : Grounded (r.learn p.distances) := h.grounded.of_eq rfl rfl rfl rfl
    have hstanding : Standing _ _ (r.learn p.distances) :=
      ⟨fun x hx => hx.1.1, fun x hx => hx.2, hrests.lawful, hgrounded, hannals⟩
    exact Traced.Leads.after (Traced.thenFlush_chronicles
      (Traced.runAll_chronicles fuel rfl hstanding hrests.active hready))

theorem traceFrom_annotated (fuel : Nat) (sources : List String) (i : Nat) {r : Record}
    {next : Nat} (h : r.Annotated next) :
    (traceFrom fuel i r next sources).1.Annotated (traceFrom fuel i r next sources).2 := by
  induction sources generalizing i r next with
  | nil => exact h
  | cons text texts ih => exact ih (i + 1) (traceOne_annotated fuel i text h)

/-- On the machine at the start there are neither closures nor classes, and no node was met. -/
theorem start_annals (clock : Nat → Float) (sink : Sink) :
    Annals (Record.start (.start clock sink)) where
  rooted :=
    { closures := fun id c hc => by cases (show (none : Option Closure) = some c from hc)
      classes := fun k c hc => by cases (show (none : Option ClassObject) = some c from hc) }
  met later p node m earlier hl := by
    have hnil : [] = later ++ .met p node m :: earlier := hl
    simp at hnil
  kept m hm := by cases hm
  ordered := .nil

end Session

/-- The record of any session has annals. -/
theorem session_annals (clock : Nat → Float) (sink : Sink) (fuel : Nat) (sources : List String) :
    Annals (Session.trace fuel (.start clock sink) sources) :=
  (Session.traceFrom_annotated fuel sources 0
    ⟨Session.start_rested clock sink, Session.start_annals clock sink⟩).annals

end Lox
