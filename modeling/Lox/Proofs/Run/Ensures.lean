/-
What recorded runs ensure.

`Ensures r t post` says that from the record `r` the recorded run `t` leads to a lawful record that
is later than `r` and in the same frame, however it ends, and that `post` holds of the value that it
yields and of the record then.

* `Ensures.bind`, `Ensures.within`, `Ensures.meet` — how runs are put together;
* `Fits.push`, `Fits.declare` — a new frame in a chain, and a new name in its innermost frame;
* `Place.Regular.fits_block`, `Place.Regular.fits_declared` — the places inside of a block
  and behind a declaration.
-/
import Lox.Proofs.Run.Leads
import Lox.Proofs.Run.Reading

namespace Lox

/-- A lawful record that a run in one frame may lead to. -/
structure Continues (ds : Distances) (q : Site → Prop) (r r' : Record) : Prop extends
    Later r r' where
  lawful : Lawful ds q r'
  active : r'.machine.active = r.machine.active

namespace Continues

variable {ds : Distances} {q : Site → Prop} {r r' r'' : Record}

theorem refl (h : Lawful ds q r) : Continues ds q r r := ⟨.refl r, h, rfl⟩

theorem trans (h : Continues ds q r r') (h' : Continues ds q r' r'') : Continues ds q r r'' :=
  ⟨h.toLater.trans h'.toLater, h'.lawful, h'.active.trans h.active⟩

theorem sound (h : Continues ds q r r') {v : Value} (hv : v.Sound q r) : v.Sound q r' :=
  hv.mono (fun _ hx => hx) h.toLater

theorem fits (h : Continues ds q r r') {p : Place} (hf : p.Fits r) : p.Fits r' := by
  unfold Place.Fits at hf ⊢
  rw [h.active]
  exact hf.mono h.toLater fun _ hx => hx

theorem write (h : Lawful ds q r) {c : Cell} (hc : c.Known r) {v : Value}
    (hv : v.Sound q (r.write c v)) : Continues ds q r (r.write c v) :=
  ⟨.write (hc.lt_size h) v, h.write hc hv, rfl⟩

theorem push (h : Lawful ds q r) (parent : FrameId) (opener : Option Opener) :
    Continues ds q r (r.push parent opener) :=
  ⟨.push parent opener, h.push parent opener, rfl⟩

theorem addClosure (h : Lawful ds q r) (body : Place) (c : Closure) :
    Continues ds q r (r.addClosure body c) :=
  ⟨.addClosure body c, h.addClosure body c, rfl⟩

theorem did (h : Lawful ds q r) (deed : Deed) : Continues ds q r (r.did deed) :=
  ⟨.did deed, h.did deed, rfl⟩

/-- A ready expression is met where the chain of frames fits its place. -/
theorem meetExpression (h : Lawful ds q r) (hq : ∀ x, q x → x.Good ds) {p : Place} {e : Expr}
    (he : e.Ready q p) (hf : p.Fits r) : Continues ds q r (r.meet p (.expression e)) :=
  ⟨.meet p _, h.meet (hf.chainAgrees h he.shown) (he.readAgrees hq h hf) (he.writeAgrees hq h hf),
    rfl⟩

/-- A statement reads and writes nothing itself. -/
theorem meetStatement (h : Lawful ds q r) {p : Place} {s : Stmt} (hs : s.Ready q p)
    (hf : p.Fits r) : Continues ds q r (r.meet p (.statement s)) :=
  ⟨.meet p _, h.meet (hf.chainAgrees h hs.place.shown) (fun o ho => by cases ho)
    (fun o ho => by cases ho), rfl⟩

end Continues

theorem Value.Sound.write {ds : Distances} {q : Site → Prop} {r : Record} {u : Value}
    (hu : u.Sound q r) (h : Lawful ds q r) {c : Cell} (hc : c.Known r) (v : Value) :
    u.Sound q (r.write c v) :=
  hu.mono (fun _ hx => hx) (.write (hc.lt_size h) v)

/-- However it ends, the run leads to a lawful record, and something holds of what it yields. -/
def Traced.Ensures {α : Type} (ds : Distances) (q : Site → Prop) (r : Record) (t : Traced α)
    (post : α → Record → Prop) : Prop :=
  match t r with
  | .ok a r' => Continues ds q r r' ∧ post a r'
  | .error _ r' => Continues ds q r r'

namespace Traced

variable {α β : Type} {ds : Distances} {q : Site → Prop} {r : Record}

namespace Ensures

variable {t : Traced α} {post post' : α → Record → Prop}

theorem pure (h : Lawful ds q r) {a : α} (hp : post a r) :
    Ensures ds q r (Pure.pure a) post :=
  Leads.pure (.refl h) hp

/-- What a run ensures is what it leads to, with the records that continue as the relation. -/
theorem leads (h : Ensures ds q r t post) : Leads (Continues ds q) r t post := h

theorem of_leads (h : Leads (Continues ds q) r t post) : Ensures ds q r t post := h

theorem ok (h : Ensures ds q r t post) {a : α} {r' : Record} (he : t r = .ok a r') :
    Continues ds q r r' ∧ post a r' :=
  h.leads.ok he

theorem after {t : Traced Unit} {post : Unit → Record → Prop} (h : Ensures ds q r t post) :
    Continues ds q r (t.after r) :=
  h.leads.after

/-- A run that goes on behind a record that continues the first one. -/
theorem of_continues {r₁ : Record} (hc : Continues ds q r r₁) {u : Traced α}
    (he : t r = u r₁) (h : Ensures ds q r₁ u post) : Ensures ds q r t post :=
  of_leads (.of_step (fun _ hc' => hc.trans hc') he h.leads)

theorem bind (h : Ensures ds q r t post) {next : α → Traced β} {postNext : β → Record → Prop}
    (hn : ∀ a r', Continues ds q r r' → post a r' → Ensures ds q r' (next a) postNext) :
    Ensures ds q r (t >>= next) postNext :=
  of_leads (h.leads.bind (fun _ _ _ hc hc' => hc.trans hc') fun a r' _ hc hp =>
    (hn a r' hc hp).leads)

theorem weaken (h : Ensures ds q r t post)
    (hp : ∀ a r', Continues ds q r r' → post a r' → post' a r') : Ensures ds q r t post' :=
  of_leads (h.leads.weaken hp)

/-- A run that only changes what is printed, and how often the clock was read. -/
theorem quiet (h : Lawful ds q r) {run : Run α} (hq : run.Quiet)
    (hp : ∀ a m, run r.machine = .ok a m → post a { r with machine := m }) :
    Ensures ds q r (Traced.lift run) post :=
  of_leads (.quiet hq (fun _ ha => ⟨.of_eq ha.frames (by rw [ha.objects]) rfl rfl,
    h.of_eq ha.frames ha.objects ha.distances, ha.active⟩) hp)

/-- A run that leaves the machine as it is. -/
theorem still (h : Lawful ds q r) {run : Run α} (hs : run.Still)
    (hp : ∀ a, run r.machine = .ok a r.machine → post a r) :
    Ensures ds q r (Traced.lift run) post :=
  of_leads (.still hs (.refl h) hp)

theorem raise (h : Lawful ds q r) (line : Nat) (fault : RuntimeFault) :
    Ensures ds q r (Traced.lift (Run.raise line fault)) post :=
  .still h (.halt _) fun a he => by cases he

/-- Reading something off the objects. -/
theorem ofObjects (h : Lawful ds q r) {f : Objects → α} {next : α → Traced β}
    {postNext : β → Record → Prop}
    (hn : Ensures ds q r (next (f r.machine.objects)) postNext) :
    Ensures ds q r (Traced.lift (Run.ofObjects f) >>= next) postNext :=
  of_continues (.refl h) rfl hn

theorem activeFrame (h : Lawful ds q r) {next : FrameId → Traced β}
    {postNext : β → Record → Prop} (hn : Ensures ds q r (next r.machine.active) postNext) :
    Ensures ds q r (Traced.lift Run.activeFrame >>= next) postNext :=
  of_continues (.refl h) rfl hn

theorem methodBody (h : Lawful ds q r) {klass : Option Nat} {name : String}
    {next : Place → Traced β} {postNext : β → Record → Prop}
    (hn : Ensures ds q r (next (r.methodBody klass name)) postNext) :
    Ensures ds q r (Traced.methodBody klass name >>= next) postNext :=
  of_continues (.refl h) rfl hn

theorem openFrame (h : Lawful ds q r) {parent : FrameId} {opener : Option Opener}
    {next : FrameId → Traced β} {postNext : β → Record → Prop}
    (hn : Ensures ds q (r.push parent opener) (next r.machine.frames.size) postNext) :
    Ensures ds q r (Traced.openFrame parent opener >>= next) postNext :=
  of_continues (.push h parent opener) rfl hn

theorem newClosure (h : Lawful ds q r) {body : Place} {c : Closure} {next : Nat → Traced β}
    {postNext : β → Record → Prop}
    (hn : Ensures ds q (r.addClosure body c) (next r.machine.objects.closures.size) postNext) :
    Ensures ds q r (Traced.newClosure body c >>= next) postNext :=
  of_continues (.addClosure h body c) rfl hn

theorem define (h : Lawful ds q r) {frame : FrameId} {opener : Option Opener} {name : String}
    {v : Value} (hc : Cell.Known r ⟨frame, opener, name⟩)
    (hv : v.Sound q (r.write ⟨frame, opener, name⟩ v)) {next : Unit → Traced β}
    {postNext : β → Record → Prop}
    (hn : Ensures ds q (r.write ⟨frame, opener, name⟩ v) (next ()) postNext) :
    Ensures ds q r (Traced.define frame opener name v >>= next) postNext :=
  of_continues (.write h hc hv) rfl hn

/-- A deed is noted. -/
theorem note (h : Lawful ds q r) (deed : Machine → Deed) :
    Ensures ds q r (Traced.note deed) fun _ _ => True :=
  of_leads (.of_ok rfl (.did h _) trivial)

theorem meet {p : Place} {node : Node} (hc : Continues ds q r (r.meet p node))
    (ht : Ensures ds q (r.meet p node) t post) : Ensures ds q r (Traced.meet p node t) post :=
  of_continues hc rfl ht

end Ensures

end Traced

/-! ### Inside of a frame -/

namespace Record

variable {ds : Distances} {q : Site → Prop} {r : Record}

theorem later_inside (r : Record) (f : FrameId) : Later r (r.inside f) := .of_eq rfl rfl rfl rfl

/-- The cells of a new frame are known. -/
theorem known_push (r : Record) (parent : FrameId) (opener : Option Opener) (x : String) :
    Cell.Known (r.push parent opener) ⟨r.machine.frames.size, opener, x⟩ :=
  Or.inr (List.mem_cons_self ..)

end Record

theorem Lawful.inside {ds : Distances} {q : Site → Prop} {r : Record} (h : Lawful ds q r)
    (f : FrameId) : Lawful ds q (r.inside f) :=
  h.of_eq rfl rfl rfl

namespace Traced

variable {α : Type} {ds : Distances} {q : Site → Prop} {r : Record}

theorem Ensures.within {frame : FrameId} {t : Traced α}
    {post post' : α → Record → Prop} (ht : Ensures ds q (r.inside frame) t post)
    (hp : ∀ a r', post a r' → post' a (r'.inside r.machine.active)) :
    Ensures ds q r (Traced.within frame t) post' :=
  have hcont : ∀ r', Continues ds q (r.inside frame) r' →
      Continues ds q r (r'.inside r.machine.active) := fun r' hc =>
    ⟨(r.later_inside frame).trans (hc.toLater.trans (r'.later_inside _)), hc.lawful.inside _, rfl⟩
  .of_leads (.within hcont ht.leads hp)

end Traced

/-! ### New frames -/

section

variable {ds : Distances} {q : Site → Prop} {r : Record}

/-- A fitting frame exists. -/
theorem Fits.lt_size (h : Lawful ds q r) {absent : String → Prop} {regions : List Region}
    {f : FrameId} (hf : Fits r absent regions f) : f < r.machine.frames.size := by
  cases regions with
  | nil =>
    cases hf
    exact h.globals_lt
  | cons g outer => exact (h.opened_lt _ _ hf.1).1

/-- A new frame inside of a fitting one, before it has any variables. -/
theorem Fits.push (h : Lawful ds q r) {outer : List Region} {f : FrameId}
    (hf : Fits r (fun _ => False) outer f) (g : Region) :
    Fits (r.push f (some g.opener)) (· ∈ g.names) (g :: outer) r.machine.frames.size := by
  exact ⟨List.mem_cons_self .., fun x hx hn => absurd hx hn, f, r.parent?_push .., hf.lt_size h,
    hf.mono (.push f _) fun _ hx => hx⟩

/-- The names of the innermost region that were absent have variables. -/
theorem Fits.defined {absent absent' : String → Prop} {g : Region} {outer : List Region}
    {f : FrameId} (hf : Fits r absent (g :: outer) f)
    (hd : ∀ x ∈ g.names, absent x → r.machine.frames.defines f x = true) :
    Fits r absent' (g :: outer) f := by
  obtain ⟨ho, hdef, hrest⟩ := hf
  refine ⟨ho, fun x hx _ => ?_, hrest⟩
  by_cases ha : absent x
  · exact hd x hx ha
  · exact hdef x hx ha

/-- A declared name that has a variable. -/
theorem Fits.declare {a : Surroundings} {f : FrameId}
    (hf : Fits r (fun _ => False) a.regions f) {name : Token}
    (hd : r.machine.frames.defines f name.lexeme = true) :
    Fits r (fun _ => False) (a.declare name).regions f := by
  unfold Surroundings.declare
  cases hr : a.regions with
  | nil =>
    rw [hr] at hf
    simpa [hr] using hf
  | cons g outer =>
    rw [hr] at hf
    obtain ⟨ho, hdef, hrest⟩ := hf
    refine ⟨ho, fun x hx hn => ?_, hrest⟩
    rcases List.mem_cons.mp hx with rfl | hx
    · exact hd
    · exact hdef x hx hn

/-- Where a statement may stand, all names are defined. -/
theorem Place.Regular.fits {p : Place} (hp : p.Regular) (hf : p.Fits r) :
    Lox.Fits r (fun _ => False) p.around.regions r.machine.active := by
  refine Lox.Fits.mono (.refl r) (fun x hx => ?_) hf
  rcases hx with ⟨g, hg, hpend⟩ | hd
  · rw [hp.regular.settled g (List.mem_of_mem_head? hg)] at hpend
    cases hpend
  · rw [hp.settled] at hd
    cases hd

theorem Place.fits_of {p : Place}
    (hf : Lox.Fits r (fun _ => False) p.around.regions r.machine.active) :
    p.Fits r :=
  hf.mono (.refl r) fun _ hx => hx.elim

/-- A declaration gives its name a variable in the active frame. -/
theorem Place.Fits.defines_ownCell {p : Place} (hf : p.Fits r) (h : Lawful ds q r) (x : String)
    (v : Value) : (r.write (r.ownCell p x) v).machine.frames.defines r.machine.active x = true :=
  Frames.defines_define_self _ ((hf.ownCell_known x).lt_size h) x v

/-- Behind a declared name, which has its variable. -/
theorem Place.Regular.fits_declared {p : Place} (hp : p.Regular) (h : Lawful ds q r)
    (hf : p.Fits r) (name : Token) (v : Value) :
    Lox.Fits (r.write (r.ownCell p name.lexeme) v) (fun _ => False)
      (p.around.declare name).regions r.machine.active :=
  ((hp.fits hf).mono (.write ((hf.ownCell_known name.lexeme).lt_size h) v) fun _ hx => hx).declare
    (hf.defines_ownCell h name.lexeme v)

/-- In the frame of a block, which has no variables yet. -/
theorem Place.Regular.fits_block {p : Place} (hp : p.Regular) (h : Lawful ds q r)
    (hf : p.Fits r) : p.block.Fits
      ((r.push r.machine.active (p.block.openerAt 0)).inside r.machine.frames.size) := by
  have hpush := (hp.fits hf).push h ⟨⟨.block, p.around.position⟩, [], none⟩
  exact Place.fits_of
    ((hpush.defined fun x hx => by cases hx).mono (Record.later_inside _ _) fun _ hx => hx)

end

end Lox
