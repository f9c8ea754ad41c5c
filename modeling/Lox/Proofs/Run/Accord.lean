/-
Histories and their machines.

What the machine knows of classes and properties is what the history of a record tells: each class
has the last method of every name among those with which it was declared, and each field has the
value last assigned to it.

* `ClassBody.Made`, `History.Accords` — a class as it was declared, and a machine that accords
  with what was done on it;
* `Traced.Tells` — recorded runs behind which the history is faithful;
* `allTell`, `traceFrom_faithful` — evaluation is such with any fuel, and so are sessions.

Design notes: a property is assigned to an instance that exists and a class is called that exists,
which is all that the presence of values is for.  A recorded run that notes no deed is dealt with as
the run that it is, which spares classes and instances.
-/
import Lox.Proofs.Run.History
import Lox.Proofs.Run.Moments
import Lox.Proofs.Run.Presence

namespace Lox

/-! ### Classes as they were declared -/

/-- The frame that the methods of a class capture: the one in which it was declared, or one directly
inside of that which holds `super`. -/
def ClassBody.Captures (body : ClassBody) (m : Machine) (f : FrameId) : Prop :=
  match body.superclass with
  | none => f = body.scope
  | some _ => m.frames.parent? f = some body.scope ∧ m.frames.defines f "super" = true

/-- A table has the last method of each name among some methods, as a closure over a
frame, and nothing else. -/
def FunDecl.Fill (methods : List FunDecl) (m : Machine) (frame : FrameId) (table : NameTable Nat) :
    Prop :=
  ∀ x, match FunDecl.last? methods x with
    | some f => ∃ id, table.find? x = some id ∧
        m.objects.closures[id]? = some ⟨f, frame, f.isInitializer⟩
    | none => table.find? x = none

/-- A class is what its declaration says. -/
structure ClassBody.Made (body : ClassBody) (m : Machine) (klass : Nat) : Prop where
  made : ∃ c frame, m.objects.classes[klass]? = some c ∧ c.name = body.name ∧
    c.superclass = body.superclass ∧ body.Captures m frame ∧
    FunDecl.Fill body.methods m frame c.methods
  above : ∀ k, body.superclass = some k → k < klass

section

variable {m m' : Machine} (h : m.Advances m')

include h

theorem ClassBody.Captures.mono {body : ClassBody} {f : FrameId} (hf : body.Captures m f) :
    body.Captures m' f := by
  unfold ClassBody.Captures at hf ⊢
  split at hf
  · exact hf
  · exact ⟨h.parents _ _ hf.1, h.defines _ _ hf.2⟩

theorem FunDecl.Fill.mono {methods : List FunDecl} {frame : FrameId} {table : NameTable Nat}
    (ht : FunDecl.Fill methods m frame table) : FunDecl.Fill methods m' frame table := by
  intro x
  have hx := ht x
  split at hx
  · obtain ⟨id, hid, hc⟩ := hx
    exact ⟨id, hid, h.closures id _ hc⟩
  · exact hx

theorem ClassBody.Made.mono {body : ClassBody} {k : Nat} (hb : body.Made m k) : body.Made m' k := by
  obtain ⟨c, frame, hc, hname, hsuper, hcaptures, hfill⟩ := hb.made
  exact ⟨⟨c, frame, h.classes k c hc, hname, hsuper, hcaptures.mono h, hfill.mono h⟩, hb.above⟩

end

namespace Run

variable {m : Machine}

theorem methodFrame_tends (hw : m.Whole) (body : ClassBody)
    (habove : ∀ k, body.superclass = some k → k < m.objects.classes.size) :
    Tends m (methodFrame body.scope body.superclass) fun f m' => body.Captures m' f := by
  unfold ClassBody.Captures
  cases hs : body.superclass with
  | none => exact .pure hw rfl
  | some k =>
    refine (Tends.newFrame hw body.scope).bind fun f m₁ hs₁ hw₁ ⟨hparent, hlt⟩ => ?_
    have hpresent : (Value.callable (.klass k)).Present m₁ :=
      .of_ref (hs₁.there (.klass k) (habove k hs)) rfl
    refine (Tends.define hw₁ f "super" hpresent).bind fun _ m₂ hs₂ hw₂ hdefined => ?_
    exact .pure hw₂ ⟨hs₂.parents f _ hparent, hdefined hlt⟩

/-- The methods of a class are put into a table, and of two with one name the later one counts. -/
theorem methodTable_tends (hw : m.Whole) (frame : FrameId) (before : List FunDecl)
    {methods : List FunDecl} {table : NameTable Nat} (ht : FunDecl.Fill before m frame table) :
    Tends m (methodTable frame methods table) fun table' m' =>
      FunDecl.Fill (before ++ methods) m' frame table' := by
  -- the table holds what was put into it before, in front of the methods that are left
  induction methods generalizing m before table with
  | nil => exact .pure hw (by rwa [List.append_nil])
  | cons f fs ih =>
    rw [List.append_cons]
    refine (newClosure_tends hw _).bind fun id m₁ hs₁ hw₁ hid => ih hw₁ (before ++ [f]) ?_
    intro x
    rw [FunDecl.last?_concat, NameTable.find?_insert]
    by_cases hx : f.name.lexeme = x
    · rw [if_pos hx, if_pos hx]
      exact ⟨id, rfl, hid⟩
    · rw [if_neg hx, if_neg hx]
      exact ht.mono hs₁.toAdvances x

end Run

/-! ### Histories -/

/-- What the machine knows of classes and properties is what the history tells. -/
structure History.Accords (h : History) : Prop where
  whole : h.machine.Whole
  fields : ∀ i x, h.machine.objects.field? i x = lastAssigned h.deeds i x
  assigned : ∀ i x v, .assigned i x v ∈ h.deeds → i < h.machine.objects.instances.size
  classes : ∀ k, k < h.machine.objects.classes.size → ∃ body, .declared k body ∈ h.deeds
  bodies : ∀ k body, .declared k body ∈ h.deeds → body.Made h.machine k
  once : (h.deeds.filterMap Deed.declared?).Nodup

/-- A history that accords with its machine, and did so at each moment that was noted. -/
structure History.Faithful (h : History) : Prop extends History.Accords h where
  past : ∀ later m earlier, h.deeds = later ++ .moment m :: earlier → History.Accords ⟨m, earlier⟩

theorem History.Faithful.at_ {h : History} (hf : h.Faithful) {m : Machine} {deeds : List Deed}
    (hat : h.At m deeds) : History.Accords ⟨m, deeds⟩ := by
  cases hat with
  | now => exact hf.toAccords
  | past hsplit => exact hf.past _ _ _ hsplit

namespace Objects

variable {o : Objects}

theorem field?_addInstance_eq (k i : Nat) (x : String) :
    (o.addInstance k).field? i x = o.field? i x := by
  unfold field? addInstance
  simp only [Array.getElem?_push]
  split
  · next hi =>
    -- the new instance has no fields, like one that does not exist
    rw [hi, Array.getElem?_eq_none (Nat.le_refl _)]
    rfl
  · rfl

/-- A write to a field changes no other one. -/
theorem field?_setField_of_ne {i j : Nat} {x y : String} (h : ¬ (i = j ∧ x = y)) (v : Value) :
    (o.setField i x v).field? j y = o.field? j y := by
  unfold field? setField
  simp only [Array.getElem?_modify]
  split
  · next hj =>
    subst hj
    cases o.instances[i]? with
    | none => rfl
    | some inst =>
      simp only [Option.map_some, Option.bind_some, NameTable.find?_insert]
      rw [if_neg fun hx => h ⟨rfl, hx⟩]
  · rfl

/-- A write to a field of an instance that exists changes this field and no other. -/
theorem field?_setField {i : Nat} (hi : i < o.instances.size) (x : String) (v : Value) (j : Nat)
    (y : String) :
    (o.setField i x v).field? j y = if i = j ∧ x = y then some v else o.field? j y := by
  split
  · next h =>
    obtain ⟨rfl, rfl⟩ := h
    unfold field? setField
    simp only [Array.getElem?_modify, if_true, Array.getElem?_eq_getElem hi, Option.map_some,
      Option.bind_some, NameTable.find?_insert]
  · next h => exact field?_setField_of_ne h v

end Objects

namespace History.Accords

variable {h : History} {m : Machine}

/-- Where no class and no instance is made and no field is written. -/
theorem spares (ha : h.Accords) (hs : h.machine.Spares m) (hw : m.Whole) :
    History.Accords { h with machine := m } where
  whole := hw
  fields i x := by
    rw [← ha.fields]
    show m.objects.field? i x = _
    unfold Objects.field?
    rw [hs.sameInstances]
  assigned i x v hv := by
    show i < m.objects.instances.size
    rw [hs.sameInstances]
    exact ha.assigned i x v hv
  classes k hk := by
    refine ha.classes k ?_
    rw [← hs.sameClasses]
    exact hk
  bodies k body hbody := (ha.bodies k body hbody).mono hs.toAdvances
  once := ha.once

/-- A moment is noted. -/
theorem marked (ha : h.Accords) (m : Machine) :
    History.Accords { h with deeds := .moment m :: h.deeds } where
  whole := ha.whole
  fields := ha.fields
  assigned i x v hv := by
    cases hv with
    | tail _ hv => exact ha.assigned i x v hv
  classes k hk := by
    obtain ⟨body, hbody⟩ := ha.classes k hk
    exact ⟨body, List.mem_cons_of_mem _ hbody⟩
  bodies k body hbody := by
    cases hbody with
    | tail _ hbody => exact ha.bodies k body hbody
  once := ha.once

/-- A class is made. -/
theorem addClass (ha : h.Accords) {c : ClassObject} {body : ClassBody} {frame : FrameId}
    (hname : c.name = body.name) (hsuper : c.superclass = body.superclass)
    (habove : ∀ k, body.superclass = some k → k < h.machine.objects.classes.size)
    (hcaptures : body.Captures h.machine frame)
    (hfill : FunDecl.Fill body.methods h.machine frame c.methods) :
    History.Accords ⟨{ h.machine with objects := h.machine.objects.addClass c },
      .declared h.machine.objects.classes.size body :: h.deeds⟩ where
  whole := ha.whole.addClass c
  fields := ha.fields
  assigned i x v hv := by
    cases hv with
    | tail _ hv => exact ha.assigned i x v hv
  classes k hk := by
    have hlt : k < (h.machine.objects.classes.push c).size := hk
    rw [Array.size_push] at hlt
    obtain hlt | rfl := Nat.lt_succ_iff_lt_or_eq.mp hlt
    · obtain ⟨body, hbody⟩ := ha.classes k hlt
      exact ⟨body, List.mem_cons_of_mem _ hbody⟩
    · exact ⟨body, List.mem_cons_self ..⟩
  bodies k other hother := by
    have hadvances := Machine.Advances.addClass h.machine c
    cases hother with
    | tail _ hother => exact (ha.bodies k other hother).mono hadvances
    | head =>
      exact ⟨⟨c, frame, Array.getElem?_push_size, hname, hsuper, hcaptures.mono hadvances,
        hfill.mono hadvances⟩, habove⟩
  once := by
    refine List.nodup_cons.mpr ⟨fun hmem => ?_, ha.once⟩
    -- a class that was declared before has a smaller number
    obtain ⟨deed, hdeed, hk⟩ := List.mem_filterMap.mp hmem
    cases deed with
    | declared k other =>
      cases hk
      obtain ⟨c', -, hc', -⟩ := (ha.bodies _ other hdeed).made
      exact absurd (Array.getElem?_eq_some_iff.mp hc').1 (Nat.lt_irrefl _)
    | assigned i x v => cases hk
    | moment m => cases hk

/-- An instance is made. -/
theorem addInstance (ha : h.Accords) {k : Nat} (hk : k < h.machine.objects.classes.size) :
    History.Accords
      { h with machine := { h.machine with objects := h.machine.objects.addInstance k } } where
  whole := ha.whole.addInstance hk
  fields i x := (Objects.field?_addInstance_eq ..).trans (ha.fields i x)
  assigned i x v hv := Nat.lt_of_lt_of_le (ha.assigned i x v hv)
    (Machine.Advances.addInstance h.machine k).instances_size_le
  classes := ha.classes
  bodies k' body hbody := (ha.bodies k' body hbody).mono (.addInstance h.machine k)
  once := ha.once

/-- A property of an instance is assigned. -/
theorem setField (ha : h.Accords) {i : Nat} (hi : i < h.machine.objects.instances.size) (x : String)
    {v : Value} (hv : v.Present h.machine) :
    History.Accords ⟨{ h.machine with objects := h.machine.objects.setField i x v },
      .assigned i x v :: h.deeds⟩ where
  whole := ha.whole.setField i x hv
  fields j y := by
    rw [lastAssigned, ← ha.fields j y]
    exact Objects.field?_setField hi x v j y
  assigned j y u hu := by
    refine Nat.lt_of_lt_of_le ?_ (Machine.Advances.setField h.machine i x v).instances_size_le
    cases hu with
    | head => exact hi
    | tail _ hu => exact ha.assigned j y u hu
  classes k hk := by
    obtain ⟨body, hbody⟩ := ha.classes k hk
    exact ⟨body, List.mem_cons_of_mem _ hbody⟩
  bodies k body hbody := by
    cases hbody with
    | tail _ hbody => exact (ha.bodies k body hbody).mono (.setField h.machine i x v)
  once := ha.once

end History.Accords

/-- One deed more is noted in front of the others, and behind which moments there may be. -/
theorem past_cons {deed : Deed} {deeds : List Deed} {P : Machine → List Deed → Prop}
    (h : ∀ later m earlier, deeds = later ++ .moment m :: earlier → P m earlier)
    (hdeed : ∀ m, deed = .moment m → P m deeds) :
    ∀ later m earlier, deed :: deeds = later ++ .moment m :: earlier → P m earlier := by
  intro later m earlier hsplit
  cases later with
  | nil =>
    obtain ⟨rfl, rfl⟩ := List.cons.inj hsplit
    exact hdeed m rfl
  | cons d later =>
    obtain ⟨rfl, hrest⟩ := List.cons.inj hsplit
    exact h later m earlier hrest

/-! ### Recorded runs -/

/-- What has become of a record whose machine goes on and whose history is faithful. -/
structure Record.Recounts (r r' : Record) : Prop where
  advances : r.machine.Advances r'.machine
  faithful : r'.history.Faithful

namespace Record

variable {r r' r'' : Record}

theorem Recounts.trans (h : Recounts r r') (h' : Recounts r' r'') : Recounts r r'' :=
  ⟨h.advances.trans h'.advances, h'.faithful⟩

/-- Where no deed is noted. -/
theorem Recounts.spares (hf : r.history.Faithful) (hs : r.machine.Spares r'.machine)
    (hw : r'.machine.Whole) (hd : r'.deeds = r.deeds) : Recounts r r' := by
  refine ⟨hs.toAdvances, ?_⟩
  unfold Record.history
  rw [hd]
  exact ⟨hf.spares hs hw, hf.past⟩

theorem Recounts.inside (hf : r.history.Faithful) (f : FrameId) : Recounts r (r.inside f) :=
  .spares hf (.of_eq rfl rfl) (hf.whole.of_eq rfl rfl) rfl

/-- At a moment that is noted the history is the one before. -/
theorem Recounts.moment {e : Event} (hf : r.history.Faithful)
    (he : e.deed? = some (.moment r.machine)) :
    Recounts r { r with log := e :: r.log } := by
  refine ⟨.refl _, ?_⟩
  unfold Record.history Record.deeds
  rw [List.filterMap_cons_some he]
  exact ⟨hf.marked r.machine, past_cons hf.past fun m hm => by cases hm; exact hf.toAccords⟩

/-- What is known behind a deed that is no moment. -/
theorem faithful_did (hf : r.history.Faithful) {m : Machine} {deed : Deed}
    (ha : History.Accords ⟨m, deed :: r.deeds⟩) (hd : ∀ m', deed ≠ .moment m') :
    (Record.did { r with machine := m } deed).history.Faithful :=
  ⟨ha, past_cons hf.past fun m' hm => absurd hm (hd m')⟩

end Record

/-- However it ends, the run leads to a record whose history is faithful; and something
holds of what it yields. -/
def Traced.Tells {α : Type} (r : Record) (t : Traced α) (post : α → Machine → Prop) : Prop :=
  Leads Record.Recounts r t fun a r' => post a r'.machine

namespace Traced

variable {α β : Type} {r : Record}

namespace Tells

variable {t : Traced α} {run : Run α} {post : α → Machine → Prop}

/-- A run that notes no deed and spares classes and instances. -/
theorem of_tends (hf : r.history.Faithful) (he : t.Echoes run) (ht : run.Tends r.machine post) :
    Tells r t post := by
  have hrun := he.forget_eq r
  have hdeeds := he.deeds_eq r
  unfold Run.Tends at ht
  rw [← hrun] at ht
  cases hr : t r with
  | ok a r' =>
    rw [hr] at ht hdeeds
    exact Leads.of_ok hr (.spares hf ht.1.1 ht.1.2 hdeeds) ht.2
  | error e r' =>
    rw [hr] at ht hdeeds
    exact Leads.of_error hr (.spares hf ht.1 ht.2 hdeeds)

theorem lift (hf : r.history.Faithful) (ht : run.Tends r.machine post) :
    Tells r (Traced.lift run) post :=
  of_tends hf (.lift run) ht

theorem pure (hf : r.history.Faithful) {a : α} (hp : post a r.machine) :
    Tells r (Pure.pure a) post :=
  Leads.pure ⟨.refl _, hf⟩ hp

theorem halt (hf : r.history.Faithful) (e : Halt) : Tells r (Traced.lift (Run.halt e)) post :=
  lift hf (.halt hf.whole e)

theorem raise (hf : r.history.Faithful) (line : Nat) (fault : RuntimeFault) :
    Tells r (Traced.lift (Run.raise line fault)) post :=
  lift hf (.raise hf.whole line fault)

/-- A run that goes on behind an earlier one. -/
theorem of_step {r₁ : Record} {u : Traced α} (hu : Tells r₁ u post)
    (ha : r.machine.Advances r₁.machine) (he : t r = u r₁) : Tells r t post :=
  Leads.of_step (fun _ h => ⟨ha.trans h.advances, h.faithful⟩) he hu

theorem bind (ht : Tells r t post) {next : α → Traced β} {postNext : β → Machine → Prop}
    (hn : ∀ a r', r.machine.Advances r'.machine → r'.history.Faithful → post a r'.machine →
      Tells r' (next a) postNext) : Tells r (t >>= next) postNext :=
  Leads.bind (fun _ _ _ h h' => h.trans h') ht fun a r' _ hr hp =>
    hn a r' hr.advances hr.faithful hp

/-- The history in front of a node that is met is the one at its moment. -/
theorem meet (hf : r.history.Faithful) {p : Place} {node : Node}
    (ht : ∀ r', r'.history.Faithful → r'.machine = r.machine → Tells r' t post) :
    Tells r (Traced.meet p node t) post :=
  have hmoment := Record.Recounts.moment (e := .met p node r.machine) hf rfl
  of_step (ht (r.meet p node) hmoment.faithful rfl) (.refl _) rfl

/-- A moment is noted. -/
theorem moment (hf : r.history.Faithful) : Tells r (note .moment) fun _ m => m = r.machine :=
  Leads.of_ok rfl (Record.Recounts.moment (e := .did (.moment r.machine)) hf rfl) rfl

/-- Looking at the objects. -/
theorem ofObjects {f : Objects → α} {next : α → Traced β} {postNext : β → Machine → Prop}
    (hn : Tells r (next (f r.machine.objects)) postNext) :
    Tells r (Traced.lift (Run.ofObjects f) >>= next) postNext :=
  of_step hn (.refl _) rfl

theorem methodBody {klass : Option Nat} {name : String} {next : Place → Traced β}
    {postNext : β → Machine → Prop} (hn : Tells r (next (r.methodBody klass name)) postNext) :
    Tells r (Traced.methodBody klass name >>= next) postNext :=
  of_step hn (.refl _) rfl

theorem activeFrame (hf : r.history.Faithful) :
    Tells r (Traced.lift Run.activeFrame) fun _ _ => True :=
  lift hf (.of_ok rfl (.refl _) hf.whole trivial)

/-- A run inside of a frame, and back again. -/
theorem within (hf : r.history.Faithful) (frame : FrameId)
    (ht : ∀ r', r'.history.Faithful → r'.machine = { r.machine with active := frame } →
      Tells r' t post)
    (hp : ∀ a m f, post a m → post a { m with active := f }) :
    Tells r (Traced.within frame t) post := by
  have hinside := Record.Recounts.inside hf frame
  refine Leads.within (fun r' h => ?_) (ht (r.inside frame) hinside.faithful rfl)
    fun a r' => hp a r'.machine _
  exact hinside.trans (h.trans (.inside h.faithful _))

end Tells

/-! ### Output, variables, classes and instances -/

theorem write_tells (hf : r.history.Faithful) (text : String) :
    Tells r (lift (Run.write text)) fun _ _ => True :=
  .lift hf (.quiet hf.whole (Run.write_quiet text) fun _ _ _ => trivial)

theorem flush_tells (hf : r.history.Faithful) : Tells r (lift Run.flush) fun _ _ => True :=
  .lift hf (.quiet hf.whole Run.flush_quiet fun _ _ _ => trivial)

theorem declare_tells (hf : r.history.Faithful) (p : Place) (name : Token) {v : Value}
    (hv : v.Present r.machine) : Tells r (declare p name v) fun _ _ => True :=
  .of_tends hf (declare_echoes ..) (Run.declare_tends hf.whole name hv)

theorem newInstance_tells (hf : r.history.Faithful) {k : Nat}
    (hk : k < r.machine.objects.classes.size) :
    Tells r (lift (Run.newInstance k)) fun i m => i < m.objects.instances.size := by
  have hrecounts : Record.Recounts r (r.addInstance k) :=
    ⟨.addInstance r.machine k, ⟨hf.addInstance hk, hf.past⟩⟩
  refine Leads.of_ok rfl hrecounts ?_
  show r.machine.objects.instances.size < (r.machine.objects.instances.push ⟨k, []⟩).size
  rw [Array.size_push]
  exact Nat.lt_succ_self _

/-- A value is assigned to a property, and the history has it. -/
theorem setField_tells (hf : r.history.Faithful) {i : Nat}
    (hi : i < r.machine.objects.instances.size) (x : String) {v : Value}
    (hv : v.Present r.machine) {next : Traced β} {post : β → Machine → Prop}
    (hn : ∀ r', r.machine.Advances r'.machine → r'.history.Faithful → Tells r' next post) :
    Tells r (do lift (Run.setField i x v); note fun _ => .assigned i x v; next) post := by
  let m := { r.machine with objects := r.machine.objects.setField i x v }
  let r' := Record.did { r with machine := m } (.assigned i x v)
  have hadvances : r.machine.Advances m := .setField r.machine i x v
  have hfaithful : r'.history.Faithful :=
    Record.faithful_did hf (hf.setField hi x hv) fun m h => by cases h
  exact .of_step (hn r' hadvances hfaithful) hadvances rfl

/-- A class is made as it was declared, and the history has the declaration. -/
theorem newClass_tells (hf : r.history.Faithful) (body : ClassBody) {table : NameTable Nat}
    {captured : FrameId}
    (habove : ∀ k, body.superclass = some k → k < r.machine.objects.classes.size)
    (hcaptures : body.Captures r.machine captured)
    (hfill : FunDecl.Fill body.methods r.machine captured table) {next : Nat → Traced β}
    {post : β → Machine → Prop}
    (hn : ∀ k r', r'.history.Faithful → k < r'.machine.objects.classes.size →
      Tells r' (next k) post) :
    Tells r (do
      let k ← lift (Run.newClass ⟨body.name, body.superclass, table⟩)
      note fun _ => .declared k body
      next k) post := by
  let c : ClassObject := ⟨body.name, body.superclass, table⟩
  let m := { r.machine with objects := r.machine.objects.addClass c }
  let r' := Record.did { r with machine := m } (.declared r.machine.objects.classes.size body)
  have hfaithful : r'.history.Faithful :=
    Record.faithful_did hf (hf.addClass (c := c) rfl rfl habove hcaptures hfill)
      fun m h => by cases h
  refine .of_step (hn r.machine.objects.classes.size r' hfaithful ?_) (.addClass r.machine c) rfl
  show r.machine.objects.classes.size < (r.machine.objects.classes.push c).size
  rw [Array.size_push]
  exact Nat.lt_succ_self _

/-- A class is what its declaration says. -/
theorem declareClass_tells (hf : r.history.Faithful) (p inner : Place) (name : Token)
    {superclass : Option Nat}
    (habove : ∀ k, superclass = some k → k < r.machine.objects.classes.size)
    (methods : List FunDecl) :
    Tells r (declareClass p inner name superclass methods) fun _ _ => True := by
  refine (Tells.activeFrame hf).bind fun frame r₁ ha₁ hf₁ _ => ?_
  have hnil : Value.nil.Present r₁.machine := .of_none rfl
  refine (Tells.of_tends hf₁ (define_echoes ..)
    (.define hf₁.whole frame name.lexeme hnil)).bind fun _ r₂ ha₂ hf₂ _ => ?_
  let body : ClassBody := ⟨name.lexeme, superclass, methods, frame⟩
  have habove₂ : ∀ k, body.superclass = some k → k < r₂.machine.objects.classes.size :=
    fun k hk => ha₂.there (.klass k) (ha₁.there (.klass k) (habove k hk))
  refine (Tells.of_tends hf₂ (methodFrame_echoes ..)
    (Run.methodFrame_tends hf₂.whole body habove₂)).bind fun captured r₃ ha₃ hf₃ hcaptures => ?_
  have hempty : FunDecl.Fill [] r₃.machine captured [] := fun _ => rfl
  refine (Tells.of_tends hf₃ (methodTable_echoes ..)
    (Run.methodTable_tends hf₃.whole captured [] hempty)).bind fun table r₄ ha₄ hf₄ hfill => ?_
  have habove₄ : ∀ k, body.superclass = some k → k < r₄.machine.objects.classes.size :=
    fun k hk => ha₄.there (.klass k) (ha₃.there (.klass k) (habove₂ k hk))
  refine newClass_tells hf₄ body habove₄ (hcaptures.mono ha₄) hfill fun k r₅ hf₅ hk => ?_
  have hklass : (Value.callable (.klass k)).Present r₅.machine := .of_ref (a := .klass k) hk rfl
  exact .of_tends hf₅ (assign_echoes ..) (Run.assign_tends hf₅.whole name hklass)

/-! ### Evaluation -/

/-- With some fuel, every recorded evaluation leads to a faithful history. -/
structure AllTell (fuel : Nat) : Prop where
  evaluate : ∀ p e r, r.history.Faithful → Tells r (evaluate fuel p e) fun v m => v.Present m
  evaluateAll : ∀ p es r, r.history.Faithful →
    Tells r (evaluateAll fuel p es) fun vs m => ∀ v ∈ vs, v.Present m
  invoke : ∀ c vs r, r.history.Faithful → (Value.callable c).Present r.machine →
    (∀ v ∈ vs, v.Present r.machine) → Tells r (invoke fuel c vs) fun v m => v.Present m
  invokeClosure : ∀ p c vs r, r.history.Faithful → (∀ v ∈ vs, v.Present r.machine) →
    Tells r (invokeClosure fuel p c vs) fun v m => v.Present m
  execute : ∀ p s r, r.history.Faithful →
    Tells r (execute fuel p s) fun signal m => signal.Present m
  executeAll : ∀ p i ss r, r.history.Faithful →
    Tells r (executeAll fuel p i ss) fun signal m => signal.Present m
  repeatWhile : ∀ p e s r, r.history.Faithful →
    Tells r (repeatWhile fuel p e s) fun signal m => signal.Present m

namespace AllTell

variable {fuel : Nat} (ih : AllTell fuel)

include ih

theorem evaluate_succ (p : Place) (e : Expr) (r : Record) (hf : r.history.Faithful) :
    Tells r (Traced.evaluate (fuel + 1) p e) fun v m => v.Present m := by
  unfold Traced.evaluate
  refine .meet hf fun r hf _ => ?_
  cases e with
  | literal l => exact .pure hf (.of_none (by cases l <;> rfl))
  | grouping inner => exact ih.evaluate p inner r hf
  | unary operator right =>
    refine (ih.evaluate p right r hf).bind fun v r₁ _ hf₁ _ => .lift hf₁ ?_
    exact Run.plain_tends hf₁.whole (Run.applyUnary_plain operator v)
      (Run.applyUnary_inert operator v)
  | binary left operator right =>
    refine (ih.evaluate p left r hf).bind fun a r₁ _ hf₁ _ =>
      (ih.evaluate _ right r₁ hf₁).bind fun b r₂ _ hf₂ _ => .lift hf₂ ?_
    exact Run.plain_tends hf₂.whole (Run.applyBinary_plain operator a b)
      (Run.applyBinary_inert operator a b)
  | logical left operator right =>
    refine (ih.evaluate p left r hf).bind fun a r₁ _ hf₁ ha => ?_
    split
    · exact .pure hf₁ ha
    · exact ih.evaluate _ right r₁ hf₁
  | var id name => exact .lift hf (Run.lookUp_tends hf.whole id name)
  | thisRef id keyword => exact .lift hf (Run.lookUp_tends hf.whole id keyword)
  | assign id name value =>
    refine (ih.evaluate p value r hf).bind fun v r₁ _ hf₁ hv => ?_
    exact (Tells.of_tends hf₁ (store_echoes ..) (Run.store_tends hf₁.whole id name hv)).bind
      fun _ r₂ ha₂ hf₂ _ => .pure hf₂ (ha₂.present hv)
  | call callee paren arguments =>
    refine (ih.evaluate p callee r hf).bind fun f r₁ _ hf₁ hcallee =>
      (ih.evaluateAll _ arguments r₁ hf₁).bind fun vs r₂ ha₂ hf₂ hvs => ?_
    cases f with
    | callable c =>
      refine .ofObjects ?_
      split
      · exact ih.invoke c vs r₂ hf₂ (ha₂.present hcallee) hvs
      · exact .raise hf₂ ..
    | _ => exact .raise hf₂ ..
  | get object name =>
    refine (ih.evaluate p object r hf).bind fun v r₁ _ hf₁ hv => ?_
    cases v with
    | object i =>
      -- another moment, behind the evaluation of the object
      refine (Tells.moment hf₁).bind fun _ r₂ _ hf₂ hm => ?_
      refine .of_tends hf₂ (property_echoes i name) (Run.property_tends hf₂.whole name ?_)
      show i < r₂.machine.objects.instances.size
      rw [hm]
      exact hv (.object i) rfl
    | _ => exact .raise hf₁ ..
  | set object name value =>
    refine (ih.evaluate _ object r hf).bind fun u r₁ _ hf₁ hu => ?_
    cases u with
    | object i =>
      refine (ih.evaluate p value r₁ hf₁).bind fun v r₂ ha₂ hf₂ hv => ?_
      -- the value may have made more objects, and this one is still there
      have hi := ha₂.there (.object i) (hu (.object i) rfl)
      exact setField_tells hf₂ hi name.lexeme hv fun r₃ ha₃ hf₃ => .pure hf₃ (ha₃.present hv)
    | _ => exact .raise hf₁ ..
  | superRef id keyword method =>
    exact .of_tends hf (superMethod_echoes ..) (Run.superMethod_tends hf.whole id keyword method)

theorem evaluateAll_succ (p : Place) (es : List Expr) (r : Record) (hf : r.history.Faithful) :
    Tells r (Traced.evaluateAll (fuel + 1) p es) fun vs m => ∀ v ∈ vs, v.Present m := by
  cases es with
  | nil => exact .pure hf fun v hv => absurd hv List.not_mem_nil
  | cons e es =>
    refine (ih.evaluate p e r hf).bind fun v r₁ _ hf₁ hv =>
      (ih.evaluateAll _ es r₁ hf₁).bind fun vs r₂ ha₂ hf₂ hvs => ?_
    exact .pure hf₂ (List.forall_mem_cons.mpr ⟨ha₂.present hv, hvs⟩)

theorem invoke_succ (c : Callable) (vs : List Value) (r : Record) (hf : r.history.Faithful)
    (hc : (Value.callable c).Present r.machine) (hvs : ∀ v ∈ vs, v.Present r.machine) :
    Tells r (Traced.invoke (fuel + 1) c vs) fun v m => v.Present m := by
  cases c with
  | native id =>
    refine .ofObjects ?_
    cases hn : r.machine.objects.natives[id]? with
    | none => exact .halt hf .dangling
    | some n => exact .of_step (.lift hf (Run.callNative_tends hf.whole hn vs)) (.refl _) rfl
  | closure id =>
    refine .ofObjects ?_
    cases r.machine.objects.closures[id]? with
    | none => exact .halt hf .dangling
    | some c => exact .of_step (ih.invokeClosure (r.bodies id) c vs r hf hvs) (.refl _) rfl
  | klass k =>
    refine (newInstance_tells hf (hc (.klass k) rfl)).bind fun i r₁ ha₁ hf₁ hi => ?_
    -- the instance is there from now on, whatever its initializer does
    have hobject : ∀ {m : Machine}, r₁.machine.Advances m → (Value.object i).Present m :=
      fun ha => .of_ref (ha.there (.object i) hi) rfl
    refine .ofObjects ?_
    cases r₁.machine.objects.initializer? k with
    | none => exact .pure hf₁ (hobject (.refl _))
    | some c =>
      refine .methodBody ((Tells.of_tends hf₁ (bindMethod_echoes ..)
        (Run.bindMethod_tends hf₁.whole c hi)).bind fun c' r₂ ha₂ hf₂ _ => ?_)
      refine (ih.invokeClosure _ c' vs r₂ hf₂ ((ha₁.trans ha₂).presentAll hvs)).bind
        fun _ r₃ ha₃ hf₃ _ => ?_
      exact .pure hf₃ (hobject (ha₂.trans ha₃))

theorem invokeClosure_succ (p : Place) (c : Closure) (vs : List Value) (r : Record)
    (hf : r.history.Faithful) (hvs : ∀ v ∈ vs, v.Present r.machine) :
    Tells r (Traced.invokeClosure (fuel + 1) p c vs) fun v m => v.Present m := by
  refine (Tells.of_tends hf (openFrame_echoes ..) (.newFrame hf.whole c.captured)).bind
    fun frame r₁ ha₁ hf₁ _ => ?_
  have hentries : ∀ e ∈ c.declaration.params.zip vs, e.2.Present r₁.machine :=
    fun e he => ha₁.present (hvs e.2 (List.of_mem_zip he).2)
  refine (Tells.of_tends hf₁ (defineAll_echoes ..) (.defineAll hf₁.whole frame hentries)).bind
    fun _ r₂ _ hf₂ _ => ?_
  refine (Tells.within hf₂ frame (fun r hf _ => ih.executeAll p 0 c.declaration.body r hf)
    (fun signal m f hs => hs)).bind fun signal r₃ _ hf₃ hsignal => ?_
  split
  · exact .lift hf₃ (Run.getAt_tends hf₃.whole ..)
  · cases signal with
    | returned v => exact .pure hf₃ (hsignal v rfl)
    | normal => exact .pure hf₃ (.of_none rfl)

theorem execute_succ (p : Place) (s : Stmt) (r : Record) (hf : r.history.Faithful) :
    Tells r (Traced.execute (fuel + 1) p s) fun signal m => signal.Present m := by
  unfold Traced.execute
  refine .meet hf fun r hf _ => ?_
  have hnormal : ∀ m, Signal.normal.Present m := Signal.Present.normal
  cases s with
  | expression e => exact (ih.evaluate p e r hf).bind fun _ _ _ hf₁ _ => .pure hf₁ (hnormal _)
  | print e =>
    refine (ih.evaluate p e r hf).bind fun v r₁ _ hf₁ _ => .ofObjects ?_
    exact (write_tells hf₁ _).bind fun _ _ _ hf₂ _ => .pure hf₂ (hnormal _)
  | varDecl name initializer =>
    cases initializer with
    | none =>
      exact (declare_tells hf p name (.of_none rfl)).bind fun _ _ _ hf₁ _ => .pure hf₁ (hnormal _)
    | some e =>
      refine (ih.evaluate _ e r hf).bind fun v r₁ _ hf₁ hv => ?_
      exact (declare_tells hf₁ p name hv).bind fun _ _ _ hf₂ _ => .pure hf₂ (hnormal _)
  | block body =>
    refine (Tells.activeFrame hf).bind fun outer r₁ _ hf₁ _ =>
      (Tells.of_tends hf₁ (openFrame_echoes ..) (.newFrame hf₁.whole outer)).bind
        fun frame r₂ _ hf₂ _ => ?_
    exact .within hf₂ frame (fun r hf _ => ih.executeAll _ 0 body r hf) fun signal m f hs => hs
  | branch condition thenBranch elseBranch =>
    refine (ih.evaluate p condition r hf).bind fun v r₁ _ hf₁ _ => ?_
    split
    · exact ih.execute _ thenBranch r₁ hf₁
    · cases elseBranch with
      | some s => exact ih.execute _ s r₁ hf₁
      | none => exact .pure hf₁ (hnormal _)
  | loop condition body => exact ih.repeatWhile p condition body r hf
  | function f =>
    refine (Tells.of_tends hf (functionValue_echoes p f)
      (Run.functionValue_tends hf.whole f)).bind fun v r₁ _ hf₁ hv => ?_
    exact (declare_tells hf₁ p f.name hv).bind fun _ _ _ hf₂ _ => .pure hf₂ (hnormal _)
  | ret keyword value =>
    cases value with
    | none =>
      refine .pure hf fun v hv => ?_
      cases hv
      exact .of_none rfl
    | some e =>
      refine (ih.evaluate _ e r hf).bind fun v r₁ _ hf₁ hv => .pure hf₁ fun u hu => ?_
      cases hu
      exact hv
  | classDecl name superclass methods =>
    cases superclass with
    | none =>
      exact (declareClass_tells hf p _ name (fun k hk => by cases hk) methods).bind
        fun _ _ _ hf₁ _ => .pure hf₁ (hnormal _)
    | some e =>
      refine (ih.evaluate _ e r hf).bind fun v r₁ _ hf₁ hv =>
        (Tells.lift hf₁ (Run.asSuperclass_tends hf₁.whole name hv)).bind fun k r₂ _ hf₂ hk => ?_
      exact (declareClass_tells hf₂ p _ name (fun k' hk' => by cases hk'; exact hk) methods).bind
        fun _ _ _ hf₃ _ => .pure hf₃ (hnormal _)

theorem executeAll_succ (p : Place) (i : Nat) (ss : List Stmt) (r : Record)
    (hf : r.history.Faithful) :
    Tells r (Traced.executeAll (fuel + 1) p i ss) fun signal m => signal.Present m := by
  cases ss with
  | nil => exact .pure hf (Signal.Present.normal _)
  | cons s ss =>
    refine (ih.execute _ s r hf).bind fun signal r₁ _ hf₁ hsignal => ?_
    cases signal with
    | normal => exact ih.executeAll _ _ ss r₁ hf₁
    | returned v => exact .pure hf₁ hsignal

theorem repeatWhile_succ (p : Place) (e : Expr) (s : Stmt) (r : Record)
    (hf : r.history.Faithful) :
    Tells r (Traced.repeatWhile (fuel + 1) p e s) fun signal m => signal.Present m := by
  refine (ih.evaluate p e r hf).bind fun v r₁ _ hf₁ _ => ?_
  split
  · refine (ih.execute _ s r₁ hf₁).bind fun signal r₂ _ hf₂ hsignal => ?_
    cases signal with
    | normal => exact ih.repeatWhile p e s r₂ hf₂
    | returned v => exact .pure hf₂ hsignal
  · exact .pure hf₁ (Signal.Present.normal _)

end AllTell

theorem allTell (fuel : Nat) : AllTell fuel := by
  induction fuel with
  | zero =>
    constructor
    · intro p e r hf
      rw [Traced.evaluate]
      exact .halt hf _
    · intro p es r hf
      rw [Traced.evaluateAll]
      exact .halt hf _
    · intro c vs r hf _ _
      rw [Traced.invoke]
      exact .halt hf _
    · intro p c vs r hf _
      rw [Traced.invokeClosure]
      exact .halt hf _
    · intro p s r hf
      rw [Traced.execute]
      exact .halt hf _
    · intro p i ss r hf
      rw [Traced.executeAll]
      exact .halt hf _
    · intro p e s r hf
      rw [Traced.repeatWhile]
      exact .halt hf _
  | succ fuel ih =>
    exact ⟨ih.evaluate_succ, ih.evaluateAll_succ, ih.invoke_succ, ih.invokeClosure_succ,
      ih.execute_succ, ih.executeAll_succ, ih.repeatWhile_succ⟩

/-! ### Programs and sessions -/

theorem runAll_tells (fuel : Nat) (p : Place) (i : Nat) (ss : List Stmt)
    (hf : r.history.Faithful) : Tells r (runAll fuel p i ss) fun _ _ => True := by
  induction ss generalizing r p i with
  | nil => exact .pure hf trivial
  | cons s ss ih => exact ((allTell fuel).execute _ s r hf).bind fun _ r₁ _ hf₁ _ => ih _ _ hf₁

/-- The output is flushed behind a run, however that ends. -/
theorem thenFlush_tells {t : Traced Unit} (ht : Tells r t fun _ _ => True) :
    Tells r (thenFlush t) fun _ _ => True :=
  Leads.thenFlush (fun _ _ _ h h' => h.trans h') ht fun _ h => flush_tells h.faithful

end Traced

/-- Nothing has been done on a machine on which nothing has run. -/
theorem History.faithful_start (clock : Nat → Float) (sink : Sink) :
    (Record.start (.start clock sink)).history.Faithful where
  whole :=
    { values := by
        intro f x v hv
        obtain rfl | hv := Frames.value?_define_cases _ hv
        · exact .of_none rfl
        · rw [Frames.value?_push] at hv
          cases hv
      fields := fun i x v hv => by cases hv
      instances := fun i k hk => by cases hk
      natives := by
        intro n hn now vs v hv
        cases Array.mem_singleton.mp hn
        cases hv
        rfl }
  fields _ _ := rfl
  assigned _ _ _ hv := by cases hv
  classes k hk := absurd hk (Nat.not_lt_zero k)
  bodies _ _ hbody := by cases hbody
  once := List.nodup_nil
  past later m earlier hsplit :=
    absurd hsplit (by simp [Record.history, Record.deeds, Record.start])

namespace Session

/-- A source leaves a record with a faithful history, whatever it is and however it ends. -/
theorem traceOne_faithful (fuel source : Nat) (text : String) {r : Record} (next : NodeId)
    (hf : r.history.Faithful) : (traceOne fuel source text r next).1.history.Faithful := by
  rw [traceOne_eq]
  cases (check text next).result with
  | error faults => exact hf
  | ok p =>
    have hlearn : r.Recounts (r.learn p.distances) :=
      .spares hf (.of_eq rfl rfl) (hf.whole.of_eq rfl rfl) rfl
    exact (Traced.Leads.after (Traced.thenFlush_tells
      (Traced.runAll_tells fuel (.top source) 0 p.statements hlearn.faithful))).faithful

theorem traceFrom_faithful (fuel : Nat) (sources : List String) (i : Nat) {r : Record}
    (next : NodeId) (hf : r.history.Faithful) :
    (traceFrom fuel i r next sources).1.history.Faithful := by
  induction sources generalizing i r next with
  | nil => exact hf
  | cons text texts ih => exact ih (i + 1) _ (traceOne_faithful fuel i text next hf)

/-- The history of a session is faithful. -/
theorem narrate_faithful (clock : Nat → Float) (sink : Sink) (fuel : Nat)
    (sources : List String) : (narrate fuel (.start clock sink) sources).Faithful :=
  traceFrom_faithful fuel sources 0 0 (History.faithful_start clock sink)

end Session

end Lox
