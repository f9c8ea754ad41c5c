/-
Founded machines.

Frames link to frames that were there before them, and classes to classes that were there before
them.  So all links from a frame lead to the frame of the globals, the only one without a link, and
all links from a class end.

* `Machine.Founded` — links lead to what is older, and all frames in use exist;
* `Run.makeClass` — the part of a class declaration in front of the assignment to the name;
* `Run.Upholds` — on a founded machine a run leads to one, with everything kept, by the rules for
  running one behind another;
* `AllUphold`, `allUphold` — each of the functions of the evaluation does so, with any fuel;
* `interpret_upholds` — and so does a program, with any distances.

Design notes: a superclass is a value, so that it exists, and is older than the class that is made
of it, because all values of a founded machine refer to what exists.
-/
import Lox.Proofs.Run.Calls
import Lox.Proofs.Run.Presence
import Lox.Proofs.Run.Regime
import Lox.Proofs.Store.Laws

namespace Lox

theorem Machine.Advances.learn (m : Machine) (distances : Distances) :
    m.Advances { m with distances := m.distances.merge distances } :=
  ⟨fun a ha => by cases a <;> exact ha, fun _ _ h => h, fun _ _ h => h, fun _ _ h => h,
    fun _ _ h => h⟩

/-- Links lead to older frames and older classes, only the frame of the globals has no link, and all
frames in use exist. -/
structure Machine.Founded (m : Machine) : Prop extends Machine.Whole m where
  root : m.frames.parent? globals = none
  others : ∀ f < m.frames.size, f = globals ∨ ∃ p, m.frames.parent? f = some p
  descending : m.frames.Descending
  active : m.active < m.frames.size
  captured : ∀ c ∈ m.objects.closures, c.captured < m.frames.size
  above : ∀ k j, m.objects.superclass? k = some j → j < k

namespace Machine.Founded

variable {m m' : Machine} {v : Value} (h : m.Founded)

include h

theorem of_eq (hf : m'.frames = m.frames) (ho : m'.objects = m.objects)
    (ha : m'.active = m.active) :
    m'.Founded where
  toWhole := h.toWhole.of_eq hf ho
  root := hf ▸ h.root
  others := hf ▸ h.others
  descending := hf ▸ h.descending
  active := by
    rw [hf, ha]
    exact h.active
  captured := by
    rw [hf, ho]
    exact h.captured
  above := ho ▸ h.above

theorem turn {frame : FrameId} (hframe : frame < m.frames.size) :
    { m with active := frame }.Founded :=
  { h with
    toWhole := h.toWhole.of_eq rfl rfl
    active := hframe }

theorem push {parent : FrameId} (hp : parent < m.frames.size) :
    { m with frames := m.frames.push (some parent) }.Founded := by
  have hsize : m.frames.size < (m.frames.push (some parent)).size := m.frames.lt_size_push _
  have hpos : globals < m.frames.size := Nat.lt_of_le_of_lt (Nat.zero_le _) h.active
  refine ⟨h.toWhole.push parent, ?_, fun f hf => ?_, ?_, ?_, fun c hc => ?_, h.above⟩
  · show (m.frames.push (some parent)).parent? globals = none
    rw [Frames.parent?_push, if_neg (Nat.ne_of_lt hpos)]
    exact h.root
  · show f = globals ∨ ∃ p, (m.frames.push (some parent)).parent? f = some p
    rw [Frames.parent?_push]
    by_cases he : f = m.frames.size
    · exact .inr ⟨parent, if_pos he⟩
    · rw [if_neg he]
      have hlt : f < (m.frames.push (some parent)).size := hf
      rw [Frames.size_push] at hlt
      exact h.others f (Nat.lt_of_le_of_ne (Nat.le_of_lt_succ hlt) he)
  · refine h.descending.push fun p he => ?_
    cases he
    exact hp
  · exact Nat.lt_trans h.active hsize
  · exact Nat.lt_trans (h.captured c hc) hsize

theorem define (f : FrameId) (x : String) (hv : v.Present m) :
    { m with frames := m.frames.define f x v }.Founded where
  toWhole := h.toWhole.define f x hv
  root := (m.frames.parent?_define ..).trans h.root
  others g hg := by
    have hlt : g < m.frames.size := Nat.lt_of_lt_of_eq hg (Frames.size_define ..)
    refine (h.others g hlt).imp_right fun hp => ?_
    obtain ⟨p, hp⟩ := hp
    exact ⟨p, (m.frames.parent?_define ..).trans hp⟩
  descending := h.descending.define f x v
  active := Nat.lt_of_lt_of_eq h.active (Frames.size_define ..).symm
  captured c hc := Nat.lt_of_lt_of_eq (h.captured c hc) (Frames.size_define ..).symm
  above := h.above

theorem addClosure {c : Closure} (hc : c.captured < m.frames.size) :
    { m with objects := { m.objects with closures := m.objects.closures.push c } }.Founded :=
  { h with
    toWhole := h.toWhole.addClosure c
    captured := fun c' hc' => by
      rcases Array.mem_push.mp hc' with hc' | rfl
      · exact h.captured c' hc'
      · exact hc }

theorem addClass {c : ClassObject} (hc : ∀ k, c.superclass = some k → k < m.objects.classes.size) :
    { m with objects := m.objects.addClass c }.Founded :=
  { h with
    toWhole := h.toWhole.addClass c
    above := fun k j hj => by
      -- the new class is the last one, and all others keep their links
      obtain ⟨c', hc', hsuper⟩ := Option.bind_eq_some_iff.mp hj
      have hpush : (m.objects.classes.push c)[k]? = some c' := hc'
      rw [Array.getElem?_push] at hpush
      split at hpush
      · next hk =>
        cases hpush
        rw [hk]
        exact hc j hsuper
      · exact h.above k j (Option.bind_eq_some_iff.mpr ⟨c', hpush, hsuper⟩) }

theorem addInstance {k : Nat} (hk : k < m.objects.classes.size) :
    { m with objects := m.objects.addInstance k }.Founded :=
  { h with toWhole := h.toWhole.addInstance hk }

theorem setField (i : Nat) (x : String) (hv : v.Present m) :
    { m with objects := m.objects.setField i x v }.Founded :=
  { h with toWhole := h.toWhole.setField i x hv }

/-- The closure of a method captured a frame that exists. -/
theorem captured_of_method {k : Nat} {x : String} {c : Closure}
    (hc : m.objects.methodClosure? k x = some c) : c.captured < m.frames.size := by
  obtain ⟨id, -, hid⟩ := Option.bind_eq_some_iff.mp hc
  exact h.captured c (Array.mem_of_getElem? hid)

end Machine.Founded

/-! ### Runs that uphold it -/

namespace Run

/-- Makes the class of a declaration, the name of which gets it as its value thereafter. -/
def makeClass (name : Token) (superclass : Option Nat) (methods : List FunDecl) : Run Nat := do
  let frame ← activeFrame
  define frame name.lexeme .nil
  let inner ← methodFrame frame superclass
  let table ← methodTable inner methods []
  newClass ⟨name.lexeme, superclass, table⟩

theorem declareClass_eq (name : Token) (superclass : Option Nat) (methods : List FunDecl) :
    declareClass name superclass methods =
      makeClass name superclass methods >>= fun k => assign name (.callable (.klass k)) := by
  unfold declareClass makeClass
  simp only [bind_assoc]

end Run

/-- However it ends, the run leads to a founded machine on which all is kept; and something holds of
what it yields. -/
def Run.Upholds {α : Type} (m : Machine) (run : Run α) (post : α → Machine → Prop) : Prop :=
  match run m with
  | .ok a m' => (m.Advances m' ∧ m'.Founded) ∧ post a m'
  | .error _ m' => m.Advances m' ∧ m'.Founded

namespace Run.Upholds

variable {α β : Type} {m m' : Machine} {run : Run α} {post : α → Machine → Prop}

/-! ### Rules -/

theorem of_ok {a : α} (he : run m = .ok a m') (ha : m.Advances m') (hm : m'.Founded)
    (hp : post a m') : Upholds m run post := by
  unfold Upholds
  rw [he]
  exact ⟨⟨ha, hm⟩, hp⟩

theorem of_error {e : Halt} (he : run m = .error e m') (ha : m.Advances m') (hm : m'.Founded) :
    Upholds m run post := by
  unfold Upholds
  rw [he]
  exact ⟨ha, hm⟩

theorem ok (h : Upholds m run post) {a : α} (he : run m = .ok a m') :
    m.Advances m' ∧ m'.Founded ∧ post a m' := by
  unfold Upholds at h
  rw [he] at h
  exact ⟨h.1.1, h.1.2, h.2⟩

theorem error (h : Upholds m run post) {e : Halt} (he : run m = .error e m') :
    m.Advances m' ∧ m'.Founded := by
  unfold Upholds at h
  rw [he] at h
  exact h

/-- A run that leaves the machine as it is. -/
theorem still (hm : m.Founded) (hs : run.Still) (hp : ∀ a, run m = .ok a m → post a m) :
    Upholds m run post := by
  rcases hs m with ⟨a, he⟩ | ⟨e, he⟩
  · exact of_ok he (.refl m) hm (hp a he)
  · exact of_error he (.refl m) hm

theorem bind (h : Upholds m run post) {next : α → Run β} {postNext : β → Machine → Prop}
    (hn : ∀ a m', m.Advances m' → m'.Founded → post a m' → Upholds m' (next a) postNext) :
    Upholds m (run >>= next) postNext := by
  cases he : run m with
  | error e m' =>
    have hnext : (run >>= next) m = .error e m' := by rw [bind_apply, he]
    exact of_error hnext (h.error he).1 (h.error he).2
  | ok a m' =>
    obtain ⟨ha, hm, hp⟩ := h.ok he
    have hb := hn a m' ha hm hp
    have hnext : (run >>= next) m = next a m' := by rw [bind_apply, he]
    cases hr : next a m' with
    | ok b m'' =>
      obtain ⟨ha', hm', hp'⟩ := hb.ok hr
      exact of_ok (hnext.trans hr) (ha.trans ha') hm' hp'
    | error e m'' => exact of_error (hnext.trans hr) (ha.trans (hb.error hr).1) (hb.error hr).2

theorem pure (hm : m.Founded) {a : α} (hp : post a m) : Upholds m (Pure.pure a) post :=
  of_ok rfl (.refl m) hm hp

theorem halt (hm : m.Founded) (e : Halt) : Upholds m (Run.halt e) post :=
  of_error rfl (.refl m) hm

theorem raise (hm : m.Founded) (line : Nat) (fault : RuntimeFault) :
    Upholds m (Run.raise line fault) post :=
  halt hm _

/-- Looking at the objects. -/
theorem ofObjects {f : Objects → α} {next : α → Run β} {postNext : β → Machine → Prop}
    (h : Upholds m (next (f m.objects)) postNext) :
    Upholds m (Run.ofObjects f >>= next) postNext := h

/-- Inside of another frame, behind which the program is back in its own. -/
theorem within (hm : m.Founded) {frame : FrameId} (hframe : frame < m.frames.size)
    (h : ∀ m', m'.Founded → Upholds m' run post)
    (hp : ∀ a m' f, post a m' → post a { m' with active := f }) :
    Upholds m (Run.within frame run) post := by
  have hrun := h _ (hm.turn hframe)
  have hback {m' : Machine} (ha : Machine.Advances { m with active := frame } m')
      (hm' : m'.Founded) :
      m.Advances { m' with active := m.active } ∧ { m' with active := m.active }.Founded := by
    have hadvances := ((Machine.Advances.turn m frame).trans ha).trans (.turn m' m.active)
    exact ⟨hadvances, hm'.turn (hadvances.there (.frame m.active) hm.active)⟩
  cases he : run { m with active := frame } with
  | ok a m' =>
    obtain ⟨ha, hm', hpost⟩ := hrun.ok he
    have hwithin : Run.within frame run m = .ok a { m' with active := m.active } := by
      simp only [Run.within, he]
    exact of_ok hwithin (hback ha hm').1 (hback ha hm').2 (hp a m' _ hpost)
  | error e m' =>
    obtain ⟨ha, hm'⟩ := hrun.error he
    have hwithin : Run.within frame run m = .error e { m' with active := m.active } := by
      simp only [Run.within, he]
    exact of_error hwithin (hback ha hm').1 (hback ha hm').2

/-- A run that only changes what is printed, and how often the clock was read. -/
theorem quiet (hm : m.Founded) (hq : run.Quiet) (hp : ∀ a m', run m = .ok a m' → post a m') :
    Upholds m run post := by
  rcases hq m with ⟨a, m', he, hs⟩ | ⟨e, m', he, hs⟩
  · exact of_ok he (Machine.Spares.of_eq hs.frames hs.objects).toAdvances
      (hm.of_eq hs.frames hs.objects hs.active) (hp a m' he)
  · exact of_error he (Machine.Spares.of_eq hs.frames hs.objects).toAdvances
      (hm.of_eq hs.frames hs.objects hs.active)

/-! ### Frames and variables -/

theorem activeFrame (hm : m.Founded) : Upholds m Run.activeFrame fun f _ => f = m.active :=
  of_ok rfl (.refl m) hm rfl

theorem newFrame (hm : m.Founded) {parent : FrameId} (hp : parent < m.frames.size) :
    Upholds m (Run.newFrame parent) fun f m' => f < m'.frames.size :=
  of_ok rfl (Machine.Spares.push m parent).toAdvances (hm.push hp) (m.frames.lt_size_push _)

theorem define (hm : m.Founded) (f : FrameId) (x : String) {v : Value} (hv : v.Present m) :
    Upholds m (Run.define f x v) fun _ _ => True :=
  of_ok rfl (Machine.Spares.define m f x v).toAdvances (hm.define f x hv) trivial

theorem defineAll (hm : m.Founded) (f : FrameId) {entries : List (Token × Value)}
    (hvs : ∀ e ∈ entries, e.2.Present m) : Upholds m (Run.defineAll f entries) fun _ _ => True := by
  induction entries generalizing m with
  | nil => exact pure hm trivial
  | cons e rest ih =>
    obtain ⟨hv, hrest⟩ := List.forall_mem_cons.mp hvs
    exact (define hm f e.1.lexeme hv).bind fun _ m' ha hm' _ =>
      ih hm' fun e he => ha.present (hrest e he)

/-- A run that leaves the machine as it is, and does no more than that to a whole one. -/
theorem of_tends (hm : m.Founded) (hs : run.Still) (ht : Tends m run post) :
    Upholds m run post := by
  refine still hm hs fun a he => ?_
  unfold Tends at ht
  rw [he] at ht
  exact ht.2

theorem getAt (hm : m.Founded) (frame : FrameId) (d : Nat) (x : String) (line : Nat) :
    Upholds m (Run.getAt frame d x line) fun v m' => v.Present m' :=
  of_tends hm (.getAt frame d x line) (getAt_tends hm.toWhole frame d x line)

theorem lookUp (hm : m.Founded) (id : NodeId) (name : Token) :
    Upholds m (Run.lookUp id name) fun v m' => v.Present m' :=
  of_tends hm (.lookUp id name) (lookUp_tends hm.toWhole id name)

theorem assignIn (hm : m.Founded) (frame : Option FrameId) (name : Token) {v : Value}
    (hv : v.Present m) : Upholds m (Run.assignIn frame name v) fun _ _ => True := by
  cases frame with
  | some f => exact define hm f name.lexeme hv
  | none => exact of_error rfl (.refl m) hm

theorem store (hm : m.Founded) (id : NodeId) (name : Token) {v : Value} (hv : v.Present m) :
    Upholds m (Run.store id name v) fun _ _ => True := by
  have hassign := fun frame => assignIn hm frame name hv
  unfold Upholds at hassign ⊢
  unfold Run.store
  cases m.distances.find? id with
  | some d => exact hassign _
  | none => exact hassign _

theorem assign (hm : m.Founded) (name : Token) {v : Value} (hv : v.Present m) :
    Upholds m (Run.assign name v) fun _ _ => True :=
  assignIn hm (m.frames.holder? m.active name.lexeme) name hv

/-! ### Functions and instances -/

theorem newClosure (hm : m.Founded) {c : Closure} (hc : c.captured < m.frames.size) :
    Upholds m (Run.newClosure c) fun id m' => m'.objects.closures[id]? = some c :=
  of_ok rfl (Machine.Spares.addClosure m c).toAdvances (hm.addClosure hc) Array.getElem?_push_size

theorem newInstance (hm : m.Founded) {k : Nat} (hk : k < m.objects.classes.size) :
    Upholds m (Run.newInstance k) fun i m' => i < m'.objects.instances.size :=
  of_ok rfl (.addInstance m k) (hm.addInstance hk)
    (Nat.lt_of_lt_of_eq (Nat.lt_succ_self _) (Array.size_push _).symm)

theorem setField (hm : m.Founded) (i : Nat) (x : String) {v : Value} (hv : v.Present m) :
    Upholds m (Run.setField i x v) fun _ _ => True :=
  of_ok rfl (.setField m i x v) (hm.setField i x hv) trivial

theorem bindMethod (hm : m.Founded) {c : Closure} (hc : c.captured < m.frames.size) {object : Nat}
    (hobject : object < m.objects.instances.size) :
    Upholds m (Run.bindMethod c object) fun c' m' => c'.captured < m'.frames.size := by
  refine (newFrame hm hc).bind fun f m₁ ha₁ hm₁ hf => ?_
  have hpresent : (Value.object object).Present m₁ :=
    .of_ref (ha₁.there (.object object) hobject) rfl
  exact (define hm₁ f "this" hpresent).bind fun _ m₂ ha₂ hm₂ _ =>
    .pure hm₂ (ha₂.there (.frame f) hf)

theorem bound (hm : m.Founded) {c : Closure} (hc : c.captured < m.frames.size) {object : Nat}
    (hobject : object < m.objects.instances.size) :
    Upholds m (Run.bound c object) fun v m' => v.Present m' :=
  (bindMethod hm hc hobject).bind fun _ _ _ hm₁ hc' =>
    (newClosure hm₁ hc').bind fun _ _ _ hm₂ hid => .pure hm₂ (present_of_closure hid)

theorem boundMethod (hm : m.Founded) (klass : Option Nat) {object : Nat} (name : Token)
    (hobject : object < m.objects.instances.size) :
    Upholds m (Run.boundMethod klass object name) fun v m' => v.Present m' := by
  refine ofObjects ?_
  cases hfound : klass.bind fun k => m.objects.methodClosure? k name.lexeme with
  | none => exact .raise hm ..
  | some c =>
    obtain ⟨k, -, hmethod⟩ := Option.bind_eq_some_iff.mp hfound
    exact bound hm (hm.captured_of_method hmethod) hobject

theorem property (hm : m.Founded) {object : Nat} (name : Token)
    (hobject : object < m.objects.instances.size) :
    Upholds m (Run.property object name) fun v m' => v.Present m' := by
  refine ofObjects ?_
  cases hfield : m.objects.field? object name.lexeme with
  | some v => exact .pure hm (hm.fields object name.lexeme v hfield)
  | none => exact ofObjects (boundMethod hm _ name hobject)

theorem superMethod (hm : m.Founded) (id : NodeId) (keyword method : Token) :
    Upholds m (Run.superMethod id keyword method) fun v m' => v.Present m' := by
  have hreference : Upholds m (superReference id keyword) fun found m' => found.2.Present m' :=
    of_tends hm (.superReference id keyword) (superReference_tends hm.toWhole id keyword)
  refine hreference.bind fun p m₁ _ hm₁ hp => ?_
  split
  · next k object => exact boundMethod hm₁ (some k) method (hp (.object object) rfl)
  · exact .raise hm₁ ..

theorem functionValue (hm : m.Founded) (f : FunDecl) :
    Upholds m (Run.functionValue f) fun v m' => v.Present m' :=
  of_ok rfl (Machine.Spares.addClosure m _).toAdvances (hm.addClosure hm.active)
    (present_of_closure Array.getElem?_push_size)

theorem callNative (hm : m.Founded) {id : Nat} {n : Native}
    (hn : m.objects.natives[id]? = some n) (vs : List Value) :
    Upholds m (Run.callNative n vs) fun v m' => v.Present m' := by
  refine quiet hm (callNative_quiet n vs) fun v m' he => ?_
  exact .of_none (hm.natives n (Array.mem_of_getElem? hn) _ _ _ (eq_ok_of_ofExcept he))

/-! ### Classes -/

theorem methodTable (hm : m.Founded) {frame : FrameId} (hf : frame < m.frames.size)
    (methods : List FunDecl) (table : NameTable Nat) :
    Upholds m (Run.methodTable frame methods table) fun _ _ => True := by
  induction methods generalizing m table with
  | nil => exact pure hm trivial
  | cons f fs ih =>
    exact (newClosure hm (c := ⟨f, frame, f.isInitializer⟩) hf).bind fun _ m₁ ha₁ hm₁ _ =>
      ih hm₁ (ha₁.there (.frame frame) hf) _

/-- The superclass exists before the class is made. -/
theorem methodFrame (hm : m.Founded) {frame : FrameId} (hf : frame < m.frames.size)
    {superclass : Option Nat} (hsuper : ∀ k ∈ superclass, k < m.objects.classes.size) :
    Upholds m (Run.methodFrame frame superclass) fun f m' => f < m'.frames.size := by
  cases superclass with
  | none => exact .pure hm hf
  | some k =>
    refine (newFrame hm hf).bind fun inner m₁ ha₁ hm₁ hinner => ?_
    have hpresent : (Value.callable (.klass k)).Present m₁ :=
      .of_ref (ha₁.there (.klass k) (hsuper k rfl)) rfl
    exact (define hm₁ inner "super" hpresent).bind fun _ m₂ ha₂ hm₂ _ =>
      .pure hm₂ (ha₂.there (.frame inner) hinner)

theorem newClass (hm : m.Founded) {c : ClassObject}
    (hc : ∀ k ∈ c.superclass, k < m.objects.classes.size) :
    Upholds m (Run.newClass c) fun k m' => (Value.callable (.klass k)).Present m' := by
  refine of_ok rfl (.addClass m c) (hm.addClass hc)
    (.of_ref (a := .klass m.objects.classes.size) ?_ rfl)
  exact Nat.lt_of_lt_of_eq (Nat.lt_succ_self _) (Array.size_push _).symm

theorem makeClass (hm : m.Founded) (name : Token) {superclass : Option Nat}
    (hsuper : ∀ k ∈ superclass, k < m.objects.classes.size) (methods : List FunDecl) :
    Upholds m (Run.makeClass name superclass methods)
      fun k m' => (Value.callable (.klass k)).Present m' := by
  have hkept {m' : Machine} (ha : m.Advances m') : ∀ k ∈ superclass, k < m'.objects.classes.size :=
    fun k hk => ha.there (.klass k) (hsuper k hk)
  refine (activeFrame hm).bind fun frame m₁ ha₁ hm₁ hframe => ?_
  refine (define hm₁ frame name.lexeme (.of_none rfl)).bind fun _ m₂ ha₂ hm₂ _ => ?_
  have hactive : frame < m₂.frames.size :=
    hframe ▸ (ha₁.trans ha₂).there (.frame m.active) hm.active
  refine (methodFrame hm₂ hactive (hkept (ha₁.trans ha₂))).bind fun inner m₃ ha₃ hm₃ hinner => ?_
  refine (methodTable hm₃ hinner methods []).bind fun table m₄ ha₄ hm₄ _ => ?_
  exact newClass hm₄ (hkept (((ha₁.trans ha₂).trans ha₃).trans ha₄))

theorem declareClass (hm : m.Founded) (name : Token) {superclass : Option Nat}
    (hsuper : ∀ k ∈ superclass, k < m.objects.classes.size) (methods : List FunDecl) :
    Upholds m (Run.declareClass name superclass methods) fun _ _ => True := by
  rw [declareClass_eq]
  exact (makeClass hm name hsuper methods).bind fun k m₁ _ hm₁ hk => assign hm₁ name hk

theorem asSuperclass (hm : m.Founded) (name : Token) {v : Value} (hv : v.Present m) :
    Upholds m (Run.asSuperclass name v) fun k m' => k < m'.objects.classes.size :=
  of_tends hm (.asSuperclass name v) (asSuperclass_tends hm.toWhole name hv)

end Run.Upholds

/-! ### Evaluation -/

namespace Run

/-- With some fuel, evaluation leads from founded machines to founded ones, on which all is kept. -/
structure AllUphold (fuel : Nat) : Prop where
  evaluate : ∀ e (m : Machine), m.Founded →
    Upholds m (evaluate fuel e) fun v m' => v.Present m'
  evaluateAll : ∀ es (m : Machine), m.Founded →
    Upholds m (evaluateAll fuel es) fun vs m' => ∀ v ∈ vs, v.Present m'
  invoke : ∀ c vs (m : Machine), m.Founded → (Value.callable c).Present m →
    (∀ v ∈ vs, v.Present m) → Upholds m (invoke fuel c vs) fun v m' => v.Present m'
  invokeClosure : ∀ c vs (m : Machine), m.Founded → c.captured < m.frames.size →
    (∀ v ∈ vs, v.Present m) → Upholds m (invokeClosure fuel c vs) fun v m' => v.Present m'
  execute : ∀ s (m : Machine), m.Founded →
    Upholds m (execute fuel s) fun signal m' => signal.Present m'
  executeAll : ∀ ss (m : Machine), m.Founded →
    Upholds m (executeAll fuel ss) fun signal m' => signal.Present m'
  repeatWhile : ∀ e s (m : Machine), m.Founded →
    Upholds m (repeatWhile fuel e s) fun signal m' => signal.Present m'

namespace AllUphold

variable {fuel : Nat} (ih : AllUphold fuel) (m : Machine) (hm : m.Founded)

include ih hm

theorem evaluate_succ (e : Expr) :
    Upholds m (Run.evaluate (fuel + 1) e) fun v m' => v.Present m' := by
  unfold Run.evaluate
  cases e with
  | literal l =>
    refine .pure hm (.of_none ?_)
    cases l <;> rfl
  | grouping inner => exact ih.evaluate inner m hm
  | unary operator right =>
    refine (ih.evaluate right m hm).bind fun v m₁ _ hm₁ _ => ?_
    exact .of_tends hm₁ (applyUnary_plain operator v).still
      (plain_tends hm₁.toWhole (applyUnary_plain operator v) (applyUnary_inert operator v))
  | binary left operator right =>
    refine (ih.evaluate left m hm).bind fun a m₁ _ hm₁ _ =>
      (ih.evaluate right m₁ hm₁).bind fun b m₂ _ hm₂ _ => ?_
    exact .of_tends hm₂ (applyBinary_plain operator a b).still
      (plain_tends hm₂.toWhole (applyBinary_plain operator a b) (applyBinary_inert operator a b))
  | logical left operator right =>
    refine (ih.evaluate left m hm).bind fun a m₁ _ hm₁ ha => ?_
    split
    · exact .pure hm₁ ha
    · exact ih.evaluate right m₁ hm₁
  | var id name => exact .lookUp hm id name
  | thisRef id keyword => exact .lookUp hm id keyword
  | assign id name value =>
    refine (ih.evaluate value m hm).bind fun v m₁ _ hm₁ hv => ?_
    exact (Upholds.store hm₁ id name hv).bind fun _ _ ha₂ hm₂ _ => .pure hm₂ (ha₂.present hv)
  | call callee paren arguments =>
    refine (ih.evaluate callee m hm).bind fun f m₁ _ hm₁ hcallee =>
      (ih.evaluateAll arguments m₁ hm₁).bind fun vs m₂ ha₂ hm₂ hvs => ?_
    cases f with
    | callable c =>
      refine .ofObjects ?_
      split
      · exact ih.invoke c vs m₂ hm₂ (ha₂.present hcallee) hvs
      · exact .raise hm₂ ..
    | _ => exact .raise hm₂ ..
  | get object name =>
    refine (ih.evaluate object m hm).bind fun v m₁ _ hm₁ hv => ?_
    cases v with
    | object i => exact .property hm₁ name (hv (.object i) rfl)
    | _ => exact .raise hm₁ ..
  | set object name value =>
    -- only the value is written, so nothing has to be known of the object behind it
    refine (ih.evaluate object m hm).bind fun u m₁ _ hm₁ _ => ?_
    cases u with
    | object i =>
      refine (ih.evaluate value m₁ hm₁).bind fun v m₂ _ hm₂ hv => ?_
      exact (Upholds.setField hm₂ i name.lexeme hv).bind fun _ _ ha₃ hm₃ _ =>
        .pure hm₃ (ha₃.present hv)
    | _ => exact .raise hm₁ ..
  | superRef id keyword method => exact .superMethod hm id keyword method

theorem evaluateAll_succ (es : List Expr) :
    Upholds m (Run.evaluateAll (fuel + 1) es) fun vs m' => ∀ v ∈ vs, v.Present m' := by
  cases es with
  | nil => exact .pure hm fun v hv => absurd hv List.not_mem_nil
  | cons e es =>
    refine (ih.evaluate e m hm).bind fun v m₁ _ hm₁ hv =>
      (ih.evaluateAll es m₁ hm₁).bind fun vs m₂ ha₂ hm₂ hvs => ?_
    exact .pure hm₂ (List.forall_mem_cons.mpr ⟨ha₂.present hv, hvs⟩)

theorem invoke_succ (c : Callable) (vs : List Value) (hc : (Value.callable c).Present m)
    (hvs : ∀ v ∈ vs, v.Present m) :
    Upholds m (Run.invoke (fuel + 1) c vs) fun v m' => v.Present m' := by
  cases c with
  | native id =>
    refine .ofObjects ?_
    cases hn : m.objects.natives[id]? with
    | none => exact .halt hm .dangling
    | some n => exact .callNative hm hn vs
  | closure id =>
    refine .ofObjects ?_
    cases hid : m.objects.closures[id]? with
    | none => exact .halt hm .dangling
    | some c => exact ih.invokeClosure c vs m hm (hm.captured c (Array.mem_of_getElem? hid)) hvs
  | klass k =>
    -- the instance is there from now on, whatever its initializer does
    refine (Upholds.newInstance hm (hc (.klass k) rfl)).bind fun i m₁ ha₁ hm₁ hi => .ofObjects ?_
    cases hinit : m₁.objects.initializer? k with
    | none => exact .pure hm₁ (.of_ref (a := .object i) hi rfl)
    | some c =>
      refine (Upholds.bindMethod hm₁ (hm₁.captured_of_method hinit) hi).bind
        fun c' m₂ ha₂ hm₂ hc' => ?_
      refine (ih.invokeClosure c' vs m₂ hm₂ hc' ((ha₁.trans ha₂).presentAll hvs)).bind
        fun _ m₃ ha₃ hm₃ _ => ?_
      exact .pure hm₃ (.of_ref ((ha₂.trans ha₃).there (.object i) hi) rfl)

theorem invokeClosure_succ (c : Closure) (vs : List Value) (hc : c.captured < m.frames.size)
    (hvs : ∀ v ∈ vs, v.Present m) :
    Upholds m (Run.invokeClosure (fuel + 1) c vs) fun v m' => v.Present m' := by
  refine (Upholds.newFrame hm hc).bind fun frame m₁ ha₁ hm₁ hframe => ?_
  have hentries : ∀ e ∈ c.declaration.params.zip vs, e.2.Present m₁ :=
    fun e he => ha₁.present (hvs e.2 (List.of_mem_zip he).2)
  refine (Upholds.defineAll hm₁ frame hentries).bind fun _ m₂ ha₂ hm₂ _ => ?_
  refine (Upholds.within hm₂ (ha₂.there (.frame frame) hframe)
    (fun m' hm' => ih.executeAll c.declaration.body m' hm') fun signal m' f hs => hs).bind
      fun signal m₃ _ hm₃ hsignal => ?_
  split
  · exact .getAt hm₃ ..
  · cases signal with
    | returned v => exact .pure hm₃ (hsignal v rfl)
    | normal => exact .pure hm₃ (.of_none rfl)

theorem execute_succ (s : Stmt) :
    Upholds m (Run.execute (fuel + 1) s) fun signal m' => signal.Present m' := by
  unfold Run.execute
  have hnormal : ∀ m, Signal.normal.Present m := Signal.Present.normal
  cases s with
  | expression e => exact (ih.evaluate e m hm).bind fun _ _ _ hm₁ _ => .pure hm₁ (hnormal _)
  | print e =>
    refine (ih.evaluate e m hm).bind fun v m₁ _ hm₁ _ => .ofObjects ?_
    have hwrite : Upholds m₁ (write (m₁.objects.display v ++ "\n")) fun _ _ => True :=
      .quiet hm₁ (write_quiet _) fun _ _ _ => trivial
    exact hwrite.bind fun _ _ _ hm₂ _ => .pure hm₂ (hnormal _)
  | varDecl name initializer =>
    cases initializer with
    | none =>
      refine (Upholds.activeFrame hm).bind fun frame m₁ _ hm₁ _ => ?_
      exact (Upholds.define hm₁ frame name.lexeme (.of_none rfl)).bind
        fun _ _ _ hm₂ _ => .pure hm₂ (hnormal _)
    | some e =>
      refine (ih.evaluate e m hm).bind fun v m₁ _ hm₁ hv =>
        (Upholds.activeFrame hm₁).bind fun frame m₂ ha₂ hm₂ _ => ?_
      exact (Upholds.define hm₂ frame name.lexeme (ha₂.present hv)).bind
        fun _ _ _ hm₃ _ => .pure hm₃ (hnormal _)
  | block body =>
    refine (Upholds.activeFrame hm).bind fun outer m₁ ha₁ hm₁ houter => ?_
    -- the new frame links to the active one, which exists
    have hlt : outer < m₁.frames.size := houter ▸ ha₁.there (.frame m.active) hm.active
    refine (Upholds.newFrame hm₁ hlt).bind fun frame m₂ _ hm₂ hframe => ?_
    exact .within hm₂ hframe (fun m' hm' => ih.executeAll body m' hm') fun signal m' f hs => hs
  | branch condition thenBranch elseBranch =>
    refine (ih.evaluate condition m hm).bind fun v m₁ _ hm₁ _ => ?_
    split
    · exact ih.execute thenBranch m₁ hm₁
    · cases elseBranch with
      | some s => exact ih.execute s m₁ hm₁
      | none => exact .pure hm₁ (hnormal _)
  | loop condition body => exact ih.repeatWhile condition body m hm
  | function f =>
    refine (Upholds.functionValue hm f).bind fun v m₁ _ hm₁ hv =>
      (Upholds.activeFrame hm₁).bind fun frame m₂ ha₂ hm₂ _ => ?_
    exact (Upholds.define hm₂ frame f.name.lexeme (ha₂.present hv)).bind
      fun _ _ _ hm₃ _ => .pure hm₃ (hnormal _)
  | ret keyword value =>
    cases value with
    | none =>
      refine .pure hm fun v hv => ?_
      cases hv
      exact .of_none rfl
    | some e =>
      refine (ih.evaluate e m hm).bind fun v m₁ _ hm₁ hv => .pure hm₁ fun u hu => ?_
      cases hu
      exact hv
  | classDecl name superclass methods =>
    cases superclass with
    | none =>
      exact (Upholds.declareClass hm name (fun k hk => by cases hk) methods).bind
        fun _ _ _ hm₁ _ => .pure hm₁ (hnormal _)
    | some e =>
      refine (ih.evaluate e m hm).bind fun v m₁ _ hm₁ hv =>
        (Upholds.asSuperclass hm₁ name hv).bind fun k m₂ _ hm₂ hk => ?_
      exact (Upholds.declareClass hm₂ name (fun k' hk' => by cases hk'; exact hk) methods).bind
        fun _ _ _ hm₃ _ => .pure hm₃ (hnormal _)

theorem executeAll_succ (ss : List Stmt) :
    Upholds m (Run.executeAll (fuel + 1) ss) fun signal m' => signal.Present m' := by
  cases ss with
  | nil => exact .pure hm (Signal.Present.normal _)
  | cons s ss =>
    refine (ih.execute s m hm).bind fun signal m₁ _ hm₁ hsignal => ?_
    cases signal with
    | normal => exact ih.executeAll ss m₁ hm₁
    | returned v => exact .pure hm₁ hsignal

theorem repeatWhile_succ (e : Expr) (s : Stmt) :
    Upholds m (Run.repeatWhile (fuel + 1) e s) fun signal m' => signal.Present m' := by
  refine (ih.evaluate e m hm).bind fun v m₁ _ hm₁ _ => ?_
  split
  · refine (ih.execute s m₁ hm₁).bind fun signal m₂ _ hm₂ hsignal => ?_
    cases signal with
    | normal => exact ih.repeatWhile e s m₂ hm₂
    | returned v => exact .pure hm₂ hsignal
  · exact .pure hm₁ (Signal.Present.normal _)

end AllUphold

theorem allUphold (fuel : Nat) : AllUphold fuel := by
  induction fuel with
  | zero =>
    constructor
    · intro e m hm
      rw [Run.evaluate]
      exact .halt hm _
    · intro es m hm
      rw [Run.evaluateAll]
      exact .halt hm _
    · intro c vs m hm _ _
      rw [Run.invoke]
      exact .halt hm _
    · intro c vs m hm _ _
      rw [Run.invokeClosure]
      exact .halt hm _
    · intro s m hm
      rw [Run.execute]
      exact .halt hm _
    · intro ss m hm
      rw [Run.executeAll]
      exact .halt hm _
    · intro e s m hm
      rw [Run.repeatWhile]
      exact .halt hm _
  | succ fuel ih =>
    exact ⟨fun e m hm => ih.evaluate_succ m hm e, fun es m hm => ih.evaluateAll_succ m hm es,
      fun c vs m hm => ih.invoke_succ m hm c vs, fun c vs m hm => ih.invokeClosure_succ m hm c vs,
      fun s m hm => ih.execute_succ m hm s, fun ss m hm => ih.executeAll_succ m hm ss,
      fun e s m hm => ih.repeatWhile_succ m hm e s⟩

/-! ### Programs -/

theorem runAll_upholds (fuel : Nat) (ss : List Stmt) {m : Machine} (hm : m.Founded) :
    Upholds m (runAll fuel ss) fun _ _ => True := by
  induction ss generalizing m with
  | nil => exact .pure hm trivial
  | cons s ss ih => exact ((allUphold fuel).execute s m hm).bind fun _ _ _ hm₁ _ => ih hm₁

/-- The output is flushed behind a run, however that ends. -/
theorem Upholds.thenFlush {m : Machine} {run : Run Unit} (h : Upholds m run fun _ _ => True) :
    Upholds m (Run.thenFlush run) fun _ _ => True := by
  have hflush {m' : Machine} (hm' : m'.Founded) : Upholds m' flush fun _ _ => True :=
    .quiet hm' flush_quiet fun _ _ _ => trivial
  cases hr : run m with
  | ok u m₁ =>
    obtain ⟨ha₁, hm₁, -⟩ := h.ok hr
    cases hf : flush m₁ with
    | ok u m₂ =>
      obtain ⟨ha₂, hm₂, -⟩ := (hflush hm₁).ok hf
      exact of_ok (a := u) (by simp only [Run.thenFlush, hr, hf]) (ha₁.trans ha₂) hm₂ trivial
    | error e m₂ =>
      obtain ⟨ha₂, hm₂⟩ := (hflush hm₁).error hf
      exact of_error (e := e) (by simp only [Run.thenFlush, hr, hf]) (ha₁.trans ha₂) hm₂
  | error e m₁ =>
    obtain ⟨ha₁, hm₁⟩ := h.error hr
    -- the fault of the run is reported, unless the output halts as well
    cases hf : flush m₁ with
    | ok u m₂ =>
      obtain ⟨ha₂, hm₂, -⟩ := (hflush hm₁).ok hf
      exact of_error (e := e) (by simp only [Run.thenFlush, hr, hf]) (ha₁.trans ha₂) hm₂
    | error fault m₂ =>
      obtain ⟨ha₂, hm₂⟩ := (hflush hm₁).error hf
      exact of_error (e := fault) (by simp only [Run.thenFlush, hr, hf]) (ha₁.trans ha₂) hm₂

theorem interpret_upholds (fuel : Nat) (program : List Stmt) (distances : Distances) {m : Machine}
    (hm : m.Founded) : Upholds m (interpret fuel program distances) fun _ _ => True := by
  have hlearn : Upholds m (learn distances) fun _ _ => True :=
    .of_ok rfl (Machine.Advances.learn m distances) (hm.of_eq rfl rfl rfl) trivial
  exact hlearn.bind fun _ _ _ hm₁ _ => .thenFlush (runAll_upholds fuel program hm₁)

end Run

/-! ### Machines on which nothing has run -/

namespace Machine

theorem Founded.addNative {m : Machine} (h : m.Founded) {n : Native} (hn : n.Inert) :
    { m with objects := { m.objects with natives := m.objects.natives.push n } }.Founded where
  values := h.values
  fields := h.fields
  instances := h.instances
  natives n' hn' := by
    rcases Array.mem_push.mp hn' with hn' | rfl
    · exact h.natives n' hn'
    · exact hn
  root := h.root
  others := h.others
  descending := h.descending
  active := h.active
  captured := h.captured
  above := h.above

theorem Founded.defineNative {m : Machine} (h : m.Founded) {n : Native} (hn : n.Inert) :
    (m.defineNative n).Founded :=
  (h.addNative hn).define globals n.name (.of_none rfl)

/-- A machine on which nothing has run is founded, if what its natives yield is no object. -/
theorem founded_equipped (clock : Nat → Float) (sink : Sink) {natives : List Native}
    (hn : ∀ n ∈ natives, n.Inert) : (equipped clock sink natives).Founded := by
  have hfold (later : List Native) {m : Machine} (hm : m.Founded) (hl : ∀ n ∈ later, n.Inert) :
      (later.foldl Machine.defineNative m).Founded := by
    induction later generalizing m with
    | nil => exact hm
    | cons n later ih =>
      obtain ⟨hn, hrest⟩ := List.forall_mem_cons.mp hl
      exact ih (hm.defineNative hn) hrest
  have hone (f : FrameId) : (Frames.empty.push none).parent? f = none := by
    rw [Frames.parent?_push, ite_eq_left_iff]
    exact fun _ => rfl
  refine hfold natives (Founded.defineNative ?_ ?_) hn
  · exact
      { values := fun f x v hv => by
          rw [Frames.value?_push] at hv
          cases hv
        fields := fun i x v hv => by cases hv
        instances := fun i k hk => by cases hk
        natives := fun n hn => absurd hn (Array.not_mem_empty n)
        root := rfl
        others := fun f hf => .inl (Nat.lt_one_iff.mp hf)
        descending := fun f p hp => by
          rw [hone] at hp
          cases hp
        active := Nat.one_pos
        captured := fun c hc => absurd hc (Array.not_mem_empty c)
        above := fun k j hj => by cases hj }
  · intro now vs v hv
    cases hv
    rfl

end Machine

end Lox
