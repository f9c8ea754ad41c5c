/-
Values that exist.

On a machine all values of which refer to frames and objects that exist, what a run yields refers to
what exists as well: nothing is ever lost, and closures and classes stay as they were made.

* `Value.Present`, `Machine.Whole` — values that refer to what exists, on a machine that has no
  others;
* `Machine.Advances`, `Machine.Spares` — what becomes of a machine, also where no class and no
  instance is made and no field is written;
* `Run.Tends` — runs that spare classes and instances, by the rules for running one behind another;
* `lookUp_tends`, `property_tends`, … — variables, methods and natives are such runs.
-/
import Lox.Proofs.Run.Globals

namespace Lox

/-! ### Values and machines -/

/-- What the value refers to exists. -/
def Value.Present (m : Machine) (v : Value) : Prop :=
  ∀ a, v.ref? = some a → a.Exists m

/-- What is returned refers to what exists. -/
def Signal.Present (m : Machine) (s : Signal) : Prop :=
  ∀ v, s = .returned v → v.Present m

/-- A machine the values of which refer to what exists. -/
structure Machine.Whole (m : Machine) : Prop where
  values : ∀ f x v, m.frames.value? f x = some v → v.Present m
  fields : ∀ i x v, m.objects.field? i x = some v → v.Present m
  instances : ∀ i k, m.objects.classOf? i = some k → k < m.objects.classes.size
  natives : ∀ n ∈ m.objects.natives, n.Inert

/-- What becomes of a machine: all that there is stays, and classes and
closures stay as they are. -/
structure Machine.Advances (m m' : Machine) : Prop where
  there : ∀ a : Ref, a.Exists m → a.Exists m'
  parents : ∀ f p, m.frames.parent? f = some p → m'.frames.parent? f = some p
  defines : ∀ f x, m.frames.defines f x = true → m'.frames.defines f x = true
  closures : ∀ (id : Nat) (c : Closure), m.objects.closures[id]? = some c →
    m'.objects.closures[id]? = some c
  classes : ∀ (k : Nat) (c : ClassObject), m.objects.classes[k]? = some c →
    m'.objects.classes[k]? = some c

/-- What becomes of a machine if no class and no instance is made, and no field is written. -/
structure Machine.Spares (m m' : Machine) : Prop extends Machine.Advances m m' where
  sameClasses : m'.objects.classes = m.objects.classes
  sameInstances : m'.objects.instances = m.objects.instances

theorem Value.Present.of_none {m : Machine} {v : Value} (h : v.ref? = none) : v.Present m := by
  intro a ha
  rw [h] at ha
  cases ha

theorem Value.Present.of_ref {m : Machine} {v : Value} {a : Ref} (h : a.Exists m)
    (hv : v.ref? = some a) : v.Present m := by
  intro b hb
  rw [hv] at hb
  cases hb
  exact h

theorem Signal.Present.normal (m : Machine) : Signal.normal.Present m := fun _ h => by cases h

namespace Machine

variable {m m' m'' : Machine} {v : Value}

namespace Advances

theorem refl (m : Machine) : m.Advances m :=
  ⟨fun _ h => h, fun _ _ h => h, fun _ _ h => h, fun _ _ h => h, fun _ _ h => h⟩

theorem trans (h : m.Advances m') (h' : m'.Advances m'') : m.Advances m'' where
  there a ha := h'.there a (h.there a ha)
  parents f p hp := h'.parents f p (h.parents f p hp)
  defines f x hx := h'.defines f x (h.defines f x hx)
  closures id c hc := h'.closures id c (h.closures id c hc)
  classes k c hc := h'.classes k c (h.classes k c hc)

theorem present (h : m.Advances m') (hv : v.Present m) : v.Present m' :=
  fun a ha => h.there a (hv a ha)

theorem presentAll (h : m.Advances m') {vs : List Value} (hvs : ∀ v ∈ vs, v.Present m) :
    ∀ v ∈ vs, v.Present m' :=
  fun v hv => h.present (hvs v hv)

theorem instances_size_le (h : m.Advances m') :
    m.objects.instances.size ≤ m'.objects.instances.size :=
  Nat.le_of_not_lt fun hlt => Nat.lt_irrefl _ (h.there (.object m'.objects.instances.size) hlt)

end Advances

namespace Spares

theorem of_eq (hf : m'.frames = m.frames) (ho : m'.objects = m.objects) : m.Spares m' where
  there a ha := by cases a <;> simpa only [Ref.Exists, hf, ho] using ha
  parents f p hp := by rwa [hf]
  defines f x hx := by rwa [hf]
  closures id c hc := by rwa [ho]
  classes k c hc := by rwa [ho]
  sameClasses := by rw [ho]
  sameInstances := by rw [ho]

theorem refl (m : Machine) : m.Spares m :=
  of_eq rfl rfl

theorem trans (h : m.Spares m') (h' : m'.Spares m'') : m.Spares m'' :=
  ⟨h.toAdvances.trans h'.toAdvances, h'.sameClasses.trans h.sameClasses,
    h'.sameInstances.trans h.sameInstances⟩

theorem push (m : Machine) (parent : FrameId) :
    m.Spares { m with frames := m.frames.push (some parent) } where
  there a ha := by
    cases a with
    | frame f =>
      show f < (m.frames.push (some parent)).size
      rw [Frames.size_push]
      exact Nat.lt_succ_of_lt ha
    | _ => exact ha
  parents := (Grows.push m parent).parent
  defines := (Grows.push m parent).defines
  closures _ _ h := h
  classes _ _ h := h
  sameClasses := rfl
  sameInstances := rfl

theorem define (m : Machine) (f : FrameId) (x : String) (v : Value) :
    m.Spares { m with frames := m.frames.define f x v } where
  there a ha := by
    cases a with
    | frame g =>
      show g < (m.frames.define f x v).size
      rw [Frames.size_define]
      exact ha
    | _ => exact ha
  parents := (Grows.define m f x v).parent
  defines := (Grows.define m f x v).defines
  closures _ _ h := h
  classes _ _ h := h
  sameClasses := rfl
  sameInstances := rfl

theorem addClosure (m : Machine) (c : Closure) :
    m.Spares { m with objects := { m.objects with closures := m.objects.closures.push c } } where
  there a ha := by
    cases a with
    | closure id =>
      show id < (m.objects.closures.push c).size
      rw [Array.size_push]
      exact Nat.lt_succ_of_lt ha
    | _ => exact ha
  parents _ _ h := h
  defines _ _ h := h
  closures id c' hc := by
    have hlt := (Array.getElem?_eq_some_iff.mp hc).1
    show (m.objects.closures.push c)[id]? = some c'
    rw [Array.getElem?_push_lt hlt, ← hc, Array.getElem?_eq_getElem hlt]
  classes _ _ h := h
  sameClasses := rfl
  sameInstances := rfl

end Spares

theorem Advances.turn (m : Machine) (frame : FrameId) : m.Advances { m with active := frame } :=
  (Spares.of_eq rfl rfl : m.Spares { m with active := frame }).toAdvances

theorem Advances.addClass (m : Machine) (c : ClassObject) :
    m.Advances { m with objects := m.objects.addClass c } where
  there a ha := by
    cases a with
    | klass k =>
      show k < (m.objects.classes.push c).size
      rw [Array.size_push]
      exact Nat.lt_succ_of_lt ha
    | _ => exact ha
  parents _ _ h := h
  defines _ _ h := h
  closures _ _ h := h
  classes := (m.objects.extends_addClass c).classes

theorem Advances.addInstance (m : Machine) (k : Nat) :
    m.Advances { m with objects := m.objects.addInstance k } where
  there a ha := by
    cases a with
    | object i =>
      show i < (m.objects.instances.push ⟨k, []⟩).size
      rw [Array.size_push]
      exact Nat.lt_succ_of_lt ha
    | _ => exact ha
  parents _ _ h := h
  defines _ _ h := h
  closures _ _ h := h
  classes _ _ h := h

theorem Advances.setField (m : Machine) (i : Nat) (x : String) (v : Value) :
    m.Advances { m with objects := m.objects.setField i x v } where
  there a ha := by
    cases a with
    | object j =>
      show j < (m.objects.instances.modify i _).size
      rw [Array.size_modify]
      exact ha
    | _ => exact ha
  parents _ _ h := h
  defines _ _ h := h
  closures _ _ h := h
  classes _ _ h := h

namespace Whole

theorem of_eq (h : m.Whole) (hf : m'.frames = m.frames) (ho : m'.objects = m.objects) :
    m'.Whole where
  values f x v hv := (Spares.of_eq hf ho).present (h.values f x v (hf ▸ hv))
  fields i x v hv := (Spares.of_eq hf ho).present (h.fields i x v (ho ▸ hv))
  instances := by
    rw [ho]
    exact h.instances
  natives := by
    rw [ho]
    exact h.natives

theorem push (h : m.Whole) (parent : FrameId) :
    { m with frames := m.frames.push (some parent) }.Whole where
  values f x v hv := by
    have hbefore : m.frames.value? f x = some v := (m.frames.value?_push ..).symm.trans hv
    exact (Spares.push m parent).present (h.values f x v hbefore)
  fields i x v hv := (Spares.push m parent).present (h.fields i x v hv)
  instances := h.instances
  natives := h.natives

theorem define (h : m.Whole) (f : FrameId) (x : String) (hv : v.Present m) :
    { m with frames := m.frames.define f x v }.Whole where
  values g y u hu := by
    obtain rfl | hu := m.frames.value?_define_cases hu
    · exact (Spares.define m f x u).present hv
    · exact (Spares.define m f x v).present (h.values g y u hu)
  fields i y u hu := (Spares.define m f x v).present (h.fields i y u hu)
  instances := h.instances
  natives := h.natives

theorem addClosure (h : m.Whole) (c : Closure) :
    { m with objects := { m.objects with closures := m.objects.closures.push c } }.Whole where
  values f x v hv := (Spares.addClosure m c).present (h.values f x v hv)
  fields i x v hv := (Spares.addClosure m c).present (h.fields i x v hv)
  instances := h.instances
  natives := h.natives

theorem addClass (h : m.Whole) (c : ClassObject) :
    { m with objects := m.objects.addClass c }.Whole where
  values f x v hv := (Advances.addClass m c).present (h.values f x v hv)
  fields i x v hv := (Advances.addClass m c).present (h.fields i x v hv)
  instances i k hk := (Advances.addClass m c).there (.klass k) (h.instances i k hk)
  natives := h.natives

theorem addInstance (h : m.Whole) {k : Nat} (hk : k < m.objects.classes.size) :
    { m with objects := m.objects.addInstance k }.Whole where
  values f x v hv := (Advances.addInstance m k).present (h.values f x v hv)
  fields i x v hv :=
    (Advances.addInstance m k).present (h.fields i x v (Objects.field?_addInstance hv))
  instances i k' hi := by
    obtain ⟨inst, hinst, rfl⟩ := Option.map_eq_some_iff.mp hi
    have hpush : (m.objects.instances.push ⟨k, []⟩)[i]? = some inst := hinst
    rw [Array.getElem?_push] at hpush
    split at hpush
    · cases hpush
      exact hk
    · exact h.instances i _ (Option.map_eq_some_iff.mpr ⟨inst, hpush, rfl⟩)
  natives := h.natives

theorem setField (h : m.Whole) (i : Nat) (x : String) (hv : v.Present m) :
    { m with objects := m.objects.setField i x v }.Whole where
  values f y u hu := (Advances.setField m i x v).present (h.values f y u hu)
  fields j y u hu := by
    obtain rfl | hu := Objects.field?_setField_cases hu
    · exact (Advances.setField m i x u).present hv
    · exact (Advances.setField m i x v).present (h.fields j y u hu)
  instances j k hk := h.instances j k (by rwa [← Objects.classOf?_setField])
  natives := h.natives

end Whole

end Machine

/-! ### Runs that spare classes and instances -/

/-- However it ends, the run makes no class and no instance and writes to no field, and leads to a
machine that is whole; and something holds of what it yields. -/
def Run.Tends {α : Type} (m : Machine) (run : Run α) (post : α → Machine → Prop) : Prop :=
  match run m with
  | .ok a m' => (m.Spares m' ∧ m'.Whole) ∧ post a m'
  | .error _ m' => m.Spares m' ∧ m'.Whole

theorem Run.Plain.still {run : Run Value} (h : run.Plain) : run.Still := by
  rcases h with ⟨v, rfl, -⟩ | ⟨e, rfl⟩
  · exact .pure v
  · exact .halt e

namespace Run

namespace Tends

variable {α β : Type} {m : Machine} {run : Run α} {post post' : α → Machine → Prop}

theorem of_ok {a : α} {m' : Machine} (he : run m = .ok a m') (hs : m.Spares m') (hw : m'.Whole)
    (hp : post a m') : Tends m run post := by
  unfold Tends
  rw [he]
  exact ⟨⟨hs, hw⟩, hp⟩

theorem of_error {e : Halt} {m' : Machine} (he : run m = .error e m') (hs : m.Spares m')
    (hw : m'.Whole) : Tends m run post := by
  unfold Tends
  rw [he]
  exact ⟨hs, hw⟩

/-- A run that leaves the machine as it is. -/
theorem still (hw : m.Whole) (hs : run.Still) (hp : ∀ a, run m = .ok a m → post a m) :
    Tends m run post := by
  rcases hs m with ⟨a, he⟩ | ⟨e, he⟩
  · exact of_ok he (.refl m) hw (hp a he)
  · exact of_error he (.refl m) hw

/-- A run that only changes what is printed, and how often the clock was read. -/
theorem quiet (hw : m.Whole) (hq : run.Quiet)
    (hp : ∀ a m', run m = .ok a m' → post a m') : Tends m run post := by
  rcases hq m with ⟨a, m', he, ha⟩ | ⟨e, m', he, ha⟩
  · exact of_ok he (.of_eq ha.frames ha.objects) (hw.of_eq ha.frames ha.objects) (hp a m' he)
  · exact of_error he (.of_eq ha.frames ha.objects) (hw.of_eq ha.frames ha.objects)

theorem bind (h : Tends m run post) {next : α → Run β} {postNext : β → Machine → Prop}
    (hn : ∀ a m', m.Spares m' → m'.Whole → post a m' → Tends m' (next a) postNext) :
    Tends m (run >>= next) postNext := by
  unfold Tends at h ⊢
  rw [bind_apply]
  cases he : run m with
  | error e m' =>
    rw [he] at h
    exact h
  | ok a m' =>
    rw [he] at h
    obtain ⟨⟨hs, hw⟩, hp⟩ := h
    have hnext := hn a m' hs hw hp
    unfold Tends at hnext
    simp only
    cases hb : next a m' with
    | ok b m'' =>
      rw [hb] at hnext
      exact ⟨⟨hs.trans hnext.1.1, hnext.1.2⟩, hnext.2⟩
    | error e m'' =>
      rw [hb] at hnext
      exact ⟨hs.trans hnext.1, hnext.2⟩

theorem pure (hw : m.Whole) {a : α} (hp : post a m) : Tends m (Pure.pure a) post :=
  of_ok rfl (.refl m) hw hp

theorem halt (hw : m.Whole) (e : Halt) : Tends m (Run.halt e) post :=
  of_error rfl (.refl m) hw

theorem raise (hw : m.Whole) (line : Nat) (fault : RuntimeFault) :
    Tends m (Run.raise line fault) post :=
  halt hw _

/-- Looking at the objects. -/
theorem ofObjects {f : Objects → α} {next : α → Run β}
    {postNext : β → Machine → Prop} (h : Tends m (next (f m.objects)) postNext) :
    Tends m (Run.ofObjects f >>= next) postNext := h

theorem activeFrame (hw : m.Whole) : Tends m Run.activeFrame fun f _ => f = m.active :=
  of_ok rfl (.refl m) hw rfl

theorem newFrame (hw : m.Whole) (parent : FrameId) :
    Tends m (Run.newFrame parent) fun f m' =>
      m'.frames.parent? f = some parent ∧ f < m'.frames.size := by
  refine of_ok rfl (.push m parent) (hw.push parent) ⟨?_, ?_⟩
  · exact (m.frames.parent?_push ..).trans (if_pos rfl)
  · show m.frames.size < (m.frames.push (some parent)).size
    rw [Frames.size_push]
    exact Nat.lt_succ_self _

theorem define (hw : m.Whole) (f : FrameId) (x : String) {v : Value} (hv : v.Present m) :
    Tends m (Run.define f x v) fun _ m' => f < m.frames.size → m'.frames.defines f x = true :=
  of_ok rfl (.define m f x v) (hw.define f x hv) fun hf => m.frames.defines_define_self hf x v

theorem defineAll (hw : m.Whole) (f : FrameId) {entries : List (Token × Value)}
    (hvs : ∀ e ∈ entries, e.2.Present m) : Tends m (Run.defineAll f entries) fun _ _ => True := by
  induction entries generalizing m with
  | nil => exact pure hw trivial
  | cons e rest ih =>
    obtain ⟨hv, hrest⟩ := List.forall_mem_cons.mp hvs
    exact (define hw f e.1.lexeme hv).bind fun _ m' hs hw' _ =>
      ih hw' fun e he => hs.present (hrest e he)

end Tends

variable {m : Machine}

/-! ### Variables -/

theorem plain_tends (hw : m.Whole) {run : Run Value} (hp : run.Plain) (hi : run.Inert) :
    Tends m run fun v m' => v.Present m' :=
  .still hw hp.still fun v he => .of_none (hi m v m he)

theorem getAt_tends (hw : m.Whole) (frame : FrameId) (d : Nat) (x : String) (line : Nat) :
    Tends m (getAt frame d x line) fun v m' => v.Present m' := by
  refine .still hw (.getAt frame d x line) fun v he => ?_
  obtain ⟨f, hf⟩ := exists_value_of_getAt he
  exact hw.values f x v hf

theorem lookUp_tends (hw : m.Whole) (id : NodeId) (name : Token) :
    Tends m (lookUp id name) fun v m' => v.Present m' := by
  refine .still hw (.lookUp id name) fun v he => ?_
  obtain ⟨f, hf⟩ := exists_value_of_lookUp he
  exact hw.values f _ v hf

theorem assignIn_tends (hw : m.Whole) (frame : Option FrameId) (name : Token) {v : Value}
    (hv : v.Present m) : Tends m (assignIn frame name v) fun _ _ => True := by
  cases frame with
  | some f => exact .of_ok rfl (.define m f name.lexeme v) (hw.define f name.lexeme hv) trivial
  | none => exact .of_error rfl (.refl m) hw

theorem store_tends (hw : m.Whole) (id : NodeId) (name : Token) {v : Value} (hv : v.Present m) :
    Tends m (store id name v) fun _ _ => True := by
  cases hd : m.distances.find? id with
  | some d =>
    have hassign := assignIn_tends hw (m.frames.ancestor? m.active d) name hv
    unfold Tends at hassign ⊢
    unfold store
    rwa [hd]
  | none =>
    have hassign := assignIn_tends hw (m.frames.holder? globals name.lexeme) name hv
    unfold Tends at hassign ⊢
    unfold store
    rwa [hd]

theorem assign_tends (hw : m.Whole) (name : Token) {v : Value} (hv : v.Present m) :
    Tends m (assign name v) fun _ _ => True :=
  assignIn_tends hw (m.frames.holder? m.active name.lexeme) name hv

theorem declare_tends (hw : m.Whole) (name : Token) {v : Value} (hv : v.Present m) :
    Tends m (do define (← activeFrame) name.lexeme v) fun _ _ => True :=
  (Tends.activeFrame hw).bind fun f m' hs hw' _ =>
    .of_ok rfl (.define m' f name.lexeme v) (hw'.define f name.lexeme (hs.present hv)) trivial

/-! ### Closures and methods -/

theorem newClosure_tends (hw : m.Whole) (c : Closure) :
    Tends m (newClosure c) fun id m' => m'.objects.closures[id]? = some c :=
  .of_ok rfl (.addClosure m c) (hw.addClosure c) Array.getElem?_push_size

theorem present_of_closure {id : Nat} {c : Closure} (h : m.objects.closures[id]? = some c) :
    (Value.callable (.closure id)).Present m :=
  .of_ref (a := .closure id) (Array.getElem?_eq_some_iff.mp h).1 rfl

theorem bindMethod_tends (hw : m.Whole) (c : Closure) {object : Nat}
    (hobject : object < m.objects.instances.size) :
    Tends m (bindMethod c object) fun _ _ => True := by
  refine (Tends.newFrame hw _).bind fun f m₁ hs₁ hw₁ _ => ?_
  have hpresent : (Value.object object).Present m₁ :=
    .of_ref (hs₁.there (.object object) hobject) rfl
  exact (Tends.define hw₁ f "this" hpresent).bind fun _ m₂ _ hw₂ _ => .pure hw₂ trivial

theorem bound_tends (hw : m.Whole) (c : Closure) {object : Nat}
    (hobject : object < m.objects.instances.size) :
    Tends m (bound c object) fun v m' => v.Present m' :=
  (bindMethod_tends hw c hobject).bind fun c' _ _ hw₁ _ =>
    (newClosure_tends hw₁ c').bind fun _ _ _ hw₂ hc => .pure hw₂ (present_of_closure hc)

theorem boundMethod_tends (hw : m.Whole) (klass : Option Nat) {object : Nat} (name : Token)
    (hobject : object < m.objects.instances.size) :
    Tends m (boundMethod klass object name) fun v m' => v.Present m' := by
  refine .ofObjects ?_
  split
  · exact bound_tends hw _ hobject
  · exact .raise hw ..

theorem property_tends (hw : m.Whole) {object : Nat} (name : Token)
    (hobject : object < m.objects.instances.size) :
    Tends m (property object name) fun v m' => v.Present m' := by
  refine .ofObjects ?_
  split
  · next v hv => exact .pure hw (hw.fields object name.lexeme v hv)
  · exact .ofObjects (boundMethod_tends hw _ name hobject)

theorem superReference_tends (hw : m.Whole) (id : NodeId) (keyword : Token) :
    Tends m (superReference id keyword) fun found m' => found.2.Present m' := by
  refine Tends.bind (?_ : Tends m _ fun _ _ => True) fun d m₁ _ hw₁ _ => ?_
  · refine .still hw (fun m => ?_) fun _ _ => trivial
    cases m.distances.find? id with
    | some d => exact .inl ⟨d, rfl⟩
    | none => exact .inr ⟨_, rfl⟩
  · refine (Tends.activeFrame hw₁).bind fun f m₂ _ hw₂ _ => ?_
    exact (getAt_tends hw₂ ..).bind fun _ m₃ _ hw₃ _ =>
      (getAt_tends hw₃ ..).bind fun _ _ _ hw₄ hv => .pure hw₄ hv

theorem superMethod_tends (hw : m.Whole) (id : NodeId) (keyword method : Token) :
    Tends m (superMethod id keyword method) fun v m' => v.Present m' := by
  refine (superReference_tends hw id keyword).bind fun p m₁ _ hw₁ hp => ?_
  split
  · next k object => exact boundMethod_tends hw₁ (some k) method (hp (.object object) rfl)
  · exact .raise hw₁ ..

theorem functionValue_tends (hw : m.Whole) (f : FunDecl) :
    Tends m (functionValue f) fun v m' => v.Present m' :=
  (Tends.activeFrame hw).bind fun _ _ _ hw₁ _ =>
    (newClosure_tends hw₁ _).bind fun _ _ _ hw₂ hc => .pure hw₂ (present_of_closure hc)

theorem callNative_tends (hw : m.Whole) {id : Nat} {n : Native}
    (hn : m.objects.natives[id]? = some n) (vs : List Value) :
    Tends m (callNative n vs) fun v m' => v.Present m' := by
  refine .quiet hw (callNative_quiet n vs) fun v m' he => ?_
  exact .of_none (hw.natives n (Array.mem_of_getElem? hn) _ _ _ (eq_ok_of_ofExcept he))

theorem asSuperclass_tends (hw : m.Whole) (name : Token) {v : Value} (hv : v.Present m) :
    Tends m (asSuperclass name v) fun k m' => k < m'.objects.classes.size := by
  refine .still hw (.asSuperclass name v) fun k he => ?_
  unfold asSuperclass at he
  split at he
  · cases he
    exact hv (.klass _) rfl
  · cases he

end Run

end Lox
