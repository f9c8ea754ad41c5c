/-
Steps of lawful records.

What a run does to a record in one step: it makes a frame, writes to a cell, makes an object, meets
a node, or notes a deed.  Each of these keeps a record lawful and only adds to it.

* `Lawful.write` — a write to a known cell of a sound value;
* `Lawful.push` — a new frame, whatever it is opened for;
* `Lawful.addClosure`, `Lawful.objects` — new closures, and changes of the other objects;
* `Lawful.meet` — a node that is met in a chain of frames that agrees with its place;
* `Lawful.did` — a deed, whatever it is.
-/
import Lox.Proofs.Run.Lawful

namespace Lox

/-! ### The log -/

/-- What was last written to a cell was written to it. -/
theorem mem_of_lastWritten {log : List Event} {c : Cell} {v : Value}
    (h : lastWritten log c = some v) : .wrote c v ∈ log := by
  induction log with
  | nil => cases h
  | cons e log ih =>
    cases e with
    | met p node m => exact List.mem_cons_of_mem _ (ih h)
    | opened f o => exact List.mem_cons_of_mem _ (ih h)
    | did deed => exact List.mem_cons_of_mem _ (ih h)
    | wrote c' v' =>
      unfold lastWritten at h
      split at h
      · next he =>
        cases he
        cases h
        exact List.mem_cons_self ..
      · exact List.mem_cons_of_mem _ (ih h)

/-- If no frame is opened twice, a frame is opened for one construct. -/
theorem opener_unique {log : List Event} (h : (log.filterMap Event.opened?).Nodup) {f : FrameId}
    {o o' : Option Opener} (ho : .opened f o ∈ log) (ho' : .opened f o' ∈ log) : o = o' := by
  have hmem : ∀ {log : List Event} {o : Option Opener}, .opened f o ∈ log →
      f ∈ log.filterMap Event.opened? := fun hm => List.mem_filterMap.mpr ⟨_, hm, rfl⟩
  induction log with
  | nil => cases ho
  | cons e log ih =>
    rcases List.mem_cons.mp ho with rfl | hm
    · rcases List.mem_cons.mp ho' with he | hm'
      · cases he
        rfl
      · have hn : (f :: log.filterMap Event.opened?).Nodup := h
        exact absurd (hmem hm') (List.nodup_cons.mp hn).1
    · rcases List.mem_cons.mp ho' with rfl | hm'
      · have hn : (f :: log.filterMap Event.opened?).Nodup := h
        exact absurd (hmem hm) (List.nodup_cons.mp hn).1
      · exact ih (h.sublist ((List.sublist_cons_self e log).filterMap _)) hm hm'

/-! ### Changes of a record -/

namespace Record

/-- A cell gets a value. -/
def write (r : Record) (c : Cell) (v : Value) : Record where
  machine := { r.machine with frames := r.machine.frames.define c.activation c.name v }
  bodies := r.bodies
  log := .wrote c v :: r.log

/-- A frame is made. -/
def push (r : Record) (parent : FrameId) (opener : Option Opener) : Record where
  machine := { r.machine with frames := r.machine.frames.push (some parent) }
  bodies := r.bodies
  log := .opened r.machine.frames.size opener :: r.log

/-- A closure is made. -/
def addClosure (r : Record) (body : Place) (c : Closure) : Record where
  machine := { r.machine with
    objects := { r.machine.objects with closures := r.machine.objects.closures.push c } }
  bodies := fun i => if i = r.machine.objects.closures.size then body else r.bodies i
  log := r.log

/-- A node is met. -/
def meet (r : Record) (p : Place) (node : Node) : Record :=
  { r with log := .met p node r.machine :: r.log }

/-- A deed is noted. -/
def did (r : Record) (deed : Deed) : Record :=
  { r with log := .did deed :: r.log }

/-- The objects other than closures change. -/
def withObjects (r : Record) (o : Objects) : Record :=
  { r with machine := { r.machine with objects := o } }

/-- An instance is made, which has no fields. -/
def addInstance (r : Record) (klass : Nat) : Record :=
  r.withObjects { r.machine.objects with
    instances := r.machine.objects.instances.push ⟨klass, []⟩ }

theorem lt_size_push (r : Record) (parent : FrameId) (opener : Option Opener) :
    r.machine.frames.size < (r.push parent opener).machine.frames.size := by
  show _ < (r.machine.frames.push _).size
  rw [Frames.size_push]
  exact Nat.lt_succ_self _

theorem parent?_push (r : Record) (parent : FrameId) (opener : Option Opener) :
    (r.push parent opener).machine.frames.parent? r.machine.frames.size = some parent :=
  (r.machine.frames.parent?_push (some parent) _).trans (if_pos rfl)

/-- The body of a new closure is where it was made. -/
theorem bodies_addClosure (r : Record) (body : Place) (c : Closure) :
    (r.addClosure body c).bodies r.machine.objects.closures.size = body :=
  if_pos rfl

end Record

variable {ds : Distances} {q : Site → Prop} {r : Record}

/-- A known cell belongs to a frame that exists. -/
theorem Cell.Known.lt_size {c : Cell} (hc : c.Known r) (h : Lawful ds q r) :
    c.activation < r.machine.frames.size := by
  rcases hc with ⟨hg, -⟩ | ho
  · rw [hg]
    exact h.globals_lt
  · exact (h.opened_lt _ _ ho).1

/-- Known cells of one frame have one opener. -/
theorem Cell.Known.opener_eq (h : Lawful ds q r) {c c' : Cell} (hc : c.Known r)
    (hc' : c'.Known r) (ha : c.activation = c'.activation) : c.opener = c'.opener := by
  rcases hc with ⟨hg, ho⟩ | ho
  · rcases hc' with ⟨-, ho'⟩ | ho'
    · rw [ho, ho']
    · exact absurd (ha ▸ hg) (h.opened_lt _ _ ho').2
  · rcases hc' with ⟨hg', -⟩ | ho'
    · exact absurd (ha ▸ hg') (h.opened_lt _ _ ho).2
    · exact opener_unique h.opened_once ho (ha ▸ ho')

/-! ### Later records -/

theorem Later.write {c : Cell} (hc : c.activation < r.machine.frames.size) (v : Value) :
    Later r (r.write c v) where
  parent f parent hp := by rw [← hp]; exact r.machine.frames.parent?_define ..
  defines f x hd := r.machine.frames.defines_define hc c.name v hd
  log e he := List.mem_cons_of_mem _ he
  closures id c hc := ⟨hc, rfl⟩

theorem Later.push (parent : FrameId) (opener : Option Opener) :
    Later r (r.push parent opener) where
  parent _ _ hp := r.machine.frames.parent?_push_of_some _ hp
  defines _ _ hd := (r.machine.frames.defines_push ..).trans hd
  log _ he := List.mem_cons_of_mem _ he
  closures _ _ hc := ⟨hc, rfl⟩

theorem Later.addClosure (body : Place) (c : Closure) : Later r (r.addClosure body c) where
  parent _ _ hp := hp
  defines _ _ hd := hd
  log _ he := he
  closures id c' hc := by
    have hlt : id < r.machine.objects.closures.size := (Array.getElem?_eq_some_iff.mp hc).1
    refine ⟨?_, if_neg (Nat.ne_of_lt hlt)⟩
    show (r.machine.objects.closures.push c)[id]? = some c'
    rw [Array.getElem?_push_lt hlt, ← hc, Array.getElem?_eq_getElem hlt]

/-- An event is noted. -/
theorem Later.note (e : Event) : Later r { r with log := e :: r.log } :=
  ⟨fun _ _ h => h, fun _ _ h => h, fun _ he => List.mem_cons_of_mem _ he, fun _ _ h => ⟨h, rfl⟩⟩

theorem Later.meet (p : Place) (node : Node) : Later r (r.meet p node) := .note _

theorem Later.did (deed : Deed) : Later r (r.did deed) := .note _

/-- Nothing is lost if frames, closures and notes stay as they are. -/
theorem Later.of_eq {r' : Record} (hf : r'.machine.frames = r.machine.frames)
    (hc : r'.machine.objects.closures = r.machine.objects.closures) (hb : r'.bodies = r.bodies)
    (hl : r'.log = r.log) : Later r r' where
  parent f parent hp := by rw [hf]; exact hp
  defines f x hd := by rw [hf]; exact hd
  log e he := by rw [hl]; exact he
  closures id c h := by rw [hc, hb]; exact ⟨h, rfl⟩

/-! ### Lawful records -/

/-- A write to a known cell of a value that is sound behind the write. -/
theorem Lawful.write (h : Lawful ds q r) {c : Cell} (hc : c.Known r) {v : Value}
    (hv : v.Sound q (r.write c v)) : Lawful ds q (r.write c v) := by
  have hlt := hc.lt_size h
  have hlater := Later.write (r := r) hlt v
  have hopened : ∀ {f o}, Event.opened f o ∈ (r.write c v).log → .opened f o ∈ r.log :=
    fun hm => by
      rcases List.mem_cons.mp hm with he | hm
      · cases he
      · exact hm
  have hsize : (r.write c v).machine.frames.size = r.machine.frames.size :=
    r.machine.frames.size_define ..
  refine
    { distances := h.distances
      globals_lt := hsize ▸ h.globals_lt
      globals_parent := (r.machine.frames.parent?_define ..).trans h.globals_parent
      opened_lt := fun f o hm => hsize ▸ h.opened_lt f o (hopened hm)
      opened_once := h.opened_once
      wrote_lt := fun c' v' hm => ?_
      holds := fun f o hm x => ?_
      values := fun f x u hu => ?_
      fields := fun i x u hu => (h.fields i x u hu).mono (fun _ hx => hx) hlater
      methods := fun k x id hid => hlater.readyMethod (fun _ hx => hx) (h.methods k x id hid)
      natives := h.natives
      told := h.told }
  · rcases List.mem_cons.mp hm with he | hm
    · cases he
      exact hsize ▸ hlt
    · exact hsize ▸ h.wrote_lt c' v' hm
  · have ho := hopened hm
    show (r.machine.frames.define c.activation c.name v).value? f x = _
    rw [r.machine.frames.value?_define hlt, h.holds f o ho x]
    show _ = if c = ⟨f, o, x⟩ then some v else lastWritten r.log ⟨f, o, x⟩
    -- a known cell of this frame has the opener of the frame
    have hiff : (c.activation = f ∧ c.name = x) ↔ c = ⟨f, o, x⟩ := by
      constructor
      · rintro ⟨rfl, rfl⟩
        have hco : Cell.Known r ⟨c.activation, o, c.name⟩ := Or.inr ho
        have heq : c.opener = o := hc.opener_eq h hco rfl
        rw [← heq]
      · rintro rfl
        exact ⟨rfl, rfl⟩
    simp only [hiff]
  · have hu' : (r.machine.frames.define c.activation c.name v).value? f x = some u := hu
    rw [r.machine.frames.value?_define hlt] at hu'
    split at hu'
    · cases hu'
      exact hv
    · exact (h.values f x u hu').mono (fun _ hx => hx) hlater

/-- A new frame, which is empty. -/
theorem Lawful.push (h : Lawful ds q r) (parent : FrameId) (opener : Option Opener) :
    Lawful ds q (r.push parent opener) := by
  have hlater := Later.push (r := r) parent opener
  have hsize : (r.push parent opener).machine.frames.size = r.machine.frames.size + 1 :=
    r.machine.frames.size_push _
  have hvalue : ∀ f x, (r.push parent opener).machine.frames.value? f x =
      r.machine.frames.value? f x := r.machine.frames.value?_push _
  have hg : globals ≠ r.machine.frames.size := Nat.ne_of_lt h.globals_lt
  refine
    { distances := h.distances
      globals_lt := hsize ▸ Nat.lt_succ_of_lt h.globals_lt
      globals_parent := ?_
      opened_lt := fun f o hm => ?_
      opened_once := ?_
      wrote_lt := fun c v hm => ?_
      holds := fun f o hm x => ?_
      values := fun f x v hv => (h.values f x v (hvalue f x ▸ hv)).mono (fun _ hx => hx) hlater
      fields := fun i x v hv => (h.fields i x v hv).mono (fun _ hx => hx) hlater
      methods := fun k x id hid => hlater.readyMethod (fun _ hx => hx) (h.methods k x id hid)
      natives := h.natives
      told := h.told }
  · refine (r.machine.frames.parent?_push (some parent) globals).trans ?_
    rw [if_neg hg, h.globals_parent]
  · rcases List.mem_cons.mp hm with he | hm
    · cases he
      exact ⟨hsize ▸ Nat.lt_succ_self _, Ne.symm hg⟩
    · obtain ⟨hlt, hne⟩ := h.opened_lt f o hm
      exact ⟨hsize ▸ Nat.lt_succ_of_lt hlt, hne⟩
  · show (r.machine.frames.size :: r.log.filterMap Event.opened?).Nodup
    refine List.nodup_cons.mpr ⟨fun hm => ?_, h.opened_once⟩
    obtain ⟨e, he, hf⟩ := List.mem_filterMap.mp hm
    cases e with
    | opened f o =>
      cases hf
      exact absurd (h.opened_lt _ _ he).1 (Nat.lt_irrefl _)
    | met p node m => cases hf
    | wrote c v => cases hf
    | did deed => cases hf
  · rcases List.mem_cons.mp hm with he | hm
    · cases he
    · exact hsize ▸ Nat.lt_succ_of_lt (h.wrote_lt c v hm)
  · rw [hvalue]
    show _ = lastWritten r.log ⟨f, o, x⟩
    rcases List.mem_cons.mp hm with he | hm
    · cases he
      -- nothing was written to the frame before it was there
      cases hl : lastWritten r.log ⟨r.machine.frames.size, opener, x⟩ with
      | none => exact r.machine.frames.value?_of_size_le (Nat.le_refl _) x
      | some v => exact absurd (h.wrote_lt _ _ (mem_of_lastWritten hl)) (Nat.lt_irrefl _)
    · exact h.holds f o hm x

/-- A new closure, whatever it is: no value refers to it yet. -/
theorem Lawful.addClosure (h : Lawful ds q r) (body : Place) (c : Closure) :
    Lawful ds q (r.addClosure body c) := by
  have hlater := Later.addClosure (r := r) body c
  exact
    { distances := h.distances
      globals_lt := h.globals_lt
      globals_parent := h.globals_parent
      opened_lt := h.opened_lt
      opened_once := h.opened_once
      wrote_lt := h.wrote_lt
      holds := h.holds
      values := fun f x v hv => (h.values f x v hv).mono (fun _ hx => hx) hlater
      fields := fun i x v hv => (h.fields i x v hv).mono (fun _ hx => hx) hlater
      methods := fun k x id hid => hlater.readyMethod (fun _ hx => hx) (h.methods k x id hid)
      natives := h.natives
      told := h.told }

/-- Objects that keep the closures, with fields that are sound and methods that are ready. -/
theorem Lawful.objects (h : Lawful ds q r) {o : Objects}
    (hc : o.closures = r.machine.objects.closures) (hn : o.natives = r.machine.objects.natives)
    (hf : ∀ i x v, o.field? i x = some v → v.Sound q r)
    (hm : ∀ k x id, o.ownMethod? k x = some id →
      ∃ c, r.machine.objects.closures[id]? = some c ∧ ReadyMethod q r (r.bodies id) c) :
    Lawful ds q (r.withObjects o) := by
  have hlater : Later r (r.withObjects o) := .of_eq rfl hc rfl rfl
  exact
    { distances := h.distances
      globals_lt := h.globals_lt
      globals_parent := h.globals_parent
      opened_lt := h.opened_lt
      opened_once := h.opened_once
      wrote_lt := h.wrote_lt
      holds := h.holds
      values := fun f x v hv => (h.values f x v hv).mono (fun _ hx => hx) hlater
      fields := fun i x v hv => (hf i x v hv).mono (fun _ hx => hx) hlater
      methods := fun k x id hid => hlater.readyMethod (fun _ hx => hx) (hm k x id hid)
      natives := fun n hmem => h.natives n (hn ▸ hmem)
      told := h.told }

/-- What the machine is beside its frames and objects does not matter, nor that more is known of the
distances, as long as the sites of the closures remain good. -/
theorem Lawful.learn (h : Lawful ds q r) {q' : Site → Prop} (hq : ∀ x, q x → q' x) {m : Machine}
    (hf : m.frames = r.machine.frames) (ho : m.objects = r.machine.objects) :
    Lawful m.distances q' { r with machine := m } := by
  have hlater : Later r { r with machine := m } := .of_eq hf (by rw [ho]) rfl rfl
  exact
    { distances := rfl
      globals_lt := hf ▸ h.globals_lt
      globals_parent := hf ▸ h.globals_parent
      opened_lt := hf ▸ h.opened_lt
      opened_once := h.opened_once
      wrote_lt := hf ▸ h.wrote_lt
      holds := hf ▸ h.holds
      values := fun f x v hv => (h.values f x v (hf ▸ hv)).mono hq hlater
      fields := fun i x v hv => (h.fields i x v (ho ▸ hv)).mono hq hlater
      methods := fun k x id hid => hlater.readyMethod hq (h.methods k x id (ho ▸ hid))
      natives := ho ▸ h.natives
      told := h.told }

/-- What the machine is beside its frames, objects and distances does not matter. -/
theorem Lawful.of_eq (h : Lawful ds q r) {m : Machine} (hf : m.frames = r.machine.frames)
    (ho : m.objects = r.machine.objects) (hd : m.distances = r.machine.distances) :
    Lawful ds q { r with machine := m } :=
  (hd.trans h.distances) ▸ h.learn (fun _ hx => hx) hf ho

/-- An event that opens no frame and writes to no cell. -/
def Event.IsNote : Event → Prop
  | .met .. | .did _ => True
  | .opened .. | .wrote .. => False

theorem Event.IsNote.lastWritten_cons {e : Event} (he : e.IsNote) (log : List Event) (c : Cell) :
    lastWritten (e :: log) c = lastWritten log c := by
  cases e with
  | met p node m => rfl
  | did deed => rfl
  | opened f o => cases he
  | wrote c v => cases he

/-- An event is noted that opens no frame and writes to no cell. -/
theorem Lawful.note (h : Lawful ds q r) {e : Event} (he : e.IsNote) (ht : Told (e :: r.log)) :
    Lawful ds q { r with log := e :: r.log } := by
  have hlater := Later.note (r := r) e
  have hopened : ∀ {f o}, Event.opened f o ∈ e :: r.log → .opened f o ∈ r.log := fun hm => by
    rcases List.mem_cons.mp hm with rfl | hm
    · cases he
    · exact hm
  refine
    { distances := h.distances
      globals_lt := h.globals_lt
      globals_parent := h.globals_parent
      opened_lt := fun f o hm => h.opened_lt f o (hopened hm)
      opened_once := ?_
      wrote_lt := fun c v hm => ?_
      holds := fun f o hm x => ?_
      values := fun f x v hv => (h.values f x v hv).mono (fun _ hx => hx) hlater
      fields := fun i x v hv => (h.fields i x v hv).mono (fun _ hx => hx) hlater
      methods := fun k x id hid => hlater.readyMethod (fun _ hx => hx) (h.methods k x id hid)
      natives := h.natives
      told := ht }
  · have hnone : e.opened? = none := by
      cases e with
      | opened f o => cases he
      | _ => rfl
    rw [List.filterMap_cons_none hnone]
    exact h.opened_once
  · rcases List.mem_cons.mp hm with rfl | hm
    · cases he
    · exact h.wrote_lt c v hm
  · rw [he.lastWritten_cons]
    exact h.holds f o (hopened hm) x

/-- A node that is met in a chain of frames that agrees with its place. -/
theorem Lawful.meet (h : Lawful ds q r) {p : Place} {node : Node}
    (hc : ChainAgrees r.log p r.machine) (hr : ReadAgrees r.log p node r.machine)
    (hw : WriteAgrees p node r.machine) : Lawful ds q (r.meet p node) :=
  h.note trivial ⟨hc, hr, hw, h.told⟩

/-- A deed says nothing of frames and cells. -/
theorem Lawful.did (h : Lawful ds q r) (deed : Deed) : Lawful ds q (r.did deed) :=
  h.note trivial h.told

end Lox
