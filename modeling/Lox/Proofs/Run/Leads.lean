/-
What recorded runs lead to.

Invariants of records are kept along recorded runs in one way, whatever they say.
`Leads rel r t post` says that `rel` relates the record `r` to the one to which the recorded
run `t` leads from it, however the run ends, and that `post` holds of the value that it
yields and of the record then.

* `Leads.of_step`, `Leads.bind`, `Leads.within`, `Leads.thenFlush` — how runs are put together;
* `Leads.still`, `Leads.quiet` — runs that change nothing, or nothing that programs can look at;
* `Run.callNative_quiet`, `Run.write_quiet`, `Run.flush_quiet` — natives and the output.

Design notes: the relation says all that is known of the later record, so that it is only asked to
be transitive.  That it relates a record to itself may depend on the record.
-/
import Lox.Proofs.Run.Lawful

namespace Lox

/-! ### Runs that hardly change the machine -/

/-- A run that leaves the machine as it is. -/
def Run.Still {α : Type} (run : Run α) : Prop :=
  ∀ m, (∃ a, run m = .ok a m) ∨ ∃ e, run m = .error e m

namespace Run.Still

variable {α β : Type} {run : Run α}

theorem pure (a : α) : Still (Pure.pure a) := fun _ => Or.inl ⟨a, rfl⟩

theorem halt (e : Halt) : Still (Run.halt e : Run α) := fun _ => Or.inr ⟨e, rfl⟩

theorem bind (h : run.Still) {next : α → Run β} (hn : ∀ a, (next a).Still) :
    (run >>= next).Still := by
  intro m
  rw [bind_apply]
  rcases h m with ⟨a, ha⟩ | ⟨e, he⟩
  · rw [ha]
    exact hn a m
  · rw [he]
    exact Or.inr ⟨e, rfl⟩

theorem ofExcept (x : Except Diagnostic α) : (Run.ofExcept x).Still := by
  cases x with
  | ok a => exact .pure a
  | error d => exact .halt _

theorem getAt (frame : FrameId) (d : Nat) (name : String) (line : Nat) :
    (Run.getAt frame d name line).Still := fun m =>
  ofExcept (m.frames.getAt frame d name line) m

theorem lookUp (id : NodeId) (name : Token) : (Run.lookUp id name).Still := fun m =>
  ofExcept _ m

theorem superReference (id : NodeId) (keyword : Token) : (Run.superReference id keyword).Still := by
  refine bind (fun m => ?_) fun d => bind (fun m => Or.inl ⟨m.active, rfl⟩) fun frame =>
    (getAt _ _ _ _).bind fun _ => (getAt _ _ _ _).bind fun _ => .pure _
  cases m.distances.find? id with
  | some d => exact Or.inl ⟨d, rfl⟩
  | none => exact Or.inr ⟨_, rfl⟩

theorem asSuperclass (name : Token) (v : Value) : (Run.asSuperclass name v).Still := by
  unfold Run.asSuperclass
  split
  · exact pure _
  · exact halt _

end Run.Still

/-- Two machines that differ in what is printed and in the readings of the clock. -/
structure Machine.Alike (m m' : Machine) : Prop where
  frames : m'.frames = m.frames
  objects : m'.objects = m.objects
  distances : m'.distances = m.distances
  active : m'.active = m.active

theorem Machine.Alike.refl (m : Machine) : m.Alike m := ⟨rfl, rfl, rfl, rfl⟩

namespace Run

/-- A run that only changes what is printed, and how often the clock was read. -/
def Quiet {α : Type} (run : Run α) : Prop :=
  ∀ m, (∃ a m', run m = .ok a m' ∧ m.Alike m') ∨ ∃ e m', run m = .error e m' ∧ m.Alike m'

theorem callNative_quiet (n : Native) (vs : List Value) : (callNative n vs).Quiet := by
  intro m
  unfold callNative
  cases n.run (m.clock m.readings) vs with
  | ok v => exact Or.inl ⟨v, _, rfl, ⟨rfl, rfl, rfl, rfl⟩⟩
  | error d => exact Or.inr ⟨_, _, rfl, ⟨rfl, rfl, rfl, rfl⟩⟩

theorem write_quiet (text : String) : (write text).Quiet := by
  intro m
  unfold write
  split
  · exact Or.inl ⟨(), m, rfl, .refl m⟩
  · split
    · exact Or.inr ⟨_, _, rfl, ⟨rfl, rfl, rfl, rfl⟩⟩
    · exact Or.inl ⟨(), _, rfl, ⟨rfl, rfl, rfl, rfl⟩⟩

theorem flush_quiet : flush.Quiet := by
  intro m
  unfold flush
  split
  · exact Or.inr ⟨_, _, rfl, ⟨rfl, rfl, rfl, rfl⟩⟩
  · exact Or.inl ⟨(), _, rfl, ⟨rfl, rfl, rfl, rfl⟩⟩

/-! ### What they yield -/

theorem eq_ok_of_ofExcept {α : Type} {x : Except Diagnostic α} {m m' : Machine} {a : α}
    (h : ofExcept x m = .ok a m') : x = .ok a := by
  cases x with
  | ok b =>
    cases h
    rfl
  | error d => cases h

theorem ne_callable_of_callNative {n : Native} (hn : n.Plain) {vs : List Value} {m m' : Machine}
    {v : Value} (h : callNative n vs m = .ok v m') (c : Callable) : v ≠ .callable c :=
  hn _ _ _ (eq_ok_of_ofExcept h) c

/-- What is read so many frames outwards is the value of a variable. -/
theorem exists_value_of_getAt {frame : FrameId} {d : Nat} {name : String} {line : Nat}
    {m m' : Machine} {v : Value} (h : getAt frame d name line m = .ok v m') :
    ∃ f, m.frames.value? f name = some v :=
  Frames.value?_of_getAt _ (eq_ok_of_ofExcept h)

/-- What a node that is looked up yields is the value of a variable. -/
theorem exists_value_of_lookUp {id : NodeId} {name : Token} {m m' : Machine} {v : Value}
    (h : lookUp id name m = .ok v m') : ∃ f, m.frames.value? f name.lexeme = some v := by
  have hfound := eq_ok_of_ofExcept h
  split at hfound
  · exact Frames.value?_of_getAt _ hfound
  · exact Frames.value?_of_get _ hfound

end Run

/-! ### The judgement -/

/-- However it ends, the run leads to a related record, and something holds of what it yields. -/
def Traced.Leads {α : Type} (rel : Record → Record → Prop) (r : Record) (t : Traced α)
    (post : α → Record → Prop) : Prop :=
  match t r with
  | .ok a r' => rel r r' ∧ post a r'
  | .error _ r' => rel r r'

namespace Traced

/-- The record behind a run, however it ends. -/
def after (t : Traced Unit) (r : Record) : Record :=
  match t r with
  | .ok _ r' => r'
  | .error _ r' => r'

namespace Leads

variable {α β : Type} {rel : Record → Record → Prop} {r : Record} {t : Traced α}
  {post post' : α → Record → Prop}

theorem of_ok {a : α} {r' : Record} (he : t r = .ok a r') (hr : rel r r') (hp : post a r') :
    Leads rel r t post := by
  unfold Leads
  rw [he]
  exact ⟨hr, hp⟩

theorem of_error {e : Halt} {r' : Record} (he : t r = .error e r') (hr : rel r r') :
    Leads rel r t post := by
  unfold Leads
  rw [he]
  exact hr

theorem pure (hr : rel r r) {a : α} (hp : post a r) : Leads rel r (Pure.pure a) post :=
  of_ok rfl hr hp

theorem ok (h : Leads rel r t post) {a : α} {r' : Record} (he : t r = .ok a r') :
    rel r r' ∧ post a r' := by
  unfold Leads at h
  rw [he] at h
  exact h

theorem error (h : Leads rel r t post) {halt : Halt} {r' : Record} (he : t r = .error halt r') :
    rel r r' := by
  unfold Leads at h
  rw [he] at h
  exact h

theorem after {t : Traced Unit} {post : Unit → Record → Prop} (h : Leads rel r t post) :
    rel r (t.after r) := by
  unfold Traced.after
  cases ht : t r with
  | ok u r' => exact (h.ok ht).1
  | error halt r' => exact h.error ht

theorem weaken (h : Leads rel r t post) (hp : ∀ a r', rel r r' → post a r' → post' a r') :
    Leads rel r t post' := by
  cases he : t r with
  | ok a r' => exact of_ok he (h.ok he).1 (hp a r' (h.ok he).1 (h.ok he).2)
  | error halt r' => exact of_error he (h.error he)

/-- A run that goes on behind another record, which is related to less. -/
theorem of_step {r₁ : Record} (hrel : ∀ r', rel r₁ r' → rel r r') {u : Traced α}
    (he : t r = u r₁) (h : Leads rel r₁ u post) : Leads rel r t post := by
  cases ht : u r₁ with
  | ok a r' => exact of_ok (he.trans ht) (hrel r' (h.ok ht).1) (h.ok ht).2
  | error halt r' => exact of_error (he.trans ht) (hrel r' (h.error ht))

/-- Two runs one after the other. -/
theorem bind (htrans : ∀ r r' r'', rel r r' → rel r' r'' → rel r r'') (h : Leads rel r t post)
    {next : α → Traced β} {postNext : β → Record → Prop}
    (hn : ∀ a r', t r = .ok a r' → rel r r' → post a r' → Leads rel r' (next a) postNext) :
    Leads rel r (t >>= next) postNext := by
  cases ht : t r with
  | ok a r₁ =>
    obtain ⟨hr, hp⟩ := h.ok ht
    refine of_step (fun r' => htrans r r₁ r' hr) ?_ (hn a r₁ ht hr hp)
    rw [bind_apply, ht]
  | error halt r₁ =>
    refine of_error (e := halt) ?_ (h.error ht)
    rw [bind_apply, ht]

/-- A run inside of a frame, and back again. -/
theorem within {frame : FrameId}
    (hrel : ∀ r', rel (r.inside frame) r' → rel r (r'.inside r.machine.active))
    (ht : Leads rel (r.inside frame) t post)
    (hp : ∀ a r', post a r' → post' a (r'.inside r.machine.active)) :
    Leads rel r (Traced.within frame t) post' := by
  unfold Leads Traced.within
  cases he : t (r.inside frame) with
  | ok a r' => exact ⟨hrel r' (ht.ok he).1, hp a r' (ht.ok he).2⟩
  | error halt r' => exact hrel r' (ht.error he)

/-- The output is flushed behind a run, however that ends. -/
theorem thenFlush (htrans : ∀ r r' r'', rel r r' → rel r' r'' → rel r r'') {t : Traced Unit}
    (ht : Leads rel r t fun _ _ => True)
    (hflush : ∀ r₁, rel r r₁ → Leads rel r₁ (lift Run.flush) fun _ _ => True) :
    Leads rel r (Traced.thenFlush t) fun _ _ => True := by
  cases he : t r with
  | ok u r₁ =>
    have hr := (ht.ok he).1
    refine of_step (fun r' => htrans r r₁ r' hr) (u := lift Run.flush) ?_ (hflush r₁ hr)
    unfold Traced.thenFlush
    rw [he]
  | error halt r₁ =>
    have hr := ht.error he
    -- the halt of the run is reported, unless the output halts as well
    cases hf : lift Run.flush r₁ with
    | ok u r₂ =>
      refine of_error (e := halt) ?_ (htrans r r₁ r₂ hr ((hflush r₁ hr).ok hf).1)
      simp only [Traced.thenFlush, he, hf]
    | error fault r₂ =>
      refine of_error (e := fault) ?_ (htrans r r₁ r₂ hr ((hflush r₁ hr).error hf))
      simp only [Traced.thenFlush, he, hf]

/-- A run that leaves the machine as it is. -/
theorem still {run : Run α} (hs : run.Still) (hr : rel r r)
    (hp : ∀ a, run r.machine = .ok a r.machine → post a r) : Leads rel r (lift run) post := by
  unfold Leads lift
  rcases hs r.machine with ⟨a, he⟩ | ⟨e, he⟩
  · rw [he]
    exact ⟨hr, hp a he⟩
  · rw [he]
    exact hr

/-- A run that only changes what is printed, and how often the clock was read. -/
theorem quiet {run : Run α} (hq : run.Quiet)
    (hr : ∀ m, r.machine.Alike m → rel r { r with machine := m })
    (hp : ∀ a m, run r.machine = .ok a m → post a { r with machine := m }) :
    Leads rel r (lift run) post := by
  unfold Leads lift
  rcases hq r.machine with ⟨a, m, he, ha⟩ | ⟨e, m, he, ha⟩
  · rw [he]
    exact ⟨hr m ha, hp a m he⟩
  · rw [he]
    exact hr m ha

end Leads

end Traced

end Lox
