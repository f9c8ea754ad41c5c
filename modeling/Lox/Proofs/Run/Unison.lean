/-
Runs in unison.

`Pair.Agrees c p run direct post` says that from a good pair the run of a tree and the direct run
end alike: both yield the same or halt for the same reason, and leave a good pair behind in which
the program is in the frames in which it was.

* `Agrees.bind`, `Agrees.within`, `Agrees.of_step` — how runs are put together;
* `Agrees.turn` — a turn of a loop, for which the tree alone opens a frame;
* `lookUp_agrees`, `store_agrees` — a variable is found in frames that belong together;
* `boundMethod_agrees`, `superMethod_agrees` — methods;
* `declareClass_agrees` — the declaration of a class.

Design notes: the number of a new frame differs on both sides, so that a step which yields one is
taken on both sides at once, together with what comes behind it.
-/
import Lox.Proofs.Run.Conformance
import Lox.Proofs.Run.Twins

namespace Lox

/-- A run goes on where the one before it has ended, unless that one halts. -/
theorem Direct.bind_apply {α β : Type} (run : DirectRun α) (next : α → DirectRun β) (d : Direct) :
    (run >>= next) d = match run d with
      | .ok a d => next a d
      | .error h d => .error h d := by
  simp only [bind, EStateM.bind]
  cases run d <;> rfl

theorem Direct.lift_bind {α β : Type} (run : Run α) (next : α → Run β) :
    Direct.lift (run >>= next) = Direct.lift run >>= fun a => Direct.lift (next a) := by
  funext d
  rw [Direct.bind_apply]
  unfold Direct.lift
  rw [Run.bind_apply]
  cases run d.machine <;> rfl

theorem Run.within_eq_ok {α : Type} {frame : FrameId} {run : Run α} {m m' : Machine} {a : α}
    (h : run { m with active := frame } = .ok a m') :
    Run.within frame run m = .ok a { m' with active := m.active } := by
  unfold Run.within
  simp only [h]

theorem Run.within_eq_error {α : Type} {frame : FrameId} {run : Run α} {m m' : Machine} {e : Halt}
    (h : run { m with active := frame } = .error e m') :
    Run.within frame run m = .error e { m' with active := m.active } := by
  unfold Run.within
  simp only [h]

theorem Direct.within_eq_ok {α : Type} {frame : FrameId} {run : DirectRun α} {d d' : Direct}
    {a : α} (h : run (d.inside frame) = .ok a d') :
    Direct.within frame run d = .ok a (d'.inside d.machine.active) := by
  unfold Direct.within
  rw [h]

theorem Direct.within_eq_error {α : Type} {frame : FrameId} {run : DirectRun α} {d d' : Direct}
    {e : Halt} (h : run (d.inside frame) = .error e d') :
    Direct.within frame run d = .error e (d'.inside d.machine.active) := by
  unfold Direct.within
  rw [h]

namespace Pair

/-- A value that is returned is the same on both sides. -/
def Returns (p : Pair) (c : Charts) (s : Signal) : Prop :=
  ∀ v, s = .returned v → p.Sound c v

/-- Two runs end alike, and leave a good pair behind. -/
inductive Agrees {α : Type} (c : Charts) (p : Pair) (run : Run α) (direct : DirectRun α)
    (post : α → Pair → Prop) : Prop where
  | ok (a : α) (q : Pair) (hr : run p.tree = .ok a q.tree) (hd : direct p.written = .ok a q.written)
    (hq : q.Good c) (hk : p.Grows q) (ha : post a q)
  | error (h : Halt) (q : Pair) (hr : run p.tree = .error h q.tree)
    (hd : direct p.written = .error h q.written) (hq : q.Good c) (hk : p.Grows q)

namespace Agrees

variable {α β : Type} {c : Charts} {p : Pair} {run : Run α} {direct : DirectRun α}
  {post : α → Pair → Prop}

theorem pure (hp : p.Good c) {a : α} (ha : post a p) :
    Agrees c p (Pure.pure a) (Pure.pure a) post :=
  .ok a p rfl rfl hp (.refl p) ha

theorem halt (hp : p.Good c) (h : Halt) :
    Agrees c p (Run.halt h) (Direct.lift (Run.halt h)) post :=
  .error h p rfl rfl hp (.refl p)

theorem bind {mid : α → Pair → Prop} {next : α → Run β} {next' : α → DirectRun β}
    {post : β → Pair → Prop} (h : Agrees c p run direct mid)
    (hn : ∀ a q, q.Good c → p.Grows q → mid a q → Agrees c q (next a) (next' a) post) :
    Agrees c p (run >>= next) (direct >>= next') post := by
  cases h with
  | ok a q hr hd hq hk ha =>
    have hr' : (run >>= next) p.tree = next a q.tree := by rw [Run.bind_apply, hr]
    have hd' : (direct >>= next') p.written = next' a q.written := by
      rw [Direct.bind_apply, hd]
    cases hn a q hq hk ha with
    | ok b r hr₂ hd₂ hq₂ hk₂ hb =>
      exact .ok b r (hr'.trans hr₂) (hd'.trans hd₂) hq₂ (hk.trans hk₂) hb
    | error e r hr₂ hd₂ hq₂ hk₂ =>
      exact .error e r (hr'.trans hr₂) (hd'.trans hd₂) hq₂ (hk.trans hk₂)
  | error e q hr hd hq hk =>
    exact .error e q (by rw [Run.bind_apply, hr]) (by rw [Direct.bind_apply, hd]) hq hk

/-- Runs that go on from another pair. -/
theorem of_step {q : Pair} {run' : Run α} {direct' : DirectRun α}
    (h : Agrees c q run' direct' post) (hr : run p.tree = run' q.tree)
    (hd : direct p.written = direct' q.written) (hk : p.Grows q) :
    Agrees c p run direct post := by
  cases h with
  | ok a r hr' hd' hq hk' ha => exact .ok a r (hr.trans hr') (hd.trans hd') hq (hk.trans hk') ha
  | error e r hr' hd' hq hk' => exact .error e r (hr.trans hr') (hd.trans hd') hq (hk.trans hk')

/-- The pair behind runs inside of other frames. -/
theorem grows_inside {q : Pair} {f f' : FrameId} (h : (p.inside f f').Grows q) :
    p.Grows (q.inside p.tree.active p.written.machine.active) where
  toKeeps := ((Keeps.inside p f f').trans h.toKeeps).trans (.inside q _ _)
  active := rfl
  active' := rfl

theorem within {f f' : FrameId} {run : Run Signal} {direct : DirectRun Signal}
    (h : Agrees c (p.inside f f') run direct fun s q => q.Returns c s) :
    Agrees c p (Run.within f run) (Direct.within f' direct) fun s q => q.Returns c s := by
  cases h with
  | ok s q hr hd hq hk hs =>
    exact .ok s (q.inside p.tree.active p.written.machine.active) (Run.within_eq_ok hr)
      (Direct.within_eq_ok hd) (hq.inside _ _) (grows_inside hk)
      fun v hv => (Keeps.inside q _ _).sound (hs v hv)
  | error e q hr hd hq hk =>
    exact .error e (q.inside p.tree.active p.written.machine.active) (Run.within_eq_error hr)
      (Direct.within_eq_error hd) (hq.inside _ _) (grows_inside hk)

/-- A turn of a loop with an increment: the frame of the tree has no counterpart. -/
theorem turn {run : Run Signal} {direct : DirectRun Signal}
    (h : Agrees c p.turn run direct fun s q => q.Returns c s) :
    Agrees c p (do let frame ← Run.newFrame (← Run.activeFrame); Run.within frame run) direct
      fun s q => q.Returns c s := by
  have hrun : (do let frame ← Run.newFrame (← Run.activeFrame); Run.within frame run) p.tree =
      Run.within p.tree.frames.size run
        { p.tree with frames := p.tree.frames.push (some p.tree.active) } := rfl
  -- the tree comes back to its frame, and the direct run has never left it
  have hback : ∀ q, p.turn.Grows q → p.Grows (q.inside p.tree.active q.written.machine.active) :=
    fun q hk =>
      { toKeeps := ((Keeps.turn p).trans hk.toKeeps).trans (.inside q _ _)
        active := rfl
        active' := hk.active' }
  cases h with
  | ok s q hr hd hq hk hs =>
    exact .ok s (q.inside p.tree.active q.written.machine.active)
      (hrun.trans (Run.within_eq_ok hr)) hd (hq.inside _ _) (hback q hk)
      fun v hv => (Keeps.inside q _ _).sound (hs v hv)
  | error e q hr hd hq hk =>
    exact .error e (q.inside p.tree.active q.written.machine.active)
      (hrun.trans (Run.within_eq_error hr)) hd (hq.inside _ _) (hback q hk)

/-! ### Steps -/

theorem plain {run : Run Value} (hp : p.Good c) (h : run.Plain) :
    Agrees c p run (Direct.lift run) fun v q => q.Sound c v := by
  rcases h with ⟨v, rfl, hv⟩ | ⟨e, rfl⟩
  · exact .ok v p rfl rfl hp (.refl p) (.of_ne fun id => hv _)
  · exact .halt hp e

/-- Reading something off the machine, which may fail. -/
theorem read {f f' : Machine → Except Diagnostic α} (hp : p.Good c)
    (hf : f' p.written.machine = f p.tree) (hpost : ∀ a, f p.tree = .ok a → post a p) :
    Agrees c p (fun m => Run.ofExcept (f m) m)
      (Direct.lift fun m => Run.ofExcept (f' m) m) post := by
  cases hv : f p.tree with
  | ok a =>
    refine .ok a p ?_ ?_ hp (.refl p) (hpost a hv)
    · show Run.ofExcept (f p.tree) p.tree = _
      rw [hv]
      rfl
    · unfold Direct.lift
      simp only [hf, hv]
      rfl
  | error d =>
    refine .error (.raised d) p ?_ ?_ hp (.refl p)
    · show Run.ofExcept (f p.tree) p.tree = _
      rw [hv]
      rfl
    · unfold Direct.lift
      simp only [hf, hv]
      rfl

/-- Reading something off the objects. -/
theorem ofObjects {f : Objects → α} {next : α → Run β} {next' : α → DirectRun β}
    {post : β → Pair → Prop} (hf : f p.written.machine.objects = f p.tree.objects)
    (hn : Agrees c p (next (f p.tree.objects)) (next' (f p.tree.objects)) post) :
    Agrees c p (Run.ofObjects f >>= next) (Direct.lift (Run.ofObjects f) >>= next') post := by
  refine hn.of_step rfl ?_ (.refl p)
  rw [← hf]
  rfl

theorem activeFrame {next : FrameId → Run β} {next' : FrameId → DirectRun β}
    {post : β → Pair → Prop}
    (hn : Agrees c p (next p.tree.active) (next' p.written.machine.active) post) :
    Agrees c p (Run.activeFrame >>= next) (Direct.lift Run.activeFrame >>= next') post :=
  hn.of_step rfl rfl (.refl p)

theorem newFrame {g g' : FrameId} {next : FrameId → Run β} {next' : FrameId → DirectRun β}
    {post : β → Pair → Prop}
    (hn : Agrees c (p.push g g') (next p.tree.frames.size) (next' p.written.machine.frames.size)
      post) :
    Agrees c p (Run.newFrame g >>= next) (Direct.lift (Run.newFrame g') >>= next') post :=
  hn.of_step rfl rfl (.push p g g')

theorem define (hp : p.Good c) {f f' : FrameId} (ht : p.twins f f') {x : String} {v : Value}
    {next : Unit → Run β} {next' : Unit → DirectRun β} {post : β → Pair → Prop}
    (hn : Agrees c (p.define f f' x v) (next ()) (next' ()) post) :
    Agrees c p (Run.define f x v >>= next) (Direct.lift (Run.define f' x v) >>= next') post :=
  hn.of_step rfl rfl (.define hp ht x v)

theorem newClosure (hp : p.Good c) (k k' : Closure) (f : WrittenFunction) {next : Nat → Run β}
    {next' : Nat → DirectRun β} {post : β → Pair → Prop}
    (hn : Agrees c (p.addClosure k k' f) (next p.tree.objects.closures.size)
      (next' p.tree.objects.closures.size) post) :
    Agrees c p (Run.newClosure k >>= next) (Direct.newClosure k' f >>= next') post := by
  refine hn.of_step rfl ?_ (.addClosure p k k' f)
  rw [← hp.machines.closures]
  rfl

end Agrees

/-! ### Variables -/

variable {c : Charts} {p : Pair} {σ : List Layer}

/-- The binding of an occurrence is a global on both sides, or it is in frames
that belong together. -/
theorem Good.binding (hp : p.Good c) (hσ : p.At σ) {o : Occurrence} (ho : c.Places ⟨o, σ⟩)
    (hk : o.kind ≠ .super_) :
    (p.tree.distances.find? o.id = none ∧ p.written.machine.distances.find? o.id = none) ∨
    ∃ g g' d d', p.tree.distances.find? o.id = some d ∧
      p.written.machine.distances.find? o.id = some d' ∧
      p.tree.frames.ancestor? p.tree.active d = some g ∧
      p.written.machine.frames.ancestor? p.written.machine.active d' = some g' ∧
      p.twins g g' := by
  have hrel := ho.placed.shifts
  unfold Occurrence.layer at hrel
  rw [if_neg hk] at hrel
  replace hrel : Option.Rel (Shifts .shared σ) (c.tree.find? o.id) (c.written.find? o.id) := hrel
  rw [hp.charted.tree, hp.charted.written]
  cases hd : c.tree.find? o.id with
  | none =>
    cases hd' : c.written.find? o.id with
    | none => exact Or.inl ⟨rfl, rfl⟩
    | some d' => exact nomatch hd ▸ hd' ▸ hrel
  | some d =>
    cases hd' : c.written.find? o.id with
    | none => exact nomatch hd ▸ hd' ▸ hrel
    | some d' =>
      rw [hd, hd'] at hrel
      cases hrel with
      | some hs =>
        obtain ⟨g, g', hg, hg', ht⟩ := hσ.ancestor? (by decide) hs
        exact Or.inr ⟨g, g', d, d', rfl, rfl, hg, hg', ht⟩

/-- A variable is found in frames that belong together. -/
theorem lookUp_agrees (hp : p.Good c) (hσ : p.At σ) {o : Occurrence} (ho : c.Places ⟨o, σ⟩)
    (hk : o.kind ≠ .super_) :
    Agrees c p (Run.lookUp o.id o.token) (Direct.lift (Run.lookUp o.id o.token))
      fun v q => q.Sound c v := by
  obtain ⟨hnone, hnone'⟩ | ⟨g, g', d, d', hd, hd', hg, hg', ht⟩ := hp.binding hσ ho hk
  · refine .read hp ?_ fun v hv => ?_
    · rw [hnone, hnone']
      exact hp.get_eq _ _
    · rw [hnone] at hv
      obtain ⟨f, hf⟩ := Frames.value?_of_get _ hv
      exact hp.values f _ v hf
  · refine .read hp ?_ fun v hv => ?_
    · rw [hd, hd']
      exact hp.getAt_eq hg hg' ht _ _
    · rw [hd] at hv
      obtain ⟨f, hf⟩ := Frames.value?_of_getAt _ hv
      exact hp.values f _ v hf

/-- An assignment writes to frames that belong together. -/
theorem store_agrees (hp : p.Good c) (hσ : p.At σ) {o : Occurrence} (ho : c.Places ⟨o, σ⟩)
    (hk : o.kind ≠ .super_) {v : Value} (hv : p.Sound c v) :
    Agrees c p (Run.store o.id o.token v) (Direct.lift (Run.store o.id o.token v))
      fun _ _ => True := by
  obtain ⟨hnone, hnone'⟩ | ⟨g, g', d, d', hd, hd', hg, hg', ht⟩ := hp.binding hσ ho hk
  · cases hh : p.tree.frames.holder? globals o.token.lexeme with
    | none =>
      refine .error (.raised (Frames.undefined o.token.lexeme o.token.line)) p ?_ ?_ hp (.refl p)
      · unfold Run.store
        simp only [hnone, hh, Run.assignIn]
      · unfold Direct.lift Run.store
        simp only [hnone', hp.holder?_eq, hh, Run.assignIn]
    | some f =>
      obtain rfl : f = globals := by
        unfold Frames.holder? at hh
        rw [Frames.outwards_of_none _ hp.frames.top] at hh
        simpa using List.mem_of_find?_eq_some hh
      refine .ok () (p.define globals globals o.token.lexeme v) ?_ ?_
        (hp.define hp.frames.globals _ hv) (.define hp hp.frames.globals _ v) trivial
      · unfold Run.store
        simp only [hnone, hh, Run.assignIn]
        rfl
      · unfold Direct.lift Run.store
        simp only [hnone', hp.holder?_eq, hh, Run.assignIn]
        rfl
  · refine .ok () (p.define g g' o.token.lexeme v) ?_ ?_ (hp.define ht _ hv) (.define hp ht _ v)
      trivial
    · unfold Run.store
      simp only [hd, hg, Run.assignIn]
      rfl
    · unfold Direct.lift Run.store
      simp only [hd', hg', Run.assignIn]
      rfl

/-- The superclass and the receiver that `super` stands for are the same. -/
theorem superReference_agrees (hp : p.Good c) (hσ : p.At σ) {id : NodeId} {keyword : Token}
    (ho : c.Places ⟨⟨id, .super_, keyword⟩, σ⟩) :
    Agrees c p (Run.superReference id keyword) (Direct.lift (Run.superReference id keyword))
      fun _ _ => True := by
  rw [funext (Run.superReference_apply id keyword)]
  refine .read hp ?_ fun _ _ => trivial
  have hshifts := ho.placed.shifts
  rw [hp.charted.tree, hp.charted.written]
  cases hd : c.tree.find? id with
  | none =>
    cases hd' : c.written.find? id with
    | none => rfl
    | some d' => exact nomatch hd ▸ hd' ▸ hshifts
  | some d =>
    cases hd' : c.written.find? id with
    | none => exact nomatch hd ▸ hd' ▸ hshifts
    | some d' =>
      have hs : Shifts .ancestor σ d d' := by
        cases hd ▸ hd' ▸ hshifts with
        | some hs => exact hs
      obtain ⟨e, e', rfl, rfl, hthis⟩ := hs.receiver ho.placed.seated
      obtain ⟨g, g', hg, hg', ht⟩ := hσ.ancestor? (by decide) hs
      obtain ⟨i, i', hi, hi', hu⟩ := hσ.ancestor? (by decide) hthis
      simp only [Nat.add_sub_cancel, hp.getAt_eq hg hg' ht, hp.getAt_eq hi hi' hu]

/-! ### Natives, output and instances -/

/-- Both machines change alike in what was printed and read off the clock. -/
theorem Good.aside (hp : p.Good c) {m m' : Machine} (hm : p.tree.Beside m)
    (hm' : p.written.machine.Beside m') (ho : m.objects = p.tree.objects) (hs : Machines m m') :
    (p.withMachines m m').Good c :=
  hp.withMachines hm hm' hs (ho ▸ hp.fields) (ho ▸ hp.methods)

theorem callNative_agrees (hp : p.Good c) {n : Native} (hn : n.Plain) (vs : List Value) :
    Agrees c p (Run.callNative n vs) (Direct.lift (Run.callNative n vs))
      fun v q => q.Sound c v := by
  have hm : p.tree.Beside { p.tree with readings := p.tree.readings + 1 } :=
    ⟨rfl, rfl, rfl, rfl, rfl⟩
  have hm' : p.written.machine.Beside
      { p.written.machine with readings := p.written.machine.readings + 1 } :=
    ⟨rfl, rfl, rfl, rfl, rfl⟩
  have hgood := hp.aside hm hm' rfl
    { hp.machines with readings := congrArg (· + 1) hp.machines.readings }
  have htime : p.written.machine.clock p.written.machine.readings =
      p.tree.clock p.tree.readings := by
    rw [hp.machines.clock, hp.machines.readings]
  cases he : n.run (p.tree.clock p.tree.readings) vs with
  | ok v =>
    refine .ok v _ ?_ ?_ hgood (.withMachines hm hm') (.of_ne fun id => hn _ _ _ he _)
    · unfold Run.callNative
      rw [he]
      rfl
    · unfold Direct.lift Run.callNative
      simp only [htime, he]
      rfl
  | error d =>
    refine .error (.raised d) _ ?_ ?_ hgood (.withMachines hm hm')
    · unfold Run.callNative
      rw [he]
      rfl
    · unfold Direct.lift Run.callNative
      simp only [htime, he]
      rfl

/-- Both outputs get a text, or neither does. -/
theorem Good.print (hp : p.Good c) (part : String) :
    (p.withMachines { p.tree with printed := part :: p.tree.printed, sink := p.tree.sink.next }
      { p.written.machine with
        printed := part :: p.written.machine.printed,
        sink := p.written.machine.sink.next }).Good c :=
  hp.aside ⟨rfl, rfl, rfl, rfl, rfl⟩ ⟨rfl, rfl, rfl, rfl, rfl⟩ rfl
    { hp.machines with
      printed := congrArg (part :: ·) hp.machines.printed
      sink := congrArg Sink.next hp.machines.sink }

theorem write_agrees (hp : p.Good c) (text : String) :
    Agrees c p (Run.write text) (Direct.lift (Run.write text)) fun _ _ => True := by
  have hgrows : ∀ part, p.Grows
      (p.withMachines { p.tree with printed := part :: p.tree.printed, sink := p.tree.sink.next }
        { p.written.machine with
          printed := part :: p.written.machine.printed, sink := p.written.machine.sink.next }) :=
    fun part => .withMachines ⟨rfl, rfl, rfl, rfl, rfl⟩ ⟨rfl, rfl, rfl, rfl, rfl⟩
  by_cases ht : text.isEmpty = true
  · refine .ok () p ?_ ?_ hp (.refl p) trivial
    · unfold Run.write
      rw [if_pos ht]
    · unfold Direct.lift Run.write
      simp only [if_pos ht]
  · cases hcut : p.tree.sink.answer.cut? text with
    | some cut =>
      refine .error (.raised (.output cut.fault)) _ ?_ ?_ (hp.print cut.part) (hgrows cut.part)
      · unfold Run.write
        rw [if_neg ht, hcut]
        rfl
      · unfold Direct.lift Run.write
        simp only [if_neg ht, congrArg Sink.answer hp.machines.sink, hcut]
        rfl
    | none =>
      refine .ok () _ ?_ ?_ (hp.print text) (hgrows text) trivial
      · unfold Run.write
        rw [if_neg ht, hcut]
        rfl
      · unfold Direct.lift Run.write
        simp only [if_neg ht, congrArg Sink.answer hp.machines.sink, hcut]
        rfl

theorem flush_agrees (hp : p.Good c) :
    Agrees c p Run.flush (Direct.lift Run.flush) fun _ _ => True := by
  have hm : p.tree.Beside { p.tree with sink := p.tree.sink.next } := ⟨rfl, rfl, rfl, rfl, rfl⟩
  have hm' : p.written.machine.Beside
      { p.written.machine with sink := p.written.machine.sink.next } := ⟨rfl, rfl, rfl, rfl, rfl⟩
  have hgood := hp.aside hm hm' rfl
    { hp.machines with sink := congrArg Sink.next hp.machines.sink }
  cases hf : p.tree.sink.answer.flushFault? with
  | some fault =>
    refine .error (.raised (.output fault)) _ ?_ ?_ hgood (.withMachines hm hm')
    · unfold Run.flush
      rw [hf]
      rfl
    · unfold Direct.lift Run.flush
      simp only [congrArg Sink.answer hp.machines.sink, hf]
      rfl
  | none =>
    refine .ok () _ ?_ ?_ hgood (.withMachines hm hm') trivial
    · unfold Run.flush
      rw [hf]
      rfl
    · unfold Direct.lift Run.flush
      simp only [congrArg Sink.answer hp.machines.sink, hf]
      rfl

/-- An instance that is new on both sides. -/
theorem newInstance_agrees {β : Type} {post : β → Pair → Prop} (hp : p.Good c) (k : Nat)
    {next : Nat → Run β} {next' : Nat → DirectRun β}
    (hn : ∀ q, q.Good c → p.Grows q →
      Agrees c q (next p.tree.objects.instances.size) (next' p.tree.objects.instances.size) post) :
    Agrees c p (Run.newInstance k >>= next) (Direct.lift (Run.newInstance k) >>= next') post := by
  have hm : p.tree.Beside { p.tree with objects := p.tree.objects.addInstance k } :=
    ⟨rfl, rfl, rfl, rfl, rfl⟩
  have hm' : p.written.machine.Beside { p.written.machine with
      objects := p.written.machine.objects.addInstance k } := ⟨rfl, rfl, rfl, rfl, rfl⟩
  have hgood := hp.withMachines hm hm'
    { hp.machines with
      instances := congrArg (fun os => os.push (⟨k, []⟩ : Instance)) hp.machines.instances }
    (fun i x v hv => hp.fields i x v (Objects.field?_addInstance hv)) hp.methods
  refine (hn _ hgood (.withMachines hm hm')).of_step rfl ?_ (.withMachines hm hm')
  rw [← hp.machines.instances]
  rfl

theorem setField_agrees (hp : p.Good c) (i : Nat) (x : String) {v : Value} (hv : p.Sound c v) :
    Agrees c p (Run.setField i x v) (Direct.lift (Run.setField i x v)) fun _ _ => True := by
  have hm : p.tree.Beside { p.tree with objects := p.tree.objects.setField i x v } :=
    ⟨rfl, rfl, rfl, rfl, rfl⟩
  have hm' : p.written.machine.Beside { p.written.machine with
      objects := p.written.machine.objects.setField i x v } := ⟨rfl, rfl, rfl, rfl, rfl⟩
  have hgood := hp.withMachines hm hm'
    { hp.machines with
      instances := congrArg (fun os => os.modify i fun (o : Instance) =>
        { o with fields := o.fields.insert x v }) hp.machines.instances }
    (fun j y u hu => by
      rcases Objects.field?_setField_cases hu with rfl | hu
      · exact hv
      · exact hp.fields j y u hu) hp.methods
  exact .ok () _ rfl rfl hgood (.withMachines hm hm') trivial

theorem newClass_agrees (hp : p.Good c) {k : ClassObject}
    (hk : ∀ x id, k.methods.find? x = some id → p.Holds c 1 id) :
    Agrees c p (Run.newClass k) (Direct.lift (Run.newClass k)) fun _ _ => True := by
  have hm : p.tree.Beside { p.tree with objects := p.tree.objects.addClass k } :=
    ⟨rfl, rfl, rfl, rfl, rfl⟩
  have hm' : p.written.machine.Beside { p.written.machine with
      objects := p.written.machine.objects.addClass k } := ⟨rfl, rfl, rfl, rfl, rfl⟩
  have hgood := hp.withMachines hm hm'
    { hp.machines with classes := congrArg (Array.push · k) hp.machines.classes } hp.fields
    (fun n x id hid => by
      unfold Objects.ownMethod? Objects.addClass at hid
      simp only [Array.getElem?_push] at hid
      split at hid
      · exact hk x id hid
      · exact hp.methods n x id hid)
  refine .ok p.tree.objects.classes.size _ rfl ?_ hgood (.withMachines hm hm') trivial
  rw [← hp.machines.classes]
  rfl

theorem asSuperclass_agrees (hp : p.Good c) (name : Token) (v : Value) :
    Agrees c p (Run.asSuperclass name v) (Direct.lift (Run.asSuperclass name v))
      fun _ _ => True := by
  unfold Run.asSuperclass
  split
  · exact .ok _ p rfl rfl hp (.refl p) trivial
  · exact .halt hp _

/-! ### Methods -/

/-- A method that is bound has a frame with `this` around its body. -/
theorem bindMethod_agrees {β : Type} {post : β → Pair → Prop} (hp : p.Good c) {k k' : Closure}
    {f : WrittenFunction} (hf : p.Fits c 1 k k' f) (object : Nat) {next : Closure → Run β}
    {next' : Closure → DirectRun β}
    (hn : ∀ q k k', q.Good c → p.Grows q → q.Fits c 0 k k' f →
      Agrees c q (next k) (next' k') post) :
    Agrees c p (Run.bindMethod k object >>= next)
      (Direct.lift (Run.bindMethod k' object) >>= next') post := by
  have hpush := hp.push k.captured k'.captured
  have ht : (p.push k.captured k'.captured).twins p.tree.frames.size
      p.written.machine.frames.size := Or.inr ⟨rfl, rfl⟩
  have hv : (p.push k.captured k'.captured).Sound c (.object object) := .of_ne nofun
  have hgood := hpush.define ht "this" hv
  have hgrows := (Grows.push p k.captured k'.captured).trans
    (.define hpush ht "this" (.object object))
  obtain ⟨σ, hσ, hloci⟩ := hf.captured
  have hσ' := hgrows.chained hσ
  refine (hn _ { k with captured := p.tree.frames.size }
    { k' with captured := p.written.machine.frames.size } hgood hgrows
    { declaration := hf.declaration
      declaration' := hf.declaration'
      isInitializer := hf.isInitializer
      formed := hf.formed
      captured := ⟨.shared :: σ, .both (by decide) ht ?_ ?_ hσ', hloci⟩
      receiver := fun _ _ => ht }).of_step rfl rfl hgrows
  · exact p.tree.frames.parent?_define_push ..
  · exact p.written.machine.frames.parent?_define_push ..

/-- A method is looked up on both sides. -/
theorem method_agrees {β : Type} {post : β → Pair → Prop} (hp : p.Good c) (klass : Option Nat)
    (name : String) {next : Option Closure → Run β}
    {next' : Option (Closure × WrittenFunction) → DirectRun β}
    (hnone : Agrees c p (next none) (next' none) post)
    (hsome : ∀ k k' f, p.Fits c 1 k k' f → Agrees c p (next (some k)) (next' (some (k', f))) post) :
    Agrees c p (Run.ofObjects (fun o => klass.bind fun k => o.methodClosure? k name) >>= next)
      (Direct.method? klass name >>= next') post := by
  have hrun :
      (Run.ofObjects (fun o => klass.bind fun k => o.methodClosure? k name) >>= next) p.tree =
        next (klass.bind fun k => p.tree.objects.methodClosure? k name) p.tree := rfl
  have hdirect : (Direct.method? klass name >>= next') p.written =
      next' (p.written.methodClosure? klass name) p.written := rfl
  rcases hp.methodClosure? klass name with ⟨hk, hk'⟩ | ⟨k, k', f, hk, hk', hf⟩
  · rw [hk] at hrun
    rw [hk'] at hdirect
    exact hnone.of_step hrun hdirect (.refl p)
  · rw [hk] at hrun
    rw [hk'] at hdirect
    exact (hsome k k' f hf).of_step hrun hdirect (.refl p)

theorem boundMethod_agrees (hp : p.Good c) (klass : Option Nat) (object : Nat) (name : Token) :
    Agrees c p (Run.boundMethod klass object name) (Direct.boundMethod klass object name)
      fun v q => q.Sound c v := by
  refine method_agrees hp klass name.lexeme (.halt hp _) fun k k' f hf => ?_
  refine bindMethod_agrees hp hf object fun q k k' hq _ hfits => ?_
  refine .newClosure hq k k' f (.pure (hq.addClosure k k' f) fun id hid => ?_)
  cases hid
  exact hq.holds_addClosure hfits

theorem property_agrees (hp : p.Good c) (object : Nat) (name : Token) :
    Agrees c p (Run.property object name) (Direct.property object name)
      fun v q => q.Sound c v := by
  refine .ofObjects (hp.field?_eq object name.lexeme) ?_
  cases hv : p.tree.objects.field? object name.lexeme with
  | some v => exact .pure hp (hp.fields object _ v hv)
  | none => exact .ofObjects (hp.classOf?_eq object) (boundMethod_agrees hp _ object name)

theorem superMethod_agrees (hp : p.Good c) (hσ : p.At σ) {id : NodeId} {keyword method : Token}
    (ho : c.Places ⟨⟨id, .super_, keyword⟩, σ⟩) :
    Agrees c p (Run.superMethod id keyword method) (Direct.superMethod id keyword method)
      fun v q => q.Sound c v := by
  refine (superReference_agrees hp hσ ho).bind fun ⟨superclass, receiver⟩ q hq _ _ => ?_
  cases superclass with
  | callable k =>
    cases k with
    | klass k =>
      cases receiver with
      | object i => exact boundMethod_agrees hq _ i method
      | _ => exact .halt hq _
    | _ => exact .halt hq _
  | _ => exact .halt hq _

/-! ### Declarations -/

/-- Parameters get their values. -/
theorem defineAll_agrees (hp : p.Good c) {f f' : FrameId} (ht : p.twins f f')
    {xs : List (Token × Value)} (hx : ∀ x ∈ xs, p.Sound c x.2) :
    Agrees c p (Run.defineAll f xs) (Direct.lift (Run.defineAll f' xs)) fun _ _ => True := by
  induction xs generalizing p with
  | nil => exact .ok () p rfl rfl hp (.refl p) trivial
  | cons x xs ih =>
    obtain ⟨name, v⟩ := x
    have hv := hx (name, v) (List.mem_cons_self ..)
    unfold Run.defineAll
    rw [Direct.lift_bind]
    refine .define hp ht (ih (hp.define ht name.lexeme hv) ht fun y hy => ?_)
    exact (Grows.define hp ht name.lexeme v).sound (hx y (List.mem_cons_of_mem _ hy))

/-- The value of a function declaration. -/
theorem functionValue_agrees (hp : p.Good c) (hσ : p.At σ) {f : WrittenFunction} (hf : f.Formed)
    (hm : ∀ m ∈ f.loci σ, c.Places m) :
    Agrees c p (Run.functionValue f.tree) (Direct.functionValue f) fun v q => q.Sound c v := by
  have hfits : p.Fits c 0 ⟨f.tree, p.tree.active, false⟩
      ⟨f.tree, p.written.machine.active, false⟩ f :=
    ⟨rfl, rfl, rfl, hf, ⟨σ, hσ, hm⟩, nofun⟩
  refine .activeFrame (.newClosure hp _ _ f (.pure (hp.addClosure _ _ f) fun id hid => ?_))
  cases hid
  exact hp.holds_addClosure hfits

/-- The layers around the frame that methods capture. -/
def capturedLayers (σ : List Layer) : (superclass : Option Expr) → List Layer
  | none => σ
  | some _ => .ancestor :: σ

theorem methodLayers_eq (σ : List Layer) (superclass : Option Expr) :
    methodLayers σ superclass = .shared :: capturedLayers σ superclass := by
  cases superclass <;> rfl

/-- The methods of a class. -/
theorem methodTable_agrees (hp : p.Good c) {f f' : FrameId} (hc : p.Chained σ f f')
    {fs : List WrittenFunction} (hf : WrittenFunction.AllFormed fs)
    (hm : ∀ m ∈ WrittenFunction.lociIn (.shared :: σ) fs, c.Places m) {table : NameTable Nat}
    (ht : ∀ x id, table.find? x = some id → p.Holds c 1 id) :
    Agrees c p (Run.methodTable f (WrittenFunction.trees fs) table)
      (Direct.methodTable f' fs table)
      fun table q => ∀ x id, table.find? x = some id → q.Holds c 1 id := by
  induction fs generalizing p table with
  | nil => exact .pure hp ht
  | cons g gs ih =>
    unfold WrittenFunction.AllFormed at hf
    unfold WrittenFunction.lociIn at hm
    have hfits : p.Fits c 1 ⟨g.tree, f, g.tree.isInitializer⟩
        ⟨g.tree, f', g.tree.isInitializer⟩ g :=
      ⟨rfl, rfl, rfl, hf.1, ⟨σ, hc, fun m h => hm m (List.mem_append_left _ h)⟩, nofun⟩
    have hgrows := Grows.addClosure p ⟨g.tree, f, g.tree.isInitializer⟩
      ⟨g.tree, f', g.tree.isInitializer⟩ g
    refine .newClosure hp _ _ g ?_
    rw [g.name_tree]
    refine ih (hp.addClosure _ _ g) (hgrows.chained hc) hf.2
      (fun m h => hm m (List.mem_append_right _ h)) fun x id hid => ?_
    rw [NameTable.find?_insert] at hid
    split at hid
    · cases hid
      exact hp.holds_addClosure hfits
    · exact hgrows.holds (ht x id hid)

/-- The frame that the methods of a class capture. -/
theorem methodFrame_agrees {β : Type} {post : β → Pair → Prop} (hp : p.Good c) {f f' : FrameId}
    (hc : p.Chained σ f f') {superclass : Option Expr} {k : Option Nat}
    (hk : k.isSome = superclass.isSome) {next : FrameId → Run β} {next' : FrameId → DirectRun β}
    (hn : ∀ q g g', q.Good c → p.Grows q → q.Chained (capturedLayers σ superclass) g g' →
      Agrees c q (next g) (next' g') post) :
    Agrees c p (Run.methodFrame f k >>= next) (Direct.lift (Run.methodFrame f' k) >>= next')
      post := by
  cases superclass with
  | none =>
    cases k with
    | none => exact (hn p f f' hp (.refl p) hc).of_step rfl rfl (.refl p)
    | some k => cases hk
  | some superclass =>
    cases k with
    | none => cases hk
    | some k =>
      have hpush := hp.push f f'
      have ht : (p.push f f').twins p.tree.frames.size p.written.machine.frames.size :=
        Or.inr ⟨rfl, rfl⟩
      have hv : (p.push f f').Sound c (.callable (.klass k)) := .of_ne nofun
      have hgrows := (Grows.push p f f').trans (.define hpush ht "super" (.callable (.klass k)))
      refine (hn _ _ _ (hpush.define ht "super" hv) hgrows
        (.both (by decide) ht ?_ ?_ (hgrows.chained hc))).of_step rfl rfl hgrows
      · exact p.tree.frames.parent?_define_push ..
      · exact p.written.machine.frames.parent?_define_push ..

/-- The name of a class gets its value in the frame in which it was declared. -/
theorem assign_agrees (hp : p.Good c) (ht : p.twins p.tree.active p.written.machine.active)
    {name : Token} (hd : p.tree.frames.defines p.tree.active name.lexeme = true) {v : Value}
    (hv : p.Sound c v) :
    Agrees c p (Run.assign name v) (Direct.lift (Run.assign name v)) fun _ _ => True := by
  have hd' : p.written.machine.frames.defines p.written.machine.active name.lexeme = true := by
    unfold Frames.defines at hd ⊢
    rw [hp.frames.value _ ht]
    exact hd
  refine .ok () (p.define p.tree.active p.written.machine.active name.lexeme v) ?_ ?_
    (hp.define ht _ hv) (.define hp ht _ v) trivial
  · unfold Run.assign
    rw [Frames.holder?_self _ hd]
    rfl
  · unfold Direct.lift Run.assign
    simp only [Frames.holder?_self _ hd']
    rfl

/-- The declaration of a class. -/
theorem declareClass_agrees (hp : p.Good c) (hσ : p.At σ) (hσ' : σ.head? ≠ some .extra)
    (name : Token) {superclass : Option Expr} {k : Option Nat}
    (hk : k.isSome = superclass.isSome) {methods : List WrittenFunction}
    (hf : WrittenFunction.AllFormed methods)
    (hm : ∀ m ∈ WrittenFunction.lociIn (methodLayers σ superclass) methods, c.Places m) :
    Agrees c p (Run.declareClass name k (WrittenFunction.trees methods))
      (Direct.declareClass name k methods) fun _ _ => True := by
  have ht := hσ.twins hp hσ'
  have hnil : p.Sound c .nil := .of_ne nofun
  have hgrows := Grows.define hp ht name.lexeme .nil
  have hdef := Frames.defines_define_self p.tree.frames (hp.frames.lt_size ht).1 name.lexeme .nil
  refine .activeFrame (.define hp ht ?_)
  refine methodFrame_agrees (hp.define ht name.lexeme hnil) (hgrows.chained hσ) hk
    fun q g g' hq hkq hc => ?_
  rw [methodLayers_eq] at hm
  refine (methodTable_agrees hq hc hf hm (by simp)).bind fun table r hr hkr htable => ?_
  refine (newClass_agrees hr htable).bind fun klass u hu hku _ => ?_
  have hall := hkq.trans (hkr.trans hku)
  refine assign_agrees hu ?_ ?_ (.of_ne nofun)
  · rw [hall.active, hall.active']
    exact hall.twins (hgrows.twins ht)
  · rw [hall.active]
    exact hall.defines hdef

end Pair

end Lox
