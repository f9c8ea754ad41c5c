/-
Chains of running programs.

Whatever programs a session runs, and whatever is forced in it, the links from every frame lead
to the frame of the globals, and the links from every class end.  So no search of the
evaluation goes on forever.

* `Machine.Ends` — all frames in use exist, all chains end, and so do all searches;
* `Stage.Founded` — a founded machine, and a job that refers to what exists;
* `Stage.Founded.calls`, `Stage.Founded.behind` — stages that are called, and what a stage leaves;
* `Run.Passes.keeps_behind` — what is made at a stage stays behind the
  program that it is a stage of;
* `Stage.Shows`, `Forced.Saw` — the machines of a stage, and all machines that a session has seen;
* `Stage.Holds`, `Forced.Pends` — the frames that pending calls hold;
* `chains_end` — all of this in every session.
-/
import Lox.Proofs.Run.Founded
import Lox.Proofs.Run.Joining
import Lox.Proofs.Run.Stages
import Lox.Proofs.Store.Chains

namespace Lox

/-! ### Machines -/

/-- A variable or a field has the value. -/
def Machine.Stores (m : Machine) (v : Value) : Prop :=
  (∃ f x, m.frames.value? f x = some v) ∨ ∃ i x, m.objects.field? i x = some v

/-- The value is a function, or a method bound to an instance, that captured the frame. -/
def Value.Captured (m : Machine) (v : Value) (f : FrameId) : Prop :=
  ∃ id c, v = .callable (.closure id) ∧ m.objects.closures[id]? = some c ∧ c.captured = f

/-- All frames and classes that occur exist, all chains end, and all searches along them. -/
structure Machine.Ends (m : Machine) : Prop where
  active : m.active < m.frames.size
  captured : ∀ c ∈ m.objects.closures, c.captured < m.frames.size
  functions : ∀ id, m.Stores (.callable (.closure id)) →
    ∃ f < m.frames.size, (Value.callable (.closure id)).Captured m f
  stored : ∀ k, m.Stores (.callable (.klass k)) → k < m.objects.classes.size
  classes : ∀ i k, m.objects.classOf? i = some k → k < m.objects.classes.size
  supers : ∀ k j, m.objects.superclass? k = some j → j < m.objects.classes.size
  /-- the links from a frame lead to the globals, and no further -/
  frames : ∀ f < m.frames.size, ∃ n, m.frames.Links f n globals ∧
    ∀ d, (∃ g, m.frames.ancestor? f d = some g) ↔ d ≤ n
  root : ∀ f < m.frames.size, m.frames.parent? f = none ↔ f = globals
  /-- so many classes are above a class, and no more -/
  lineages : ∀ k, ∃ n, ∀ d,
    (follow? m.objects.superclass? k d).isSome = true ↔ d ≤ n
  get : ∀ f x line, ∃ n found,
    (∀ steps ≥ n, search m.frames.parent? (m.frames.value? · x) steps f = some found) ∧
      m.frames.get f x line = match found with
        | some v => .ok v
        | none => .error (Frames.undefined x line)
  assign : ∀ f x, ∃ n, ∀ steps ≥ n,
    search m.frames.parent?
        (fun g => if m.frames.defines g x = true then some g else none) steps f =
      some (m.frames.holder? f x)
  method : ∀ k x, ∃ n, ∀ steps ≥ n,
    search m.objects.superclass? (m.objects.ownMethod? · x) steps k = some (m.objects.method? k x)

namespace Machine.Founded

variable {m : Machine} (h : m.Founded)

include h

theorem present_of_stores {v : Value} (hv : m.Stores v) : v.Present m := by
  rcases hv with ⟨f, x, hv⟩ | ⟨i, x, hv⟩
  · exact h.values f x v hv
  · exact h.fields i x v hv

theorem ends : m.Ends where
  active := h.active
  captured := h.captured
  functions id hid := by
    have hlt : id < m.objects.closures.size := h.present_of_stores hid (.closure id) rfl
    exact ⟨_, h.captured _ (Array.getElem_mem hlt), id, _, rfl, Array.getElem?_eq_getElem hlt, rfl⟩
  stored k hk := h.present_of_stores hk (.klass k) rfl
  classes := h.instances
  supers k j hj := by
    obtain ⟨c, hc, -⟩ := Option.bind_eq_some_iff.mp hj
    exact Nat.lt_trans (h.above k j hj) (Array.getElem?_eq_some_iff.mp hc).1
  frames f hf := by
    obtain ⟨n, -, hn⟩ := Frames.exists_links_root h.descending h.others hf
    refine ⟨n, hn, fun d => ⟨fun ⟨g, hg⟩ => ?_, fun hd => ?_⟩⟩
    · exact Frames.le_of_links h.root hn (Frames.links_iff.mpr hg)
    · obtain ⟨g, hg⟩ := Frames.exists_links_of_le hn hd
      exact ⟨g, Frames.links_iff.mp hg⟩
  root f hf := by
    refine ⟨fun hnone => ?_, fun he => he ▸ h.root⟩
    rcases h.others f hf with he | ⟨p, hp⟩
    · exact he
    · cases hnone.symm.trans hp
  lineages k := by
    obtain ⟨n, -, hn⟩ := exists_last_link h.above k
    exact ⟨n, hn⟩
  get f x line :=
    ⟨f + 1, _, fun _ hsteps => search_eq _ h.descending (Nat.lt_of_succ_le hsteps), rfl⟩
  assign f x := ⟨f + 1, fun steps hsteps => by
    rw [search_eq _ h.descending (Nat.lt_of_succ_le hsteps), Frames.holder?_eq_findSome?]⟩
  method k x := ⟨k + 1, fun _ hsteps => search_eq _ h.above (Nat.lt_of_succ_le hsteps)⟩

end Machine.Founded

theorem Run.Upholds.behind {α : Type} {m : Machine} {run : Run α} {post : α → Machine → Prop}
    (h : Upholds m run post) : m.Advances (run.behind m) ∧ (run.behind m).Founded := by
  unfold Run.behind
  cases he : run m with
  | ok a m' => exact ⟨(h.ok he).1, (h.ok he).2.1⟩
  | error e m' => exact h.error he

/-! ### Stages -/

/-- What the job refers to exists. -/
def Job.Present (m : Machine) : Job → Prop
  | .invoke c vs => (Value.callable c).Present m ∧ ∀ v ∈ vs, v.Present m
  | .invokeClosure c vs => c.captured < m.frames.size ∧ ∀ v ∈ vs, v.Present m
  | _ => True

/-- The machine of the stage is founded, and what its job refers to exists. -/
structure Stage.Founded (s : Stage) : Prop where
  machine : s.machine.Founded
  job : s.job.Present s.machine

theorem Job.present_of_not_isCall {j : Job} (h : ¬ j.IsCall) (m : Machine) : j.Present m := by
  cases j with
  | invoke c vs => exact absurd trivial h
  | invokeClosure c vs => exact absurd trivial h
  | _ => trivial

namespace Stage.Founded

variable {s s' : Stage}

/-- A stage that goes on behind the evaluation of an expression. -/
theorem of_evaluate {n : Nat} {e : Expr} {v : Value} {m m₁ : Machine} {j : Job} (hm : m.Founded)
    (h : Run.evaluate n e m = .ok v m₁) (hj : ¬ j.IsCall) :
    m.Advances m₁ ∧ Founded ⟨n, j, m₁⟩ := by
  obtain ⟨ha, hm₁, -⟩ := ((Run.allUphold n).evaluate e m hm).ok h
  exact ⟨ha, hm₁, Job.present_of_not_isCall hj _⟩

/-- Stages that are called are founded as well, on machines on which all is kept. -/
theorem calls (h : s.Founded) (hc : s.Calls s') : s.machine.Advances s'.machine ∧ s'.Founded := by
  obtain ⟨hm, hj⟩ := h
  -- what has run in between, from the caller to the called stage, has kept all that was there
  cases hc with
  | first hfirst =>
    exact ⟨.refl _, hm, Job.present_of_not_isCall (Job.not_isCall_of_first hfirst) _⟩
  | right hleft => exact of_evaluate hm hleft not_false
  | undecided hleft hd => exact of_evaluate hm hleft not_false
  | arguments hcallee => exact of_evaluate hm hcallee not_false
  | @call n callee paren es c vs m m₁ m₂ hcallee hes harity =>
    obtain ⟨ha₁, hm₁, hcalled⟩ := ((Run.allUphold n).evaluate callee m hm).ok hcallee
    obtain ⟨ha₂, hm₂, hvs⟩ := ((Run.allUphold n).evaluateAll es m₁ hm₁).ok hes
    exact ⟨ha₁.trans ha₂, hm₂, ha₂.present hcalled, hvs⟩
  | value hobject => exact of_evaluate hm hobject not_false
  | others he => exact of_evaluate hm he not_false
  | closure hclosure =>
    exact ⟨.refl _, hm, hm.captured _ (Array.mem_of_getElem? hclosure), hj.2⟩
  | @initializer n k c vs m hinit =>
    have hk : k < m.objects.classes.size := hj.1 (.klass k) rfl
    obtain ⟨ha₁, hm₁, hi⟩ := (Run.Upholds.newInstance hm hk).ok rfl
    obtain ⟨ha₂, hm₂, hc⟩ :=
      (Run.Upholds.bindMethod hm₁ (hm₁.captured_of_method hinit) hi).ok rfl
    exact ⟨ha₁.trans ha₂, hm₂, hc, (ha₁.trans ha₂).presentAll hj.2⟩
  | @body n c vs m =>
    obtain ⟨ha₁, hm₁, hframe⟩ := (Run.Upholds.newFrame hm hj.1).ok rfl
    have hentries : ∀ e ∈ c.declaration.params.zip vs, e.2.Present _ :=
      fun e he => ha₁.present (hj.2 e.2 (List.of_mem_zip he).2)
    obtain ⟨ha₂, hm₂, -⟩ := (Run.Upholds.defineAll hm₁ m.frames.size hentries).ok
      (Run.defineAll_apply ..)
    exact ⟨(ha₁.trans ha₂).trans (.turn _ _), hm₂.turn (ha₂.there (.frame _) hframe), trivial⟩
  | @block n body m =>
    obtain ⟨ha, hm₁, hframe⟩ := (Run.Upholds.newFrame hm hm.active).ok rfl
    exact ⟨ha.trans (.turn _ _), hm₁.turn hframe, trivial⟩
  | thenBranch hcondition hv => exact of_evaluate hm hcondition not_false
  | elseBranch hcondition hv => exact of_evaluate hm hcondition not_false
  | @rest n s ss m m₁ hs =>
    obtain ⟨ha, hm₁, -⟩ := ((Run.allUphold n).execute s m hm).ok hs
    exact ⟨ha, hm₁, trivial⟩
  | turn hcondition hv => exact of_evaluate hm hcondition not_false
  | @again n condition body v m m₁ m₂ hcondition hv hbody =>
    obtain ⟨ha₁, hm₁, -⟩ := ((Run.allUphold n).evaluate condition m hm).ok hcondition
    obtain ⟨ha₂, hm₂, -⟩ := ((Run.allUphold n).execute body m₁ hm₁).ok hbody
    exact ⟨ha₁.trans ha₂, hm₂, trivial⟩

/-- What a stage leaves is founded, and all is kept on it. -/
theorem behind (h : s.Founded) : s.machine.Advances s.behind ∧ s.behind.Founded := by
  obtain ⟨n, j, m⟩ := s
  obtain ⟨hm, hj⟩ := h
  have hall := Run.allUphold n
  cases j with
  | evaluate e => exact (hall.evaluate e m hm).behind
  | evaluateAll es => exact (hall.evaluateAll es m hm).behind
  | invoke c vs => exact (hall.invoke c vs m hm hj.1 hj.2).behind
  | invokeClosure c vs => exact (hall.invokeClosure c vs m hm hj.1 hj.2).behind
  | execute s => exact (hall.execute s m hm).behind
  | executeAll ss => exact (hall.executeAll ss m hm).behind
  | repeatWhile condition body => exact (hall.repeatWhile condition body m hm).behind

end Stage.Founded

/-! ### Links that stay -/

/-- All links of frames stay as they are. -/
def Machine.KeepsLinks (m m' : Machine) : Prop :=
  ∀ f p, m.frames.parent? f = some p → m'.frames.parent? f = some p

namespace Machine.KeepsLinks

variable {m m' m'' : Machine}

theorem refl (m : Machine) : m.KeepsLinks m := fun _ _ h => h

theorem trans (h : m.KeepsLinks m') (h' : m'.KeepsLinks m'') : m.KeepsLinks m'' :=
  fun f p hp => h' f p (h f p hp)

theorem of_eq (he : m'' = m') (h : m.KeepsLinks m') : m.KeepsLinks m'' :=
  he ▸ h

end Machine.KeepsLinks

namespace Run

variable {α β : Type} {run : Run α} {next : α → Run β} {m : Machine}

theorem Grows.keeps (h : run.Grows) (m : Machine) : m.KeepsLinks (run.behind m) := by
  unfold behind
  cases he : run m with
  | ok a m' =>
    intro f p hp
    exact (h.ok he).parent f p hp
  | error e m' =>
    intro f p hp
    exact (h.error he).parent f p hp

/-- What goes on behind a run keeps what that leaves. -/
theorem keeps_bind (hn : ∀ a, (next a).Grows) :
    (run.behind m).KeepsLinks ((run >>= next).behind m) := by
  have hbind := bind_apply run next m
  unfold behind
  rw [hbind]
  cases run m with
  | ok a m' => exact (hn a).keeps m'
  | error e m' => exact .refl m'

theorem behind_congr {run' : Run α} {m' : Machine} (h : run m = run' m') :
    run.behind m = run'.behind m' := by
  unfold behind
  rw [h]

theorem behind_bind {a : α} {m' : Machine} (h : run m = .ok a m') :
    (run >>= next).behind m = (next a).behind m' :=
  behind_congr (bind_of_ok h next)

/-- What goes on behind a run inside of another frame keeps what that leaves. -/
theorem keeps_within (frame : FrameId) :
    (run.behind { m with active := frame }).KeepsLinks ((within frame run).behind m) := by
  unfold behind within
  cases run { m with active := frame } with
  | ok a m' =>
    intro f p hp
    exact hp
  | error e m' =>
    intro f p hp
    exact hp

variable {n : Nat}

theorem evaluate_keeps_first {e e' : Expr} (h : e.first? = some e') :
    ((evaluate n e').behind m).KeepsLinks ((evaluate (n + 1) e).behind m) := by
  have hall := allGrow n
  -- what runs behind the part that is evaluated first only grows the machine
  rw [evaluate.eq_def _ e]
  cases e with
  | literal l => cases h
  | var id name => cases h
  | thisRef id keyword => cases h
  | superRef id keyword method => cases h
  | grouping inner =>
    cases h
    exact .refl _
  | unary operator right =>
    cases h
    exact keeps_bind fun v => .applyUnary operator v
  | binary left operator right =>
    cases h
    exact keeps_bind fun a => (hall.evaluate right).bind fun b => .applyBinary operator a b
  | logical left operator right =>
    cases h
    refine keeps_bind fun a => ?_
    split
    · exact .pure a
    · exact hall.evaluate right
  | assign id name value =>
    cases h
    exact keeps_bind fun v => (Grows.store id name v).bind fun _ => .pure v
  | call callee paren arguments =>
    cases h
    refine keeps_bind fun f => (hall.evaluateAll arguments).bind fun vs => ?_
    split
    · refine (Grows.ofObjects _).bind fun arity => ?_
      split
      · exact hall.invoke ..
      · exact .raise ..
    · exact .raise ..
  | get object name =>
    cases h
    refine keeps_bind fun v => ?_
    split
    · exact .property ..
    · exact .raise ..
  | set object name value =>
    cases h
    refine keeps_bind fun v => ?_
    split
    · exact (hall.evaluate value).bind fun v => (Grows.setField ..).bind fun _ => .pure v
    · exact .raise ..

theorem execute_keeps_first {s : Stmt} {j : Job} (h : s.first? = some j) :
    ((j.run n).behind m).KeepsLinks ((execute (n + 1) s).behind m) := by
  have hall := allGrow n
  rw [execute.eq_def]
  cases s with
  | block body => cases h
  | function f => cases h
  | loop condition body =>
    cases h
    exact .refl _
  | expression e =>
    cases h
    exact keeps_bind fun _ => .pure _
  | print e =>
    cases h
    exact keeps_bind fun v =>
      (Grows.ofObjects _).bind fun text => (Grows.write _).bind fun _ => .pure _
  | branch condition thenBranch elseBranch =>
    cases h
    refine keeps_bind fun v => ?_
    split
    · exact hall.execute thenBranch
    · split
      · exact hall.execute _
      · exact .pure _
  | varDecl name initializer =>
    cases initializer with
    | none => cases h
    | some e =>
      cases h
      exact keeps_bind fun v =>
        Grows.activeFrame.bind fun _ => (Grows.define ..).bind fun _ => .pure _
  | ret keyword value =>
    cases value with
    | none => cases h
    | some e =>
      cases h
      exact keeps_bind fun v => .pure _
  | classDecl name superclass methods =>
    cases superclass with
    | none => cases h
    | some e =>
      cases h
      exact keeps_bind fun v => (Grows.asSuperclass name v).bind fun k =>
        (Grows.declareClass ..).bind fun _ => .pure _

theorem keeps_first {j j' : Job} (h : j.first? = some j') :
    ((j'.run n).behind m).KeepsLinks ((j.run (n + 1)).behind m) := by
  have hall := allGrow n
  cases j with
  | evaluate e =>
    obtain ⟨e', he, rfl⟩ := Option.map_eq_some_iff.mp h
    exact evaluate_keeps_first he
  | evaluateAll es =>
    cases es with
    | nil => cases h
    | cons e es =>
      cases h
      exact keeps_bind fun v => (hall.evaluateAll es).bind fun vs => .pure _
  | invoke c vs => cases h
  | invokeClosure c vs => cases h
  | execute s => exact execute_keeps_first h
  | executeAll ss =>
    cases ss with
    | nil => cases h
    | cons s ss =>
      cases h
      refine keeps_bind fun signal => ?_
      cases signal with
      | normal => exact hall.executeAll ss
      | returned v => exact .pure _
  | repeatWhile condition body =>
    cases h
    refine keeps_bind fun v => ?_
    split
    · refine (hall.execute body).bind fun signal => ?_
      cases signal with
      | normal => exact hall.repeatWhile condition body
      | returned v => exact .pure _
    · exact .pure _

/-- What is left of a call keeps what its body leaves. -/
theorem keeps_body {c : Closure} {vs : List Value} :
    ((executeAll n c.declaration.body).behind (m.enter c vs)).KeepsLinks
      ((invokeClosure (n + 1) c vs).behind m) := by
  unfold behind
  rw [invokeClosure_apply]
  cases executeAll n c.declaration.body (m.enter c vs) with
  | error e m' =>
    intro f p hp
    exact hp
  | ok signal m' =>
    have hfinish : (finish c signal).Grows := by
      unfold finish
      split
      · exact .getAt ..
      · exact .pure _
    exact hfinish.keeps { m' with active := m.active }

end Run

/-- Behind a stage all links are as a stage that it has called has left them. -/
theorem Stage.Calls.keeps_behind {s s' : Stage} (h : s.Calls s') :
    s'.behind.KeepsLinks s.behind := by
  have hall := Run.allGrow s'.fuel
  -- behind the called stage the caller goes on with runs that only grow the machine
  cases h with
  | first hfirst => exact Run.keeps_first hfirst
  | @right n left right operator a m m₁ hleft =>
    refine .of_eq (Run.behind_bind hleft) ?_
    exact Run.keeps_bind fun b => .applyBinary operator a b
  | @undecided n left right operator a m m₁ hleft hd =>
    refine .of_eq ((Run.behind_bind hleft).trans ?_) (.refl _)
    rw [if_neg (Bool.eq_false_iff.mp hd)]
    rfl
  | @arguments n callee paren es f m m₁ hcallee =>
    refine .of_eq (Run.behind_bind hcallee) (Run.keeps_bind fun vs => ?_)
    split
    · refine (Run.Grows.ofObjects _).bind fun arity => ?_
      split
      · exact hall.invoke ..
      · exact .raise ..
    · exact .raise ..
  | @call n callee paren es c vs m m₁ m₂ hcallee hes harity =>
    have hcall : Run.evaluate (n + 1) (.call callee paren es) m = Run.invoke n c vs m₂ := by
      rw [Run.evaluate_call hcallee hes, if_pos harity]
    exact .of_eq (Run.behind_congr hcall) (.refl _)
  | @value n object value name i m m₁ hobject =>
    refine .of_eq (Run.behind_bind hobject) ?_
    exact Run.keeps_bind fun v => (Run.Grows.setField ..).bind fun _ => .pure v
  | @others n e es v m m₁ he =>
    refine .of_eq (Run.behind_bind he) ?_
    exact Run.keeps_bind fun vs => .pure (v :: vs)
  | @closure n id c vs m hclosure =>
    have hcall : Run.invoke (n + 1) (.closure id) vs m = Run.invokeClosure n c vs m := by
      simp only [Run.invoke, Run.bind_apply, Run.ofObjects, hclosure, Run.ofOption, Run.pure_apply]
    exact .of_eq (Run.behind_congr hcall) (.refl _)
  | @initializer n k c vs m hinit =>
    refine .of_eq (Run.behind_congr (Run.invoke_klass_of_some hinit)) ?_
    exact Run.keeps_bind fun _ => .pure _
  | @body n c vs m => exact Run.keeps_body
  | @block n body m =>
    have hwithin : ((Run.executeAll n body).behind m.open).KeepsLinks
        ((Run.within m.frames.size (Run.executeAll n body)).behind
          { m with frames := m.frames.push (some m.active) }) :=
      Run.keeps_within (m := { m with frames := m.frames.push (some m.active) }) m.frames.size
    exact .of_eq (Run.behind_congr Run.execute_block) hwithin
  | @thenBranch n condition thenBranch elseBranch v m m₁ hcondition hv =>
    refine .of_eq ((Run.behind_bind hcondition).trans ?_) (.refl _)
    rw [if_pos hv]
    rfl
  | @elseBranch n condition thenBranch elseBranch v m m₁ hcondition hv =>
    refine .of_eq ((Run.behind_bind hcondition).trans ?_) (.refl _)
    rw [if_neg (Bool.eq_false_iff.mp hv)]
    rfl
  | @rest n s ss m m₁ hs => exact .of_eq (Run.behind_bind hs) (.refl _)
  | @turn n condition body v m m₁ hcondition hv =>
    refine .of_eq (Run.behind_bind hcondition) ?_
    rw [if_pos hv]
    refine Run.keeps_bind fun signal => ?_
    cases signal with
    | normal => exact hall.repeatWhile condition body
    | returned v => exact .pure _
  | @again n condition body v m m₁ m₂ hcondition hv hbody =>
    refine .of_eq ((Run.behind_bind hcondition).trans ?_) (.refl _)
    rw [if_pos hv]
    exact Run.behind_bind hbody

/-! ### Programs -/

namespace Run

variable {fuel : Nat} {ss : List Stmt} {m : Machine} {s : Stage}

theorem keeps_flush (m : Machine) : m.KeepsLinks (flush.behind m) := by
  unfold behind
  rcases flush_quiet m with ⟨a, m', he, ha⟩ | ⟨e, m', he, ha⟩
  · rw [he]
    intro f p hp
    rwa [ha.frames]
  · rw [he]
    intro f p hp
    rwa [ha.frames]

/-- However a run ends, its output is flushed on the machine that it leaves. -/
theorem behind_thenFlush {run : Run Unit} :
    (thenFlush run).behind m = flush.behind (run.behind m) := by
  unfold behind thenFlush
  cases run m with
  | ok u m' => rfl
  | error e m' =>
    simp only
    cases flush m' with
    | ok u m'' => rfl
    | error e' m'' => rfl

/-- The links that a stage leaves stay as they are up to the end of the program. -/
theorem Passes.keeps_behind (h : Passes fuel ss m s) :
    s.behind.KeepsLinks ((thenFlush (runAll fuel ss)).behind m) := by
  induction h with
  | @statement before after s m' hs hm =>
    subst hs
    have hrest : (runAll fuel (before ++ s :: after)).behind m =
        (runAll fuel (s :: after)).behind m' :=
      behind_congr (by rw [runAll_append, hm])
    rw [behind_thenFlush, hrest]
    exact (keeps_bind fun _ => runAll_grows fuel after).trans (keeps_flush _)
  | called h hc ih => exact hc.keeps_behind.trans ih

/-- The stages of a program are founded if the machine is. -/
theorem Passes.founded (hm : m.Founded) (h : Passes fuel ss m s) : s.Founded := by
  induction h with
  | statement hs hrun => exact ⟨((runAll_upholds fuel _ hm).ok hrun).2.1, trivial⟩
  | called h hc ih => exact (ih.calls hc).2

end Run

/-! ### Sessions -/

/-- The machines of a stage: that which is given the job, that which the stage leaves, and those on
which a new instance or a new class has been made. -/
inductive Stage.Shows (s : Stage) : Machine → Prop where
  | entry : Shows s s.machine
  | behind : Shows s s.behind
  | object {n k : Nat} {vs : List Value} {m : Machine} (h : s = ⟨n + 1, .invoke (.klass k) vs, m⟩) :
    Shows s (m.instantiate k)
  | klass {n k : Nat} {name : Token} {methods : List FunDecl} {m m' : Machine}
      (h : s = ⟨n + 1, .execute (.classDecl name none methods), m⟩)
      (hm : Run.makeClass name none methods m = .ok k m') : Shows s m'
  | subclass {n k k' : Nat} {name : Token} {e : Expr} {methods : List FunDecl} {v : Value}
      {m m₁ m₂ m' : Machine} (h : s = ⟨n + 1, .execute (.classDecl name (some e) methods), m⟩)
      (he : Run.evaluate n e m = .ok v m₁) (hv : Run.asSuperclass name v m₁ = .ok k m₂)
      (hm : Run.makeClass name (some k) methods m₂ = .ok k' m') : Shows s m'

theorem Run.keeps_declareClass {name : Token} {superclass : Option Nat} {methods : List FunDecl}
    {k : Nat} {m m' : Machine} (h : makeClass name superclass methods m = .ok k m') :
    m'.KeepsLinks
      ((declareClass name superclass methods >>= fun _ => pure Signal.normal).behind m) := by
  have hrest : (assign name (.callable (.klass k)) >>= fun _ => pure Signal.normal).Grows :=
    (Grows.assign ..).bind fun _ => .pure _
  rw [declareClass_eq, bind_assoc]
  exact .of_eq (behind_bind h) (hrest.keeps m')

namespace Stage.Shows

variable {s : Stage} {seen : Machine}

/-- The machines of a stage are founded, and all that there was is kept on them. -/
theorem founded (h : s.Shows seen) (hs : s.Founded) : s.machine.Advances seen ∧ seen.Founded := by
  cases h with
  | entry => exact ⟨.refl _, hs.machine⟩
  | behind => exact hs.behind
  | @object n k vs m h =>
    subst h
    obtain ⟨ha, hm, -⟩ := (Run.Upholds.newInstance hs.machine (hs.job.1 (.klass k) rfl)).ok rfl
    exact ⟨ha, hm⟩
  | @klass n k name methods m m' h hrun =>
    subst h
    obtain ⟨ha, hm, -⟩ :=
      (Run.Upholds.makeClass hs.machine name (fun k hk => by cases hk) methods).ok hrun
    exact ⟨ha, hm⟩
  | @subclass n k k' name e methods v m m₁ m₂ m' h he hv hrun =>
    subst h
    obtain ⟨ha₁, hm₁, hpresent⟩ := ((Run.allUphold n).evaluate e m hs.machine).ok he
    obtain ⟨ha₂, hm₂, hk⟩ := (Run.Upholds.asSuperclass hm₁ name hpresent).ok hv
    obtain ⟨ha₃, hm₃, -⟩ :=
      (Run.Upholds.makeClass hm₂ name (fun k' hk' => by cases hk'; exact hk) methods).ok hrun
    exact ⟨(ha₁.trans ha₂).trans ha₃, hm₃⟩

/-- The links of the machines of a stage are still there behind it. -/
theorem keepsLinks (h : s.Shows seen) (hs : s.Founded) : seen.KeepsLinks s.behind := by
  cases h with
  | entry => exact hs.behind.1.parents
  | behind => exact .refl _
  | @object n k vs m h =>
    subst h
    exact hs.behind.1.parents
  | @klass n k name methods m m' h hrun =>
    subst h
    exact Run.keeps_declareClass hrun
  | @subclass n k k' name e methods v m m₁ m₂ m' h he hv hrun =>
    subst h
    refine .of_eq ((Run.behind_bind he).trans (Run.behind_bind hv)) ?_
    exact Run.keeps_declareClass hrun

end Stage.Shows

theorem Machine.Founded.learn {m : Machine} (h : m.Founded) (distances : Distances) :
    (m.learn distances).Founded :=
  h.of_eq rfl rfl rfl

namespace Forced

variable {start m seen : Machine} {ps : List Program} {s : Stage}

theorem founded (hstart : start.Founded) (h : Forced start ps m) : m.Founded := by
  induction h with
  | start => exact hstart
  | run h fuel p ih => exact (Run.interpret_upholds fuel p.statements p.distances ih).behind.2
  | alter h distances ih => exact ih.of_eq rfl rfl rfl
  | clear h ih => exact ih.of_eq rfl rfl rfl

/-- The stages of a session are founded. -/
theorem Passes.founded (hstart : start.Founded) (h : Passes start ps s) : s.Founded := by
  cases h with
  | mk h hs => exact hs.founded ((h.founded hstart).learn _)

end Forced

/-- What a session has seen up to a machine: the machines that it has led to, and those of all
stages of its programs. -/
inductive Forced.Saw (start : Machine) : List Program → Machine → Machine → Prop where
  | now {ps : List Program} {m : Machine} (h : Forced start ps m) : Saw start ps m m
  | stage {ps : List Program} {m : Machine} {fuel : Nat} {p : Program} {s : Stage} {seen : Machine}
      (h : Forced start ps m) (hs : Run.Passes fuel p.statements (m.learn p.distances) s)
      (hseen : s.Shows seen) :
    Saw start (p :: ps) ((Run.interpret fuel p.statements p.distances).behind m) seen
  | run {ps : List Program} {m seen : Machine} (h : Saw start ps m seen) (fuel : Nat)
      (p : Program) :
    Saw start (p :: ps) ((Run.interpret fuel p.statements p.distances).behind m) seen
  | alter {ps : List Program} {m seen : Machine} (h : Saw start ps m seen) (distances : Distances) :
    Saw start ps { m with distances := distances } seen
  | clear {ps : List Program} {m seen : Machine} (h : Saw start ps m seen) :
    Saw start ps m.clearOutput seen

namespace Forced.Saw

variable {start m seen : Machine} {ps : List Program}

theorem forced (h : Saw start ps m seen) : Forced start ps m := by
  induction h with
  | now h => exact h
  | stage h hs hseen => exact h.run _ _
  | run h fuel p ih => exact ih.run fuel p
  | alter h distances ih => exact ih.alter distances
  | clear h ih => exact ih.clear

/-- All machines that a session sees are founded, and their links stay up to its end. -/
theorem founded (hstart : start.Founded) (h : Saw start ps m seen) :
    seen.Founded ∧ seen.KeepsLinks m := by
  induction h with
  | now h => exact ⟨h.founded hstart, .refl _⟩
  | stage h hs hseen =>
    have hfounded := hs.founded ((h.founded hstart).learn _)
    exact ⟨(hseen.founded hfounded).2, (hseen.keepsLinks hfounded).trans hs.keeps_behind⟩
  | run h fuel p ih =>
    have hrun :=
      (Run.interpret_upholds fuel p.statements p.distances (h.forced.founded hstart)).behind
    exact ⟨ih.1, ih.2.trans hrun.1.parents⟩
  | alter h distances ih => exact ih
  | clear h ih => exact ih

end Forced.Saw

/-- Frames that there were are there, with the links that they had. -/
theorem Machine.KeepsLinks.parent? {m m' : Machine} (h : m.KeepsLinks m') (hm : m.Founded)
    (hm' : m'.Founded) {f : FrameId} (hf : f < m.frames.size) :
    f < m'.frames.size ∧ m'.frames.parent? f = m.frames.parent? f := by
  rcases hm.others f hf with rfl | ⟨p, hp⟩
  · exact ⟨Nat.lt_of_le_of_lt (Nat.zero_le _) hm'.active, hm'.root.trans hm.root.symm⟩
  · have hkept := h f p hp
    exact ⟨m'.frames.lt_size_of_parent? hkept, hkept.trans hp.symm⟩

/-! ### Pending calls -/

/-- What is called and what it is called with. -/
def Job.values : Job → List Value
  | .invoke c vs => .callable c :: vs
  | .invokeClosure _ vs => vs
  | _ => []

open Run in
/-- The values that a stage holds while another one that it has called runs. -/
inductive Stage.Holds : Stage → Stage → Value → Prop where
  | job {s s' : Stage} {v : Value} (hv : v ∈ s.job.values) : Holds s s' v
  | left {n : Nat} {left right : Expr} {operator : Token} {a : Value} {m m₁ : Machine}
      (h : evaluate n left m = .ok a m₁) :
    Holds ⟨n + 1, .evaluate (.binary left operator right), m⟩ ⟨n, .evaluate right, m₁⟩ a
  | callee {n : Nat} {callee : Expr} {paren : Token} {arguments : List Expr} {f : Value}
      {m m₁ : Machine} (h : evaluate n callee m = .ok f m₁) :
    Holds ⟨n + 1, .evaluate (.call callee paren arguments), m⟩ ⟨n, .evaluateAll arguments, m₁⟩ f
  | object {n : Nat} {object value : Expr} {name : Token} {u : Value} {m m₁ : Machine}
      (h : evaluate n object m = .ok u m₁) :
    Holds ⟨n + 1, .evaluate (.set object name value), m⟩ ⟨n, .evaluate value, m₁⟩ u
  | argument {n : Nat} {e : Expr} {es : List Expr} {v : Value} {m m₁ : Machine}
      (h : evaluate n e m = .ok v m₁) :
    Holds ⟨n + 1, .evaluateAll (e :: es), m⟩ ⟨n, .evaluateAll es, m₁⟩ v

/-- What is held by all that is pending at a stage of a session: the frames to which it comes back,
those of the functions that are called, and what the values refer to that it holds. -/
inductive Forced.Pends (start : Machine) (ps : List Program) (a : Ref) : Stage → Prop where
  | caller {s s' : Stage} (h : Forced.Passes start ps s) (hc : s.Calls s')
      (ha : a = .frame s.machine.active) : Pends start ps a s'
  | closure {n : Nat} {c : Closure} {vs : List Value} {m : Machine} {s' : Stage}
      (h : Forced.Passes start ps ⟨n, .invokeClosure c vs, m⟩)
      (hc : Stage.Calls ⟨n, .invokeClosure c vs, m⟩ s') (ha : a = .frame c.captured) :
    Pends start ps a s'
  | value {s s' : Stage} {v : Value} (h : Forced.Passes start ps s) (hc : s.Calls s')
      (hv : s.Holds s' v) (ha : v.ref? = some a) : Pends start ps a s'
  | deeper {s s' : Stage} (h : Pends start ps a s) (hc : s.Calls s') : Pends start ps a s'

theorem Job.Present.values {j : Job} {m : Machine} (h : j.Present m) :
    ∀ v ∈ j.values, v.Present m := by
  cases j with
  | invoke c vs => exact List.forall_mem_cons.mpr h
  | invokeClosure c vs => exact h.2
  | _ =>
    intro v hv
    cases hv

/-- What a stage holds is there for the stages that it calls. -/
theorem Stage.Holds.present {s s' : Stage} {v : Value} (h : s.Holds s' v) (hs : s.Founded)
    (hc : s.Calls s') : v.Present s'.machine := by
  cases h with
  | job hv => exact (hs.calls hc).1.present (hs.job.values v hv)
  | @left n left right operator a m m₁ h =>
    exact (((Run.allUphold n).evaluate left m hs.machine).ok h).2.2
  | @callee n callee paren es f m m₁ h =>
    exact (((Run.allUphold n).evaluate callee m hs.machine).ok h).2.2
  | @object n object value name u m m₁ h =>
    exact (((Run.allUphold n).evaluate object m hs.machine).ok h).2.2
  | @argument n e es v m m₁ h =>
    exact (((Run.allUphold n).evaluate e m hs.machine).ok h).2.2

/-- At a stage of a session, what is held by all that is pending exists. -/
theorem Forced.Pends.founded {start : Machine} {ps : List Program} {a : Ref} {s : Stage}
    (hstart : start.Founded) (h : Forced.Pends start ps a s) :
    s.Founded ∧ a.Exists s.machine := by
  induction h with
  | @caller s s' h hc ha =>
    obtain ⟨hkept, hs'⟩ := (h.founded hstart).calls hc
    subst ha
    exact ⟨hs', hkept.there (.frame _) (h.founded hstart).machine.active⟩
  | @closure n c vs m s' h hc ha =>
    obtain ⟨hkept, hs'⟩ := (h.founded hstart).calls hc
    subst ha
    exact ⟨hs', hkept.there (.frame _) (h.founded hstart).job.1⟩
  | @value s s' v h hc hv ha =>
    exact ⟨((h.founded hstart).calls hc).2, hv.present (h.founded hstart) hc a ha⟩
  | deeper h hc ih =>
    obtain ⟨hkept, hs'⟩ := ih.1.calls hc
    exact ⟨hs', hkept.there a ih.2⟩

/-! ### All chains end -/

/-- In every session, in which programs may run in spite of faults and with any distances, and may
end early at any depth: on each machine that is seen all frames in use exist, the links from every
frame lead to the globals, the classes above every class come to an end, and so do the searches for
variables and methods; frames are kept up to the end, with the links that they were made with; and
what pending calls hold is there. -/
theorem chains_end {clock : Nat → Float} {sink : Sink} {natives : List Native}
    (hn : ∀ n ∈ natives, n.Inert) (ps : List Program) :
    (∀ m seen, Forced.Saw (.equipped clock sink natives) ps m seen →
      seen.Ends ∧ ∀ f < seen.frames.size,
        f < m.frames.size ∧ m.frames.parent? f = seen.frames.parent? f) ∧
      ∀ a s seen, Forced.Pends (.equipped clock sink natives) ps a s → s.Shows seen →
        a.Exists seen := by
  have hstart := Machine.founded_equipped clock sink hn
  constructor
  · intro m seen h
    obtain ⟨hseen, hkept⟩ := h.founded hstart
    exact ⟨hseen.ends, fun f hf => hkept.parent? hseen (h.forced.founded hstart) hf⟩
  · intro a s seen h hseen
    obtain ⟨hs, ha⟩ := h.founded hstart
    exact (hseen.founded hs).1.there a ha

/-- `class A {} class A < A {}` -/
def redeclaring : Program where
  statements :=
    [.classDecl ⟨.identifier, "A", 1⟩ none [],
      .classDecl ⟨.identifier, "A", 1⟩ (some (.var 0 ⟨.identifier, "A", 1⟩)) []]
  distances := []

/-- The machine that has run it. -/
def redeclared : Machine :=
  (Run.interpret 9 redeclaring.statements redeclaring.distances).behind
    (.equipped (fun _ => 0) .sound [])

/-- The class above a class may have its name, and still is another one. -/
theorem chains_end_redeclaring :
    (∀ n ∈ ([] : List Native), n.Inert) ∧
      Forced.Saw (.equipped (fun _ => 0) .sound []) [redeclaring] redeclared redeclared ∧
      redeclared.objects.superclass? 1 = some 0 ∧
      redeclared.objects.className 0 = redeclared.objects.className 1 ∧ redeclared.Ends := by
  have hnone : ∀ n ∈ ([] : List Native), n.Inert := fun n hn => absurd hn List.not_mem_nil
  have hsaw : Forced.Saw (.equipped (fun _ => 0) .sound []) [redeclaring] redeclared redeclared :=
    .now (.run .start 9 redeclaring)
  have hends : redeclared.Ends := ((chains_end hnone [redeclaring]).1 _ _ hsaw).1
  exact ⟨hnone, hsaw, by decide +kernel, by decide +kernel, hends⟩

end Lox
