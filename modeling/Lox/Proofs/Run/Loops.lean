/-
Trees of loops.

The tree that stands for a `for` loop has a block and a `while` loop, with a frame around each turn
that ends with an increment.  From a good pair it does what the loop does as it is written.

* `turnTree` — the tree of a turn;
* `AllAgree` — each of the functions of the evaluation agrees with its direct counterpart, with some
  fuel;
* `allAgree` — with any fuel;
* `runAll_agrees`, `thenFlush_agrees` — programs.

Design notes: the induction is on the fuel.  Both sides spend it alike, so that they
also run out of it together.
-/
import Lox.Proofs.Run.Unison

namespace Lox

/-- The tree of a turn of a loop: the body, or a block of the body and the increment. -/
def turnTree (body : Written) : (increment : Option Expr) → Stmt
  | none => body.tree
  | some e => .block [body.tree, .expression e]

/-- The tree of a loop without an initializer. -/
theorem Written.tree_forLoop_none (condition increment : Option Expr) (body : Written) :
    (Written.forLoop none condition increment body).tree =
      .loop (condition.getD (.literal (.bool true))) (turnTree body increment) := by
  cases increment <;> rfl

namespace Pair

/-- With some fuel, every evaluation of a tree agrees with that of what is written. -/
structure AllAgree (c : Charts) (fuel : Nat) : Prop where
  evaluate : ∀ p σ e, p.Good c → p.At σ → (∀ m ∈ Locus.all σ e.occurrences, c.Places m) →
    Agrees c p (Run.evaluate fuel e) (Direct.evaluate fuel e) fun v q => q.Sound c v
  evaluateAll : ∀ p σ es, p.Good c → p.At σ →
    (∀ m ∈ Locus.all σ (Expr.occurrencesIn es), c.Places m) →
    Agrees c p (Run.evaluateAll fuel es) (Direct.evaluateAll fuel es)
      fun vs q => ∀ v ∈ vs, q.Sound c v
  invoke : ∀ p k vs, p.Good c → p.Sound c (.callable k) → (∀ v ∈ vs, p.Sound c v) →
    Agrees c p (Run.invoke fuel k vs) (Direct.invoke fuel k vs) fun v q => q.Sound c v
  invokeClosure : ∀ p k k' f vs, p.Good c → p.Fits c 0 k k' f → (∀ v ∈ vs, p.Sound c v) →
    Agrees c p (Run.invokeClosure fuel k vs) (Direct.invokeClosure fuel k' f vs)
      fun v q => q.Sound c v
  execute : ∀ p σ s, p.Good c → p.At σ → s.Formed → Admits σ s.declared? →
    (∀ m ∈ s.loci σ, c.Places m) →
    Agrees c p (Run.execute fuel s.tree) (Direct.execute fuel s) fun s q => q.Returns c s
  executeAll : ∀ p σ ss, p.Good c → p.At σ → Written.AllFormed ss →
    (∀ s ∈ ss, Admits σ s.declared?) → (∀ m ∈ Written.lociIn σ ss, c.Places m) →
    Agrees c p (Run.executeAll fuel (Written.trees ss)) (Direct.executeAll fuel ss)
      fun s q => q.Returns c s
  repeatWhile : ∀ p σ e s, p.Good c → p.At σ → s.Formed → s.declared? = none →
    (∀ m ∈ Locus.all σ e.occurrences, c.Places m) → (∀ m ∈ s.loci σ, c.Places m) →
    Agrees c p (Run.repeatWhile fuel e s.tree) (Direct.repeatWhile fuel e s)
      fun s q => q.Returns c s
  repeatFor : ∀ p σ condition increment s, p.Good c → p.At σ → s.Formed → s.declared? = none →
    (∀ m ∈ (Written.forLoop none condition increment s).loci σ, c.Places m) →
    Agrees c p
      (Run.repeatWhile fuel (condition.getD (.literal (.bool true))) (turnTree s increment))
      (Direct.repeatFor fuel condition increment s) fun s q => q.Returns c s
  turn : ∀ p σ s e, p.Good c → p.At σ → s.Formed → s.declared? = none →
    (∀ m ∈ s.loci (.extra :: σ), c.Places m) →
    (∀ m ∈ Locus.all (.extra :: σ) e.occurrences, c.Places m) →
    Agrees c p (Run.execute fuel (turnTree s (some e))) (Direct.turn fuel s e)
      fun s q => q.Returns c s

theorem Returns.normal (p : Pair) (c : Charts) : p.Returns c .normal := nofun

theorem Returns.returned {p : Pair} {c : Charts} {v : Value} (h : p.Sound c v) :
    p.Returns c (.returned v) := by
  intro u hu
  cases hu
  exact h

/-- A name is declared in frames that belong together. -/
theorem declare_agrees {c : Charts} {p : Pair} {σ : List Layer} (hp : p.Good c) (hσ : p.At σ)
    (hσ' : σ.head? ≠ some .extra) (name : Token) {v : Value} (hv : p.Sound c v) :
    Agrees c p (do Run.define (← Run.activeFrame) name.lexeme v; pure Signal.normal)
      (do
        Direct.lift (Run.define (← Direct.lift Run.activeFrame) name.lexeme v)
        pure Signal.normal)
      fun s q => q.Returns c s := by
  have ht := hσ.twins hp hσ'
  exact .activeFrame (.define hp ht (.pure (hp.define ht name.lexeme hv) (.normal _ c)))

/-- A loop goes on behind a turn that ends normally. -/
theorem again_agrees {c : Charts} {p : Pair} (hp : p.Good c) {b : Bool} {turn rest : Run Signal}
    {turn' rest' : DirectRun Signal} (ht : Agrees c p turn turn' fun s q => q.Returns c s)
    (hr : ∀ q, q.Good c → p.Grows q → Agrees c q rest rest' fun s q => q.Returns c s) :
    Agrees c p
      (if b then turn >>= fun s =>
        match s with
        | .normal => rest
        | .returned v => pure (Signal.returned v)
      else pure Signal.normal)
      (if b then turn' >>= fun s =>
        match s with
        | .normal => rest'
        | .returned v => pure (Signal.returned v)
      else pure Signal.normal)
      fun s q => q.Returns c s := by
  cases b with
  | false => exact .pure hp (.normal p c)
  | true =>
    refine ht.bind fun s q hq hkq hs => ?_
    cases s with
    | normal => exact hr q hq hkq
    | returned v => exact .pure hq hs

namespace AllAgree

variable {c : Charts} {fuel : Nat} (ih : AllAgree c fuel)

include ih

theorem evaluate_succ (p : Pair) (σ : List Layer) (e : Expr) (hp : p.Good c) (hσ : p.At σ)
    (hm : ∀ m ∈ Locus.all σ e.occurrences, c.Places m) :
    Agrees c p (Run.evaluate (fuel + 1) e) (Direct.evaluate (fuel + 1) e)
      fun v q => q.Sound c v := by
  cases e with
  | literal l => exact .pure hp (.of_ne fun id => by cases l <;> nofun)
  | grouping inner => exact ih.evaluate p σ inner hp hσ hm
  | unary operator right =>
    refine (ih.evaluate p σ right hp hσ hm).bind fun v q hq _ _ => ?_
    exact .plain hq (Run.applyUnary_plain operator v)
  | binary left operator right =>
    rw [Expr.occurrences, Locus.all_append] at hm
    obtain ⟨hl, hr⟩ := List.forall_mem_append.mp hm
    refine (ih.evaluate p σ left hp hσ hl).bind fun a q hq hk _ => ?_
    refine (ih.evaluate q σ right hq (hk.at_ hσ) hr).bind fun b r hr' _ _ => ?_
    exact .plain hr' (Run.applyBinary_plain operator a b)
  | logical left operator right =>
    rw [Expr.occurrences, Locus.all_append] at hm
    obtain ⟨hl, hr⟩ := List.forall_mem_append.mp hm
    refine (ih.evaluate p σ left hp hσ hl).bind fun a q hq hk ha => ?_
    by_cases hd : Run.decides operator a = true
    · rw [if_pos hd, if_pos hd]
      exact .pure hq ha
    · rw [if_neg hd, if_neg hd]
      exact ih.evaluate q σ right hq (hk.at_ hσ) hr
  | var id name =>
    exact lookUp_agrees hp hσ (hm ⟨⟨id, .variable_, name⟩, σ⟩ (List.mem_singleton_self _)) nofun
  | thisRef id keyword =>
    exact lookUp_agrees hp hσ (hm ⟨⟨id, .this_, keyword⟩, σ⟩ (List.mem_singleton_self _)) nofun
  | assign id name value =>
    have ho := hm ⟨⟨id, .assign, name⟩, σ⟩ (List.mem_cons_self ..)
    refine (ih.evaluate p σ value hp hσ fun m h => hm m (List.mem_cons_of_mem _ h)).bind
      fun v q hq hk hv => ?_
    refine (store_agrees hq (hk.at_ hσ) ho nofun hv).bind fun _ r hr hkr _ => ?_
    exact .pure hr (hkr.sound hv)
  | call callee paren arguments =>
    rw [Expr.occurrences, Locus.all_append] at hm
    obtain ⟨hc, ha⟩ := List.forall_mem_append.mp hm
    refine (ih.evaluate p σ callee hp hσ hc).bind fun f q hq hk hf => ?_
    refine (ih.evaluateAll q σ arguments hq (hk.at_ hσ) ha).bind fun vs r hr hkr hvs => ?_
    replace hf := hkr.sound hf
    cases f with
    | callable k =>
      -- both sides ask for the same number of arguments
      refine .ofObjects (hr.arity_eq hf) ?_
      by_cases hlen : vs.length = r.tree.objects.arity k
      · rw [if_pos hlen, if_pos hlen]
        exact ih.invoke r k vs hr hf hvs
      · rw [if_neg hlen, if_neg hlen]
        exact .halt hr _
    | _ => exact .halt hr _
  | get object name =>
    refine (ih.evaluate p σ object hp hσ hm).bind fun v q hq _ _ => ?_
    cases v with
    | object i => exact property_agrees hq i name
    | _ => exact .halt hq _
  | set object name value =>
    rw [Expr.occurrences, Locus.all_append] at hm
    obtain ⟨ho, hv⟩ := List.forall_mem_append.mp hm
    refine (ih.evaluate p σ object hp hσ ho).bind fun o q hq hk _ => ?_
    cases o with
    | object i =>
      refine (ih.evaluate q σ value hq (hk.at_ hσ) hv).bind fun v r hr _ hv => ?_
      refine (setField_agrees hr i name.lexeme hv).bind fun _ u hu hku _ => ?_
      exact .pure hu (hku.sound hv)
    | _ => exact .halt hq _
  | superRef id keyword method =>
    exact superMethod_agrees hp hσ (hm _ (List.mem_singleton_self _))

theorem evaluateAll_succ (p : Pair) (σ : List Layer) (es : List Expr) (hp : p.Good c)
    (hσ : p.At σ) (hm : ∀ m ∈ Locus.all σ (Expr.occurrencesIn es), c.Places m) :
    Agrees c p (Run.evaluateAll (fuel + 1) es) (Direct.evaluateAll (fuel + 1) es)
      fun vs q => ∀ v ∈ vs, q.Sound c v := by
  cases es with
  | nil => exact .pure hp nofun
  | cons e es =>
    rw [Expr.occurrencesIn, Locus.all_append] at hm
    obtain ⟨he, hes⟩ := List.forall_mem_append.mp hm
    refine (ih.evaluate p σ e hp hσ he).bind fun v q hq hk hv => ?_
    refine (ih.evaluateAll q σ es hq (hk.at_ hσ) hes).bind fun vs r hr hkr hvs => ?_
    exact .pure hr (List.forall_mem_cons.mpr ⟨hkr.sound hv, hvs⟩)

theorem invoke_succ (p : Pair) (k : Callable) (vs : List Value) (hp : p.Good c)
    (hk : p.Sound c (.callable k)) (hvs : ∀ v ∈ vs, p.Sound c v) :
    Agrees c p (Run.invoke (fuel + 1) k vs) (Direct.invoke (fuel + 1) k vs)
      fun v q => q.Sound c v := by
  cases k with
  | native id =>
    refine .ofObjects (congrArg (·[id]?) hp.machines.natives) ?_
    cases hn : p.tree.objects.natives[id]? with
    | none => exact .halt hp _
    | some n => exact callNative_agrees hp (hp.natives n (Array.mem_of_getElem? hn)) vs
  | closure id =>
    -- the closures have captured different frames, so that both sides look theirs up at once
    obtain ⟨k, k', hk, hk', hf⟩ := hk id rfl
    have hrun : Run.invoke (fuel + 1) (.closure id) vs p.tree =
        (Run.ofOption p.tree.objects.closures[id]? >>= fun k => Run.invokeClosure fuel k vs)
          p.tree := rfl
    have hdirect : Direct.invoke (fuel + 1) (.closure id) vs p.written =
        (Direct.lift (Run.ofOption p.written.machine.objects.closures[id]?) >>= fun k =>
          Direct.function id >>= fun f => Direct.invokeClosure fuel k f vs) p.written := rfl
    rw [hk] at hrun
    rw [hk'] at hdirect
    exact (ih.invokeClosure p k k' _ vs hp hf hvs).of_step hrun hdirect (.refl p)
  | klass n =>
    -- the new instance has one number on both sides, so that its initializer is bound to the same
    refine newInstance_agrees hp n fun q hq hkq => ?_
    have hobject : ∀ r : Pair, r.Sound c (.object p.tree.objects.instances.size) :=
      fun r => .of_ne nofun
    refine method_agrees hq (some n) initializerName (.pure hq (hobject q)) fun k k' f hf => ?_
    refine bindMethod_agrees hq hf _ fun r k k' hr hkr hfits => ?_
    have hvs' : ∀ v ∈ vs, r.Sound c v := fun v hv => hkr.sound (hkq.sound (hvs v hv))
    refine (ih.invokeClosure r k k' f vs hr hfits hvs').bind fun _ u hu _ _ => ?_
    exact .pure hu (hobject u)

theorem invokeClosure_succ (p : Pair) (k k' : Closure) (f : WrittenFunction) (vs : List Value)
    (hp : p.Good c) (hf : p.Fits c 0 k k' f) (hvs : ∀ v ∈ vs, p.Sound c v) :
    Agrees c p (Run.invokeClosure (fuel + 1) k vs) (Direct.invokeClosure (fuel + 1) k' f vs)
      fun v q => q.Sound c v := by
  obtain ⟨σ, hσ, hm⟩ := hf.captured
  unfold Run.invokeClosure Direct.invokeClosure
  rw [hf.declaration, f.params_tree, f.body_tree, f.name_tree, hf.isInitializer]
  -- the frame of the call, with the parameters in it
  have hpush := hp.push k.captured k'.captured
  have hgrows := Grows.push p k.captured k'.captured
  have ht : (p.push k.captured k'.captured).twins p.tree.frames.size
      p.written.machine.frames.size := Or.inr ⟨rfl, rfl⟩
  have hbody : (p.push k.captured k'.captured).Chained (.shared :: σ) p.tree.frames.size
      p.written.machine.frames.size := by
    refine .both (by decide) ht ?_ ?_ (hgrows.chained hσ)
    · exact (Frames.parent?_push ..).trans (if_pos rfl)
    · exact (Frames.parent?_push ..).trans (if_pos rfl)
  refine .newFrame ?_
  have hparams : ∀ x ∈ f.params.zip vs, (p.push k.captured k'.captured).Sound c x.2 :=
    fun x hx => hgrows.sound (hvs _ (List.of_mem_zip hx).2)
  refine (defineAll_agrees hpush ht hparams).bind fun _ q hq hkq _ => ?_
  have hin := ih.executeAll (q.inside p.tree.frames.size p.written.machine.frames.size)
    (.shared :: σ) f.body (hq.inside _ _) ?_ hf.formed.body (fun s _ => .shared σ s.declared?) ?_
  · refine hin.within.bind fun s r hr hkr hs => ?_
    cases hi : k.isInitializer with
    | true =>
      have hcap := hf.receiver hi rfl
      have hall := hgrows.trans (hkq.trans hkr)
      rw [if_pos rfl, if_pos rfl]
      refine .read hr (hr.getAt_eq rfl rfl (hall.twins hcap) _ _) fun v hv => ?_
      obtain ⟨g, hg⟩ := Frames.value?_of_getAt _ hv
      exact hr.values g _ v hg
    | false =>
      rw [if_neg nofun, if_neg nofun]
      cases s with
      | normal => exact .pure hr (.of_ne nofun)
      | returned v => exact .pure hr (hs v rfl)
  · exact (Keeps.inside q _ _).chained (hkq.chained hbody)
  · intro m h
    obtain ⟨name, params, body⟩ := f
    exact hm m h

/-- Statements in a scope of their own. -/
theorem block (p : Pair) (σ : List Layer) (ss : List Written) (hp : p.Good c) (hσ : p.At σ)
    (hs : Written.AllFormed ss) (hm : ∀ m ∈ Written.lociIn (.shared :: σ) ss, c.Places m) :
    Agrees c p
      (do
        let frame ← Run.newFrame (← Run.activeFrame)
        Run.within frame (Run.executeAll fuel (Written.trees ss)))
      (do
        let frame ← Direct.lift (Run.newFrame (← Direct.lift Run.activeFrame))
        Direct.within frame (Direct.executeAll fuel ss))
      fun s q => q.Returns c s := by
  have hpush := hp.push p.tree.active p.written.machine.active
  have hgrows := Grows.push p p.tree.active p.written.machine.active
  refine .activeFrame (.newFrame (.within ?_))
  refine ih.executeAll _ (.shared :: σ) ss (hpush.inside _ _) ?_ hs
    (fun s _ => .shared σ s.declared?) hm
  refine (Keeps.inside (p.push p.tree.active p.written.machine.active) _ _).chained ?_
  refine .both (by decide) (Or.inr ⟨rfl, rfl⟩) ?_ ?_ (hgrows.chained hσ)
  · exact (Frames.parent?_push ..).trans (if_pos rfl)
  · exact (Frames.parent?_push ..).trans (if_pos rfl)

theorem execute_succ (p : Pair) (σ : List Layer) (s : Written) (hp : p.Good c) (hσ : p.At σ)
    (hs : s.Formed) (ha : Admits σ s.declared?) (hm : ∀ m ∈ s.loci σ, c.Places m) :
    Agrees c p (Run.execute (fuel + 1) s.tree) (Direct.execute (fuel + 1) s)
      fun s q => q.Returns c s := by
  cases s with
  | block body =>
    unfold Written.Formed at hs
    exact ih.block p σ body hp hσ hs hm
  | classDecl name superclass methods =>
    unfold Written.Formed at hs
    obtain ⟨he, hm⟩ := List.forall_mem_append.mp hm
    have hσ' := ha.resolve_left nofun
    cases superclass with
    | none =>
      refine (declareClass_agrees hp hσ hσ' name rfl hs.2 hm).bind fun _ q hq _ _ => ?_
      exact .pure hq (.normal q c)
    | some superclass =>
      refine (ih.evaluate p σ superclass hp hσ he).bind fun v q hq hkq _ => ?_
      refine (asSuperclass_agrees hq name v).bind fun k r hr hkr _ => ?_
      have hσr := hkr.at_ (hkq.at_ hσ)
      refine (declareClass_agrees hr hσr hσ' name rfl hs.2 hm).bind fun _ u hu _ _ => ?_
      exact .pure hu (.normal u c)
  | expression e =>
    refine (ih.evaluate p σ e hp hσ hm).bind fun _ q hq _ _ => ?_
    exact .pure hq (.normal q c)
  | function f =>
    unfold Written.Formed at hs
    refine (functionValue_agrees hp hσ hs hm).bind fun v q hq hkq hv => ?_
    rw [f.name_tree]
    exact declare_agrees hq (hkq.at_ hσ) (ha.resolve_left nofun) f.name hv
  | branch condition thenBranch elseBranch =>
    cases elseBranch with
    | none =>
      unfold Written.Formed at hs
      obtain ⟨hc, ht⟩ := List.forall_mem_append.mp hm
      refine (ih.evaluate p σ condition hp hσ hc).bind fun v q hq hkq _ => ?_
      by_cases hv : v.isTruthy = true
      · rw [if_pos hv, if_pos hv]
        exact ih.execute q σ thenBranch hq (hkq.at_ hσ) hs.1 (Or.inl hs.2) ht
      · rw [if_neg hv, if_neg hv]
        exact .pure hq (.normal q c)
    | some elseBranch =>
      unfold Written.Formed at hs
      obtain ⟨hm, he⟩ := List.forall_mem_append.mp hm
      obtain ⟨hc, ht⟩ := List.forall_mem_append.mp hm
      refine (ih.evaluate p σ condition hp hσ hc).bind fun v q hq hkq _ => ?_
      by_cases hv : v.isTruthy = true
      · rw [if_pos hv, if_pos hv]
        exact ih.execute q σ thenBranch hq (hkq.at_ hσ) hs.1.1 (Or.inl hs.1.2) ht
      · rw [if_neg hv, if_neg hv]
        exact ih.execute q σ elseBranch hq (hkq.at_ hσ) hs.2.1 (Or.inl hs.2.2) he
  | print e =>
    refine (ih.evaluate p σ e hp hσ hm).bind fun v q hq _ hv => ?_
    refine .ofObjects (hq.display_eq hv) ?_
    refine (write_agrees hq _).bind fun _ r hr _ _ => ?_
    exact .pure hr (.normal r c)
  | ret keyword value =>
    cases value with
    | none => exact .pure hp (.returned (.of_ne nofun))
    | some e =>
      refine (ih.evaluate p σ e hp hσ hm).bind fun v q hq _ hv => ?_
      exact .pure hq (.returned hv)
  | varDecl name initializer =>
    have hσ' := ha.resolve_left nofun
    cases initializer with
    | none => exact declare_agrees hp hσ hσ' name (.of_ne nofun)
    | some e =>
      refine (ih.evaluate p σ e hp hσ hm).bind fun v q hq hkq hv => ?_
      exact declare_agrees hq (hkq.at_ hσ) hσ' name hv
  | loop condition body =>
    unfold Written.Formed at hs
    obtain ⟨he, hb⟩ := List.forall_mem_append.mp hm
    exact ih.repeatWhile p σ condition body hp hσ hs.1 hs.2 he hb
  | forLoop initializer condition increment body =>
    cases initializer with
    | none =>
      unfold Written.Formed at hs
      -- only an initializer has a block around its loop
      rw [Written.tree_forLoop_none]
      exact ih.repeatFor p σ condition increment body hp hσ hs.1 hs.2 hm
    | some s =>
      unfold Written.Formed at hs
      -- the block holds the initializer and a loop without one
      rw [Written.tree_forLoop_some]
      refine ih.block p σ [s, .forLoop none condition increment body] hp hσ ?_ ?_
      · simp only [Written.AllFormed, Written.Formed]
        exact ⟨hs.1, hs.2, trivial⟩
      · intro m h
        refine hm m ?_
        simpa only [Written.lociIn, Written.loci, List.append_nil] using h

theorem executeAll_succ (p : Pair) (σ : List Layer) (ss : List Written) (hp : p.Good c)
    (hσ : p.At σ) (hs : Written.AllFormed ss) (ha : ∀ s ∈ ss, Admits σ s.declared?)
    (hm : ∀ m ∈ Written.lociIn σ ss, c.Places m) :
    Agrees c p (Run.executeAll (fuel + 1) (Written.trees ss)) (Direct.executeAll (fuel + 1) ss)
      fun s q => q.Returns c s := by
  cases ss with
  | nil => exact .pure hp (.normal p c)
  | cons s ss =>
    unfold Written.AllFormed at hs
    obtain ⟨hm, hms⟩ := List.forall_mem_append.mp hm
    have ha' := List.forall_mem_cons.mp ha
    refine (ih.execute p σ s hp hσ hs.1 ha'.1 hm).bind fun t q hq hkq ht => ?_
    cases t with
    | normal => exact ih.executeAll q σ ss hq (hkq.at_ hσ) hs.2 ha'.2 hms
    | returned v => exact .pure hq ht

theorem repeatWhile_succ (p : Pair) (σ : List Layer) (e : Expr) (s : Written) (hp : p.Good c)
    (hσ : p.At σ) (hs : s.Formed) (hd : s.declared? = none)
    (he : ∀ m ∈ Locus.all σ e.occurrences, c.Places m) (hm : ∀ m ∈ s.loci σ, c.Places m) :
    Agrees c p (Run.repeatWhile (fuel + 1) e s.tree) (Direct.repeatWhile (fuel + 1) e s)
      fun s q => q.Returns c s := by
  refine (ih.evaluate p σ e hp hσ he).bind fun v q hq hkq _ => ?_
  have hσq := hkq.at_ hσ
  exact again_agrees hq (ih.execute q σ s hq hσq hs (Or.inl hd) hm) fun r hr hkr =>
    ih.repeatWhile r σ e s hr (hkr.at_ hσq) hs hd he hm

/-- The condition of a loop; the one that stands in the tree for an absent one takes some fuel. -/
theorem condition (p : Pair) (σ : List Layer) (e : Option Expr) (hp : p.Good c) (hσ : p.At σ) :
    (e = none → fuel ≠ 0) → (∀ m ∈ Locus.all σ (Expr.occurrencesOf? e), c.Places m) →
    Agrees c p (Run.evaluate fuel (e.getD (.literal (.bool true))))
      (match e with
        | some e => Direct.evaluate fuel e
        | none => pure (.bool true)) fun v q => q.Sound c v := by
  intro hfuel he
  cases e with
  | some e => exact ih.evaluate p σ e hp hσ he
  | none =>
    obtain ⟨n, rfl⟩ := Nat.exists_eq_succ_of_ne_zero (hfuel rfl)
    exact .pure hp (.of_ne nofun)

theorem repeatFor_succ (p : Pair) (σ : List Layer) (condition increment : Option Expr)
    (s : Written) (hp : p.Good c) (hσ : p.At σ) (hs : s.Formed) (hd : s.declared? = none)
    (hm : ∀ m ∈ (Written.forLoop none condition increment s).loci σ, c.Places m) :
    Agrees c p
      (Run.repeatWhile (fuel + 1) (condition.getD (.literal (.bool true))) (turnTree s increment))
      (Direct.repeatFor (fuel + 1) condition increment s) fun s q => q.Returns c s := by
  by_cases hfuel : condition = none ∧ fuel = 0
  · -- the tree has no fuel left for its condition, and the loop none for its turn
    obtain ⟨rfl, rfl⟩ := hfuel
    cases increment <;> exact .error .outOfFuel p rfl rfl hp (.refl p)
  · have hms := hm
    obtain ⟨hc, hm⟩ := List.forall_mem_append.mp hm
    obtain ⟨hb, hi⟩ := List.forall_mem_append.mp hm
    have hcond := ih.condition p σ condition hp hσ (fun h h' => hfuel ⟨h, h'⟩) hc
    refine hcond.bind fun v q hq hkq _ => ?_
    have hσq := hkq.at_ hσ
    refine again_agrees hq ?_ fun r hr hkr =>
      ih.repeatFor r σ condition increment s hr (hkr.at_ hσq) hs hd hms
    cases increment with
    | none => exact ih.execute q σ s hq hσq hs (Or.inl hd) hb
    | some e => exact ih.turn q σ s e hq hσq hs hd hb hi

theorem turn_succ (p : Pair) (σ : List Layer) (s : Written) (e : Expr) (hp : p.Good c)
    (hσ : p.At σ) (hs : s.Formed) (hd : s.declared? = none)
    (hm : ∀ m ∈ s.loci (.extra :: σ), c.Places m)
    (he : ∀ m ∈ Locus.all (.extra :: σ) e.occurrences, c.Places m) :
    Agrees c p (Run.execute (fuel + 1) (turnTree s (some e))) (Direct.turn (fuel + 1) s e)
      fun s q => q.Returns c s := by
  -- the tree runs the body and the increment in its frame, the loop in the one it is in
  refine .turn (ih.executeAll p.turn (.extra :: σ) [s, .expression e] hp.turn ?_ ?_ ?_ ?_)
  · refine .extra ?_ ((Keeps.turn p).chained hσ)
    exact (Frames.parent?_push ..).trans (if_pos rfl)
  · simp only [Written.AllFormed, Written.Formed]
    exact ⟨hs, trivial, trivial⟩
  · intro t ht
    rcases List.mem_cons.mp ht with rfl | ht
    · exact Or.inl hd
    · obtain rfl := List.mem_singleton.mp ht
      exact Or.inl rfl
  · simp only [Written.lociIn, Written.loci, List.append_nil]
    exact List.forall_mem_append.mpr ⟨hm, he⟩

end AllAgree

/-- With any fuel. -/
theorem allAgree (c : Charts) (fuel : Nat) : AllAgree c fuel := by
  induction fuel with
  | zero =>
    exact
      { evaluate := fun _ _ _ hp _ _ => .halt hp _
        evaluateAll := fun _ _ _ hp _ _ => .halt hp _
        invoke := fun _ _ _ hp _ _ => .halt hp _
        invokeClosure := fun _ _ _ _ _ hp _ _ => .halt hp _
        execute := fun _ _ _ hp _ _ _ _ => .halt hp _
        executeAll := fun _ _ _ hp _ _ _ _ => .halt hp _
        repeatWhile := fun _ _ _ _ hp _ _ _ _ _ => .halt hp _
        repeatFor := fun _ _ _ _ _ hp _ _ _ _ => .halt hp _
        turn := fun _ _ _ _ hp _ _ _ _ _ => .halt hp _ }
  | succ fuel ih =>
    exact
      { evaluate := ih.evaluate_succ
        evaluateAll := ih.evaluateAll_succ
        invoke := ih.invoke_succ
        invokeClosure := ih.invokeClosure_succ
        execute := ih.execute_succ
        executeAll := ih.executeAll_succ
        repeatWhile := ih.repeatWhile_succ
        repeatFor := ih.repeatFor_succ
        turn := ih.turn_succ }

/-! ### Programs -/

theorem runAll_agrees {c : Charts} (fuel : Nat) {p : Pair} (hp : p.Good c) (hσ : p.At [])
    {program : List Written} (hs : Written.AllFormed program)
    (hm : ∀ m ∈ Written.lociIn [] program, c.Places m) :
    Agrees c p (Run.runAll fuel (Written.trees program)) (Direct.runAll fuel program)
      fun _ _ => True := by
  induction program generalizing p with
  | nil => exact .pure hp trivial
  | cons s ss ih =>
    unfold Written.AllFormed at hs
    obtain ⟨hm, hms⟩ := List.forall_mem_append.mp hm
    have ha : Admits [] s.declared? := Or.inr nofun
    refine ((allAgree c fuel).execute p [] s hp hσ hs.1 ha hm).bind fun _ q hq hkq _ => ?_
    exact ih hq (hkq.at_ hσ) hs.2 hms

theorem thenFlush_agrees {c : Charts} {p : Pair} {run : Run Unit} {direct : DirectRun Unit}
    (h : Agrees c p run direct fun _ _ => True) :
    Agrees c p (Run.thenFlush run) (Direct.thenFlush direct) fun _ _ => True := by
  cases h with
  | ok _ q hr hd hq hk _ =>
    refine (flush_agrees hq).of_step ?_ ?_ hk
    · unfold Run.thenFlush
      rw [hr]
    · unfold Direct.thenFlush
      rw [hd]
  | error e q hr hd hq hk =>
    cases flush_agrees hq with
    | ok _ r hr' hd' hq' hk' _ =>
      refine .error e r ?_ ?_ hq' (hk.trans hk')
      · unfold Run.thenFlush
        rw [hr]
        simp only [hr']
      · unfold Direct.thenFlush
        rw [hd]
        simp only [hd']
    | error e' r hr' hd' hq' hk' =>
      refine .error e' r ?_ ?_ hq' (hk.trans hk')
      · unfold Run.thenFlush
        rw [hr]
        simp only [hr']
      · unfold Direct.thenFlush
        rw [hd]
        simp only [hd']

end Pair

end Lox
