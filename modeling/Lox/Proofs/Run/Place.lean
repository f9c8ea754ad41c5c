/-
Places of a running program.

A `Place` is where a node stands when it is evaluated: what surrounds it, and the walk of `resolve`
as it comes to the node.  A place is handed on from a node to its parts by the steps of the walk
itself, so that the scopes at a place are those with which the bindings of the node were found.

* `Site.Good` — a site without faults, the distance of which is known;
* `Expr.Ready`, `Stmt.Ready` — the walk shows what surrounds the place, and all sites are good;
* the lemmas below `Ready` — the parts of a ready node are ready, each at its own place.

Design notes: readiness is stated for any property of sites that makes them good, so that a proof
can carry along what else it needs to know of the sites of functions that are called later.
-/
import Lox.Proofs.Binding.Resolution

namespace Lox

/-- Where a node stands: what surrounds it, and the walk as it comes to the node.  In a superclass,
`declaring` is the name of the class. -/
structure Place where
  around : Surroundings
  walk : Walk
  declaring : Option String

namespace Place

/-- Before the program of a source. -/
def top (source : Nat) : Place := ⟨.top source, .start, none⟩

/-- At the `i`-th part. -/
def child (p : Place) (i : Nat) : Place :=
  { p with around := p.around.child i }

/-- Behind an expression. -/
def afterExpr (p : Place) (e : Expr) : Place :=
  { p with walk := e.resolve p.around.context p.walk }

/-- Behind a statement of a list. -/
def afterStmt (p : Place) (s : Stmt) : Place :=
  { p with around := p.around.after s, walk := s.resolve p.around.context p.walk }

/-- Behind a method of a class. -/
def afterMethod (p : Place) (f : FunDecl) : Place :=
  { p with walk := f.resolve { p.around.context with routine := f.methodContext } p.walk }

/-- Behind the name of a declaration. -/
def declare (p : Place) (name : Token) : Place :=
  { p with around := p.around.declare name, walk := p.walk.declareDefined name }

/-- In the initializer of a variable. -/
def initializer (p : Place) (name : Token) : Place :=
  { p with around := p.around.initializing name, walk := p.walk.declare name }

/-- At the value of a `return`. -/
def returned (p : Place) (keyword : Token) : Place :=
  { p with walk := p.walk.checkReturn p.around.context keyword true }

/-- Inside of a block. -/
def block (p : Place) : Place :=
  { p with around := p.around.enter .block [], walk := p.walk.enter [] }

/-- At the second branch of a conditional. -/
def elseBranch (p : Place) (condition : Expr) (thenBranch : Stmt) : Place :=
  { p with
    around := p.around.child 1
    walk := thenBranch.resolve p.around.context (condition.resolve p.around.context p.walk) }

/-- In the body of a function, behind its parameters. -/
def body (p : Place) (r : Surrounding) (f : FunDecl) : Place :=
  { p with
    around := (p.around.enter (.routine r) []).declareAll f.params
    walk := (p.walk.enter []).declareAll f.params }

/-- At the superclass of a class. -/
def superclass (p : Place) (name : Token) (e : Expr) : Place where
  around := p.around.declare name
  walk := (p.walk.declareDefined name).checkSuperclass name e
  declaring := some name.lexeme

/-- At the methods of a class. -/
def methods (p : Place) (name : Token) : (superclass : Option Expr) → Place
  | none =>
    { p with
      around := (p.around.declare name).enter (.receiver .rootClass) ["this"]
      walk := (p.walk.declareDefined name).enter [("this", true)] }
  | some e =>
    let w := e.resolve { p.around.context with klass := .subclass }
      ((p.walk.declareDefined name).checkSuperclass name e)
    { p with
      around := ((p.around.declare name).enter .ancestor ["super"]).enter (.receiver .subclass)
        ["this"]
      walk := (w.enter [("super", true)]).enter [("this", true)] }

end Place

/-- A site without faults, the distance of which is known. -/
structure Site.Good (ds : Distances) (x : Site) : Prop where
  faults : x.faults = []
  proper : ∀ o ∈ x.occurrence?, o.Proper
  known : ∀ o ∈ x.occurrence?, ds.find? o.id = x.distance?

/-- The walk shows what surrounds a place at which a statement may stand. -/
structure Place.Regular (p : Place) : Prop where
  shown : p.walk.Matches p.around
  regular : p.around.Regular
  settled : p.declaring = none

/-- An expression at a place that the walk shows, all sites of which have a property.  The name of
the class, of which it may be the superclass, does not occur in it. -/
structure Expr.Ready (q : Site → Prop) (p : Place) (e : Expr) : Prop where
  shown : p.walk.Matches p.around
  genuine : p.around.Genuine
  other : ∀ o ∈ e.occurrences, p.declaring ≠ some o.token.lexeme
  sites : ∀ x ∈ e.sites p.around, q x

/-- Expressions from a place on, all sites of which have a property. -/
structure Expr.AllReady (q : Site → Prop) (p : Place) (es : List Expr) : Prop where
  shown : p.walk.Matches p.around
  genuine : p.around.Genuine
  other : ∀ o ∈ Expr.occurrencesIn es, p.declaring ≠ some o.token.lexeme
  sites : ∀ o ∈ Expr.occurrencesIn es, q ⟨p.around, .occurrence o⟩

/-- A statement at a place that the walk shows, all sites of which have a property. -/
structure Stmt.Ready (q : Site → Prop) (p : Place) (s : Stmt) : Prop where
  place : p.Regular
  proper : s.Proper
  sites : ∀ x ∈ s.sites p.around, q x

/-- Statements from a place on, the first of which is the `i`-th part. -/
structure Stmt.AllReady (q : Site → Prop) (p : Place) (i : Nat) (ss : List Stmt) : Prop where
  place : p.Regular
  proper : Stmt.AllProper ss
  sites : ∀ x ∈ Stmt.sitesIn p.around i ss, q x

/-- A function at a place, all sites of which have a property. -/
structure FunDecl.Ready (q : Site → Prop) (p : Place) (r : Surrounding) (f : FunDecl) : Prop where
  params : ∀ x ∈ paramSites (p.around.enter (.routine r) []) f.params, q x
  body : Stmt.AllReady q (p.body r f) 0 f.body

/-- Methods from a place on, the first of which is the `i`-th part. -/
structure FunDecl.AllReady (q : Site → Prop) (p : Place) (i : Nat) (fs : List FunDecl) : Prop where
  shown : p.walk.Matches p.around
  genuine : p.around.Genuine
  settled : p.around.Settled ∧ p.declaring = none
  proper : FunDecl.AllProper fs
  sites : ∀ x ∈ FunDecl.sitesIn p.around i fs, q x

section

variable {ds : Distances} {q : Site → Prop} (hq : ∀ x, q x → x.Good ds) {p : Place}

include hq

theorem Expr.Ready.proper {e : Expr} (h : e.Ready q p) : ∀ o ∈ e.occurrences, o.Proper :=
  fun o ho => (hq _ (h.sites _ (List.mem_map.mpr ⟨o, ho, rfl⟩))).proper o rfl

theorem Stmt.Ready.proper_occurrences {s : Stmt} (h : s.Ready q p) :
    ∀ o ∈ s.occurrences, o.Proper := by
  intro o ho
  rw [← Stmt.occurrences_sites p.around] at ho
  obtain ⟨x, hx, hxo⟩ := List.mem_filterMap.mp ho
  exact (hq x (h.sites x hx)).proper o hxo

/-! ### Expressions -/

omit hq in
/-- A part of an expression at the same place. -/
theorem Expr.Ready.part {e e₁ : Expr} (h : e.Ready q p)
    (hs : ∀ o ∈ e₁.occurrences, o ∈ e.occurrences) : e₁.Ready q p := by
  refine ⟨h.shown, h.genuine, fun o ho => h.other o (hs o ho), fun x hx => ?_⟩
  obtain ⟨o, ho, rfl⟩ := List.mem_map.mp hx
  exact h.sites _ (List.mem_map.mpr ⟨o, hs o ho, rfl⟩)

/-- What stands behind a ready expression at the same surroundings. -/
theorem Expr.Ready.shown_after {e : Expr} (h : e.Ready q p) :
    (p.afterExpr e).walk.Matches p.around :=
  h.shown.of_scopes_eq
    (e.resolve_adds h.shown h.genuine p.around.context rfl (h.proper hq)).2

/-- Two parts of an expression, of which the walk visits the first one first. -/
theorem Expr.Ready.parts {e e₁ e₂ : Expr} (h : e.Ready q p)
    (hs : ∀ o, o ∈ e₁.occurrences ∨ o ∈ e₂.occurrences → o ∈ e.occurrences) :
    e₁.Ready q p ∧ e₂.Ready q (p.afterExpr e₁) := by
  have h₁ : e₁.Ready q p := h.part fun o ho => hs o (Or.inl ho)
  have h₂ : e₂.Ready q p := h.part fun o ho => hs o (Or.inr ho)
  exact ⟨h₁, h₁.shown_after hq, h₂.genuine, h₂.other, h₂.sites⟩

theorem Expr.Ready.binary {left right : Expr} {operator : Token}
    (h : (Expr.binary left operator right).Ready q p) :
    left.Ready q p ∧ right.Ready q (p.afterExpr left) :=
  h.parts hq fun _ => List.mem_append.mpr

theorem Expr.Ready.logical {left right : Expr} {operator : Token}
    (h : (Expr.logical left operator right).Ready q p) :
    left.Ready q p ∧ right.Ready q (p.afterExpr left) :=
  h.parts hq fun _ => List.mem_append.mpr

theorem Expr.Ready.set {object value : Expr} {name : Token}
    (h : (Expr.set object name value).Ready q p) :
    value.Ready q p ∧ object.Ready q (p.afterExpr value) :=
  h.parts hq fun _ ho => List.mem_append.mpr ho.symm

theorem Expr.Ready.call {callee : Expr} {paren : Token} {arguments : List Expr}
    (h : (Expr.call callee paren arguments).Ready q p) :
    callee.Ready q p ∧ Expr.AllReady q (p.afterExpr callee) arguments := by
  have h₁ : callee.Ready q p := h.part fun o ho => List.mem_append_left _ ho
  exact ⟨h₁, h₁.shown_after hq, h.genuine, fun o ho => h.other o (List.mem_append_right _ ho),
    fun o ho => h.sites _ (List.mem_map.mpr ⟨o, List.mem_append_right _ ho, rfl⟩)⟩

theorem Expr.AllReady.cons {e : Expr} {es : List Expr} (h : Expr.AllReady q p (e :: es)) :
    e.Ready q p ∧ Expr.AllReady q (p.afterExpr e) es := by
  have h₁ : e.Ready q p := ⟨h.shown, h.genuine, fun o ho => h.other o (List.mem_append_left _ ho),
    fun x hx => by
      obtain ⟨o, ho, rfl⟩ := List.mem_map.mp hx
      exact h.sites o (List.mem_append_left _ ho)⟩
  exact ⟨h₁, h₁.shown_after hq, h.genuine, fun o ho => h.other o (List.mem_append_right _ ho),
    fun o ho => h.sites o (List.mem_append_right _ ho)⟩

omit hq

theorem Expr.Ready.assign {id : NodeId} {name : Token} {value : Expr}
    (h : (Expr.assign id name value).Ready q p) :
    value.Ready q p ∧ q ⟨p.around, .occurrence ⟨id, .assign, name⟩⟩ :=
  ⟨h.part fun _ ho => List.mem_cons_of_mem _ ho, h.sites _ (List.mem_cons_self ..)⟩

/-! ### Statements -/

theorem Place.Regular.child (h : p.Regular) (i : Nat) : (p.child i).Regular :=
  ⟨h.shown.child i, h.regular.child i, h.settled⟩

/-- An expression that is not a superclass. -/
theorem Expr.Ready.of_settled {e : Expr} (hs : p.walk.Matches p.around)
    (hg : p.around.Genuine) (hd : p.declaring = none) (hsites : ∀ x ∈ e.sites p.around, q x) :
    e.Ready q p :=
  ⟨hs, hg, fun o _ => by simp [hd], hsites⟩

theorem Stmt.Ready.expression {e : Expr} (h : (Stmt.expression e).Ready q p) : e.Ready q p :=
  .of_settled h.place.shown h.place.regular.genuine h.place.settled h.sites

theorem Stmt.Ready.print {e : Expr} (h : (Stmt.print e).Ready q p) : e.Ready q p :=
  .of_settled h.place.shown h.place.regular.genuine h.place.settled h.sites

theorem Stmt.Ready.ret {keyword : Token} {e : Expr} (h : (Stmt.ret keyword (some e)).Ready q p) :
    e.Ready q (p.returned keyword) :=
  .of_settled (h.place.shown.of_scopes_eq (adds_return p.walk p.around keyword (some e)).2)
    h.place.regular.genuine h.place.settled fun x hx => h.sites x (List.mem_cons_of_mem _ hx)

theorem Stmt.Ready.varDecl {name : Token} {e : Expr}
    (h : (Stmt.varDecl name (some e)).Ready q p) : e.Ready q (p.initializer name) :=
  .of_settled (h.place.shown.declare h.place.regular.settled name)
    (h.place.regular.genuine.initializing h.place.regular.declares h.proper) h.place.settled
    fun x hx => h.sites x (List.mem_cons_of_mem _ hx)

theorem Stmt.Ready.block {body : List Stmt} (h : (Stmt.block body).Ready q p) :
    Stmt.AllReady q p.block 0 body :=
  ⟨⟨h.place.shown.enter .block [],
    .enter h.place.regular.genuine h.place.regular.settled .block trivial, h.place.settled⟩,
    h.proper, h.sites⟩

/-- The parameters of a function, and the body behind them. -/
theorem FunDecl.Proper.ready {f : FunDecl} (hf : f.Proper) (hs : p.walk.Matches p.around)
    (hg : p.around.Genuine) (hst : p.around.Settled) (hd : p.declaring = none) (r : Surrounding)
    (hsites : ∀ x ∈ f.sites p.around r, q x) : f.Ready q p r := by
  obtain ⟨name, params, body⟩ := f
  unfold FunDecl.Proper at hf
  have hb := Surroundings.Regular.enter hg hst (.routine r) trivial
  refine ⟨fun x hx => hsites x (List.mem_append_left _ hx), ⟨?_, hb.declareAll hf.2.1, hd⟩,
    hf.2.2, fun x hx => hsites x (List.mem_append_right _ hx)⟩
  exact (adds_params (hs.enter (.routine r) []) hb.settled params).2

/-- The site of the name that a function declares, and the function. -/
theorem Stmt.Ready.function {f : FunDecl} (h : (Stmt.function f).Ready q p) :
    q ⟨p.around, .declaration .function f.name⟩ ∧
      f.Ready q (p.declare f.name) .function := by
  have hr := h.place.regular.declare h.proper.name_isName
  have hs := h.place.shown.declareDefined h.place.regular.settled f.name
  exact ⟨h.sites _ (List.mem_cons_self ..),
    FunDecl.Proper.ready (p := p.declare f.name) h.proper hs hr.genuine hr.settled
      h.place.settled .function fun x hx => h.sites x (List.mem_cons_of_mem _ hx)⟩

include hq

theorem Stmt.Ready.loop {condition : Expr} {body : Stmt}
    (h : (Stmt.loop condition body).Ready q p) :
    condition.Ready q p ∧ body.Ready q ((p.afterExpr condition).child 0) := by
  have hc : condition.Ready q p := .of_settled h.place.shown h.place.regular.genuine
    h.place.settled fun x hx => h.sites x (List.mem_append_left _ hx)
  refine ⟨hc, ⟨?_, h.place.regular.child 0, h.place.settled⟩, h.proper.1,
    fun x hx => h.sites x (List.mem_append_right _ hx)⟩
  exact (hc.shown_after hq).child 0

theorem Stmt.Ready.condition {condition : Expr} {thenBranch : Stmt} {elseBranch : Option Stmt}
    (h : (Stmt.branch condition thenBranch elseBranch).Ready q p) :
    condition.Ready q p ∧ thenBranch.Ready q ((p.afterExpr condition).child 0) := by
  have hc : condition.Ready q p := by
    refine .of_settled h.place.shown h.place.regular.genuine h.place.settled fun x hx => ?_
    cases elseBranch with
    | none => exact h.sites x (List.mem_append_left _ hx)
    | some _ => exact h.sites x (List.mem_append_left _ (List.mem_append_left _ hx))
  refine ⟨hc, ⟨(hc.shown_after hq).child 0, h.place.regular.child 0, h.place.settled⟩, ?_,
    fun x hx => ?_⟩
  · cases elseBranch with
    | none => exact h.proper.1
    | some _ => exact h.proper.1.1
  · cases elseBranch with
    | none => exact h.sites x (List.mem_append_right _ hx)
    | some _ => exact h.sites x (List.mem_append_left _ (List.mem_append_right _ hx))

/-- Behind a ready statement that declares nothing the walk shows the same surroundings. -/
theorem Stmt.Ready.shown_after {s : Stmt} (h : s.Ready q p) :
    (s.resolve p.around.context p.walk).Matches (p.around.after s) :=
  (s.resolve_adds h.place.shown h.place.regular h.proper (h.proper_occurrences hq)).2

theorem Stmt.Ready.elseBranch {condition : Expr} {thenBranch elseBranch : Stmt}
    (h : (Stmt.branch condition thenBranch (some elseBranch)).Ready q p) :
    elseBranch.Ready q (p.elseBranch condition thenBranch) := by
  have ht := (h.condition hq).2.shown_after hq
  rw [Surroundings.after_of_none h.proper.1.2] at ht
  exact ⟨⟨ht, h.place.regular.child 1, h.place.settled⟩, h.proper.2.1,
    fun x hx => h.sites x (List.mem_append_right _ hx)⟩

theorem Stmt.AllReady.cons {i : Nat} {s : Stmt} {ss : List Stmt}
    (h : Stmt.AllReady q p i (s :: ss)) :
    s.Ready q (p.child i) ∧ Stmt.AllReady q (p.afterStmt s) (i + 1) ss := by
  have hs : s.Ready q (p.child i) := ⟨h.place.child i, h.proper.1,
    fun x hx => h.sites x (List.mem_append_left _ hx)⟩
  refine ⟨hs, ⟨?_, h.place.regular.after h.proper.1, h.place.settled⟩, h.proper.2,
    fun x hx => h.sites x (List.mem_append_right _ hx)⟩
  exact (hs.shown_after hq).of_regions_eq (p.around.regions_after_child s i).symm

/-! ### Classes -/

omit hq

/-- A superclass is a variable. -/
theorem Stmt.Proper.superclass_eq {name : Token} {e : Expr} {methods : List FunDecl}
    (h : (Stmt.classDecl name (some e) methods).Proper) : ∃ id super, e = .var id super := by
  unfold Stmt.Proper at h
  have := h.2.1 e rfl
  cases e with
  | var id super => exact ⟨id, super, rfl⟩
  | _ => exact absurd this (by simp [Expr.varToken?])

include hq in
/-- The superclass of a class, which is not the class itself. -/
theorem Stmt.Ready.superclass {name : Token} {e : Expr} {methods : List FunDecl}
    (h : (Stmt.classDecl name (some e) methods).Ready q p) : e.Ready q (p.superclass name e) := by
  have hs := h.place.shown.declareDefined h.place.regular.settled name
  obtain ⟨id, super, rfl⟩ := h.proper.superclass_eq
  have hp := h.proper
  unfold Stmt.Proper at hp
  refine ⟨?_, (h.place.regular.declare hp.1).genuine, fun o ho => ?_, fun x hx => ?_⟩
  · exact hs.of_scopes_eq (adds_inheritance _ (p.around.declare name) name (.var id super)).2
  · cases List.mem_singleton.mp ho
    have hf := (hq _ (h.sites ⟨p.around.declare name, .inheritance name super⟩
      (List.mem_cons_of_mem _ (List.mem_append_left _
        (List.mem_append_left _ (List.mem_singleton_self _)))))).faults
    intro he
    have hn : super.lexeme = name.lexeme := (Option.some.inj he).symm
    simp [Site.faults, Site.faultIf, hn] at hf
  · exact h.sites x (List.mem_cons_of_mem _ (List.mem_append_left _ (List.mem_append_right _ hx)))

theorem Stmt.Ready.methods {name : Token} {superclass : Option Expr} {methods : List FunDecl}
    (h : (Stmt.classDecl name superclass methods).Ready q p) :
    FunDecl.AllReady q (p.methods name superclass) 0 methods := by
  have hs := h.place.shown.declareDefined h.place.regular.settled name
  have hp := h.proper
  unfold Stmt.Proper at hp
  obtain ⟨hn, -, hms⟩ := hp
  have hr := h.place.regular.declare hn
  cases superclass with
  | none =>
    exact ⟨hs.enter (.receiver .rootClass) ["this"], hr.genuine.enter_receiver (by simp),
      ⟨hr.settled.enter _ _, h.place.settled⟩, hms,
      fun x hx => h.sites x (List.mem_cons_of_mem _ hx)⟩
  | some e =>
    obtain ⟨id, super, rfl⟩ := h.proper.superclass_eq
    have hi := (adds_inheritance (p.walk.declareDefined name) (p.around.declare name) name
      (.var id super)).2
    have he := (adds_var (hs.of_scopes_eq hi) ⟨p.around.routine, .subclass⟩ id super).2
    have hw := ((hs.of_scopes_eq hi).of_scopes_eq he).enter .ancestor ["super"]
    exact ⟨hw.enter (.receiver .subclass) ["this"],
      hr.genuine.enter_ancestor.enter_receiver (by simp),
      ⟨(hr.settled.enter _ _).enter _ _, h.place.settled⟩, hms,
      fun x hx => h.sites x (List.mem_cons_of_mem _ (List.mem_append_right _ hx))⟩

include hq

theorem FunDecl.AllReady.cons {i : Nat} {f : FunDecl} {fs : List FunDecl}
    (h : FunDecl.AllReady q p i (f :: fs)) :
    f.Ready q (p.child i) f.methodContext ∧
      FunDecl.AllReady q (p.afterMethod f) (i + 1) fs := by
  have hp := h.proper.1
  have ho : ∀ o ∈ f.occurrences, o.Proper := by
    intro o ho
    rw [← FunDecl.occurrences_sites (p.around.child i) f.methodContext] at ho
    obtain ⟨x, hx, hxo⟩ := List.mem_filterMap.mp ho
    exact (hq x (h.sites x (List.mem_append_left _ hx))).proper o hxo
  have hafter := (f.resolve_adds h.shown h.genuine h.settled.1
    { p.around.context with routine := f.methodContext } rfl hp ho).2
  exact ⟨FunDecl.Proper.ready (p := p.child i) hp (h.shown.child i) h.genuine h.settled.1
      h.settled.2 f.methodContext fun x hx => h.sites x (List.mem_append_left _ hx),
    ⟨hafter, h.genuine, h.settled, h.proper.2,
      fun x hx => h.sites x (List.mem_append_right _ hx)⟩⟩

end

end Lox
