/-
Visibility of names.

What is visible at a place of a program is read off the program alone.  Around a place there are
regions: the blocks and bodies of functions that contain it, and for the methods of a class one
region for `this` and, if the class has a superclass, one around it for `super`.  In a block or a
body the names are visible of the parameters, of the declarations in front of the place, and of the
declaration that contains it.

* `Stmt.sitesIn` — the sites of a program, which are its occurrences, declarations, returns and
  superclasses, each with what surrounds it;
* `Site.distance?` — how many regions out the name of an occurrence is first visible;
* `Site.faults` — the misuse of a name or word that a site is;
* `mem_sitesIn` — a site in a list of statements stands in one of them, and sees the declarations of
  those in front of it.

Design notes: nothing here has a state.  A region names what opened it, so that the function and
the class around a place are found among the regions.
-/
import Lox.Proofs.Syntax.Proper
import Lox.Binding.Resolve

namespace Lox

/-- The kinds of region. -/
inductive RegionKind where
  | block
  /-- the parameters and the body of a function -/
  | routine (r : Surrounding)
  /-- `this`, in the methods of a class -/
  | receiver (k : SurroundingClass)
  /-- `super`, in the methods of a class with a superclass -/
  | ancestor
deriving Repr, DecidableEq

/-- Where a statement or a method stands: the source, and the way down from the whole program. -/
structure Position where
  source : Nat
  path : List Nat
deriving Repr, DecidableEq

/-- The construct that opens a region. -/
structure Opener where
  kind : RegionKind
  position : Position
deriving Repr, DecidableEq

/-- A region around a place: what opens it, the names that are visible in it, and the name of
which the place is in the first initializer. -/
structure Region where
  opener : Opener
  names : List String
  pending : Option String

/-- What surrounds a place: where it stands, and the regions around it, the innermost first. -/
structure Surroundings where
  position : Position
  regions : List Region

namespace Surroundings

/-- The surroundings of the program of a source. -/
def top (source : Nat) : Surroundings := ⟨⟨source, []⟩, []⟩

/-- The surroundings of the `i`-th part. -/
def child (a : Surroundings) (i : Nat) : Surroundings :=
  { a with position := { a.position with path := a.position.path ++ [i] } }

/-- The surroundings inside of a new region. -/
def enter (a : Surroundings) (kind : RegionKind) (names : List String) : Surroundings :=
  { a with regions := ⟨⟨kind, a.position⟩, names, none⟩ :: a.regions }

/-- The surroundings with one more name visible in the innermost region. -/
def declare (a : Surroundings) (name : Token) : Surroundings :=
  match a.regions with
  | [] => a
  | r :: outer =>
    { a with regions := { r with names := name.lexeme :: r.names, pending := none } :: outer }

/-- The name is visible in the innermost region. -/
def isDeclared (a : Surroundings) (name : Token) : Bool :=
  match a.regions with
  | [] => false
  | r :: _ => r.names.contains name.lexeme

/-- The surroundings of the initializer of a variable. -/
def initializing (a : Surroundings) (name : Token) : Surroundings :=
  match a.regions with
  | [] => a
  | r :: outer =>
    if a.isDeclared name then a
    else
      { a with
        regions :=
          { r with names := name.lexeme :: r.names, pending := some name.lexeme } :: outer }

/-- The surroundings behind a statement. -/
def after (a : Surroundings) (s : Stmt) : Surroundings :=
  match s.declared? with
  | some name => a.declare name
  | none => a

/-- The surroundings with several more names visible in the innermost region. -/
def declareAll (a : Surroundings) (names : List Token) : Surroundings :=
  names.foldl declare a

/-- How many regions out a name is first visible. -/
def distance? (a : Surroundings) (name : String) : Option Nat :=
  a.regions.findIdx? fun r => r.names.contains name

/-- The construct that opens the region a number of regions out. -/
def openerAt (a : Surroundings) (distance : Nat) : Option Opener :=
  a.regions[distance]?.map Region.opener

/-- The construct that opens the region in which a name is first visible. -/
def openerOf (a : Surroundings) (name : String) : Option Opener :=
  (a.distance? name).bind a.openerAt

/-- The place is in the first initializer of a name. -/
def isPending (a : Surroundings) (name : Token) : Bool :=
  match a.regions with
  | [] => false
  | r :: _ => r.pending == some name.lexeme

/-- The innermost function around a place. -/
def routine (a : Surroundings) : Surrounding :=
  (a.regions.findSome? fun r =>
    match r.opener.kind with
    | .routine s => some s
    | _ => none).getD .noFunction

/-- The innermost class around a place. -/
def klass (a : Surroundings) : SurroundingClass :=
  (a.regions.findSome? fun r =>
    match r.opener.kind with
    | .receiver k => some k
    | _ => none).getD .noClass

end Surroundings

/-- The kinds of declaration. -/
inductive DeclarationKind where
  | variable_
  | parameter
  | function
  | class_
deriving Repr, DecidableEq

/-- What a site is. -/
inductive Feature where
  | occurrence (o : Occurrence)
  | declaration (kind : DeclarationKind) (name : Token)
  | ret (keyword : Token) (hasValue : Bool)
  | inheritance (name superclass : Token)

/-- A site: a feature of a program with what surrounds it. -/
structure Site where
  around : Surroundings
  feature : Feature

namespace Site

/-- The occurrence at a site. -/
def occurrence? (x : Site) : Option Occurrence :=
  match x.feature with
  | .occurrence o => some o
  | _ => none

/-- How many regions out the name of an occurrence is first visible. -/
def distance? (x : Site) : Option Nat :=
  x.occurrence?.bind fun o => x.around.distance? o.token.lexeme

/-- The distance of an occurrence together with its number. -/
def entry? (x : Site) : Option (NodeId × Nat) :=
  x.occurrence?.bind fun o => (x.around.distance? o.token.lexeme).map fun d => (o.id, d)

/-- A fault at a token if a condition holds. -/
def faultIf (condition : Bool) (token : Token) (fault : BindingFault) : List Diagnostic :=
  if condition then [.binding token fault] else []

theorem faultIf_eq_nil {condition : Bool} {token : Token} {fault : BindingFault} :
    faultIf condition token fault = [] ↔ condition = false := by
  cases condition <;> simp [faultIf]

/-- The misuse of a name or word that a site is. -/
def faults (x : Site) : List Diagnostic :=
  match x.feature with
  | .occurrence o =>
    match o.kind with
    | .variable_ => faultIf (x.around.isPending o.token) o.token .ownInitializer
    | .assign => []
    | .this_ => faultIf (x.around.klass == .noClass) o.token .thisOutsideClass
    | .super_ =>
      faultIf (x.around.klass == .noClass) o.token .superOutsideClass ++
        faultIf (x.around.klass == .rootClass) o.token .superWithoutSuperclass
  | .declaration _ name => faultIf (x.around.isDeclared name) name .alreadyDeclared
  | .ret keyword hasValue =>
    faultIf (x.around.routine == .noFunction) keyword .returnAtTopLevel ++
      faultIf (x.around.routine == .initializer && hasValue) keyword .valueFromInitializer
  | .inheritance name superclass =>
    faultIf (superclass.lexeme == name.lexeme) superclass .selfInheritance

end Site

/-- The sites in an expression: all are occurrences, and all have the same surroundings. -/
def Expr.sites (a : Surroundings) (e : Expr) : List Site :=
  e.occurrences.map fun o => ⟨a, .occurrence o⟩

/-- The sites in an expression that may be absent. -/
def Expr.sites? (a : Surroundings) (e : Option Expr) : List Site :=
  (Expr.occurrencesOf? e).map fun o => ⟨a, .occurrence o⟩

/-- The sites of the parameters of a function. -/
def paramSites (a : Surroundings) : List Token → List Site
  | [] => []
  | p :: ps => ⟨a, .declaration .parameter p⟩ :: paramSites (a.declare p) ps

/-- The site of a superclass. -/
def inheritanceSites (a : Surroundings) (name : Token) (superclass : Expr) : List Site :=
  superclass.varToken?.toList.map fun super => ⟨a, .inheritance name super⟩

mutual

/-- The sites in a statement. -/
def Stmt.sites (a : Surroundings) : Stmt → List Site
  | .block body => Stmt.sitesIn (a.enter .block []) 0 body
  | .classDecl name none methods =>
    ⟨a, .declaration .class_ name⟩ ::
      FunDecl.sitesIn ((a.declare name).enter (.receiver .rootClass) ["this"]) 0 methods
  | .classDecl name (some superclass) methods =>
    ⟨a, .declaration .class_ name⟩ :: inheritanceSites (a.declare name) name superclass ++
      superclass.sites (a.declare name) ++
      FunDecl.sitesIn
        (((a.declare name).enter .ancestor ["super"]).enter (.receiver .subclass) ["this"])
        0 methods
  | .expression e => e.sites a
  | .function f => ⟨a, .declaration .function f.name⟩ :: f.sites (a.declare f.name) .function
  | .branch condition thenBranch none => condition.sites a ++ thenBranch.sites (a.child 0)
  | .branch condition thenBranch (some elseBranch) =>
    condition.sites a ++ thenBranch.sites (a.child 0) ++ elseBranch.sites (a.child 1)
  | .print e => e.sites a
  | .ret keyword value => ⟨a, .ret keyword value.isSome⟩ :: Expr.sites? a value
  | .varDecl name initializer =>
    ⟨a, .declaration .variable_ name⟩ :: Expr.sites? (a.initializing name) initializer
  | .loop condition body => condition.sites a ++ body.sites (a.child 0)

/-- The sites in a list of statements, of which the first one is the `i`-th part. -/
def Stmt.sitesIn (a : Surroundings) (i : Nat) : List Stmt → List Site
  | [] => []
  | s :: ss => s.sites (a.child i) ++ Stmt.sitesIn (a.after s) (i + 1) ss

/-- The sites in a function. -/
def FunDecl.sites (a : Surroundings) (r : Surrounding) : FunDecl → List Site
  | .mk _ params body =>
    paramSites (a.enter (.routine r) []) params ++
      Stmt.sitesIn ((a.enter (.routine r) []).declareAll params) 0 body

/-- The sites in the methods of a class, of which the first one is the `i`-th part. -/
def FunDecl.sitesIn (a : Surroundings) (i : Nat) : List FunDecl → List Site
  | [] => []
  | f :: fs => f.sites (a.child i) f.methodContext ++ FunDecl.sitesIn a (i + 1) fs

end

/-- Declarations are seen in the innermost region, the last one first. -/
theorem Surroundings.regions_declareAll {a : Surroundings} {g : Region} {outer : List Region}
    (h : a.regions = g :: outer) (hp : g.pending = none) (names : List Token) :
    (a.declareAll names).regions =
      { g with names := (names.map Token.lexeme).reverse ++ g.names } :: outer := by
  induction names generalizing a g with
  | nil => exact h
  | cons name names ih =>
    have hd : (a.declare name).regions =
        { g with names := name.lexeme :: g.names, pending := none } :: outer := by
      unfold Surroundings.declare
      rw [h]
    refine (ih hd rfl).trans ?_
    simp [hp]

/-- What is seen behind statements are the names that they declare. -/
theorem Surroundings.foldl_after (a : Surroundings) (ss : List Stmt) :
    ss.foldl Surroundings.after a = a.declareAll (ss.filterMap Stmt.declared?) := by
  induction ss generalizing a with
  | nil => rfl
  | cons s ss ih =>
    refine (ih (a.after s)).trans ?_
    unfold Surroundings.after
    cases hd : s.declared? with
    | none => rw [List.filterMap_cons_none hd]
    | some name =>
      rw [List.filterMap_cons_some hd]
      rfl

/-- A site in a list of statements stands in one of them, and sees the declarations of those in
front of it. -/
theorem mem_sitesIn (a : Surroundings) (i : Nat) (ss : List Stmt) (x : Site) :
    x ∈ Stmt.sitesIn a i ss ↔ ∃ before s behind, ss = before ++ s :: behind ∧
      x ∈ s.sites ((before.foldl Surroundings.after a).child (i + before.length)) := by
  induction ss generalizing a i with
  | nil => simp [Stmt.sitesIn]
  | cons s ss ih =>
    rw [Stmt.sitesIn, List.mem_append, ih]
    constructor
    · rintro (h | ⟨before, t, behind, rfl, h⟩)
      · exact ⟨[], s, ss, rfl, h⟩
      · refine ⟨s :: before, t, behind, rfl, ?_⟩
        rw [List.length_cons, show i + (before.length + 1) = i + 1 + before.length by omega]
        exact h
    · rintro ⟨before, t, behind, he, h⟩
      cases before with
      | nil =>
        cases he
        exact Or.inl h
      | cons u before =>
        cases he
        refine Or.inr ⟨before, t, behind, rfl, ?_⟩
        rw [List.length_cons, show i + (before.length + 1) = i + 1 + before.length by omega] at h
        exact h

/-- Each parameter is declared at a site. -/
theorem exists_paramSite {q : Site → Prop} {a : Surroundings} {ps : List Token}
    (h : ∀ x ∈ paramSites a ps, q x) : ∀ t ∈ ps, ∃ b, q ⟨b, .declaration .parameter t⟩ := by
  induction ps generalizing a with
  | nil => exact fun t ht => by cases ht
  | cons p ps ih =>
    intro t ht
    rcases List.mem_cons.mp ht with rfl | ht
    · exact ⟨a, h _ (List.mem_cons_self ..)⟩
    · exact ih (fun x hx => h x (List.mem_cons_of_mem _ hx)) t ht

/-! ### Sites and occurrences -/

theorem Expr.occurrences_sites (a : Surroundings) (e : Expr) :
    (e.sites a).filterMap Site.occurrence? = e.occurrences := by
  simp [Expr.sites, List.filterMap_map, Function.comp_def, Site.occurrence?]

theorem Expr.occurrences_sites? (a : Surroundings) (e : Option Expr) :
    (Expr.sites? a e).filterMap Site.occurrence? = Expr.occurrencesOf? e := by
  simp [Expr.sites?, List.filterMap_map, Function.comp_def, Site.occurrence?]

theorem occurrences_paramSites (a : Surroundings) (ps : List Token) :
    (paramSites a ps).filterMap Site.occurrence? = [] := by
  induction ps generalizing a with
  | nil => rfl
  | cons p ps ih => exact ih (a.declare p)

theorem occurrences_inheritanceSites (a : Surroundings) (name : Token) (e : Expr) :
    (inheritanceSites a name e).filterMap Site.occurrence? = [] := by
  simp [inheritanceSites, List.filterMap_map, Function.comp_def, Site.occurrence?]

mutual

/-- The occurrences among the sites of a statement are those of the statement. -/
theorem Stmt.occurrences_sites (a : Surroundings) (s : Stmt) :
    (s.sites a).filterMap Site.occurrence? = s.occurrences := by
  cases s with
  | block body => exact Stmt.occurrences_sitesIn (a.enter .block []) 0 body
  | classDecl name superclass methods =>
    cases superclass with
    | none => exact FunDecl.occurrences_sitesIn _ 0 methods
    | some e =>
      show (inheritanceSites (a.declare name) name e ++ e.sites (a.declare name) ++
        FunDecl.sitesIn _ 0 methods).filterMap Site.occurrence? = _
      rw [List.filterMap_append, List.filterMap_append, occurrences_inheritanceSites,
        Expr.occurrences_sites, FunDecl.occurrences_sitesIn _ 0 methods]
      rfl
  | expression e => exact e.occurrences_sites a
  | function f => exact FunDecl.occurrences_sites (a.declare f.name) .function f
  | branch condition thenBranch elseBranch =>
    cases elseBranch with
    | none =>
      rw [Stmt.sites, List.filterMap_append, Expr.occurrences_sites,
        Stmt.occurrences_sites (a.child 0) thenBranch]
      rfl
    | some elseBranch =>
      rw [Stmt.sites, List.filterMap_append, List.filterMap_append, Expr.occurrences_sites,
        Stmt.occurrences_sites (a.child 0) thenBranch,
        Stmt.occurrences_sites (a.child 1) elseBranch]
      rfl
  | print e => exact e.occurrences_sites a
  | ret keyword value => exact Expr.occurrences_sites? a value
  | varDecl name initializer => exact Expr.occurrences_sites? (a.initializing name) initializer
  | loop condition body =>
    rw [Stmt.sites, List.filterMap_append, Expr.occurrences_sites,
      Stmt.occurrences_sites (a.child 0) body]
    rfl

theorem Stmt.occurrences_sitesIn (a : Surroundings) (i : Nat) (ss : List Stmt) :
    (Stmt.sitesIn a i ss).filterMap Site.occurrence? = Stmt.occurrencesIn ss := by
  cases ss with
  | nil => rfl
  | cons s ss =>
    rw [Stmt.sitesIn, List.filterMap_append, Stmt.occurrences_sites (a.child i) s,
      Stmt.occurrences_sitesIn (a.after s) (i + 1) ss]
    rfl

theorem FunDecl.occurrences_sites (a : Surroundings) (r : Surrounding) (f : FunDecl) :
    (f.sites a r).filterMap Site.occurrence? = f.occurrences := by
  cases f with
  | mk name params body =>
    rw [FunDecl.sites, List.filterMap_append, occurrences_paramSites,
      Stmt.occurrences_sitesIn _ 0 body]
    rfl

theorem FunDecl.occurrences_sitesIn (a : Surroundings) (i : Nat) (fs : List FunDecl) :
    (FunDecl.sitesIn a i fs).filterMap Site.occurrence? = FunDecl.occurrencesIn fs := by
  cases fs with
  | nil => rfl
  | cons f fs =>
    rw [FunDecl.sitesIn, List.filterMap_append, FunDecl.occurrences_sites (a.child i) _ f,
      FunDecl.occurrences_sitesIn a (i + 1) fs]
    rfl

end

end Lox
