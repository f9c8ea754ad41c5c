/-
The walk over a program finds what is visible.

`resolve` changes a list of scopes as it walks over a program.  Here that list is shown to hold, at
every step, what is visible in the regions around the place, so that the distances that are recorded
and the faults that are reported are those of the sites of the program.

* `Stmt.resolveList_adds` — a walk over statements adds the distances and the faults of their
  sites, and leaves the scopes that the statements behind them see;
* `resolve_perm` — the same of a whole program;
* `resolve_spec` — for a program that the parser yields, the distance of each occurrence and the
  faults are those that the regions around the sites call for.

Design notes: the walk visits an assigned value before its target, and the sites are in the order
of the text.  Distances and faults are therefore compared up to their order.
-/
import Lox.Proofs.Binding.Visibility
import Lox.Proofs.Syntax.Parsing
import Mathlib

namespace Lox

/-! ### Scopes and regions -/

/-- A scope has the names that are visible in a region, and those that are not defined are the one
in whose first initializer the place is. -/
structure Scope.Shows (s : Scope) (r : Region) : Prop where
  contains_eq : ∀ x, s.contains x = r.names.contains x
  pending_iff : ∀ x, s.find? x = some false ↔ r.pending = some x

/-- The scopes of a walk show the regions around a place, one by one. -/
def Walk.Matches (w : Walk) (a : Surroundings) : Prop :=
  List.Forall₂ Scope.Shows w.scopes a.regions

/-- What is visible in a region suits its kind; reserved words are visible as such only, and have
no initializers. -/
def Region.Genuine (r : Region) : Prop :=
  match r.opener.kind with
  | .receiver k => k ≠ .noClass ∧ r.names = [Keyword.this_.text] ∧ r.pending = none
  | .ancestor => r.names = [Keyword.super_.text] ∧ r.pending = none
  | _ => ∀ x ∈ r.names, ∀ k : Keyword, x ≠ k.text

/-- Declarations go into regions of this kind. -/
def RegionKind.Declares : RegionKind → Prop
  | .block | .routine _ => True
  | .receiver _ | .ancestor => False

/-- One more name that is an identifier leaves a region genuine. -/
theorem Region.Genuine.declare {r : Region} (hg : r.Genuine)
    (hk : r.opener.kind.Declares) {name : Token} (hn : name.IsName) (pending : Option String) :
    Region.Genuine { r with names := name.lexeme :: r.names, pending := pending } := by
  obtain ⟨⟨kind, p⟩, names, pending'⟩ := r
  have hall : (∀ x ∈ names, ∀ k : Keyword, x ≠ k.text) →
      ∀ x ∈ name.lexeme :: names, ∀ k : Keyword, x ≠ k.text := by
    intro h x hx k
    rcases List.mem_cons.mp hx with rfl | hx
    · exact hn.lexeme_ne k
    · exact h x hx k
  cases kind with
  | receiver k => exact absurd hk (by simp [RegionKind.Declares])
  | ancestor => exact absurd hk (by simp [RegionKind.Declares])
  | block => exact hall hg
  | routine s => exact hall hg

namespace Surroundings

/-- All regions around a place are genuine. -/
def Genuine (a : Surroundings) : Prop :=
  ∀ r ∈ a.regions, r.Genuine

/-- The place is in no initializer. -/
def Settled (a : Surroundings) : Prop :=
  ∀ r ∈ a.regions, r.pending = none

/-- The innermost region, if there is one, takes declarations. -/
def Declares (a : Surroundings) : Prop :=
  ∀ r ∈ a.regions.head?, r.opener.kind.Declares

/-- What surrounds a place, as far as `return`, `this` and `super` are concerned. -/
def context (a : Surroundings) : Context := ⟨a.routine, a.klass⟩

@[simp] theorem regions_child (a : Surroundings) (i : Nat) : (a.child i).regions = a.regions := rfl

@[simp] theorem regions_enter (a : Surroundings) (kind : RegionKind) (names : List String) :
    (a.enter kind names).regions = ⟨⟨kind, a.position⟩, names, none⟩ :: a.regions := rfl

@[simp] theorem context_child (a : Surroundings) (i : Nat) : (a.child i).context = a.context := rfl

@[simp] theorem klass_child (a : Surroundings) (i : Nat) : (a.child i).klass = a.klass := rfl

@[simp] theorem context_enter_block (a : Surroundings) (names : List String) :
    (a.enter .block names).context = a.context := rfl

@[simp] theorem context_enter_routine (a : Surroundings) (r : Surrounding) (names : List String) :
    (a.enter (.routine r) names).context = ⟨r, a.klass⟩ := rfl

@[simp] theorem klass_enter_receiver (a : Surroundings) (k : SurroundingClass)
    (names : List String) : (a.enter (.receiver k) names).klass = k := rfl

@[simp] theorem context_declare (a : Surroundings) (name : Token) :
    (a.declare name).context = a.context := by
  obtain ⟨position, regions⟩ := a
  cases regions with
  | nil => rfl
  | cons r outer => rfl

@[simp] theorem klass_declare (a : Surroundings) (name : Token) :
    (a.declare name).klass = a.klass :=
  congrArg Context.klass (a.context_declare name)

@[simp] theorem context_initializing (a : Surroundings) (name : Token) :
    (a.initializing name).context = a.context := by
  obtain ⟨position, regions⟩ := a
  cases regions with
  | nil => rfl
  | cons r outer =>
    unfold initializing
    simp only
    split
    · rfl
    · rfl

@[simp] theorem context_after (a : Surroundings) (s : Stmt) : (a.after s).context = a.context := by
  unfold after
  split
  · exact a.context_declare _
  · rfl

@[simp] theorem context_declareAll (a : Surroundings) (names : List Token) :
    (a.declareAll names).context = a.context := by
  induction names generalizing a with
  | nil => rfl
  | cons name names ih => exact (ih (a.declare name)).trans (a.context_declare name)

theorem Genuine.enter {a : Surroundings} (h : a.Genuine) (kind : RegionKind)
    (names : List String) (hg : Region.Genuine ⟨⟨kind, a.position⟩, names, none⟩) :
    (a.enter kind names).Genuine := by
  intro r hr
  rcases List.mem_cons.mp hr with rfl | hr
  · exact hg
  · exact h r hr

theorem Genuine.enter_receiver {a : Surroundings} (h : a.Genuine) {k : SurroundingClass}
    (hk : k ≠ .noClass) : (a.enter (.receiver k) ["this"]).Genuine :=
  h.enter (.receiver k) ["this"] ⟨hk, rfl, rfl⟩

theorem Genuine.enter_ancestor {a : Surroundings} (h : a.Genuine) :
    (a.enter .ancestor ["super"]).Genuine :=
  h.enter .ancestor ["super"] ⟨rfl, rfl⟩

theorem Settled.enter {a : Surroundings} (h : a.Settled) (kind : RegionKind)
    (names : List String) : (a.enter kind names).Settled := by
  intro r hr
  rcases List.mem_cons.mp hr with rfl | hr
  · rfl
  · exact h r hr

theorem Genuine.declare {a : Surroundings} (h : a.Genuine) (hd : a.Declares) {name : Token}
    (hn : name.IsName) : (a.declare name).Genuine := by
  obtain ⟨position, regions⟩ := a
  cases regions with
  | nil => exact h
  | cons r outer =>
    intro r' hr'
    rcases List.mem_cons.mp hr' with rfl | hr'
    · exact (h r (by simp)).declare (hd r (by simp)) hn none
    · exact h r' (List.mem_cons_of_mem _ hr')

theorem Genuine.initializing {a : Surroundings} (h : a.Genuine) (hd : a.Declares) {name : Token}
    (hn : name.IsName) : (a.initializing name).Genuine := by
  obtain ⟨position, regions⟩ := a
  unfold Surroundings.initializing
  cases regions with
  | nil => exact h
  | cons r outer =>
    simp only
    split
    · exact h
    · intro r' hr'
      rcases List.mem_cons.mp hr' with rfl | hr'
      · exact (h r (by simp)).declare (hd r (by simp)) hn _
      · exact h r' (List.mem_cons_of_mem _ hr')

theorem Settled.declare {a : Surroundings} (h : a.Settled) (name : Token) :
    (a.declare name).Settled := by
  obtain ⟨position, regions⟩ := a
  cases regions with
  | nil => exact h
  | cons r outer =>
    intro r' hr'
    rcases List.mem_cons.mp hr' with rfl | hr'
    · rfl
    · exact h r' (List.mem_cons_of_mem _ hr')

theorem Declares.declare {a : Surroundings} (hd : a.Declares) (name : Token) :
    (a.declare name).Declares := by
  obtain ⟨position, regions⟩ := a
  cases regions with
  | nil => exact hd
  | cons r outer =>
    intro r' hr'
    cases hr'
    exact hd r (by simp)

/-- What holds of the surroundings of every statement. -/
structure Regular (a : Surroundings) : Prop where
  genuine : a.Genuine
  settled : a.Settled
  declares : a.Declares

theorem Regular.top (source : Nat) : (top source).Regular :=
  ⟨by simp [Genuine, Surroundings.top], by simp [Settled, Surroundings.top],
    by simp [Declares, Surroundings.top]⟩

theorem Regular.child {a : Surroundings} (h : a.Regular) (i : Nat) : (a.child i).Regular :=
  ⟨h.genuine, h.settled, h.declares⟩

theorem Regular.declare {a : Surroundings} (h : a.Regular) {name : Token} (hn : name.IsName) :
    (a.declare name).Regular :=
  ⟨h.genuine.declare h.declares hn, h.settled.declare name, h.declares.declare name⟩

theorem Regular.after {a : Surroundings} (h : a.Regular) {s : Stmt} (hs : s.Proper) :
    (a.after s).Regular := by
  unfold Surroundings.after
  split
  · next name hn => exact h.declare (hs.declared_isName hn)
  · exact h

theorem Regular.declareAll {a : Surroundings} (h : a.Regular) {names : List Token}
    (hn : ∀ t ∈ names, t.IsName) : (a.declareAll names).Regular := by
  induction names generalizing a with
  | nil => exact h
  | cons name names ih =>
    exact ih (h.declare (hn name (by simp))) fun t ht => hn t (List.mem_cons_of_mem _ ht)

/-- A block or the body of a function begins with no names. -/
theorem Regular.enter {a : Surroundings} (hg : a.Genuine) (hs : a.Settled) (kind : RegionKind)
    (hk : kind.Declares) : (a.enter kind []).Regular := by
  refine ⟨hg.enter kind [] ?_, hs.enter kind [], ?_⟩
  · cases kind with
    | receiver k => exact absurd hk (by simp [RegionKind.Declares])
    | ancestor => exact absurd hk (by simp [RegionKind.Declares])
    | block => exact fun x hx => absurd hx (by simp)
    | routine s => exact fun x hx => absurd hx (by simp)
  · intro r hr
    cases hr
    exact hk

end Surroundings

/-! ### The walk keeps its scopes in step -/

namespace Scope

theorem shows_start (names : List String) (opener : Opener) :
    Scope.Shows (names.map fun n => (n, true)) ⟨opener, names, none⟩ := by
  refine ⟨fun x => ?_, fun x => ?_⟩
  · induction names with
    | nil => rfl
    | cons n names ih =>
      unfold NameTable.contains at ih ⊢
      by_cases h : n = x
      · simp [NameTable.find?, h]
      · simp only [List.map_cons, NameTable.find?, h, if_false]
        rw [ih]
        simp [Ne.symm h]
  · induction names with
    | nil => simp
    | cons n names ih =>
      by_cases h : n = x
      · simp [NameTable.find?, h]
      · simp only [List.map_cons, NameTable.find?, h, if_false]
        exact ih

/-- A definition makes a name visible and ends its initializer. -/
theorem Shows.define {s : Scope} {r : Region} (h : s.Shows r) {x : String}
    (hp : r.pending = none ∨ r.pending = some x) :
    Scope.Shows (s.insert x true) { r with names := x :: r.names, pending := none } := by
  refine ⟨fun y => ?_, fun y => ?_⟩
  · rw [NameTable.contains_insert, h.contains_eq y]
    simp [eq_comm]
  · rw [NameTable.find?_insert]
    by_cases hxy : x = y
    · simp [hxy]
    · rw [if_neg hxy, h.pending_iff y]
      rcases hp with hp | hp
      · simp [hp]
      · simp [hp, hxy]

/-- A declaration that is not a definition makes a name visible and begins its initializer. -/
theorem Shows.declare {s : Scope} {r : Region} (h : s.Shows r) (hp : r.pending = none)
    (x : String) :
    Scope.Shows (s.insert x false) { r with names := x :: r.names, pending := some x } := by
  refine ⟨fun y => ?_, fun y => ?_⟩
  · rw [NameTable.contains_insert, h.contains_eq y]
    simp [eq_comm]
  · rw [NameTable.find?_insert]
    by_cases hxy : x = y
    · simp [hxy]
    · rw [if_neg hxy, h.pending_iff y]
      simp [hp, hxy]

end Scope

namespace Walk.Matches

variable {w : Walk} {a : Surroundings}

theorem start (source : Nat) : Walk.start.Matches (.top source) := List.Forall₂.nil

theorem child (h : w.Matches a) (i : Nat) : w.Matches (a.child i) := h

theorem of_scopes_eq {w' : Walk} (h : w.Matches a) (he : w'.scopes = w.scopes) : w'.Matches a := by
  unfold Walk.Matches
  rw [he]
  exact h

theorem of_regions_eq {b : Surroundings} (h : w.Matches a) (he : b.regions = a.regions) :
    w.Matches b := by
  unfold Walk.Matches
  rw [he]
  exact h

theorem enter (h : w.Matches a) (kind : RegionKind) (names : List String) :
    (w.enter (names.map fun n => (n, true))).Matches (a.enter kind names) :=
  List.Forall₂.cons (Scope.shows_start names _) h

/-- The first scope with a name and the first region in which it is visible are equally far out. -/
theorem distance?_eq (h : w.Matches a) (name : String) :
    Lox.distance? w.scopes name = a.distance? name := by
  unfold Lox.distance? Surroundings.distance?
  obtain ⟨scopes, distances, faults⟩ := w
  obtain ⟨position, regions⟩ := a
  unfold Walk.Matches at h
  simp only at h ⊢
  induction h with
  | nil => rfl
  | cons hs _ ih => rw [List.findIdx?_cons, List.findIdx?_cons, hs.contains_eq, ih]

theorem isPending_eq (h : w.Matches a) (name : Token) : w.isPending name = a.isPending name := by
  obtain ⟨scopes, distances, faults⟩ := w
  obtain ⟨position, regions⟩ := a
  unfold Walk.isPending Surroundings.isPending
  cases h with
  | nil => rfl
  | cons hs _ =>
    have := hs.pending_iff name.lexeme
    rw [Bool.eq_iff_iff]
    simpa using this

/-- A name that is declared twice in a region is a fault, and stays as it was. -/
theorem declare_faults (h : w.Matches a) (name : Token) :
    (w.declare name).faults =
      Site.faultIf (a.isDeclared name) name .alreadyDeclared ++ w.faults := by
  obtain ⟨scopes, distances, faults⟩ := w
  obtain ⟨position, regions⟩ := a
  unfold Walk.declare Surroundings.isDeclared Site.faultIf
  cases h with
  | nil => rfl
  | cons hs _ =>
    simp only
    rw [hs.contains_eq]
    split
    · rfl
    · rfl

theorem declare_distances (w : Walk) (name : Token) : (w.declare name).distances = w.distances := by
  unfold Walk.declare
  split
  · rfl
  · split
    · rfl
    · rfl

theorem define_distances (w : Walk) (name : Token) : (w.define name).distances = w.distances := by
  unfold Walk.define
  split
  · rfl
  · rfl

theorem define_faults (w : Walk) (name : Token) : (w.define name).faults = w.faults := by
  unfold Walk.define
  split
  · rfl
  · rfl

/-- Declaring a name begins its first initializer. -/
theorem declare (h : w.Matches a) (hr : a.Settled) (name : Token) :
    (w.declare name).Matches (a.initializing name) := by
  obtain ⟨scopes, distances, faults⟩ := w
  obtain ⟨position, regions⟩ := a
  unfold Walk.declare Surroundings.initializing Surroundings.isDeclared
  cases h with
  | nil => exact List.Forall₂.nil
  | @cons s r scopes regions hs hss =>
    simp only
    rw [hs.contains_eq]
    split
    · exact List.Forall₂.cons hs hss
    · exact List.Forall₂.cons (hs.declare (hr r (by simp)) name.lexeme) hss

/-- Defining a name ends its initializer. -/
theorem define {name : Token} (h : w.Matches (a.initializing name)) (hr : a.Settled) :
    (w.define name).Matches (a.declare name) := by
  obtain ⟨scopes, distances, faults⟩ := w
  obtain ⟨position, regions⟩ := a
  unfold Walk.define
  unfold Walk.Matches Surroundings.initializing Surroundings.isDeclared at h
  unfold Surroundings.declare
  cases regions with
  | nil =>
    cases h
    exact List.Forall₂.nil
  | cons r outer =>
    simp only at h
    have hp := hr r (by simp)
    split at h
    · cases h with
      | cons hs hss => exact List.Forall₂.cons (hs.define (Or.inl hp)) hss
    · next hn =>
      cases h with
      | @cons s _ scopes _ hs hss =>
        refine List.Forall₂.cons ?_ hss
        have hd := hs.define (Or.inr rfl)
        refine ⟨fun x => ?_, hd.pending_iff⟩
        rw [hd.contains_eq]
        simp

theorem declareDefined (h : w.Matches a) (hr : a.Settled) (name : Token) :
    (w.declareDefined name).Matches (a.declare name) :=
  (h.declare hr name).define hr

end Walk.Matches

/-! ### What a walk adds -/

/-- A walk adds the distances and the faults of sites, in some order. -/
structure Walk.Adds (w w' : Walk) (xs : List Site) : Prop where
  distances : w'.distances.Perm (xs.filterMap Site.entry? ++ w.distances)
  faults : w'.faults.Perm (xs.flatMap Site.faults ++ w.faults)

namespace Walk.Adds

variable {w w' w'' : Walk} {xs ys : List Site}

theorem of_eq (hd : w'.distances = w.distances) (hf : w'.faults = w.faults) : w.Adds w' [] :=
  ⟨by simp [hd], by simp [hf]⟩

theorem refl (w : Walk) : w.Adds w [] := of_eq rfl rfl

theorem append (h : w.Adds w' xs) (h' : w'.Adds w'' ys) : w.Adds w'' (xs ++ ys) := by
  constructor
  · rw [List.filterMap_append, List.append_assoc]
    refine h'.distances.trans ?_
    refine (h.distances.append_left _).trans ?_
    rw [← List.append_assoc, ← List.append_assoc]
    exact List.perm_append_comm.append_right _
  · rw [List.flatMap_append, List.append_assoc]
    refine h'.faults.trans ?_
    refine (h.faults.append_left _).trans ?_
    rw [← List.append_assoc, ← List.append_assoc]
    exact List.perm_append_comm.append_right _

theorem perm (h : w.Adds w' xs) (hp : xs.Perm ys) : w.Adds w' ys :=
  ⟨h.distances.trans ((hp.filterMap _).append_right _),
    h.faults.trans ((hp.flatMap_right _).append_right _)⟩

theorem trans_eq (h : w.Adds w' xs) (hd : w''.distances = w'.distances)
    (hf : w''.faults = w'.faults) : w.Adds w'' xs := by
  have := h.append (of_eq hd hf)
  rwa [List.append_nil] at this

theorem of_append {f : Occurrence → Site} {os ps : List Occurrence}
    (h : w.Adds w' (os.map f ++ ps.map f)) : w.Adds w' ((os ++ ps).map f) := by
  rwa [List.map_append]

/-- A fault that is reported on a condition is that of one site without a distance. -/
theorem of_faults {x : Site} (hd : w'.distances = w.distances)
    (hf : w'.faults = x.faults ++ w.faults) (hx : x.entry? = none) : w.Adds w' [x] :=
  ⟨by simp [hd, hx], by simp [hf]⟩

end Walk.Adds

variable {w : Walk} {a : Surroundings}

theorem Walk.faults_record (w : Walk) (id : NodeId) (name : Token) :
    (w.record id name).faults = w.faults := by
  unfold Walk.record
  split
  · rfl
  · rfl

@[simp] theorem Walk.scopes_record (w : Walk) (id : NodeId) (name : Token) :
    (w.record id name).scopes = w.scopes := by
  unfold Walk.record
  split
  · rfl
  · rfl

/-- Recording the distance of an occurrence, behind the report of its fault. -/
theorem Walk.Adds.record {w' : Walk} (h : w'.Matches a) (o : Occurrence)
    (hd : w'.distances = w.distances)
    (hf : w'.faults = Site.faults ⟨a, .occurrence o⟩ ++ w.faults) :
    w.Adds (w'.record o.id o.token) [⟨a, .occurrence o⟩] := by
  constructor
  · unfold Walk.record
    rw [h.distance?_eq]
    have he : Site.entry? ⟨a, .occurrence o⟩ =
        (a.distance? o.token.lexeme).map fun d => (o.id, d) := rfl
    cases hx : a.distance? o.token.lexeme with
    | none => simp [he, hx, hd]
    | some d => simp [he, hx, hd]
  · rw [Walk.faults_record, hf]
    simp

/-! ### Expressions -/

theorem Region.not_contains_this {r : Region} (hg : r.Genuine)
    (hk : ∀ k, r.opener.kind ≠ .receiver k) : r.names.contains Keyword.this_.text = false := by
  obtain ⟨⟨kind, p⟩, names, pending⟩ := r
  unfold Region.Genuine at hg
  cases kind with
  | receiver k => exact absurd rfl (hk k)
  | ancestor =>
    have hn : names = [Keyword.super_.text] := hg.1
    subst hn
    exact (by decide : [Keyword.super_.text].contains Keyword.this_.text = false)
  | block => simpa using fun hm => hg _ hm .this_ rfl
  | routine s => simpa using fun hm => hg _ hm .this_ rfl

/-- Outside of classes `this` is visible nowhere. -/
theorem Surroundings.distance?_this (hr : a.Genuine) (hk : a.klass = .noClass) :
    a.distance? Keyword.this_.text = none := by
  obtain ⟨position, regions⟩ := a
  unfold Surroundings.distance?
  unfold Surroundings.klass at hk
  unfold Surroundings.Genuine at hr
  simp only at hr hk ⊢
  induction regions with
  | nil => rfl
  | cons r outer ih =>
    have hg := hr r (by simp)
    have hno : ∀ k, r.opener.kind ≠ .receiver k := by
      intro k hrk
      unfold Region.Genuine at hg
      rw [hrk] at hg
      rw [List.findSome?_cons, hrk] at hk
      exact hg.1 hk
    rw [List.findIdx?_cons, Region.not_contains_this hg hno, ih]
    · rfl
    · exact fun r' hr' => hr r' (List.mem_cons_of_mem _ hr')
    · rw [List.findSome?_cons] at hk
      split at hk
      · next s hs =>
        split at hs
        · next k hrk => exact absurd hrk (hno k)
        · cases hs
      · exact hk

theorem adds_var (hm : w.Matches a) (context : Context) (id : NodeId) (name : Token) :
    w.Adds ((Expr.var id name).resolve context w) ((Expr.var id name).sites a) ∧
      ((Expr.var id name).resolve context w).scopes = w.scopes := by
  unfold Expr.resolve
  rw [hm.isPending_eq]
  have hs : (if a.isPending name then w.report name .ownInitializer else w).scopes = w.scopes := by
    split
    · rfl
    · rfl
  refine ⟨?_, by rw [Walk.scopes_record, hs]⟩
  refine Walk.Adds.record (hm.of_scopes_eq hs) ⟨id, .variable_, name⟩ ?_ ?_
  · split
    · rfl
    · rfl
  · unfold Site.faults Site.faultIf
    simp only
    split
    · rfl
    · rfl

theorem adds_this (hm : w.Matches a) (hr : a.Genuine) {context : Context}
    (hk : context.klass = a.klass) (id : NodeId) {keyword : Token} (hw : keyword.IsWord .this_) :
    w.Adds ((Expr.thisRef id keyword).resolve context w) ((Expr.thisRef id keyword).sites a) ∧
      ((Expr.thisRef id keyword).resolve context w).scopes = w.scopes := by
  unfold Expr.resolve
  rw [hk]
  by_cases hno : a.klass = .noClass
  · rw [if_pos hno]
    refine ⟨Walk.Adds.of_faults rfl ?_ ?_, rfl⟩
    · simp [Site.faults, Site.faultIf, hno, Walk.report]
    · simp [Site.entry?, Site.occurrence?, hw.lexeme_eq, Surroundings.distance?_this hr hno]
  · rw [if_neg hno]
    refine ⟨Walk.Adds.record hm ⟨id, .this_, keyword⟩ rfl ?_, by simp⟩
    simp [Site.faults, Site.faultIf, hno]

theorem adds_super (hm : w.Matches a) {context : Context} (hk : context.klass = a.klass)
    (id : NodeId) (keyword method : Token) :
    w.Adds ((Expr.superRef id keyword method).resolve context w)
        ((Expr.superRef id keyword method).sites a) ∧
      ((Expr.superRef id keyword method).resolve context w).scopes = w.scopes := by
  unfold Expr.resolve Walk.checkSuper
  rw [hk]
  cases hc : a.klass with
  | noClass =>
    have hm' : (w.report keyword .superOutsideClass).Matches a := hm
    refine ⟨Walk.Adds.record hm' ⟨id, .super_, keyword⟩ rfl ?_, by simp [Walk.report]⟩
    simp [Site.faults, Site.faultIf, hc, Walk.report]
  | rootClass =>
    have hm' : (w.report keyword .superWithoutSuperclass).Matches a := hm
    refine ⟨Walk.Adds.record hm' ⟨id, .super_, keyword⟩ rfl ?_, by simp [Walk.report]⟩
    simp [Site.faults, Site.faultIf, hc, Walk.report]
  | subclass =>
    refine ⟨Walk.Adds.record hm ⟨id, .super_, keyword⟩ rfl ?_, by simp⟩
    simp [Site.faults, Site.faultIf, hc]

mutual

/-- A walk over an expression adds its sites and leaves the scopes as they were. -/
theorem Expr.resolve_adds {w : Walk} (hm : w.Matches a) (hr : a.Genuine) (context : Context)
    (hk : context.klass = a.klass) (e : Expr) (he : ∀ o ∈ e.occurrences, o.Proper) :
    w.Adds (e.resolve context w) (e.sites a) ∧ (e.resolve context w).scopes = w.scopes := by
  cases e with
  | assign id name value =>
    obtain ⟨h, hs⟩ := value.resolve_adds hm hr context hk fun o ho =>
      he o (List.mem_cons_of_mem _ ho)
    refine ⟨?_, by rw [Expr.resolve, Walk.scopes_record, hs]⟩
    have hown := Walk.Adds.record (hm.of_scopes_eq hs) ⟨id, .assign, name⟩ rfl rfl
    exact (h.append hown).perm List.perm_append_comm
  | binary left operator right =>
    obtain ⟨hl, hls⟩ := left.resolve_adds hm hr context hk fun o ho =>
      he o (List.mem_append_left _ ho)
    obtain ⟨hr', hrs⟩ := right.resolve_adds (hm.of_scopes_eq hls) hr context hk
      fun o ho => he o (List.mem_append_right _ ho)
    exact ⟨(hl.append hr').of_append, hrs.trans hls⟩
  | logical left operator right =>
    obtain ⟨hl, hls⟩ := left.resolve_adds hm hr context hk fun o ho =>
      he o (List.mem_append_left _ ho)
    obtain ⟨hr', hrs⟩ := right.resolve_adds (hm.of_scopes_eq hls) hr context hk
      fun o ho => he o (List.mem_append_right _ ho)
    exact ⟨(hl.append hr').of_append, hrs.trans hls⟩
  | call callee paren arguments =>
    obtain ⟨hl, hls⟩ := callee.resolve_adds hm hr context hk fun o ho =>
      he o (List.mem_append_left _ ho)
    obtain ⟨hr', hrs⟩ := Expr.resolveList_adds (hm.of_scopes_eq hls) hr context hk arguments
      fun o ho => he o (List.mem_append_right _ ho)
    exact ⟨(hl.append hr').of_append, hrs.trans hls⟩
  | set object name value =>
    -- the value is visited first and stands last
    obtain ⟨hv, hvs⟩ := value.resolve_adds hm hr context hk fun o ho =>
      he o (List.mem_append_right _ ho)
    obtain ⟨ho, hos⟩ := object.resolve_adds (hm.of_scopes_eq hvs) hr context hk
      fun o ho => he o (List.mem_append_left _ ho)
    exact ⟨((hv.append ho).perm List.perm_append_comm).of_append, hos.trans hvs⟩
  | get object name => exact object.resolve_adds hm hr context hk he
  | grouping inner => exact inner.resolve_adds hm hr context hk he
  | unary operator right => exact right.resolve_adds hm hr context hk he
  | literal value => exact ⟨Walk.Adds.refl w, rfl⟩
  | superRef id keyword method => exact adds_super hm hk id keyword method
  | thisRef id keyword =>
    exact adds_this hm hr hk id (he ⟨id, .this_, keyword⟩ (List.mem_singleton_self _))
  | var id name => exact adds_var hm context id name

/-- A walk over several expressions adds their sites and leaves the scopes as they were. -/
theorem Expr.resolveList_adds {w : Walk} (hm : w.Matches a) (hr : a.Genuine) (context : Context)
    (hk : context.klass = a.klass) (es : List Expr)
    (he : ∀ o ∈ Expr.occurrencesIn es, o.Proper) :
    w.Adds (Expr.resolveList context w es)
        ((Expr.occurrencesIn es).map fun o => ⟨a, .occurrence o⟩) ∧
      (Expr.resolveList context w es).scopes = w.scopes := by
  cases es with
  | nil => exact ⟨Walk.Adds.refl w, rfl⟩
  | cons e es =>
    obtain ⟨hl, hls⟩ := e.resolve_adds hm hr context hk fun o ho => he o (List.mem_append_left _ ho)
    obtain ⟨hr', hrs⟩ := Expr.resolveList_adds (hm.of_scopes_eq hls) hr context hk es
      fun o ho => he o (List.mem_append_right _ ho)
    exact ⟨(hl.append hr').of_append, hrs.trans hls⟩

end

theorem Expr.resolve?_adds (hm : w.Matches a) (hr : a.Genuine) (context : Context)
    (hk : context.klass = a.klass) (e : Option Expr)
    (he : ∀ o ∈ Expr.occurrencesOf? e, o.Proper) :
    w.Adds (Expr.resolve? context w e) (Expr.sites? a e) ∧
      (Expr.resolve? context w e).scopes = w.scopes := by
  cases e with
  | none => exact ⟨Walk.Adds.refl w, rfl⟩
  | some e => exact e.resolve_adds hm hr context hk he

/-! ### Statements -/

@[simp] theorem Surroundings.tail_declare (a : Surroundings) (name : Token) :
    (a.declare name).regions.tail = a.regions.tail := by
  obtain ⟨position, regions⟩ := a
  cases regions with
  | nil => rfl
  | cons r outer => rfl

@[simp] theorem Surroundings.tail_declareAll (a : Surroundings) (names : List Token) :
    (a.declareAll names).regions.tail = a.regions.tail := by
  induction names generalizing a with
  | nil => rfl
  | cons name names ih => exact (ih (a.declare name)).trans (a.tail_declare name)

@[simp] theorem Surroundings.tail_after (a : Surroundings) (ss : List Stmt) :
    (ss.foldl Surroundings.after a).regions.tail = a.regions.tail := by
  induction ss generalizing a with
  | nil => rfl
  | cons s ss ih =>
    refine (ih (a.after s)).trans ?_
    unfold Surroundings.after
    split
    · exact a.tail_declare _
    · rfl

theorem Surroundings.after_of_none {a : Surroundings} {s : Stmt} (h : s.declared? = none) :
    a.after s = a := by
  unfold Surroundings.after
  rw [h]

theorem Surroundings.regions_after_child (a : Surroundings) (s : Stmt) (i : Nat) :
    ((a.child i).after s).regions = (a.after s).regions := by
  obtain ⟨position, regions⟩ := a
  unfold Surroundings.after
  split
  · cases regions with
    | nil => rfl
    | cons r outer => rfl
  · rfl

/-- Leaving a region, whatever has been declared in it. -/
theorem Walk.Matches.leave {b : Surroundings} (h : w.Matches b)
    (hb : b.regions.tail = a.regions) : w.leave.Matches a := by
  obtain ⟨scopes, distances, faults⟩ := w
  obtain ⟨position, regions⟩ := b
  unfold Walk.Matches Walk.leave at *
  rw [← hb]
  cases h with
  | nil => exact List.Forall₂.nil
  | cons _ hss => exact hss

theorem adds_declaration (hm : w.Matches a) (hs : a.Settled) (kind : DeclarationKind)
    (name : Token) :
    w.Adds (w.declareDefined name) [⟨a, .declaration kind name⟩] ∧
      (w.declareDefined name).Matches (a.declare name) := by
  refine ⟨Walk.Adds.of_faults ?_ ?_ rfl, hm.declareDefined hs name⟩
  · exact (Walk.Matches.define_distances _ name).trans (Walk.Matches.declare_distances w name)
  · exact (Walk.Matches.define_faults _ name).trans (hm.declare_faults name)

theorem adds_params (hm : w.Matches a) (hs : a.Settled) (ps : List Token) :
    w.Adds (w.declareAll ps) (paramSites a ps) ∧ (w.declareAll ps).Matches (a.declareAll ps) := by
  induction ps generalizing w a with
  | nil => exact ⟨Walk.Adds.refl w, hm⟩
  | cons p ps ih =>
    obtain ⟨h, hm'⟩ := adds_declaration hm hs .parameter p
    obtain ⟨h', hm''⟩ := ih hm' (hs.declare p)
    exact ⟨h.append h', hm''⟩

theorem adds_return (w : Walk) (a : Surroundings) (keyword : Token) (value : Option Expr) :
    w.Adds (w.checkReturn a.context keyword value.isSome) [⟨a, .ret keyword value.isSome⟩] ∧
      (w.checkReturn a.context keyword value.isSome).scopes = w.scopes := by
  unfold Walk.checkReturn
  have hc : a.context.routine = a.routine := rfl
  rw [hc]
  cases hr : a.routine with
  | noFunction =>
    exact ⟨Walk.Adds.of_faults rfl (by simp [Site.faults, Site.faultIf, hr, Walk.report]) rfl, rfl⟩
  | initializer =>
    cases value with
    | none => exact ⟨Walk.Adds.of_faults rfl (by simp [Site.faults, Site.faultIf, hr]) rfl, rfl⟩
    | some e =>
      exact ⟨Walk.Adds.of_faults rfl (by simp [Site.faults, Site.faultIf, hr, Walk.report]) rfl,
        rfl⟩
  | function => exact ⟨Walk.Adds.of_faults rfl (by simp [Site.faults, Site.faultIf, hr]) rfl, rfl⟩
  | method => exact ⟨Walk.Adds.of_faults rfl (by simp [Site.faults, Site.faultIf, hr]) rfl, rfl⟩

theorem adds_inheritance (w : Walk) (a : Surroundings) (name : Token) (e : Expr) :
    w.Adds (w.checkSuperclass name e) (inheritanceSites a name e) ∧
      (w.checkSuperclass name e).scopes = w.scopes := by
  cases e with
  | var id super =>
    unfold Walk.checkSuperclass
    by_cases h : super.lexeme = name.lexeme
    · simp only [if_pos h]
      exact ⟨Walk.Adds.of_faults rfl (by simp [Site.faults, Site.faultIf, h, Walk.report]) rfl, rfl⟩
    · simp only [if_neg h]
      exact ⟨Walk.Adds.of_faults rfl (by simp [Site.faults, Site.faultIf, h]) rfl, trivial⟩
  | _ => exact ⟨Walk.Adds.refl w, rfl⟩

mutual

/-- A walk over a statement adds its sites, and leaves the scopes that what is behind it sees. -/
theorem Stmt.resolve_adds {w : Walk} {a : Surroundings} (hm : w.Matches a) (hr : a.Regular)
    (s : Stmt) (hp : s.Proper) (ho : ∀ o ∈ s.occurrences, o.Proper) :
    w.Adds (s.resolve a.context w) (s.sites a) ∧
      (s.resolve a.context w).Matches (a.after s) := by
  cases s with
  | block body =>
    have hr' := Surroundings.Regular.enter hr.genuine hr.settled .block trivial
    obtain ⟨h, hm'⟩ := Stmt.resolveList_adds (hm.enter .block []) hr' 0 body hp ho
    exact ⟨⟨h.distances, h.faults⟩, hm'.leave (Surroundings.tail_after _ body)⟩
  | classDecl name superclass methods =>
    unfold Stmt.Proper at hp
    obtain ⟨hn, hv, hms⟩ := hp
    obtain ⟨h, hm'⟩ := adds_declaration hm hr.settled .class_ name
    have hr' := hr.declare hn
    cases superclass with
    | none =>
      have hg := hr'.genuine.enter_receiver (k := .rootClass) (by simp)
      obtain ⟨h', hm''⟩ := FunDecl.resolveMethods_adds (hm'.enter (.receiver .rootClass) ["this"])
        hg (hr'.settled.enter _ _) ⟨a.routine, .rootClass⟩ rfl 0 methods hms ho
      exact ⟨h.append ⟨h'.distances, h'.faults⟩, hm''.leave rfl⟩
    | some e =>
      -- name, inheritance, superclass and methods are walked in the order of their sites
      obtain ⟨hi, his⟩ := adds_inheritance (w.declareDefined name) (a.declare name) name e
      obtain ⟨id, super, rfl⟩ : ∃ id super, e = .var id super := by
        have := hv e rfl
        cases e with
        | var id super => exact ⟨id, super, rfl⟩
        | _ => exact absurd this (by simp [Expr.varToken?])
      obtain ⟨he, hes⟩ := adds_var (hm'.of_scopes_eq his) ⟨a.routine, .subclass⟩ id super
      have hm₂ := ((hm'.of_scopes_eq his).of_scopes_eq hes).enter .ancestor ["super"]
      have hg₃ := hr'.genuine.enter_ancestor.enter_receiver (k := .subclass) (by simp)
      obtain ⟨h', hm''⟩ := FunDecl.resolveMethods_adds (hm₂.enter (.receiver .subclass) ["this"])
        hg₃ ((hr'.settled.enter _ _).enter _ _) ⟨a.routine, .subclass⟩ rfl 0 methods hms
        fun o hmem => ho o (List.mem_append_right _ hmem)
      exact ⟨((h.append hi).append he).append ⟨h'.distances, h'.faults⟩,
        (hm''.leave rfl).leave (a := a.declare name) rfl⟩
  | expression e =>
    obtain ⟨h, hs⟩ := e.resolve_adds hm hr.genuine a.context rfl ho
    exact ⟨h, hm.of_scopes_eq hs⟩
  | function f =>
    obtain ⟨h, hm'⟩ := adds_declaration hm hr.settled .function f.name
    have hr' := hr.declare hp.name_isName
    obtain ⟨h', hm''⟩ := FunDecl.resolve_adds hm' hr'.genuine hr'.settled
      { a.context with routine := .function } (a.klass_declare f.name).symm f hp ho
    exact ⟨h.append h', hm''⟩
  | branch condition thenBranch elseBranch =>
    have hc : ∀ o ∈ condition.occurrences, o.Proper := by
      cases elseBranch with
      | none => exact fun o hmem => ho o (List.mem_append_left _ hmem)
      | some e =>
        exact fun o hmem => ho o (List.mem_append_left _ (List.mem_append_left _ hmem))
    obtain ⟨h, hs⟩ := condition.resolve_adds hm hr.genuine a.context rfl hc
    have hm₁ := hm.of_scopes_eq hs
    cases elseBranch with
    | none =>
      obtain ⟨ht, hm₂⟩ := thenBranch.resolve_adds (hm₁.child 0) (hr.child 0) hp.1
        fun o hmem => ho o (List.mem_append_right _ hmem)
      refine ⟨h.append ht, ?_⟩
      -- a branch declares nothing that would be seen behind it
      rw [Surroundings.after_of_none hp.2] at hm₂
      exact hm₂
    | some elseBranch =>
      obtain ⟨ht, hm₂⟩ := thenBranch.resolve_adds (hm₁.child 0) (hr.child 0) hp.1.1
        fun o hmem => ho o (List.mem_append_left _ (List.mem_append_right _ hmem))
      rw [Surroundings.after_of_none hp.1.2] at hm₂
      obtain ⟨he, hm₃⟩ := elseBranch.resolve_adds (a := a.child 1) hm₂ (hr.child 1) hp.2.1
        fun o hmem => ho o (List.mem_append_right _ hmem)
      rw [Surroundings.after_of_none hp.2.2] at hm₃
      exact ⟨(h.append ht).append he, hm₃⟩
  | print e =>
    obtain ⟨h, hs⟩ := e.resolve_adds hm hr.genuine a.context rfl ho
    exact ⟨h, hm.of_scopes_eq hs⟩
  | ret keyword value =>
    obtain ⟨h, hs⟩ := adds_return w a keyword value
    obtain ⟨h', hs'⟩ := Expr.resolve?_adds (hm.of_scopes_eq hs) hr.genuine a.context rfl value ho
    exact ⟨h.append h', (hm.of_scopes_eq hs).of_scopes_eq hs'⟩
  | varDecl name initializer =>
    have hd : w.Adds (w.declare name) [⟨a, .declaration .variable_ name⟩] :=
      Walk.Adds.of_faults (Walk.Matches.declare_distances w name) (hm.declare_faults name) rfl
    -- the name is pending in its initializer, and defined behind it
    have hm' := hm.declare hr.settled name
    obtain ⟨h, hs⟩ := Expr.resolve?_adds hm' (hr.genuine.initializing hr.declares hp)
      a.context (congrArg Context.klass (a.context_initializing name)).symm
      initializer ho
    refine ⟨(hd.append h).trans_eq (Walk.Matches.define_distances _ name)
      (Walk.Matches.define_faults _ name), ?_⟩
    exact (hm'.of_scopes_eq hs).define hr.settled
  | loop condition body =>
    obtain ⟨h, hs⟩ := condition.resolve_adds hm hr.genuine a.context rfl
      fun o hmem => ho o (List.mem_append_left _ hmem)
    obtain ⟨hb, hm'⟩ := body.resolve_adds ((hm.of_scopes_eq hs).child 0) (hr.child 0) hp.1
      fun o hmem => ho o (List.mem_append_right _ hmem)
    rw [Surroundings.after_of_none hp.2] at hm'
    exact ⟨h.append hb, hm'⟩

theorem Stmt.resolveList_adds {w : Walk} {a : Surroundings} (hm : w.Matches a) (hr : a.Regular)
    (i : Nat) (ss : List Stmt) (hp : Stmt.AllProper ss)
    (ho : ∀ o ∈ Stmt.occurrencesIn ss, o.Proper) :
    w.Adds (Stmt.resolveList a.context w ss) (Stmt.sitesIn a i ss) ∧
      (Stmt.resolveList a.context w ss).Matches (ss.foldl Surroundings.after a) := by
  cases ss with
  | nil => exact ⟨Walk.Adds.refl w, hm⟩
  | cons s ss =>
    obtain ⟨h, hm'⟩ := s.resolve_adds (hm.child i) (hr.child i) hp.1
      fun o hmem => ho o (List.mem_append_left _ hmem)
    have hm₁ := hm'.of_regions_eq (a.regions_after_child s i).symm
    obtain ⟨h', hm''⟩ := Stmt.resolveList_adds hm₁ (hr.after hp.1) (i + 1) ss hp.2
      fun o hmem => ho o (List.mem_append_right _ hmem)
    rw [a.context_after s] at h' hm''
    exact ⟨h.append h', hm''⟩

theorem FunDecl.resolve_adds {w : Walk} {a : Surroundings} (hm : w.Matches a) (hg : a.Genuine)
    (hs : a.Settled) (context : Context) (hk : context.klass = a.klass) (f : FunDecl)
    (hp : f.Proper) (ho : ∀ o ∈ f.occurrences, o.Proper) :
    w.Adds (f.resolve context w) (f.sites a context.routine) ∧
      (f.resolve context w).Matches a := by
  obtain ⟨name, params, body⟩ := f
  unfold FunDecl.Proper at hp
  obtain ⟨hn, hps, hb⟩ := hp
  have hr := Surroundings.Regular.enter hg hs (.routine context.routine) trivial
  obtain ⟨h, hm'⟩ := adds_params (hm.enter (.routine context.routine) []) hr.settled params
  obtain ⟨h', hm''⟩ := Stmt.resolveList_adds hm' (hr.declareAll hps) 0 body hb ho
  have hc : ((a.enter (.routine context.routine) []).declareAll params).context = context := by
    rw [Surroundings.context_declareAll, Surroundings.context_enter_routine, ← hk]
  rw [hc] at h' hm''
  have := h.append h'
  refine ⟨⟨this.distances, this.faults⟩, hm''.leave ?_⟩
  rw [Surroundings.tail_after, Surroundings.tail_declareAll]
  rfl

theorem FunDecl.resolveMethods_adds {w : Walk} {a : Surroundings} (hm : w.Matches a)
    (hg : a.Genuine) (hs : a.Settled) (context : Context) (hk : context.klass = a.klass) (i : Nat)
    (fs : List FunDecl) (hp : FunDecl.AllProper fs)
    (ho : ∀ o ∈ FunDecl.occurrencesIn fs, o.Proper) :
    w.Adds (FunDecl.resolveMethods context w fs) (FunDecl.sitesIn a i fs) ∧
      (FunDecl.resolveMethods context w fs).Matches a := by
  cases fs with
  | nil => exact ⟨Walk.Adds.refl w, hm⟩
  | cons f fs =>
    obtain ⟨h, hm'⟩ := FunDecl.resolve_adds (hm.child i) hg hs
      { context with routine := f.methodContext } hk f hp.1
      fun o hmem => ho o (List.mem_append_left _ hmem)
    obtain ⟨h', hm''⟩ := FunDecl.resolveMethods_adds (a := a) hm' hg hs context hk (i + 1) fs hp.2
      fun o hmem => ho o (List.mem_append_right _ hmem)
    exact ⟨h.append h', hm''⟩

end

/-! ### Reserved words -/

theorem Expr.sites_genuine {a : Surroundings} (hg : a.Genuine) (e : Expr) :
    ∀ x ∈ e.sites a, x.around.Genuine := by
  intro x hx
  obtain ⟨o, -, rfl⟩ := List.mem_map.mp hx
  exact hg

theorem Expr.sites?_genuine {a : Surroundings} (hg : a.Genuine) (e : Option Expr) :
    ∀ x ∈ Expr.sites? a e, x.around.Genuine := by
  intro x hx
  obtain ⟨o, -, rfl⟩ := List.mem_map.mp hx
  exact hg

theorem inheritanceSites_genuine {a : Surroundings} (hg : a.Genuine) (name : Token) (e : Expr) :
    ∀ x ∈ inheritanceSites a name e, x.around.Genuine := by
  intro x hx
  obtain ⟨super, -, rfl⟩ := List.mem_map.mp hx
  exact hg

theorem paramSites_genuine {a : Surroundings} (hr : a.Regular) {ps : List Token}
    (hn : ∀ p ∈ ps, p.IsName) : ∀ x ∈ paramSites a ps, x.around.Genuine := by
  induction ps generalizing a with
  | nil => exact fun x hx => absurd hx (by simp [paramSites])
  | cons p ps ih =>
    intro x hx
    rcases List.mem_cons.mp hx with rfl | hx
    · exact hr.genuine
    · exact ih (hr.declare (hn p (by simp))) (fun q hq => hn q (List.mem_cons_of_mem _ hq)) x hx

mutual

/-- Around the sites of a proper program reserved words are visible as such only. -/
theorem Stmt.sites_genuine {a : Surroundings} (hr : a.Regular) (s : Stmt) (hp : s.Proper) :
    ∀ x ∈ s.sites a, x.around.Genuine := by
  intro x hx
  cases s with
  | block body =>
    exact Stmt.sitesIn_genuine (.enter hr.genuine hr.settled .block trivial) 0 body hp x hx
  | classDecl name superclass methods =>
    unfold Stmt.Proper at hp
    obtain ⟨hn, -, hms⟩ := hp
    have hr' := hr.declare hn
    cases superclass with
    | none =>
      rcases List.mem_cons.mp hx with rfl | hx
      · exact hr.genuine
      · exact FunDecl.sitesIn_genuine (hr'.genuine.enter_receiver (by simp))
          (hr'.settled.enter _ _) 0 methods hms x hx
    | some e =>
      rcases List.mem_cons.mp hx with rfl | hx
      · exact hr.genuine
      · rcases List.mem_append.mp hx with hx | hx
        · rcases List.mem_append.mp hx with hx | hx
          · exact inheritanceSites_genuine hr'.genuine name e x hx
          · exact e.sites_genuine hr'.genuine x hx
        · exact FunDecl.sitesIn_genuine
            (hr'.genuine.enter_ancestor.enter_receiver (by simp))
            ((hr'.settled.enter _ _).enter _ _) 0 methods hms x hx
  | expression e => exact e.sites_genuine hr.genuine x hx
  | function f =>
    rcases List.mem_cons.mp hx with rfl | hx
    · exact hr.genuine
    · have hr' := hr.declare hp.name_isName
      exact FunDecl.sites_genuine hr'.genuine hr'.settled .function f hp x hx
  | branch condition thenBranch elseBranch =>
    cases elseBranch with
    | none =>
      rcases List.mem_append.mp hx with hx | hx
      · exact condition.sites_genuine hr.genuine x hx
      · exact thenBranch.sites_genuine (hr.child 0) hp.1 x hx
    | some elseBranch =>
      rcases List.mem_append.mp hx with hx | hx
      · rcases List.mem_append.mp hx with hx | hx
        · exact condition.sites_genuine hr.genuine x hx
        · exact thenBranch.sites_genuine (hr.child 0) hp.1.1 x hx
      · exact elseBranch.sites_genuine (hr.child 1) hp.2.1 x hx
  | print e => exact e.sites_genuine hr.genuine x hx
  | ret keyword value =>
    rcases List.mem_cons.mp hx with rfl | hx
    · exact hr.genuine
    · exact Expr.sites?_genuine hr.genuine value x hx
  | varDecl name initializer =>
    rcases List.mem_cons.mp hx with rfl | hx
    · exact hr.genuine
    · exact Expr.sites?_genuine (hr.genuine.initializing hr.declares hp) initializer x hx
  | loop condition body =>
    rcases List.mem_append.mp hx with hx | hx
    · exact condition.sites_genuine hr.genuine x hx
    · exact body.sites_genuine (hr.child 0) hp.1 x hx

theorem Stmt.sitesIn_genuine {a : Surroundings} (hr : a.Regular) (i : Nat) (ss : List Stmt)
    (hp : Stmt.AllProper ss) : ∀ x ∈ Stmt.sitesIn a i ss, x.around.Genuine := by
  intro x hx
  cases ss with
  | nil => exact absurd hx (by simp [Stmt.sitesIn])
  | cons s ss =>
    rcases List.mem_append.mp hx with hx | hx
    · exact s.sites_genuine (hr.child i) hp.1 x hx
    · exact Stmt.sitesIn_genuine (hr.after hp.1) (i + 1) ss hp.2 x hx

theorem FunDecl.sites_genuine {a : Surroundings} (hg : a.Genuine) (hs : a.Settled)
    (r : Surrounding) (f : FunDecl) (hp : f.Proper) : ∀ x ∈ f.sites a r, x.around.Genuine := by
  intro x hx
  obtain ⟨name, params, body⟩ := f
  unfold FunDecl.Proper at hp
  have hr := Surroundings.Regular.enter hg hs (.routine r) trivial
  rcases List.mem_append.mp hx with hx | hx
  · exact paramSites_genuine hr hp.2.1 x hx
  · exact Stmt.sitesIn_genuine (hr.declareAll hp.2.1) 0 body hp.2.2 x hx

theorem FunDecl.sitesIn_genuine {a : Surroundings} (hg : a.Genuine) (hs : a.Settled) (i : Nat)
    (fs : List FunDecl) (hp : FunDecl.AllProper fs) :
    ∀ x ∈ FunDecl.sitesIn a i fs, x.around.Genuine := by
  intro x hx
  cases fs with
  | nil => exact absurd hx (by simp [FunDecl.sitesIn])
  | cons f fs =>
    rcases List.mem_append.mp hx with hx | hx
    · exact FunDecl.sites_genuine (a := a.child i) hg hs _ f hp.1 x hx
    · exact FunDecl.sitesIn_genuine hg hs (i + 1) fs hp.2 x hx

end

/-! ### Whole programs -/

/-- The distances and the faults of a proper program are those of its sites. -/
theorem resolve_perm {statements : List Stmt} (hp : Stmt.AllProper statements)
    (ho : ∀ o ∈ Stmt.occurrencesIn statements, o.Proper) (source : Nat) :
    (resolve statements).distances.Perm
        ((Stmt.sitesIn (.top source) 0 statements).filterMap Site.entry?) ∧
      (resolve statements).faults.Perm
        ((Stmt.sitesIn (.top source) 0 statements).flatMap Site.faults) := by
  obtain ⟨h, -⟩ := Stmt.resolveList_adds (Walk.Matches.start source)
    (Surroundings.Regular.top source) 0 statements hp ho
  refine ⟨?_, (List.reverse_perm _).trans ?_⟩
  · have := h.distances
    rwa [show Walk.start.distances = [] from rfl, List.append_nil] at this
  · have := h.faults
    rwa [show Walk.start.faults = [] from rfl, List.append_nil] at this

/-- If the keys differ, a node has the distance that it is listed with. -/
theorem Distances.find?_eq_some_iff {ds : Distances} (hn : (ds.map Prod.fst).Nodup) (id : NodeId)
    (d : Nat) : ds.find? id = some d ↔ (id, d) ∈ ds := by
  induction ds with
  | nil => simp
  | cons entry ds ih =>
    obtain ⟨key, distance⟩ := entry
    rw [List.map_cons, List.nodup_cons] at hn
    by_cases hk : key = id
    · subst hk
      have hd : (key, d) ∉ ds := fun hm => hn.1 (List.mem_map.mpr ⟨_, hm, rfl⟩)
      simp [Distances.find?, hd, eq_comm]
    · simp [Distances.find?, hk, Ne.symm hk, ih hn.2]

/-- The numbers of the sites with a distance are among those of the occurrences. -/
theorem keys_entries_sublist (xs : List Site) :
    ((xs.filterMap Site.entry?).map Prod.fst).Sublist
      ((xs.filterMap Site.occurrence?).map Occurrence.id) := by
  induction xs with
  | nil => exact List.Sublist.slnil
  | cons x xs ih =>
    cases ho : x.occurrence? with
    | none => simpa [Site.entry?, ho] using ih
    | some o =>
      cases hd : x.around.distance? o.token.lexeme with
      | none => simpa [Site.entry?, ho, hd] using ih.cons o.id
      | some d => simpa [Site.entry?, ho, hd] using ih

theorem Site.entry?_eq_some_iff {x : Site} {id : NodeId} {d : Nat} :
    x.entry? = some (id, d) ↔
      ∃ o, x.occurrence? = some o ∧ o.id = id ∧ x.distance? = some d := by
  unfold Site.entry? Site.distance?
  cases x.occurrence? with
  | none => simp
  | some o => simp [and_comm]

/-- If what is found at the elements of a list differs, it tells the element. -/
theorem eq_of_nodup_filterMap {α β : Type} {f : α → Option β} {xs : List α}
    (hn : (xs.filterMap f).Nodup) {x y : α} (hx : x ∈ xs) (hy : y ∈ xs) {b : β}
    (hfx : f x = some b) (hfy : f y = some b) : y = x := by
  induction xs with
  | nil => cases hx
  | cons z xs ih =>
    have hmem : ∀ {w : α}, w ∈ xs → f w = some b → b ∈ xs.filterMap f := fun hw hfw =>
      List.mem_filterMap.mpr ⟨_, hw, hfw⟩
    rcases List.mem_cons.mp hx with rfl | hx'
    · rcases List.mem_cons.mp hy with rfl | hy'
      · rfl
      · rw [List.filterMap_cons_some hfx, List.nodup_cons] at hn
        exact absurd (hmem hy' hfy) hn.1
    · rcases List.mem_cons.mp hy with rfl | hy'
      · rw [List.filterMap_cons_some hfy, List.nodup_cons] at hn
        exact absurd (hmem hx' hfx) hn.1
      · exact ih (hn.sublist ((List.sublist_cons_self z xs).filterMap f)) hx' hy'

/-- If the numbers of occurrences differ, the number of one tells its site. -/
theorem Site.eq_of_id_eq {xs : List Site}
    (hn : ((xs.filterMap Site.occurrence?).map Occurrence.id).Nodup) {x y : Site} (hx : x ∈ xs)
    (hy : y ∈ xs) {o p : Occurrence} (ho : x.occurrence? = some o) (hp : y.occurrence? = some p)
    (hid : p.id = o.id) : y = x := by
  rw [List.map_filterMap] at hn
  exact eq_of_nodup_filterMap hn hx hy (by rw [ho]; rfl) (by rw [hp, ← hid]; rfl)

/-- Sites whose occurrences have numbers of their own: each has the distance that is recorded for
its number. -/
theorem find?_entries {ds : Distances} {xs : List Site}
    (hp : ds.Perm (xs.filterMap Site.entry?))
    (hn : ((xs.filterMap Site.occurrence?).map Occurrence.id).Nodup) {x : Site} (hx : x ∈ xs)
    {o : Occurrence} (ho : x.occurrence? = some o) : ds.find? o.id = x.distance? := by
  have hkeys : (ds.map Prod.fst).Nodup :=
    (hp.map Prod.fst).nodup_iff.mpr (hn.sublist (keys_entries_sublist xs))
  refine Option.ext fun d => ?_
  rw [Distances.find?_eq_some_iff hkeys, hp.mem_iff, List.mem_filterMap]
  constructor
  · rintro ⟨y, hy, he⟩
    obtain ⟨p, hyp, hid, hd⟩ := Site.entry?_eq_some_iff.mp he
    rwa [← Site.eq_of_id_eq hn hx hy ho hyp hid]
  · intro hd
    exact ⟨x, hx, Site.entry?_eq_some_iff.mpr ⟨o, ho, rfl, hd⟩⟩

/-- What is found about the names in a program is what its sites call for. -/
structure Resolution.IsExact (found : Resolution) (xs : List Site) : Prop where
  distance : ∀ x ∈ xs, ∀ o ∈ x.occurrence?, found.distances.find? o.id = x.distance?
  entries : found.distances.Perm (xs.filterMap Site.entry?)
  faults : found.faults.Perm (xs.flatMap Site.faults)

/-- Nothing is wrong in a program if nothing is wrong at its sites. -/
theorem Resolution.IsExact.faults_eq_nil_iff {found : Resolution} {xs : List Site}
    (h : found.IsExact xs) : found.faults = [] ↔ ∀ x ∈ xs, x.faults = [] := by
  rw [← List.flatMap_eq_nil_iff]
  constructor
  · intro hf
    have hp := h.faults
    rw [hf] at hp
    exact hp.nil_eq.symm
  · intro hf
    have hp := h.faults
    rw [hf] at hp
    exact hp.eq_nil

/-- An occurrence at a site of a program that was read. -/
theorem Parse.StmtsRead.site {first next : Nat} {statements : List Stmt}
    (h : Parse.StmtsRead first statements next) {source : Nat} {x : Site}
    (hx : x ∈ Stmt.sitesIn (.top source) 0 statements) {o : Occurrence}
    (ho : x.occurrence? = some o) : first ≤ o.id ∧ o.id < next ∧ o.Proper := by
  refine h.1.2 o ?_
  rw [← Stmt.occurrences_sitesIn (.top source) 0]
  exact List.mem_filterMap.mpr ⟨x, hx, ho⟩

theorem resolve_isExact {first next : Nat} {statements : List Stmt}
    (h : Parse.StmtsRead first statements next) (source : Nat) :
    (resolve statements).IsExact (Stmt.sitesIn (.top source) 0 statements) := by
  obtain ⟨hnum, hproper⟩ := h
  obtain ⟨hd, hf⟩ := resolve_perm hproper (fun o ho => (hnum.2 o ho).2.2) source
  refine ⟨fun x hx o ho => find?_entries hd ?_ hx ho, hd, hf⟩
  rw [Stmt.occurrences_sitesIn]
  exact hnum.1

/-- For a program that the parser yields: its occurrences are those of its sites and have numbers of
their own; the distance of each is the number of regions between it and the first in which its name
is visible, and there are no other distances; and the faults are those of the sites.  A `this`
outside of classes has no distance. -/
theorem resolve_spec (text : String) (firstId : NodeId) (statements : List Stmt) (source : Nat)
    (h : (parse (scanTokens text) firstId).result = .ok statements) :
    (Stmt.sitesIn (.top source) 0 statements).filterMap Site.occurrence? =
        Stmt.occurrencesIn statements ∧
      ((Stmt.occurrencesIn statements).map Occurrence.id).Nodup ∧
      (resolve statements).IsExact (Stmt.sitesIn (.top source) 0 statements) ∧
      ∀ x ∈ Stmt.sitesIn (.top source) 0 statements, ∀ o ∈ x.occurrence?, o.kind = .this_ →
        x.around.klass = .noClass → (resolve statements).distances.find? o.id = none := by
  have hread := parse_proper (scanTokens_genuine text) h
  have hexact := resolve_isExact hread source
  refine ⟨Stmt.occurrences_sitesIn _ 0 statements, hread.1.1, hexact, ?_⟩
  intro x hx o ho hthis hclass
  have hg := Stmt.sitesIn_genuine (.top source) 0 statements hread.2 x hx
  have hword : o.token.IsWord .this_ := by
    have := (hread.site hx ho).2.2
    unfold Occurrence.Proper at this
    rwa [hthis] at this
  rw [hexact.distance x hx o ho, Site.distance?, ho]
  show x.around.distance? o.token.lexeme = none
  rw [hword.lexeme_eq]
  exact Surroundings.distance?_this hg hclass

/-- A variable of a block that reads itself in its initializer. -/
theorem resolve_spec_ownInitializer :
    (resolve
      [.block [.varDecl ⟨.identifier, "a", 1⟩ (some (.var 0 ⟨.identifier, "a", 1⟩))]]).IsExact
      (Stmt.sitesIn (.top 0) 0
        [.block [.varDecl ⟨.identifier, "a", 1⟩ (some (.var 0 ⟨.identifier, "a", 1⟩))]]) :=
  (resolve_spec "{ var a = a; }" 0 _ 0 (by cbv)).2.2.1

end Lox
