/-
Bindings of what is written.

In what is written a `for` loop has a scope for its initializer and none for its turns.  The tree
that runs has one scope more, around each turn that ends with an increment, so that a binding may be
farther out.  No name is ever declared in that scope.

* `Written.resolve` — finds the bindings in a statement as it is written;
* `Layer`, `Written.loci` — the scopes around each occurrence, and which of them the tree alone has;
* `Shifts` — how far out a scope is in the tree, and in what is written;
* `Walk.Advances` — two walks that go through a tree and through what is written;
* `Parse.StmtsRead.placed` — each occurrence of a program has the same binding in both.

Design notes: the frame around a scope of methods holds `super`, and that of the scope holds `this`.
`super.method` reads both, so it is said of layers that one of them stands inside of the other
(`Seated`).
-/
import Lox.Proofs.Binding.Resolution
import Lox.Proofs.Syntax.Written

namespace Lox

/-! ### Finding bindings -/

mutual

/-- Finds the bindings in a statement as it is written.  A `for` loop has one scope if it has an
initializer, and none otherwise. -/
def Written.resolve (context : Context) (w : Walk) : Written → Walk
  | .block body => (Written.resolveList context (w.enter []) body).leave
  | .classDecl name none methods =>
    (WrittenFunction.resolveMethods { context with klass := .rootClass }
      ((w.declareDefined name).enter [("this", true)]) methods).leave
  | .classDecl name (some superclass) methods =>
    let inner := { context with klass := .subclass }
    let w := superclass.resolve inner ((w.declareDefined name).checkSuperclass name superclass)
    let w := (w.enter [("super", true)]).enter [("this", true)]
    (WrittenFunction.resolveMethods inner w methods).leave.leave
  | .expression e => e.resolve context w
  | .function f => f.resolve { context with routine := .function } (w.declareDefined f.name)
  | .branch condition thenBranch none => thenBranch.resolve context (condition.resolve context w)
  | .branch condition thenBranch (some elseBranch) =>
    elseBranch.resolve context (thenBranch.resolve context (condition.resolve context w))
  | .print e => e.resolve context w
  | .ret keyword value =>
    Expr.resolve? context (w.checkReturn context keyword value.isSome) value
  | .varDecl name initializer => (Expr.resolve? context (w.declare name) initializer).define name
  | .loop condition body => body.resolve context (condition.resolve context w)
  | .forLoop none condition increment body =>
    Expr.resolve? context (body.resolve context (Expr.resolve? context w condition)) increment
  | .forLoop (some s) condition increment body =>
    let w := s.resolve context (w.enter [])
    let w := body.resolve context (Expr.resolve? context w condition)
    (Expr.resolve? context w increment).leave

/-- Finds the bindings in a list of statements. -/
def Written.resolveList (context : Context) (w : Walk) : List Written → Walk
  | [] => w
  | s :: ss => Written.resolveList context (s.resolve context w) ss

/-- Finds the bindings in a function: its parameters and its body are in one scope. -/
def WrittenFunction.resolve (context : Context) (w : Walk) : WrittenFunction → Walk
  | .mk _ params body => (Written.resolveList context ((w.enter []).declareAll params) body).leave

/-- Finds the bindings in the methods of a class. -/
def WrittenFunction.resolveMethods (context : Context) (w : Walk) : List WrittenFunction → Walk
  | [] => w
  | f :: fs =>
    WrittenFunction.resolveMethods context
      (f.resolve { context with routine := f.tree.methodContext } w) fs

end

/-- The distances in a program as it is written. -/
def Written.distances (program : List Written) : Distances :=
  (Written.resolveList .top .start program).distances

/-! ### Layers -/

/-- A scope around an occurrence. -/
inductive Layer where
  /-- of a block, a function, an initializer or the methods of a class -/
  | shared
  /-- of `super`, right around that of the methods -/
  | ancestor
  /-- of a turn of a loop, in the tree alone -/
  | extra
deriving DecidableEq

/-- An occurrence and the layers around it, the innermost first. -/
structure Locus where
  occurrence : Occurrence
  layers : List Layer

namespace Locus

/-- The number of the node. -/
def id (m : Locus) : NodeId :=
  m.occurrence.id

/-- Occurrences in the same layers. -/
def all (σ : List Layer) (os : List Occurrence) : List Locus :=
  os.map fun o => ⟨o, σ⟩

@[simp] theorem all_append (σ : List Layer) (os ps : List Occurrence) :
    all σ (os ++ ps) = all σ os ++ all σ ps := List.map_append

@[simp] theorem occurrence_all (σ : List Layer) (os : List Occurrence) :
    (all σ os).map Locus.occurrence = os := by
  unfold all
  rw [List.map_map]
  exact List.map_id' os

end Locus

/-- The layers around a loop behind its initializer. -/
def loopLayers (σ : List Layer) : (initializer : Option Written) → List Layer
  | none => σ
  | some _ => .shared :: σ

/-- The layers around a turn of a loop. -/
def turnLayers (σ : List Layer) : (increment : Option Expr) → List Layer
  | none => σ
  | some _ => .extra :: σ

/-- The layers around the methods of a class. -/
def methodLayers (σ : List Layer) : (superclass : Option Expr) → List Layer
  | none => .shared :: σ
  | some _ => .shared :: .ancestor :: σ

mutual

/-- The occurrences in a statement with the layers around them. -/
def Written.loci (σ : List Layer) : Written → List Locus
  | .block body => Written.lociIn (.shared :: σ) body
  | .classDecl _ superclass methods =>
    Locus.all σ (Expr.occurrencesOf? superclass) ++
      WrittenFunction.lociIn (methodLayers σ superclass) methods
  | .expression e => Locus.all σ e.occurrences
  | .function f => f.loci σ
  | .branch condition thenBranch none => Locus.all σ condition.occurrences ++ thenBranch.loci σ
  | .branch condition thenBranch (some elseBranch) =>
    Locus.all σ condition.occurrences ++ thenBranch.loci σ ++ elseBranch.loci σ
  | .print e => Locus.all σ e.occurrences
  | .ret _ value => Locus.all σ (Expr.occurrencesOf? value)
  | .varDecl _ initializer => Locus.all σ (Expr.occurrencesOf? initializer)
  | .loop condition body => Locus.all σ condition.occurrences ++ body.loci σ
  | .forLoop none condition increment body =>
    let τ := turnLayers σ increment
    Locus.all σ (Expr.occurrencesOf? condition) ++
      (body.loci τ ++ Locus.all τ (Expr.occurrencesOf? increment))
  | .forLoop (some s) condition increment body =>
    let τ := turnLayers (.shared :: σ) increment
    s.loci (.shared :: σ) ++ (Locus.all (.shared :: σ) (Expr.occurrencesOf? condition) ++
      (body.loci τ ++ Locus.all τ (Expr.occurrencesOf? increment)))

/-- The occurrences in a list of statements with the layers around them. -/
def Written.lociIn (σ : List Layer) : List Written → List Locus
  | [] => []
  | s :: ss => s.loci σ ++ Written.lociIn σ ss

/-- The occurrences in a function with the layers around them. -/
def WrittenFunction.loci (σ : List Layer) : WrittenFunction → List Locus
  | .mk _ _ body => Written.lociIn (.shared :: σ) body

/-- The occurrences in a list of functions with the layers around them. -/
def WrittenFunction.lociIn (σ : List Layer) : List WrittenFunction → List Locus
  | [] => []
  | f :: fs => f.loci σ ++ WrittenFunction.lociIn σ fs

end

mutual

/-- The loci are those of the occurrences in the tree. -/
theorem Written.occurrence_loci (σ : List Layer) (s : Written) :
    (s.loci σ).map Locus.occurrence = s.tree.occurrences := by
  cases s with
  | block body => exact Written.occurrence_lociIn _ body
  | classDecl name superclass methods =>
    simp [Written.loci, Written.tree, Stmt.occurrences, WrittenFunction.occurrence_lociIn]
  | expression e => simp [Written.loci, Written.tree, Stmt.occurrences]
  | function f => exact f.occurrence_loci σ
  | branch condition thenBranch elseBranch =>
    cases elseBranch with
    | none => simp [Written.loci, Written.tree, Stmt.occurrences, thenBranch.occurrence_loci]
    | some elseBranch =>
      simp [Written.loci, Written.tree, Stmt.occurrences, thenBranch.occurrence_loci,
        elseBranch.occurrence_loci]
  | print e => simp [Written.loci, Written.tree, Stmt.occurrences]
  | ret keyword value => simp [Written.loci, Written.tree, Stmt.occurrences]
  | varDecl name initializer => simp [Written.loci, Written.tree, Stmt.occurrences]
  | loop condition body =>
    simp [Written.loci, Written.tree, Stmt.occurrences, body.occurrence_loci]
  | forLoop initializer condition increment body =>
    cases initializer with
    | none =>
      simp [Written.loci, Written.tree, Stmt.occurrences_forLoop, body.occurrence_loci]
    | some s =>
      simp [Written.loci, Written.tree, Stmt.occurrences_forLoop, body.occurrence_loci,
        s.occurrence_loci]

theorem Written.occurrence_lociIn (σ : List Layer) (ss : List Written) :
    (Written.lociIn σ ss).map Locus.occurrence = Stmt.occurrencesIn (Written.trees ss) := by
  cases ss with
  | nil => rfl
  | cons s ss =>
    simp [Written.lociIn, Written.trees, Stmt.occurrencesIn, s.occurrence_loci,
      Written.occurrence_lociIn σ ss]

theorem WrittenFunction.occurrence_loci (σ : List Layer) (f : WrittenFunction) :
    (f.loci σ).map Locus.occurrence = f.tree.occurrences := by
  cases f with
  | mk name params body => exact Written.occurrence_lociIn _ body

theorem WrittenFunction.occurrence_lociIn (σ : List Layer) (fs : List WrittenFunction) :
    (WrittenFunction.lociIn σ fs).map Locus.occurrence =
      FunDecl.occurrencesIn (WrittenFunction.trees fs) := by
  cases fs with
  | nil => rfl
  | cons f fs =>
    simp [WrittenFunction.lociIn, WrittenFunction.trees, FunDecl.occurrencesIn,
      f.occurrence_loci, WrittenFunction.occurrence_lociIn σ fs]

end

theorem WrittenFunction.loci_eq (σ : List Layer) (f : WrittenFunction) :
    f.loci σ = Written.lociIn (.shared :: σ) f.body := by
  cases f
  rfl

theorem Written.mem_lociIn {σ : List Layer} {ss : List Written} {s : Written} (hs : s ∈ ss)
    {m : Locus} (hm : m ∈ s.loci σ) : m ∈ Written.lociIn σ ss := by
  induction ss with
  | nil => cases hs
  | cons t ts ih =>
    rcases List.mem_cons.mp hs with rfl | hs
    · exact List.mem_append_left _ hm
    · exact List.mem_append_right _ (ih hs)

theorem WrittenFunction.mem_lociIn {σ : List Layer} {fs : List WrittenFunction}
    {f : WrittenFunction} (hf : f ∈ fs) {m : Locus} (hm : m ∈ f.loci σ) :
    m ∈ WrittenFunction.lociIn σ fs := by
  induction fs with
  | nil => cases hf
  | cons g gs ih =>
    rcases List.mem_cons.mp hf with rfl | hf
    · exact List.mem_append_left _ hm
    · exact List.mem_append_right _ (ih hf)

/-- Each scope of `super` stands right around a scope of methods. -/
inductive Seated : List Layer → Prop where
  | nil : Seated []
  | shared {σ : List Layer} (h : Seated σ) : Seated (.shared :: σ)
  | extra {σ : List Layer} (h : Seated σ) : Seated (.extra :: σ)
  | methods {σ : List Layer} (h : Seated σ) : Seated (.shared :: .ancestor :: σ)

theorem Seated.turn {σ : List Layer} (h : Seated σ) (increment : Option Expr) :
    Seated (turnLayers σ increment) := by
  cases increment with
  | none => exact h
  | some e => exact .extra h

/-- A declaration may stand here: names are never declared in the scope of a turn. -/
def Admits (σ : List Layer) (declared : Option Token) : Prop :=
  declared = none ∨ σ.head? ≠ some .extra

theorem Admits.shared (σ : List Layer) (declared : Option Token) :
    Admits (.shared :: σ) declared := Or.inr (by simp)

/-! ### Distances -/

/-- A scope that is `d` scopes out in the tree is `d'` scopes out in what is written; it is of the
given kind. -/
inductive Shifts (l : Layer) : List Layer → (d d' : Nat) → Prop where
  | here (σ : List Layer) : Shifts l (l :: σ) 0 0
  | both {k : Layer} {σ : List Layer} {d d' : Nat} (hk : k ≠ .extra) (h : Shifts l σ d d') :
    Shifts l (k :: σ) (d + 1) (d' + 1)
  | extra {σ : List Layer} {d d' : Nat} (h : Shifts l σ d d') :
    Shifts l (.extra :: σ) (d + 1) d'

/-- The scope of `this` is one scope closer than that of `super`. -/
theorem Shifts.receiver {σ : List Layer} (hσ : Seated σ) {d d' : Nat}
    (h : Shifts .ancestor σ d d') : ∃ e e', d = e + 1 ∧ d' = e' + 1 ∧ Shifts .shared σ e e' := by
  induction hσ generalizing d d' with
  | nil => cases h
  | shared _ ih =>
    cases h with
    | both hk h =>
      obtain ⟨e, e', rfl, rfl, h'⟩ := ih h
      exact ⟨_, _, rfl, rfl, .both hk h'⟩
  | extra _ ih =>
    cases h with
    | both hk h => exact absurd rfl hk
    | extra h =>
      obtain ⟨e, e', rfl, rfl, h'⟩ := ih h
      exact ⟨_, _, rfl, rfl, .extra h'⟩
  | methods _ ih =>
    cases h with
    | both hk h =>
      cases h with
      | here σ => exact ⟨_, _, rfl, rfl, .here _⟩
      | both hk' h =>
        obtain ⟨e, e', rfl, rfl, h'⟩ := ih h
        exact ⟨_, _, rfl, rfl, .both hk (.both hk' h')⟩

/-- The kind of scope in which the binding of an occurrence is. -/
def Occurrence.layer (o : Occurrence) : Layer :=
  if o.kind = .super_ then .ancestor else .shared

/-- The distances of the tree and of what is written lead an occurrence to the same binding. -/
structure Locus.Placed (ds ds' : Distances) (m : Locus) : Prop where
  seated : Seated m.layers
  shifts : Option.Rel (Shifts m.occurrence.layer m.layers) (ds.find? m.id) (ds'.find? m.id)

/-- The scopes around a place in the tree, and around the place in what is written. -/
inductive InLayers : List Layer → (scopes scopes' : List Scope) → Prop where
  | nil : InLayers [] [] []
  | shared {σ : List Layer} {S S' : List Scope} {s : Scope} (hs : s.contains "super" = false)
    (h : InLayers σ S S') : InLayers (.shared :: σ) (s :: S) (s :: S')
  | ancestor {σ : List Layer} {S S' : List Scope} (h : InLayers σ S S') :
    InLayers (.ancestor :: σ) ([("super", true)] :: S) ([("super", true)] :: S')
  | extra {σ : List Layer} {S S' : List Scope} (h : InLayers σ S S') :
    InLayers (.extra :: σ) ([] :: S) S'

theorem distance?_cons (s : Scope) (S : List Scope) (x : String) :
    distance? (s :: S) x = if s.contains x then some 0 else (distance? S x).map (· + 1) :=
  List.findIdx?_cons

namespace InLayers

variable {σ : List Layer} {S S' : List Scope} {l : Layer} {x : String}

/-- One scope farther out on both sides. -/
theorem rel_both {k : Layer} (hk : k ≠ .extra) {a b : Option Nat}
    (h : Option.Rel (Shifts l σ) a b) :
    Option.Rel (Shifts l (k :: σ)) (a.map (· + 1)) (b.map (· + 1)) := by
  cases h with
  | none => exact .none
  | some h => exact .some (.both hk h)

/-- A name is found in the same scope on both sides. -/
theorem distance? (h : InLayers σ S S') (hl : l = if x = "super" then .ancestor else .shared) :
    Option.Rel (Shifts l σ) (distance? S x) (distance? S' x) := by
  induction h with
  | nil => exact .none
  | @shared σ S S' s hs h ih =>
    rw [distance?_cons, distance?_cons]
    by_cases hx : s.contains x = true
    · have hne : x ≠ "super" := by
        rintro rfl
        rw [hs] at hx
        cases hx
      rw [if_pos hx, if_pos hx, hl, if_neg hne]
      exact .some (.here σ)
    · rw [if_neg hx, if_neg hx]
      exact rel_both (by decide) ih
  | @ancestor σ S S' h ih =>
    rw [distance?_cons, distance?_cons]
    by_cases hx : x = "super"
    · subst hx
      rw [if_pos (by decide), if_pos (by decide), hl, if_pos rfl]
      exact .some (.here σ)
    · have hc : ¬ NameTable.contains [("super", true)] x = true := by
        simp [NameTable.contains, NameTable.find?, Ne.symm hx]
      rw [if_neg hc, if_neg hc]
      exact rel_both (by decide) ih
  | @extra σ S S' h ih =>
    -- the scope of a turn has no names: the search goes on behind it, on the side of the tree alone
    rw [distance?_cons, if_neg (by simp [NameTable.contains])]
    cases hd : Lox.distance? S x with
    | none =>
      rw [hd] at ih
      cases hd' : Lox.distance? S' x with
      | none => exact .none
      | some d' =>
        rw [hd'] at ih
        cases ih
    | some d =>
      rw [hd] at ih
      cases hd' : Lox.distance? S' x with
      | none =>
        rw [hd'] at ih
        cases ih
      | some d' =>
        rw [hd'] at ih
        cases ih with
        | some h => exact .some (.extra h)

/-- A scope of both sides may get a name that is not `super`. -/
theorem insert (h : InLayers (.shared :: σ) S S') (hx : x ≠ "super") (b : Bool) :
    ∃ s T T', S = s :: T ∧ S' = s :: T' ∧ InLayers (.shared :: σ) (s.insert x b :: T)
      (s.insert x b :: T') := by
  cases h with
  | @shared σ T T' s hs h =>
    have hs' : (s.insert x b).contains "super" = false := by
      rw [NameTable.contains_insert, hs]
      simp [hx]
    exact ⟨s, T, T', rfl, rfl, .shared hs' h⟩

theorem tail (h : InLayers (.shared :: σ) S S') : InLayers σ S.tail S'.tail := by
  cases h with
  | shared _ h => exact h

theorem tail_ancestor (h : InLayers (.ancestor :: σ) S S') : InLayers σ S.tail S'.tail := by
  cases h with
  | ancestor h => exact h

theorem tail_extra (h : InLayers (.extra :: σ) S S') : InLayers σ S.tail S' := by
  cases h with
  | extra h => exact h

end InLayers

/-! ### Walks -/

theorem Walk.find?_record (w : Walk) (id : NodeId) (name : Token) (other : NodeId) :
    (w.record id name).distances.find? other =
      if id = other then (distance? w.scopes name.lexeme).or (w.distances.find? other)
      else w.distances.find? other := by
  unfold Walk.record
  cases distance? w.scopes name.lexeme with
  | none => simp
  | some d =>
    by_cases h : id = other
    · simp [Distances.find?, h]
    · simp [Distances.find?, h]

/-- The kind of scope that a proper occurrence names. -/
theorem Occurrence.Proper.layer_eq {o : Occurrence} (h : o.Proper) :
    o.layer = if o.token.lexeme = "super" then .ancestor else .shared := by
  obtain ⟨id, kind, token⟩ := o
  unfold Occurrence.Proper at h
  unfold Occurrence.layer
  cases kind with
  | variable_ =>
    have hne : token.lexeme ≠ "super" := h.lexeme_ne .super_
    rw [if_neg nofun, if_neg hne]
  | assign =>
    have hne : token.lexeme ≠ "super" := h.lexeme_ne .super_
    rw [if_neg nofun, if_neg hne]
  | this_ =>
    have hne : token.lexeme ≠ "super" := by
      rw [h.lexeme_eq]
      decide
    rw [if_neg nofun, if_neg hne]
  | super_ =>
    have heq : token.lexeme = "super" := h.lexeme_eq
    rw [if_pos rfl, if_pos heq]

/-- A walk that has only reported faults. -/
structure Walk.Still (w v : Walk) : Prop where
  scopes : v.scopes = w.scopes
  distances : v.distances = w.distances

theorem Walk.report_still (w : Walk) (token : Token) (fault : BindingFault) :
    w.Still (w.report token fault) := ⟨rfl, rfl⟩

theorem Walk.checkSuper_still (w : Walk) (context : Context) (keyword : Token) :
    w.Still (w.checkSuper context keyword) := by
  unfold Walk.checkSuper
  split
  · exact w.report_still ..
  · exact w.report_still ..
  · exact ⟨rfl, rfl⟩

theorem Walk.checkReturn_still (w : Walk) (context : Context) (keyword : Token)
    (hasValue : Bool) : w.Still (w.checkReturn context keyword hasValue) := by
  unfold Walk.checkReturn
  split
  · exact w.report_still ..
  · split
    · exact w.report_still ..
    · exact ⟨rfl, rfl⟩
  · exact ⟨rfl, rfl⟩

theorem Walk.checkSuperclass_still (w : Walk) (name : Token) (e : Expr) :
    w.Still (w.checkSuperclass name e) := by
  unfold Walk.checkSuperclass
  split
  · split
    · exact w.report_still ..
    · exact ⟨rfl, rfl⟩
  · exact ⟨rfl, rfl⟩

theorem Walk.pending_still (w : Walk) (name : Token) (fault : BindingFault) :
    w.Still (if w.isPending name then w.report name fault else w) := by
  split
  · exact w.report_still ..
  · exact ⟨rfl, rfl⟩

/-- Two walks, through a tree and through what is written: so far the occurrences have the same
bindings, and no others are known. -/
structure Walk.Abreast (σ : List Layer) (known : List Locus) (w w' : Walk) : Prop where
  layered : InLayers σ w.scopes w'.scopes
  placed : ∀ m ∈ known, m.Placed w.distances w'.distances
  fresh : ∀ id, id ∉ known.map Locus.id →
    w.distances.find? id = none ∧ w'.distances.find? id = none

theorem Walk.Abreast.of_mem {σ : List Layer} {known known' : List Locus} {w w' : Walk}
    (h : Abreast σ known w w') (hk : ∀ m, m ∈ known ↔ m ∈ known') : Abreast σ known' w w' := by
  refine ⟨h.layered, fun m hm => h.placed m ((hk m).mpr hm), fun id hid => h.fresh id ?_⟩
  intro hmem
  obtain ⟨m, hm, rfl⟩ := List.mem_map.mp hmem
  exact hid (List.mem_map_of_mem ((hk m).mp hm))

/-- Walks that are abreast still are when both have met the loci. -/
def Walk.Advances (σ τ : List Layer) (ms : List Locus) (w w' v v' : Walk) : Prop :=
  ∀ known, ((known ++ ms).map Locus.id).Nodup → (∀ m ∈ ms, m.occurrence.Proper) →
    Walk.Abreast σ known w w' → Walk.Abreast τ (known ++ ms) v v'

namespace Walk.Advances

variable {σ τ υ : List Layer} {ms ns : List Locus} {w w' v v' u u' : Walk}

theorem trans (h : Advances σ τ ms w w' v v') (h' : Advances τ υ ns v v' u u') :
    Advances σ υ (ms ++ ns) w w' u u' := by
  intro known hn hp hw
  rw [← List.append_assoc] at hn ⊢
  have hms := hn.sublist ((List.sublist_append_left (known ++ ms) ns).map Locus.id)
  have hv := h known hms (fun m hm => hp m (List.mem_append_left _ hm)) hw
  exact h' (known ++ ms) hn (fun m hm => hp m (List.mem_append_right _ hm)) hv

theorem perm (h : Advances σ τ ms w w' v v') (hp : ms.Perm ns) :
    Advances σ τ ns w w' v v' := by
  intro known hn hproper hw
  have hperm := hp.append_left known
  have hv := h known ((hperm.map Locus.id).nodup_iff.mpr hn)
    (fun m hm => hproper m (hp.mem_iff.mp hm)) hw
  exact hv.of_mem fun m => hperm.mem_iff

/-- A change of the scopes alone. -/
theorem of_scopes (hd : v.distances = w.distances) (hd' : v'.distances = w'.distances)
    (h : InLayers σ w.scopes w'.scopes → InLayers τ v.scopes v'.scopes) :
    Advances σ τ [] w w' v v' := by
  intro known hn hp hw
  rw [List.append_nil]
  refine ⟨h hw.layered, ?_, ?_⟩
  · rw [hd, hd']
    exact hw.placed
  · rw [hd, hd']
    exact hw.fresh

theorem refl (w w' : Walk) : Advances σ σ [] w w' w w' := of_scopes rfl rfl id

/-- Nothing is met before. -/
theorem after (h : Advances σ τ [] w w' v v') (h' : Advances τ υ ms v v' u u') :
    Advances σ υ ms w w' u u' := h.trans h'

/-- Nothing is met behind. -/
theorem before (h : Advances σ τ ms w w' v v') (h' : Advances τ υ [] v v' u u') :
    Advances σ υ ms w w' u u' := by
  have hall := h.trans h'
  rwa [List.append_nil] at hall

/-! ### Scopes -/

theorem enter {s : Scope} (hs : s.contains "super" = false) :
    Advances σ (.shared :: σ) [] w w' (w.enter s) (w'.enter s) :=
  of_scopes rfl rfl fun h => .shared hs h

/-- The scopes of a class with a superclass. -/
theorem enterMethods :
    Advances σ (.shared :: .ancestor :: σ) [] w w'
      ((w.enter [("super", true)]).enter [("this", true)])
      ((w'.enter [("super", true)]).enter [("this", true)]) :=
  of_scopes rfl rfl fun h => .shared rfl (.ancestor h)

theorem leave_ancestor : Advances (.ancestor :: σ) σ [] w w' w.leave w'.leave :=
  of_scopes rfl rfl InLayers.tail_ancestor

theorem leave : Advances (.shared :: σ) σ [] w w' w.leave w'.leave :=
  of_scopes rfl rfl InLayers.tail

theorem enter_extra : Advances σ (.extra :: σ) [] w w' (w.enter []) w' :=
  of_scopes rfl rfl .extra

theorem leave_extra : Advances (.extra :: σ) σ [] w w' w.leave w' :=
  of_scopes rfl rfl InLayers.tail_extra

theorem of_still (h : w.Still v) (h' : w'.Still v') : Advances σ σ [] w w' v v' :=
  of_scopes h.distances h'.distances fun hl => by rwa [h.scopes, h'.scopes]

theorem declare (w w' : Walk) (hσ : Seated σ) {name : Token} (hn : name.IsName)
    (ha : Admits σ (some name)) :
    Advances σ σ [] w w' (w.declare name) (w'.declare name) := by
  refine of_scopes (Walk.Matches.declare_distances w name) (Walk.Matches.declare_distances w' name)
    fun h => ?_
  obtain ⟨scopes, distances, faults⟩ := w
  obtain ⟨scopes', distances', faults'⟩ := w'
  unfold Walk.declare
  cases hσ with
  | nil =>
    cases h
    exact .nil
  | extra => exact absurd rfl (ha.resolve_left (by simp))
  | shared | methods =>
    obtain ⟨s, T, T', rfl, rfl, hins⟩ := InLayers.insert h (hn.lexeme_ne .super_) false
    by_cases hc : s.contains name.lexeme = true
    · simp only [hc, if_true]
      exact h
    · simp only [hc]
      exact hins

theorem define (w w' : Walk) (hσ : Seated σ) {name : Token} (hn : name.IsName)
    (ha : Admits σ (some name)) :
    Advances σ σ [] w w' (w.define name) (w'.define name) := by
  refine of_scopes (Walk.Matches.define_distances w name) (Walk.Matches.define_distances w' name)
    fun h => ?_
  obtain ⟨scopes, distances, faults⟩ := w
  obtain ⟨scopes', distances', faults'⟩ := w'
  unfold Walk.define
  cases hσ with
  | nil =>
    cases h
    exact .nil
  | extra => exact absurd rfl (ha.resolve_left (by simp))
  | shared | methods =>
    obtain ⟨s, T, T', rfl, rfl, hins⟩ := InLayers.insert h (hn.lexeme_ne .super_) true
    exact hins

theorem declareDefined (w w' : Walk) (hσ : Seated σ) {name : Token} (hn : name.IsName)
    (ha : Admits σ (some name)) :
    Advances σ σ [] w w' (w.declareDefined name) (w'.declareDefined name) :=
  (declare w w' hσ hn ha).trans (define _ _ hσ hn ha)

theorem declareAll (w w' : Walk) (hσ : Seated σ) {names : List Token}
    (hn : ∀ t ∈ names, t.IsName) :
    Advances (.shared :: σ) (.shared :: σ) [] w w' (w.declareAll names) (w'.declareAll names) := by
  induction names generalizing w w' with
  | nil => exact refl w w'
  | cons t ts ih =>
    have ht := declareDefined w w' (.shared hσ) (hn t (List.mem_cons_self ..))
      (.shared σ (some t))
    exact ht.trans (ih _ _ fun t' ht' => hn t' (List.mem_cons_of_mem _ ht'))

/-! ### Occurrences -/

/-- The number of an occurrence that is met is new. -/
theorem not_mem_of_nodup {known : List Locus} {o : Occurrence}
    (hn : ((known ++ [(⟨o, σ⟩ : Locus)]).map Locus.id).Nodup) : o.id ∉ known.map Locus.id := by
  rw [List.map_append, List.nodup_append] at hn
  exact fun hmem => hn.2.2 o.id hmem o.id (by simp [Locus.id]) rfl

theorem record (hσ : Seated σ) (o : Occurrence) :
    Advances σ σ [⟨o, σ⟩] w w' (w.record o.id o.token) (w'.record o.id o.token) := by
  intro known hn hp hw
  have hnew := not_mem_of_nodup hn
  obtain ⟨hfresh, hfresh'⟩ := hw.fresh o.id hnew
  refine ⟨?_, fun m hm => ?_, fun id hid => ?_⟩
  · simpa using hw.layered
  · rcases List.mem_append.mp hm with hm | hm
    · have hne : o.id ≠ m.id := by
        rintro he
        exact hnew (he ▸ List.mem_map_of_mem hm)
      have hplaced := hw.placed m hm
      refine ⟨hplaced.seated, ?_⟩
      rw [Walk.find?_record, Walk.find?_record, if_neg hne, if_neg hne]
      exact hplaced.shifts
    · obtain rfl := List.mem_singleton.mp hm
      refine ⟨hσ, ?_⟩
      have hproper : o.Proper := hp _ (List.mem_singleton_self _)
      have hrel := hw.layered.distance? hproper.layer_eq
      show Option.Rel (Shifts o.layer σ) ((w.record o.id o.token).distances.find? o.id)
        ((w'.record o.id o.token).distances.find? o.id)
      rw [Walk.find?_record, Walk.find?_record, if_pos rfl, if_pos rfl, hfresh, hfresh',
        Option.or_none, Option.or_none]
      exact hrel
  · rw [List.map_append, List.mem_append, not_or] at hid
    have hne : o.id ≠ id := fun he => hid.2 (by simp [Locus.id, he])
    rw [Walk.find?_record, Walk.find?_record, if_neg hne, if_neg hne]
    exact hw.fresh id hid.1

/-- An occurrence of which no distance is recorded. -/
theorem skip (hσ : Seated σ) (o : Occurrence) : Advances σ σ [⟨o, σ⟩] w w' w w' := by
  intro known hn hp hw
  obtain ⟨hfresh, hfresh'⟩ := hw.fresh o.id (not_mem_of_nodup hn)
  refine ⟨hw.layered, fun m hm => ?_, fun id hid => hw.fresh id fun hmem => hid ?_⟩
  · rcases List.mem_append.mp hm with hm | hm
    · exact hw.placed m hm
    · obtain rfl := List.mem_singleton.mp hm
      refine ⟨hσ, ?_⟩
      show Option.Rel _ (w.distances.find? o.id) (w'.distances.find? o.id)
      rw [hfresh, hfresh']
      exact .none
  · rw [List.map_append]
    exact List.mem_append_left _ hmem

end Walk.Advances

/-! ### Expressions -/

section Resolve

open Walk

variable {σ : List Layer}

mutual

theorem Expr.resolve_advances (hσ : Seated σ) (context : Context) (e : Expr) (w w' : Walk) :
    Advances σ σ (Locus.all σ e.occurrences) w w' (e.resolve context w)
      (e.resolve context w') := by
  cases e with
  | assign id name value =>
    -- the value is walked through before the name is looked up
    have hv := value.resolve_advances hσ context w w'
    exact (hv.trans (.record hσ ⟨id, .assign, name⟩)).perm List.perm_append_comm
  | binary left operator right =>
    rw [Expr.occurrences, Locus.all_append]
    exact (left.resolve_advances hσ context w w').trans (right.resolve_advances hσ context _ _)
  | call callee paren arguments =>
    rw [Expr.occurrences, Locus.all_append]
    exact (callee.resolve_advances hσ context w w').trans
      (Expr.resolveList_advances hσ context arguments _ _)
  | get object name => exact object.resolve_advances hσ context w w'
  | grouping inner => exact inner.resolve_advances hσ context w w'
  | literal value => exact .refl w w'
  | logical left operator right =>
    rw [Expr.occurrences, Locus.all_append]
    exact (left.resolve_advances hσ context w w').trans (right.resolve_advances hσ context _ _)
  | set object name value =>
    rw [Expr.occurrences, Locus.all_append]
    have hv := value.resolve_advances hσ context w w'
    exact (hv.trans (object.resolve_advances hσ context _ _)).perm List.perm_append_comm
  | superRef id keyword method =>
    have hs := Advances.of_still (σ := σ) (w.checkSuper_still context keyword)
      (w'.checkSuper_still context keyword)
    exact hs.after (.record hσ ⟨id, .super_, keyword⟩)
  | thisRef id keyword =>
    unfold Expr.resolve
    by_cases hk : context.klass = .noClass
    · rw [if_pos hk, if_pos hk]
      exact (Advances.skip hσ ⟨id, .this_, keyword⟩).before
        (.of_still (w.report_still ..) (w'.report_still ..))
    · rw [if_neg hk, if_neg hk]
      exact .record hσ ⟨id, .this_, keyword⟩
  | unary operator right => exact right.resolve_advances hσ context w w'
  | var id name =>
    have hs := Advances.of_still (σ := σ) (w.pending_still name .ownInitializer)
      (w'.pending_still name .ownInitializer)
    exact hs.after (.record hσ ⟨id, .variable_, name⟩)

theorem Expr.resolveList_advances (hσ : Seated σ) (context : Context) (es : List Expr)
    (w w' : Walk) :
    Advances σ σ (Locus.all σ (Expr.occurrencesIn es)) w w' (Expr.resolveList context w es)
      (Expr.resolveList context w' es) := by
  cases es with
  | nil => exact .refl w w'
  | cons e es =>
    rw [Expr.occurrencesIn, Locus.all_append]
    exact (e.resolve_advances hσ context w w').trans (Expr.resolveList_advances hσ context es _ _)

end

theorem Expr.resolve?_advances (hσ : Seated σ) (context : Context) (e : Option Expr)
    (w w' : Walk) :
    Advances σ σ (Locus.all σ (Expr.occurrencesOf? e)) w w' (Expr.resolve? context w e)
      (Expr.resolve? context w' e) := by
  cases e with
  | none => exact .refl w w'
  | some e => exact e.resolve_advances hσ context w w'

end Resolve

/-! ### Statements -/

section Resolve

open Walk

/-- The rest of a loop behind its initializer: its turns are in a scope of their own in the tree. -/
theorem Walk.Advances.loop {σ : List Layer} (hσ : Seated σ) {context : Context}
    (condition : Option Expr) {increment : Option Expr} {body : Written} {ms : List Locus}
    (hbody : ∀ v v', Advances (turnLayers σ increment) (turnLayers σ increment) ms v v'
      (body.tree.resolve context v) (body.resolve context v')) (w w' : Walk) :
    Advances σ σ
      (Locus.all σ (Expr.occurrencesOf? condition) ++
        (ms ++ Locus.all (turnLayers σ increment) (Expr.occurrencesOf? increment)))
      w w' ((Stmt.forLoop none condition increment body.tree).resolve context w)
      (Expr.resolve? context (body.resolve context (Expr.resolve? context w' condition))
        increment) := by
  have hcond : (condition.getD (.literal (.bool true))).resolve context w =
      Expr.resolve? context w condition := by
    cases condition <;> rfl
  have hc := Expr.resolve?_advances hσ context condition w w'
  refine hc.trans ?_
  cases increment with
  | none =>
    simp only [Stmt.forLoop, Stmt.resolve, hcond]
    exact (hbody _ _).trans (.refl _ _)
  | some e =>
    -- the tree enters the scope of the turn, while the walk through the loop stays where it is
    simp only [Stmt.forLoop, Stmt.resolve, Stmt.resolveList, hcond]
    have hb := hbody ((Expr.resolve? context w condition).enter [])
      (Expr.resolve? context w' condition)
    have hturn := hb.trans (e.resolve_advances (.extra hσ) context _ _)
    exact (Advances.enter_extra.after hturn).before .leave_extra

mutual

theorem Written.resolve_advances {σ : List Layer} (hσ : Seated σ) (context : Context)
    (s : Written) (hf : s.Formed) (ha : Admits σ s.declared?) (w w' : Walk) :
    Advances σ σ (s.loci σ) w w' (s.tree.resolve context w) (s.resolve context w') := by
  cases s with
  | block body =>
    unfold Written.Formed at hf
    have hb := Written.resolveList_advances (.shared hσ) context body hf
      (fun s _ => .shared σ s.declared?) (w.enter []) (w'.enter [])
    exact ((Advances.enter rfl).after hb).before .leave
  | classDecl name superclass methods =>
    unfold Written.Formed at hf
    have hd := Advances.declareDefined w w' hσ hf.1 ha
    cases superclass with
    | none =>
      have hm := WrittenFunction.resolveMethods_advances (.shared hσ)
        { context with klass := .rootClass } methods hf.2
      exact hd.after (((Advances.enter rfl).after (hm _ _)).before .leave)
    | some superclass =>
      have hm := WrittenFunction.resolveMethods_advances (.methods hσ)
        { context with klass := .subclass } methods hf.2
      have hs := Advances.of_still (σ := σ)
        ((w.declareDefined name).checkSuperclass_still name superclass)
        ((w'.declareDefined name).checkSuperclass_still name superclass)
      have he := superclass.resolve_advances hσ { context with klass := .subclass }
      refine (hd.after (hs.after (he _ _))).trans ?_
      exact ((Advances.enterMethods.after (hm _ _)).before .leave).before .leave_ancestor
  | expression e => exact e.resolve_advances hσ context w w'
  | function f =>
    unfold Written.Formed at hf
    have hd := Advances.declareDefined w w' hσ hf.name_isName ha
    have hb := f.resolve_advances hσ { context with routine := .function } hf
    rw [Written.tree, Stmt.resolve, Written.resolve, f.name_tree]
    exact hd.after (hb _ _)
  | branch condition thenBranch elseBranch =>
    have hc := condition.resolve_advances hσ context w w'
    cases elseBranch with
    | none =>
      unfold Written.Formed at hf
      have ht := thenBranch.resolve_advances hσ context hf.1 (Or.inl hf.2)
      exact hc.trans (ht _ _)
    | some elseBranch =>
      unfold Written.Formed at hf
      have ht := thenBranch.resolve_advances hσ context hf.1.1 (Or.inl hf.1.2)
      have he := elseBranch.resolve_advances hσ context hf.2.1 (Or.inl hf.2.2)
      exact (hc.trans (ht _ _)).trans (he _ _)
  | print e => exact e.resolve_advances hσ context w w'
  | ret keyword value =>
    have hs := Advances.of_still (σ := σ) (w.checkReturn_still context keyword value.isSome)
      (w'.checkReturn_still context keyword value.isSome)
    exact hs.after (Expr.resolve?_advances hσ context value _ _)
  | varDecl name initializer =>
    unfold Written.Formed at hf
    have hd := Advances.declare w w' hσ hf ha
    have hi := Expr.resolve?_advances hσ context initializer (w.declare name) (w'.declare name)
    exact (hd.after hi).before (.define _ _ hσ hf ha)
  | loop condition body =>
    unfold Written.Formed at hf
    have hb := body.resolve_advances hσ context hf.1 (Or.inl hf.2)
    exact (condition.resolve_advances hσ context w w').trans (hb _ _)
  | forLoop initializer condition increment body =>
    cases initializer with
    | none =>
      unfold Written.Formed at hf
      rw [Written.tree]
      exact .loop hσ condition
        (body.resolve_advances (hσ.turn increment) context hf.1 (Or.inl hf.2)) w w'
    | some s =>
      -- the scope of the initializer is there on both sides
      unfold Written.Formed at hf
      have hs := s.resolve_advances (.shared hσ) context hf.1 (.shared σ s.declared?)
      have hb := body.resolve_advances ((Seated.shared hσ).turn increment) context hf.2.1
        (Or.inl hf.2.2)
      have hall := (hs (w.enter []) (w'.enter [])).trans
        (.loop (.shared hσ) condition hb _ _)
      exact ((Advances.enter rfl).after hall).before .leave

theorem Written.resolveList_advances {σ : List Layer} (hσ : Seated σ) (context : Context)
    (ss : List Written) (hf : Written.AllFormed ss) (ha : ∀ s ∈ ss, Admits σ s.declared?)
    (w w' : Walk) :
    Advances σ σ (Written.lociIn σ ss) w w' (Stmt.resolveList context w (Written.trees ss))
      (Written.resolveList context w' ss) := by
  cases ss with
  | nil => exact .refl w w'
  | cons s ss =>
    unfold Written.AllFormed at hf
    have hs := s.resolve_advances hσ context hf.1 (ha s (List.mem_cons_self ..)) w w'
    exact hs.trans (Written.resolveList_advances hσ context ss hf.2
      (fun t ht => ha t (List.mem_cons_of_mem _ ht)) _ _)

theorem WrittenFunction.resolve_advances {σ : List Layer} (hσ : Seated σ) (context : Context)
    (f : WrittenFunction) (hf : f.Formed) (w w' : Walk) :
    Advances σ σ (f.loci σ) w w' (f.tree.resolve context w) (f.resolve context w') := by
  cases f with
  | mk name params body =>
    unfold WrittenFunction.Formed at hf
    have hp := Advances.declareAll (w.enter []) (w'.enter []) hσ hf.2.1
    have hb := Written.resolveList_advances (.shared hσ) context body hf.2.2
      (fun s _ => .shared σ s.declared?)
    exact ((Advances.enter rfl).after (hp.after (hb _ _))).before .leave

theorem WrittenFunction.resolveMethods_advances {σ : List Layer} (hσ : Seated σ)
    (context : Context) (fs : List WrittenFunction) (hf : WrittenFunction.AllFormed fs)
    (w w' : Walk) :
    Advances σ σ (WrittenFunction.lociIn σ fs) w w'
      (FunDecl.resolveMethods context w (WrittenFunction.trees fs))
      (WrittenFunction.resolveMethods context w' fs) := by
  cases fs with
  | nil => exact .refl w w'
  | cons f fs =>
    unfold WrittenFunction.AllFormed at hf
    have h := f.resolve_advances hσ { context with routine := f.tree.methodContext } hf.1 w w'
    exact h.trans (WrittenFunction.resolveMethods_advances hσ context fs hf.2 _ _)

end

end Resolve

/-! ### Programs -/

/-- Each occurrence of a program has the same binding in the tree and in what is written, and no
other node has a distance. -/
theorem Parse.StmtsRead.placed {first next : Nat} {program : List Written}
    (h : Parse.StmtsRead first (Written.trees program) next) (hf : Written.AllFormed program) :
    (∀ m ∈ Written.lociIn [] program,
      m.Placed (resolve (Written.trees program)).distances (Written.distances program)) ∧
    ∀ id, id ∉ (Written.lociIn [] program).map Locus.id →
      (resolve (Written.trees program)).distances.find? id = none ∧
        (Written.distances program).find? id = none := by
  have hocc := Written.occurrence_lociIn [] program
  have hids : (Written.lociIn [] program).map Locus.id =
      (Stmt.occurrencesIn (Written.trees program)).map Occurrence.id := by
    rw [← hocc, List.map_map]
    rfl
  have hstart : Walk.Abreast [] [] .start .start := ⟨.nil, by simp, by simp [Walk.start]⟩
  have hall := Written.resolveList_advances .nil .top program hf
    (fun s _ => Or.inr (by simp)) .start .start [] (hids ▸ h.1.1)
    (fun m hm => (h.1.2 _ (hocc ▸ List.mem_map_of_mem hm)).2.2) hstart
  exact ⟨hall.placed, hall.fresh⟩

end Lox
