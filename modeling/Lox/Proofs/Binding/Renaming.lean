/-
Renaming of a local variable.

A renaming gives a new name to a variable of one region: to its declaration, and to those variables
and assignments to which the declaration is visible.  If the new name does not occur in the program,
nothing else changes: each site sees as much as before, under the new name.

* `Stmt.rename` — the renamed statement, at given surroundings;
* `Stmt.sites_rename` — its sites are those of the statement, each of them renamed;
* `Renaming.entry?_site`, `Renaming.faults_site` — a renamed site has its
  distance, and no new faults;
* `resolve_rename` — a renamed program binds as the program does.

Design notes: the variable is given by the opener of its region and its name, so that a renaming
can be followed into every part of a program, and into the frames of a run as well.  Names of
functions and classes are shown when they are printed, and stay as they are.
-/
import Lox.Proofs.Binding.Uniqueness

namespace Lox

/-- A new name for the variable of a name in the region of an opener.  Both
names are identifiers. -/
structure Renaming where
  target : Opener
  old : String
  new : String
  old_ne : ∀ k : Keyword, old ≠ k.text
  new_isName : Keyword.ofText? new = none

namespace Renaming

variable (ρ : Renaming)

theorem new_ne (k : Keyword) : ρ.new ≠ k.text :=
  Keyword.text_ne_of_ofText? ρ.new_isName k

/-- What becomes of a name that belongs to the region of an opener. -/
def name (o : Option Opener) (x : String) : String :=
  if o = some ρ.target ∧ x = ρ.old then ρ.new else x

/-- What becomes of the token of such a name. -/
def token (o : Option Opener) (t : Token) : Token :=
  { t with lexeme := ρ.name o t.lexeme }

/-- What becomes of a name that is declared in the innermost region. -/
def declared (a : Surroundings) (t : Token) : Token :=
  ρ.token (a.openerAt 0) t

/-- What becomes of a name that refers to the region in which it is first visible. -/
def used (a : Surroundings) (t : Token) : Token :=
  ρ.token (a.openerOf t.lexeme) t

end Renaming

/-! ### Renamed programs -/

mutual

/-- The renamed expression. -/
def Expr.rename (ρ : Renaming) (a : Surroundings) : Expr → Expr
  | .assign id name value => .assign id (ρ.used a name) (value.rename ρ a)
  | .binary left operator right => .binary (left.rename ρ a) operator (right.rename ρ a)
  | .call callee paren arguments =>
    .call (callee.rename ρ a) paren (Expr.renameAll ρ a arguments)
  | .get object name => .get (object.rename ρ a) name
  | .grouping inner => .grouping (inner.rename ρ a)
  | .literal value => .literal value
  | .logical left operator right => .logical (left.rename ρ a) operator (right.rename ρ a)
  | .set object name value => .set (object.rename ρ a) name (value.rename ρ a)
  | .superRef id keyword method => .superRef id keyword method
  | .thisRef id keyword => .thisRef id keyword
  | .unary operator right => .unary operator (right.rename ρ a)
  | .var id name => .var id (ρ.used a name)

/-- The renamed expressions. -/
def Expr.renameAll (ρ : Renaming) (a : Surroundings) : List Expr → List Expr
  | [] => []
  | e :: es => e.rename ρ a :: Expr.renameAll ρ a es

end

mutual

/-- The renamed statement. -/
def Stmt.rename (ρ : Renaming) (a : Surroundings) : Stmt → Stmt
  | .block body => .block (Stmt.renameAll ρ (a.enter .block []) 0 body)
  | .classDecl name none methods =>
    .classDecl name none
      (FunDecl.renameAll ρ ((a.declare name).enter (.receiver .rootClass) ["this"]) 0 methods)
  | .classDecl name (some superclass) methods =>
    .classDecl name (some (superclass.rename ρ (a.declare name)))
      (FunDecl.renameAll ρ
        (((a.declare name).enter .ancestor ["super"]).enter (.receiver .subclass) ["this"])
        0 methods)
  | .expression e => .expression (e.rename ρ a)
  | .function f => .function (f.rename ρ (a.declare f.name) .function)
  | .branch condition thenBranch none =>
    .branch (condition.rename ρ a) (thenBranch.rename ρ (a.child 0)) none
  | .branch condition thenBranch (some elseBranch) =>
    .branch (condition.rename ρ a) (thenBranch.rename ρ (a.child 0))
      (some (elseBranch.rename ρ (a.child 1)))
  | .print e => .print (e.rename ρ a)
  | .ret keyword value => .ret keyword (value.map (Expr.rename ρ a))
  | .varDecl name initializer =>
    .varDecl (ρ.declared a name) (initializer.map (Expr.rename ρ (a.initializing name)))
  | .loop condition body => .loop (condition.rename ρ a) (body.rename ρ (a.child 0))

/-- The renamed statements, of which the first one is the `i`-th part. -/
def Stmt.renameAll (ρ : Renaming) (a : Surroundings) (i : Nat) : List Stmt → List Stmt
  | [] => []
  | s :: ss => s.rename ρ (a.child i) :: Stmt.renameAll ρ (a.after s) (i + 1) ss

/-- The renamed function. -/
def FunDecl.rename (ρ : Renaming) (a : Surroundings) (r : Surrounding) : FunDecl → FunDecl
  | .mk name params body =>
    .mk name (params.map (ρ.declared (a.enter (.routine r) [])))
      (Stmt.renameAll ρ ((a.enter (.routine r) []).declareAll params) 0 body)

/-- The renamed methods of a class, of which the first one is the `i`-th part. -/
def FunDecl.renameAll (ρ : Renaming) (a : Surroundings) (i : Nat) : List FunDecl → List FunDecl
  | [] => []
  | f :: fs => f.rename ρ (a.child i) f.methodContext :: FunDecl.renameAll ρ a (i + 1) fs

end

/-- The names at a site. -/
def Site.names (x : Site) : List Token :=
  match x.feature with
  | .occurrence o => [o.token]
  | .declaration _ name => [name]
  | .ret .. => []
  | .inheritance name superclass => [name, superclass]

/-- The name of a class is declared where the class stands. -/
theorem Stmt.classDecl_mem_sites (a : Surroundings) (name : Token) (superclass : Option Expr)
    (methods : List FunDecl) :
    ⟨a, .declaration .class_ name⟩ ∈ (Stmt.classDecl name superclass methods).sites a := by
  cases superclass with
  | none => exact List.mem_cons_self ..
  | some e => exact List.mem_cons_self ..

namespace Renaming

variable (ρ : Renaming)

/-- The renamed region. -/
def region (g : Region) : Region where
  opener := g.opener
  names := g.names.map (ρ.name (some g.opener))
  pending := g.pending.map (ρ.name (some g.opener))

/-- The renamed surroundings. -/
def around (a : Surroundings) : Surroundings :=
  { a with regions := a.regions.map ρ.region }

/-- What becomes of an occurrence. -/
def occurrence (a : Surroundings) (o : Occurrence) : Occurrence :=
  match o.kind with
  | .variable_ | .assign => { o with token := ρ.used a o.token }
  | .this_ | .super_ => o

/-- What becomes of what a site is. -/
def feature (a : Surroundings) : Feature → Feature
  | .occurrence o => .occurrence (ρ.occurrence a o)
  | .declaration .variable_ name => .declaration .variable_ (ρ.declared a name)
  | .declaration .parameter name => .declaration .parameter (ρ.declared a name)
  | .inheritance name superclass => .inheritance name (ρ.used a superclass)
  | f => f

/-- The renamed site. -/
def site (x : Site) : Site :=
  ⟨ρ.around x.around, ρ.feature x.around x.feature⟩

/-- The new name does not occur at a site, and a function or class that is declared there does not
have the name of the variable. -/
structure Suits (x : Site) : Prop where
  names : ∀ t ∈ x.names, t.lexeme ≠ ρ.new
  kept : ∀ kind name, x.feature = .declaration kind name → kind = .function ∨ kind = .class_ →
    ρ.name (x.around.openerAt 0) name.lexeme = name.lexeme

/-- The new name is not visible. -/
def Fresh (a : Surroundings) : Prop :=
  ∀ g ∈ a.regions, ρ.new ∉ g.names ∧ g.pending ≠ some ρ.new

variable {ρ}

/-! ### Names -/

/-- Names that are not the new one stay apart. -/
theorem name_inj {o o' : Option Opener} {x y : String} (hx : x ≠ ρ.new) (hy : y ≠ ρ.new)
    (h : ρ.name o x = ρ.name o' y) : x = y := by
  unfold name at h
  split at h
  · next hox =>
    split at h
    · next hoy => rw [hox.2, hoy.2]
    · exact absurd h.symm hy
  · split at h
    · exact absurd h hx
    · exact h

theorem name_none (x : String) : ρ.name none x = x :=
  if_neg fun h => by cases h.1

/-- Reserved words stay as they are. -/
theorem name_word (o : Option Opener) (k : Keyword) : ρ.name o k.text = k.text :=
  if_neg fun h => ρ.old_ne k h.2.symm

theorem mem_of_contains {names : List String} {o o' : Option Opener} {x : String}
    (hn : ρ.new ∉ names) (hx : x ≠ ρ.new)
    (h : (names.map (ρ.name o)).contains (ρ.name o' x) = true) : x ∈ names := by
  rw [List.contains_iff_mem] at h
  obtain ⟨y, hy, he⟩ := List.mem_map.mp h
  have hne : y ≠ ρ.new := fun he => hn (he ▸ hy)
  rwa [← name_inj hne hx he]

theorem token_isName {o : Option Opener} {t : Token} (h : t.IsName) : (ρ.token o t).IsName := by
  obtain ⟨hk, hl⟩ := Token.isName_iff.mp h
  refine Token.isName_iff.mpr ⟨hk, ?_⟩
  show Keyword.ofText? (ρ.name o t.lexeme) = none
  unfold name
  split
  · exact ρ.new_isName
  · exact hl

theorem token_eq {o : Option Opener} {t : Token} (h : ρ.name o t.lexeme = t.lexeme) :
    ρ.token o t = t := by
  unfold token
  rw [h]

/-! ### Surroundings -/

/-- A new region has reserved words as names, or none. -/
theorem around_enter (a : Surroundings) (kind : RegionKind) {names : List String}
    (h : ∀ x ∈ names, ∃ k : Keyword, x = k.text) :
    ρ.around (a.enter kind names) = (ρ.around a).enter kind names := by
  have hmap : names.map (ρ.name (some ⟨kind, a.position⟩)) = names := by
    refine (List.map_congr_left fun x hx => ?_).trans (List.map_id names)
    obtain ⟨k, rfl⟩ := h x hx
    exact name_word _ k
  unfold around Surroundings.enter region
  simp [hmap]

theorem around_declare (a : Surroundings) (t : Token) :
    ρ.around (a.declare t) = (ρ.around a).declare (ρ.declared a t) := by
  obtain ⟨position, regions⟩ := a
  cases regions with
  | nil => rfl
  | cons g outer => rfl

theorem declared_declare (a : Surroundings) (t : Token) :
    ρ.declared (a.declare t) = ρ.declared a := by
  unfold declared
  rw [Surroundings.openerAt_declare]

theorem around_declareAll (a : Surroundings) (ts : List Token) :
    ρ.around (a.declareAll ts) = (ρ.around a).declareAll (ts.map (ρ.declared a)) := by
  induction ts generalizing a with
  | nil => rfl
  | cons t ts ih =>
    have h := ih (a.declare t)
    rw [around_declare, declared_declare] at h
    exact h

theorem isDeclared_around {a : Surroundings} (ha : ρ.Fresh a) {t : Token}
    (ht : t.lexeme ≠ ρ.new) : (ρ.around a).isDeclared (ρ.declared a t) = a.isDeclared t := by
  obtain ⟨position, regions⟩ := a
  cases regions with
  | nil => rfl
  | cons g outer =>
    rw [Bool.eq_iff_iff]
    constructor
    · intro h
      exact List.contains_iff_mem.mpr (mem_of_contains (ha g (by simp)).1 ht h)
    · intro h
      exact List.contains_iff_mem.mpr (List.mem_map.mpr ⟨_, List.contains_iff_mem.mp h, rfl⟩)

theorem around_initializing {a : Surroundings} (ha : ρ.Fresh a) {t : Token}
    (ht : t.lexeme ≠ ρ.new) :
    ρ.around (a.initializing t) = (ρ.around a).initializing (ρ.declared a t) := by
  have hd := isDeclared_around ha ht
  obtain ⟨position, regions⟩ := a
  cases regions with
  | nil => rfl
  | cons g outer =>
    show ρ.around (if Surroundings.isDeclared ⟨position, g :: outer⟩ t then _ else _) =
      if (ρ.around ⟨position, g :: outer⟩).isDeclared (ρ.declared _ t) then _ else _
    rw [hd]
    split
    · rfl
    · rfl

theorem Fresh.enter {a : Surroundings} (h : ρ.Fresh a) (kind : RegionKind) (names : List String)
    (hn : ∀ x ∈ names, ∃ k : Keyword, x = k.text) : ρ.Fresh (a.enter kind names) := by
  intro g hg
  rcases List.mem_cons.mp hg with rfl | hg
  · refine ⟨fun hm => ?_, by simp⟩
    obtain ⟨k, hk⟩ := hn _ hm
    exact ρ.new_ne k hk
  · exact h g hg

theorem Fresh.declare {a : Surroundings} (h : ρ.Fresh a) {t : Token} (ht : t.lexeme ≠ ρ.new) :
    ρ.Fresh (a.declare t) := by
  obtain ⟨position, regions⟩ := a
  cases regions with
  | nil => exact h
  | cons g outer =>
    intro g' hg
    rcases List.mem_cons.mp hg with rfl | hg
    · refine ⟨fun hm => ?_, by simp⟩
      rcases List.mem_cons.mp hm with he | hm
      · exact ht he.symm
      · exact (h g (by simp)).1 hm
    · exact h g' (List.mem_cons_of_mem _ hg)

theorem Fresh.declareAll {a : Surroundings} (h : ρ.Fresh a) {ts : List Token}
    (ht : ∀ t ∈ ts, t.lexeme ≠ ρ.new) : ρ.Fresh (a.declareAll ts) := by
  induction ts generalizing a with
  | nil => exact h
  | cons t ts ih =>
    exact ih (h.declare (ht t (List.mem_cons_self ..))) fun t' ht' =>
      ht t' (List.mem_cons_of_mem _ ht')

theorem Fresh.initializing {a : Surroundings} (h : ρ.Fresh a) {t : Token}
    (ht : t.lexeme ≠ ρ.new) : ρ.Fresh (a.initializing t) := by
  obtain ⟨position, regions⟩ := a
  unfold Surroundings.initializing
  cases regions with
  | nil => exact h
  | cons g outer =>
    simp only
    split
    · exact h
    · intro g' hg
      rcases List.mem_cons.mp hg with rfl | hg
      · refine ⟨fun hm => ?_, fun he => ht (Option.some.inj he)⟩
        rcases List.mem_cons.mp hm with he | hm
        · exact ht he.symm
        · exact (h g (by simp)).1 hm
      · exact h g' (List.mem_cons_of_mem _ hg)

/-- A name is as far out as before. -/
theorem distance?_around {a : Surroundings} (ha : ρ.Fresh a) {x : String} (hx : x ≠ ρ.new) :
    (ρ.around a).distance? (ρ.name (a.openerOf x) x) = a.distance? x := by
  obtain ⟨position, regions⟩ := a
  induction regions with
  | nil => rfl
  | cons g outer ih =>
    have ih := ih fun g' hg => ha g' (List.mem_cons_of_mem _ hg)
    unfold Surroundings.distance? around at ih ⊢
    simp only at ih ⊢
    rw [List.map_cons, List.findIdx?_cons, List.findIdx?_cons]
    by_cases hg : g.names.contains x = true
    · have ho : Surroundings.openerOf ⟨position, g :: outer⟩ x = some g.opener := by
        unfold Surroundings.openerOf Surroundings.distance?
        rw [List.findIdx?_cons, if_pos hg]
        rfl
      rw [ho, if_pos hg, if_pos]
      exact List.contains_iff_mem.mpr (List.mem_map.mpr ⟨_, List.contains_iff_mem.mp hg, rfl⟩)
    · have ho : Surroundings.openerOf ⟨position, g :: outer⟩ x =
          Surroundings.openerOf ⟨position, outer⟩ x := by
        unfold Surroundings.openerOf Surroundings.distance?
        rw [List.findIdx?_cons, if_neg hg]
        cases outer.findIdx? fun r => r.names.contains x <;> rfl
      rw [ho, if_neg hg, if_neg, ih]
      intro h
      exact hg (List.contains_iff_mem.mpr (mem_of_contains (ha g (by simp)).1 hx h))

/-- The name of a function or class stays as it is. -/
theorem Suits.around_declare {a : Surroundings} {kind : DeclarationKind} {name : Token}
    (h : ρ.Suits ⟨a, .declaration kind name⟩) (hk : kind = .function ∨ kind = .class_) :
    ρ.around (a.declare name) = (ρ.around a).declare name := by
  rw [Renaming.around_declare]
  exact congrArg _ (token_eq (h.kept kind name rfl hk))

/-- What surrounds a statement behind another one. -/
theorem around_after {a : Surroundings} {i : Nat} {s : Stmt}
    (hs : ∀ x ∈ s.sites (a.child i), ρ.Suits x) :
    ρ.around (a.after s) = (ρ.around a).after (s.rename ρ (a.child i)) := by
  cases s with
  | varDecl name initializer => exact around_declare a name
  | function f =>
    obtain ⟨name, params, body⟩ := f
    have hname := hs ⟨a.child i, .declaration .function name⟩ (List.mem_cons_self ..)
    exact Suits.around_declare (a := a) ⟨hname.names, hname.kept⟩ (Or.inl rfl)
  | classDecl name superclass methods =>
    have hname := hs _ (Stmt.classDecl_mem_sites (a.child i) name superclass methods)
    have hd := Suits.around_declare (a := a) ⟨hname.names, hname.kept⟩ (Or.inr rfl)
    cases superclass with
    | none => exact hd
    | some e => exact hd
  | branch condition thenBranch elseBranch => cases elseBranch <;> rfl
  | _ => rfl

theorem Fresh.after {a : Surroundings} (h : ρ.Fresh a) {i : Nat} {s : Stmt}
    (hs : ∀ x ∈ s.sites (a.child i), ρ.Suits x) : ρ.Fresh (a.after s) := by
  cases s with
  | varDecl name initializer =>
    exact h.declare ((hs _ (List.mem_cons_self ..)).names name (List.mem_singleton_self name))
  | function f =>
    exact h.declare ((hs _ (List.mem_cons_self ..)).names f.name (List.mem_singleton_self f.name))
  | classDecl name superclass methods =>
    have hname := hs _ (Stmt.classDecl_mem_sites (a.child i) name superclass methods)
    exact h.declare (hname.names name (List.mem_singleton_self name))
  | _ => exact h

/-! ### Sites -/

/-- Sites that become others, and at which the new name is not visible. -/
structure Maps (ρ : Renaming) (xs ys : List Site) : Prop where
  eq : ys = xs.map ρ.site
  fresh : ∀ x ∈ xs, ρ.Fresh x.around

namespace Maps

variable {xs ys xs' ys' : List Site}

theorem nil : ρ.Maps [] [] := ⟨rfl, fun x hx => by cases hx⟩

theorem append (h : ρ.Maps xs ys) (h' : ρ.Maps xs' ys') : ρ.Maps (xs ++ xs') (ys ++ ys') := by
  refine ⟨?_, fun x hx => (List.mem_append.mp hx).elim (h.fresh x) (h'.fresh x)⟩
  rw [h.eq, h'.eq, List.map_append]

theorem cons (h : ρ.Maps xs ys) {a : Surroundings} {f f' : Feature} (ha : ρ.Fresh a)
    (hf : ρ.feature a f = f') : ρ.Maps (⟨a, f⟩ :: xs) (⟨ρ.around a, f'⟩ :: ys) := by
  subst hf
  refine ⟨by rw [h.eq]; rfl, fun x hx => ?_⟩
  rcases List.mem_cons.mp hx with rfl | hx
  · exact ha
  · exact h.fresh x hx

end Maps

end Renaming

section

variable {ρ : Renaming} {a : Surroundings}

mutual

/-- The occurrences in a renamed expression. -/
theorem Expr.occurrences_rename (ρ : Renaming) (a : Surroundings) (e : Expr) :
    (e.rename ρ a).occurrences = e.occurrences.map (ρ.occurrence a) := by
  cases e with
  | assign id name value => exact congrArg _ (value.occurrences_rename ρ a)
  | binary left operator right =>
    rw [Expr.rename, Expr.occurrences, Expr.occurrences, List.map_append,
      left.occurrences_rename ρ a, right.occurrences_rename ρ a]
  | call callee paren arguments =>
    rw [Expr.rename, Expr.occurrences, Expr.occurrences, List.map_append,
      callee.occurrences_rename ρ a, Expr.occurrencesIn_renameAll ρ a arguments]
  | get object name => exact object.occurrences_rename ρ a
  | grouping inner => exact inner.occurrences_rename ρ a
  | literal value => rfl
  | logical left operator right =>
    rw [Expr.rename, Expr.occurrences, Expr.occurrences, List.map_append,
      left.occurrences_rename ρ a, right.occurrences_rename ρ a]
  | set object name value =>
    rw [Expr.rename, Expr.occurrences, Expr.occurrences, List.map_append,
      object.occurrences_rename ρ a, value.occurrences_rename ρ a]
  | superRef id keyword method => rfl
  | thisRef id keyword => rfl
  | unary operator right => exact right.occurrences_rename ρ a
  | var id name => rfl

theorem Expr.occurrencesIn_renameAll (ρ : Renaming) (a : Surroundings) (es : List Expr) :
    Expr.occurrencesIn (Expr.renameAll ρ a es) =
      (Expr.occurrencesIn es).map (ρ.occurrence a) := by
  cases es with
  | nil => rfl
  | cons e es =>
    rw [Expr.renameAll, Expr.occurrencesIn, Expr.occurrencesIn, List.map_append,
      e.occurrences_rename ρ a, Expr.occurrencesIn_renameAll ρ a es]

end

theorem Expr.sites_rename (ha : ρ.Fresh a) (e : Expr) :
    ρ.Maps (e.sites a) ((e.rename ρ a).sites (ρ.around a)) := by
  refine ⟨?_, fun x hx => ?_⟩
  · unfold Expr.sites
    rw [Expr.occurrences_rename, List.map_map, List.map_map]
    rfl
  · obtain ⟨o, -, rfl⟩ := List.mem_map.mp hx
    exact ha

theorem Expr.sites?_rename (ha : ρ.Fresh a) (e : Option Expr) :
    ρ.Maps (Expr.sites? a e) (Expr.sites? (ρ.around a) (e.map (Expr.rename ρ a))) := by
  cases e with
  | none => exact .nil
  | some e => exact e.sites_rename ha

theorem inheritanceSites_rename (ha : ρ.Fresh a) (name : Token) (e : Expr) :
    ρ.Maps (inheritanceSites a name e) (inheritanceSites (ρ.around a) name (e.rename ρ a)) := by
  cases e with
  | var id super => exact Renaming.Maps.cons .nil ha rfl
  | _ => exact .nil

theorem paramSites_rename (ha : ρ.Fresh a) {ps : List Token}
    (hs : ∀ x ∈ paramSites a ps, ρ.Suits x) :
    ρ.Maps (paramSites a ps) (paramSites (ρ.around a) (ps.map (ρ.declared a))) := by
  induction ps generalizing a with
  | nil => exact .nil
  | cons p ps ih =>
    have hp := (hs _ (List.mem_cons_self ..)).names p (List.mem_singleton_self p)
    have hps := ih (ha.declare hp) fun x hx => hs x (List.mem_cons_of_mem _ hx)
    rw [Renaming.around_declare, Renaming.declared_declare] at hps
    exact hps.cons ha rfl

theorem forall_this : ∀ x ∈ ["this"], ∃ k : Keyword, x = k.text := by
  intro x hx
  cases List.mem_singleton.mp hx
  exact ⟨.this_, rfl⟩

theorem forall_super : ∀ x ∈ ["super"], ∃ k : Keyword, x = k.text := by
  intro x hx
  cases List.mem_singleton.mp hx
  exact ⟨.super_, rfl⟩

mutual

/-- The sites in a renamed statement. -/
theorem Stmt.sites_rename {a : Surroundings} (ha : ρ.Fresh a) (s : Stmt)
    (hs : ∀ x ∈ s.sites a, ρ.Suits x) :
    ρ.Maps (s.sites a) ((s.rename ρ a).sites (ρ.around a)) := by
  cases s with
  | block body =>
    have hb := Stmt.sitesIn_renameAll (ha.enter .block [] (by simp)) 0 body hs
    rwa [Renaming.around_enter _ _ (by simp)] at hb
  | classDecl name superclass methods =>
    have hname := hs _ (Stmt.classDecl_mem_sites a name superclass methods)
    have hd := ha.declare (hname.names name (List.mem_singleton_self name))
    -- classes and functions keep their names, so what surrounds the parts is renamed as a whole
    have hkept := hname.around_declare (Or.inr rfl)
    cases superclass with
    | none =>
      have hms := FunDecl.sitesIn_renameAll
        (hd.enter (.receiver .rootClass) _ forall_this) 0 methods
        fun x hx => hs x (List.mem_cons_of_mem _ hx)
      rw [Renaming.around_enter _ _ forall_this, hkept] at hms
      exact hms.cons ha rfl
    | some e =>
      have hms := FunDecl.sitesIn_renameAll
        ((hd.enter .ancestor _ forall_super).enter (.receiver .subclass) _ forall_this) 0 methods
        fun x hx => hs x (List.mem_cons_of_mem _ (List.mem_append_right _ hx))
      have hi := inheritanceSites_rename hd name e
      have he := e.sites_rename hd
      rw [Renaming.around_enter _ _ forall_this, Renaming.around_enter _ _ forall_super,
        hkept] at hms
      rw [hkept] at hi he
      exact ((hi.append he).append hms).cons ha rfl
  | expression e => exact e.sites_rename ha
  | function f =>
    have hname := hs _ (List.mem_cons_self ..)
    have hf := FunDecl.sites_rename (ha.declare (hname.names f.name (List.mem_singleton_self _)))
      .function f fun x hx => hs x (List.mem_cons_of_mem _ hx)
    rw [hname.around_declare (Or.inl rfl)] at hf
    obtain ⟨name, params, body⟩ := f
    exact hf.cons ha rfl
  | branch condition thenBranch elseBranch =>
    cases elseBranch with
    | none =>
      exact (condition.sites_rename ha).append (Stmt.sites_rename (a := a.child 0) ha thenBranch
        fun x hx => hs x (List.mem_append_right _ hx))
    | some elseBranch =>
      exact ((condition.sites_rename ha).append (Stmt.sites_rename (a := a.child 0) ha thenBranch
        fun x hx => hs x (List.mem_append_left _ (List.mem_append_right _ hx)))).append
        (Stmt.sites_rename (a := a.child 1) ha elseBranch
          fun x hx => hs x (List.mem_append_right _ hx))
  | print e => exact e.sites_rename ha
  | ret keyword value =>
    -- renaming leaves no value out
    have hf : ρ.feature a (.ret keyword value.isSome) =
        .ret keyword (value.map (Expr.rename ρ a)).isSome := by
      cases value <;> rfl
    exact (Expr.sites?_rename ha value).cons ha hf
  | varDecl name initializer =>
    have hname := (hs _ (List.mem_cons_self ..)).names name (List.mem_singleton_self name)
    have hi := Expr.sites?_rename (ha.initializing hname) initializer
    rw [Renaming.around_initializing ha hname] at hi
    exact hi.cons ha rfl
  | loop condition body =>
    exact (condition.sites_rename ha).append (Stmt.sites_rename (a := a.child 0) ha body
      fun x hx => hs x (List.mem_append_right _ hx))

/-- The sites in a list of renamed statements. -/
theorem Stmt.sitesIn_renameAll {a : Surroundings} (ha : ρ.Fresh a) (i : Nat) (ss : List Stmt)
    (hs : ∀ x ∈ Stmt.sitesIn a i ss, ρ.Suits x) :
    ρ.Maps (Stmt.sitesIn a i ss) (Stmt.sitesIn (ρ.around a) i (Stmt.renameAll ρ a i ss)) := by
  cases ss with
  | nil => exact .nil
  | cons s ss =>
    have hhead : ∀ x ∈ s.sites (a.child i), ρ.Suits x :=
      fun x hx => hs x (List.mem_append_left _ hx)
    have hss := Stmt.sitesIn_renameAll (ha.after hhead) (i + 1) ss
      fun x hx => hs x (List.mem_append_right _ hx)
    rw [Renaming.around_after hhead] at hss
    exact (Stmt.sites_rename (a := a.child i) ha s hhead).append hss

/-- The sites in a renamed function. -/
theorem FunDecl.sites_rename {a : Surroundings} (ha : ρ.Fresh a) (r : Surrounding) (f : FunDecl)
    (hs : ∀ x ∈ f.sites a r, ρ.Suits x) :
    ρ.Maps (f.sites a r) ((f.rename ρ a r).sites (ρ.around a) r) := by
  obtain ⟨name, params, body⟩ := f
  have hin : ρ.Fresh (a.enter (.routine r) []) := ha.enter _ [] (by simp)
  have hsp : ∀ x ∈ paramSites (a.enter (.routine r) []) params, ρ.Suits x :=
    fun x hx => hs x (List.mem_append_left _ hx)
  have hparams := paramSites_rename hin hsp
  have hne : ∀ p ∈ params, p.lexeme ≠ ρ.new := fun p hp => by
    obtain ⟨b, hb⟩ := exists_paramSite hsp p hp
    exact hb.names p (List.mem_singleton_self p)
  have hbody := Stmt.sitesIn_renameAll (hin.declareAll hne) 0 body
    fun x hx => hs x (List.mem_append_right _ hx)
  rw [Renaming.around_enter _ _ (by simp)] at hparams
  rw [Renaming.around_declareAll, Renaming.around_enter _ _ (by simp)] at hbody
  exact hparams.append hbody

/-- The sites in the renamed methods of a class. -/
theorem FunDecl.sitesIn_renameAll {a : Surroundings} (ha : ρ.Fresh a) (i : Nat)
    (fs : List FunDecl) (hs : ∀ x ∈ FunDecl.sitesIn a i fs, ρ.Suits x) :
    ρ.Maps (FunDecl.sitesIn a i fs)
      (FunDecl.sitesIn (ρ.around a) i (FunDecl.renameAll ρ a i fs)) := by
  cases fs with
  | nil => exact .nil
  | cons f fs =>
    have hf := FunDecl.sites_rename (a := a.child i) ha f.methodContext f
      fun x hx => hs x (List.mem_append_left _ hx)
    have hfs := FunDecl.sitesIn_renameAll ha (i + 1) fs
      fun x hx => hs x (List.mem_append_right _ hx)
    obtain ⟨name, params, body⟩ := f
    exact hf.append hfs

end

/-! ### What becomes of a site -/

namespace Renaming

theorem id_occurrence (a : Surroundings) (o : Occurrence) : (ρ.occurrence a o).id = o.id := by
  unfold occurrence
  split <;> rfl

theorem line_occurrence (ρ : Renaming) (a : Surroundings) (o : Occurrence) :
    (ρ.occurrence a o).token.line = o.token.line := by
  unfold occurrence
  split <;> rfl

/-- All occurrences are renamed alike, as reserved words stay as they are. -/
theorem occurrence_eq (a : Surroundings) {o : Occurrence} (h : o.Proper) :
    ρ.occurrence a o = { o with token := ρ.used a o.token } := by
  obtain ⟨id, kind, token⟩ := o
  unfold Occurrence.Proper at h
  cases kind with
  | variable_ => rfl
  | assign => rfl
  | this_ =>
    have hw : token.lexeme = Keyword.this_.text := h.lexeme_eq
    show _ = Occurrence.mk id .this_ (ρ.token _ token)
    rw [token_eq (by rw [hw, name_word])]
    rfl
  | super_ =>
    have hw : token.lexeme = Keyword.super_.text := h.lexeme_eq
    show _ = Occurrence.mk id .super_ (ρ.token _ token)
    rw [token_eq (by rw [hw, name_word])]
    rfl

theorem lexeme_occurrence (a : Surroundings) {o : Occurrence} (h : o.Proper) :
    (ρ.occurrence a o).token.lexeme = ρ.name (a.openerOf o.token.lexeme) o.token.lexeme := by
  rw [occurrence_eq a h]
  rfl

theorem occurrence_proper (a : Surroundings) {o : Occurrence} (h : o.Proper) :
    (ρ.occurrence a o).Proper := by
  obtain ⟨id, kind, token⟩ := o
  cases kind with
  | variable_ => exact token_isName h
  | assign => exact token_isName h
  | this_ => exact h
  | super_ => exact h

theorem occurrence?_site (x : Site) :
    (ρ.site x).occurrence? = x.occurrence?.map (ρ.occurrence x.around) := by
  obtain ⟨a, f⟩ := x
  cases f with
  | declaration kind name => cases kind <;> rfl
  | _ => rfl

theorem routine_around (a : Surroundings) : (ρ.around a).routine = a.routine := by
  unfold Surroundings.routine around
  rw [List.findSome?_map]
  rfl

theorem klass_around (a : Surroundings) : (ρ.around a).klass = a.klass := by
  unfold Surroundings.klass around
  rw [List.findSome?_map]
  rfl

theorem isPending_around {a : Surroundings} (ha : ρ.Fresh a) {t : Token}
    (ht : t.lexeme ≠ ρ.new) (h : a.isPending t = false) :
    (ρ.around a).isPending (ρ.used a t) = false := by
  obtain ⟨position, regions⟩ := a
  cases regions with
  | nil => rfl
  | cons g outer =>
    have hp : g.pending ≠ some t.lexeme := fun he => by
      simp [Surroundings.isPending, he] at h
    show (g.pending.map _ == some _) = false
    cases hg : g.pending with
    | none => rfl
    | some x =>
      have hx : x ≠ ρ.new := fun he => (ha g (by simp)).2 (by rw [hg, he])
      rw [Option.map_some, beq_eq_false_iff_ne]
      intro he
      exact hp (hg ▸ congrArg some (name_inj hx ht (Option.some.inj he)))

variable {x : Site} (hx : ρ.Suits x) (ha : ρ.Fresh x.around)

include hx ha

/-- A renamed site has its distance. -/
theorem entry?_site (hp : ∀ o ∈ x.occurrence?, o.Proper) :
    Site.entry? (ρ.site x) = Site.entry? x := by
  unfold Site.entry?
  rw [occurrence?_site]
  cases ho : x.occurrence? with
  | none => rfl
  | some o =>
    have hne : o.token.lexeme ≠ ρ.new := by
      obtain ⟨a, f⟩ := x
      cases f with
      | occurrence o' =>
        cases ho
        exact hx.names _ (List.mem_singleton_self _)
      | _ => cases ho
    rw [Option.map_some, Option.bind_some, Option.bind_some, id_occurrence,
      lexeme_occurrence _ (hp o ho)]
    exact congrArg _ (distance?_around ha hne)

/-- A renamed site has no new faults. -/
theorem faults_site (hf : x.faults = []) : (ρ.site x).faults = [] := by
  obtain ⟨a, f⟩ := x
  cases f with
  | occurrence o =>
    obtain ⟨id, kind, token⟩ := o
    cases kind with
    | variable_ =>
      have hne := hx.names token (List.mem_singleton_self token)
      exact Site.faultIf_eq_nil.mpr (isPending_around ha hne (Site.faultIf_eq_nil.mp hf))
    | assign => rfl
    | this_ =>
      show Site.faultIf ((ρ.around a).klass == .noClass) token .thisOutsideClass = []
      rw [klass_around]
      exact hf
    | super_ =>
      show Site.faultIf ((ρ.around a).klass == .noClass) token .superOutsideClass ++
        Site.faultIf ((ρ.around a).klass == .rootClass) token .superWithoutSuperclass = []
      rw [klass_around]
      exact hf
  | declaration kind name =>
    -- the new name is that of no other declaration, so it is declared as often as the old one
    have hne := hx.names name (List.mem_singleton_self name)
    have hd := isDeclared_around ha hne
    have hnew : a.isDeclared name = false := Site.faultIf_eq_nil.mp hf
    have hkept : kind = .function ∨ kind = .class_ → ρ.declared a name = name :=
      fun hk => token_eq (hx.kept kind name rfl hk)
    cases kind with
    | variable_ => exact Site.faultIf_eq_nil.mpr (hd.trans hnew)
    | parameter => exact Site.faultIf_eq_nil.mpr (hd.trans hnew)
    | function =>
      rw [hkept (Or.inl rfl)] at hd
      exact Site.faultIf_eq_nil.mpr (hd.trans hnew)
    | class_ =>
      rw [hkept (Or.inr rfl)] at hd
      exact Site.faultIf_eq_nil.mpr (hd.trans hnew)
  | ret keyword hasValue =>
    show Site.faultIf ((ρ.around a).routine == .noFunction) keyword .returnAtTopLevel ++
      Site.faultIf ((ρ.around a).routine == .initializer && hasValue) keyword
        .valueFromInitializer = []
    rw [routine_around]
    exact hf
  | inheritance name superclass =>
    have hn := hx.names name (List.mem_cons_self ..)
    have hs := hx.names superclass (List.mem_cons_of_mem _ (List.mem_singleton_self _))
    -- names that differ still do so, as nothing else has the new name
    have hne : superclass.lexeme ≠ name.lexeme := by
      simpa using Site.faultIf_eq_nil.mp hf
    refine Site.faultIf_eq_nil.mpr (beq_eq_false_iff_ne.mpr fun he => hne ?_)
    exact name_inj hs hn (he.trans (name_none name.lexeme).symm)

end Renaming

/-! ### Whole programs -/

theorem Expr.varToken?_rename (ρ : Renaming) (a : Surroundings) {e : Expr}
    (h : e.varToken?.isSome) : (e.rename ρ a).varToken?.isSome := by
  cases e with
  | var id name => rfl
  | _ => exact absurd h (by simp [Expr.varToken?])

theorem Stmt.declared?_rename (ρ : Renaming) (a : Surroundings) {s : Stmt}
    (h : s.declared? = none) : (s.rename ρ a).declared? = none := by
  cases s with
  | varDecl name initializer => cases h
  | function f => cases h
  | classDecl name superclass methods => cases h
  | branch condition thenBranch elseBranch => cases elseBranch <;> rfl
  | _ => rfl

mutual

/-- A renamed statement is proper. -/
theorem Stmt.rename_proper (ρ : Renaming) (a : Surroundings) (s : Stmt) (h : s.Proper) :
    (s.rename ρ a).Proper := by
  cases s with
  | block body => exact Stmt.renameAll_proper ρ _ 0 body h
  | classDecl name superclass methods =>
    unfold Stmt.Proper at h
    obtain ⟨hn, hs, hms⟩ := h
    cases superclass with
    | none => exact ⟨hn, by simp, FunDecl.renameAll_proper ρ _ 0 methods hms⟩
    | some e =>
      refine ⟨hn, fun e' he => ?_, FunDecl.renameAll_proper ρ _ 0 methods hms⟩
      cases he
      exact Expr.varToken?_rename ρ _ (hs e rfl)
  | expression e => trivial
  | function f => exact FunDecl.rename_proper ρ (a.declare f.name) .function f h
  | branch condition thenBranch elseBranch =>
    cases elseBranch with
    | none =>
      unfold Stmt.Proper at h
      exact ⟨Stmt.rename_proper ρ _ thenBranch h.1, Stmt.declared?_rename ρ _ h.2⟩
    | some elseBranch =>
      unfold Stmt.Proper at h
      obtain ⟨⟨ht, hdt⟩, he, hde⟩ := h
      exact ⟨⟨Stmt.rename_proper ρ _ thenBranch ht, Stmt.declared?_rename ρ _ hdt⟩,
        Stmt.rename_proper ρ _ elseBranch he, Stmt.declared?_rename ρ _ hde⟩
  | print e => trivial
  | ret keyword value => trivial
  | varDecl name initializer => exact Renaming.token_isName h
  | loop condition body =>
    unfold Stmt.Proper at h
    exact ⟨Stmt.rename_proper ρ _ body h.1, Stmt.declared?_rename ρ _ h.2⟩

theorem Stmt.renameAll_proper (ρ : Renaming) (a : Surroundings) (i : Nat) (ss : List Stmt)
    (h : Stmt.AllProper ss) : Stmt.AllProper (Stmt.renameAll ρ a i ss) := by
  cases ss with
  | nil => trivial
  | cons s ss =>
    exact ⟨Stmt.rename_proper ρ _ s h.1, Stmt.renameAll_proper ρ _ (i + 1) ss h.2⟩

theorem FunDecl.rename_proper (ρ : Renaming) (a : Surroundings) (r : Surrounding) (f : FunDecl)
    (h : f.Proper) : (f.rename ρ a r).Proper := by
  obtain ⟨name, params, body⟩ := f
  unfold FunDecl.Proper at h
  refine ⟨h.1, fun p hp => ?_, Stmt.renameAll_proper ρ _ 0 body h.2.2⟩
  obtain ⟨p', hp', rfl⟩ := List.mem_map.mp hp
  exact Renaming.token_isName (h.2.1 p' hp')

theorem FunDecl.renameAll_proper (ρ : Renaming) (a : Surroundings) (i : Nat) (fs : List FunDecl)
    (h : FunDecl.AllProper fs) : FunDecl.AllProper (FunDecl.renameAll ρ a i fs) := by
  cases fs with
  | nil => trivial
  | cons f fs =>
    exact ⟨FunDecl.rename_proper ρ _ _ f h.1, FunDecl.renameAll_proper ρ a (i + 1) fs h.2⟩

end

/-- The sites of a renamed program. -/
theorem sitesIn_rename {statements : List Stmt} {source : Nat}
    (hs : ∀ x ∈ Stmt.sitesIn (.top source) 0 statements, ρ.Suits x) :
    ρ.Maps (Stmt.sitesIn (.top source) 0 statements)
      (Stmt.sitesIn (.top source) 0 (Stmt.renameAll ρ (.top source) 0 statements)) :=
  Stmt.sitesIn_renameAll (a := .top source) (fun g hg => by cases hg) 0 statements hs

/-- A renamed program reads like the program. -/
theorem Parse.StmtsRead.rename {first next : Nat} {statements : List Stmt}
    (h : Parse.StmtsRead first statements next) {source : Nat}
    (hs : ∀ x ∈ Stmt.sitesIn (.top source) 0 statements, ρ.Suits x) :
    Parse.StmtsRead first (Stmt.renameAll ρ (.top source) 0 statements) next := by
  have hmap : Stmt.occurrencesIn (Stmt.renameAll ρ (.top source) 0 statements) =
      (Stmt.sitesIn (.top source) 0 statements).filterMap fun x =>
        x.occurrence?.map (ρ.occurrence x.around) := by
    rw [← Stmt.occurrences_sitesIn (.top source) 0, (sitesIn_rename hs).eq, List.filterMap_map]
    exact congrArg (List.filterMap · _) (funext Renaming.occurrence?_site)
  have hid : ∀ x : Site, (x.occurrence?.map (ρ.occurrence x.around)).map Occurrence.id =
      x.occurrence?.map Occurrence.id := by
    intro x
    cases x.occurrence? with
    | none => rfl
    | some o => exact congrArg some (Renaming.id_occurrence x.around o)
  refine ⟨⟨?_, fun o ho => ?_⟩, Stmt.renameAll_proper ρ _ 0 statements h.2⟩
  · have hids := h.1.1
    rw [← Stmt.occurrences_sitesIn (.top source) 0, List.map_filterMap] at hids
    rw [hmap, List.map_filterMap, funext hid]
    exact hids
  · rw [hmap] at ho
    obtain ⟨x, hx, he⟩ := List.mem_filterMap.mp ho
    obtain ⟨o', ho', rfl⟩ := Option.map_eq_some_iff.mp he
    obtain ⟨hfirst, hnext, hproper⟩ := h.site hx ho'
    rw [Renaming.id_occurrence]
    exact ⟨hfirst, hnext, Renaming.occurrence_proper _ hproper⟩

/-- Distances in another order are the same. -/
theorem Distances.find?_perm {ds ds' : Distances} (h : ds'.Perm ds)
    (hn : (ds.map Prod.fst).Nodup) (id : NodeId) : ds'.find? id = ds.find? id := by
  refine Option.ext fun d => ?_
  rw [Distances.find?_eq_some_iff hn, Distances.find?_eq_some_iff ((h.map _).nodup_iff.mpr hn),
    h.mem_iff]

/-- A renamed program binds as the program does. -/
theorem resolve_rename {first next : Nat} {statements : List Stmt}
    (h : Parse.StmtsRead first statements next) {source : Nat}
    (hs : ∀ x ∈ Stmt.sitesIn (.top source) 0 statements, ρ.Suits x)
    (hf : (resolve statements).faults = []) :
    (resolve (Stmt.renameAll ρ (.top source) 0 statements)).faults = [] ∧
      ∀ id, (resolve (Stmt.renameAll ρ (.top source) 0 statements)).distances.find? id =
        (resolve statements).distances.find? id := by
  have hmaps := sitesIn_rename hs
  have hexact := resolve_isExact h source
  have hexact' := resolve_isExact (h.rename hs) source
  constructor
  · rw [hexact'.faults_eq_nil_iff, hmaps.eq]
    intro y hy
    obtain ⟨x, hx, rfl⟩ := List.mem_map.mp hy
    exact Renaming.faults_site (hs x hx) (hmaps.fresh x hx) (hexact.faults_eq_nil_iff.mp hf x hx)
  · refine Distances.find?_perm (hexact'.entries.trans ?_) ?_
    · have hentry : ∀ x ∈ Stmt.sitesIn (.top source) 0 statements,
          (Site.entry? ∘ ρ.site) x = x.entry? := fun x hx =>
        Renaming.entry?_site (hs x hx) (hmaps.fresh x hx) fun o ho => (h.site hx ho).2.2
      rw [hmaps.eq, List.filterMap_map, List.filterMap_congr hentry]
      exact hexact.entries.symm
    · refine (hexact.entries.map Prod.fst).nodup_iff.mpr (List.Nodup.sublist
        (keys_entries_sublist _) ?_)
      rw [Stmt.occurrences_sitesIn]
      exact h.1.1

end

/-! ### The renamed declaration -/

theorem Site.binding?_eq_some_iff {x : Site} {kind : DeclarationKind} {name : Token}
    (hd : x.feature = .declaration kind name) {b : Opener × String} :
    x.binding? = some b ↔ x.around.openerAt 0 = some b.1 ∧ name.lexeme = b.2 := by
  unfold Site.binding?
  rw [hd]
  simp [Prod.ext_iff]

namespace Renaming

/-- The occurrence is bound to the variable: it has the name, and at its distance stands the
region. -/
def Binds (ρ : Renaming) (ds : Distances) (a : Surroundings) (o : Occurrence) : Prop :=
  o.token.lexeme = ρ.old ∧ ∃ d, ds.find? o.id = some d ∧ a.openerAt d = some ρ.target

/-- Of the sites of a program, the declaration at `x` gets the new name, and so does what is bound
to it.  All other declarations and occurrences stay as they are. -/
structure Renames (ρ : Renaming) (ds : Distances) (xs : List Site) (x : Site) : Prop where
  declared : ∀ kind name, x.feature = .declaration kind name →
    (ρ.site x).feature = .declaration kind { name with lexeme := ρ.new }
  kept : ∀ z ∈ xs, z ≠ x → ∀ kind name, z.feature = .declaration kind name →
    (ρ.site z).feature = .declaration kind name
  bound : ∀ z ∈ xs, ∀ o ∈ z.occurrence?, ρ.Binds ds z.around o →
    (ρ.site z).occurrence? = some { o with token := { o.token with lexeme := ρ.new } }
  unbound : ∀ z ∈ xs, ∀ o ∈ z.occurrence?, ¬ ρ.Binds ds z.around o →
    (ρ.site z).occurrence? = some o

variable {ρ : Renaming} {first next : Nat} {statements : List Stmt} {source : Nat}
  (h : Parse.StmtsRead first statements next) (hf : (resolve statements).faults = [])

theorem name_of_binding?_ne {z : Site} {kind : DeclarationKind} {name : Token}
    (hd : z.feature = .declaration kind name) (hz : z.binding? ≠ some (ρ.target, ρ.old)) :
    ρ.name (z.around.openerAt 0) name.lexeme = name.lexeme :=
  if_neg fun he => hz ((Site.binding?_eq_some_iff hd).mpr he)

include h in
/-- What is bound to a variable is what the resolution finds in the region of the variable. -/
theorem binds_iff {z : Site} (hz : z ∈ Stmt.sitesIn (.top source) 0 statements) {o : Occurrence}
    (ho : o ∈ z.occurrence?) :
    ρ.Binds (resolve statements).distances z.around o ↔
      z.around.openerOf o.token.lexeme = some ρ.target ∧ o.token.lexeme = ρ.old := by
  have hdistance : z.distance? = z.around.distance? o.token.lexeme := by
    unfold Site.distance?
    rw [show z.occurrence? = some o from ho]
    rfl
  unfold Binds Surroundings.openerOf
  rw [(resolve_isExact h source).distance z hz o ho, hdistance, Option.bind_eq_some_iff]
  exact and_comm

include h hf in
/-- A new name suits all sites of a program in which it does not occur, if what is renamed is a
variable or a parameter. -/
theorem suits_of_declaration {x : Site} (hx : x ∈ Stmt.sitesIn (.top source) 0 statements)
    {kind : DeclarationKind} {name : Token} (hd : x.feature = .declaration kind name)
    (hk : kind = .variable_ ∨ kind = .parameter) (hb : x.binding? = some (ρ.target, ρ.old))
    (hnew : ∀ z ∈ Stmt.sitesIn (.top source) 0 statements, ∀ t ∈ z.names, t.lexeme ≠ ρ.new) :
    ∀ z ∈ Stmt.sitesIn (.top source) 0 statements, ρ.Suits z := by
  have hapart := declarations_apart h.2 ((resolve_isExact h source).faults_eq_nil_iff.mp hf)
  refine fun z hz => ⟨hnew z hz, fun kind' name' hd' hk' => name_of_binding?_ne hd' fun hzb => ?_⟩
  cases hapart.eq hx hz hb hzb
  cases hd.symm.trans hd'
  rcases hk with rfl | rfl <;> simp at hk'

include h hf in
theorem renames_declaration {x : Site} (hx : x ∈ Stmt.sitesIn (.top source) 0 statements)
    {kind : DeclarationKind} {name : Token} (hd : x.feature = .declaration kind name)
    (hk : kind = .variable_ ∨ kind = .parameter) (hb : x.binding? = some (ρ.target, ρ.old)) :
    ρ.Renames (resolve statements).distances (Stmt.sitesIn (.top source) 0 statements) x := by
  have hapart := declarations_apart h.2 ((resolve_isExact h source).faults_eq_nil_iff.mp hf)
  have hsite : ∀ z ∈ Stmt.sitesIn (.top source) 0 statements, ∀ o ∈ z.occurrence?,
      (ρ.site z).occurrence? = some { o with token := ρ.used z.around o.token } := by
    intro z hz o ho
    rw [occurrence?_site, show z.occurrence? = some o from ho]
    exact congrArg some (occurrence_eq z.around (h.site hz ho).2.2)
  refine ⟨fun kind' name' hd' => ?_, fun z hz hne kind' name' hd' => ?_,
    fun z hz o ho hbinds => ?_, fun z hz o ho hbinds => ?_⟩
  · cases hd.symm.trans hd'
    obtain ⟨hopener, hname⟩ := (Site.binding?_eq_some_iff hd).mp hb
    have hnew : ρ.declared x.around name = { name with lexeme := ρ.new } := by
      unfold declared token
      rw [Renaming.name, if_pos ⟨hopener, hname⟩]
    show ρ.feature x.around x.feature = _
    rw [hd, ← hnew]
    rcases hk with rfl | rfl <;> rfl
  · have hname := name_of_binding?_ne hd' fun hzb => hne (hapart.eq hx hz hb hzb)
    show ρ.feature z.around z.feature = _
    rw [hd']
    cases kind' with
    | variable_ => exact congrArg (Feature.declaration _) (token_eq hname)
    | parameter => exact congrArg (Feature.declaration _) (token_eq hname)
    | function => rfl
    | class_ => rfl
  · rw [hsite z hz o ho, used, token, Renaming.name, if_pos ((binds_iff h hz ho).mp hbinds)]
  · rw [hsite z hz o ho, used, token_eq (if_neg fun he => hbinds ((binds_iff h hz ho).mpr he))]

end Renaming

end Lox
