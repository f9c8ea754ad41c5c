/-
The method around a place.

Around the body of a method lies the region of `this`, and around that one, if the class has a
superclass, the region of `super`.  No other place lies directly in either.  So `this` is first
visible one region farther out than the innermost method, and `super`, in a class with a superclass,
two.

* `Surroundings.method?` — how many regions out the innermost method is;
* `Layered` — how the kinds of the regions around a place follow on each other;
* `distance?_this_eq`, `distance?_super_eq` — where `this` and `super` are first visible;
* `Stmt.sitesIn_placed` — all sites of a program have such regions around them.
-/
import Lox.Proofs.Binding.Resolution

namespace Lox

/-! ### Kinds of regions -/

namespace RegionKind

/-- The body of a method. -/
def isMethod : RegionKind → Bool
  | .routine .method | .routine .initializer => true
  | _ => false

/-- The region of `this`. -/
def isReceiver : RegionKind → Bool
  | .receiver _ => true
  | _ => false

/-- The region of `super`. -/
def isAncestor : RegionKind → Bool
  | .ancestor => true
  | _ => false

/-- The class in whose methods `this` is visible. -/
def klass? : RegionKind → Option SurroundingClass
  | .receiver k => some k
  | _ => none

end RegionKind

/-- How the kinds of the regions around a place follow on each other, the innermost first: a
method of a class stands in the region of `this`, and that one in the region of `super` if the
class has a superclass. -/
inductive Layered : List RegionKind → Prop
  | top : Layered []
  | block {outer : List RegionKind} (h : Layered outer) : Layered (.block :: outer)
  | function {outer : List RegionKind} (h : Layered outer) :
      Layered (.routine .function :: outer)
  | rootMethod {outer : List RegionKind} {s : Surrounding}
      (hs : (RegionKind.routine s).isMethod = true) (h : Layered outer) :
      Layered (.routine s :: .receiver .rootClass :: outer)
  | submethod {outer : List RegionKind} {s : Surrounding}
      (hs : (RegionKind.routine s).isMethod = true) (h : Layered outer) :
      Layered (.routine s :: .receiver .subclass :: .ancestor :: outer)

namespace Layered

variable {kinds : List RegionKind}

/-- The region of `this` is the one around the innermost method. -/
theorem receiver_eq (h : Layered kinds) :
    kinds.findIdx? RegionKind.isReceiver = (kinds.findIdx? RegionKind.isMethod).map (· + 1) := by
  induction h with
  | top => rfl
  | block _ ih | function _ ih =>
    rw [List.findIdx?_cons, List.findIdx?_cons, ih]
    simp [RegionKind.isReceiver, RegionKind.isMethod]
  | rootMethod hs _ _ | submethod hs _ _ =>
    simp [List.findIdx?_cons, RegionKind.isReceiver, hs]

/-- In a class with a superclass the region of `super` is the one around that of `this`. -/
theorem ancestor_eq (h : Layered kinds) (hk : kinds.findSome? RegionKind.klass? = some .subclass) :
    kinds.findIdx? RegionKind.isAncestor = (kinds.findIdx? RegionKind.isMethod).map (· + 2) := by
  induction h with
  | top => rfl
  | block _ ih | function _ ih =>
    rw [List.findIdx?_cons, List.findIdx?_cons, ih hk]
    simp [RegionKind.isAncestor, RegionKind.isMethod, Function.comp_def]
  | rootMethod hs _ _ => cases hk
  | submethod hs _ _ => simp [List.findIdx?_cons, RegionKind.isAncestor, hs]

/-- There is a method around each place in a class. -/
theorem method_of_class (h : Layered kinds) {k : SurroundingClass}
    (hk : kinds.findSome? RegionKind.klass? = some k) :
    ∃ n, kinds.findIdx? RegionKind.isMethod = some n ∧ kinds[n + 1]? = some (.receiver k) ∧
      (k = .subclass → kinds[n + 2]? = some .ancestor) := by
  induction h with
  | top => cases hk
  | block _ ih | function _ ih =>
    obtain ⟨n, hn, hr, ha⟩ := ih hk
    refine ⟨n + 1, ?_, hr, ha⟩
    rw [List.findIdx?_cons, hn]
    simp [RegionKind.isMethod]
  | rootMethod hs _ _ =>
    cases hk
    exact ⟨0, by simp [List.findIdx?_cons, hs], rfl, fun he => by cases he⟩
  | submethod hs _ _ =>
    cases hk
    exact ⟨0, by simp [List.findIdx?_cons, hs], rfl, fun _ => rfl⟩

end Layered

namespace Surroundings

/-- The kinds of the regions around a place, the innermost first. -/
def kinds (a : Surroundings) : List RegionKind :=
  a.regions.map fun g => g.opener.kind

/-- How many regions out the body of the innermost method is. -/
def method? (a : Surroundings) : Option Nat :=
  a.regions.findIdx? fun g => g.opener.kind.isMethod

variable (a : Surroundings)

@[simp] theorem kinds_declare (name : Token) : (a.declare name).kinds = a.kinds := by
  obtain ⟨position, regions⟩ := a
  cases regions <;> rfl

@[simp] theorem kinds_declareAll (names : List Token) : (a.declareAll names).kinds = a.kinds := by
  induction names generalizing a with
  | nil => rfl
  | cons name names ih => exact (ih (a.declare name)).trans (a.kinds_declare name)

@[simp] theorem kinds_initializing (name : Token) : (a.initializing name).kinds = a.kinds := by
  obtain ⟨position, regions⟩ := a
  cases regions with
  | nil => rfl
  | cons g outer =>
    unfold initializing
    simp only
    split
    · rfl
    · rfl

@[simp] theorem kinds_after (s : Stmt) : (a.after s).kinds = a.kinds := by
  unfold after
  split
  · exact a.kinds_declare _
  · rfl

theorem method?_eq : a.method? = a.kinds.findIdx? RegionKind.isMethod := by
  unfold method? kinds
  rw [List.findIdx?_map]
  rfl

theorem klass_eq : a.klass = (a.kinds.findSome? RegionKind.klass?).getD .noClass := by
  unfold klass kinds
  rw [List.findSome?_map]
  rfl

/-- In a class there is a region of `this`. -/
theorem findSome?_klass {a : Surroundings} (hk : a.klass ≠ .noClass) :
    a.kinds.findSome? RegionKind.klass? = some a.klass := by
  rw [klass_eq] at hk ⊢
  cases hf : a.kinds.findSome? RegionKind.klass? with
  | none => exact absurd (by rw [hf]; rfl) hk
  | some k => rfl

end Surroundings

/-! ### Where `this` and `super` are visible -/

/-- A reserved word is visible in a genuine region of its kind and in no other. -/
theorem Region.Genuine.contains_this {g : Region} (h : g.Genuine) :
    g.names.contains "this" = g.opener.kind.isReceiver := by
  obtain ⟨⟨kind, position⟩, names, pending⟩ := g
  cases kind with
  | receiver k =>
    obtain ⟨-, hn, -⟩ : k ≠ .noClass ∧ names = ["this"] ∧ pending = none := h
    simp [hn, RegionKind.isReceiver]
  | ancestor =>
    obtain ⟨hn, -⟩ : names = ["super"] ∧ pending = none := h
    simp [hn, RegionKind.isReceiver]
  | block | routine s =>
    have hn : "this" ∉ names := fun hm => h _ hm .this_ rfl
    simp [hn, RegionKind.isReceiver]

theorem Region.Genuine.contains_super {g : Region} (h : g.Genuine) :
    g.names.contains "super" = g.opener.kind.isAncestor := by
  obtain ⟨⟨kind, position⟩, names, pending⟩ := g
  cases kind with
  | receiver k =>
    obtain ⟨-, hn, -⟩ : k ≠ .noClass ∧ names = ["this"] ∧ pending = none := h
    simp [hn, RegionKind.isAncestor]
  | ancestor =>
    obtain ⟨hn, -⟩ : names = ["super"] ∧ pending = none := h
    simp [hn, RegionKind.isAncestor]
  | block | routine s =>
    have hn : "super" ∉ names := fun hm => h _ hm .super_ rfl
    simp [hn, RegionKind.isAncestor]

namespace Surroundings

variable {a : Surroundings}

/-- A name that is visible in the regions of one kind is first visible in the innermost of them. -/
theorem distance?_of_kind {x : String} {isKind : RegionKind → Bool}
    (h : ∀ g ∈ a.regions, g.names.contains x = isKind g.opener.kind) :
    a.distance? x = a.kinds.findIdx? isKind := by
  obtain ⟨position, regions⟩ := a
  unfold distance? kinds
  simp only at h ⊢
  induction regions with
  | nil => rfl
  | cons g outer ih =>
    rw [List.map_cons, List.findIdx?_cons, List.findIdx?_cons, h g (List.mem_cons_self ..),
      ih fun g hg => h g (List.mem_cons_of_mem _ hg)]

/-- `this` is first visible around the innermost method. -/
theorem distance?_this_eq (h : Layered a.kinds) (hg : a.Genuine) :
    a.distance? "this" = a.method?.map (· + 1) := by
  rw [distance?_of_kind fun g hm => (hg g hm).contains_this, h.receiver_eq, method?_eq]

/-- In a class with a superclass `super` is first visible around `this`. -/
theorem distance?_super_eq (h : Layered a.kinds) (hg : a.Genuine) (hk : a.klass = .subclass) :
    a.distance? "super" = a.method?.map (· + 2) := by
  rw [distance?_of_kind fun g hm => (hg g hm).contains_super,
    h.ancestor_eq (hk ▸ findSome?_klass (by simp [hk])), method?_eq]

/-- Around a place in a class there is a method, and around it the region of `this`. -/
theorem exists_method (h : Layered a.kinds) (hk : a.klass ≠ .noClass) :
    ∃ n, a.method? = some n ∧ a.kinds[n + 1]? = some (.receiver a.klass) ∧
      (a.klass = .subclass → a.kinds[n + 2]? = some .ancestor) := by
  obtain ⟨n, hn, hr⟩ := h.method_of_class (findSome?_klass hk)
  exact ⟨n, a.method?_eq.trans hn, hr⟩

/-- The region of a kind. -/
theorem region_of_kind {k : Nat} {kind : RegionKind} (h : a.kinds[k]? = some kind) :
    ∃ g, a.regions[k]? = some g ∧ g.opener.kind = kind := by
  unfold kinds at h
  rw [List.getElem?_map] at h
  exact Option.map_eq_some_iff.mp h

/-- The region of the innermost method. -/
theorem region_of_method {n : Nat} (h : a.method? = some n) :
    ∃ g, a.regions[n]? = some g ∧ g.opener.kind.isMethod = true := by
  unfold method? at h
  obtain ⟨hlt, hm, -⟩ := List.findIdx?_eq_some_iff_getElem.mp h
  exact ⟨a.regions[n], List.getElem?_eq_getElem hlt, hm⟩

end Surroundings

/-! ### The sites of a program -/

/-- A site as it stands in programs: the regions around it follow on each other as they should, and
what it declares is an identifier. -/
structure Site.Placed (x : Site) : Prop where
  layered : Layered x.around.kinds
  names : ∀ kind name, x.feature = .declaration kind name → name.IsName

theorem FunDecl.methodContext_isMethod (f : FunDecl) :
    (RegionKind.routine f.methodContext).isMethod = true := by
  unfold FunDecl.methodContext
  split <;> rfl

section

variable {a : Surroundings}

theorem Expr.sites?_placed (ha : Layered a.kinds) (e : Option Expr) :
    ∀ x ∈ Expr.sites? a e, x.Placed := by
  intro x hx
  obtain ⟨o, -, rfl⟩ := List.mem_map.mp hx
  exact ⟨ha, fun _ _ h => by cases h⟩

theorem Expr.sites_placed (ha : Layered a.kinds) (e : Expr) : ∀ x ∈ e.sites a, x.Placed :=
  Expr.sites?_placed ha (some e)

theorem inheritanceSites_placed (ha : Layered a.kinds) (name : Token) (e : Expr) :
    ∀ x ∈ inheritanceSites a name e, x.Placed := by
  intro x hx
  obtain ⟨super, -, rfl⟩ := List.mem_map.mp hx
  exact ⟨ha, fun _ _ h => by cases h⟩

theorem declaration_placed (ha : Layered a.kinds) (kind : DeclarationKind) {name : Token}
    (hn : name.IsName) : Site.Placed ⟨a, .declaration kind name⟩ :=
  ⟨ha, fun _ _ h => by cases h; exact hn⟩

theorem paramSites_placed (ha : Layered a.kinds) {ps : List Token} (hps : ∀ t ∈ ps, t.IsName) :
    ∀ x ∈ paramSites a ps, x.Placed := by
  induction ps generalizing a with
  | nil => exact fun x hx => by cases hx
  | cons p ps ih =>
    refine List.forall_mem_cons.mpr
      ⟨declaration_placed ha .parameter (hps p (List.mem_cons_self ..)), ?_⟩
    exact ih (by rwa [Surroundings.kinds_declare]) fun t ht => hps t (List.mem_cons_of_mem _ ht)

end

mutual

/-- The sites in a proper statement. -/
theorem Stmt.sites_placed {a : Surroundings} (ha : Layered a.kinds) (s : Stmt) (hs : s.Proper) :
    ∀ x ∈ s.sites a, x.Placed := by
  cases s with
  | block body => exact Stmt.sitesIn_placed (a := a.enter .block []) ha.block 0 body hs
  | classDecl name superclass methods =>
    -- only the bodies of methods stand directly in the regions that a class opens
    unfold Stmt.Proper at hs
    obtain ⟨hn, -, hms⟩ := hs
    have hd : Layered (a.declare name).kinds := by rwa [Surroundings.kinds_declare]
    cases superclass with
    | none =>
      refine List.forall_mem_cons.mpr ⟨declaration_placed ha .class_ hn, ?_⟩
      exact FunDecl.sitesIn_placed (a := (a.declare name).enter (.receiver .rootClass) ["this"])
        (fun hm => .rootMethod hm hd) 0 methods hms
    | some e =>
      show ∀ x ∈ ⟨a, .declaration .class_ name⟩ :: inheritanceSites (a.declare name) name e ++
        e.sites (a.declare name) ++ FunDecl.sitesIn _ 0 methods, x.Placed
      refine List.forall_mem_append.mpr ⟨List.forall_mem_append.mpr ⟨?_, e.sites_placed hd⟩, ?_⟩
      · exact List.forall_mem_cons.mpr
          ⟨declaration_placed ha .class_ hn, inheritanceSites_placed hd name e⟩
      · exact FunDecl.sitesIn_placed
          (a := ((a.declare name).enter .ancestor ["super"]).enter (.receiver .subclass) ["this"])
          (fun hm => .submethod hm hd) 0 methods hms
  | expression e => exact e.sites_placed ha
  | function f =>
    unfold Stmt.Proper at hs
    refine List.forall_mem_cons.mpr ⟨declaration_placed ha .function hs.name_isName, ?_⟩
    refine FunDecl.sites_placed (.function ?_) f hs
    rwa [Surroundings.kinds_declare]
  | branch condition thenBranch elseBranch =>
    cases elseBranch with
    | none =>
      rw [Stmt.sites]
      exact List.forall_mem_append.mpr ⟨condition.sites_placed ha,
        Stmt.sites_placed (a := a.child 0) ha thenBranch hs.1⟩
    | some elseBranch =>
      rw [Stmt.sites]
      exact List.forall_mem_append.mpr ⟨List.forall_mem_append.mpr ⟨condition.sites_placed ha,
        Stmt.sites_placed (a := a.child 0) ha thenBranch hs.1.1⟩,
        Stmt.sites_placed (a := a.child 1) ha elseBranch hs.2.1⟩
  | print e => exact e.sites_placed ha
  | ret keyword value =>
    exact List.forall_mem_cons.mpr ⟨⟨ha, fun _ _ h => by cases h⟩, Expr.sites?_placed ha value⟩
  | varDecl name initializer =>
    unfold Stmt.Proper at hs
    refine List.forall_mem_cons.mpr
      ⟨declaration_placed ha .variable_ hs, Expr.sites?_placed ?_ initializer⟩
    rwa [Surroundings.kinds_initializing]
  | loop condition body =>
    rw [Stmt.sites]
    exact List.forall_mem_append.mpr ⟨condition.sites_placed ha,
      Stmt.sites_placed (a := a.child 0) ha body hs.1⟩

/-- The sites in a list of proper statements. -/
theorem Stmt.sitesIn_placed {a : Surroundings} (ha : Layered a.kinds) (i : Nat) (ss : List Stmt)
    (hss : Stmt.AllProper ss) : ∀ x ∈ Stmt.sitesIn a i ss, x.Placed := by
  cases ss with
  | nil => exact fun x hx => by cases hx
  | cons s ss =>
    rw [Stmt.sitesIn]
    refine List.forall_mem_append.mpr ⟨Stmt.sites_placed (a := a.child i) ha s hss.1, ?_⟩
    exact Stmt.sitesIn_placed (by rwa [Surroundings.kinds_after]) (i + 1) ss hss.2

/-- The sites in a proper function, inside of the region of its body. -/
theorem FunDecl.sites_placed {a : Surroundings} {r : Surrounding}
    (ha : Layered (.routine r :: a.kinds)) (f : FunDecl) (hf : f.Proper) :
    ∀ x ∈ f.sites a r, x.Placed := by
  cases f with
  | mk name params body =>
    unfold FunDecl.Proper at hf
    obtain ⟨-, hps, hbody⟩ := hf
    rw [FunDecl.sites]
    refine List.forall_mem_append.mpr
      ⟨paramSites_placed (a := a.enter (.routine r) []) ha hps, ?_⟩
    exact Stmt.sitesIn_placed (by rwa [Surroundings.kinds_declareAll]) 0 body hbody

/-- The sites in the proper methods of a class. -/
theorem FunDecl.sitesIn_placed {a : Surroundings}
    (ha : ∀ {r}, (RegionKind.routine r).isMethod = true → Layered (.routine r :: a.kinds))
    (i : Nat) (fs : List FunDecl) (hfs : FunDecl.AllProper fs) :
    ∀ x ∈ FunDecl.sitesIn a i fs, x.Placed := by
  cases fs with
  | nil => exact fun x hx => by cases hx
  | cons f fs =>
    rw [FunDecl.sitesIn]
    exact List.forall_mem_append.mpr
      ⟨FunDecl.sites_placed (a := a.child i) (ha f.methodContext_isMethod) f hfs.1,
        FunDecl.sitesIn_placed ha (i + 1) fs hfs.2⟩

end

end Lox
