/-
Local names are declared once.

In a program without faults no name is declared twice in a region, so that the construct that opens
the region and the name together tell the declaration.

* `Site.binding?` — what a local declaration binds;
* `Stmt.binds` — what the declarations in a statement bind differs, and belongs to the innermost
  region around the statement or to a region that is opened in it;
* `declarations_apart` — what the declarations in a whole program bind.

Design notes: a region that is opened in a statement has an opener at the position of the statement
or below it, while the openers around the statement stand above.  Positions alone keep the names of
different regions apart.
-/
import Lox.Proofs.Binding.Resolution

namespace Lox

/-- What a local declaration binds: the region by its opener, and the name. -/
def Site.binding? (x : Site) : Option (Opener × String) :=
  match x.feature with
  | .declaration _ name => (x.around.openerAt 0).map fun o => (o, name.lexeme)
  | _ => none

namespace Surroundings

/-- The names that are visible in the innermost region. -/
def innermost (a : Surroundings) : List String :=
  (a.regions.head?.map Region.names).getD []

theorem isDeclared_iff (a : Surroundings) (name : Token) :
    a.isDeclared name = true ↔ name.lexeme ∈ a.innermost := by
  obtain ⟨position, regions⟩ := a
  cases regions with
  | nil => simp [isDeclared, innermost]
  | cons r outer => simp [isDeclared, innermost]

@[simp] theorem position_declare (a : Surroundings) (name : Token) :
    (a.declare name).position = a.position := by
  obtain ⟨position, regions⟩ := a
  cases regions with
  | nil => rfl
  | cons r outer => rfl

@[simp] theorem openerAt_declare (a : Surroundings) (name : Token) (d : Nat) :
    (a.declare name).openerAt d = a.openerAt d := by
  obtain ⟨position, regions⟩ := a
  cases regions with
  | nil => rfl
  | cons r outer =>
    cases d with
    | zero => rfl
    | succ d => rfl

@[simp] theorem position_after (a : Surroundings) (s : Stmt) :
    (a.after s).position = a.position := by
  unfold after
  split
  · exact a.position_declare _
  · rfl

@[simp] theorem openerAt_after (a : Surroundings) (s : Stmt) (d : Nat) :
    (a.after s).openerAt d = a.openerAt d := by
  unfold after
  split
  · exact a.openerAt_declare _ d
  · rfl

theorem position_child_after (a : Surroundings) (s : Stmt) (i : Nat) :
    ((a.after s).child i).position = (a.child i).position := by
  unfold child
  rw [position_after]

@[simp] theorem position_declareAll (a : Surroundings) (names : List Token) :
    (a.declareAll names).position = a.position := by
  induction names generalizing a with
  | nil => rfl
  | cons name names ih => exact (ih (a.declare name)).trans (a.position_declare name)

theorem position_child_declareAll (a : Surroundings) (names : List Token) (i : Nat) :
    ((a.declareAll names).child i).position = (a.child i).position := by
  unfold child
  rw [position_declareAll]

@[simp] theorem openerAt_declareAll (a : Surroundings) (names : List Token) (d : Nat) :
    (a.declareAll names).openerAt d = a.openerAt d := by
  induction names generalizing a with
  | nil => rfl
  | cons name names ih => exact (ih (a.declare name)).trans (a.openerAt_declare name d)

theorem mem_innermost_declare {a : Surroundings} {x : String} (h : x ∈ a.innermost)
    (name : Token) : x ∈ (a.declare name).innermost := by
  obtain ⟨position, regions⟩ := a
  cases regions with
  | nil => exact h
  | cons r outer => exact List.mem_cons_of_mem _ h

theorem lexeme_mem_innermost_declare {a : Surroundings} {o : Opener} (h : a.openerAt 0 = some o)
    (name : Token) : name.lexeme ∈ (a.declare name).innermost := by
  obtain ⟨position, regions⟩ := a
  cases regions with
  | nil => cases h
  | cons r outer => exact List.mem_cons_self ..

theorem mem_innermost_after {a : Surroundings} {x : String} (h : x ∈ a.innermost) (s : Stmt) :
    x ∈ (a.after s).innermost := by
  unfold after
  split
  · exact mem_innermost_declare h _
  · exact h

theorem declared_mem_innermost_after {a : Surroundings} {o : Opener} (h : a.openerAt 0 = some o)
    {s : Stmt} {name : Token} (hn : name ∈ s.declared?) :
    name.lexeme ∈ (a.after s).innermost := by
  unfold after
  rw [Option.mem_def.mp hn]
  exact lexeme_mem_innermost_declare h name

theorem mem_innermost_declareAll {a : Surroundings} {x : String} (h : x ∈ a.innermost)
    (names : List Token) : x ∈ (a.declareAll names).innermost := by
  induction names generalizing a with
  | nil => exact h
  | cons name names ih => exact ih (mem_innermost_declare h name)

/-- What stands at or below a position. -/
def Encloses (a : Surroundings) (b : Opener × String) : Prop :=
  a.position.path <+: b.1.position.path

/-- The innermost region was opened above a place, or at it. -/
def Above (a : Surroundings) : Prop :=
  ∀ o ∈ a.openerAt 0, o.position.path.length ≤ a.position.path.length

theorem Encloses.of_position {a a' : Surroundings} {b : Opener × String} (h : a'.Encloses b)
    (hp : a'.position = a.position) : a.Encloses b := by
  unfold Encloses at h ⊢
  rwa [← hp]

theorem Encloses.of_child {a : Surroundings} {i : Nat} {b : Opener × String}
    (h : (a.child i).Encloses b) : a.Encloses b :=
  (List.prefix_append _ _).trans h

/-- Nothing stands below two parts of a place. -/
theorem Encloses.child_inj {a : Surroundings} {i j : Nat} {b : Opener × String}
    (h : (a.child i).Encloses b) (h' : (a.child j).Encloses b) : i = j := by
  have hle : (a.position.path ++ [i]).length ≤ (a.position.path ++ [j]).length := by simp
  have hp : a.position.path ++ [i] <+: a.position.path ++ [j] :=
    List.prefix_of_prefix_length_le h h' hle
  simpa using hp

/-- The innermost region around a place is not opened in a part of it. -/
theorem Above.not_encloses {a : Surroundings} (h : a.Above) {i : Nat} {b : Opener × String}
    (ho : a.openerAt 0 = some b.1) : ¬ (a.child i).Encloses b := by
  intro hp
  have hle := h b.1 ho
  have hlt : (a.position.path ++ [i]).length ≤ b.1.position.path.length := hp.length_le
  rw [List.length_append, List.length_singleton] at hlt
  omega

theorem above_enter (a : Surroundings) (kind : RegionKind) (names : List String) :
    (a.enter kind names).Above := by
  intro o ho
  cases ho
  exact Nat.le_refl _

theorem Above.declare {a : Surroundings} (h : a.Above) (name : Token) : (a.declare name).Above := by
  intro o ho
  rw [openerAt_declare] at ho
  rw [position_declare]
  exact h o ho

theorem Above.after {a : Surroundings} (h : a.Above) (s : Stmt) : (a.after s).Above := by
  intro o ho
  rw [openerAt_after] at ho
  rw [position_after]
  exact h o ho

theorem Above.declareAll {a : Surroundings} (h : a.Above) (names : List Token) :
    (a.declareAll names).Above := by
  intro o ho
  rw [openerAt_declareAll] at ho
  rw [position_declareAll]
  exact h o ho

theorem Above.child {a : Surroundings} (h : a.Above) (i : Nat) : (a.child i).Above := by
  intro o ho
  refine Nat.le_trans (h o ho) ?_
  show a.position.path.length ≤ (a.position.path ++ [i]).length
  rw [List.length_append]
  omega

end Surroundings

/-- A new name of the innermost region, which is not visible in it yet. -/
def Surroundings.Gains (a : Surroundings) (b : Opener × String) : Prop :=
  a.openerAt 0 = some b.1 ∧ b.2 ∉ a.innermost

/-- What a statement may bind: the new name that it declares, or a name of a region that is opened
in it. -/
def Stmt.Binds (s : Stmt) (a : Surroundings) (b : Opener × String) : Prop :=
  (a.Gains b ∧ ∃ name ∈ s.declared?, name.lexeme = b.2) ∨ a.Encloses b

/-- What statements may bind from the `i`-th part on: new names, and names of regions that are
opened in the parts. -/
def Surroundings.BindsFrom (a : Surroundings) (i : Nat) (b : Opener × String) : Prop :=
  a.Gains b ∨ ∃ j, i ≤ j ∧ (a.child j).Encloses b

/-- What sites bind differs, and no name is a reserved word. -/
structure BindApart (xs : List Site) (may : Opener × String → Prop) : Prop where
  nodup : (xs.filterMap Site.binding?).Nodup
  binds : ∀ b ∈ xs.filterMap Site.binding?, may b
  ne_text : ∀ b ∈ xs.filterMap Site.binding?, ∀ k : Keyword, b.2 ≠ k.text

namespace BindApart

variable {xs ys : List Site} {may may' : Opener × String → Prop}

theorem of_eq (h : BindApart ys may)
    (he : xs.filterMap Site.binding? = ys.filterMap Site.binding?) : BindApart xs may :=
  ⟨he ▸ h.nodup, he ▸ h.binds, he ▸ h.ne_text⟩

theorem of_none (h : xs.filterMap Site.binding? = []) : BindApart xs may :=
  have hno : ∀ b, b ∉ xs.filterMap Site.binding? := fun b hb => by rw [h] at hb; cases hb
  ⟨h ▸ List.nodup_nil, fun b hb => absurd hb (hno b), fun b hb => absurd hb (hno b)⟩

theorem weaken (h : BindApart xs may) (hm : ∀ b, may b → may' b) : BindApart xs may' :=
  ⟨h.nodup, fun b hb => hm b (h.binds b hb), h.ne_text⟩

theorem append (hx : BindApart xs may) (hy : BindApart ys may') (hd : ∀ b, may b → ¬ may' b) :
    BindApart (xs ++ ys) fun b => may b ∨ may' b := by
  refine ⟨?_, fun b hb => ?_, fun b hb => ?_⟩
  · rw [List.filterMap_append]
    exact hx.nodup.append hy.nodup fun b hbx hby => hd b (hx.binds b hbx) (hy.binds b hby)
  · rw [List.filterMap_append] at hb
    exact (List.mem_append.mp hb).imp (hx.binds b) (hy.binds b)
  · rw [List.filterMap_append] at hb
    exact (List.mem_append.mp hb).elim (hx.ne_text b) (hy.ne_text b)

/-- A name that is bound at a site is bound at no other one. -/
theorem eq (h : BindApart xs may) {x y : Site} (hx : x ∈ xs) (hy : y ∈ xs)
    {b : Opener × String} (hxb : x.binding? = some b) (hyb : y.binding? = some b) : y = x :=
  eq_of_nodup_filterMap h.nodup hx hy hxb hyb

/-- A name that is bound at a site is no reserved word. -/
theorem name_ne (h : BindApart xs may) {x : Site} (hx : x ∈ xs) {b : Opener × String}
    (hxb : x.binding? = some b) (k : Keyword) : b.2 ≠ k.text :=
  h.ne_text b (List.mem_filterMap.mpr ⟨x, hx, hxb⟩) k

end BindApart

theorem Expr.bindings_sites (a : Surroundings) (e : Expr) :
    (e.sites a).filterMap Site.binding? = [] := by
  simp [Expr.sites, List.filterMap_map, Function.comp_def, Site.binding?]

theorem Expr.bindings_sites? (a : Surroundings) (e : Option Expr) :
    (Expr.sites? a e).filterMap Site.binding? = [] := by
  simp [Expr.sites?, List.filterMap_map, Function.comp_def, Site.binding?]

theorem bindings_inheritanceSites (a : Surroundings) (name : Token) (e : Expr) :
    (inheritanceSites a name e).filterMap Site.binding? = [] := by
  simp [inheritanceSites, List.filterMap_map, Function.comp_def, Site.binding?]

/-- A declaration without a fault binds a new name, if it is a local one. -/
theorem Site.declaration_gains {a : Surroundings} {kind : DeclarationKind} {name : Token}
    (hn : name.IsName) (hf : (Site.mk a (.declaration kind name)).faults = []) :
    BindApart [⟨a, .declaration kind name⟩] fun b => a.Gains b ∧ name.lexeme = b.2 := by
  have hnew : name.lexeme ∉ a.innermost := by
    rw [← a.isDeclared_iff, Site.faultIf_eq_nil.mp hf]
    simp
  cases ho : a.openerAt 0 with
  | none => exact .of_none (by simp [Site.binding?, ho])
  | some o =>
    have hb : [Site.mk a (.declaration kind name)].filterMap Site.binding? =
        [(o, name.lexeme)] := by
      simp [Site.binding?, ho]
    refine ⟨hb ▸ List.nodup_singleton _, fun b hm => ?_, fun b hm => ?_⟩
    · rw [hb] at hm
      cases List.mem_singleton.mp hm
      exact ⟨⟨ho, hnew⟩, rfl⟩
    · rw [hb] at hm
      cases List.mem_singleton.mp hm
      exact hn.lexeme_ne

/-- Parameters bind new names, each of which is visible behind them. -/
theorem paramSites_gains {a : Surroundings} {ps : List Token} (hn : ∀ p ∈ ps, p.IsName)
    (hf : ∀ x ∈ paramSites a ps, x.faults = []) :
    BindApart (paramSites a ps) fun b => a.Gains b ∧ b.2 ∈ (a.declareAll ps).innermost := by
  induction ps generalizing a with
  | nil => exact .of_none rfl
  | cons p ps ih =>
    have hp := Site.declaration_gains (hn p (List.mem_cons_self ..)) (hf _ (List.mem_cons_self ..))
    have hps := ih (fun q hq => hn q (List.mem_cons_of_mem _ hq))
      fun x hx => hf x (List.mem_cons_of_mem _ hx)
    refine (hp.append hps ?_).weaken fun b hb => ?_
    · rintro b ⟨⟨ho, -⟩, hn⟩ ⟨⟨-, hnew⟩, -⟩
      exact hnew (hn ▸ Surroundings.lexeme_mem_innermost_declare ho p)
    · rcases hb with ⟨hg, hn⟩ | ⟨⟨ho, hnew⟩, hvisible⟩
      · refine ⟨hg, Surroundings.mem_innermost_declareAll ?_ ps⟩
        exact hn ▸ Surroundings.lexeme_mem_innermost_declare hg.1 p
      · rw [Surroundings.openerAt_declare] at ho
        exact ⟨⟨ho, fun hm => hnew (Surroundings.mem_innermost_declare hm p)⟩, hvisible⟩

/-- What is bound inside of a region that is opened at a place stands at the place or below. -/
theorem Surroundings.BindsFrom.encloses {a a' : Surroundings} {i : Nat} {b : Opener × String}
    (h : a'.BindsFrom i b) (hp : a'.position = a.position)
    (ho : ∀ o ∈ a'.openerAt 0, o.position = a.position) : a.Encloses b := by
  rcases h with ⟨hb, -⟩ | ⟨j, -, hj⟩
  · unfold Surroundings.Encloses
    exact (ho b.1 hb).symm ▸ List.prefix_rfl
  · exact hj.of_child.of_position hp

/-- A statement that declares nothing binds names of regions that are opened in it. -/
theorem Stmt.Binds.encloses {s : Stmt} {a : Surroundings} {b : Opener × String} (h : s.Binds a b)
    (hs : s.declared? = none) : a.Encloses b := by
  rcases h with ⟨-, name, hn, -⟩ | h
  · rw [hs] at hn
    cases hn
  · exact h

theorem Stmt.Binds.encloses_child {s : Stmt} {a : Surroundings} {i : Nat} {b : Opener × String}
    (h : s.Binds (a.child i) b) (hs : s.declared? = none) : a.Encloses b :=
  (h.encloses hs).of_child

/-- A declaration binds its name, and names of regions that are opened in it. -/
theorem Stmt.binds_declaration {a : Surroundings} (ha : a.Above) {i : Nat} {s : Stmt}
    {kind : DeclarationKind} {name : Token} (hn : name.IsName) (hs : s.declared? = some name)
    (hf : (Site.mk (a.child i) (.declaration kind name)).faults = []) {xs : List Site}
    (hx : BindApart xs (a.child i).Encloses) :
    BindApart (⟨a.child i, .declaration kind name⟩ :: xs) (s.Binds (a.child i)) := by
  refine ((Site.declaration_gains hn hf).append hx fun b hb => ?_).weaken fun b hb => ?_
  · exact ha.not_encloses hb.1.1
  · exact hb.imp (fun hb => ⟨hb.1, name, hs, hb.2⟩) id

mutual

/-- What the declarations in a statement bind. -/
theorem Stmt.binds {a : Surroundings} (ha : a.Above) (i : Nat) (s : Stmt) (hp : s.Proper)
    (hf : ∀ x ∈ s.sites (a.child i), x.faults = []) :
    BindApart (s.sites (a.child i)) (s.Binds (a.child i)) := by
  cases s with
  | block body =>
    -- a block binds its names itself, so they are not bound around it
    have hin := Stmt.bindsIn ((a.child i).above_enter .block []) 0 body hp hf
    exact hin.weaken fun b hb => Or.inr (hb.encloses rfl fun o ho => by cases ho; rfl)
  | classDecl name superclass methods =>
    unfold Stmt.Proper at hp
    cases superclass with
    | none =>
      have hms := FunDecl.bindsIn
        (((a.child i).declare name).enter (.receiver .rootClass) ["this"]) 0 methods hp.2.2
        fun x hx => hf x (List.mem_cons_of_mem _ hx)
      refine Stmt.binds_declaration ha hp.1 rfl (hf _ (List.mem_cons_self ..)) (hms.weaken ?_)
      rintro b ⟨j, -, hj⟩
      exact hj.of_child.of_position (Surroundings.position_declare _ _)
    | some e =>
      have hms := FunDecl.bindsIn
        ((((a.child i).declare name).enter .ancestor ["super"]).enter (.receiver .subclass)
          ["this"]) 0 methods hp.2.2
        fun x hx => hf x (List.mem_cons_of_mem _ (List.mem_append_right _ hx))
      refine Stmt.binds_declaration ha hp.1 rfl (hf _ (List.mem_cons_self ..))
        ((hms.weaken ?_).of_eq ?_)
      · rintro b ⟨j, -, hj⟩
        exact hj.of_child.of_position (Surroundings.position_declare _ _)
      · show List.filterMap Site.binding? (inheritanceSites ((a.child i).declare name) name e ++
          e.sites ((a.child i).declare name) ++ _) = _
        rw [List.filterMap_append, List.filterMap_append, bindings_inheritanceSites,
          Expr.bindings_sites]
        rfl
  | expression e => exact .of_none (e.bindings_sites _)
  | function f =>
    have hbody := FunDecl.binds ((a.child i).declare f.name) .function f hp
      fun x hx => hf x (List.mem_cons_of_mem _ hx)
    exact Stmt.binds_declaration ha hp.name_isName rfl (hf _ (List.mem_cons_self ..))
      (hbody.weaken fun b hb => hb.of_position (Surroundings.position_declare _ _))
  | branch condition thenBranch elseBranch =>
    cases elseBranch with
    | none =>
      unfold Stmt.Proper at hp
      have ht := Stmt.binds (ha.child i) 0 thenBranch hp.1
        fun x hx => hf x (List.mem_append_right _ hx)
      refine (ht.weaken fun b hb => Or.inr (hb.encloses_child hp.2)).of_eq ?_
      rw [Stmt.sites, List.filterMap_append, Expr.bindings_sites]
      rfl
    | some elseBranch =>
      unfold Stmt.Proper at hp
      obtain ⟨⟨hpt, hdt⟩, hpe, hde⟩ := hp
      have ht := Stmt.binds (ha.child i) 0 thenBranch hpt
        fun x hx => hf x (List.mem_append_left _ (List.mem_append_right _ hx))
      have he := Stmt.binds (ha.child i) 1 elseBranch hpe
        fun x hx => hf x (List.mem_append_right _ hx)
      -- the branches are parts of different numbers, so no region of one is in the other
      refine ((ht.append he ?_).weaken fun b hb => Or.inr ?_).of_eq ?_
      · intro b hb hb'
        exact absurd ((hb.encloses hdt).child_inj (hb'.encloses hde)) (by decide)
      · exact hb.elim (fun hb => hb.encloses_child hdt) fun hb => hb.encloses_child hde
      · rw [Stmt.sites, List.filterMap_append, List.filterMap_append, Expr.bindings_sites,
          List.filterMap_append]
        rfl
  | print e => exact .of_none (e.bindings_sites _)
  | ret keyword value => exact .of_none (Expr.bindings_sites? _ value)
  | varDecl name initializer =>
    have hnone : BindApart (Expr.sites? ((a.child i).initializing name) initializer)
        (a.child i).Encloses := .of_none (Expr.bindings_sites? _ initializer)
    exact Stmt.binds_declaration ha hp rfl (hf _ (List.mem_cons_self ..)) hnone
  | loop condition body =>
    unfold Stmt.Proper at hp
    have hb := Stmt.binds (ha.child i) 0 body hp.1
      fun x hx => hf x (List.mem_append_right _ hx)
    refine (hb.weaken fun b hb => Or.inr (hb.encloses_child hp.2)).of_eq ?_
    rw [Stmt.sites, List.filterMap_append, Expr.bindings_sites]
    rfl

/-- What the declarations in a list of statements bind. -/
theorem Stmt.bindsIn {a : Surroundings} (ha : a.Above) (i : Nat) (ss : List Stmt)
    (hp : Stmt.AllProper ss) (hf : ∀ x ∈ Stmt.sitesIn a i ss, x.faults = []) :
    BindApart (Stmt.sitesIn a i ss) (a.BindsFrom i) := by
  cases ss with
  | nil => exact .of_none rfl
  | cons s ss =>
    have hs := Stmt.binds ha i s hp.1 fun x hx => hf x (List.mem_append_left _ hx)
    have hss := Stmt.bindsIn (ha.after s) (i + 1) ss hp.2
      fun x hx => hf x (List.mem_append_right _ hx)
    refine (hs.append hss fun b hb hb' => ?_).weaken fun b hb => ?_
    · rcases hb with ⟨hg, name, hn, he⟩ | hb
      · rcases hb' with ⟨-, hnew⟩ | ⟨j, -, hj⟩
        · exact hnew (he ▸ Surroundings.declared_mem_innermost_after (a := a) hg.1 hn)
        · exact (ha.after s).not_encloses ((a.openerAt_after s 0).trans hg.1) hj
      · rcases hb' with ⟨ho, -⟩ | ⟨j, hj, hbj⟩
        · exact ha.not_encloses ((a.openerAt_after s 0).symm.trans ho) hb
        · have hij : i = j := hb.child_inj
            (hbj.of_position (a.position_child_after s j))
          omega
    · rcases hb with (⟨hg, -⟩ | hb) | (⟨ho, hnew⟩ | ⟨j, hj, hbj⟩)
      · exact Or.inl hg
      · exact Or.inr ⟨i, Nat.le_refl i, hb⟩
      · exact Or.inl ⟨(a.openerAt_after s 0).symm.trans ho,
          fun hm => hnew (Surroundings.mem_innermost_after hm s)⟩
      · exact Or.inr ⟨j, by omega, hbj.of_position (a.position_child_after s j)⟩

/-- What the declarations in a function bind. -/
theorem FunDecl.binds (a : Surroundings) (r : Surrounding) (f : FunDecl) (hp : f.Proper)
    (hf : ∀ x ∈ f.sites a r, x.faults = []) : BindApart (f.sites a r) a.Encloses := by
  obtain ⟨name, params, body⟩ := f
  unfold FunDecl.Proper at hp
  have hparams := paramSites_gains (a := a.enter (.routine r) []) hp.2.1
    fun x hx => hf x (List.mem_append_left _ hx)
  have hbody := Stmt.bindsIn ((a.above_enter (.routine r) []).declareAll params) 0 body hp.2.2
    fun x hx => hf x (List.mem_append_right _ hx)
  refine (hparams.append hbody fun b hb hb' => ?_).weaken fun b hb => ?_
  · rcases hb' with ⟨-, hnew⟩ | ⟨j, -, hj⟩
    · exact hnew hb.2
    · have hp := (a.enter (.routine r) []).position_child_declareAll params j
      exact (a.above_enter (.routine r) []).not_encloses hb.1.1 (hj.of_position hp)
  · rcases hb with ⟨⟨ho, -⟩, -⟩ | hb
    · unfold Surroundings.Encloses
      exact Option.some.inj ho ▸ List.prefix_rfl
    · refine hb.encloses (Surroundings.position_declareAll _ params) fun o ho => ?_
      rw [Surroundings.openerAt_declareAll] at ho
      cases ho
      rfl

/-- What the declarations in the methods of a class bind. -/
theorem FunDecl.bindsIn (a : Surroundings) (i : Nat) (fs : List FunDecl)
    (hp : FunDecl.AllProper fs) (hf : ∀ x ∈ FunDecl.sitesIn a i fs, x.faults = []) :
    BindApart (FunDecl.sitesIn a i fs) fun b => ∃ j, i ≤ j ∧ (a.child j).Encloses b := by
  cases fs with
  | nil => exact .of_none rfl
  | cons f fs =>
    have hhead := FunDecl.binds (a.child i) f.methodContext f hp.1
      fun x hx => hf x (List.mem_append_left _ hx)
    have htail := FunDecl.bindsIn a (i + 1) fs hp.2
      fun x hx => hf x (List.mem_append_right _ hx)
    refine (hhead.append htail fun b hb hb' => ?_).weaken fun b hb => ?_
    · obtain ⟨j, hj, hbj⟩ := hb'
      have hij : i = j := hb.child_inj hbj
      omega
    · rcases hb with hb | ⟨j, hj, hbj⟩
      · exact ⟨i, Nat.le_refl i, hb⟩
      · exact ⟨j, by omega, hbj⟩

end

/-- What the declarations in a program without faults bind differs, and no name of them is a
reserved word. -/
theorem declarations_apart {statements : List Stmt} (hp : Stmt.AllProper statements) {source : Nat}
    (hf : ∀ x ∈ Stmt.sitesIn (.top source) 0 statements, x.faults = []) :
    BindApart (Stmt.sitesIn (.top source) 0 statements) fun _ => True :=
  have htop : (Surroundings.top source).Above := fun o ho => by cases ho
  (Stmt.bindsIn htop 0 statements hp hf).weaken fun _ _ => trivial

end Lox
