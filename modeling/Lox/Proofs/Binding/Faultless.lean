/-
Programs without faults.

A fault is never taken back, so a walk that ends without one has met none on its way, in no function
at any depth.  In particular the parameters of every function have different names, whatever the
statements look like otherwise.

* `Walk.Clean` — no fault has been found;
* `FunDecl.Faultless` — a function that is walked over without a fault, in some context;
* `Stmt.resolve_clean` — a walk over statements without a fault is one over all functions in them;
* `Stmt.Declares` — functions in statements, at any depth;
* `distinct_of_resolve` — in a program without faults each function has different parameters.

Design notes: nothing is asked of the statements, as a program that is run by force need not be one
that the parser yields.
-/
import Lox.Proofs.Run.Origins
import Lox.Proofs.Run.Regime

namespace Lox

/-- No fault has been found. -/
def Walk.Clean (w : Walk) : Prop :=
  w.faults = []

namespace Walk.Clean

variable {w : Walk} {name keyword : Token}

/-- A walk that has reported something is not clean. -/
theorem not_report {token : Token} {fault : BindingFault} : ¬ (w.report token fault).Clean := by
  intro h
  cases h

theorem of_record {id : NodeId} (h : (w.record id name).Clean) : w.Clean := by
  unfold record at h
  split at h
  · exact h
  · exact h

/-- A name that is declared without a fault is new in the innermost scope. -/
theorem of_declare (h : (w.declare name).Clean) :
    w.Clean ∧ ∀ scope outer, w.scopes = scope :: outer → scope.contains name.lexeme = false := by
  unfold declare at h
  split at h
  · next hs =>
    refine ⟨h, fun scope outer hscopes => ?_⟩
    rw [hs] at hscopes
    cases hscopes
  · next scope outer hs =>
    split at h
    · exact absurd h not_report
    · next hnew =>
      refine ⟨h, fun scope' outer' hscopes => ?_⟩
      rw [hs] at hscopes
      cases hscopes
      exact Bool.eq_false_iff.mpr hnew

theorem of_define (h : (w.define name).Clean) : w.Clean := by
  unfold define at h
  split at h
  · exact h
  · exact h

theorem of_declareDefined (h : (w.declareDefined name).Clean) : w.Clean :=
  (of_declare (of_define h)).1

/-- Names that are declared without a fault in a scope are different, and new in it. -/
theorem of_declareAll {names : List Token} {scope : Scope} {outer : List Scope}
    (hs : w.scopes = scope :: outer) (h : (w.declareAll names).Clean) :
    w.Clean ∧ (names.map Token.lexeme).Nodup ∧
      ∀ t ∈ names, scope.contains t.lexeme = false := by
  induction names generalizing w scope with
  | nil => exact ⟨h, List.nodup_nil, fun t ht => by cases ht⟩
  | cons name names ih =>
    have hall : ((w.declareDefined name).declareAll names).Clean := h
    by_cases hc : scope.contains name.lexeme = true
    · -- the fault of the first name stays
      have hscopes : (w.declareDefined name).scopes = scope.insert name.lexeme true :: outer := by
        simp only [declareDefined, declare, hs, if_pos hc, report, define]
      obtain ⟨hfirst, -, -⟩ := ih hscopes hall
      have hnew := (of_declare (of_define hfirst)).2 scope outer hs
      cases hc.symm.trans hnew
    · have hscopes : (w.declareDefined name).scopes =
          (scope.insert name.lexeme false).insert name.lexeme true :: outer := by
        simp only [declareDefined, declare, hs, if_neg hc, define]
      obtain ⟨hfirst, hnodup, hnew⟩ := ih hscopes hall
      refine ⟨of_declareDefined hfirst, List.nodup_cons.mpr ⟨fun hmem => ?_, hnodup⟩, ?_⟩
      · obtain ⟨t, ht, he⟩ := List.mem_map.mp hmem
        have hbehind := hnew t ht
        simp [he] at hbehind
      · intro t ht
        rcases List.mem_cons.mp ht with rfl | ht
        · exact Bool.eq_false_iff.mpr hc
        · have hbehind := hnew t ht
          rw [NameTable.contains_insert, NameTable.contains_insert, Bool.or_eq_false_iff,
            Bool.or_eq_false_iff] at hbehind
          exact hbehind.2.2

theorem of_checkSuper {context : Context} (h : (w.checkSuper context keyword).Clean) :
    w.Clean := by
  unfold checkSuper at h
  split at h
  · exact absurd h not_report
  · exact absurd h not_report
  · exact h

theorem of_checkReturn {context : Context} {hasValue : Bool}
    (h : (w.checkReturn context keyword hasValue).Clean) : w.Clean := by
  unfold checkReturn at h
  split at h
  · exact absurd h not_report
  · split at h
    · exact absurd h not_report
    · exact h
  · exact h

theorem of_checkSuperclass {superclass : Expr} (h : (w.checkSuperclass name superclass).Clean) :
    w.Clean := by
  unfold checkSuperclass at h
  split at h
  · split at h
    · exact absurd h not_report
    · exact h
  · exact h

end Walk.Clean

/-! ### Expressions -/

mutual

theorem Expr.resolve_clean {context : Context} {w : Walk} (e : Expr)
    (h : (e.resolve context w).Clean) : w.Clean := by
  match e with
  | .assign id name value => exact value.resolve_clean (Walk.Clean.of_record h)
  | .binary left operator right =>
    exact left.resolve_clean (right.resolve_clean h)
  | .logical left operator right =>
    exact left.resolve_clean (right.resolve_clean h)
  | .call callee paren arguments =>
    exact callee.resolve_clean (Expr.resolveList_clean arguments h)
  | .get object name => exact object.resolve_clean h
  | .grouping inner => exact inner.resolve_clean h
  | .literal value => exact h
  | .set object name value =>
    exact value.resolve_clean (object.resolve_clean h)
  | .superRef id keyword method => exact Walk.Clean.of_checkSuper (Walk.Clean.of_record h)
  | .thisRef id keyword =>
    rw [Expr.resolve] at h
    split at h
    · exact absurd h Walk.Clean.not_report
    · exact Walk.Clean.of_record h
  | .unary operator right => exact right.resolve_clean h
  | .var id name =>
    have hw := Walk.Clean.of_record h
    split at hw
    · exact absurd hw Walk.Clean.not_report
    · exact hw

theorem Expr.resolveList_clean {context : Context} {w : Walk} (es : List Expr)
    (h : (Expr.resolveList context w es).Clean) : w.Clean := by
  match es with
  | [] => exact h
  | e :: es => exact e.resolve_clean (Expr.resolveList_clean es h)

end

theorem Expr.resolve?_clean {context : Context} {w : Walk} (e : Option Expr)
    (h : (Expr.resolve? context w e).Clean) : w.Clean := by
  cases e with
  | none => exact h
  | some e => exact e.resolve_clean h

/-! ### Functions -/

/-- A function that is walked over without a fault, in some context. -/
def FunDecl.Faultless (f : FunDecl) : Prop :=
  ∃ context w, (f.resolve context w).Clean

mutual

/-- A walk over a statement without a fault is one over each function in it. -/
theorem Stmt.resolve_clean {context : Context} {w : Walk} (s : Stmt)
    (h : (s.resolve context w).Clean) : w.Clean ∧ ∀ f ∈ s.functions, f.Faultless := by
  match s with
  | .block body =>
    obtain ⟨hw, hfs⟩ := Stmt.resolveList_clean body h
    exact ⟨hw, hfs⟩
  | .classDecl name none methods =>
    obtain ⟨hw, hfs⟩ := FunDecl.resolveMethods_clean methods h
    exact ⟨Walk.Clean.of_declareDefined hw, hfs⟩
  | .classDecl name (some superclass) methods =>
    obtain ⟨hw, hfs⟩ := FunDecl.resolveMethods_clean methods h
    have hsuper := Walk.Clean.of_checkSuperclass (superclass.resolve_clean hw)
    exact ⟨Walk.Clean.of_declareDefined hsuper, hfs⟩
  | .expression e => exact ⟨e.resolve_clean h, fun f hf => by cases hf⟩
  | .function f =>
    have hf := f.resolve_clean h
    refine ⟨Walk.Clean.of_declareDefined hf, fun g hg => ?_⟩
    cases List.mem_singleton.mp hg
    exact ⟨_, _, h⟩
  | .branch condition thenBranch none =>
    obtain ⟨hw, hfs⟩ := thenBranch.resolve_clean h
    exact ⟨condition.resolve_clean hw, hfs⟩
  | .branch condition thenBranch (some elseBranch) =>
    obtain ⟨hthen, helse⟩ := elseBranch.resolve_clean h
    obtain ⟨hw, hfs⟩ := thenBranch.resolve_clean hthen
    refine ⟨condition.resolve_clean hw, fun f hf => ?_⟩
    rcases List.mem_append.mp hf with hf | hf
    · exact hfs f hf
    · exact helse f hf
  | .print e => exact ⟨e.resolve_clean h, fun f hf => by cases hf⟩
  | .ret keyword value =>
    exact ⟨Walk.Clean.of_checkReturn (Expr.resolve?_clean value h), fun f hf => by cases hf⟩
  | .varDecl name initializer =>
    have hw := Expr.resolve?_clean initializer (Walk.Clean.of_define h)
    exact ⟨(Walk.Clean.of_declare hw).1, fun f hf => by cases hf⟩
  | .loop condition body =>
    obtain ⟨hw, hfs⟩ := body.resolve_clean h
    exact ⟨condition.resolve_clean hw, hfs⟩

theorem Stmt.resolveList_clean {context : Context} {w : Walk} (ss : List Stmt)
    (h : (Stmt.resolveList context w ss).Clean) :
    w.Clean ∧ ∀ f ∈ Stmt.functionsIn ss, f.Faultless := by
  match ss with
  | [] => exact ⟨h, fun f hf => by cases hf⟩
  | s :: ss =>
    obtain ⟨hrest, hfs⟩ := Stmt.resolveList_clean ss h
    obtain ⟨hw, hf⟩ := s.resolve_clean hrest
    refine ⟨hw, fun f hmem => ?_⟩
    rcases List.mem_append.mp hmem with hmem | hmem
    · exact hf f hmem
    · exact hfs f hmem

theorem FunDecl.resolve_clean {context : Context} {w : Walk} (f : FunDecl)
    (h : (f.resolve context w).Clean) : w.Clean := by
  match f with
  | .mk name params body =>
    obtain ⟨hw, -⟩ := Stmt.resolveList_clean body h
    exact (Walk.Clean.of_declareAll rfl hw).1

theorem FunDecl.resolveMethods_clean {context : Context} {w : Walk} (fs : List FunDecl)
    (h : (FunDecl.resolveMethods context w fs).Clean) : w.Clean ∧ ∀ f ∈ fs, f.Faultless := by
  match fs with
  | [] => exact ⟨h, fun f hf => by cases hf⟩
  | f :: fs =>
    obtain ⟨hf, hfs⟩ := FunDecl.resolveMethods_clean fs h
    refine ⟨f.resolve_clean hf, fun g hg => ?_⟩
    rcases List.mem_cons.mp hg with rfl | hg
    · exact ⟨_, _, hf⟩
    · exact hfs g hg

end

namespace FunDecl.Faultless

variable {f : FunDecl}

theorem distinct (h : f.Faultless) : f.Distinct := by
  obtain ⟨context, w, h⟩ := h
  cases f with
  | mk name params body =>
    obtain ⟨hw, -⟩ := Stmt.resolveList_clean body h
    exact (Walk.Clean.of_declareAll rfl hw).2.1

/-- The functions in its body are faultless as well. -/
theorem body (h : f.Faultless) : ∀ g ∈ Stmt.functionsIn f.body, g.Faultless := by
  obtain ⟨context, w, h⟩ := h
  cases f with
  | mk name params body => exact (Stmt.resolveList_clean body h).2

end FunDecl.Faultless

/-! ### Programs -/

/-- Functions that statements declare, at any depth. -/
inductive Stmt.Declares (ss : List Stmt) : FunDecl → Prop where
  | outermost {f : FunDecl} (h : f ∈ Stmt.functionsIn ss) : Declares ss f
  | inside {f g : FunDecl} (h : Declares ss f) (hg : g ∈ Stmt.functionsIn f.body) : Declares ss g

/-- In a program without faults the parameters of each function have different names. -/
theorem distinct_of_resolve {ss : List Stmt} (h : (resolve ss).faults = []) {f : FunDecl}
    (hf : Stmt.Declares ss f) : f.Distinct := by
  have hclean : (Stmt.resolveList .top .start ss).Clean := List.reverse_eq_nil_iff.mp h
  have hfaultless : f.Faultless := by
    induction hf with
    | outermost hf => exact (Stmt.resolveList_clean ss hclean).2 _ hf
    | inside hf hg ih => exact ih.body _ hg
  exact hfaultless.distinct

end Lox
