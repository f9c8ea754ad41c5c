/-
What a walk marks.

Whatever the statements are, a walk over them records distances only for nodes that are in them, and
what it reports are faults of the use of names.

* `Walk.Marks` — from one walk to another only such entries and faults were added;
* `Stmt.resolveList_marks` — a walk over statements;
* `resolve_keys_mem`, `resolve_faults` — what this says of the resolution of a program.

Design notes: nothing is asked of the statements.  Which distances are recorded for proper ones, and
for which nodes, is another matter.
-/
import Lox.Binding.Resolve
import Lox.Syntax.Occurrence

namespace Lox

/-- The diagnostic is a fault of the use of a name. -/
def Diagnostic.IsBinding (d : Diagnostic) : Prop :=
  ∃ token fault, d = .binding token fault

/-- From one walk to another, distances were added only for nodes of `os`, and faults only of the
use of names. -/
structure Walk.Marks (w w' : Walk) (os : List Occurrence) : Prop where
  distances : ∀ e ∈ w'.distances, e ∈ w.distances ∨ e.1 ∈ os.map Occurrence.id
  faults : ∀ d ∈ w'.faults, d ∈ w.faults ∨ d.IsBinding

namespace Walk.Marks

variable {w w' w'' : Walk} {os ps : List Occurrence}

/-- The scopes may change in any way. -/
theorem of_eq (hd : w'.distances = w.distances) (hf : w'.faults = w.faults) : w.Marks w' os :=
  ⟨fun _ he => .inl (hd ▸ he), fun _ hd => .inl (hf ▸ hd)⟩

theorem refl (w : Walk) : w.Marks w os := of_eq rfl rfl

theorem append (h : w.Marks w' os) (h' : w'.Marks w'' ps) : w.Marks w'' (os ++ ps) := by
  refine ⟨fun e he => ?_, fun d hd => ?_⟩
  · rw [List.map_append]
    rcases h'.distances e he with he | he
    · exact (h.distances e he).imp_right (List.mem_append_left _)
    · exact .inr (List.mem_append_right _ he)
  · rcases h'.faults d hd with hd | hd
    · exact h.faults d hd
    · exact .inr hd

/-- What is visited first may stand behind. -/
theorem append_comm (h : w.Marks w' (os ++ ps)) : w.Marks w' (ps ++ os) := by
  have hperm : List.Perm (os ++ ps) (ps ++ os) := List.perm_append_comm
  exact ⟨fun e he => (h.distances e he).imp_right (hperm.map Occurrence.id).mem_iff.mp, h.faults⟩

/-- A step that marks no node. -/
theorem trans (h : w.Marks w' []) (h' : w'.Marks w'' os) : w.Marks w'' os :=
  h.append h'

theorem trans_right (h : w.Marks w' os) (h' : w'.Marks w'' []) : w.Marks w'' os := by
  have := h.append h'
  rwa [List.append_nil] at this

theorem leave (h : w.Marks w' os) : w.Marks w'.leave os :=
  ⟨h.distances, h.faults⟩

theorem report (w : Walk) (token : Token) (fault : BindingFault) :
    w.Marks (w.report token fault) os := by
  refine ⟨fun _ he => .inl he, fun d hd => ?_⟩
  rcases List.mem_cons.mp hd with rfl | hd
  · exact .inr ⟨token, fault, rfl⟩
  · exact .inl hd

/-- A node gets a distance, or none. -/
theorem record (w : Walk) (o : Occurrence) : w.Marks (w.record o.id o.token) [o] := by
  unfold Walk.record
  split
  · refine ⟨fun e he => ?_, fun _ hd => .inl hd⟩
    rcases List.mem_cons.mp he with rfl | he
    · exact .inr (List.mem_singleton_self _)
    · exact .inl he
  · exact refl w

theorem enter (w : Walk) (scope : Scope) : w.Marks (w.enter scope) [] := of_eq rfl rfl

theorem declare (w : Walk) (name : Token) : w.Marks (w.declare name) [] := by
  unfold Walk.declare
  split
  · exact refl w
  · split
    · exact report w name _
    · exact of_eq rfl rfl

theorem define (w : Walk) (name : Token) : w.Marks (w.define name) [] := by
  unfold Walk.define
  split
  · exact refl w
  · exact of_eq rfl rfl

theorem declareDefined (w : Walk) (name : Token) : w.Marks (w.declareDefined name) [] :=
  (declare w name).trans (define _ name)

theorem declareAll (w : Walk) (names : List Token) : w.Marks (w.declareAll names) [] := by
  induction names generalizing w with
  | nil => exact refl w
  | cons name names ih => exact (declareDefined w name).trans (ih _)

theorem checkSuper (w : Walk) (context : Context) (keyword : Token) :
    w.Marks (w.checkSuper context keyword) [] := by
  unfold Walk.checkSuper
  split
  · exact report w keyword _
  · exact report w keyword _
  · exact refl w

theorem checkReturn (w : Walk) (context : Context) (keyword : Token) (hasValue : Bool) :
    w.Marks (w.checkReturn context keyword hasValue) [] := by
  unfold Walk.checkReturn
  split
  · exact report w keyword _
  · split
    · exact report w keyword _
    · exact refl w
  · exact refl w

theorem checkSuperclass (w : Walk) (name : Token) (superclass : Expr) :
    w.Marks (w.checkSuperclass name superclass) [] := by
  unfold Walk.checkSuperclass
  split
  · split
    · exact report w _ _
    · exact refl w
  · exact refl w

end Walk.Marks

/-! ### Expressions -/

mutual

theorem Expr.resolve_marks (context : Context) (w : Walk) (e : Expr) :
    w.Marks (e.resolve context w) e.occurrences := by
  cases e with
  | assign id name value =>
    -- the value is visited first and stands last
    exact ((value.resolve_marks context w).append
      (.record _ ⟨id, .assign, name⟩)).append_comm
  | binary left operator right =>
    exact (left.resolve_marks context w).append (right.resolve_marks context _)
  | call callee paren arguments =>
    exact (callee.resolve_marks context w).append (Expr.resolveList_marks context _ arguments)
  | get object name => exact object.resolve_marks context w
  | grouping inner => exact inner.resolve_marks context w
  | literal value => exact .refl w
  | logical left operator right =>
    exact (left.resolve_marks context w).append (right.resolve_marks context _)
  | set object name value =>
    exact ((value.resolve_marks context w).append (object.resolve_marks context _)).append_comm
  | superRef id keyword method =>
    exact (Walk.Marks.checkSuper w context keyword).trans (.record _ ⟨id, .super_, keyword⟩)
  | thisRef id keyword =>
    rw [Expr.resolve]
    split
    · exact .report w keyword _
    · exact .record w ⟨id, .this_, keyword⟩
  | unary operator right => exact right.resolve_marks context w
  | var id name =>
    rw [Expr.resolve]
    split
    · exact (Walk.Marks.report w name _).trans (.record _ ⟨id, .variable_, name⟩)
    · exact .record w ⟨id, .variable_, name⟩

theorem Expr.resolveList_marks (context : Context) (w : Walk) (es : List Expr) :
    w.Marks (Expr.resolveList context w es) (Expr.occurrencesIn es) := by
  cases es with
  | nil => exact .refl w
  | cons e es =>
    exact (e.resolve_marks context w).append (Expr.resolveList_marks context _ es)

end

theorem Expr.resolve?_marks (context : Context) (w : Walk) (e : Option Expr) :
    w.Marks (Expr.resolve? context w e) (Expr.occurrencesOf? e) := by
  cases e with
  | none => exact .refl w
  | some e => exact e.resolve_marks context w

/-! ### Statements -/

mutual

theorem Stmt.resolve_marks (context : Context) (w : Walk) (s : Stmt) :
    w.Marks (s.resolve context w) s.occurrences := by
  match s with
  | .block body =>
    exact ((Walk.Marks.enter w []).trans (Stmt.resolveList_marks context _ body)).leave
  | .classDecl name none methods =>
    have hbody := FunDecl.resolveMethods_marks { context with klass := .rootClass }
      ((w.declareDefined name).enter [("this", true)]) methods
    exact ((Walk.Marks.declareDefined w name).trans ((Walk.Marks.enter _ _).trans hbody)).leave
  | .classDecl name (some superclass) methods =>
    have hnamed := (Walk.Marks.declareDefined w name).trans
      (.checkSuperclass _ name superclass)
    have hsuper := hnamed.trans (superclass.resolve_marks { context with klass := .subclass } _)
    have hinner := (hsuper.trans_right (.enter _ [("super", true)])).trans_right
      (.enter _ [("this", true)])
    exact (hinner.append (FunDecl.resolveMethods_marks _ _ methods)).leave.leave
  | .expression e => exact e.resolve_marks context w
  | .function f =>
    exact (Walk.Marks.declareDefined w f.name).trans (f.resolve_marks _ _)
  | .branch condition thenBranch none =>
    exact (condition.resolve_marks context w).append (thenBranch.resolve_marks context _)
  | .branch condition thenBranch (some elseBranch) =>
    exact ((condition.resolve_marks context w).append
      (thenBranch.resolve_marks context _)).append (elseBranch.resolve_marks context _)
  | .print e => exact e.resolve_marks context w
  | .ret keyword value =>
    exact (Walk.Marks.checkReturn w context keyword _).trans (Expr.resolve?_marks context _ value)
  | .varDecl name initializer =>
    exact ((Walk.Marks.declare w name).trans
      (Expr.resolve?_marks context _ initializer)).trans_right (.define _ name)
  | .loop condition body =>
    exact (condition.resolve_marks context w).append (body.resolve_marks context _)

theorem Stmt.resolveList_marks (context : Context) (w : Walk) (ss : List Stmt) :
    w.Marks (Stmt.resolveList context w ss) (Stmt.occurrencesIn ss) := by
  match ss with
  | [] => exact .refl w
  | s :: ss => exact (s.resolve_marks context w).append (Stmt.resolveList_marks context _ ss)

theorem FunDecl.resolve_marks (context : Context) (w : Walk) (f : FunDecl) :
    w.Marks (f.resolve context w) f.occurrences := by
  match f with
  | .mk name params body =>
    exact ((Walk.Marks.enter w []).trans ((Walk.Marks.declareAll _ params).trans
      (Stmt.resolveList_marks context _ body))).leave

theorem FunDecl.resolveMethods_marks (context : Context) (w : Walk) (fs : List FunDecl) :
    w.Marks (FunDecl.resolveMethods context w fs) (FunDecl.occurrencesIn fs) := by
  match fs with
  | [] => exact .refl w
  | f :: fs =>
    exact (f.resolve_marks _ w).append (FunDecl.resolveMethods_marks context _ fs)

end

/-! ### Programs -/

/-- Every number of a distance that is found in a program is that of a node in it. -/
theorem resolve_keys_mem {statements : List Stmt} :
    ∀ e ∈ (resolve statements).distances,
      e.1 ∈ (Stmt.occurrencesIn statements).map Occurrence.id := by
  intro e he
  rcases (Stmt.resolveList_marks .top .start statements).distances e he with he | he
  · cases he
  · exact he

/-- Every fault that is found in a program is one of the use of names. -/
theorem resolve_faults {statements : List Stmt} :
    ∀ d ∈ (resolve statements).faults, d.IsBinding := by
  intro d hd
  rcases (Stmt.resolveList_marks .top .start statements).faults d (List.mem_reverse.mp hd) with
    hd | hd
  · cases hd
  · exact hd

end Lox
