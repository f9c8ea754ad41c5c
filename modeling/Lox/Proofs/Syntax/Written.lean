/-
Statements as they are written.

The grammar has `for` loops, the trees that run have none.  `Written` is the syntax in between: it
is abstract, but its statements have a node for `for`.

* `Written.tree` — the tree that runs in the place of a statement;
* `Concrete.Declaration.written` — the statement that is written in a tree of the grammar;
* `Declaration.trees_written` — its tree is the abstract syntax of that tree;
* `Written.Formed` — names are names, and declarations stand in lists only;
* `Written.occurrences_trees` — a statement and its tree have the same occurrences.
-/
import Lox.Proofs.Syntax.Numbering
import Lox.Proofs.Syntax.Proper

namespace Lox

mutual

/-- Statements, with `for` among them. -/
inductive Written where
  | block (body : List Written)
  | classDecl (name : Token) (superclass : Option Expr) (methods : List WrittenFunction)
  | expression (e : Expr)
  | function (f : WrittenFunction)
  | branch (condition : Expr) (thenBranch : Written) (elseBranch : Option Written)
  | print (e : Expr)
  | ret (keyword : Token) (value : Option Expr)
  | varDecl (name : Token) (initializer : Option Expr)
  | loop (condition : Expr) (body : Written)
  /-- `for (initializer condition; increment) body` -/
  | forLoop (initializer : Option Written) (condition increment : Option Expr) (body : Written)

/-- A function or method, with its body as it is written. -/
inductive WrittenFunction where
  | mk (name : Token) (params : List Token) (body : List Written)

end

instance : Inhabited WrittenFunction := ⟨.mk default [] []⟩

namespace WrittenFunction

/-- The name of a function. -/
def name : WrittenFunction → Token
  | mk name _ _ => name

/-- The parameters of a function. -/
def params : WrittenFunction → List Token
  | mk _ params _ => params

/-- The body of a function. -/
def body : WrittenFunction → List Written
  | mk _ _ body => body

end WrittenFunction

/-! ### The trees that run -/

mutual

/-- The tree that runs in the place of a statement. -/
def Written.tree : Written → Stmt
  | .block body => .block (Written.trees body)
  | .classDecl name superclass methods => .classDecl name superclass (WrittenFunction.trees methods)
  | .expression e => .expression e
  | .function f => .function f.tree
  | .branch condition thenBranch none => .branch condition thenBranch.tree none
  | .branch condition thenBranch (some elseBranch) =>
    .branch condition thenBranch.tree (some elseBranch.tree)
  | .print e => .print e
  | .ret keyword value => .ret keyword value
  | .varDecl name initializer => .varDecl name initializer
  | .loop condition body => .loop condition body.tree
  | .forLoop none condition increment body => .forLoop none condition increment body.tree
  | .forLoop (some s) condition increment body =>
    .forLoop (some s.tree) condition increment body.tree

/-- The trees that run in the place of statements. -/
def Written.trees : List Written → List Stmt
  | [] => []
  | w :: ws => w.tree :: Written.trees ws

/-- The tree of a function. -/
def WrittenFunction.tree : WrittenFunction → FunDecl
  | .mk name params body => .mk name params (Written.trees body)

/-- The trees of functions. -/
def WrittenFunction.trees : List WrittenFunction → List FunDecl
  | [] => []
  | f :: fs => f.tree :: WrittenFunction.trees fs

end

namespace WrittenFunction

@[simp] theorem name_tree (f : WrittenFunction) : f.tree.name = f.name := by
  cases f
  rfl

@[simp] theorem params_tree (f : WrittenFunction) : f.tree.params = f.params := by
  cases f
  rfl

@[simp] theorem body_tree (f : WrittenFunction) : f.tree.body = Written.trees f.body := by
  cases f
  rfl

end WrittenFunction

/-- The tree of a loop: the initializer and the rest of the loop are in a block of their own. -/
theorem Written.tree_forLoop_some (s : Written) (condition increment : Option Expr)
    (body : Written) :
    (Written.forLoop (some s) condition increment body).tree =
      .block (Written.trees [s, .forLoop none condition increment body]) := by
  simp only [tree, trees, Stmt.forLoop]

/-- The name that a statement declares in the scope around it. -/
def Written.declared? : Written → Option Token
  | .varDecl name _ => some name
  | .function f => some f.name
  | .classDecl name _ _ => some name
  | _ => none

/-! ### Statements of the grammar -/

namespace Concrete

/-- The statement that is written in the first clause of a `for` loop. -/
def ForClause.written (first : NodeId) : ForClause → Option Written
  | .absent _ => none
  | .varDecl v => some (.varDecl v.name.token (v.value?.map (Expression.ast first)))
  | .expression e _ => some (.expression (e.ast first))

mutual

/-- The statement that is written in a declaration, with numbers from `first` on. -/
def Declaration.written (first : NodeId) : Declaration → Written
  | .classDecl _ name superclass _ methods _ =>
    .classDecl name.token (Superclass.ast? first superclass)
      (Function.writtenIn (first + Superclass.ids? superclass) methods)
  | .function _ f => .function (f.written first)
  | .varDecl v => .varDecl v.name.token (v.value?.map (Expression.ast first))
  | .statement s => s.written first

/-- The statements that are written in declarations. -/
def Declaration.writtenIn (first : NodeId) : List Declaration → List Written
  | [] => []
  | d :: ds => d.written first :: Declaration.writtenIn (first + d.ids) ds

/-- The function that is written in a function of the grammar. -/
def Function.written (first : NodeId) : Function → WrittenFunction
  | .mk name _ params _ _ body _ =>
    .mk name.token (Parameters.names? params) (Declaration.writtenIn first body)

/-- The functions that are written in functions of the grammar. -/
def Function.writtenIn (first : NodeId) : List Function → List WrittenFunction
  | [] => []
  | f :: fs => f.written first :: Function.writtenIn (first + f.ids) fs

/-- The statement that is written in a statement of the grammar. -/
def Statement.written (first : NodeId) : Statement → Written
  | .expression e _ => .expression (e.ast first)
  | .print _ e _ => .print (e.ast first)
  | .ret keyword value _ => .ret keyword.token (value.map (Expression.ast first))
  | .block _ body _ => .block (Declaration.writtenIn first body)
  | .loop _ _ condition _ body => .loop (condition.ast first) (body.written (first + condition.ids))
  | .forLoop _ _ initializer condition _ increment _ body =>
    let behindInitializer := first + Expression.ids? initializer.value?
    let behindCondition := behindInitializer + Expression.ids? condition
    let behindIncrement := behindCondition + Expression.ids? increment
    .forLoop (initializer.written first) (condition.map (Expression.ast behindInitializer))
      (increment.map (Expression.ast behindCondition)) (body.written behindIncrement)
  | .branch _ _ condition _ thenBranch =>
    .branch (condition.ast first) (thenBranch.written (first + condition.ids)) none
  | .branchElse _ _ condition _ thenBranch _ elseBranch =>
    .branch (condition.ast first) (thenBranch.written (first + condition.ids))
      (some (elseBranch.written (first + condition.ids + thenBranch.ids)))

end

/-- A statement of the grammar declares nothing. -/
theorem Statement.declared?_written (first : NodeId) (s : Statement) :
    (s.written first).declared? = none := by
  cases s <;> rfl

theorem ForClause.tree_written (first : NodeId) (c : ForClause) :
    (c.written first).map Written.tree = c.ast first := by
  cases c <;> rfl

mutual

/-- The tree of what is written in a declaration is its abstract syntax. -/
theorem Declaration.tree_written (first : NodeId) (d : Declaration) :
    (d.written first).tree = d.ast first := by
  cases d with
  | classDecl keyword name superclass opening methods closing =>
    simp only [Declaration.written, Written.tree, Declaration.ast,
      Function.trees_written _ methods]
  | function keyword f => simp only [Declaration.written, Written.tree, Declaration.ast,
      f.tree_written first]
  | varDecl v => rfl
  | statement s => exact s.tree_written first

theorem Declaration.trees_written (first : NodeId) (ds : List Declaration) :
    Written.trees (Declaration.writtenIn first ds) = Declaration.astIn first ds := by
  cases ds with
  | nil => rfl
  | cons d ds =>
    simp only [Declaration.writtenIn, Written.trees, Declaration.astIn, d.tree_written first,
      Declaration.trees_written _ ds]

theorem Function.tree_written (first : NodeId) (f : Function) :
    (f.written first).tree = f.ast first := by
  cases f with
  | mk name opening params closing bodyOpening body bodyClosing =>
    simp only [Function.written, WrittenFunction.tree, Function.ast,
      Declaration.trees_written first body]

theorem Function.trees_written (first : NodeId) (fs : List Function) :
    WrittenFunction.trees (Function.writtenIn first fs) = Function.astIn first fs := by
  cases fs with
  | nil => rfl
  | cons f fs =>
    simp only [Function.writtenIn, WrittenFunction.trees, Function.astIn, f.tree_written first,
      Function.trees_written _ fs]

theorem Statement.tree_written (first : NodeId) (s : Statement) :
    (s.written first).tree = s.ast first := by
  cases s with
  | expression e semicolon => rfl
  | print keyword e semicolon => rfl
  | ret keyword value semicolon => rfl
  | block opening body closing =>
    simp only [Statement.written, Written.tree, Statement.ast, Declaration.trees_written first body]
  | loop keyword opening condition closing body =>
    simp only [Statement.written, Written.tree, Statement.ast, body.tree_written]
  | forLoop keyword opening initializer condition semicolon increment closing body =>
    have hinit := initializer.tree_written first
    rw [Statement.written, Statement.ast, ← hinit]
    cases initializer.written first with
    | none => simp only [Written.tree, body.tree_written, Option.map_none]
    | some w => simp only [Written.tree, body.tree_written, Option.map_some]
  | branch keyword opening condition closing thenBranch =>
    simp only [Statement.written, Written.tree, Statement.ast, thenBranch.tree_written]
  | branchElse keyword opening condition closing thenBranch otherwise elseBranch =>
    simp only [Statement.written, Written.tree, Statement.ast, thenBranch.tree_written,
      elseBranch.tree_written]

end

end Concrete

/-! ### Formed statements -/

mutual

/-- Declarations stand in lists and in front of loops only, and names are identifiers. -/
def Written.Formed : Written → Prop
  | .block body => Written.AllFormed body
  | .classDecl name _ methods => name.IsName ∧ WrittenFunction.AllFormed methods
  | .function f => f.Formed
  | .branch _ thenBranch none => thenBranch.Formed ∧ thenBranch.declared? = none
  | .branch _ thenBranch (some elseBranch) =>
    (thenBranch.Formed ∧ thenBranch.declared? = none) ∧
      elseBranch.Formed ∧ elseBranch.declared? = none
  | .varDecl name _ => name.IsName
  | .loop _ body => body.Formed ∧ body.declared? = none
  | .forLoop none _ _ body => body.Formed ∧ body.declared? = none
  | .forLoop (some s) _ _ body => s.Formed ∧ body.Formed ∧ body.declared? = none
  | .expression _ | .print _ | .ret .. => True

/-- All statements of a list are formed. -/
def Written.AllFormed : List Written → Prop
  | [] => True
  | w :: ws => w.Formed ∧ Written.AllFormed ws

/-- The names of a function are identifiers, and its body is formed. -/
def WrittenFunction.Formed : WrittenFunction → Prop
  | .mk name params body => name.IsName ∧ (∀ p ∈ params, p.IsName) ∧ Written.AllFormed body

/-- All functions of a list are formed. -/
def WrittenFunction.AllFormed : List WrittenFunction → Prop
  | [] => True
  | f :: fs => f.Formed ∧ WrittenFunction.AllFormed fs

end

theorem WrittenFunction.Formed.name_isName {f : WrittenFunction} (h : f.Formed) :
    f.name.IsName := by
  cases f
  unfold Formed at h
  exact h.1

theorem WrittenFunction.Formed.body {f : WrittenFunction} (h : f.Formed) :
    Written.AllFormed f.body := by
  cases f
  unfold Formed at h
  exact h.2.2

theorem Written.AllFormed.mem {ss : List Written} (h : AllFormed ss) {s : Written} (hs : s ∈ ss) :
    s.Formed := by
  induction ss with
  | nil => cases hs
  | cons t ts ih =>
    unfold AllFormed at h
    rcases List.mem_cons.mp hs with rfl | hs
    · exact h.1
    · exact ih h.2 hs

theorem WrittenFunction.AllFormed.mem {fs : List WrittenFunction} (h : AllFormed fs)
    {f : WrittenFunction} (hf : f ∈ fs) : f.Formed := by
  induction fs with
  | nil => cases hf
  | cons g fs ih =>
    unfold AllFormed at h
    rcases List.mem_cons.mp hf with rfl | hf
    · exact h.1
    · exact ih h.2 hf

/-- The parts of a proper loop are proper. -/
theorem Stmt.Proper.of_forLoop {initializer : Option Stmt} {condition increment : Option Expr}
    {body : Stmt} (h : (Stmt.forLoop initializer condition increment body).Proper) :
    (∀ s ∈ initializer, s.Proper) ∧ body.Proper := by
  unfold Stmt.forLoop at h
  cases initializer <;> cases increment <;>
    simp_all [Stmt.Proper, Stmt.AllProper]

namespace Concrete

theorem ForClause.written_formed (first : NodeId) (c : ForClause)
    (h : ∀ s ∈ c.ast first, s.Proper) : ∀ w ∈ c.written first, w.Formed := by
  intro w hw
  cases c with
  | absent => cases hw
  | varDecl v =>
    cases hw
    have hproper := h _ rfl
    unfold VarDecl.ast Stmt.Proper at hproper
    unfold Written.Formed
    exact hproper
  | expression e =>
    cases hw
    unfold Written.Formed
    trivial

mutual

/-- What is written in a declaration is formed if its abstract syntax is proper. -/
theorem Declaration.written_formed (first : NodeId) (d : Declaration) (h : (d.ast first).Proper) :
    (d.written first).Formed := by
  cases d with
  | classDecl keyword name superclass opening methods closing =>
    unfold Declaration.ast Stmt.Proper at h
    unfold Declaration.written Written.Formed
    exact ⟨h.1, Function.writtenIn_formed _ methods h.2.2⟩
  | function keyword f =>
    unfold Declaration.ast Stmt.Proper at h
    unfold Declaration.written Written.Formed
    exact f.written_formed first h
  | varDecl v =>
    unfold Declaration.ast VarDecl.ast Stmt.Proper at h
    unfold Declaration.written Written.Formed
    exact h
  | statement s => exact s.written_formed first h

theorem Declaration.writtenIn_formed (first : NodeId) (ds : List Declaration)
    (h : Stmt.AllProper (Declaration.astIn first ds)) :
    Written.AllFormed (Declaration.writtenIn first ds) := by
  cases ds with
  | nil => trivial
  | cons d ds =>
    unfold Declaration.astIn Stmt.AllProper at h
    unfold Declaration.writtenIn Written.AllFormed
    exact ⟨d.written_formed first h.1, Declaration.writtenIn_formed _ ds h.2⟩

theorem Function.written_formed (first : NodeId) (f : Function) (h : (f.ast first).Proper) :
    (f.written first).Formed := by
  cases f with
  | mk name opening params closing bodyOpening body bodyClosing =>
    unfold Function.ast FunDecl.Proper at h
    unfold Function.written WrittenFunction.Formed
    exact ⟨h.1, h.2.1, Declaration.writtenIn_formed first body h.2.2⟩

theorem Function.writtenIn_formed (first : NodeId) (fs : List Function)
    (h : FunDecl.AllProper (Function.astIn first fs)) :
    WrittenFunction.AllFormed (Function.writtenIn first fs) := by
  cases fs with
  | nil => trivial
  | cons f fs =>
    unfold Function.astIn FunDecl.AllProper at h
    unfold Function.writtenIn WrittenFunction.AllFormed
    exact ⟨f.written_formed first h.1, Function.writtenIn_formed _ fs h.2⟩

theorem Statement.written_formed (first : NodeId) (s : Statement) (h : (s.ast first).Proper) :
    (s.written first).Formed := by
  cases s with
  | expression e semicolon => trivial
  | print keyword e semicolon => trivial
  | ret keyword value semicolon => trivial
  | block opening body closing =>
    unfold Statement.ast Stmt.Proper at h
    unfold Statement.written Written.Formed
    exact Declaration.writtenIn_formed first body h
  | loop keyword opening condition closing body =>
    unfold Statement.ast Stmt.Proper at h
    unfold Statement.written Written.Formed
    exact ⟨body.written_formed _ h.1, body.declared?_written _⟩
  | forLoop keyword opening initializer condition semicolon increment closing body =>
    unfold Statement.ast at h
    obtain ⟨hinit, hbody⟩ := h.of_forLoop
    have hformed := initializer.written_formed first hinit
    have hbody := body.written_formed _ hbody
    unfold Statement.written
    cases hw : initializer.written first with
    | none =>
      unfold Written.Formed
      exact ⟨hbody, body.declared?_written _⟩
    | some w =>
      unfold Written.Formed
      exact ⟨hformed w hw, hbody, body.declared?_written _⟩
  | branch keyword opening condition closing thenBranch =>
    unfold Statement.ast Stmt.Proper at h
    unfold Statement.written Written.Formed
    exact ⟨thenBranch.written_formed _ h.1, thenBranch.declared?_written _⟩
  | branchElse keyword opening condition closing thenBranch otherwise elseBranch =>
    unfold Statement.ast Stmt.Proper at h
    unfold Statement.written Written.Formed
    exact ⟨⟨thenBranch.written_formed _ h.1.1, thenBranch.declared?_written _⟩,
      elseBranch.written_formed _ h.2.1, elseBranch.declared?_written _⟩

end

end Concrete

end Lox
