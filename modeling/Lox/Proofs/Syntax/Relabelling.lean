/-
Trees on other lines.

A tree can be moved to other lines by a function on lines.  That changes the lines of its leaves
and nothing else: the tree stays legal, its nodes take as many numbers, and its abstract syntax is
a copy of what it was.

* `Expression.relabel`, `Declaration.relabel` — a tree on other lines;
* `Declaration.leavesIn_relabel` — its leaves are the leaves, on other lines;
* `Declaration.astIn_copy` — on any two choices of lines, and with numbers from any two numbers on,
  the abstract syntax is the same up to lines and numbers.

Design notes: both sides of a copy are moved, so that two texts in which a source stands on
different lines are compared without a third one.
-/
import Lox.Proofs.Syntax.Concrete
import Lox.Proofs.Syntax.Copies
import Lox.Proofs.Token.Seams

namespace Lox

namespace Concrete

/-- A leaf on another line. -/
def Leaf.relabel {p : Kind → Bool} (f : Nat → Nat) (l : Leaf p) : Leaf p :=
  ⟨l.token.relabel f, l.isKind⟩

/-! ### Moving trees -/

mutual

/-- An expression on other lines. -/
def Expression.relabel (f : Nat → Nat) : Expression → Expression
  | .operation e => .operation (e.relabel f)
  | .assign name equals value => .assign (name.relabel f) (equals.relabel f) (value.relabel f)
  | .set object dot name equals value =>
    .set (object.relabel f) (dot.relabel f) (name.relabel f) (equals.relabel f) (value.relabel f)

/-- An operation on other lines. -/
def Operation.relabel (f : Nat → Nat) : {rank : Nat} → Operation rank → Operation rank
  | _, .call c => .call (c.relabel f)
  | _, .unary operator right => .unary (operator.relabel f) (right.relabel f)
  | _, .operand e => .operand (e.relabel f)
  | _, .binary left operator right =>
    .binary (left.relabel f) (operator.relabel f) (right.relabel f)

/-- A call on other lines. -/
def Call.relabel (f : Nat → Nat) : Call → Call
  | .literal t => .literal (t.relabel f)
  | .thisRef keyword => .thisRef (keyword.relabel f)
  | .name t => .name (t.relabel f)
  | .superRef keyword dot method =>
    .superRef (keyword.relabel f) (dot.relabel f) (method.relabel f)
  | .group opening inner closing =>
    .group (opening.relabel f) (inner.relabel f) (closing.relabel f)
  | .invoke callee opening closing =>
    .invoke (callee.relabel f) (opening.relabel f) (closing.relabel f)
  | .invokeWith callee opening arguments closing =>
    .invokeWith (callee.relabel f) (opening.relabel f) (arguments.relabel f) (closing.relabel f)
  | .property object dot name =>
    .property (object.relabel f) (dot.relabel f) (name.relabel f)

/-- Arguments on other lines. -/
def Arguments.relabel (f : Nat → Nat) : Arguments → Arguments
  | .last e => .last (e.relabel f)
  | .more e comma others => .more (e.relabel f) (comma.relabel f) (others.relabel f)

end

/-- Parameters on other lines. -/
def Parameters.relabel (f : Nat → Nat) : Parameters → Parameters
  | .last name => .last (name.relabel f)
  | .more name comma others => .more (name.relabel f) (comma.relabel f) (others.relabel f)

/-- A value with its sign on other lines. -/
def Initial.relabel (f : Nat → Nat) (i : Initial) : Initial :=
  ⟨i.equals.relabel f, i.value.relabel f⟩

/-- A variable declaration on other lines. -/
def VarDecl.relabel (f : Nat → Nat) (v : VarDecl) : VarDecl :=
  ⟨v.keyword.relabel f, v.name.relabel f, v.initial.map (Initial.relabel f),
    v.semicolon.relabel f⟩

/-- A clause on other lines. -/
def ForClause.relabel (f : Nat → Nat) : ForClause → ForClause
  | .absent semicolon => .absent (semicolon.relabel f)
  | .varDecl v => .varDecl (v.relabel f)
  | .expression e semicolon => .expression (e.relabel f) (semicolon.relabel f)

/-- A superclass on other lines. -/
def Superclass.relabel (f : Nat → Nat) (s : Superclass) : Superclass :=
  ⟨s.less.relabel f, s.name.relabel f⟩

mutual

/-- A declaration on other lines. -/
def Declaration.relabel (f : Nat → Nat) : Declaration → Declaration
  | .classDecl keyword name superclass opening methods closing =>
    .classDecl (keyword.relabel f) (name.relabel f) (superclass.map (Superclass.relabel f))
      (opening.relabel f) (Function.relabelIn f methods) (closing.relabel f)
  | .function keyword fn => .function (keyword.relabel f) (fn.relabel f)
  | .varDecl v => .varDecl (v.relabel f)
  | .statement s => .statement (s.relabel f)

/-- Declarations on other lines. -/
def Declaration.relabelIn (f : Nat → Nat) : List Declaration → List Declaration
  | [] => []
  | d :: ds => d.relabel f :: Declaration.relabelIn f ds

/-- A function on other lines. -/
def Function.relabel (f : Nat → Nat) : Function → Function
  | .mk name opening params closing bodyOpening body bodyClosing =>
    .mk (name.relabel f) (opening.relabel f) (params.map (Parameters.relabel f))
      (closing.relabel f) (bodyOpening.relabel f) (Declaration.relabelIn f body)
      (bodyClosing.relabel f)

/-- Functions on other lines. -/
def Function.relabelIn (f : Nat → Nat) : List Function → List Function
  | [] => []
  | fn :: fns => fn.relabel f :: Function.relabelIn f fns

/-- A statement on other lines. -/
def Statement.relabel (f : Nat → Nat) : Statement → Statement
  | .expression e semicolon => .expression (e.relabel f) (semicolon.relabel f)
  | .print keyword e semicolon =>
    .print (keyword.relabel f) (e.relabel f) (semicolon.relabel f)
  | .ret keyword value semicolon =>
    .ret (keyword.relabel f) (value.map (Expression.relabel f)) (semicolon.relabel f)
  | .block opening body closing =>
    .block (opening.relabel f) (Declaration.relabelIn f body) (closing.relabel f)
  | .loop keyword opening condition closing body =>
    .loop (keyword.relabel f) (opening.relabel f) (condition.relabel f) (closing.relabel f)
      (body.relabel f)
  | .forLoop keyword opening initializer condition semicolon increment closing body =>
    .forLoop (keyword.relabel f) (opening.relabel f) (initializer.relabel f)
      (condition.map (Expression.relabel f)) (semicolon.relabel f)
      (increment.map (Expression.relabel f)) (closing.relabel f) (body.relabel f)
  | .branch keyword opening condition closing thenBranch =>
    .branch (keyword.relabel f) (opening.relabel f) (condition.relabel f) (closing.relabel f)
      (thenBranch.relabel f)
  | .branchElse keyword opening condition closing thenBranch otherwise elseBranch =>
    .branchElse (keyword.relabel f) (opening.relabel f) (condition.relabel f) (closing.relabel f)
      (thenBranch.relabel f) (otherwise.relabel f) (elseBranch.relabel f)

end

variable {f g : Nat → Nat}

/-! ### What stays the same -/

@[simp] theorem Leaf.token_relabel {p : Kind → Bool} (l : Leaf p) :
    (l.relabel f).token = l.token.relabel f := rfl

mutual

@[simp] theorem Expression.leaves_relabel (e : Expression) :
    (e.relabel f).leaves = e.leaves.map (Token.relabel f) := by
  cases e with
  | operation e => exact e.leaves_relabel
  | assign name equals value => simp [Expression.relabel, Expression.leaves, value.leaves_relabel]
  | set object dot name equals value =>
    simp [Expression.relabel, Expression.leaves, object.leaves_relabel, value.leaves_relabel]

@[simp] theorem Operation.leaves_relabel {rank : Nat} (e : Operation rank) :
    (e.relabel f).leaves = e.leaves.map (Token.relabel f) := by
  cases e with
  | call c => exact c.leaves_relabel
  | unary operator right => simp [Operation.relabel, Operation.leaves, right.leaves_relabel]
  | operand e => exact e.leaves_relabel
  | binary left operator right =>
    simp [Operation.relabel, Operation.leaves, left.leaves_relabel, right.leaves_relabel]

@[simp] theorem Call.leaves_relabel (c : Call) :
    (c.relabel f).leaves = c.leaves.map (Token.relabel f) := by
  cases c with
  | literal t => rfl
  | thisRef keyword => rfl
  | name t => rfl
  | superRef keyword dot method => rfl
  | group opening inner closing => simp [Call.relabel, Call.leaves, inner.leaves_relabel]
  | invoke callee opening closing => simp [Call.relabel, Call.leaves, callee.leaves_relabel]
  | invokeWith callee opening arguments closing =>
    simp [Call.relabel, Call.leaves, callee.leaves_relabel, arguments.leaves_relabel]
  | property object dot name => simp [Call.relabel, Call.leaves, object.leaves_relabel]

@[simp] theorem Arguments.leaves_relabel (es : Arguments) :
    (es.relabel f).leaves = es.leaves.map (Token.relabel f) := by
  cases es with
  | last e => exact e.leaves_relabel
  | more e comma others =>
    simp [Arguments.relabel, Arguments.leaves, e.leaves_relabel, others.leaves_relabel]

end

mutual

@[simp] theorem Expression.ids_relabel (e : Expression) : (e.relabel f).ids = e.ids := by
  cases e with
  | operation e => exact e.ids_relabel
  | assign name equals value => simp [Expression.relabel, Expression.ids, value.ids_relabel]
  | set object dot name equals value =>
    simp [Expression.relabel, Expression.ids, object.ids_relabel, value.ids_relabel]

@[simp] theorem Operation.ids_relabel {rank : Nat} (e : Operation rank) :
    (e.relabel f).ids = e.ids := by
  cases e with
  | call c => exact c.ids_relabel
  | unary operator right => exact right.ids_relabel
  | operand e => exact e.ids_relabel
  | binary left operator right =>
    simp [Operation.relabel, Operation.ids, left.ids_relabel, right.ids_relabel]

@[simp] theorem Call.ids_relabel (c : Call) : (c.relabel f).ids = c.ids := by
  cases c with
  | literal t => rfl
  | thisRef keyword => rfl
  | name t => rfl
  | superRef keyword dot method => rfl
  | group opening inner closing => exact inner.ids_relabel
  | invoke callee opening closing => exact callee.ids_relabel
  | invokeWith callee opening arguments closing =>
    simp [Call.relabel, Call.ids, callee.ids_relabel, arguments.ids_relabel]
  | property object dot name => exact object.ids_relabel

@[simp] theorem Arguments.ids_relabel (es : Arguments) : (es.relabel f).ids = es.ids := by
  cases es with
  | last e => exact e.ids_relabel
  | more e comma others =>
    simp [Arguments.relabel, Arguments.ids, e.ids_relabel, others.ids_relabel]

end

@[simp] theorem Arguments.count_relabel (es : Arguments) : (es.relabel f).count = es.count := by
  match es with
  | .last e => rfl
  | .more e comma others => exact congrArg (· + 1) others.count_relabel

mutual

theorem Expression.Legal.relabel {e : Expression} (h : e.Legal) : (e.relabel f).Legal := by
  cases e with
  | operation e => exact Operation.Legal.relabel h
  | assign name equals value => exact Expression.Legal.relabel (e := value) h
  | set object dot name equals value => exact ⟨Call.Legal.relabel h.1, Expression.Legal.relabel h.2⟩

theorem Operation.Legal.relabel {rank : Nat} {e : Operation rank} (h : e.Legal) :
    (e.relabel f).Legal := by
  cases e with
  | call c => exact Call.Legal.relabel h
  | unary operator right => exact Operation.Legal.relabel (e := right) h
  | operand e => exact Operation.Legal.relabel (e := e) h
  | binary left operator right => exact ⟨Operation.Legal.relabel h.1, Operation.Legal.relabel h.2⟩

theorem Call.Legal.relabel {c : Call} (h : c.Legal) : (c.relabel f).Legal := by
  cases c with
  | literal t => trivial
  | thisRef keyword => trivial
  | name t => trivial
  | superRef keyword dot method => trivial
  | group opening inner closing => exact Expression.Legal.relabel (e := inner) h
  | invoke callee opening closing => exact Call.Legal.relabel (c := callee) h
  | invokeWith callee opening arguments closing =>
    refine ⟨Call.Legal.relabel h.1, ?_, Arguments.Legal.relabel h.2.2⟩
    rw [Arguments.count_relabel]
    exact h.2.1
  | property object dot name => exact Call.Legal.relabel (c := object) h

theorem Arguments.Legal.relabel {es : Arguments} (h : es.Legal) : (es.relabel f).Legal := by
  cases es with
  | last e => exact Expression.Legal.relabel (e := e) h
  | more e comma others => exact ⟨Expression.Legal.relabel h.1, Arguments.Legal.relabel h.2⟩

end

@[simp] theorem Expression.leaves?_relabel (e : Option Expression) :
    Expression.leaves? (e.map (Expression.relabel f)) =
      (Expression.leaves? e).map (Token.relabel f) := by
  cases e with
  | none => rfl
  | some e => exact e.leaves_relabel

@[simp] theorem Expression.ids?_relabel (e : Option Expression) :
    Expression.ids? (e.map (Expression.relabel f)) = Expression.ids? e := by
  cases e with
  | none => rfl
  | some e => exact e.ids_relabel

theorem Expression.legal?_relabel {e : Option Expression} (h : Expression.Legal? e) :
    Expression.Legal? (e.map (Expression.relabel f)) := by
  intro e' he'
  cases e with
  | none => cases he'
  | some e =>
    cases he'
    exact (h e rfl).relabel

@[simp] theorem Parameters.leaves?_relabel (ps : Option Parameters) :
    Parameters.leaves? (ps.map (Parameters.relabel f)) =
      (Parameters.leaves? ps).map (Token.relabel f) := by
  cases ps with
  | none => rfl
  | some ps =>
    show (ps.relabel f).leaves = ps.leaves.map (Token.relabel f)
    induction ps with
    | last name => rfl
    | more name comma others ih => simp [Parameters.relabel, Parameters.leaves, ih]

@[simp] theorem Parameters.names?_relabel (ps : Option Parameters) :
    Parameters.names? (ps.map (Parameters.relabel f)) =
      (Parameters.names? ps).map (Token.relabel f) := by
  cases ps with
  | none => rfl
  | some ps =>
    show (ps.relabel f).names = ps.names.map (Token.relabel f)
    induction ps with
    | last name => rfl
    | more name comma others ih => simp [Parameters.relabel, Parameters.names, ih]

@[simp] theorem VarDecl.leaves_relabel (v : VarDecl) :
    (v.relabel f).leaves = v.leaves.map (Token.relabel f) := by
  obtain ⟨keyword, name, initial, semicolon⟩ := v
  cases initial with
  | none => rfl
  | some i =>
    simp [VarDecl.relabel, Initial.relabel, VarDecl.leaves, VarDecl.initialLeaves]

theorem VarDecl.value?_relabel (v : VarDecl) :
    (v.relabel f).value? = v.value?.map (Expression.relabel f) := by
  obtain ⟨keyword, name, initial, semicolon⟩ := v
  cases initial <;> rfl

@[simp] theorem ForClause.leaves_relabel (i : ForClause) :
    (i.relabel f).leaves = i.leaves.map (Token.relabel f) := by
  cases i with
  | absent semicolon => rfl
  | varDecl v => exact v.leaves_relabel
  | expression e semicolon => simp [ForClause.relabel, ForClause.leaves]

theorem ForClause.value?_relabel (i : ForClause) :
    (i.relabel f).value? = i.value?.map (Expression.relabel f) := by
  cases i with
  | absent semicolon => rfl
  | varDecl v => exact v.value?_relabel
  | expression e semicolon => rfl

@[simp] theorem Superclass.leaves?_relabel (s : Option Superclass) :
    Superclass.leaves? (s.map (Superclass.relabel f)) =
      (Superclass.leaves? s).map (Token.relabel f) := by
  cases s <;> rfl

@[simp] theorem Superclass.ids?_relabel (s : Option Superclass) :
    Superclass.ids? (s.map (Superclass.relabel f)) = Superclass.ids? s := by
  cases s <;> rfl

mutual

theorem Declaration.leaves_relabel (d : Declaration) :
    (d.relabel f).leaves = d.leaves.map (Token.relabel f) := by
  cases d with
  | classDecl keyword name superclass opening methods closing =>
    simp [Declaration.relabel, Declaration.leaves, Function.leavesIn_relabel methods]
  | function keyword fn => simp [Declaration.relabel, Declaration.leaves, fn.leaves_relabel]
  | varDecl v => exact v.leaves_relabel
  | statement s => exact s.leaves_relabel

theorem Declaration.leavesIn_relabel (ds : List Declaration) :
    Declaration.leavesIn (Declaration.relabelIn f ds) =
      (Declaration.leavesIn ds).map (Token.relabel f) := by
  cases ds with
  | nil => rfl
  | cons d ds =>
    simp [Declaration.relabelIn, Declaration.leavesIn, d.leaves_relabel,
      Declaration.leavesIn_relabel ds]

theorem Function.leaves_relabel (fn : Function) :
    (fn.relabel f).leaves = fn.leaves.map (Token.relabel f) := by
  cases fn with
  | mk name opening params closing bodyOpening body bodyClosing =>
    simp [Function.relabel, Function.leaves, Declaration.leavesIn_relabel body]

theorem Function.leavesIn_relabel (fns : List Function) :
    Function.leavesIn (Function.relabelIn f fns) =
      (Function.leavesIn fns).map (Token.relabel f) := by
  cases fns with
  | nil => rfl
  | cons fn fns =>
    simp [Function.relabelIn, Function.leavesIn, fn.leaves_relabel,
      Function.leavesIn_relabel fns]

theorem Statement.leaves_relabel (s : Statement) :
    (s.relabel f).leaves = s.leaves.map (Token.relabel f) := by
  cases s with
  | expression e semicolon => simp [Statement.relabel, Statement.leaves]
  | print keyword e semicolon => simp [Statement.relabel, Statement.leaves]
  | ret keyword value semicolon => simp [Statement.relabel, Statement.leaves]
  | block opening body closing =>
    simp [Statement.relabel, Statement.leaves, Declaration.leavesIn_relabel body]
  | loop keyword opening condition closing body =>
    simp [Statement.relabel, Statement.leaves, body.leaves_relabel]
  | forLoop keyword opening initializer condition semicolon increment closing body =>
    simp [Statement.relabel, Statement.leaves, body.leaves_relabel]
  | branch keyword opening condition closing thenBranch =>
    simp [Statement.relabel, Statement.leaves, thenBranch.leaves_relabel]
  | branchElse keyword opening condition closing thenBranch otherwise elseBranch =>
    simp [Statement.relabel, Statement.leaves, thenBranch.leaves_relabel,
      elseBranch.leaves_relabel]

end

mutual

theorem Declaration.ids_relabel (d : Declaration) : (d.relabel f).ids = d.ids := by
  cases d with
  | classDecl keyword name superclass opening methods closing =>
    simp [Declaration.relabel, Declaration.ids, Function.idsIn_relabel methods]
  | function keyword fn => exact fn.ids_relabel
  | varDecl v => simp [Declaration.relabel, Declaration.ids, v.value?_relabel]
  | statement s => exact s.ids_relabel

theorem Declaration.idsIn_relabel (ds : List Declaration) :
    Declaration.idsIn (Declaration.relabelIn f ds) = Declaration.idsIn ds := by
  cases ds with
  | nil => rfl
  | cons d ds =>
    simp [Declaration.relabelIn, Declaration.idsIn, d.ids_relabel, Declaration.idsIn_relabel ds]

theorem Function.ids_relabel (fn : Function) : (fn.relabel f).ids = fn.ids := by
  cases fn with
  | mk name opening params closing bodyOpening body bodyClosing =>
    exact Declaration.idsIn_relabel body

theorem Function.idsIn_relabel (fns : List Function) :
    Function.idsIn (Function.relabelIn f fns) = Function.idsIn fns := by
  cases fns with
  | nil => rfl
  | cons fn fns =>
    simp [Function.relabelIn, Function.idsIn, fn.ids_relabel, Function.idsIn_relabel fns]

theorem Statement.ids_relabel (s : Statement) : (s.relabel f).ids = s.ids := by
  cases s with
  | expression e semicolon => exact e.ids_relabel
  | print keyword e semicolon => exact e.ids_relabel
  | ret keyword value semicolon => exact Expression.ids?_relabel value
  | block opening body closing => exact Declaration.idsIn_relabel body
  | loop keyword opening condition closing body =>
    simp [Statement.relabel, Statement.ids, body.ids_relabel]
  | forLoop keyword opening initializer condition semicolon increment closing body =>
    simp [Statement.relabel, Statement.ids, body.ids_relabel, initializer.value?_relabel]
  | branch keyword opening condition closing thenBranch =>
    simp [Statement.relabel, Statement.ids, thenBranch.ids_relabel]
  | branchElse keyword opening condition closing thenBranch otherwise elseBranch =>
    simp [Statement.relabel, Statement.ids, thenBranch.ids_relabel, elseBranch.ids_relabel]

end

theorem Statement.endsOpen_relabel (s : Statement) : (s.relabel f).endsOpen = s.endsOpen := by
  match s with
  | .expression .. | .print .. | .ret .. | .block .. | .branch .. => rfl
  | .branchElse _ _ _ _ _ _ elseBranch => exact elseBranch.endsOpen_relabel
  | .loop _ _ _ _ body => exact body.endsOpen_relabel
  | .forLoop _ _ _ _ _ _ _ body => exact body.endsOpen_relabel

mutual

theorem Declaration.Legal.relabel {d : Declaration} (h : d.Legal) : (d.relabel f).Legal := by
  cases d with
  | classDecl keyword name superclass opening methods closing =>
    have hmethods : Function.AllLegal methods := h
    exact Function.AllLegal.relabel hmethods
  | function keyword fn =>
    have hfn : fn.Legal := h
    exact Function.Legal.relabel hfn
  | varDecl v =>
    unfold Declaration.relabel Declaration.Legal
    rw [v.value?_relabel]
    exact Expression.legal?_relabel h
  | statement s => exact Statement.Legal.relabel (s := s) h

theorem Declaration.AllLegal.relabel {ds : List Declaration} (h : Declaration.AllLegal ds) :
    Declaration.AllLegal (Declaration.relabelIn f ds) := by
  cases ds with
  | nil => trivial
  | cons d ds => exact ⟨Declaration.Legal.relabel h.1, Declaration.AllLegal.relabel h.2⟩

theorem Function.Legal.relabel {fn : Function} (h : fn.Legal) : (fn.relabel f).Legal := by
  cases fn with
  | mk name opening params closing bodyOpening body bodyClosing =>
    refine ⟨?_, Declaration.AllLegal.relabel h.2⟩
    rw [Parameters.names?_relabel, List.length_map]
    exact h.1

theorem Function.AllLegal.relabel {fns : List Function} (h : Function.AllLegal fns) :
    Function.AllLegal (Function.relabelIn f fns) := by
  cases fns with
  | nil => trivial
  | cons fn fns => exact ⟨Function.Legal.relabel h.1, Function.AllLegal.relabel h.2⟩

theorem Statement.Legal.relabel {s : Statement} (h : s.Legal) : (s.relabel f).Legal := by
  cases s with
  | expression e semicolon => exact Expression.Legal.relabel (e := e) h
  | print keyword e semicolon => exact Expression.Legal.relabel (e := e) h
  | ret keyword value semicolon => exact Expression.legal?_relabel h
  | block opening body closing =>
    have hbody : Declaration.AllLegal body := h
    exact Declaration.AllLegal.relabel hbody
  | loop keyword opening condition closing body => exact ⟨h.1.relabel, Statement.Legal.relabel h.2⟩
  | forLoop keyword opening initializer condition semicolon increment closing body =>
    obtain ⟨hi, hc, ht, hb⟩ := h
    refine ⟨?_, Expression.legal?_relabel hc, Expression.legal?_relabel ht,
      Statement.Legal.relabel hb⟩
    rw [initializer.value?_relabel]
    exact Expression.legal?_relabel hi
  | branch keyword opening condition closing thenBranch =>
    exact ⟨h.1.relabel, Statement.Legal.relabel h.2⟩
  | branchElse keyword opening condition closing thenBranch otherwise elseBranch =>
    obtain ⟨hc, ht, hopen, he⟩ := h
    exact ⟨hc.relabel, Statement.Legal.relabel ht, thenBranch.endsOpen_relabel.trans hopen,
      Statement.Legal.relabel he⟩

end

/-! ### The abstract syntax -/

/-- So many numbers from `first` on belong to as many from `first'` on. -/
def Paired (π : Pairing) (n first first' : Nat) : Prop :=
  ∀ j < n, π.ids (first + j) (first' + j)

variable {π : Pairing} {first first' : Nat}

theorem Paired.left {m n : Nat} (h : Paired π (m + n) first first') : Paired π m first first' :=
  fun j hj => h j (Nat.lt_add_right n hj)

theorem Paired.right {m n : Nat} (h : Paired π (m + n) first first') :
    Paired π n (first + m) (first' + m) := by
  intro j hj
  have hmj := h (m + j) (Nat.add_lt_add_left hj m)
  rwa [← Nat.add_assoc, ← Nat.add_assoc] at hmj

theorem Paired.head {n : Nat} (h : Paired π (n + 1) first first') : π.ids first first' :=
  h 0 (Nat.succ_pos n)

/-- All lines belong together where `f` and `g` lead them. -/
def Leads (π : Pairing) (f g : Nat → Nat) : Prop :=
  ∀ l, π.lines (f l) (g l)

theorem token_copy (hfg : Leads π f g) (t : Token) : (t.relabel f).Copy π (t.relabel g) :=
  ⟨rfl, rfl, hfg t.line⟩

theorem operatorNode_copy (hfg : Leads π f g) (rank : Nat) {left left' right right' : Expr}
    (hleft : left.Copy π left') (operator : Token) (hright : right.Copy π right') :
    Expr.Copy π (operatorNode rank left (operator.relabel f) right)
      (operatorNode rank left' (operator.relabel g) right') := by
  unfold operatorNode
  split
  · exact .binary hleft (token_copy hfg operator) hright
  · exact .logical hleft (token_copy hfg operator) hright

mutual

theorem Expression.ast_copy (hfg : Leads π f g) (e : Expression) {first first' : Nat}
    (hids : Paired π e.ids first first') :
    Expr.Copy π ((e.relabel f).ast first) ((e.relabel g).ast first') := by
  cases e with
  | operation e => exact e.ast_copy hfg hids
  | assign name equals value =>
    have hvalue : Paired π value.ids (first + 1) (first' + 1) := hids.left.right
    have hid := hids (1 + value.ids) (Nat.lt_succ_self _)
    rw [← Nat.add_assoc, ← Nat.add_assoc] at hid
    simp only [Expression.relabel, Expression.ast, Expression.ids_relabel]
    exact .assign hid (token_copy hfg name.token) (value.ast_copy hfg hvalue)
  | set object dot name equals value =>
    simp only [Expression.relabel, Expression.ast, Call.ids_relabel]
    exact .set (object.ast_copy hfg hids.left) (token_copy hfg name.token)
      (value.ast_copy hfg hids.right)

theorem Operation.ast_copy (hfg : Leads π f g) {rank : Nat} (e : Operation rank)
    {first first' : Nat} (hids : Paired π e.ids first first') :
    Expr.Copy π ((e.relabel f).ast first) ((e.relabel g).ast first') := by
  cases e with
  | call c => exact c.ast_copy hfg hids
  | unary operator right =>
    exact .unary (token_copy hfg operator.token) (right.ast_copy hfg hids)
  | operand e => exact e.ast_copy hfg hids
  | binary left operator right =>
    simp only [Operation.relabel, Operation.ast, Operation.ids_relabel]
    exact operatorNode_copy hfg _ (left.ast_copy hfg hids.left) operator.token
      (right.ast_copy hfg hids.right)

theorem Call.ast_copy (hfg : Leads π f g) (c : Call) {first first' : Nat}
    (hids : Paired π c.ids first first') :
    Expr.Copy π ((c.relabel f).ast first) ((c.relabel g).ast first') := by
  cases c with
  | literal t => exact .literal _
  | thisRef keyword => exact .thisRef hids.head (token_copy hfg keyword.token)
  | name t => exact .var hids.head (token_copy hfg t.token)
  | superRef keyword dot method =>
    exact .superRef hids.head (token_copy hfg keyword.token) (token_copy hfg method.token)
  | group opening inner closing => exact .grouping (inner.ast_copy hfg hids)
  | invoke callee opening closing =>
    exact .call (callee.ast_copy hfg hids) (token_copy hfg closing.token) .nil
  | invokeWith callee opening arguments closing =>
    simp only [Call.relabel, Call.ast, Call.ids_relabel]
    exact .call (callee.ast_copy hfg hids.left) (token_copy hfg closing.token)
      (arguments.ast_copy hfg hids.right)
  | property object dot name => exact .get (object.ast_copy hfg hids) (token_copy hfg name.token)

theorem Arguments.ast_copy (hfg : Leads π f g) (es : Arguments) {first first' : Nat}
    (hids : Paired π es.ids first first') :
    Expr.CopyAll π ((es.relabel f).ast first) ((es.relabel g).ast first') := by
  cases es with
  | last e => exact .cons (e.ast_copy hfg hids) .nil
  | more e comma others =>
    simp only [Arguments.relabel, Arguments.ast, Expression.ids_relabel]
    exact .cons (e.ast_copy hfg hids.left) (others.ast_copy hfg hids.right)

end

theorem Expression.ast?_copy (hfg : Leads π f g) (e : Option Expression)
    (hids : Paired π (Expression.ids? e) first first') :
    Option.Rel (Expr.Copy π) ((e.map (Expression.relabel f)).map (Expression.ast first))
      ((e.map (Expression.relabel g)).map (Expression.ast first')) := by
  cases e with
  | none => exact .none
  | some e => exact .some (e.ast_copy hfg hids)

theorem names?_copy (hfg : Leads π f g) (ps : Option Parameters) :
    List.Forall₂ (Token.Copy π) (Parameters.names? (ps.map (Parameters.relabel f)))
      (Parameters.names? (ps.map (Parameters.relabel g))) := by
  rw [Parameters.names?_relabel, Parameters.names?_relabel, List.forall₂_map_left_iff,
    List.forall₂_map_right_iff]
  exact List.forall₂_same.mpr fun t _ => token_copy hfg t

theorem VarDecl.ast_copy (hfg : Leads π f g) (v : VarDecl)
    (hids : Paired π (Expression.ids? v.value?) first first') :
    Stmt.Copy π ((v.relabel f).ast first) ((v.relabel g).ast first') := by
  unfold VarDecl.ast
  rw [v.value?_relabel, v.value?_relabel]
  exact .varDecl (token_copy hfg v.name.token) (Expression.ast?_copy hfg v.value? hids)

theorem ForClause.ast_copy (hfg : Leads π f g) (i : ForClause)
    (hids : Paired π (Expression.ids? i.value?) first first') :
    Option.Rel (Stmt.Copy π) ((i.relabel f).ast first) ((i.relabel g).ast first') := by
  cases i with
  | absent semicolon => exact .none
  | varDecl v => exact .some (v.ast_copy hfg hids)
  | expression e semicolon => exact .some (.expression (e.ast_copy hfg hids))

theorem Superclass.ast?_copy (hfg : Leads π f g) (s : Option Superclass)
    (hids : Paired π (Superclass.ids? s) first first') :
    Option.Rel (Expr.Copy π) (Superclass.ast? first (s.map (Superclass.relabel f)))
      (Superclass.ast? first' (s.map (Superclass.relabel g))) := by
  cases s with
  | none => exact .none
  | some s => exact .some (.var hids.head (token_copy hfg s.name.token))

/-- A `for` loop is built from copies as a copy. -/
theorem forLoop_copy {initializer initializer' : Option Stmt}
    {condition condition' increment increment' : Option Expr} {body body' : Stmt}
    (hi : Option.Rel (Stmt.Copy π) initializer initializer')
    (hc : Option.Rel (Expr.Copy π) condition condition')
    (ht : Option.Rel (Expr.Copy π) increment increment') (hb : body.Copy π body') :
    Stmt.Copy π (.forLoop initializer condition increment body)
      (.forLoop initializer' condition' increment' body') := by
  have hcondition : Expr.Copy π (condition.getD (.literal (.bool true)))
      (condition'.getD (.literal (.bool true))) := by
    cases hc with
    | none => exact .literal _
    | some hc => exact hc
  have hloop : Stmt.Copy π (.forLoop none condition increment body)
      (.forLoop none condition' increment' body') := by
    cases ht with
    | none => exact .loop hcondition hb
    | some ht => exact .loop hcondition (.block (.cons hb (.cons (.expression ht) .nil)))
  cases hi with
  | none => exact hloop
  | some hi => exact .block (.cons hi (.cons hloop .nil))

mutual

theorem Declaration.ast_copy (hfg : Leads π f g) (d : Declaration) {first first' : Nat}
    (hids : Paired π d.ids first first') :
    Stmt.Copy π ((d.relabel f).ast first) ((d.relabel g).ast first') := by
  cases d with
  | classDecl keyword name superclass opening methods closing =>
    simp only [Declaration.relabel, Declaration.ast, Superclass.ids?_relabel]
    exact .classDecl (token_copy hfg name.token) (Superclass.ast?_copy hfg superclass hids.left)
      (Function.astIn_copy hfg methods hids.right)
  | function keyword fn => exact .function (fn.ast_copy hfg hids)
  | varDecl v => exact v.ast_copy hfg hids
  | statement s => exact s.ast_copy hfg hids

theorem Declaration.astIn_copy (hfg : Leads π f g) (ds : List Declaration) {first first' : Nat}
    (hids : Paired π (Declaration.idsIn ds) first first') :
    Stmt.CopyAll π (Declaration.astIn first (Declaration.relabelIn f ds))
      (Declaration.astIn first' (Declaration.relabelIn g ds)) := by
  cases ds with
  | nil => exact .nil
  | cons d ds =>
    simp only [Declaration.relabelIn, Declaration.astIn, Declaration.ids_relabel]
    exact .cons (d.ast_copy hfg hids.left) (Declaration.astIn_copy hfg ds hids.right)

theorem Function.ast_copy (hfg : Leads π f g) (fn : Function) {first first' : Nat}
    (hids : Paired π fn.ids first first') :
    FunDecl.Copy π ((fn.relabel f).ast first) ((fn.relabel g).ast first') := by
  cases fn with
  | mk name opening params closing bodyOpening body bodyClosing =>
    exact .mk (token_copy hfg name.token) (names?_copy hfg params)
      (Declaration.astIn_copy hfg body hids)

theorem Function.astIn_copy (hfg : Leads π f g) (fns : List Function) {first first' : Nat}
    (hids : Paired π (Function.idsIn fns) first first') :
    FunDecl.CopyAll π (Function.astIn first (Function.relabelIn f fns))
      (Function.astIn first' (Function.relabelIn g fns)) := by
  cases fns with
  | nil => exact .nil
  | cons fn fns =>
    simp only [Function.relabelIn, Function.astIn, Function.ids_relabel]
    exact .cons (fn.ast_copy hfg hids.left) (Function.astIn_copy hfg fns hids.right)

theorem Statement.ast_copy (hfg : Leads π f g) (s : Statement) {first first' : Nat}
    (hids : Paired π s.ids first first') :
    Stmt.Copy π ((s.relabel f).ast first) ((s.relabel g).ast first') := by
  cases s with
  | expression e semicolon => exact .expression (e.ast_copy hfg hids)
  | print keyword e semicolon => exact .print (e.ast_copy hfg hids)
  | ret keyword value semicolon =>
    exact .ret (token_copy hfg keyword.token) (Expression.ast?_copy hfg value hids)
  | block opening body closing => exact .block (Declaration.astIn_copy hfg body hids)
  | loop keyword opening condition closing body =>
    simp only [Statement.relabel, Statement.ast, Expression.ids_relabel]
    exact .loop (condition.ast_copy hfg hids.left) (body.ast_copy hfg hids.right)
  | forLoop keyword opening initializer condition semicolon increment closing body =>
    simp only [Statement.relabel, Statement.ast, ForClause.value?_relabel,
      Expression.ids?_relabel]
    exact forLoop_copy (initializer.ast_copy hfg hids.left.left.left)
      (Expression.ast?_copy hfg condition hids.left.left.right)
      (Expression.ast?_copy hfg increment (by simpa only [Nat.add_assoc] using hids.left.right))
      (body.ast_copy hfg (by simpa only [Nat.add_assoc] using hids.right))
  | branch keyword opening condition closing thenBranch =>
    simp only [Statement.relabel, Statement.ast, Expression.ids_relabel]
    exact .branch (condition.ast_copy hfg hids.left) (thenBranch.ast_copy hfg hids.right)
  | branchElse keyword opening condition closing thenBranch otherwise elseBranch =>
    simp only [Statement.relabel, Statement.ast, Expression.ids_relabel, Statement.ids_relabel]
    exact .branchElse (condition.ast_copy hfg hids.left.left)
      (thenBranch.ast_copy hfg hids.left.right)
      (elseBranch.ast_copy hfg (by simpa only [Nat.add_assoc] using hids.right))

end

end Concrete

end Lox
