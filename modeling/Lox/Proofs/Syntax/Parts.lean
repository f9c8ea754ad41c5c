/-
The parts of trees.

Every expression in a tree of the grammar is made of tokens of the text, and the kinds of these are
those that the expression calls for: an operator is one of its level, a name is an identifier, a
literal has the value of its token.  A superclass is a variable.

* `Part` — an expression in a tree, or the superclass of a class;
* `Expr.parts`, `Stmt.parts`, `FunDecl.parts` — all parts of a tree, at any depth;
* `Stmt.partsIn_closed` — with each expression, all that are in it are parts as well;
* `Part.Made` — a part that is made of some tokens, as the grammar has it;
* `parse_parts` — all parts of statements that are parsed from a list of tokens are made of them.

Design notes: the condition of a `for` loop that has none is `true`, for which no token stands.
Nothing is asked of the tokens; what holds of their texts is another matter.
-/
import Lox.Proofs.Syntax.Operators

namespace Lox

/-- A part of a tree. -/
inductive Part where
  | expression (e : Expr)
  | superclass (e : Expr)

mutual

/-- An expression and all expressions in it. -/
def Expr.parts (e : Expr) : List Part :=
  .expression e :: match e with
    | .assign _ _ value => value.parts
    | .binary left _ right => left.parts ++ right.parts
    | .call callee _ arguments => callee.parts ++ Expr.partsIn arguments
    | .get object _ => object.parts
    | .grouping inner => inner.parts
    | .literal _ => []
    | .logical left _ right => left.parts ++ right.parts
    | .set object _ value => object.parts ++ value.parts
    | .superRef .. | .thisRef .. | .var .. => []
    | .unary _ right => right.parts

/-- The parts of several expressions. -/
def Expr.partsIn : List Expr → List Part
  | [] => []
  | e :: es => e.parts ++ Expr.partsIn es

end

/-- The parts of an expression that may be absent. -/
def Expr.parts? (e : Option Expr) : List Part :=
  (e.map Expr.parts).getD []

/-- A superclass that may be absent, and its parts. -/
def Expr.superclassParts : Option Expr → List Part
  | none => []
  | some e => .superclass e :: e.parts

mutual

/-- The parts of a statement. -/
def Stmt.parts : Stmt → List Part
  | .block body => Stmt.partsIn body
  | .classDecl _ superclass methods =>
    Expr.superclassParts superclass ++ FunDecl.partsIn methods
  | .expression e => e.parts
  | .function f => f.parts
  | .branch condition thenBranch none => condition.parts ++ thenBranch.parts
  | .branch condition thenBranch (some elseBranch) =>
    condition.parts ++ (thenBranch.parts ++ elseBranch.parts)
  | .print e => e.parts
  | .ret _ value => Expr.parts? value
  | .varDecl _ initializer => Expr.parts? initializer
  | .loop condition body => condition.parts ++ body.parts

/-- The parts of several statements. -/
def Stmt.partsIn : List Stmt → List Part
  | [] => []
  | s :: ss => s.parts ++ Stmt.partsIn ss

/-- The parts of a function. -/
def FunDecl.parts : FunDecl → List Part
  | .mk _ _ body => Stmt.partsIn body

/-- The parts of several functions. -/
def FunDecl.partsIn : List FunDecl → List Part
  | [] => []
  | f :: fs => f.parts ++ FunDecl.partsIn fs

end

/-! ### Parts of parts -/

theorem Expr.mem_parts (e : Expr) : .expression e ∈ e.parts := by
  unfold Expr.parts
  exact List.mem_cons_self ..

/-- With each expression, all expressions in it are among the parts. -/
def Part.Closed (parts : List Part) : Prop :=
  ∀ e, .expression e ∈ parts → e.parts ⊆ parts

namespace Part.Closed

variable {xs ys : List Part}

theorem nil : Closed [] := fun _ he => by cases he

theorem append (h : Closed xs) (h' : Closed ys) : Closed (xs ++ ys) := by
  intro e he
  rcases List.mem_append.mp he with he | he
  · exact List.Subset.trans (h e he) (List.subset_append_left ..)
  · exact List.Subset.trans (h' e he) (List.subset_append_right ..)

/-- An expression with what is in it. -/
theorem node {e : Expr} (heq : e.parts = .expression e :: xs) (h : Closed xs) : Closed e.parts := by
  intro x hx
  rw [heq] at hx
  rcases List.mem_cons.mp hx with hx | hx
  · cases hx
    exact List.Subset.refl _
  · rw [heq]
    exact List.Subset.trans (h x hx) (List.subset_cons_self ..)

theorem superclass {e : Expr} (h : Closed xs) : Closed (.superclass e :: xs) := by
  intro x hx
  rcases List.mem_cons.mp hx with hx | hx
  · cases hx
  · exact List.Subset.trans (h x hx) (List.subset_cons_self ..)

end Part.Closed

mutual

theorem Expr.parts_closed (e : Expr) : Part.Closed e.parts := by
  match e with
  | .assign _ _ value => exact .node rfl value.parts_closed
  | .binary left _ right => exact .node rfl (left.parts_closed.append right.parts_closed)
  | .call callee _ arguments =>
    exact .node rfl (callee.parts_closed.append (Expr.partsIn_closed arguments))
  | .get object _ => exact .node rfl object.parts_closed
  | .grouping inner => exact .node rfl inner.parts_closed
  | .literal _ => exact .node rfl .nil
  | .logical left _ right => exact .node rfl (left.parts_closed.append right.parts_closed)
  | .set object _ value => exact .node rfl (object.parts_closed.append value.parts_closed)
  | .superRef .. => exact .node rfl .nil
  | .thisRef .. => exact .node rfl .nil
  | .unary _ right => exact .node rfl right.parts_closed
  | .var .. => exact .node rfl .nil

theorem Expr.partsIn_closed (es : List Expr) : Part.Closed (Expr.partsIn es) := by
  match es with
  | [] => exact .nil
  | e :: es => exact e.parts_closed.append (Expr.partsIn_closed es)

end

theorem Expr.parts?_closed (e : Option Expr) : Part.Closed (Expr.parts? e) := by
  cases e with
  | none => exact .nil
  | some e => exact e.parts_closed

theorem Expr.superclassParts_closed (e : Option Expr) : Part.Closed (Expr.superclassParts e) := by
  cases e with
  | none => exact .nil
  | some e => exact e.parts_closed.superclass

mutual

theorem Stmt.parts_closed (s : Stmt) : Part.Closed s.parts := by
  match s with
  | .block body => exact Stmt.partsIn_closed body
  | .classDecl _ superclass methods =>
    exact (Expr.superclassParts_closed superclass).append (FunDecl.partsIn_closed methods)
  | .expression e => exact e.parts_closed
  | .function f => exact f.parts_closed
  | .branch condition thenBranch none => exact condition.parts_closed.append thenBranch.parts_closed
  | .branch condition thenBranch (some elseBranch) =>
    exact condition.parts_closed.append (thenBranch.parts_closed.append elseBranch.parts_closed)
  | .print e => exact e.parts_closed
  | .ret _ value => exact Expr.parts?_closed value
  | .varDecl _ initializer => exact Expr.parts?_closed initializer
  | .loop condition body => exact condition.parts_closed.append body.parts_closed

theorem Stmt.partsIn_closed (ss : List Stmt) : Part.Closed (Stmt.partsIn ss) := by
  match ss with
  | [] => exact .nil
  | s :: ss => exact s.parts_closed.append (Stmt.partsIn_closed ss)

theorem FunDecl.parts_closed (f : FunDecl) : Part.Closed f.parts := by
  match f with
  | .mk _ _ body => exact Stmt.partsIn_closed body

theorem FunDecl.partsIn_closed (fs : List FunDecl) : Part.Closed (FunDecl.partsIn fs) := by
  match fs with
  | [] => exact .nil
  | f :: fs => exact f.parts_closed.append (FunDecl.partsIn_closed fs)

end

/-! ### Parts made of tokens -/

/-- The kinds of the operators `and` and `or`. -/
def Kind.isConnective (k : Kind) : Bool :=
  k.isKeyword .and_ || k.isKeyword .or_

/-- The operators of a binary node. -/
def Mark.binary : List Mark :=
  [.equalEqual, .bangEqual, .plus, .minus, .star, .slash, .greater, .greaterEqual, .less,
    .lessEqual]

theorem Kind.eq_of_unaryOperators {k : Kind} (h : Parse.unaryOperators k = true) :
    k = .mark .bang ∨ k = .mark .minus := by
  cases k with
  | mark m => cases m <;> first | exact .inl rfl | exact .inr rfl | cases h
  | _ => cases h

theorem Kind.eq_of_isBinaryOperator {k : Kind} (h : k.isBinaryOperator = true) :
    ∃ m ∈ Mark.binary, k = .mark m := by
  cases k with
  | mark m =>
    refine ⟨m, ?_, rfl⟩
    cases m <;> first | decide | cases h
  | _ => cases h

theorem Kind.eq_of_isConnective {k : Kind} (h : k.isConnective = true) :
    k = .keyword .and_ ∨ k = .keyword .or_ := by
  cases k with
  | keyword w => cases w <;> first | exact .inl rfl | exact .inr rfl | cases h
  | _ => cases h

/-- One of the tokens is the given one, and is of a kind. -/
def Token.Among (ts : List Token) (p : Kind → Bool) (t : Token) : Prop :=
  t ∈ ts ∧ p t.kind = true

/-- The expression, without those in it, is made of some tokens as the grammar has it. -/
def Expr.Made (ts : List Token) : Expr → Prop
  | .assign _ name _ => name.Among ts Kind.isIdentifier
  | .binary _ operator _ => operator.Among ts Kind.isBinaryOperator
  | .call _ paren _ => paren.Among ts (Kind.isMark .rightParen)
  | .grouping _ => True
  | .get _ name => name.Among ts Kind.isIdentifier
  | .literal l => l = .bool true ∨ ∃ t ∈ ts, t.kind.literal? = some l
  | .logical _ operator _ => operator.Among ts Kind.isConnective
  | .set _ name _ => name.Among ts Kind.isIdentifier
  | .superRef _ keyword method =>
    keyword.Among ts (Kind.isKeyword .super_) ∧ method.Among ts Kind.isIdentifier
  | .thisRef _ keyword => keyword.Among ts (Kind.isKeyword .this_)
  | .unary operator _ => operator.Among ts Parse.unaryOperators
  | .var _ name => name.Among ts Kind.isIdentifier

/-- The part is made of some tokens as the grammar has it. -/
def Part.Made (ts : List Token) : Part → Prop
  | .expression e => e.Made ts
  | .superclass e => ∃ id name, e = .var id name

/-- All of the parts are made of some tokens. -/
def Part.AllMade (ts : List Token) (parts : List Part) : Prop :=
  ∀ x ∈ parts, x.Made ts

namespace Part.AllMade

variable {ts : List Token} {xs ys : List Part}

theorem nil : AllMade ts [] := fun _ hx => by cases hx

theorem cons {x : Part} (hx : x.Made ts) (h : AllMade ts xs) : AllMade ts (x :: xs) :=
  List.forall_mem_cons.mpr ⟨hx, h⟩

theorem append (h : AllMade ts xs) (h' : AllMade ts ys) : AllMade ts (xs ++ ys) :=
  List.forall_mem_append.mpr ⟨h, h'⟩

theorem node {e : Expr} (h : AllMade ts (.expression e :: xs)) : e.Made ts :=
  h _ (List.mem_cons_self ..)

theorem tail {x : Part} (h : AllMade ts (x :: xs)) : AllMade ts xs :=
  (List.forall_mem_cons.mp h).2

theorem left (h : AllMade ts (xs ++ ys)) : AllMade ts xs :=
  (List.forall_mem_append.mp h).1

theorem right (h : AllMade ts (xs ++ ys)) : AllMade ts ys :=
  (List.forall_mem_append.mp h).2

end Part.AllMade

/-- The parts of a `for` loop are those of what it is made of, and `true` for a condition that is
absent. -/
theorem Stmt.forLoop_made {ts : List Token} {initializer : Option Stmt}
    {condition increment : Option Expr} {body : Stmt}
    (hinitializer : ∀ s ∈ initializer, Part.AllMade ts s.parts)
    (hcondition : Part.AllMade ts (Expr.parts? condition))
    (hincrement : Part.AllMade ts (Expr.parts? increment)) (hbody : Part.AllMade ts body.parts) :
    Part.AllMade ts (Stmt.forLoop initializer condition increment body).parts := by
  have hcond : Part.AllMade ts (condition.getD (.literal (.bool true))).parts := by
    cases condition with
    | none => exact .cons (.inl rfl) .nil
    | some e => exact hcondition
  have hturn (e : Expr) (he : Part.AllMade ts e.parts) :
      Part.AllMade ts (Stmt.block [body, .expression e]).parts :=
    hbody.append (he.append .nil)
  unfold Stmt.forLoop
  cases increment with
  | none =>
    cases initializer with
    | none => exact hcond.append hbody
    | some s => exact (hinitializer s rfl).append ((hcond.append hbody).append .nil)
  | some e =>
    cases initializer with
    | none => exact hcond.append (hturn e hincrement)
    | some s => exact (hinitializer s rfl).append ((hcond.append (hturn e hincrement)).append .nil)

namespace Concrete

variable {ts : List Token}

theorem Leaf.among {p : Kind → Bool} (l : Leaf p) (h : l.token ∈ ts) : l.token.Among ts p :=
  ⟨h, l.isKind⟩

/-- The operators of the levels above equality are connectives. -/
theorem isConnective_of_hasRank {k : Kind} {rank : Nat} (h : k.hasRank (rank + 1) = true)
    (hr : ¬ rank + 1 ≤ 4) (hle : rank + 1 ≤ 6) : k.isConnective = true := by
  have hrank : k.rank? = some (rank + 1) := eq_of_beq h
  unfold Kind.rank? at hrank
  split at hrank
  all_goals first | rfl | (cases hrank; omega) | cases hrank

/-- The node of a rank is made of its operator. -/
theorem operatorNode_made {rank : Nat} {left right : Expr}
    (operator : Leaf (Kind.hasRank (rank + 1)))
    (hle : rank + 1 ≤ 6) (ho : operator.token ∈ ts) (hl : Part.AllMade ts left.parts)
    (hr : Part.AllMade ts right.parts) :
    Part.AllMade ts (operatorNode (rank + 1) left operator.token right).parts := by
  unfold operatorNode
  split
  · next hrank =>
    exact .cons ⟨ho, isBinaryOperator_of_hasRank operator.isKind hrank⟩ (hl.append hr)
  · next hrank =>
    exact .cons ⟨ho, isConnective_of_hasRank operator.isKind hrank hle⟩ (hl.append hr)

mutual

theorem Expression.ast_made (first : Nat) (e : Expression) (h : e.leaves ⊆ ts) :
    Part.AllMade ts (e.ast first).parts := by
  cases e with
  | operation e => exact e.ast_made first (Nat.le_refl 6) h
  | assign name equals value =>
    simp only [Expression.leaves, List.cons_subset] at h
    exact .cons (name.among h.1) (value.ast_made (first + 1) h.2.2)
  | set object dot name equals value =>
    simp only [Expression.leaves, List.append_subset, List.cons_subset] at h
    obtain ⟨hobject, -, hname, -, hvalue⟩ := h
    exact .cons (name.among hname)
      ((object.ast_made first hobject).append (value.ast_made (first + object.ids) hvalue))

theorem Operation.ast_made (first : Nat) {rank : Nat} (e : Operation rank) (hle : rank ≤ 6)
    (h : e.leaves ⊆ ts) : Part.AllMade ts (e.ast first).parts := by
  cases e with
  | call c => exact c.ast_made first h
  | unary operator right =>
    simp only [Operation.leaves, List.cons_subset] at h
    exact .cons (operator.among h.1) (right.ast_made first hle h.2)
  | operand e => exact e.ast_made first (Nat.le_of_succ_le hle) h
  | binary left operator right =>
    simp only [Operation.leaves, List.append_subset, List.cons_subset] at h
    obtain ⟨hleft, hoperator, hright⟩ := h
    exact operatorNode_made operator hle hoperator (left.ast_made first hle hleft)
      (right.ast_made (first + left.ids) (Nat.le_of_succ_le hle) hright)

theorem Call.ast_made (first : Nat) (c : Call) (h : c.leaves ⊆ ts) :
    Part.AllMade ts (c.ast first).parts := by
  cases c with
  | literal t =>
    simp only [Call.leaves, List.cons_subset] at h
    obtain ⟨l, hl⟩ := Option.isSome_iff_exists.mp t.isKind
    refine .cons (.inr ⟨t.token, h.1, ?_⟩) .nil
    rw [hl]
    rfl
  | thisRef keyword =>
    simp only [Call.leaves, List.cons_subset] at h
    exact .cons (keyword.among h.1) .nil
  | name t =>
    simp only [Call.leaves, List.cons_subset] at h
    exact .cons (t.among h.1) .nil
  | superRef keyword dot method =>
    simp only [Call.leaves, List.cons_subset] at h
    exact .cons ⟨keyword.among h.1, method.among h.2.2.1⟩ .nil
  | group opening inner closing =>
    simp only [Call.leaves, List.cons_subset, List.append_subset] at h
    exact .cons trivial (inner.ast_made first h.2.1)
  | invoke callee opening closing =>
    simp only [Call.leaves, List.append_subset, List.cons_subset] at h
    obtain ⟨hcallee, -, hclosing, -⟩ := h
    exact .cons (closing.among hclosing) ((callee.ast_made first hcallee).append .nil)
  | invokeWith callee opening arguments closing =>
    simp only [Call.leaves, List.append_subset, List.cons_subset] at h
    obtain ⟨hcallee, -, harguments, hclosing, -⟩ := h
    exact .cons (closing.among hclosing) ((callee.ast_made first hcallee).append
      (arguments.ast_made (first + callee.ids) harguments))
  | property object dot name =>
    simp only [Call.leaves, List.append_subset, List.cons_subset] at h
    exact .cons (name.among h.2.2.1) (object.ast_made first h.1)

theorem Arguments.ast_made (first : Nat) (es : Arguments) (h : es.leaves ⊆ ts) :
    Part.AllMade ts (Expr.partsIn (es.ast first)) := by
  cases es with
  | last e => exact (e.ast_made first h).append .nil
  | more e comma others =>
    simp only [Arguments.leaves, List.append_subset, List.cons_subset] at h
    exact (e.ast_made first h.1).append (others.ast_made (first + e.ids) h.2.2)

end

theorem Expression.ast?_made (first : Nat) (e : Option Expression)
    (h : Expression.leaves? e ⊆ ts) :
    Part.AllMade ts (Expr.parts? (e.map (Expression.ast first))) := by
  cases e with
  | none => exact .nil
  | some e => exact e.ast_made first h

/-! ### Declarations and statements -/

theorem VarDecl.ast_made (first : Nat) (v : VarDecl) (h : v.leaves ⊆ ts) :
    Part.AllMade ts (v.ast first).parts := by
  refine Expression.ast?_made first v.value? ?_
  simp only [VarDecl.leaves, List.cons_subset, List.append_subset] at h
  obtain ⟨-, -, hinitial, -⟩ := h
  unfold VarDecl.value?
  cases hv : v.initial with
  | none => exact List.nil_subset ts
  | some i =>
    rw [hv, VarDecl.initialLeaves, List.cons_subset] at hinitial
    exact hinitial.2

theorem ForClause.ast_made (first : Nat) (i : ForClause) (h : i.leaves ⊆ ts) :
    ∀ s ∈ i.ast first, Part.AllMade ts s.parts := by
  intro s hs
  cases i with
  | absent semicolon => cases hs
  | varDecl v =>
    cases hs
    exact v.ast_made first h
  | expression e semicolon =>
    cases hs
    simp only [ForClause.leaves, List.append_subset] at h
    exact e.ast_made first h.1

theorem Superclass.ast?_made (first : Nat) (s : Option Superclass)
    (h : Superclass.leaves? s ⊆ ts) :
    Part.AllMade ts (Expr.superclassParts (Superclass.ast? first s)) := by
  cases s with
  | none => exact .nil
  | some s =>
    simp only [Superclass.leaves?, List.cons_subset] at h
    exact .cons ⟨first, s.name.token, rfl⟩ (.cons (s.name.among h.2.1) .nil)

mutual

theorem Declaration.ast_made (first : Nat) (d : Declaration) (h : d.leaves ⊆ ts) :
    Part.AllMade ts (d.ast first).parts := by
  cases d with
  | classDecl keyword name superclass opening methods closing =>
    simp only [Declaration.leaves, List.cons_subset, List.append_subset] at h
    obtain ⟨-, -, hsuperclass, -, hmethods, -⟩ := h
    exact (Superclass.ast?_made first superclass hsuperclass).append
      (Function.astIn_made _ methods hmethods)
  | function keyword f =>
    simp only [Declaration.leaves, List.cons_subset] at h
    exact f.ast_made first h.2
  | varDecl v => exact v.ast_made first h
  | statement s => exact s.ast_made first h

theorem Declaration.astIn_made (first : Nat) (ds : List Declaration)
    (h : Declaration.leavesIn ds ⊆ ts) :
    Part.AllMade ts (Stmt.partsIn (Declaration.astIn first ds)) := by
  cases ds with
  | nil => exact .nil
  | cons d ds =>
    simp only [Declaration.leavesIn, List.append_subset] at h
    exact (d.ast_made first h.1).append (Declaration.astIn_made (first + d.ids) ds h.2)

theorem Function.ast_made (first : Nat) (f : Function) (h : f.leaves ⊆ ts) :
    Part.AllMade ts (f.ast first).parts := by
  cases f with
  | mk name opening params closing bodyOpening body bodyClosing =>
    simp only [Function.leaves, List.cons_subset, List.append_subset] at h
    obtain ⟨-, -, -, -, -, hbody, -⟩ := h
    exact Declaration.astIn_made first body hbody

theorem Function.astIn_made (first : Nat) (fs : List Function)
    (h : Function.leavesIn fs ⊆ ts) :
    Part.AllMade ts (FunDecl.partsIn (Function.astIn first fs)) := by
  cases fs with
  | nil => exact .nil
  | cons f fs =>
    simp only [Function.leavesIn, List.append_subset] at h
    exact (f.ast_made first h.1).append (Function.astIn_made (first + f.ids) fs h.2)

theorem Statement.ast_made (first : Nat) (s : Statement) (h : s.leaves ⊆ ts) :
    Part.AllMade ts (s.ast first).parts := by
  cases s with
  | expression e semicolon =>
    simp only [Statement.leaves, List.append_subset] at h
    exact e.ast_made first h.1
  | print keyword e semicolon =>
    simp only [Statement.leaves, List.cons_subset, List.append_subset] at h
    exact e.ast_made first h.2.1
  | ret keyword value semicolon =>
    simp only [Statement.leaves, List.cons_subset, List.append_subset] at h
    exact Expression.ast?_made first value h.2.1
  | block opening body closing =>
    simp only [Statement.leaves, List.cons_subset, List.append_subset] at h
    exact Declaration.astIn_made first body h.2.1
  | loop keyword opening condition closing body =>
    simp only [Statement.leaves, List.cons_subset, List.append_subset] at h
    obtain ⟨-, -, hcondition, -, hbody⟩ := h
    exact (condition.ast_made first hcondition).append
      (body.ast_made (first + condition.ids) hbody)
  | forLoop keyword opening initializer condition semicolon increment closing body =>
    simp only [Statement.leaves, List.cons_subset, List.append_subset] at h
    obtain ⟨-, -, hinitializer, hcondition, -, hincrement, -, hbody⟩ := h
    exact Stmt.forLoop_made (initializer.ast_made _ hinitializer)
      (Expression.ast?_made _ condition hcondition) (Expression.ast?_made _ increment hincrement)
      (body.ast_made _ hbody)
  | branch keyword opening condition closing thenBranch =>
    simp only [Statement.leaves, List.cons_subset, List.append_subset] at h
    obtain ⟨-, -, hcondition, -, hthen⟩ := h
    exact (condition.ast_made first hcondition).append
      (thenBranch.ast_made (first + condition.ids) hthen)
  | branchElse keyword opening condition closing thenBranch otherwise elseBranch =>
    simp only [Statement.leaves, List.cons_subset, List.append_subset] at h
    obtain ⟨-, -, hcondition, -, hthen, -, helse⟩ := h
    exact (condition.ast_made first hcondition).append
      ((thenBranch.ast_made (first + condition.ids) hthen).append
        (elseBranch.ast_made (first + condition.ids + thenBranch.ids) helse))

end

end Concrete

/-- All parts of statements that are parsed from a list of tokens are made of them. -/
theorem parse_parts {tokens : List Token} {firstId : NodeId} {statements : List Stmt}
    (h : (parse tokens firstId).result = .ok statements) :
    Part.AllMade tokens (Stmt.partsIn statements) := by
  obtain ⟨ds, hds, rfl, -⟩ := Concrete.exists_treesOf h
  refine Concrete.Declaration.astIn_made firstId ds ?_
  rw [hds.leaves]
  exact List.takeWhile_subset _

end Lox
