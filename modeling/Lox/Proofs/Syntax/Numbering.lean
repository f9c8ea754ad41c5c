/-
Numbers of nodes.

The trees that are read from a list of tokens take numbers one after the other.  Some of the numbers
end up in no node, since the target of an assignment is read as a variable first, but no number ends
up in two nodes, in whatever order the nodes stand in the end.

* `Drawn` — occurrences whose numbers differ and are some of those from a first number on;
* `Declaration.astIn_drawn` — the abstract syntax of trees has numbers of its own;
* `parse_drawn` — so have the statements that are parsed from a list of tokens, whatever the tokens
  are;
* `parseEach`, `parseEach_nodup` — several lists of tokens, parsed one after the other.

Design notes: numbers are compared with those that were taken as lists up to order, `List.Subperm`,
so that a part that is moved behind another one, as the increment of a `for` loop is, costs no more
than a permutation.
-/
import Lox.Proofs.Syntax.Onward
import Lox.Proofs.Syntax.Soundness
import Lox.Syntax.Occurrence
import Mathlib.Data.List.Nodup
import Mathlib.Data.List.Perm.Subperm

namespace Lox

/-- The occurrences have numbers of their own, which are among `count` numbers from `first` on. -/
def Drawn (first count : Nat) (os : List Occurrence) : Prop :=
  (os.map Occurrence.id).Subperm (List.range' first count)

namespace Drawn

variable {first count m n : Nat} {os ps : List Occurrence}

theorem nil : Drawn first count [] :=
  List.nil_subperm

/-- A node takes the next number. -/
theorem single (kind : OccurrenceKind) (t : Token) : Drawn first 1 [⟨first, kind, t⟩] :=
  List.Subperm.refl [first]

theorem append (h : Drawn first m os) (h' : Drawn (first + m) n ps) :
    Drawn first (m + n) (os ++ ps) := by
  unfold Drawn
  rw [List.map_append, ← List.range'_append_1]
  exact List.Subperm.append h h'

theorem perm (h : Drawn first count os) (hp : os.Perm ps) : Drawn first count ps :=
  (hp.map Occurrence.id).symm.subperm.trans h

/-- What was read first may stand behind. -/
theorem append_comm (h : Drawn first count (os ++ ps)) : Drawn first count (ps ++ os) :=
  h.perm List.perm_append_comm

theorem nodup (h : Drawn first count os) : (os.map Occurrence.id).Nodup := by
  obtain ⟨ids, hperm, hsub⟩ := h
  have hall : (List.range' first count).Nodup := List.nodup_range'
  exact hperm.nodup_iff.mp (hall.sublist hsub)

theorem bounds (h : Drawn first count os) {o : Occurrence} (ho : o ∈ os) :
    first ≤ o.id ∧ o.id < first + count :=
  List.mem_range'_1.mp (h.subset (List.mem_map_of_mem ho))

end Drawn

/-- A binary operator of any rank has the occurrences of both operands. -/
theorem Concrete.occurrences_operatorNode (rank : Nat) (left : Expr) (operator : Token)
    (right : Expr) :
    (operatorNode rank left operator right).occurrences =
      left.occurrences ++ right.occurrences := by
  unfold operatorNode
  split
  · rfl
  · rfl

/-- A `for` loop has its increment behind its body. -/
theorem Stmt.occurrences_forLoop (initializer : Option Stmt) (condition increment : Option Expr)
    (body : Stmt) :
    (Stmt.forLoop initializer condition increment body).occurrences =
      (initializer.map Stmt.occurrences).getD [] ++ (Expr.occurrencesOf? condition ++
        (body.occurrences ++ Expr.occurrencesOf? increment)) := by
  unfold Stmt.forLoop
  cases initializer <;> cases condition <;> cases increment <;>
    simp [Stmt.occurrences, Stmt.occurrencesIn, Expr.occurrences, Expr.occurrencesOf?]

namespace Concrete

/-! ### Expressions -/

mutual

theorem Expression.ast_drawn (first : Nat) (e : Expression) :
    Drawn first e.ids (e.ast first).occurrences := by
  cases e with
  | operation e => exact e.ast_drawn first
  | assign name equals value =>
    -- the variable that was read takes `first`, which is in no node
    have htarget : Drawn first 1 [] := .nil
    have hall := (htarget.append (value.ast_drawn (first + 1))).append (.single .assign name.token)
    rw [← Nat.add_assoc] at hall
    exact hall.append_comm
  | set object dot name equals value =>
    exact (object.ast_drawn first).append (value.ast_drawn (first + object.ids))

theorem Operation.ast_drawn (first : Nat) {rank : Nat} (e : Operation rank) :
    Drawn first e.ids (e.ast first).occurrences := by
  cases e with
  | call c => exact c.ast_drawn first
  | unary operator right => exact right.ast_drawn first
  | operand e => exact e.ast_drawn first
  | binary left operator right =>
    rw [Operation.ast, occurrences_operatorNode]
    exact (left.ast_drawn first).append (right.ast_drawn (first + left.ids))

theorem Call.ast_drawn (first : Nat) (c : Call) : Drawn first c.ids (c.ast first).occurrences := by
  cases c with
  | literal t => exact .nil
  | thisRef keyword => exact .single .this_ keyword.token
  | name t => exact .single .variable_ t.token
  | superRef keyword dot method => exact .single .super_ keyword.token
  | group opening inner closing => exact inner.ast_drawn first
  | invoke callee opening closing =>
    have hnone : Drawn (first + callee.ids) 0 (Expr.occurrencesIn []) := .nil
    exact (callee.ast_drawn first).append hnone
  | invokeWith callee opening arguments closing =>
    exact (callee.ast_drawn first).append (arguments.ast_drawn (first + callee.ids))
  | property object dot name => exact object.ast_drawn first

theorem Arguments.ast_drawn (first : Nat) (es : Arguments) :
    Drawn first es.ids (Expr.occurrencesIn (es.ast first)) := by
  cases es with
  | last e =>
    have hnone : Drawn (first + e.ids) 0 (Expr.occurrencesIn []) := .nil
    exact (e.ast_drawn first).append hnone
  | more e comma others =>
    exact (e.ast_drawn first).append (others.ast_drawn (first + e.ids))

end

theorem Expression.ast?_drawn (first : Nat) (e : Option Expression) :
    Drawn first (Expression.ids? e) (Expr.occurrencesOf? (e.map (Expression.ast first))) := by
  cases e with
  | none => exact .nil
  | some e => exact e.ast_drawn first

/-! ### Declarations and statements -/

theorem VarDecl.ast_drawn (first : Nat) (v : VarDecl) :
    Drawn first (Expression.ids? v.value?) (v.ast first).occurrences :=
  Expression.ast?_drawn first v.value?

theorem ForClause.ast_drawn (first : Nat) (i : ForClause) :
    Drawn first (Expression.ids? i.value?) (((i.ast first).map Stmt.occurrences).getD []) := by
  cases i with
  | absent semicolon => exact .nil
  | varDecl v => exact v.ast_drawn first
  | expression e semicolon => exact e.ast_drawn first

theorem Superclass.ast?_drawn (first : Nat) (s : Option Superclass) :
    Drawn first (Superclass.ids? s) (Expr.occurrencesOf? (Superclass.ast? first s)) := by
  cases s with
  | none => exact .nil
  | some s => exact .single .variable_ s.name.token

mutual

theorem Declaration.ast_drawn (first : Nat) (d : Declaration) :
    Drawn first d.ids (d.ast first).occurrences := by
  cases d with
  | classDecl keyword name superclass opening methods closing =>
    exact (Superclass.ast?_drawn first superclass).append (Function.astIn_drawn _ methods)
  | function keyword f => exact f.ast_drawn first
  | varDecl v => exact v.ast_drawn first
  | statement s => exact s.ast_drawn first

theorem Declaration.astIn_drawn (first : Nat) (ds : List Declaration) :
    Drawn first (Declaration.idsIn ds) (Stmt.occurrencesIn (Declaration.astIn first ds)) := by
  cases ds with
  | nil => exact .nil
  | cons d ds => exact (d.ast_drawn first).append (Declaration.astIn_drawn (first + d.ids) ds)

theorem Function.ast_drawn (first : Nat) (f : Function) :
    Drawn first f.ids (f.ast first).occurrences := by
  cases f with
  | mk name opening params closing bodyOpening body bodyClosing =>
    exact Declaration.astIn_drawn first body

theorem Function.astIn_drawn (first : Nat) (fs : List Function) :
    Drawn first (Function.idsIn fs) (FunDecl.occurrencesIn (Function.astIn first fs)) := by
  cases fs with
  | nil => exact .nil
  | cons f fs => exact (f.ast_drawn first).append (Function.astIn_drawn (first + f.ids) fs)

theorem Statement.ast_drawn (first : Nat) (s : Statement) :
    Drawn first s.ids (s.ast first).occurrences := by
  cases s with
  | expression e semicolon => exact e.ast_drawn first
  | print keyword e semicolon => exact e.ast_drawn first
  | ret keyword value semicolon => exact Expression.ast?_drawn first value
  | block opening body closing => exact Declaration.astIn_drawn first body
  | loop keyword opening condition closing body =>
    exact (condition.ast_drawn first).append (body.ast_drawn (first + condition.ids))
  | forLoop keyword opening initializer condition semicolon increment closing body =>
    rw [Statement.ast, Stmt.occurrences_forLoop, Statement.ids]
    have hinitializer := initializer.ast_drawn first
    have hcondition :=
      Expression.ast?_drawn (first + Expression.ids? initializer.value?) condition
    have hincrement := Expression.ast?_drawn
      (first + Expression.ids? initializer.value? + Expression.ids? condition) increment
    have hbody := body.ast_drawn (first + Expression.ids? initializer.value? +
      Expression.ids? condition + Expression.ids? increment)
    -- read in the order of the text; the increment moves behind the body
    have hturn := (hincrement.append hbody).append_comm
    have hall := hinitializer.append (hcondition.append hturn)
    rwa [← Nat.add_assoc, ← Nat.add_assoc] at hall
  | branch keyword opening condition closing thenBranch =>
    exact (condition.ast_drawn first).append (thenBranch.ast_drawn (first + condition.ids))
  | branchElse keyword opening condition closing thenBranch otherwise elseBranch =>
    have hthen := (condition.ast_drawn first).append (thenBranch.ast_drawn (first + condition.ids))
    have helse := elseBranch.ast_drawn (first + (condition.ids + thenBranch.ids))
    rw [Statement.ast, Nat.add_assoc first]
    exact hthen.append helse

end

end Concrete

/-! ### Lists of tokens -/

/-- What is parsed from a list of tokens has numbers of its own, from the first number up to the
next one. -/
theorem parse_drawn {tokens : List Token} {firstId : NodeId} {statements : List Stmt}
    (h : (parse tokens firstId).result = .ok statements) :
    ∃ count, (parse tokens firstId).nextId = firstId + count ∧
      Drawn firstId count (Stmt.occurrencesIn statements) := by
  obtain ⟨ts, -, rfl, hnext⟩ := Concrete.exists_treesOf h
  exact ⟨Concrete.Declaration.idsIn ts, hnext, Concrete.Declaration.astIn_drawn firstId ts⟩

/-- The statements that were parsed; where parsing failed there are none. -/
def Parsed.statements (p : Parsed) : List Stmt :=
  match p.result with
  | .ok statements => statements
  | .error _ => []

/-- What comes of parsing lists of tokens one after the other.  Each goes on numbering where the one
before it has stopped, whether that was parsed or not. -/
def parseEach (firstId : NodeId) : List (List Token) → List Parsed
  | [] => []
  | tokens :: later =>
    let parsed := parse tokens firstId
    parsed :: parseEach parsed.nextId later

/-- The occurrences in all statements that were parsed. -/
def occurrencesInEach (parsed : List Parsed) : List Occurrence :=
  parsed.flatMap fun p => Stmt.occurrencesIn p.statements

/-- What is parsed has numbers of its own below the number for the next node. -/
theorem Parsed.statements_drawn (tokens : List Token) (firstId : NodeId) :
    ∃ count, firstId + count ≤ (parse tokens firstId).nextId ∧
      Drawn firstId count (Stmt.occurrencesIn (parse tokens firstId).statements) := by
  unfold Parsed.statements
  split
  · next statements h =>
    obtain ⟨count, hnext, hdrawn⟩ := parse_drawn h
    exact ⟨count, Nat.le_of_eq hnext.symm, hdrawn⟩
  · exact ⟨0, parse_nextId_mono tokens firstId, .nil⟩

/-- No number is below the first one. -/
theorem parseEach_first_le {firstId : NodeId} {lists : List (List Token)} :
    ∀ o ∈ occurrencesInEach (parseEach firstId lists), firstId ≤ o.id := by
  induction lists generalizing firstId with
  | nil => exact fun o ho => by cases ho
  | cons tokens later ih =>
    intro o ho
    obtain ⟨count, -, hdrawn⟩ := Parsed.statements_drawn tokens firstId
    rcases List.mem_append.mp ho with ho | ho
    · exact (hdrawn.bounds ho).1
    · exact Nat.le_trans (parse_nextId_mono tokens firstId) (ih o ho)

/-- Of all nodes that are parsed from lists of tokens one after the other, no two have one number.
-/
theorem parseEach_nodup (firstId : NodeId) (lists : List (List Token)) :
    ((occurrencesInEach (parseEach firstId lists)).map Occurrence.id).Nodup := by
  induction lists generalizing firstId with
  | nil => exact List.nodup_nil
  | cons tokens later ih =>
    obtain ⟨count, hle, hdrawn⟩ := Parsed.statements_drawn tokens firstId
    show ((Stmt.occurrencesIn (parse tokens firstId).statements ++
      occurrencesInEach (parseEach (parse tokens firstId).nextId later)).map Occurrence.id).Nodup
    rw [List.map_append]
    refine List.Nodup.append hdrawn.nodup (ih _) fun id hid hid' => ?_
    obtain ⟨o, ho, rfl⟩ := List.mem_map.mp hid
    obtain ⟨o', ho', heq⟩ := List.mem_map.mp hid'
    have hlt : o.id < o'.id := Nat.lt_of_lt_of_le (hdrawn.bounds ho).2
      (Nat.le_trans hle (parseEach_first_le o' ho'))
    exact absurd heq (Nat.ne_of_gt hlt)

end Lox
