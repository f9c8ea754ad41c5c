/-
Trees are parsed.

Before the leaves of a tree, each production reads the whole tree and stops behind it, as long as
what stands there cannot be taken for a part of it.

* `Stops rank` — behind an operation of a rank, nothing goes on with it;
* `Call.Leads`, `Operation.Leads`, `Expression.reads` — expressions;
* `Statement.reads`, `Declaration.reads` — statements, which no `else` may follow that they could
  take;
* `parse_complete` — the leaves of trees are parsed as these trees, with an end of the source or
  without one.

Design notes: calls and chains of operators grow to the left, while they are read from the left to
the right by a loop.  So a tree does not end the loop in which it is read: it leads to a later turn
of the loop, with itself as what was read so far (`Call.Leads`, `Operation.Leads`).  What stops the
loop is looked at only behind the last turn.
-/
import Lox.Proofs.Syntax.Soundness

namespace Lox

open Concrete

namespace Parse

variable {α β : Type} {endLine n : Nat} {fs : List Diagnostic} {ts : List Token}

/-- From wherever numbers are given, `p` reads just the tokens `ts` in front of `rest`. -/
def ReadsTo (p : Parse α) (ts : List Token) (ids : Nat) (ast : NodeId → α) (rest : List Token) :
    Prop :=
  ∀ endLine n fs, p ⟨ts ++ rest, endLine, n, fs⟩ = .ok (ast n) ⟨rest, endLine, n + ids, fs⟩

/-! ### The primitives of the cursor -/

theorem bind_ok {p : Parse α} {next : α → Parse β} {a : α} {c c' : Cursor} (h : p c = .ok a c') :
    (p >>= next) c = next a c' := by
  rw [bind_apply, h]

theorem map_ok {p : Parse α} {f : α → β} {a : α} {c c' : Cursor} (h : p c = .ok a c') :
    (f <$> p) c = .ok (f a) c' := by
  rw [map_eq_pure_bind, bind_ok h]
  rfl

theorem accept_leaf {p : Kind → Bool} (l : Leaf p) :
    accept p ⟨l.token :: ts, endLine, n, fs⟩ = .ok (some l.token) ⟨ts, endLine, n, fs⟩ := by
  unfold accept
  exact if_pos l.isKind

theorem accept_none {p : Kind → Bool} (h : NotAhead p ts) :
    accept p ⟨ts, endLine, n, fs⟩ = .ok none ⟨ts, endLine, n, fs⟩ := by
  unfold accept
  cases ts with
  | nil => rfl
  | cons t ts =>
    have ht : p t.kind = false := h t rfl
    simp only [ht]
    rfl

theorem expect_leaf {p : Kind → Bool} (l : Leaf p) (fault : GrammarFault) :
    expect p fault ⟨l.token :: ts, endLine, n, fs⟩ = .ok l.token ⟨ts, endLine, n, fs⟩ := by
  unfold expect
  rw [bind_ok (accept_leaf l)]
  rfl

theorem isAhead_leaf {p : Kind → Bool} (l : Leaf p) :
    isAhead p ⟨l.token :: ts, endLine, n, fs⟩ = .ok true ⟨l.token :: ts, endLine, n, fs⟩ := by
  unfold isAhead
  simp only [l.isKind]

theorem isAhead_not {p : Kind → Bool} (h : NotAhead p ts) :
    isAhead p ⟨ts, endLine, n, fs⟩ = .ok false ⟨ts, endLine, n, fs⟩ := by
  unfold isAhead
  cases ts with
  | nil => rfl
  | cons t ts =>
    have ht : p t.kind = false := h t rfl
    simp only [ht]

theorem isAhead_of_begins {p : Kind → Bool} (h : BeginsWith p ts) :
    isAhead p ⟨ts, endLine, n, fs⟩ = .ok true ⟨ts, endLine, n, fs⟩ := by
  obtain ⟨t, ht, hp⟩ := h
  cases ts with
  | nil => cases ht
  | cons u us =>
    cases ht
    exact isAhead_leaf (⟨t, hp⟩ : Leaf p)

theorem atEnd_of_begins {p : Kind → Bool} (h : BeginsWith p ts) :
    atEnd ⟨ts, endLine, n, fs⟩ = .ok false ⟨ts, endLine, n, fs⟩ := by
  cases ts with
  | nil => cases h.length_pos
  | cons t ts => rfl

end Parse

namespace Concrete

/-- Nothing ahead goes on with an operation of some rank. -/
def Stops (rank : Nat) (ts : List Token) : Prop :=
  ∀ t ∈ ts.head?, ∀ r, t.kind.rank? = some r → rank < r

namespace Stops

variable {rank : Nat} {ts : List Token}

theorem mono {rank' : Nat} (h : Stops rank ts) (hr : rank' ≤ rank) : Stops rank' ts :=
  fun t ht r hk => Nat.lt_of_le_of_lt hr (h t ht r hk)

theorem notAhead (h : Stops rank ts) {r : Nat} (hr : r ≤ rank) : NotAhead (Kind.hasRank r) ts := by
  intro t ht
  unfold Kind.hasRank
  cases hk : t.kind.rank? with
  | none => rfl
  | some r' =>
    have hlt := h t ht r' hk
    exact beq_false_of_ne fun he => by
      cases he
      omega

/-- Behind an operator of a rank stands an operation that binds tighter. -/
theorem operator {r : Nat} (l : Leaf (Kind.hasRank r)) (hr : rank < r) (ts : List Token) :
    Stops rank (l.token :: ts) := by
  intro t ht r' hk
  cases ht
  have hrank := l.isKind
  unfold Kind.hasRank at hrank
  rw [hk] at hrank
  cases eq_of_beq hrank
  exact hr

/-- A mark that has no rank, or one that is greater. -/
theorem mark {m : Mark} (l : Punctuation m) (h : ∀ r, (Kind.mark m).rank? = some r → rank < r)
    (ts : List Token) : Stops rank (l.token :: ts) := by
  intro t ht r hk
  cases ht
  rw [eq_of_isMark l.isKind] at hk
  exact h r hk

end Stops

theorem not_suffix_of_hasRank {k : Kind} (h : k.hasRank 0 = false) :
    k.isMark .leftParen = false ∧ k.isMark .dot = false := by
  cases k with
  | mark m => cases m <;> first | exact ⟨rfl, rfl⟩ | cases h
  | _ => exact ⟨rfl, rfl⟩

theorem Stops.not_suffix {rank : Nat} {ts : List Token} (h : Stops rank ts) :
    NotAhead (Kind.isMark .leftParen) ts ∧ NotAhead (Kind.isMark .dot) ts :=
  ⟨fun t ht => (not_suffix_of_hasRank (h.notAhead (Nat.zero_le _) t ht)).1,
    fun t ht => (not_suffix_of_hasRank (h.notAhead (Nat.zero_le _) t ht)).2⟩

theorem Stops.not_equal {ts : List Token} (h : Stops 7 ts) :
    NotAhead (Kind.isMark .equal) ts := by
  intro t ht
  have hk := h.notAhead (Nat.le_refl 7) t ht
  cases ht' : t.kind with
  | mark m =>
    rw [ht'] at hk
    cases m <;> first | rfl | cases hk
  | _ => rfl

/-! ### Calls -/

section Calls

variable {k : Nat}

/-- Behind a call, the loop over its suffixes goes on from it. -/
def Call.Leads (k : Nat) (c : Call) : Prop :=
  ∀ rest, ∃ turns, k + 1 ≤ turns + c.leaves.length ∧ ∀ endLine n fs,
    Parse.call (Parse.expression k) (k + 1) ⟨c.leaves ++ rest, endLine, n, fs⟩ =
      Parse.suffixes (Parse.expression k) (k + 1) turns (c.ast n)
        ⟨rest, endLine, n + c.ids, fs⟩

/-- The loop over suffixes ends where none is ahead. -/
theorem suffixes_stops {expression : Parse Expr} {limit : Nat} (turns : Nat) (e : Expr)
    {rest : List Token} (h : Stops 0 rest) (endLine n : Nat) (fs : List Diagnostic) :
    Parse.suffixes expression limit turns e ⟨rest, endLine, n, fs⟩ =
      .ok e ⟨rest, endLine, n, fs⟩ := by
  cases turns with
  | zero => rfl
  | succ turns =>
    rw [Parse.suffixes, Parse.bind_ok (Parse.accept_none h.not_suffix.1)]
    simp only
    rw [Parse.bind_ok (Parse.accept_none h.not_suffix.2)]
    rfl

theorem Call.Leads.reads {c : Call} (h : c.Leads k) {rest : List Token} (hs : Stops 0 rest) :
    Parse.ReadsTo (Parse.call (Parse.expression k) (k + 1)) c.leaves c.ids (fun n => c.ast n)
      rest := by
  intro endLine n fs
  obtain ⟨turns, -, hc⟩ := h rest
  rw [hc]
  exact suffixes_stops turns _ hs endLine _ fs

/-- What is read as a primary expression begins the loop. -/
theorem Call.leads_of_primary {c : Call}
    (h : ∀ rest, Parse.ReadsTo (Parse.primary (Parse.expression k)) c.leaves c.ids
      (fun n => c.ast n) rest) : c.Leads k := by
  intro rest
  refine ⟨k + 1, Nat.le_add_right _ _, fun endLine n fs => ?_⟩
  exact Parse.bind_ok (h rest endLine n fs)

/-- A property is one more turn of the loop. -/
theorem Call.Leads.property {object : Call} (h : object.Leads k) (dot : Punctuation .dot)
    (name : Name) (hlen : (Call.property object dot name).leaves.length ≤ k + 1) :
    (Call.property object dot name).Leads k := by
  intro rest
  rw [Call.leaves, List.length_append] at hlen
  simp only [List.length_cons, List.length_nil] at hlen
  obtain ⟨turns, hturns, hobject⟩ := h (dot.token :: name.token :: rest)
  obtain ⟨turns, rfl⟩ : ∃ j, turns = j + 1 := ⟨turns - 1, by omega⟩
  refine ⟨turns, ?_, fun endLine n fs => ?_⟩
  · rw [Call.leaves, List.length_append]
    simp only [List.length_cons, List.length_nil]
    omega
  · have hdot : NotAhead (Kind.isMark .leftParen) (dot.token :: name.token :: rest) :=
      .cons (by rw [eq_of_isMark dot.isKind]; rfl)
    rw [Call.leaves, List.append_assoc]
    refine (hobject endLine n fs).trans ?_
    rw [Parse.suffixes, Parse.bind_ok (Parse.accept_none hdot)]
    simp only
    rw [Parse.bind_ok (Parse.accept_leaf dot)]
    simp only
    rw [Parse.bind_ok (Parse.expect_leaf name _)]
    rfl

/-- A call behind its opening parenthesis. -/
theorem callEnd_reads {callee : Expr} {ts : List Token} {ids : Nat} {ast : NodeId → List Expr}
    {closing : Punctuation .rightParen} {rest : List Token}
    (h : Parse.ReadsTo (Parse.parenthesized (Parse.argument (Parse.expression k)) (k + 1)) ts ids
      ast (closing.token :: rest)) :
    Parse.ReadsTo (Parse.callEnd (Parse.expression k) (k + 1) callee) (ts ++ [closing.token]) ids
      (fun n => .call callee closing.token (ast n)) rest := by
  intro endLine n fs
  rw [List.append_assoc, List.singleton_append, Parse.callEnd, Parse.bind_ok (h endLine n fs),
    Parse.bind_ok (Parse.expect_leaf closing _)]
  rfl

/-- A call of a call is one more turn of the loop. -/
theorem Call.Leads.invoke {callee c : Call} (h : callee.Leads k) {opening : Punctuation .leftParen}
    {closing : Punctuation .rightParen} {ts : List Token} {ids : Nat} {ast : NodeId → List Expr}
    (hread : ∀ rest, Parse.ReadsTo
      (Parse.parenthesized (Parse.argument (Parse.expression k)) (k + 1)) ts ids ast
      (closing.token :: rest))
    (hleaves : c.leaves = callee.leaves ++ opening.token :: (ts ++ [closing.token]))
    (hids : c.ids = callee.ids + ids)
    (hast : ∀ n, c.ast n = .call (callee.ast n) closing.token (ast (n + callee.ids)))
    (hlen : c.leaves.length ≤ k + 1) : c.Leads k := by
  intro rest
  have hlength : c.leaves.length = callee.leaves.length + (ts.length + 2) := by
    rw [hleaves, List.length_append, List.length_cons, List.length_append]
    rfl
  obtain ⟨turns, hturns, hcallee⟩ := h (opening.token :: (ts ++ [closing.token] ++ rest))
  obtain ⟨turns, rfl⟩ : ∃ j, turns = j + 1 := ⟨turns - 1, by omega⟩
  refine ⟨turns, by omega, fun endLine n fs => ?_⟩
  rw [hleaves, List.append_assoc, hids, hast]
  refine (hcallee endLine n fs).trans ?_
  rw [Parse.suffixes, Parse.bind_ok (Parse.accept_leaf opening)]
  simp only
  rw [Parse.bind_ok (callEnd_reads (hread rest) endLine _ fs), Nat.add_assoc]

end Calls

/-! ### Operations -/

section Operations

variable {k : Nat}

/-- Behind an operation that is no unary one, the loop over its level goes on from it. -/
def Operation.Leads (k : Nat) : {rank : Nat} → Operation rank → Prop
  | 0, e => ∀ turns, e.leaves.length ≤ turns + 1 → ∀ rest, Stops 0 rest →
    Parse.ReadsTo (Parse.unary (Parse.call (Parse.expression k) (k + 1)) turns) e.leaves e.ids
      (fun n => e.ast n) rest
  | rank + 1, e => ∀ rest, Stops rank rest →
    ∃ turns, k + 1 ≤ turns + e.leaves.length ∧ ∀ endLine n fs,
      Parse.operation (Parse.expression k) (k + 1) (rank + 1)
          ⟨e.leaves ++ rest, endLine, n, fs⟩ =
        Parse.leftChain (Kind.hasRank (rank + 1)) (operatorNode (rank + 1))
          (Parse.operation (Parse.expression k) (k + 1) rank) turns (e.ast n)
          ⟨rest, endLine, n + e.ids, fs⟩

/-- The loop over a level ends where no operator of the level is ahead. -/
theorem leftChain_stops {operators : Kind → Bool} {node : Expr → Token → Expr → Expr}
    {operand : Parse Expr} (turns : Nat) (e : Expr) {rest : List Token}
    (h : NotAhead operators rest) (endLine n : Nat) (fs : List Diagnostic) :
    Parse.leftChain operators node operand turns e ⟨rest, endLine, n, fs⟩ =
      .ok e ⟨rest, endLine, n, fs⟩ := by
  cases turns with
  | zero => rfl
  | succ turns =>
    rw [Parse.leftChain, Parse.bind_ok (Parse.accept_none h)]
    rfl

theorem Operation.Leads.reads {rank : Nat} {e : Operation rank} (h : e.Leads k)
    (hlen : e.leaves.length ≤ k + 1) {rest : List Token} (hs : Stops rank rest) :
    Parse.ReadsTo (Parse.operation (Parse.expression k) (k + 1) rank) e.leaves e.ids
      (fun n => e.ast n) rest := by
  cases rank with
  | zero => exact h (k + 1) (Nat.le_succ_of_le hlen) rest hs
  | succ rank =>
    intro endLine n fs
    obtain ⟨turns, -, he⟩ := h rest (hs.mono (Nat.le_succ rank))
    rw [he]
    exact leftChain_stops turns _ (hs.notAhead (Nat.le_refl _)) endLine _ fs

/-- Where no unary operator is ahead, a call is read. -/
theorem unary_reads {operand : Parse Expr} {ts : List Token} {ids : Nat} {ast : NodeId → Expr}
    {rest : List Token} (turns : Nat) (hts : NotAhead Parse.unaryOperators (ts ++ rest))
    (h : Parse.ReadsTo operand ts ids ast rest) :
    Parse.ReadsTo (Parse.unary operand turns) ts ids ast rest := by
  intro endLine n fs
  cases turns with
  | zero => exact h endLine n fs
  | succ turns =>
    rw [Parse.unary, Parse.bind_ok (Parse.accept_none hts)]
    exact h endLine n fs

theorem not_unary_of_call {kind : Kind} (h : kind.opensCall = true) :
    Parse.unaryOperators kind = false := by
  cases kind with
  | mark m => cases m <;> first | rfl | cases h
  | _ => rfl

/-- A call is an operation of every rank. -/
theorem Call.Leads.operation {c : Call} (h : c.Leads k) (rank : Nat) {rest : List Token}
    (hs : Stops rank rest) :
    Parse.ReadsTo (Parse.operation (Parse.expression k) (k + 1) rank) c.leaves c.ids
      (fun n => c.ast n) rest := by
  induction rank with
  | zero =>
    exact unary_reads (k + 1) (c.leaves_begin.notAhead (fun _ => not_unary_of_call) rest)
      (h.reads hs)
  | succ rank ih =>
    intro endLine n fs
    rw [Parse.operation, Parse.level, Parse.bind_ok (ih (hs.mono (Nat.le_succ rank)) endLine n fs)]
    exact leftChain_stops (k + 1) _ (hs.notAhead (Nat.le_refl _)) endLine _ fs

/-- An operand begins the loop of the level above it. -/
theorem Operation.Leads.operand {rank : Nat} {e : Operation rank} (h : e.Leads k)
    (hlen : e.leaves.length ≤ k + 1) : (Operation.operand e).Leads k := by
  intro rest hs
  refine ⟨k + 1, Nat.le_add_right _ _, fun endLine n fs => ?_⟩
  exact Parse.bind_ok (h.reads hlen hs endLine n fs)

/-- An operator with its right operand is one more turn of the loop. -/
theorem Operation.Leads.binary {rank : Nat} {left : Operation (rank + 1)} {right : Operation rank}
    (hleft : left.Leads k) (hright : right.Leads k) (operator : Leaf (Kind.hasRank (rank + 1)))
    (hlen : (Operation.binary left operator right).leaves.length ≤ k + 1) :
    (Operation.binary left operator right).Leads k := by
  intro rest hs
  rw [Operation.leaves, List.length_append, List.length_cons] at hlen
  obtain ⟨turns, hturns, hl⟩ := hleft (operator.token :: (right.leaves ++ rest))
    (.operator operator (Nat.lt_succ_self rank) _)
  obtain ⟨turns, rfl⟩ : ∃ j, turns = j + 1 := ⟨turns - 1, by omega⟩
  refine ⟨turns, ?_, fun endLine n fs => ?_⟩
  · rw [Operation.leaves, List.length_append, List.length_cons]
    omega
  · rw [Operation.leaves, List.append_assoc]
    refine (hl endLine n fs).trans ?_
    rw [Parse.leftChain, Parse.bind_ok (Parse.accept_leaf operator)]
    simp only
    rw [Parse.bind_ok (hright.reads (by omega) hs endLine _ fs), Operation.ids, Nat.add_assoc]
    rfl

theorem Operation.Leads.unary {right : Operation 0} (h : right.Leads k)
    (operator : Leaf Parse.unaryOperators) : (Operation.unary operator right).Leads k := by
  intro turns hlen rest hs endLine n fs
  have hpos := right.leaves_begin.length_pos
  rw [Operation.leaves, List.length_cons] at hlen
  obtain ⟨turns, rfl⟩ : ∃ j, turns = j + 1 := ⟨turns - 1, by omega⟩
  rw [Parse.unary, Operation.leaves, List.cons_append, Parse.bind_ok (Parse.accept_leaf operator)]
  simp only
  rw [Parse.bind_ok (h turns (by omega) rest hs endLine n fs)]
  rfl

end Operations

/-! ### Assignments -/

section Assignments

variable {k : Nat} {ts us : List Token} {rest : List Token}

/-- An operation alone is an expression. -/
theorem assignment_reads {ids : Nat} {ast : NodeId → Expr} (hs : Stops 7 rest)
    (h : Parse.ReadsTo (Parse.operation (Parse.expression k) (k + 1) 6) ts ids ast rest) :
    Parse.ReadsTo (Parse.expression (k + 1)) ts ids ast rest := by
  intro endLine n fs
  rw [Parse.expression, Parse.assignment, Parse.disjunction_eq, Parse.bind_ok (h endLine n fs),
    Parse.bind_ok (Parse.accept_none hs.not_equal)]
  rfl

/-- A target with its value is an expression. -/
theorem assignTo_reads {ids ids' : Nat} {ast ast' node : NodeId → Expr}
    {equals : Punctuation .equal} {last : Nat}
    (h : Parse.ReadsTo (Parse.operation (Parse.expression k) (k + 1) 6) ts ids ast
      (equals.token :: (us ++ rest)))
    (h' : Parse.ReadsTo (Parse.expression k) us ids' ast' rest)
    (hnode : ∀ endLine n fs, Parse.assignTo (ast n) equals.token (ast' (n + ids))
      ⟨rest, endLine, n + ids + ids', fs⟩ = .ok (node n) ⟨rest, endLine, n + last, fs⟩) :
    Parse.ReadsTo (Parse.expression (k + 1)) (ts ++ equals.token :: us) last node rest := by
  intro endLine n fs
  rw [List.append_assoc, List.cons_append, Parse.expression, Parse.assignment,
    Parse.disjunction_eq, Parse.bind_ok (h endLine n fs), Parse.bind_ok (Parse.accept_leaf equals)]
  simp only
  rw [Parse.bind_ok (h' endLine _ fs)]
  exact hnode endLine n fs

theorem Call.Leads.assign {name : Name} (h : (Call.name name).Leads k) (equals : Punctuation .equal)
    {value : Expression}
    (hv : Parse.ReadsTo (Parse.expression k) value.leaves value.ids (fun n => value.ast n) rest) :
    Parse.ReadsTo (Parse.expression (k + 1)) (Expression.assign name equals value).leaves
      (Expression.assign name equals value).ids
      (fun n => (Expression.assign name equals value).ast n) rest := by
  have hequals : Stops 6 (equals.token :: (value.leaves ++ rest)) :=
    .mark equals (fun r hr => by cases hr; exact Nat.lt_succ_self 6) _
  refine assignTo_reads (h.operation 6 hequals) hv fun endLine n fs => ?_
  rw [Expression.ids, ← Nat.add_assoc, ← Nat.add_assoc]
  rfl

theorem Call.Leads.set {object : Call} {dot : Punctuation .dot} {name : Name}
    (h : (Call.property object dot name).Leads k) (equals : Punctuation .equal)
    {value : Expression}
    (hv : Parse.ReadsTo (Parse.expression k) value.leaves value.ids (fun n => value.ast n) rest) :
    Parse.ReadsTo (Parse.expression (k + 1)) (Expression.set object dot name equals value).leaves
      (Expression.set object dot name equals value).ids
      (fun n => (Expression.set object dot name equals value).ast n) rest := by
  have hequals : Stops 6 (equals.token :: (value.leaves ++ rest)) :=
    .mark equals (fun r hr => by cases hr; exact Nat.lt_succ_self 6) _
  have hleaves : (Expression.set object dot name equals value).leaves =
      (Call.property object dot name).leaves ++ equals.token :: value.leaves := by
    rw [Call.leaves, List.append_assoc]
    rfl
  rw [hleaves]
  refine assignTo_reads (h.operation 6 hequals) hv fun endLine n fs => ?_
  rw [Expression.ids, ← Nat.add_assoc]
  rfl

end Assignments

/-! ### Expressions -/

/-- An argument, behind few enough others. -/
theorem argument_reads {expression : Parse Expr} {ts : List Token} {ids : Nat}
    {ast : NodeId → Expr} {rest : List Token} {before : Nat} (hb : before < maxArguments)
    (h : Parse.ReadsTo expression ts ids ast rest) :
    Parse.ReadsTo (Parse.argument expression before) ts ids ast rest := by
  unfold Parse.argument
  rw [if_neg (Nat.not_le.mpr hb)]
  exact h

/-- A mark that has no rank stops every operation. -/
theorem Stops.of_unranked {rank : Nat} {m : Mark} (l : Punctuation m)
    (h : (Kind.mark m).rank? = none) (ts : List Token) : Stops rank (l.token :: ts) :=
  .mark l (fun r hr => by rw [h] at hr; cases hr) ts

theorem Call.leads_literal {k : Nat} (t : Leaf fun k => k.literal?.isSome) :
    (Call.literal t).Leads k := by
  refine leads_of_primary fun rest endLine n fs => ?_
  obtain ⟨⟨kind, lexeme, line⟩, hkind⟩ := t
  cases kind with
  | keyword w => cases w <;> first | rfl | cases hkind
  | number x => rfl
  | string s => rfl
  | _ => cases hkind

theorem Call.leads_thisRef {k : Nat} (keyword : Word .this_) : (Call.thisRef keyword).Leads k := by
  refine leads_of_primary fun rest endLine n fs => ?_
  obtain ⟨⟨kind, lexeme, line⟩, hkind⟩ := keyword
  cases eq_of_isKeyword hkind
  rfl

theorem Call.leads_name {k : Nat} (t : Name) : (Call.name t).Leads k := by
  refine leads_of_primary fun rest endLine n fs => ?_
  obtain ⟨⟨kind, lexeme, line⟩, hkind⟩ := t
  cases eq_of_isIdentifier hkind
  rfl

theorem Call.leads_superRef {k : Nat} (keyword : Word .super_) (dot : Punctuation .dot)
    (method : Name) :
    (Call.superRef keyword dot method).Leads k := by
  refine leads_of_primary fun rest endLine n fs => ?_
  obtain ⟨⟨kind, lexeme, line⟩, hkind⟩ := keyword
  cases eq_of_isKeyword hkind
  refine (Parse.bind_ok (Parse.expect_leaf dot .superDot)).trans ?_
  exact Parse.bind_ok (Parse.expect_leaf method .superMethodName)

theorem Call.leads_group {k : Nat} (opening : Punctuation .leftParen) {inner : Expression}
    (closing : Punctuation .rightParen)
    (h : ∀ rest, Parse.ReadsTo (Parse.expression k) inner.leaves inner.ids (fun n => inner.ast n)
      (closing.token :: rest)) : (Call.group opening inner closing).Leads k := by
  refine leads_of_primary fun rest endLine n fs => ?_
  obtain ⟨⟨kind, lexeme, line⟩, hkind⟩ := opening
  cases eq_of_isMark hkind
  rw [Call.leaves, List.cons_append, List.append_assoc]
  refine (Parse.bind_ok (h rest endLine n fs)).trans ?_
  rw [Parse.bind_ok (Parse.expect_leaf closing .groupClosing)]
  rfl

/-- An argument list that stands alone or in front of a comma. -/
theorem parenthesized_reads {α : Type} {item : Nat → Parse α} {limit : Nat} {ts : List Token}
    {ids : Nat} {ast : NodeId → List α} {rest : List Token}
    (hts : NotAhead (Kind.isMark .rightParen) (ts ++ rest))
    (h : Parse.ReadsTo (Parse.separated item limit 0) ts ids ast rest) :
    Parse.ReadsTo (Parse.parenthesized item limit) ts ids ast rest := by
  intro endLine n fs
  rw [Parse.parenthesized, Parse.bind_ok (Parse.isAhead_not hts)]
  exact h endLine n fs

/-- Between parentheses there may be nothing. -/
theorem parenthesized_reads_nil {α : Type} (item : Nat → Parse α) (limit : Nat)
    (closing : Punctuation .rightParen) (rest : List Token) :
    Parse.ReadsTo (Parse.parenthesized item limit) [] 0 (fun _ => []) (closing.token :: rest) := by
  intro endLine n fs
  rw [List.nil_append, Parse.parenthesized, Parse.bind_ok (Parse.isAhead_leaf closing)]
  rfl

/-- The last item of a list stands in front of no comma. -/
theorem separated_reads_last {α : Type} {item : Nat → Parse α} {ts : List Token} {ids : Nat}
    {ast : NodeId → α} {rest : List Token} (turns : Nat) {before : Nat}
    (hrest : NotAhead (Kind.isMark .comma) rest)
    (h : Parse.ReadsTo (item before) ts ids ast rest) :
    Parse.ReadsTo (Parse.separated item turns before) ts ids (fun n => [ast n]) rest := by
  intro endLine n fs
  cases turns with
  | zero => exact Parse.bind_ok (h endLine n fs)
  | succ turns =>
    rw [Parse.separated, Parse.bind_ok (h endLine n fs), Parse.bind_ok (Parse.accept_none hrest)]
    rfl

/-- An item in front of a comma and the rest of the list. -/
theorem separated_reads_more {α : Type} {item : Nat → Parse α} {ts us : List Token}
    {ids ids' : Nat} {ast : NodeId → α} {asts : NodeId → List α} {rest : List Token}
    {turns before : Nat} (comma : Punctuation .comma)
    (h : Parse.ReadsTo (item before) ts ids ast (comma.token :: (us ++ rest)))
    (h' : Parse.ReadsTo (Parse.separated item turns (before + 1)) us ids' asts rest) :
    Parse.ReadsTo (Parse.separated item (turns + 1) before) (ts ++ comma.token :: us) (ids + ids')
      (fun n => ast n :: asts (n + ids)) rest := by
  intro endLine n fs
  rw [List.append_assoc, List.cons_append, Parse.separated, Parse.bind_ok (h endLine n fs),
    Parse.bind_ok (Parse.accept_leaf comma)]
  simp only
  rw [Parse.bind_ok (h' endLine _ fs), Nat.add_assoc]
  rfl

theorem not_rightParen_of_expression {kind : Kind} (h : kind.opensExpression = true) :
    kind.isMark .rightParen = false := by
  cases kind with
  | mark m => cases m <;> first | rfl | cases h
  | _ => rfl

theorem Arguments.leaves_begin (es : Arguments) : BeginsWith Kind.opensExpression es.leaves := by
  cases es with
  | last e => exact e.leaves_begin
  | more e comma others => exact e.leaves_begin.append _

mutual

/-- In front of what stops it, an expression is read. -/
theorem Expression.reads (e : Expression) (hl : e.Legal) {limit : Nat}
    (hlen : e.leaves.length ≤ limit) {rest : List Token} (hs : Stops 7 rest) :
    Parse.ReadsTo (Parse.expression limit) e.leaves e.ids (fun n => e.ast n) rest := by
  have hpos := e.leaves_begin.length_pos
  obtain ⟨j, rfl⟩ : ∃ j, limit = j + 1 := ⟨limit - 1, by omega⟩
  cases e with
  | operation e => exact assignment_reads hs ((e.leads hl hlen).reads hlen (hs.mono (by decide)))
  | assign name equals value =>
    rw [Expression.leaves, List.length_cons, List.length_cons] at hlen
    exact (Call.leads_name name).assign equals (value.reads hl (by omega) hs)
  | set object dot name equals value =>
    rw [Expression.leaves, List.length_append] at hlen
    simp only [List.length_cons] at hlen
    refine Call.Leads.set ((object.leads hl.1 (by omega)).property dot name ?_) equals
      (value.reads hl.2 (by omega) hs)
    rw [Call.leaves, List.length_append]
    simp only [List.length_cons, List.length_nil]
    omega

theorem Operation.leads {k rank : Nat} (e : Operation rank) (hl : e.Legal)
    (hlen : e.leaves.length ≤ k + 1) : e.Leads k := by
  cases e with
  | call c =>
    intro turns _ rest hs
    exact unary_reads turns (c.leaves_begin.notAhead (fun _ => not_unary_of_call) rest)
      ((c.leads hl hlen).reads hs)
  | unary operator right =>
    rw [Operation.leaves, List.length_cons] at hlen
    exact (right.leads hl (by omega)).unary operator
  | operand e => exact (e.leads hl hlen).operand hlen
  | binary left operator right =>
    have hlen' := hlen
    rw [Operation.leaves, List.length_append, List.length_cons] at hlen'
    exact (left.leads hl.1 (by omega)).binary (right.leads hl.2 (by omega)) operator hlen

theorem Call.leads {k : Nat} (c : Call) (hl : c.Legal) (hlen : c.leaves.length ≤ k + 1) :
    c.Leads k := by
  cases c with
  | literal t => exact Call.leads_literal t
  | thisRef keyword => exact Call.leads_thisRef keyword
  | name t => exact Call.leads_name t
  | superRef keyword dot method => exact Call.leads_superRef keyword dot method
  | group opening inner closing =>
    rw [Call.leaves, List.length_cons, List.length_append] at hlen
    exact Call.leads_group opening closing fun rest =>
      inner.reads hl (by omega) (.of_unranked closing rfl rest)
  | invoke callee opening closing =>
    have hlen' := hlen
    rw [Call.leaves, List.length_append] at hlen'
    exact (callee.leads hl (by omega)).invoke (parenthesized_reads_nil _ _ closing) rfl rfl
      (fun _ => rfl) hlen
  | invokeWith callee opening arguments closing =>
    have hlen' := hlen
    rw [Call.leaves, List.length_append, List.length_cons, List.length_append] at hlen'
    have hcount : 0 + arguments.count ≤ maxArguments := by
      rw [Nat.zero_add]
      exact hl.2.1
    have hread : ∀ rest, Parse.ReadsTo
        (Parse.parenthesized (Parse.argument (Parse.expression k)) (k + 1)) arguments.leaves
        arguments.ids (fun n => arguments.ast n) (closing.token :: rest) := fun rest =>
      parenthesized_reads
        (arguments.leaves_begin.notAhead (fun _ => not_rightParen_of_expression) _)
        (arguments.reads hl.2.2 (by omega) (by omega) hcount closing rest)
    exact (callee.leads hl.1 (by omega)).invoke hread rfl rfl (fun _ => rfl) hlen
  | property object dot name =>
    have hlen' := hlen
    rw [Call.leaves, List.length_append] at hlen'
    exact (object.leads hl (by omega)).property dot name hlen

theorem Arguments.reads {k : Nat} (es : Arguments) (hl : es.Legal) {turns before : Nat}
    (hlen : es.leaves.length ≤ k) (hturns : es.leaves.length ≤ turns + 1)
    (hcount : before + es.count ≤ maxArguments) (closing : Punctuation .rightParen)
    (rest : List Token) :
    Parse.ReadsTo (Parse.separated (Parse.argument (Parse.expression k)) turns before) es.leaves
      es.ids (fun n => es.ast n) (closing.token :: rest) := by
  cases es with
  | last e =>
    rw [Arguments.leaves] at hlen
    rw [Arguments.count] at hcount
    exact separated_reads_last turns (.cons (by rw [eq_of_isMark closing.isKind]; rfl))
      (argument_reads (by omega) (e.reads hl hlen (.of_unranked closing rfl rest)))
  | more e comma others =>
    rw [Arguments.leaves, List.length_append, List.length_cons] at hlen hturns
    rw [Arguments.count] at hcount
    have hpos := e.leaves_begin.length_pos
    obtain ⟨turns, rfl⟩ : ∃ j, turns = j + 1 := ⟨turns - 1, by omega⟩
    exact separated_reads_more comma
      (argument_reads (by omega) (e.reads hl.1 (by omega) (.of_unranked comma rfl _)))
      (others.reads hl.2 (by omega) (by omega) (by omega) closing rest)

end
/-! ### Declarations and statements -/

section Statements

variable {k limit : Nat} {rest : List Token}

theorem parameter_reads (name : Name) {before : Nat} (hb : before < maxArguments) :
    Parse.ReadsTo (Parse.parameter before) [name.token] 0 (fun _ => name.token) rest := by
  intro endLine n fs
  unfold Parse.parameter
  rw [if_neg (Nat.not_le.mpr hb)]
  exact Parse.expect_leaf name .parameterName

theorem Parameters.reads (ps : Parameters) {turns before : Nat}
    (hturns : ps.leaves.length ≤ turns + 1) (hcount : before + ps.names.length ≤ maxArguments)
    (closing : Punctuation .rightParen) :
    Parse.ReadsTo (Parse.separated Parse.parameter turns before) ps.leaves 0 (fun _ => ps.names)
      (closing.token :: rest) := by
  induction ps generalizing turns before with
  | last name =>
    rw [Parameters.names, List.length_singleton] at hcount
    exact separated_reads_last turns (.cons (by rw [eq_of_isMark closing.isKind]; rfl))
      (parameter_reads name (by omega))
  | more name comma others ih =>
    rw [Parameters.leaves, List.length_cons, List.length_cons] at hturns
    rw [Parameters.names, List.length_cons] at hcount
    obtain ⟨turns, rfl⟩ : ∃ j, turns = j + 1 := ⟨turns - 1, by omega⟩
    exact separated_reads_more comma (parameter_reads name (by omega))
      (ih (by omega) (by omega))

theorem Parameters.leaves_begin (ps : Parameters) : BeginsWith Kind.isIdentifier ps.leaves := by
  cases ps with
  | last name => exact .name name _ rfl
  | more name comma others => exact .name name _ rfl

theorem not_rightParen_of_identifier {kind : Kind} (h : kind.isIdentifier = true) :
    kind.isMark .rightParen = false := by
  rw [eq_of_isIdentifier h]
  rfl

theorem Parameters.reads? (ps : Option Parameters)
    (hturns : (Parameters.leaves? ps).length ≤ limit + 1)
    (hcount : (Parameters.names? ps).length ≤ maxArguments) (closing : Punctuation .rightParen) :
    Parse.ReadsTo (Parse.parenthesized Parse.parameter limit) (Parameters.leaves? ps) 0
      (fun _ => Parameters.names? ps) (closing.token :: rest) := by
  cases ps with
  | none => exact parenthesized_reads_nil _ _ closing rest
  | some ps =>
    have hcount' : 0 + ps.names.length ≤ maxArguments := by
      rw [Nat.zero_add]
      exact hcount
    exact parenthesized_reads (ps.leaves_begin.notAhead (fun _ => not_rightParen_of_identifier) _)
      (ps.reads hturns hcount' closing)

/-- In front of a mark with which no expression begins, an expression that may be absent is read. -/
theorem Expression.reads? {m : Mark} (e : Option Expression) (hl : Expression.Legal? e)
    (hlen : (Expression.leaves? e).length ≤ limit) (hm : Kind.opensExpression (.mark m) = false)
    (hrank : (Kind.mark m).rank? = none) (l : Punctuation m) :
    Parse.ReadsTo (Parse.expressionUnless m (Parse.expression limit)) (Expression.leaves? e)
      (Expression.ids? e) (fun n => e.map (Expression.ast n)) (l.token :: rest) := by
  intro endLine n fs
  cases e with
  | none =>
    refine (Parse.bind_ok (Parse.isAhead_leaf l)).trans ?_
    rfl
  | some e =>
    have hnot : NotAhead (Kind.isMark m) (e.leaves ++ l.token :: rest) := by
      refine e.leaves_begin.notAhead (fun kind hk => Bool.eq_false_iff.mpr fun hk' => ?_) _
      rw [eq_of_isMark hk', hm] at hk
      cases hk
    have he := e.reads (hl e rfl) hlen (.of_unranked l hrank rest) endLine n fs
    exact (Parse.bind_ok (Parse.isAhead_not hnot)).trans (Parse.map_ok he)

theorem VarDecl.reads (v : VarDecl) (hl : Expression.Legal? v.value?)
    (hlen : v.leaves.length ≤ limit) :
    Parse.ReadsTo (Parse.varDecl (Parse.expression limit))
      (v.name.token :: (VarDecl.initialLeaves v.initial ++ [v.semicolon.token]))
      (Expression.ids? v.value?) (fun n => v.ast n) rest := by
  obtain ⟨keyword, name, initial, semicolon⟩ := v
  intro endLine n fs
  rw [List.cons_append, Parse.varDecl, Parse.bind_ok (Parse.expect_leaf name .variableName)]
  cases initial with
  | none =>
    have hnot : NotAhead (Kind.isMark .equal) (semicolon.token :: rest) :=
      .cons (by rw [eq_of_isMark semicolon.isKind]; rfl)
    refine (Parse.bind_ok (Parse.accept_none hnot)).trans ?_
    exact Parse.bind_ok (Parse.expect_leaf semicolon .variableEnd)
  | some i =>
    simp only [VarDecl.leaves, VarDecl.initialLeaves, List.length_cons, List.length_append] at hlen
    have hi : Parse.ReadsTo (Parse.expression limit) i.value.leaves _ _ (semicolon.token :: rest) :=
      i.value.reads (hl _ rfl) (by omega) (.of_unranked semicolon rfl rest)
    simp only [VarDecl.initialLeaves, List.cons_append, List.append_assoc, List.nil_append]
    rw [Parse.bind_ok (Parse.accept_leaf i.equals)]
    simp only
    rw [Parse.bind_ok (Parse.map_ok (hi endLine n fs)),
      Parse.bind_ok (Parse.expect_leaf semicolon .variableEnd)]
    rfl

theorem expressionStmt_reads (e : Expression) (hl : e.Legal) (hlen : e.leaves.length ≤ limit)
    (semicolon : Punctuation .semicolon) :
    Parse.ReadsTo (Parse.expressionStmt (Parse.expression limit)) (e.leaves ++ [semicolon.token])
      e.ids (fun n => .expression (e.ast n)) rest := by
  intro endLine n fs
  have he := e.reads hl hlen (.of_unranked semicolon rfl rest) endLine n fs
  rw [List.append_assoc, List.singleton_append, Parse.expressionStmt, Parse.bind_ok he,
    Parse.bind_ok (Parse.expect_leaf semicolon .expressionEnd)]
  rfl

theorem printStmt_reads (e : Expression) (hl : e.Legal) (hlen : e.leaves.length ≤ limit)
    (semicolon : Punctuation .semicolon) :
    Parse.ReadsTo (Parse.printStmt (Parse.expression limit)) (e.leaves ++ [semicolon.token])
      e.ids (fun n => .print (e.ast n)) rest := by
  intro endLine n fs
  have he := e.reads hl hlen (.of_unranked semicolon rfl rest) endLine n fs
  rw [List.append_assoc, List.singleton_append, Parse.printStmt, Parse.bind_ok he,
    Parse.bind_ok (Parse.expect_leaf semicolon .printEnd)]
  rfl

theorem returnStmt_reads (keyword : Token) (value : Option Expression)
    (hl : Expression.Legal? value) (hlen : (Expression.leaves? value).length ≤ limit)
    (semicolon : Punctuation .semicolon) :
    Parse.ReadsTo (Parse.returnStmt (Parse.expression limit) keyword)
      (Expression.leaves? value ++ [semicolon.token]) (Expression.ids? value)
      (fun n => .ret keyword (value.map (Expression.ast n))) rest := by
  intro endLine n fs
  rw [List.append_assoc, List.singleton_append, Parse.returnStmt,
    Parse.bind_ok (Expression.reads? value hl hlen rfl rfl semicolon endLine n fs),
    Parse.bind_ok (Parse.expect_leaf semicolon .returnEnd)]
  rfl

theorem not_opens_of_expression {kind : Kind} (h : kind.opensExpression = true) :
    kind.isMark .semicolon = false ∧ kind.isKeyword .var_ = false := by
  cases kind with
  | mark m => cases m <;> first | exact ⟨rfl, rfl⟩ | cases h
  | keyword w => cases w <;> first | exact ⟨rfl, rfl⟩ | cases h
  | _ => exact ⟨rfl, rfl⟩

theorem ForClause.reads (i : ForClause) (hl : Expression.Legal? i.value?)
    (hlen : i.leaves.length ≤ limit) :
    Parse.ReadsTo (Parse.forInitializer (Parse.expression limit)) i.leaves
      (Expression.ids? i.value?) (fun n => i.ast n) rest := by
  intro endLine n fs
  cases i with
  | absent semicolon => exact Parse.bind_ok (Parse.accept_leaf semicolon)
  | varDecl v =>
    have hnot : NotAhead (Kind.isMark .semicolon) (v.leaves ++ rest) :=
      .cons (by rw [eq_of_isKeyword v.keyword.isKind]; rfl)
    refine (Parse.bind_ok (Parse.accept_none hnot)).trans ?_
    refine (Parse.bind_ok (Parse.accept_leaf v.keyword)).trans ?_
    exact Parse.map_ok (v.reads hl hlen endLine n fs)
  | expression e semicolon =>
    rw [ForClause.leaves, List.length_append] at hlen
    have hbegin := e.leaves_begin.append [semicolon.token]
    refine (Parse.bind_ok (Parse.accept_none
      (hbegin.notAhead (fun _ hk => (not_opens_of_expression hk).1) rest))).trans ?_
    refine (Parse.bind_ok (Parse.accept_none
      (hbegin.notAhead (fun _ hk => (not_opens_of_expression hk).2) rest))).trans ?_
    exact Parse.map_ok (expressionStmt_reads e (hl e rfl) (by omega) semicolon endLine n fs)

theorem superclass_reads (s : Option Superclass) (opening : Punctuation .leftBrace) :
    Parse.ReadsTo Parse.superclass (Superclass.leaves? s) (Superclass.ids? s)
      (fun n => Superclass.ast? n s) (opening.token :: rest) := by
  intro endLine n fs
  cases s with
  | none =>
    have hnot : NotAhead (Kind.isMark .less) (opening.token :: rest) :=
      .cons (by rw [eq_of_isMark opening.isKind]; rfl)
    exact Parse.bind_ok (Parse.accept_none hnot)
  | some s =>
    refine (Parse.bind_ok (Parse.accept_leaf s.less)).trans ?_
    exact Parse.bind_ok (Parse.expect_leaf s.name .superclassName)
/-! ### Statements with conditions -/

section Conditions

variable {statement : Parse Stmt} {body : Statement} (opening : Punctuation .leftParen)
  {condition : Expression} (closing : Punctuation .rightParen)

theorem whileStmt_reads (hl : condition.Legal) (hlen : condition.leaves.length ≤ limit)
    (hbody : Parse.ReadsTo statement body.leaves body.ids (fun n => body.ast n) rest) :
    Parse.ReadsTo (Parse.whileStmt (Parse.expression limit) statement)
      (opening.token :: (condition.leaves ++ closing.token :: body.leaves))
      (condition.ids + body.ids)
      (fun n => .loop (condition.ast n) (body.ast (n + condition.ids))) rest := by
  intro endLine n fs
  have hc := condition.reads hl hlen (.of_unranked closing rfl (body.leaves ++ rest)) endLine n fs
  rw [List.cons_append, List.append_assoc, List.cons_append, Parse.whileStmt,
    Parse.bind_ok (Parse.expect_leaf opening _), Parse.bind_ok hc,
    Parse.bind_ok (Parse.expect_leaf closing _), Parse.bind_ok (hbody endLine _ fs), Nat.add_assoc]
  rfl

/-- Without an `else` ahead, an `if` ends behind its branch. -/
theorem ifStmt_reads (hl : condition.Legal) (hlen : condition.leaves.length ≤ limit)
    (hbody : Parse.ReadsTo statement body.leaves body.ids (fun n => body.ast n) rest)
    (helse : NotAhead (Kind.isKeyword .else_) rest) :
    Parse.ReadsTo (Parse.ifStmt (Parse.expression limit) statement)
      (opening.token :: (condition.leaves ++ closing.token :: body.leaves))
      (condition.ids + body.ids)
      (fun n => .branch (condition.ast n) (body.ast (n + condition.ids)) none) rest := by
  intro endLine n fs
  have hc := condition.reads hl hlen (.of_unranked closing rfl (body.leaves ++ rest)) endLine n fs
  rw [List.cons_append, List.append_assoc, List.cons_append, Parse.ifStmt,
    Parse.bind_ok (Parse.expect_leaf opening _), Parse.bind_ok hc,
    Parse.bind_ok (Parse.expect_leaf closing _), Parse.bind_ok (hbody endLine _ fs),
    Parse.bind_ok (Parse.accept_none helse), Nat.add_assoc]
  rfl

theorem ifStmt_reads_else (hl : condition.Legal) (hlen : condition.leaves.length ≤ limit)
    {otherwise : Word .else_} {elseBranch : Statement}
    (hbody : Parse.ReadsTo statement body.leaves body.ids (fun n => body.ast n)
      (otherwise.token :: (elseBranch.leaves ++ rest)))
    (helse : Parse.ReadsTo statement elseBranch.leaves elseBranch.ids (fun n => elseBranch.ast n)
      rest) :
    Parse.ReadsTo (Parse.ifStmt (Parse.expression limit) statement)
      (opening.token :: (condition.leaves ++ closing.token ::
        (body.leaves ++ otherwise.token :: elseBranch.leaves)))
      (condition.ids + body.ids + elseBranch.ids)
      (fun n => .branch (condition.ast n) (body.ast (n + condition.ids))
        (some (elseBranch.ast (n + condition.ids + body.ids)))) rest := by
  intro endLine n fs
  have hc := condition.reads hl hlen (.of_unranked closing rfl
    (body.leaves ++ otherwise.token :: (elseBranch.leaves ++ rest))) endLine n fs
  rw [List.cons_append, List.append_assoc, List.cons_append, List.append_assoc, List.cons_append,
    Parse.ifStmt, Parse.bind_ok (Parse.expect_leaf opening _), Parse.bind_ok hc,
    Parse.bind_ok (Parse.expect_leaf closing _), Parse.bind_ok (hbody endLine _ fs),
    Parse.bind_ok (Parse.accept_leaf otherwise)]
  simp only
  rw [Parse.bind_ok (helse endLine _ fs), ← Nat.add_assoc, ← Nat.add_assoc]
  rfl

theorem forStmt_reads {initializer : ForClause} {condition increment : Option Expression}
    (semicolon : Punctuation .semicolon)
    (hli : Expression.Legal? initializer.value?) (hleni : initializer.leaves.length ≤ limit)
    (hlc : Expression.Legal? condition) (hlenc : (Expression.leaves? condition).length ≤ limit)
    (hlt : Expression.Legal? increment) (hlent : (Expression.leaves? increment).length ≤ limit)
    (hbody : Parse.ReadsTo statement body.leaves body.ids (fun n => body.ast n) rest) :
    Parse.ReadsTo (Parse.forStmt (Parse.expression limit) statement)
      (opening.token :: (initializer.leaves ++ (Expression.leaves? condition ++ semicolon.token ::
        (Expression.leaves? increment ++ closing.token :: body.leaves))))
      (Expression.ids? initializer.value? + Expression.ids? condition +
        Expression.ids? increment + body.ids)
      (fun n =>
        .forLoop (initializer.ast n)
          (condition.map (Expression.ast (n + Expression.ids? initializer.value?)))
          (increment.map (Expression.ast
            (n + Expression.ids? initializer.value? + Expression.ids? condition)))
          (body.ast (n + Expression.ids? initializer.value? + Expression.ids? condition +
            Expression.ids? increment))) rest := by
  intro endLine n fs
  simp only [List.cons_append, List.append_assoc]
  rw [Parse.forStmt, Parse.bind_ok (Parse.expect_leaf opening _),
    Parse.bind_ok (initializer.reads hli hleni endLine n fs),
    Parse.bind_ok (Expression.reads? condition hlc hlenc rfl rfl semicolon endLine _ fs),
    Parse.bind_ok (Parse.expect_leaf semicolon _),
    Parse.bind_ok (Expression.reads? increment hlt hlent rfl rfl closing endLine _ fs),
    Parse.bind_ok (Parse.expect_leaf closing _), Parse.bind_ok (hbody endLine _ fs)]
  simp only [Nat.add_assoc]
  rfl

end Conditions

/-! ### Nested declarations -/

section Nested

variable {statement : Parse Stmt} {declaration : Parse (Option Stmt)}

theorem blockEnd_reads {body : List Declaration}
    (hbody : ∀ us, BeginsWith (Kind.isMark .rightBrace) us →
      Parse.ReadsTo (Parse.declarations declaration (Kind.isMark .rightBrace) limit)
        (Declaration.leavesIn body) (Declaration.idsIn body) (fun n => Declaration.astIn n body) us)
    (closing : Punctuation .rightBrace) :
    Parse.ReadsTo (Parse.blockEnd declaration limit)
      (Declaration.leavesIn body ++ [closing.token]) (Declaration.idsIn body)
      (fun n => Declaration.astIn n body) rest := by
  intro endLine n fs
  rw [List.append_assoc, List.singleton_append, Parse.blockEnd,
    Parse.bind_ok (hbody _ (.mark closing rest rfl) endLine n fs),
    Parse.bind_ok (Parse.expect_leaf closing _)]
  rfl

/-- Where nothing is left, or where a list of declarations is closed, it ends. -/
theorem declarations_stop {stops : Kind → Bool} (turns : Nat)
    (hrest : rest = [] ∨ BeginsWith stops rest) :
    Parse.ReadsTo (Parse.declarations declaration stops turns) [] 0 (fun _ => []) rest := by
  intro endLine n fs
  cases turns with
  | zero => rfl
  | succ turns =>
    rcases hrest with rfl | hstop
    · rfl
    · rw [List.nil_append, Parse.declarations, Parse.bind_ok (Parse.atEnd_of_begins hstop),
        Parse.bind_ok (Parse.isAhead_of_begins hstop)]
      rfl

/-- One more declaration stands in front of a list of them. -/
theorem declarations_reads_more {p stops : Kind → Bool} {turns : Nat} {ts us : List Token}
    {ids ids' : Nat} {ast : NodeId → Stmt} {asts : NodeId → List Stmt} (hts : BeginsWith p ts)
    (hp : ∀ kind, p kind = true → stops kind = false)
    (h : Parse.ReadsTo declaration ts ids (fun n => some (ast n)) (us ++ rest))
    (h' : Parse.ReadsTo (Parse.declarations declaration stops turns) us ids' asts rest) :
    Parse.ReadsTo (Parse.declarations declaration stops (turns + 1)) (ts ++ us) (ids + ids')
      (fun n => ast n :: asts (n + ids)) rest := by
  intro endLine n fs
  rw [List.append_assoc, Parse.declarations, Parse.bind_ok (Parse.atEnd_of_begins (hts.append _)),
    Parse.bind_ok (Parse.isAhead_not (hts.notAhead hp _)), if_neg (by decide),
    Parse.bind_ok (h endLine n fs), Parse.bind_ok (h' endLine _ fs), Nat.add_assoc]
  rfl

theorem methods_stop {method : Parse FunDecl} (turns : Nat) (closing : Punctuation .rightBrace) :
    Parse.ReadsTo (Parse.methods method turns) [] 0 (fun _ => []) (closing.token :: rest) := by
  intro endLine n fs
  cases turns with
  | zero => rfl
  | succ turns =>
    have hstop : BeginsWith (Kind.isMark .rightBrace) (closing.token :: rest) :=
      .cons closing.isKind
    rw [List.nil_append, Parse.methods, Parse.bind_ok (Parse.atEnd_of_begins hstop),
      Parse.bind_ok (Parse.isAhead_of_begins hstop)]
    rfl

/-- One more method stands in front of a list of them. -/
theorem methods_reads_more {method : Parse FunDecl} {turns : Nat} {ts us : List Token}
    {ids ids' : Nat} {ast : NodeId → FunDecl} {asts : NodeId → List FunDecl}
    (hts : BeginsWith Kind.isIdentifier ts)
    (h : Parse.ReadsTo method ts ids ast (us ++ rest))
    (h' : Parse.ReadsTo (Parse.methods method turns) us ids' asts rest) :
    Parse.ReadsTo (Parse.methods method (turns + 1)) (ts ++ us) (ids + ids')
      (fun n => ast n :: asts (n + ids)) rest := by
  intro endLine n fs
  have hnot : NotAhead (Kind.isMark .rightBrace) (ts ++ (us ++ rest)) :=
    hts.notAhead (fun kind hk => by rw [eq_of_isIdentifier hk]; rfl) _
  rw [List.append_assoc, Parse.methods, Parse.bind_ok (Parse.atEnd_of_begins (hts.append _)),
    Parse.bind_ok (Parse.isAhead_not hnot), if_neg (by decide),
    Parse.bind_ok (h endLine n fs), Parse.bind_ok (h' endLine _ fs), Nat.add_assoc]
  rfl

/-- A function from its name on, where its body is read. -/
theorem function_reads (kind : RoutineKind) (name : Name) (opening : Punctuation .leftParen)
    {params : Option Parameters} (closing : Punctuation .rightParen)
    (bodyOpening : Punctuation .leftBrace) {body : List Declaration}
    (bodyClosing : Punctuation .rightBrace)
    (hlen : (Parameters.leaves? params).length ≤ limit + 1)
    (hcount : (Parameters.names? params).length ≤ maxArguments)
    (hbody : ∀ us, BeginsWith (Kind.isMark .rightBrace) us →
      Parse.ReadsTo (Parse.declarations declaration (Kind.isMark .rightBrace) limit)
        (Declaration.leavesIn body) (Declaration.idsIn body) (fun n => Declaration.astIn n body)
        us) :
    Parse.ReadsTo (Parse.function declaration limit kind)
      (Function.mk name opening params closing bodyOpening body bodyClosing).leaves
      (Declaration.idsIn body)
      (fun n => .mk name.token (Parameters.names? params) (Declaration.astIn n body)) rest := by
  intro endLine n fs
  have hblock : Parse.ReadsTo (Parse.blockEnd declaration limit) _ _ _ rest :=
    blockEnd_reads hbody bodyClosing
  replace hblock := hblock endLine n fs
  rw [List.append_assoc] at hblock
  simp only [Function.leaves, List.cons_append, List.append_assoc]
  rw [Parse.function, Parse.bind_ok (Parse.expect_leaf name _),
    Parse.bind_ok (Parse.expect_leaf opening _)]
  refine (Parse.bind_ok (Parameters.reads? params hlen hcount closing endLine n fs)).trans ?_
  rw [Parse.bind_ok (Parse.expect_leaf closing _), Parse.bind_ok (Parse.expect_leaf bodyOpening _)]
  exact Parse.bind_ok hblock

/-- A class behind its keyword, where its methods are read. -/
theorem classDecl_reads (name : Name) {superclass : Option Superclass}
    (opening : Punctuation .leftBrace) {methods : List Function}
    (closing : Punctuation .rightBrace)
    (hmethods : Parse.ReadsTo (Parse.methods (Parse.function declaration limit .method) limit)
      (Function.leavesIn methods) (Function.idsIn methods) (fun n => Function.astIn n methods)
      (closing.token :: rest)) :
    Parse.ReadsTo (Parse.classDecl declaration limit)
      (name.token :: (Superclass.leaves? superclass ++
        opening.token :: (Function.leavesIn methods ++ [closing.token])))
      (Superclass.ids? superclass + Function.idsIn methods)
      (fun n => .classDecl name.token (Superclass.ast? n superclass)
        (Function.astIn (n + Superclass.ids? superclass) methods)) rest := by
  intro endLine n fs
  simp only [List.cons_append, List.append_assoc, List.nil_append]
  rw [Parse.classDecl, Parse.bind_ok (Parse.expect_leaf name _),
    Parse.bind_ok (superclass_reads superclass opening endLine n fs),
    Parse.bind_ok (Parse.expect_leaf opening _), Parse.bind_ok (hmethods endLine _ fs),
    Parse.bind_ok (Parse.expect_leaf closing _), Nat.add_assoc]
  rfl

end Nested

/-! ### Choosing a production -/

section Choices

variable {α : Type} {p : Parse α} {next : Token → Parse α} {ts : List Token} {ids : Nat}
  {ast : NodeId → α}

/-- The token ahead decides what is read behind it. -/
theorem peek_reads {q : Kind → Bool} (l : Leaf q)
    (hnext : next l.token = Parse.advance >>= fun _ => p) (h : Parse.ReadsTo p ts ids ast rest) :
    Parse.ReadsTo (Parse.peek >>= next) (l.token :: ts) ids ast rest := by
  intro endLine n fs
  have hpeek : Parse.peek ⟨l.token :: ts ++ rest, endLine, n, fs⟩ =
      .ok l.token ⟨l.token :: ts ++ rest, endLine, n, fs⟩ := rfl
  rw [Parse.bind_ok hpeek, hnext]
  exact h endLine n fs

/-- The token ahead decides what is read from it on. -/
theorem peek_reads_from {q : Kind → Bool} (hts : BeginsWith q ts)
    (hnext : ∀ t : Token, q t.kind = true → next t = p) (h : Parse.ReadsTo p ts ids ast rest) :
    Parse.ReadsTo (Parse.peek >>= next) ts ids ast rest := by
  intro endLine n fs
  obtain ⟨t, ht, hq⟩ := hts
  cases ts with
  | nil => cases ht
  | cons u us =>
    cases ht
    have hpeek : Parse.peek ⟨t :: us ++ rest, endLine, n, fs⟩ =
        .ok t ⟨t :: us ++ rest, endLine, n, fs⟩ := rfl
    rw [Parse.bind_ok hpeek, hnext t hq]
    exact h endLine n fs

theorem recover_reads (h : Parse.ReadsTo p ts ids ast rest) :
    Parse.ReadsTo (Parse.recover p) ts ids (fun n => some (ast n)) rest := by
  intro endLine n fs
  unfold Parse.recover
  rw [h endLine n fs]

end Choices

/-- What begins with an expression is read as one, with its semicolon. -/
theorem statementWith_reads_expression {statement : Parse Stmt}
    {declaration : Parse (Option Stmt)} {ts : List Token} {ids : Nat} {ast : NodeId → Stmt}
    (hts : BeginsWith Kind.opensExpression ts)
    (h : Parse.ReadsTo (Parse.expressionStmt (Parse.expression limit)) ts ids ast rest) :
    Parse.ReadsTo (Parse.statementWith limit statement declaration) ts ids ast rest := by
  refine peek_reads_from hts (fun t ht => ?_) h
  split
  all_goals first | rfl | (next hk => rw [hk] at ht; cases ht)

/-- What begins with a statement is read as one. -/
theorem declarationWith_reads_statement {statement : Parse Stmt}
    {declaration : Parse (Option Stmt)} {ts : List Token} {ids : Nat} {ast : NodeId → Stmt}
    (hts : BeginsWith Kind.opensStatement ts)
    (h : Parse.ReadsTo (Parse.statementWith limit statement declaration) ts ids ast rest) :
    Parse.ReadsTo (Parse.declarationWith limit statement declaration) ts ids ast rest := by
  refine peek_reads_from hts (fun t ht => ?_) h
  split
  all_goals first | rfl | (next hk => rw [hk] at ht; cases ht)
theorem not_else_of_declaration {kind : Kind} (h : kind.opensDeclaration = true) :
    kind.isKeyword .else_ = false := by
  cases kind with
  | keyword w => cases w <;> first | rfl | cases h
  | _ => rfl

/-- Kinds that end a list of declarations: none begins with one, and it is no `else`. -/
def EndsList (stops : Kind → Bool) : Prop :=
  ∀ kind, stops kind = true → kind.opensDeclaration = false ∧ kind.isKeyword .else_ = false

theorem endsList_rightBrace : EndsList (Kind.isMark .rightBrace) := by
  intro kind hk
  rw [eq_of_isMark hk]
  exact ⟨rfl, rfl⟩

theorem EndsList.not_stops {stops : Kind → Bool} (h : EndsList stops) {kind : Kind}
    (hk : kind.opensDeclaration = true) : stops kind = false := by
  refine Bool.eq_false_iff.mpr fun hstop => ?_
  rw [(h kind hstop).1] at hk
  cases hk

/-- Behind declarations no `else` is ahead. -/
theorem EndsList.not_else {stops : Kind → Bool} (h : EndsList stops) (ds : List Declaration)
    {rest : List Token} (hrest : rest = [] ∨ BeginsWith stops rest) :
    NotAhead (Kind.isKeyword .else_) (Declaration.leavesIn ds ++ rest) := by
  cases ds with
  | nil =>
    rcases hrest with rfl | ⟨t, ht, hstop⟩
    · exact .nil
    · intro u hu
      cases hu.symm.trans ht
      exact (h _ hstop).2
  | cons d ds =>
    rw [Declaration.leavesIn, List.append_assoc]
    exact d.leaves_begin.notAhead (fun _ => not_else_of_declaration) _

mutual

/-- A statement is read as long as no `else` is ahead that it could take. -/
theorem Statement.reads (s : Statement) (hl : s.Legal) {limit : Nat}
    (hlen : s.leaves.length ≤ limit) {rest : List Token}
    (helse : s.endsOpen = true → NotAhead (Kind.isKeyword .else_) rest) :
    Parse.ReadsTo (Parse.statement limit) s.leaves s.ids (fun n => s.ast n) rest := by
  have hpos := s.leaves_begin.length_pos
  obtain ⟨j, rfl⟩ : ∃ j, limit = j + 1 := ⟨limit - 1, by omega⟩
  rw [Parse.statement]
  cases s with
  | expression e semicolon =>
    rw [Statement.leaves, List.length_append] at hlen
    exact statementWith_reads_expression (e.leaves_begin.append _)
      (expressionStmt_reads e hl (by omega) semicolon)
  | print keyword e semicolon =>
    rw [Statement.leaves, List.length_cons, List.length_append] at hlen
    exact peek_reads (p := Parse.printStmt (Parse.expression (j + 1))) keyword
      (by simp only [eq_of_isKeyword keyword.isKind])
      (printStmt_reads e hl (by omega) semicolon)
  | ret keyword value semicolon =>
    rw [Statement.leaves, List.length_cons, List.length_append] at hlen
    exact peek_reads (p := Parse.returnStmt (Parse.expression (j + 1)) keyword.token) keyword
      (by simp only [eq_of_isKeyword keyword.isKind])
      (returnStmt_reads keyword.token value hl (by omega) semicolon)
  | block opening body closing =>
    rw [Statement.leaves, List.length_cons, List.length_append] at hlen
    have hblock : Parse.ReadsTo (Parse.blockEnd (Parse.declaration j) (j + 1)) _ _ _ rest :=
      blockEnd_reads (fun us hus => Declaration.readsIn body hl (by omega) (by omega)
        endsList_rightBrace (.inr hus)) closing
    refine peek_reads opening (by simp only [eq_of_isMark opening.isKind]; rfl) ?_
    exact fun endLine n fs => Parse.map_ok (hblock endLine n fs)
  | loop keyword opening condition closing body =>
    simp only [Statement.leaves, List.length_cons, List.length_append] at hlen
    exact peek_reads (p := Parse.whileStmt (Parse.expression (j + 1)) (Parse.statement j)) keyword
      (by simp only [eq_of_isKeyword keyword.isKind])
      (whileStmt_reads opening closing hl.1 (by omega) (body.reads hl.2 (by omega) helse))
  | forLoop keyword opening initializer condition semicolon increment closing body =>
    simp only [Statement.leaves, List.length_cons, List.length_append] at hlen
    obtain ⟨hli, hlc, hlt, hlb⟩ := hl
    exact peek_reads (p := Parse.forStmt (Parse.expression (j + 1)) (Parse.statement j)) keyword
      (by simp only [eq_of_isKeyword keyword.isKind])
      (forStmt_reads opening closing semicolon hli (by omega) hlc (by omega) hlt (by omega)
        (body.reads hlb (by omega) helse))
  | branch keyword opening condition closing thenBranch =>
    simp only [Statement.leaves, List.length_cons, List.length_append] at hlen
    exact peek_reads (p := Parse.ifStmt (Parse.expression (j + 1)) (Parse.statement j)) keyword
      (by simp only [eq_of_isKeyword keyword.isKind])
      (ifStmt_reads opening closing hl.1 (by omega)
        (thenBranch.reads hl.2 (by omega) fun _ => helse rfl) (helse rfl))
  | branchElse keyword opening condition closing thenBranch otherwise elseBranch =>
    simp only [Statement.leaves, List.length_cons, List.length_append] at hlen
    obtain ⟨hlc, hlt, hclosed, hle⟩ := hl
    -- the `else` behind the first branch is no obstacle, since that branch cannot take it
    have hthen : Parse.ReadsTo (Parse.statement j) thenBranch.leaves _ _
        (otherwise.token :: (elseBranch.leaves ++ rest)) :=
      thenBranch.reads hlt (by omega) fun hopen => by
        rw [hclosed] at hopen
        cases hopen
    exact peek_reads (p := Parse.ifStmt (Parse.expression (j + 1)) (Parse.statement j)) keyword
      (by simp only [eq_of_isKeyword keyword.isKind])
      (ifStmt_reads_else opening closing hlc (by omega) hthen
        (elseBranch.reads hle (by omega) helse))

theorem Function.reads (f : Function) (hl : f.Legal) {j limit : Nat} (kind : RoutineKind)
    (hj : f.leaves.length ≤ j) (hlen : f.leaves.length ≤ limit) {rest : List Token} :
    Parse.ReadsTo (Parse.function (Parse.declaration j) limit kind) f.leaves f.ids
      (fun n => f.ast n) rest := by
  cases f with
  | mk name opening params closing bodyOpening body bodyClosing =>
    simp only [Function.leaves, List.length_cons, List.length_append] at hj hlen
    exact function_reads kind name opening closing bodyOpening bodyClosing (by omega) hl.1
      fun us hus => Declaration.readsIn body hl.2 (by omega) (by omega) endsList_rightBrace
        (.inr hus)

theorem Function.readsIn (fs : List Function) (hl : Function.AllLegal fs) {j limit turns : Nat}
    (hj : (Function.leavesIn fs).length ≤ j) (hlen : (Function.leavesIn fs).length ≤ limit)
    (hturns : (Function.leavesIn fs).length ≤ turns) (closing : Punctuation .rightBrace)
    {rest : List Token} :
    Parse.ReadsTo (Parse.methods (Parse.function (Parse.declaration j) limit .method) turns)
      (Function.leavesIn fs) (Function.idsIn fs) (fun n => Function.astIn n fs)
      (closing.token :: rest) := by
  cases fs with
  | nil => exact methods_stop turns closing
  | cons f fs =>
    rw [Function.leavesIn, List.length_append] at hj hlen hturns
    have hpos := f.leaves_begin.length_pos
    obtain ⟨turns, rfl⟩ : ∃ j, turns = j + 1 := ⟨turns - 1, by omega⟩
    exact methods_reads_more f.leaves_begin (f.reads hl.1 .method (by omega) (by omega))
      (Function.readsIn fs hl.2 (by omega) (by omega) (by omega) closing)

theorem Declaration.reads (d : Declaration) (hl : d.Legal) {limit : Nat}
    (hlen : d.leaves.length ≤ limit) {rest : List Token}
    (helse : NotAhead (Kind.isKeyword .else_) rest) :
    Parse.ReadsTo (Parse.declaration limit) d.leaves d.ids (fun n => some (d.ast n)) rest := by
  have hpos := d.leaves_begin.length_pos
  obtain ⟨j, rfl⟩ : ∃ j, limit = j + 1 := ⟨limit - 1, by omega⟩
  rw [Parse.declaration]
  refine recover_reads ?_
  cases d with
  | classDecl keyword name superclass opening methods closing =>
    simp only [Declaration.leaves, List.length_cons, List.length_append] at hlen
    exact peek_reads (p := Parse.classDecl (Parse.declaration j) (j + 1)) keyword
      (by simp only [eq_of_isKeyword keyword.isKind])
      (classDecl_reads name opening closing
        (Function.readsIn methods hl (by omega) (by omega) (by omega) closing))
  | function keyword f =>
    rw [Declaration.leaves, List.length_cons] at hlen
    have hf : Parse.ReadsTo (Parse.function (Parse.declaration j) (j + 1) .function) _ _ _ rest :=
      f.reads hl .function (by omega) (by omega)
    refine peek_reads keyword (by simp only [eq_of_isKeyword keyword.isKind]; rfl) ?_
    exact fun endLine n fs => Parse.map_ok (hf endLine n fs)
  | varDecl v =>
    exact peek_reads v.keyword (by simp only [eq_of_isKeyword v.keyword.isKind]) (v.reads hl hlen)
  | statement s =>
    refine declarationWith_reads_statement s.leaves_begin ?_
    exact s.reads hl hlen fun _ => helse

/-- Declarations are read up to what ends their list. -/
theorem Declaration.readsIn (ds : List Declaration) (hl : Declaration.AllLegal ds)
    {limit turns : Nat} {stops : Kind → Bool} (hlen : (Declaration.leavesIn ds).length ≤ limit)
    (hturns : (Declaration.leavesIn ds).length ≤ turns)
    (hstops : EndsList stops) {rest : List Token} (hrest : rest = [] ∨ BeginsWith stops rest) :
    Parse.ReadsTo (Parse.declarations (Parse.declaration limit) stops turns)
      (Declaration.leavesIn ds) (Declaration.idsIn ds) (fun n => Declaration.astIn n ds) rest := by
  cases ds with
  | nil => exact declarations_stop turns hrest
  | cons d ds =>
    rw [Declaration.leavesIn, List.length_append] at hlen hturns
    have hpos := d.leaves_begin.length_pos
    obtain ⟨turns, rfl⟩ : ∃ j, turns = j + 1 := ⟨turns - 1, by omega⟩
    exact declarations_reads_more d.leaves_begin (fun _ => hstops.not_stops)
      (d.reads hl.1 (by omega) (hstops.not_else ds hrest))
      (Declaration.readsIn ds hl.2 (by omega) (by omega) hstops hrest)

end

end Statements
theorem endsList_never : EndsList fun _ => false := fun _ hk => by cases hk

/-- The trees of a list of tokens are what is parsed. -/
theorem TreesOf.parse_eq {tokens : List Token} {ts : List Declaration} (h : TreesOf tokens ts)
    (first : NodeId) :
    parse tokens first = ⟨.ok (Declaration.astIn first ts), first + Declaration.idsIn ts⟩ := by
  have hrest : (Cursor.ofTokens tokens first).rest = Declaration.leavesIn ts := h.leaves.symm
  have hread := Declaration.readsIn ts h.legal (Nat.le_refl _) (Nat.le_refl _) endsList_never
    (.inl rfl) (Cursor.ofTokens tokens first).endLine first []
  rw [List.append_nil, ← hrest] at hread
  have hprogram : Parse.program (Cursor.ofTokens tokens first).rest.length
      (Cursor.ofTokens tokens first) = .ok (Declaration.astIn first ts)
        ⟨[], (Cursor.ofTokens tokens first).endLine, first + Declaration.idsIn ts, []⟩ := hread
  unfold parse
  simp only
  rw [hprogram]
  rfl

/-- The leaves of legal trees have these trees, with an end of the source behind them or without
one. -/
theorem treesOf_leavesIn {ts : List Declaration} (hl : Declaration.AllLegal ts)
    {ending : List Token} (hend : ending = [] ∨ BeginsWith Kind.isEnd ending) :
    TreesOf (Declaration.leavesIn ts ++ ending) ts := by
  refine ⟨hl, ?_⟩
  have hall : ∀ t ∈ Declaration.leavesIn ts, (!t.kind.isEnd) = true := by
    intro t ht
    rw [Declaration.leavesIn_not_end ts t ht]
    rfl
  rw [List.takeWhile_append_of_pos hall]
  rcases hend with rfl | ⟨t, ht, hk⟩
  · rw [List.takeWhile_nil, List.append_nil]
  · cases ending with
    | nil => cases ht
    | cons u us =>
      cases ht
      rw [List.takeWhile_cons_of_neg (by rw [hk]; decide), List.append_nil]

end Concrete

/-- The leaves of trees are parsed as the abstract syntax of these trees, with an end of the source
behind them or without one.  So a name or a property in front of `=` is assigned to, and trees with
the same leaves have the same abstract syntax. -/
theorem parse_complete (first : NodeId) (ending : List Token)
    (hend : ending = [] ∨ BeginsWith Kind.isEnd ending) :
    (∀ ts : List Declaration, Declaration.AllLegal ts →
      parse (Declaration.leavesIn ts ++ ending) first =
        ⟨.ok (Declaration.astIn first ts), first + Declaration.idsIn ts⟩) ∧
    (∀ (name : Name) (equals : Punctuation .equal) (value : Concrete.Expression)
      (semicolon : Punctuation .semicolon), value.Legal →
      (parse (name.token :: equals.token :: (value.leaves ++ semicolon.token :: ending))
          first).result =
        .ok [.expression (.assign (first + 1 + value.ids) name.token (value.ast (first + 1)))]) ∧
    (∀ (object : Call) (dot : Punctuation .dot) (name : Name) (equals : Punctuation .equal)
      (value : Concrete.Expression) (semicolon : Punctuation .semicolon),
      object.Legal → value.Legal →
      (parse (object.leaves ++ dot.token :: name.token :: equals.token ::
          (value.leaves ++ semicolon.token :: ending)) first).result =
        .ok [.expression
          (.set (object.ast first) name.token (value.ast (first + object.ids)))]) ∧
    (∀ ts us : List Declaration, Declaration.AllLegal ts → Declaration.AllLegal us →
      Declaration.leavesIn ts = Declaration.leavesIn us →
      Declaration.astIn first ts = Declaration.astIn first us) := by
  have hparse : ∀ ts : List Declaration, Declaration.AllLegal ts →
      parse (Declaration.leavesIn ts ++ ending) first =
        ⟨.ok (Declaration.astIn first ts), first + Declaration.idsIn ts⟩ := fun ts hl =>
    (treesOf_leavesIn hl hend).parse_eq first
  -- an expression with its semicolon is a program
  have hstmt : ∀ (e : Concrete.Expression) (semicolon : Punctuation .semicolon), e.Legal →
      (parse (e.leaves ++ semicolon.token :: ending) first).result =
        .ok [.expression (e.ast first)] := by
    intro e semicolon hl
    have h := hparse [.statement (.expression e semicolon)] ⟨hl, trivial⟩
    rw [Declaration.leavesIn, Declaration.leavesIn, List.append_nil, Declaration.leaves,
      Statement.leaves, List.append_assoc, List.singleton_append] at h
    rw [h]
    rfl
  refine ⟨hparse, ?_, ?_, ?_⟩
  · intro name equals value semicolon hl
    exact hstmt (.assign name equals value) semicolon hl
  · intro object dot name equals value semicolon hlo hlv
    have h := hstmt (.set object dot name equals value) semicolon ⟨hlo, hlv⟩
    rw [Expression.leaves, List.append_assoc] at h
    exact h
  · intro ts us hts hus hleaves
    -- the parser has one result for the leaves, which is the abstract syntax of both
    have h := hparse ts hts
    rw [hleaves, hparse us hus] at h
    injection h with hresult _
    exact (Except.ok.inj hresult).symm

/-- A word of a text of one line. -/
def nameLeaf (lexeme : String) : Name := ⟨⟨.identifier, lexeme, 1⟩, rfl⟩

/-- A mark of a text of one line. -/
def markLeaf (m : Mark) (lexeme : String) : Punctuation m :=
  ⟨⟨.mark m, lexeme, 1⟩, decide_eq_true rfl⟩

/-- The tree of `nil`. -/
def nilTree : Concrete.Expression :=
  .operation (.operand (.operand (.operand (.operand (.operand (.operand (.call
    (.literal ⟨⟨.keyword .nil_, "nil", 1⟩, rfl⟩))))))))

/-- `x = nil;` and `o.x = nil;`, with the end of the source behind them, are assignments. -/
theorem parse_complete_assigningNil :
    (parse [⟨.identifier, "x", 1⟩, ⟨.mark .equal, "=", 1⟩, ⟨.keyword .nil_, "nil", 1⟩,
        ⟨.mark .semicolon, ";", 1⟩, ⟨.endOfSource, "", 1⟩] 0).result =
      .ok [.expression (.assign 1 ⟨.identifier, "x", 1⟩ (.literal .nil))] ∧
    (parse [⟨.identifier, "o", 1⟩, ⟨.mark .dot, ".", 1⟩, ⟨.identifier, "x", 1⟩,
        ⟨.mark .equal, "=", 1⟩, ⟨.keyword .nil_, "nil", 1⟩, ⟨.mark .semicolon, ";", 1⟩,
        ⟨.endOfSource, "", 1⟩] 0).result =
      .ok [.expression (.set (.var 0 ⟨.identifier, "o", 1⟩) ⟨.identifier, "x", 1⟩
        (.literal .nil))] ∧
    parse [⟨.keyword .nil_, "nil", 1⟩, ⟨.mark .semicolon, ";", 1⟩, ⟨.endOfSource, "", 1⟩] 0 =
      ⟨.ok [.expression (.literal .nil)], 0⟩ := by
  have h := parse_complete 0 [⟨.endOfSource, "", 1⟩] (.inr (.cons rfl))
  have hnil := h.1 [.statement (.expression nilTree (markLeaf .semicolon ";"))] ⟨trivial, trivial⟩
  exact ⟨h.2.1 (nameLeaf "x") (markLeaf .equal "=") nilTree (markLeaf .semicolon ";") trivial,
    h.2.2.1 (.name (nameLeaf "o")) (markLeaf .dot ".") (nameLeaf "x") (markLeaf .equal "=") nilTree
      (markLeaf .semicolon ";") trivial trivial, hnil⟩

end Lox
