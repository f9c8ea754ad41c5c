/-
A descent ends inside the tokens.

The productions of the grammar, read by a descent that does not count the tokens, follow the
readings that do.  So there is a depth from which on a descent through a list of tokens has an
outcome, and it is that of parsing; on its way it never looks past the first end of the source, and
never turns back.

* `Parser.assignment_follows` — expressions;
* `Parser.statement_declaration_follows` — statements and declarations;
* `descent_stays_inside` — a descent through a list of tokens.

Design notes: of the tokens nothing is asked, so that a list may be empty, end without an end of the
source or have several.  A production that nests stands behind a token, so the induction is on the
bound of the tokens ahead; a declaration is only begun before a token, and takes one even if it
fails, since skipping does.
-/
import Lox.Proofs.Syntax.Following

namespace Lox

namespace Parser

/-! ### Expressions -/

section Expressions

variable {stop n limit : Nat} {expression operand : Parse Expr}

/-- Operators of a level: a loop takes one operator each time it goes on. -/
theorem operators_follows {rank : Nat} (hoperand : Follows stop n 1 (operation rank) operand)
    {m : Nat} (hm : m ≤ n) (hlimit : m ≤ limit + 1) (left : Expr) :
    Follows stop m 0 (operators rank left)
      (Parse.leftChain (Kind.hasRank (rank + 1)) (Concrete.operatorNode (rank + 1)) operand limit
        left) := by
  induction m generalizing limit left with
  | zero => exact fun c hc => absurd hc (Nat.not_lt_zero _)
  | succ m ih =>
    refine Follows.congr (fun c hc => ?_) fun c hc => Parse.leftChain_apply (by omega)
    refine .deeper (operators.eq_2 rank left) ?_
    refine .position fun before hbefore => .acceptToken (.pure left) fun operator ts hrest _ => ?_
    rw [hrest, List.length_cons] at hbefore hc
    refine FollowsAt.bind (hoperand { c with rest := ts } (by simp only; omega))
      fun right c' _ hc' => ?_
    simp only at hc'
    -- the operator and its operand are behind the position at which the turn began
    exact .turned .operator (by omega) (ih (by omega) (by omega) _ c' (by omega))

theorem operation_follows (hunary : Follows stop n 1 unary (Parse.operation expression limit 0))
    (hlimit : n ≤ limit + 1) (rank : Nat) :
    Follows stop n 1 (operation rank) (Parse.operation expression limit rank) := by
  induction rank with
  | zero => exact .deeper operation.eq_2 hunary
  | succ rank ih =>
    refine .deeper (operation.eq_3 rank) (ih.bind fun first => ?_)
    exact operators_follows ih (Nat.sub_le n 1) (by omega) first

theorem unary_follows
    (hcall : Follows stop n 1 (fun depth => do suffixes (← primary depth) depth) operand) {m : Nat}
    (hm : m ≤ n) (hlimit : m ≤ limit + 1) : Follows stop m 1 unary (Parse.unary operand limit) := by
  induction m generalizing limit with
  | zero => exact fun c hc => absurd hc (Nat.not_lt_zero _)
  | succ m ih =>
    refine Follows.congr ?_ fun c hc => Parse.unary_apply (by omega)
    refine .deeper unary.eq_2 (.acceptToken (hcall.mono hm) fun operator _ => ?_)
    have hright : Follows stop m 0 unary (Parse.unary operand (limit - 1)) :=
      (ih (by omega) (by omega)).weaken (Nat.zero_le 1)
    exact hright.bind fun right => .pure (Expr.unary operator right)

theorem finishCall_follows (hexpr : Follows stop n 1 assignment expression) (hlimit : n ≤ limit)
    (callee : Expr) :
    Follows stop n 0 (finishCall callee) (Parse.callEnd expression limit callee) := by
  have hargument (count : Nat) :
      Follows stop n 1 (argument count) (Parse.argument expression count) :=
    .deeper (argument.eq_2 count) (hexpr.counted count _)
  have harguments : Follows stop n 1 (arguments 0)
      (Parse.separated (Parse.argument expression) limit 0) :=
    separated_follows arguments.eq_2 hargument (Nat.le_refl n) hlimit 0
  have hlist : Follows stop n 0 argumentList
      (Parse.parenthesized (Parse.argument expression) limit) :=
    .deeper argumentList.eq_2 (parenthesized_follows harguments)
  refine .deeper (finishCall.eq_2 callee) (hlist.bind fun arguments => ?_)
  exact ((consume_follows _ _).weaken (Nat.zero_le 1)).bind fun paren =>
    .pure (Expr.call callee paren arguments)

/-- Calls and properties: a loop takes one parenthesis or dot each time it goes on. -/
theorem suffixes_follows (hexpr : Follows stop n 1 assignment expression) (hlimit : n ≤ limit)
    {m turns : Nat} (hm : m ≤ n + 1) (hturns : m ≤ turns + 1) (e : Expr) :
    Follows stop m 0 (suffixes e) (Parse.suffixes expression limit turns e) := by
  induction m generalizing turns e with
  | zero => exact fun c hc => absurd hc (Nat.not_lt_zero _)
  | succ m ih =>
    refine Follows.congr (fun c hc => ?_) fun c hc => Parse.suffixes_apply (by omega)
    refine .deeper (suffixes.eq_2 e) ?_
    refine .position fun before hbefore => .accept ?_ fun paren ts hrest => ?_
    · refine .accept (.pure e) fun dot ts hrest => ?_
      rw [hrest, List.length_cons] at hbefore hc
      refine FollowsAt.bind (consume_follows (n := m) _ _ _ (by simp only; omega))
        fun name c' _ hc' => ?_
      simp only at hc'
      exact .turned .suffix (by omega) (ih (by omega) (by omega) _ c' (by omega))
    · rw [hrest, List.length_cons] at hbefore hc
      have hcall := (finishCall_follows hexpr hlimit e).mono (show m ≤ n by omega)
      refine FollowsAt.bind (hcall { c with rest := ts } (by simp only; omega)) fun e c' _ hc' => ?_
      simp only at hc'
      exact .turned .suffix (by omega) (ih (by omega) (by omega) _ c' (by omega))

/-- A method of the superclass behind `super`. -/
theorem superEnd_follows (keyword : Token) :
    Follows stop n 0
      (fun _ => do
        let _ ← consume (Kind.isMark .dot) .superDot
        let method ← consume Kind.isIdentifier .superMethodName
        return Expr.superRef (← freshId) keyword method)
      (do
        let _ ← Parse.expect (Kind.isMark .dot) .superDot
        let method ← Parse.expect Kind.isIdentifier .superMethodName
        pure (Expr.superRef (← Parse.freshId) keyword method)) := by
  refine ((consume_follows _ _).weaken (Nat.zero_le 1)).bind fun _ => ?_
  refine ((consume_follows _ _).weaken (Nat.zero_le 1)).bind fun method => ?_
  exact freshId_follows.bind fun id => .pure (Expr.superRef id keyword method)

/-- A group behind its opening parenthesis. -/
theorem groupEnd_follows (hexpr : Follows stop n 1 assignment expression) :
    Follows stop n 0
      (fun depth => do
        let inner ← assignment depth
        let _ ← consume (Kind.isMark .rightParen) .groupClosing
        return Expr.grouping inner)
      (do
        let inner ← expression
        let _ ← Parse.expect (Kind.isMark .rightParen) .groupClosing
        pure (Expr.grouping inner)) :=
  (hexpr.weaken (Nat.zero_le 1)).bind fun inner =>
    ((consume_follows _ _).weaken (Nat.zero_le 1)).bind fun _ => .pure (Expr.grouping inner)

theorem primary_follows (hexpr : Follows stop n 1 assignment expression) :
    Follows stop (n + 1) 1 primary (Parse.primary expression) := by
  intro c hc
  refine .deeper primary.eq_2 (.peek fun t hshown => ?_)
  have hkind : t.kind = c.ahead.kind := by rw [← hshown, kind_shown]
  have hself (h : c.ahead.kind.isEnd = false) : c.ahead = t :=
    hshown.symm.trans (shown_of_not_end (hkind ▸ h))
  have hbehind (h : c.ahead.kind.isEnd = false) : c.rest.tail.length < n := by
    rw [Cursor.rest_of_ahead h, List.length_cons] at hc
    omega
  have hleaf {c : Cursor} (e : Expr) (h : c.ahead.kind.isEnd = false) :
      FollowsAt stop 1 c (fun _ => leaf e) (Parse.leaf e) :=
    .advance (Cursor.rest_of_ahead h) (.pure e)
  -- a number is taken in front of the token, which is still ahead then
  have hnumbered (node : NodeId → Expr) (h : c.ahead.kind.isEnd = false) :
      FollowsAt stop 1 c (fun _ => do leaf (node (← freshId)))
        (do Parse.leaf (node (← Parse.freshId))) := by
    refine FollowsAt.bind (freshId_follows c hc) fun id c' hid _ => ?_
    cases hid
    exact hleaf _ h
  rw [hkind]
  cases hk : c.ahead.kind with
  | number x => exact hleaf _ (congrArg Kind.isEnd hk)
  | string s => exact hleaf _ (congrArg Kind.isEnd hk)
  | identifier =>
    have hend : c.ahead.kind.isEnd = false := congrArg Kind.isEnd hk
    exact hself hend ▸ hnumbered (.var · t) hend
  | endOfSource => exact throw_followsAt hshown _
  | keyword w =>
    have hend : c.ahead.kind.isEnd = false := congrArg Kind.isEnd hk
    cases w with
    | false_ | true_ | nil_ => exact hleaf _ hend
    | this_ => exact hself hend ▸ hnumbered (.thisRef · t) hend
    | super_ =>
      rw [hself hend]
      exact .advance (Cursor.rest_of_ahead hend) (superEnd_follows t _ (hbehind hend))
    | _ => exact throw_followsAt hshown _
  | mark m =>
    have hend : c.ahead.kind.isEnd = false := congrArg Kind.isEnd hk
    cases m with
    | leftParen =>
      exact .advance (Cursor.rest_of_ahead hend) (groupEnd_follows hexpr _ (hbehind hend))
    | _ => exact throw_followsAt hshown _

theorem assignTo_follows (target : Expr) (equals : Token) (value : Expr)
    (hequals : equals.kind.isEnd = false) :
    Follows stop n 0 (fun _ => assignTo target equals value)
      (Parse.assignTo target equals value) := by
  unfold assignTo Parse.assignTo
  have hother (e : Expr) : Follows stop n 0
      (fun _ => do report (blame equals .assignmentTarget); return e)
      (do Parse.report equals .assignmentTarget; pure e) := fun c _ =>
    (report_followsAt (shown_of_not_end hequals) _).bind fun _ _ _ _ => .pure e
  cases target with
  | var id name => exact freshId_follows.bind fun id => .pure (Expr.assign id name value)
  | get object name => exact .pure (Expr.set object name value)
  | _ => exact hother _

/-- Expressions: what nests stands behind a token, so that fewer tokens are ahead of it. -/
theorem assignment_follows (hlimit : n ≤ limit + 1) :
    Follows stop n 1 assignment (Parse.expression limit) := by
  induction n generalizing limit with
  | zero => exact fun c hc => absurd hc (Nat.not_lt_zero _)
  | succ n ih =>
    have hexpr : Follows stop n 1 assignment (Parse.expression (limit - 1)) := ih (by omega)
    have hcall : Follows stop (n + 1) 1 (fun depth => do suffixes (← primary depth) depth)
        (Parse.call (Parse.expression (limit - 1)) limit) :=
      (primary_follows hexpr).bind fun e =>
        suffixes_follows hexpr (by omega) (by omega) (by omega) e
    have hunary := unary_follows hcall (Nat.le_refl _) hlimit
    refine Follows.congr ?_ fun c hc => Parse.expression_apply (by omega)
    unfold Parse.assignment
    -- the six levels of binary operators are one production, by its rank
    rw [Parse.disjunction_eq]
    refine .deeper assignment.eq_2 ?_
    refine (operation_follows hunary hlimit 6).bind fun target => ?_
    refine .acceptToken (.pure target) fun equals hequals => ?_
    have hequals : equals.kind.isEnd = false := by rw [Concrete.eq_of_isMark hequals]; rfl
    have hvalue := (hexpr.mono (show n + 1 - 1 - 1 ≤ n by omega)).weaken (Nat.zero_le 1)
    exact hvalue.bind fun value => assignTo_follows target equals value hequals

end Expressions

/-! ### Declarations and statements -/

section Statements

variable {α : Type} {stop n limit : Nat} {expression : Parse Expr}

theorem consume_any_follows (k : Kind → Bool) (fault : GrammarFault) :
    Follows stop n 0 (fun _ => consume k fault) (Parse.expect k fault) :=
  (consume_follows k fault).weaken (Nat.zero_le 1)

/-- What has a mark behind it is behind that then. -/
theorem terminated_follows {t : Nat → Reading α} {m : Parse α} (h : Follows stop n 0 t m)
    (node : α → Stmt) (fault : GrammarFault) :
    Follows stop n 1
      (fun depth => do
        let a ← t depth
        let _ ← consume (Kind.isMark .semicolon) fault
        return node a)
      (do
        let a ← m
        let _ ← Parse.expect (Kind.isMark .semicolon) fault
        pure (node a)) :=
  h.bind fun a => (consume_follows _ _).bind fun _ => .pure (node a)

theorem expressionUnless_follows (hexpr : Follows stop n 0 assignment expression) (m : Mark) :
    Follows stop n 0 (expressionUnless m) (Parse.expressionUnless m expression) := by
  refine (check_follows _).bind fun b => ?_
  cases b with
  | true => exact .pure none
  | false => exact hexpr.map some

theorem varDeclaration_follows (hexpr : Follows stop n 0 assignment expression) :
    Follows stop n 1 varDeclaration (Parse.varDecl expression) := by
  unfold varDeclaration Parse.varDecl
  refine (consume_follows _ _).bind fun name => ?_
  have hend {m : Nat} (initializer : Option Expr) : Follows stop m 0
      (fun _ => do
        let _ ← consume (Kind.isMark .semicolon) .variableEnd
        return Stmt.varDecl name initializer)
      (do
        let _ ← Parse.expect (Kind.isMark .semicolon) .variableEnd
        pure (Stmt.varDecl name initializer)) :=
    (consume_any_follows _ _).bind fun _ => .pure _
  refine .accept (hend none) fun _ => ?_
  exact ((hexpr.mono (by omega)).map some).bind fun initializer => hend initializer

theorem superclass_follows : Follows stop n 0 (fun _ => superclass) Parse.superclass := by
  refine .accept (.pure none) fun _ => (consume_any_follows _ _).bind fun name => ?_
  exact freshId_follows.bind fun id => .pure (some (Expr.var id name))

theorem forInitializer_follows (hexpr : Follows stop n 0 assignment expression) :
    Follows stop n 0 forInitializer (Parse.forInitializer expression) := by
  refine .accept ?_ fun _ => .pure none
  refine .accept ?_ fun _ => ?_
  · exact ((terminated_follows hexpr .expression _).weaken (Nat.zero_le 1)).map some
  · have hvar := varDeclaration_follows (hexpr.mono (Nat.sub_le n 1))
    exact (hvar.weaken (Nat.zero_le 1)).map some

/-- A descent follows a declaration from every cursor with a token ahead, and takes one. -/
def FollowsDeclaration (stop n : Nat) (declaration : Parse (Option Stmt)) : Prop :=
  ∀ c : Cursor, c.rest.length < n → c.rest ≠ [] →
    FollowsAt stop 1 c Parser.declaration declaration

/-- A declaration that fails takes a token all the same, since at least one is skipped. -/
theorem recover_follows {m : Parse Stmt} (h : Follows stop n 1 unguarded m) :
    FollowsDeclaration stop n (Parse.recover m) := by
  intro c hc hne p hp
  obtain ⟨outcome, p₁, hun, honward, hm⟩ := h c hc p hp
  have hlength : 0 < c.rest.length := List.length_pos_iff.mpr hne
  refine .deeper declaration.eq_2 ?_
  unfold FollowsFrom Parse.recover
  cases hmc : m c with
  | ok s c' =>
    rw [hmc] at hm
    obtain ⟨rfl, hp₁, hc'⟩ := hm
    obtain ⟨p₂, hdeclared, hsees⟩ := declared_tracks hp hp₁ (by omega)
    refine ⟨.ok (some s), p₂, ?_, honward.trans hsees.onward, rfl, hp₁.sees hsees, hc'⟩
    refine .bind_ok (.step rfl) (.bind_ok hun.observing ?_)
    exact .bind_ok (.step hdeclared) (.step rfl)
  | error d c' =>
    rw [hmc] at hm
    obtain ⟨rfl, hp₁⟩ := hm
    -- where it failed there may be as many tokens ahead as before, but one of them is skipped
    have hlength' := hp.length_le hp₁ honward
    have hresume := Parse.length_resume_le c'.rest
    have hreported : p₁.Onward { p₁ with faults := d :: p₁.faults } :=
      .quiet rfl (Nat.le_refl _) rfl
    obtain ⟨p₂, hsynchronize, hp₂, honward₂⟩ := synchronize_tracks (hp₁.report d)
    obtain ⟨p₃, hdeclared, hsees⟩ := declared_tracks hp hp₂ (by simp only; omega)
    refine ⟨.ok none, p₃, ?_, ?_, rfl, hp₂.sees hsees, by simp only; omega⟩
    · refine .bind_ok (.step rfl) (.bind_ok hun.observing ?_)
      refine .bind_ok (.step rfl) (.bind_ok hsynchronize ?_)
      exact .bind_ok (.step hdeclared) (.step rfl)
    · exact honward.trans (hreported.trans (honward₂.trans hsees.onward))

section

variable {statement : Parse Stmt} {declaration : Parse (Option Stmt)}

theorem declarations_follows (hdecl : FollowsDeclaration stop n declaration) (loop : Loop)
    (stops : Kind → Bool) (hlimit : n ≤ limit + 1) :
    Follows stop n 0 (declarations loop stops) (Parse.declarations declaration stops limit) := by
  refine items_follows (declarations.eq_2 loop stops) (fun limit c hc => ?_) hdecl (Nat.le_refl n)
    hlimit
  refine (Parse.declarations_apply hc).trans (congrFun ?_ c)
  refine congrArg (Parse.atEnd >>= ·) (funext fun _ =>
    congrArg (Parse.isAhead stops >>= ·) (funext fun _ => ?_))
  split
  · rfl
  · refine congrArg (declaration >>= ·) (funext fun first => ?_)
    refine congrArg (_ >>= ·) (funext fun _ => ?_)
    cases first <;> rfl

theorem block_follows (hdecl : FollowsDeclaration stop n declaration) (hlimit : n ≤ limit + 1) :
    Follows stop n 0 block (Parse.blockEnd declaration limit) := by
  refine .deeper block.eq_2 ((declarations_follows hdecl _ _ hlimit).bind fun body => ?_)
  exact (consume_any_follows _ _).bind fun _ => .pure body

theorem function_follows (hdecl : FollowsDeclaration stop n declaration) (hlimit : n ≤ limit)
    (kind : RoutineKind) :
    Follows stop n 1 (function kind) (Parse.function declaration limit kind) := by
  have hparameter (count : Nat) :
      Follows stop n 1 (fun _ => parameter count) (Parse.parameter count) :=
    (consume_follows _ _).counted count _
  have hparameters : Follows stop n 0 parameterList (Parse.parenthesized Parse.parameter limit) :=
    parenthesized_follows
      (separated_follows parameters.eq_2 hparameter (Nat.le_refl n) hlimit 0)
  refine .deeper (function.eq_2 kind) ?_
  refine (consume_follows _ _).bind fun name => (consume_any_follows _ _).bind fun _ => ?_
  refine (hparameters.mono (by omega)).bind fun params => ?_
  refine (consume_any_follows _ _).bind fun _ => (consume_any_follows _ _).bind fun _ => ?_
  have hbody := block_follows hdecl (Nat.le_succ_of_le hlimit)
  exact (hbody.mono (by omega)).bind fun body => .pure (FunDecl.mk name params body)

theorem methods_follows (hdecl : FollowsDeclaration stop n declaration) (hlimit : n ≤ limit) :
    Follows stop n 0 methods
      (Parse.methods (Parse.function declaration limit .method) limit) :=
  items_follows methods.eq_2 (fun _ _ hc => Parse.methods_apply hc)
    (fun c hc _ => function_follows hdecl hlimit .method c hc) (Nat.le_refl n)
    (Nat.le_succ_of_le hlimit)

theorem classDeclaration_follows (hdecl : FollowsDeclaration stop n declaration)
    (hlimit : n ≤ limit) :
    Follows stop n 0 classDeclaration (Parse.classDecl declaration limit) := by
  refine .deeper classDeclaration.eq_2 ?_
  refine (consume_any_follows _ _).bind fun name => superclass_follows.bind fun superclass => ?_
  refine (consume_any_follows _ _).bind fun _ => ?_
  refine (methods_follows hdecl hlimit).bind fun methods => ?_
  exact (consume_any_follows _ _).bind fun _ => .pure (Stmt.classDecl name superclass methods)

variable (hexpr : Follows stop n 0 assignment expression)
variable (hstmt : Follows stop n 0 Parser.statement statement)

include hexpr hstmt

theorem ifStatement_follows :
    Follows stop n 0 ifStatement (Parse.ifStmt expression statement) := by
  refine .deeper ifStatement.eq_2 ?_
  refine (consume_any_follows _ _).bind fun _ => hexpr.bind fun condition => ?_
  refine (consume_any_follows _ _).bind fun _ => hstmt.bind fun thenBranch => ?_
  refine .accept (.pure (Stmt.branch condition thenBranch none)) fun _ => ?_
  exact (hstmt.mono (by omega)).bind fun elseBranch =>
    .pure (Stmt.branch condition thenBranch (some elseBranch))

theorem whileStatement_follows :
    Follows stop n 0 whileStatement (Parse.whileStmt expression statement) := by
  refine .deeper whileStatement.eq_2 ?_
  refine (consume_any_follows _ _).bind fun _ => hexpr.bind fun condition => ?_
  exact (consume_any_follows _ _).bind fun _ => hstmt.bind fun body =>
    .pure (Stmt.loop condition body)

theorem forStatement_follows :
    Follows stop n 0 forStatement (Parse.forStmt expression statement) := by
  refine .deeper forStatement.eq_2 ?_
  refine (consume_any_follows _ _).bind fun _ => ?_
  refine (forInitializer_follows hexpr).bind fun initializer => ?_
  refine (expressionUnless_follows hexpr _).bind fun condition => ?_
  refine (consume_any_follows _ _).bind fun _ => ?_
  refine (expressionUnless_follows hexpr _).bind fun increment => ?_
  exact (consume_any_follows _ _).bind fun _ => hstmt.bind fun body =>
    .pure (Stmt.forLoop initializer condition increment body)

end

/-- A statement at a limit, given the statements and declarations that nest inside of it. -/
theorem statementWith_follows {statement : Parse Stmt} {declaration : Parse (Option Stmt)}
    (hstmt : Follows stop n 0 Parser.statement statement)
    (hdecl : FollowsDeclaration stop n declaration) (hlimit : n ≤ limit) :
    Follows stop (n + 1) 1 Parser.statement (Parse.statementWith limit statement declaration) := by
  have hexpr : Follows stop (n + 1) 1 assignment (Parse.expression limit) :=
    assignment_follows (Nat.succ_le_succ hlimit)
  have hinner : Follows stop n 0 assignment (Parse.expression limit) :=
    (hexpr.mono (Nat.le_succ n)).weaken (Nat.zero_le 1)
  have hreturn (keyword : Token) := terminated_follows
    (expressionUnless_follows hinner .semicolon) (.ret keyword) .returnEnd
  have hprint := terminated_follows hinner .print .printEnd
  intro c hc
  refine .deeper Parser.statement.eq_2 ?_
  refine .ofPeek ?_
  -- the descent asks for one kind after the other, up to that of the token ahead
  split
  · next h => exact .take h rfl rfl hc (forStatement_follows hinner hstmt)
  · next h => exact .pass h rfl (.take h rfl rfl hc (ifStatement_follows hinner hstmt))
  · next h =>
    exact .pass h rfl (.pass h rfl (.take h rfl rfl hc (whileStatement_follows hinner hstmt)))
  · next h =>
    refine .pass h rfl (.pass h rfl (.pass h rfl (.takeToken h rfl rfl hc ?_)))
    exact (hreturn c.ahead).weaken (Nat.zero_le 1)
  · next h =>
    refine .pass h rfl (.pass h rfl (.pass h rfl (.pass h rfl (.take h rfl rfl hc ?_))))
    exact (block_follows hdecl (Nat.le_succ_of_le hlimit)).map _
  · next h =>
    refine .pass h rfl (.pass h rfl (.pass h rfl (.pass h rfl (.pass h rfl ?_))))
    refine .take h rfl rfl hc ?_
    exact hprint.weaken (Nat.zero_le 1)
  · next hfor hif hwhile hreturn hbrace hprint =>
    refine .leave (Cursor.not_offers_keyword hfor) (.leave (Cursor.not_offers_keyword hif) ?_)
    refine .leave (Cursor.not_offers_keyword hwhile) (.leave (Cursor.not_offers_keyword hreturn) ?_)
    refine .leave (Cursor.not_offers_mark hbrace) (.leave (Cursor.not_offers_keyword hprint) ?_)
    exact terminated_follows (hexpr.weaken (Nat.zero_le 1)) .expression .expressionEnd c hc

/-- A declaration at a limit, given the statements and declarations that nest inside of it. -/
theorem declarationWith_follows {statement : Parse Stmt} {declaration : Parse (Option Stmt)}
    (hstmt : Follows stop n 0 Parser.statement statement)
    (hdecl : FollowsDeclaration stop n declaration) (hlimit : n ≤ limit) :
    Follows stop (n + 1) 1 unguarded (Parse.declarationWith limit statement declaration) := by
  have hinner : Follows stop n 0 assignment (Parse.expression limit) :=
    (assignment_follows (Nat.le_succ_of_le hlimit)).weaken (Nat.zero_le 1)
  intro c hc
  refine .deeper unguarded.eq_2 ?_
  refine .ofPeek ?_
  split
  · next h => exact .take h rfl rfl hc (classDeclaration_follows hdecl hlimit)
  · next h =>
    have hfunction := (function_follows hdecl hlimit .function).weaken (Nat.zero_le 1)
    exact .pass h rfl (.take h rfl rfl hc (hfunction.map _))
  · next h =>
    have hvar := (varDeclaration_follows hinner).weaken (Nat.zero_le 1)
    exact .pass h rfl (.pass h rfl (.take h rfl rfl hc hvar))
  · next hclass hfun hvar =>
    refine .leave (Cursor.not_offers_keyword hclass) (.leave (Cursor.not_offers_keyword hfun) ?_)
    refine .leave (Cursor.not_offers_keyword hvar) ?_
    exact statementWith_follows hstmt hdecl hlimit c hc

/-- Statements and declarations nest in each other, so both are shown at once. -/
theorem statement_declaration_follows (hlimit : n ≤ limit + 1) :
    Follows stop n 1 statement (Parse.statement limit) ∧
      FollowsDeclaration stop n (Parse.declaration limit) := by
  induction n generalizing limit with
  | zero =>
    exact ⟨fun c hc => absurd hc (Nat.not_lt_zero _), fun c hc => absurd hc (Nat.not_lt_zero _)⟩
  | succ n ih =>
    have hinner : n ≤ limit - 1 + 1 := by omega
    obtain ⟨hstmt, hdecl⟩ := ih hinner
    have hstmt := hstmt.weaken (Nat.zero_le 1)
    have hn : n ≤ limit := Nat.le_of_succ_le_succ hlimit
    constructor
    · refine (statementWith_follows hstmt hdecl hn).congr fun c hc => ?_
      -- a limit that is zero is reached at the end only, where every statement fails alike
      cases limit with
      | zero =>
        have hrest := List.length_eq_zero_iff.mp (Nat.le_zero.mp (by omega : c.rest.length ≤ 0))
        rw [Parse.statement_at_end hrest, Parse.statementWith_at_end hrest]
      | succ limit => rw [Parse.statement, Nat.add_sub_cancel]
    · intro c hc hne
      have hlength := List.length_pos_iff.mpr hne
      obtain ⟨limit, rfl⟩ : ∃ m, limit = m + 1 := ⟨limit - 1, by omega⟩
      rw [Parse.declaration]
      exact recover_follows (declarationWith_follows hstmt hdecl hn) c hc hne

theorem program_follows (hlimit : n ≤ limit + 1) :
    Follows stop n 0 program (Parse.program limit) :=
  declarations_follows (statement_declaration_follows hlimit).2 _ _ hlimit

end Statements

/-! ### Lists of tokens -/

section Tokens

variable (tokens : List Token) (firstId : NodeId)

/-- The tokens of a descent are those ahead of the cursor, an end of the source on the same line,
and others. -/
theorem new_tokens :
    let c := Cursor.ofTokens tokens firstId
    ∃ last beyond, (new tokens firstId).tokens = c.rest ++ last :: beyond ∧
      last.kind.isEnd = true ∧ last.line = c.endLine := by
  intro c
  cases hfind : tokens.find? fun t => t.kind.isEnd with
  | some last =>
    -- the end stands in the list, and with it one that is added behind the list
    obtain ⟨hend, front, back, rfl, hfront⟩ := List.find?_eq_some_iff_append.mp hfind
    have hrest : c.rest = front := by
      show List.takeWhile _ (front ++ last :: back) = front
      rw [List.takeWhile_append_of_pos fun t ht => hfront t ht,
        List.takeWhile_cons_of_neg (by simp [hend]), List.append_nil]
    have hline : last.line = c.endLine := by
      unfold c Cursor.ofTokens
      simp only [hfind]
    unfold new
    simp only
    rw [hrest]
    split
    · exact ⟨last, back, rfl, hend, hline⟩
    · exact ⟨last, back ++ [_], by rw [List.append_assoc, List.cons_append], hend, hline⟩
  | none =>
    have hproper := List.find?_eq_none.mp hfind
    have hrest : c.rest = tokens := by
      have htake : List.takeWhile (fun t : Token => !t.kind.isEnd) (tokens ++ []) =
          tokens ++ List.takeWhile (fun t : Token => !t.kind.isEnd) [] :=
        List.takeWhile_append_of_pos fun t ht => by simpa using hproper t ht
      rwa [List.append_nil, List.takeWhile_nil, List.append_nil] at htake
    have hlast : (tokens.getLast?.any fun t => t.kind.isEnd) = false := by
      cases hlast : tokens.getLast? with
      | none => rfl
      | some t => simpa using hproper t (List.mem_of_getLast? hlast)
    unfold new
    simp only [hlast, Bool.false_eq_true, if_false]
    refine ⟨_, [], by rw [hrest], rfl, ?_⟩
    unfold c Cursor.ofTokens
    simp only [hfind]

/-- No end of the source is ahead of the cursor. -/
theorem ofTokens_proper :
    ∀ t ∈ (Cursor.ofTokens tokens firstId).rest, t.kind.isEnd = false := by
  have hall : (tokens.takeWhile fun t => !t.kind.isEnd).all (fun t => !t.kind.isEnd) = true :=
    List.all_takeWhile
  intro t ht
  simpa using List.all_eq_true.mp hall t ht

theorem stop_new :
    (new tokens firstId).stop = (Cursor.ofTokens tokens firstId).rest.length := by
  obtain ⟨last, beyond, htokens, hend, -⟩ := new_tokens tokens firstId
  have hfront := List.findIdx_eq_length_of_false (ofTokens_proper tokens firstId)
  unfold stop
  rw [htokens, List.findIdx_append, hfront, if_neg (Nat.lt_irrefl _), List.findIdx_cons, hend]
  exact Nat.zero_add _

theorem tracks_new :
    Tracks (new tokens firstId).stop (new tokens firstId) (Cursor.ofTokens tokens firstId) where
  stop_eq := by
    rw [stop_new]
    exact Nat.zero_add _
  ahead := new_tokens tokens firstId
  proper := ofTokens_proper tokens firstId
  nextId := rfl
  faults := rfl

/-- From some depth on, what comes of a descent is what comes of parsing. -/
theorem parse_new :
    ∃ finish enough,
      (∀ depth, enough ≤ depth →
        (new tokens firstId).parse depth = some (Lox.parse tokens firstId, finish)) ∧
      (new tokens firstId).Onward finish ∧ finish.current ≤ (new tokens firstId).stop := by
  let c := Cursor.ofTokens tokens firstId
  have hfollows : Follows (new tokens firstId).stop (c.rest.length + 1) 0 program
      (Parse.program c.rest.length) := program_follows (Nat.le_refl _)
  obtain ⟨outcome, finish, ⟨enough, hprogram⟩, honward, h⟩ :=
    hfollows c (Nat.lt_succ_self _) _ (tracks_new tokens firstId)
  unfold parse Lox.parse
  cases hmodel : Parse.program c.rest.length c with
  | ok statements c' =>
    rw [hmodel] at h
    obtain ⟨rfl, htracks, -⟩ := h
    refine ⟨finish, enough, fun depth hdepth => ?_, honward, Nat.le.intro htracks.stop_eq⟩
    rw [hprogram depth hdepth]
    simp only [c, hmodel, ← htracks.faults, ← htracks.nextId]
    rfl
  | error fault c' =>
    rw [hmodel] at h
    obtain ⟨rfl, htracks⟩ := h
    refine ⟨finish, enough, fun depth hdepth => ?_, honward, Nat.le.intro htracks.stop_eq⟩
    rw [hprogram depth hdepth]
    simp only [c, hmodel, ← htracks.faults, ← htracks.nextId]
    rfl

end Tokens

end Parser

/-- A descent through any list of tokens ends, with the outcome of parsing: its calls nest no deeper
than some depth.  It never looks past the first end of the source, and never moves back; every
declaration, well-formed or not, and every turn of a loop behind which the loop goes on, leads past
one token at least. -/
theorem descent_stays_inside (tokens : List Token) (firstId : NodeId) :
    let start := Parser.new tokens firstId
    start.stop < start.tokens.length ∧
    ∃ finish enough,
      (∀ depth, enough ≤ depth → start.parse depth = some (parse tokens firstId, finish)) ∧
      finish.tokens = start.tokens ∧
      finish.notes.Pairwise (fun later earlier => earlier.position ≤ later.position) ∧
      (∀ note ∈ finish.notes, note.position ≤ start.stop) ∧
      (∀ current index, .looked current index ∈ finish.notes →
        index ≤ current ∧ index < start.tokens.length) ∧
      (∀ before after, .declared before after ∈ finish.notes → before < after) ∧
      (∀ loop before after, .turned loop before after ∈ finish.notes → before < after) := by
  intro start
  have hstop : start.stop < start.tokens.length := by
    obtain ⟨last, beyond, htokens, -⟩ := Parser.new_tokens tokens firstId
    rw [show start.stop = _ from Parser.stop_new tokens firstId,
      show start.tokens = _ from htokens, List.length_append, List.length_cons]
    omega
  obtain ⟨finish, enough, hparse, ⟨notes, hpasses⟩, hcurrent⟩ := Parser.parse_new tokens firstId
  have hnotes : finish.notes = notes := hpasses.notes.trans (List.append_nil notes)
  have hposition : ∀ note ∈ notes, note.position ≤ start.stop := fun note hn =>
    Nat.le_trans (hpasses.within note hn).2 hcurrent
  refine ⟨hstop, finish, enough, hparse, hpasses.tokens, ?_⟩
  rw [hnotes]
  refine ⟨hpasses.ordered, hposition, fun current index hn => ?_, fun before after hn =>
    hpasses.forward _ hn, fun loop before after hn => hpasses.forward _ hn⟩
  have hindex : index ≤ current := hpasses.forward _ hn
  have hcurrent : current ≤ start.stop := hposition _ hn
  exact ⟨hindex, by omega⟩

end Lox
