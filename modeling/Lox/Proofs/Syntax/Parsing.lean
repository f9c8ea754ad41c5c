/-
What the parser yields.

`Parse.Ensures first p post` says that a reading `p` that begins with the node number `first`, on
genuine tokens, keeps the remaining tokens genuine, never lowers the number for the next node, and,
when it succeeds, has a result for which `post` holds.

* `parse_proper` — the statements that are parsed from genuine tokens are proper, and their
  occurrences are numbered between the first number and the next one;
* `parse_nextId_le` — parsing never lowers the number for the next node, not even when it fails.

Design notes: every production has one lemma of its shape, stated for all numbers to begin with,
so that productions are put together by `Ensures.bind`, and by `Ensures.pass` or `Ensures.skip`
behind a reading that takes no number.
-/
import Lox.Proofs.Syntax.Proper
import Lox.Syntax.Grammar

namespace Lox

/-- All tokens ahead are genuine. -/
def Cursor.Genuine (c : Cursor) : Prop :=
  ∀ t ∈ c.rest, t.Genuine

namespace Parse

/-- What holds of every reading that begins with the node number `first`. -/
def Ensures {α : Type} (first : Nat) (p : Parse α) (post : α → Nat → Prop) : Prop :=
  ∀ c : Cursor, c.nextId = first → c.Genuine →
    match p c with
    | .ok a c' => first ≤ c'.nextId ∧ c'.Genuine ∧ post a c'.nextId
    | .error _ c' => first ≤ c'.nextId ∧ c'.Genuine

section Rules

variable {α β : Type} {first : Nat} {p : Parse α} {post : α → Nat → Prop}

theorem Ensures.pure {a : α} (h : post a first) : Ensures first (pure a) post := by
  intro c hc hg
  exact ⟨Nat.le_of_eq hc.symm, hg, hc ▸ h⟩

theorem Ensures.bind {next : α → Parse β} {post' : β → Nat → Prop} (hp : Ensures first p post)
    (hnext : ∀ a middle, first ≤ middle → post a middle → Ensures middle (next a) post') :
    Ensures first (p >>= next) post' := by
  intro c hc hg
  have h := hp c hc hg
  rw [bind_apply]
  cases hpc : p c with
  | error d c' =>
    rw [hpc] at h
    exact h
  | ok a c' =>
    rw [hpc] at h
    obtain ⟨hle, hg', hpost⟩ := h
    have h' := hnext a c'.nextId hle hpost c' rfl hg'
    cases hn : next a c' with
    | error d c'' =>
      simp only [hn] at h' ⊢
      exact ⟨Nat.le_trans hle h'.1, h'.2⟩
    | ok b c'' =>
      simp only [hn] at h' ⊢
      exact ⟨Nat.le_trans hle h'.1, h'.2⟩

theorem Ensures.weaken {post' : α → Nat → Prop} (hp : Ensures first p post)
    (h : ∀ a next, first ≤ next → post a next → post' a next) : Ensures first p post' := by
  intro c hc hg
  have := hp c hc hg
  cases hpc : p c with
  | error d c' =>
    rw [hpc] at this
    exact this
  | ok a c' =>
    rw [hpc] at this
    exact ⟨this.1, this.2.1, h a _ this.1 this.2.2⟩

theorem Ensures.map {f : α → β} {post' : β → Nat → Prop} (hp : Ensures first p post)
    (h : ∀ a next, first ≤ next → post a next → post' (f a) next) :
    Ensures first (f <$> p) post' := by
  rw [map_eq_pure_bind]
  exact hp.bind fun a next hle ha => Ensures.pure (h a next hle ha)

/-- A reading that takes no number, and another one behind it. -/
theorem Ensures.pass {q : α → Prop} {next : α → Parse β} {post' : β → Nat → Prop}
    (hp : Ensures first p fun a middle => middle = first ∧ q a)
    (hnext : ∀ a, q a → Ensures first (next a) post') : Ensures first (p >>= next) post' :=
  hp.bind fun a _ _ h => h.1 ▸ hnext a h.2

/-- A reading that takes no number, and of which nothing else is known. -/
theorem Ensures.skip {next : α → Parse β} {post' : β → Nat → Prop}
    (hp : Ensures first p fun _ middle => middle = first)
    (hnext : ∀ a, Ensures first (next a) post') : Ensures first (p >>= next) post' :=
  hp.bind fun a _ _ h => h ▸ hnext a

end Rules

/-! ### The primitives of the cursor -/

section Primitives

variable {first : Nat}

theorem peek_ensures : Ensures first peek fun t next => next = first ∧ t.Genuine := by
  intro c hc hg
  refine ⟨Nat.le_of_eq hc.symm, hg, hc, ?_⟩
  unfold Cursor.ahead
  cases hr : c.rest with
  | nil => trivial
  | cons t ts => exact hg t (by simp [hr])

theorem isAhead_ensures (k : Kind → Bool) :
    Ensures first (isAhead k) fun _ next => next = first := by
  intro c hc hg
  unfold isAhead
  cases hr : c.rest with
  | nil => exact ⟨Nat.le_of_eq hc.symm, hg, hc⟩
  | cons t ts => exact ⟨Nat.le_of_eq hc.symm, hg, hc⟩

theorem atEnd_ensures : Ensures first atEnd fun _ next => next = first := by
  intro c hc hg
  exact ⟨Nat.le_of_eq hc.symm, hg, hc⟩

theorem advance_ensures : Ensures first advance fun _ next => next = first := by
  intro c hc hg
  exact ⟨Nat.le_of_eq hc.symm, fun t ht => hg t (List.mem_of_mem_tail ht), hc⟩

theorem accept_ensures (k : Kind → Bool) : Ensures first (accept k) fun t? next =>
    next = first ∧ ∀ t, t? = some t → k t.kind = true ∧ t.Genuine := by
  intro c hc hg
  unfold accept
  cases hr : c.rest with
  | nil => exact ⟨Nat.le_of_eq hc.symm, hg, hc, by simp⟩
  | cons t ts =>
    have ht : t.Genuine := hg t (by simp [hr])
    have hts : ∀ u ∈ ts, u.Genuine := fun u hu => hg u (by simp [hr, hu])
    by_cases hk : k t.kind = true
    · simp only [hk, if_true]
      refine ⟨Nat.le_of_eq hc.symm, hts, hc, fun u hu => ?_⟩
      cases hu
      exact ⟨hk, ht⟩
    · simp only [hk]
      exact ⟨Nat.le_of_eq hc.symm, hg, hc, by simp⟩

theorem failAt_ensures {α : Type} {post : α → Nat → Prop} (t : Token) (fault : GrammarFault) :
    Ensures first (failAt t fault) post :=
  fun _ hc hg => ⟨Nat.le_of_eq hc.symm, hg⟩

theorem fail_ensures {α : Type} {post : α → Nat → Prop} (fault : GrammarFault) :
    Ensures first (fail fault) post :=
  fun _ hc hg => ⟨Nat.le_of_eq hc.symm, hg⟩

theorem expect_ensures (k : Kind → Bool) (fault : GrammarFault) :
    Ensures first (expect k fault) fun t next => next = first ∧ k t.kind = true ∧ t.Genuine := by
  refine (accept_ensures k).pass fun t? h => ?_
  cases t? with
  | none => exact fail_ensures fault
  | some t => exact Ensures.pure ⟨rfl, h t rfl⟩

theorem isName_of_isIdentifier {t : Token} (hk : t.kind.isIdentifier = true) (hg : t.Genuine) :
    t.IsName := by
  refine ⟨?_, hg⟩
  cases h : t.kind <;> simp_all [Kind.isIdentifier]

theorem expectName_ensures (fault : GrammarFault) :
    Ensures first (expect Kind.isIdentifier fault) fun t next => next = first ∧ t.IsName :=
  (expect_ensures _ fault).weaken fun _ _ _ h => ⟨h.1, isName_of_isIdentifier h.2.1 h.2.2⟩

theorem report_ensures (t : Token) (fault : GrammarFault) :
    Ensures first (report t fault) fun _ next => next = first :=
  fun _ hc hg => ⟨Nat.le_of_eq hc.symm, hg, hc⟩

theorem freshId_ensures : Ensures first freshId fun id next => id = first ∧ next = first + 1 := by
  intro c hc hg
  exact ⟨by simp [hc], hg, hc, by simp [hc]⟩

theorem recover_ensures {α : Type} {p : Parse α} {post : α → Nat → Prop}
    (hp : Ensures first p post) :
    Ensures first (recover p) fun a? next => ∀ a, a? = some a → post a next := by
  intro c hc hg
  have h := hp c hc hg
  unfold recover
  cases hpc : p c with
  | ok a c' =>
    rw [hpc] at h
    refine ⟨h.1, h.2.1, fun b hb => ?_⟩
    cases hb
    exact h.2.2
  | error d c' =>
    rw [hpc] at h
    exact ⟨h.1, fun t ht => h.2 t ((resume_suffix c'.rest).subset ht), by simp⟩

end Primitives

/-! ### Lists -/

section Lists

variable {α : Type} {item : Nat → Parse α} {one : Nat → α → Nat → Prop}
  (many : Nat → List α → Nat → Prop)

/-- Items that are read one after the other make up what `many` says of them, if it holds of one
item and goes on holding with one more in front. -/
theorem separated_ensures (hitem : ∀ before first, Ensures first (item before) (one first))
    (hone : ∀ first a next, one first a next → many first [a] next)
    (hcons : ∀ first a middle as next, first ≤ middle → middle ≤ next → one first a middle →
      many middle as next → many first (a :: as) next) (limit before first : Nat) :
    Ensures first (separated item limit before) (many first) := by
  induction limit generalizing before first with
  | zero => exact (hitem before first).bind fun a next _ ha => Ensures.pure (hone first a next ha)
  | succ limit ih =>
    refine (hitem before first).bind fun a middle hle ha => ?_
    refine (accept_ensures _).pass fun comma? _ => ?_
    cases comma? with
    | none => exact Ensures.pure (hone first a middle ha)
    | some comma =>
      refine (ih (before + 1) middle).bind fun as next hle' has => ?_
      exact Ensures.pure (hcons first a middle as next hle hle' ha has)

theorem parenthesized_ensures (hitem : ∀ before first, Ensures first (item before) (one first))
    (hone : ∀ first a next, one first a next → many first [a] next)
    (hcons : ∀ first a middle as next, first ≤ middle → middle ≤ next → one first a middle →
      many middle as next → many first (a :: as) next) (hnil : ∀ first, many first [] first)
    (limit first : Nat) : Ensures first (parenthesized item limit) (many first) := by
  refine (isAhead_ensures _).skip fun b => ?_
  cases b with
  | true => exact Ensures.pure (hnil first)
  | false => exact separated_ensures many hitem hone hcons limit 0 first

end Lists

/-! ### Expressions -/

/-- A reading of expressions yields trees whose occurrences are numbered. -/
def ReadsExpr (p : Parse Expr) : Prop :=
  ∀ first, Ensures first p fun e next => Numbered first next e.occurrences

section Expressions

variable {expression operand : Parse Expr} {first : Nat}

/-- A node of two operands has the occurrences of both. -/
def JoinsOccurrences (node : Expr → Token → Expr → Expr) : Prop :=
  ∀ left operator right,
    (node left operator right).occurrences = left.occurrences ++ right.occurrences

theorem joins_binary : JoinsOccurrences .binary := fun _ _ _ => rfl

theorem joins_logical : JoinsOccurrences .logical := fun _ _ _ => rfl

theorem leftChain_ensures {operators : Kind → Bool} {node : Expr → Token → Expr → Expr}
    (hnode : JoinsOccurrences node) (hoperand : ReadsExpr operand) (limit : Nat) {begin : Nat}
    (left : Expr) (hb : begin ≤ first) (hleft : Numbered begin first left.occurrences) :
    Ensures first (leftChain operators node operand limit left)
      fun e next => Numbered begin next e.occurrences := by
  induction limit generalizing first left with
  | zero => exact Ensures.pure hleft
  | succ limit ih =>
    refine (accept_ensures _).pass fun operator? _ => ?_
    cases operator? with
    | none => exact Ensures.pure hleft
    | some operator =>
      refine (hoperand first).bind fun right next hle hright => ?_
      refine ih (node left operator right) (Nat.le_trans hb hle) ?_
      rw [hnode]
      exact hleft.append hright hb hle

theorem level_reads {operators : Kind → Bool} {node : Expr → Token → Expr → Expr}
    (hnode : JoinsOccurrences node) (limit : Nat) (hoperand : ReadsExpr operand) :
    ReadsExpr (level operators node limit operand) := by
  intro first
  refine (hoperand first).bind fun e middle hle he => ?_
  exact leftChain_ensures hnode hoperand limit e hle he

theorem argument_reads (hexpr : ReadsExpr expression) (before : Nat) :
    ReadsExpr (argument expression before) := by
  intro first
  unfold argument
  by_cases hmax : maxArguments ≤ before
  · simp only [hmax, if_true]
    refine peek_ensures.pass fun t _ => ?_
    refine (report_ensures t _).skip fun _ => ?_
    exact hexpr first
  · simp only [hmax, if_false]
    exact hexpr first

theorem arguments_ensures (hexpr : ReadsExpr expression) (limit : Nat) :
    Ensures first (parenthesized (argument expression) limit)
      fun es next => Numbered first next (Expr.occurrencesIn es) := by
  refine parenthesized_ensures (fun first es next => Numbered first next (Expr.occurrencesIn es))
    (fun before first => argument_reads hexpr before first) ?_ ?_ ?_ limit first
  · intro first e next he
    simpa [Expr.occurrencesIn] using he
  · intro first e middle es next hle hle' he hes
    exact he.append hes hle hle'
  · intro first
    exact Numbered.nil

theorem callEnd_ensures (hexpr : ReadsExpr expression) (limit : Nat) {begin : Nat} (callee : Expr)
    (hb : begin ≤ first) (hcallee : Numbered begin first callee.occurrences) :
    Ensures first (callEnd expression limit callee)
      fun e next => Numbered begin next e.occurrences := by
  refine (arguments_ensures hexpr limit).bind fun es middle hle hes => ?_
  refine (expect_ensures _ _).pass fun paren _ => ?_
  exact Ensures.pure (hcallee.append hes hb hle)

theorem leaf_ensures {begin : Nat} (e : Expr) (he : Numbered begin first e.occurrences) :
    Ensures first (leaf e) fun e next => Numbered begin next e.occurrences := by
  refine advance_ensures.skip fun _ => ?_
  exact Ensures.pure he

/-- A node of one occurrence, which has the next number. -/
theorem fresh_numbered {begin : Nat} {id : NodeId} {kind : OccurrenceKind} {t : Token}
    (hb : begin ≤ first) (hid : id = first) (ho : Occurrence.Proper ⟨id, kind, t⟩) :
    Numbered begin (first + 1) [⟨id, kind, t⟩] := by
  subst hid
  exact Numbered.single hb (Nat.lt_succ_self _) ho

theorem primary_reads (hexpr : ReadsExpr expression) : ReadsExpr (primary expression) := by
  intro first
  refine peek_ensures.pass fun t ht => ?_
  split
  · exact leaf_ensures _ Numbered.nil
  · exact leaf_ensures _ Numbered.nil
  · exact leaf_ensures _ Numbered.nil
  · exact leaf_ensures _ Numbered.nil
  · exact leaf_ensures _ Numbered.nil
  · next hk =>
    refine freshId_ensures.bind fun id next _ h => ?_
    obtain ⟨hid, rfl⟩ := h
    exact leaf_ensures _ (fresh_numbered (Nat.le_refl _) hid ⟨hk, ht⟩)
  · next hk =>
    refine freshId_ensures.bind fun id next _ h => ?_
    obtain ⟨hid, rfl⟩ := h
    exact leaf_ensures _ (fresh_numbered (Nat.le_refl _) hid ⟨hk, ht⟩)
  · next hk =>
    refine advance_ensures.skip fun _ => ?_
    refine (expect_ensures _ _).pass fun _ _ => ?_
    refine (expect_ensures _ _).pass fun method _ => ?_
    refine freshId_ensures.bind fun id next _ h => ?_
    obtain ⟨hid, rfl⟩ := h
    exact Ensures.pure (fresh_numbered (Nat.le_refl _) hid ⟨hk, ht⟩)
  · refine advance_ensures.skip fun _ => ?_
    refine (hexpr first).bind fun e next _ he => ?_
    refine (expect_ensures _ _).pass fun _ _ => ?_
    exact Ensures.pure he
  · exact failAt_ensures t _

theorem suffixes_ensures (hexpr : ReadsExpr expression) (limit turns : Nat) {begin : Nat}
    (e : Expr) (hb : begin ≤ first) (he : Numbered begin first e.occurrences) :
    Ensures first (suffixes expression limit turns e)
      fun e next => Numbered begin next e.occurrences := by
  induction turns generalizing first e with
  | zero => exact Ensures.pure he
  | succ turns ih =>
    refine (accept_ensures _).pass fun paren? _ => ?_
    cases paren? with
    | some paren =>
      refine (callEnd_ensures hexpr limit e hb he).bind fun e next hle he => ?_
      exact ih e (Nat.le_trans hb hle) he
    | none =>
      refine (accept_ensures _).pass fun dot? _ => ?_
      cases dot? with
      | none => exact Ensures.pure he
      | some dot =>
        refine (expect_ensures _ _).pass fun name _ => ?_
        exact ih (.get e name) hb he

theorem call_reads (hexpr : ReadsExpr expression) (limit : Nat) :
    ReadsExpr (call expression limit) := by
  intro first
  refine (primary_reads hexpr first).bind fun e middle hle he => ?_
  exact suffixes_ensures hexpr limit limit e hle he

theorem unary_reads (hoperand : ReadsExpr operand) (limit : Nat) :
    ReadsExpr (unary operand limit) := by
  induction limit with
  | zero => exact hoperand
  | succ limit ih =>
    intro first
    refine (accept_ensures _).pass fun operator? _ => ?_
    cases operator? with
    | none => exact hoperand first
    | some operator =>
      refine (ih first).bind fun e next _ he => ?_
      exact Ensures.pure he

theorem disjunction_reads (hexpr : ReadsExpr expression) (limit : Nat) :
    ReadsExpr (disjunction expression limit) :=
  level_reads joins_logical limit <|
  level_reads joins_logical limit <|
  level_reads joins_binary limit <|
  level_reads joins_binary limit <|
  level_reads joins_binary limit <|
  level_reads joins_binary limit <|
  unary_reads (call_reads hexpr limit) limit

/-- An assignment drops the number of a variable that is its target, and has one of its own. -/
theorem assignTo_ensures {begin : Nat} (target value : Expr) (equals : Token)
    {middle : Nat} (hb : begin ≤ middle) (hm : middle ≤ first)
    (htarget : Numbered begin middle target.occurrences)
    (hvalue : Numbered middle first value.occurrences) :
    Ensures first (assignTo target equals value)
      fun e next => Numbered begin next e.occurrences := by
  unfold assignTo
  split
  · next id name =>
    refine freshId_ensures.bind fun id' next _ h => ?_
    obtain ⟨hid, rfl⟩ := h
    have ho : Occurrence.Proper ⟨id', .assign, name⟩ :=
      (htarget.2 ⟨id, .variable_, name⟩ (by simp [Expr.occurrences])).2.2
    have hown := fresh_numbered (Nat.le_refl first) hid ho
    have := (hvalue.mono hb (Nat.le_refl _)).append hown (Nat.le_trans hb hm) (Nat.le_succ _)
    exact Ensures.pure this.append_comm
  · exact Ensures.pure (htarget.append hvalue hb hm)
  · refine (report_ensures _ _).skip fun _ => ?_
    exact Ensures.pure (htarget.mono (Nat.le_refl _) hm)

theorem assignment_reads (hexpr : ReadsExpr expression) (limit : Nat) :
    ReadsExpr (assignment expression limit) := by
  intro first
  refine (disjunction_reads hexpr limit first).bind fun target middle hle htarget => ?_
  refine (accept_ensures _).pass fun equals? _ => ?_
  cases equals? with
  | none => exact Ensures.pure htarget
  | some equals =>
    refine (hexpr middle).bind fun value next hle' hvalue => ?_
    exact assignTo_ensures target value equals hle hle' htarget hvalue

theorem expression_reads (limit : Nat) : ReadsExpr (Parse.expression limit) := by
  induction limit with
  | zero => exact fun first => fail_ensures _
  | succ limit ih => exact assignment_reads ih (limit + 1)

end Expressions

/-! ### Statements and declarations -/

/-- The occurrences of a statement are numbered, and it is proper. -/
def StmtRead (first : Nat) (s : Stmt) (next : Nat) : Prop :=
  Numbered first next s.occurrences ∧ s.Proper

/-- The same of a list of statements. -/
def StmtsRead (first : Nat) (ss : List Stmt) (next : Nat) : Prop :=
  Numbered first next (Stmt.occurrencesIn ss) ∧ Stmt.AllProper ss

/-- A reading of statements that declare nothing. -/
def ReadsStmt (p : Parse Stmt) : Prop :=
  ∀ first, Ensures first p fun s next => StmtRead first s next ∧ s.declared? = none

/-- A reading of declarations and statements, of which failed ones are left out. -/
def ReadsDeclaration (p : Parse (Option Stmt)) : Prop :=
  ∀ first, Ensures first p fun s? next => ∀ s, s? = some s → StmtRead first s next

section Statements

variable {expression : Parse Expr} {statement : Parse Stmt} {declaration : Parse (Option Stmt)}
  {first : Nat}

theorem declarations_ensures (hdecl : ReadsDeclaration declaration) (stops : Kind → Bool)
    (limit : Nat) :
    Ensures first (declarations declaration stops limit) (StmtsRead first) := by
  induction limit generalizing first with
  | zero => exact Ensures.pure ⟨Numbered.nil, trivial⟩
  | succ limit ih =>
    refine atEnd_ensures.skip fun b₁ => ?_
    refine (isAhead_ensures _).skip fun b₂ => ?_
    cases b₁ || b₂ with
    | true => exact Ensures.pure ⟨Numbered.nil, trivial⟩
    | false =>
      refine (hdecl first).bind fun s? next hle hs => ?_
      refine ih.bind fun ss next' hle' hss => ?_
      cases s? with
      | none => exact Ensures.pure ⟨hss.1.mono hle (Nat.le_refl _), hss.2⟩
      | some s =>
        obtain ⟨hn, hp⟩ := hs s rfl
        exact Ensures.pure ⟨hn.append hss.1 hle hle', hp, hss.2⟩

theorem blockEnd_ensures (hdecl : ReadsDeclaration declaration) (limit : Nat) :
    Ensures first (blockEnd declaration limit) (StmtsRead first) := by
  refine (declarations_ensures hdecl _ limit).bind fun body middle _ hbody => ?_
  refine (expect_ensures _ _).pass fun _ _ => ?_
  exact Ensures.pure hbody

theorem parameter_ensures (before : Nat) :
    Ensures first (parameter before) fun t next => next = first ∧ t.IsName := by
  unfold parameter
  by_cases hmax : maxArguments ≤ before
  · simp only [hmax, if_true]
    refine peek_ensures.pass fun t _ => ?_
    refine (report_ensures t _).skip fun _ => ?_
    exact expectName_ensures _
  · simp only [hmax, if_false]
    exact expectName_ensures _

theorem parameters_ensures (limit : Nat) :
    Ensures first (parenthesized parameter limit)
      fun ts next => next = first ∧ ∀ t ∈ ts, t.IsName := by
  refine parenthesized_ensures (fun first ts next => next = first ∧ ∀ t ∈ ts, t.IsName)
    (fun before first => parameter_ensures before) ?_ ?_ ?_ limit first
  · intro first t next h
    exact ⟨h.1, by simpa using h.2⟩
  · intro first t middle ts next _ _ ht hts
    obtain ⟨rfl, ht⟩ := ht
    exact ⟨hts.1, by simpa using ⟨ht, hts.2⟩⟩
  · intro first
    exact ⟨rfl, by simp⟩

theorem function_ensures (hdecl : ReadsDeclaration declaration) (limit : Nat) (kind : RoutineKind) :
    Ensures first (function declaration limit kind)
      fun f next => Numbered first next f.occurrences ∧ f.Proper := by
  refine (expectName_ensures _).pass fun name hname => ?_
  refine (expect_ensures _ _).pass fun _ _ => ?_
  refine (parameters_ensures limit).pass fun params hparams => ?_
  refine (expect_ensures _ _).pass fun _ _ => ?_
  refine (expect_ensures _ _).pass fun _ _ => ?_
  refine (blockEnd_ensures hdecl limit).bind fun body next _ hbody => ?_
  exact Ensures.pure ⟨hbody.1, hname, hparams, hbody.2⟩

theorem methods_ensures {method : Parse FunDecl}
    (hmethod : ∀ first, Ensures first method
      fun f next => Numbered first next f.occurrences ∧ f.Proper) (limit : Nat) :
    Ensures first (methods method limit)
      fun fs next => Numbered first next (FunDecl.occurrencesIn fs) ∧ FunDecl.AllProper fs := by
  induction limit generalizing first with
  | zero => exact Ensures.pure ⟨Numbered.nil, trivial⟩
  | succ limit ih =>
    refine atEnd_ensures.skip fun b₁ => ?_
    refine (isAhead_ensures _).skip fun b₂ => ?_
    cases b₁ || b₂ with
    | true => exact Ensures.pure ⟨Numbered.nil, trivial⟩
    | false =>
      refine (hmethod first).bind fun f next hle hf => ?_
      refine ih.bind fun fs next' hle' hfs => ?_
      exact Ensures.pure ⟨hf.1.append hfs.1 hle hle', hf.2, hfs.2⟩

theorem superclass_ensures : Ensures first superclass fun e? next =>
    Numbered first next (Expr.occurrencesOf? e?) ∧ ∀ e ∈ e?, e.varToken?.isSome := by
  refine (accept_ensures _).pass fun less? _ => ?_
  cases less? with
  | none => exact Ensures.pure ⟨Numbered.nil, by simp⟩
  | some less =>
    refine (expectName_ensures _).pass fun name hname => ?_
    refine freshId_ensures.bind fun id next _ h => ?_
    obtain ⟨hid, rfl⟩ := h
    exact Ensures.pure ⟨fresh_numbered (Nat.le_refl _) hid hname, by simp [Expr.varToken?]⟩

theorem classDecl_ensures (hdecl : ReadsDeclaration declaration) (limit : Nat) :
    Ensures first (classDecl declaration limit) (StmtRead first) := by
  refine (expectName_ensures _).pass fun name hname => ?_
  refine superclass_ensures.bind fun superclass next hle h => ?_
  obtain ⟨hn, hv⟩ := h
  refine (expect_ensures _ _).pass fun _ _ => ?_
  refine (methods_ensures (fun _ => function_ensures hdecl limit .method) limit).bind
    fun methods next hle' hm => ?_
  refine (expect_ensures _ _).pass fun _ _ => ?_
  exact Ensures.pure ⟨hn.append hm.1 hle hle', hname, hv, hm.2⟩

theorem expression?_ensures (hexpr : ReadsExpr expression) :
    Ensures first (some <$> expression)
      fun e? next => Numbered first next (Expr.occurrencesOf? e?) :=
  (hexpr first).map fun _ _ _ he => he

theorem varDecl_ensures (hexpr : ReadsExpr expression) :
    Ensures first (varDecl expression) (StmtRead first) := by
  refine (expectName_ensures _).pass fun name hname => ?_
  refine (accept_ensures _).pass fun equal? _ => ?_
  have hend {next : Nat} (init : Option Expr) (_ : first ≤ next)
      (hi : Numbered first next (Expr.occurrencesOf? init)) :
      Ensures next (do
        let _ ← expect (Kind.isMark .semicolon) .variableEnd
        pure (Stmt.varDecl name init)) (StmtRead first) := by
    refine (expect_ensures _ _).pass fun _ _ => ?_
    exact Ensures.pure ⟨hi, hname⟩
  cases equal? with
  | some _ => exact (expression?_ensures hexpr).bind fun init _ => hend init
  | none => exact hend none (Nat.le_refl _) Numbered.nil

theorem expressionStmt_reads (hexpr : ReadsExpr expression) :
    ReadsStmt (expressionStmt expression) := by
  intro first
  refine (hexpr first).bind fun e next _ he => ?_
  refine (expect_ensures _ _).pass fun _ _ => ?_
  exact Ensures.pure ⟨⟨he, trivial⟩, rfl⟩

theorem printStmt_reads (hexpr : ReadsExpr expression) : ReadsStmt (printStmt expression) := by
  intro first
  refine (hexpr first).bind fun e next _ he => ?_
  refine (expect_ensures _ _).pass fun _ _ => ?_
  exact Ensures.pure ⟨⟨he, trivial⟩, rfl⟩

theorem expressionUnless_ensures (hexpr : ReadsExpr expression) (m : Mark) :
    Ensures first (expressionUnless m expression)
      fun e? next => Numbered first next (Expr.occurrencesOf? e?) := by
  refine (isAhead_ensures _).skip fun b => ?_
  cases b with
  | true => exact Ensures.pure Numbered.nil
  | false => exact expression?_ensures hexpr

theorem returnStmt_reads (hexpr : ReadsExpr expression) (keyword : Token) :
    ReadsStmt (returnStmt expression keyword) := by
  intro first
  refine (expressionUnless_ensures hexpr _).bind fun e? next _ he => ?_
  refine (expect_ensures _ _).pass fun _ _ => ?_
  exact Ensures.pure ⟨⟨he, trivial⟩, rfl⟩

theorem ifStmt_reads (hexpr : ReadsExpr expression) (hstmt : ReadsStmt statement) :
    ReadsStmt (ifStmt expression statement) := by
  intro first
  refine (expect_ensures _ _).pass fun _ _ => ?_
  refine (hexpr first).bind fun condition middle hle hc => ?_
  refine (expect_ensures _ _).pass fun _ _ => ?_
  refine (hstmt middle).bind fun thenBranch next hle' ht => ?_
  obtain ⟨⟨hnt, hpt⟩, hdt⟩ := ht
  have hct := hc.append hnt hle hle'
  refine (accept_ensures _).pass fun else? _ => ?_
  cases else? with
  | none => exact Ensures.pure ⟨⟨hct, hpt, hdt⟩, rfl⟩
  | some _ =>
    refine (hstmt next).bind fun elseBranch last hle'' he => ?_
    obtain ⟨⟨hne, hpe⟩, hde⟩ := he
    exact Ensures.pure
      ⟨⟨hct.append hne (Nat.le_trans hle hle') hle'', ⟨hpt, hdt⟩, hpe, hde⟩, rfl⟩

theorem whileStmt_reads (hexpr : ReadsExpr expression) (hstmt : ReadsStmt statement) :
    ReadsStmt (whileStmt expression statement) := by
  intro first
  refine (expect_ensures _ _).pass fun _ _ => ?_
  refine (hexpr first).bind fun condition middle hle hc => ?_
  refine (expect_ensures _ _).pass fun _ _ => ?_
  refine (hstmt middle).bind fun body next hle' hb => ?_
  obtain ⟨⟨hnb, hpb⟩, hdb⟩ := hb
  exact Ensures.pure ⟨⟨hc.append hnb hle hle', hpb, hdb⟩, rfl⟩

/-- The occurrences in a statement that may be absent. -/
def occurrencesOf? (s? : Option Stmt) : List Occurrence :=
  (s?.map Stmt.occurrences).getD []

theorem forInitializer_ensures (hexpr : ReadsExpr expression) :
    Ensures first (forInitializer expression) fun s? next =>
      Numbered first next (occurrencesOf? s?) ∧ ∀ s ∈ s?, s.Proper := by
  refine (accept_ensures _).pass fun semicolon? _ => ?_
  cases semicolon? with
  | some _ => exact Ensures.pure ⟨Numbered.nil, by simp⟩
  | none =>
    refine (accept_ensures _).pass fun var? _ => ?_
    cases var? with
    | some _ =>
      exact (varDecl_ensures hexpr).map fun s next _ hs => ⟨hs.1, by simpa using hs.2⟩
    | none =>
      exact (expressionStmt_reads hexpr first).map
        fun s next _ hs => ⟨hs.1.1, by simpa using hs.1.2⟩

/-- The increment of a loop is read before its body and stands behind it. -/
theorem forLoop_read {i c k b : Nat} {initializer : Option Stmt}
    {condition increment : Option Expr} {body : Stmt}
    (hinit : Numbered first i (occurrencesOf? initializer) ∧ ∀ s ∈ initializer, s.Proper)
    (hcond : Numbered i c (Expr.occurrencesOf? condition))
    (hincr : Numbered c k (Expr.occurrencesOf? increment))
    (hbody : StmtRead k body b ∧ body.declared? = none)
    (hi : first ≤ i) (hc : i ≤ c) (hk : c ≤ k) (hb : k ≤ b) :
    StmtRead first (.forLoop initializer condition increment body) b ∧
      (Stmt.forLoop initializer condition increment body).declared? = none := by
  obtain ⟨⟨hnb, hpb⟩, hdb⟩ := hbody
  have hturn : Numbered c b (body.occurrences ++ Expr.occurrencesOf? increment) :=
    (hincr.append hnb hk hb).append_comm
  have hloop := hcond.append hturn hc (Nat.le_trans hk hb)
  have hall := hinit.1.append hloop hi (Nat.le_trans hc (Nat.le_trans hk hb))
  unfold StmtRead Stmt.forLoop
  cases initializer <;> cases condition <;> cases increment <;>
    simp_all [Stmt.occurrences, Stmt.occurrencesIn, Expr.occurrences, Expr.occurrencesOf?,
      occurrencesOf?, Stmt.Proper, Stmt.AllProper, Stmt.declared?]

theorem forStmt_reads (hexpr : ReadsExpr expression) (hstmt : ReadsStmt statement) :
    ReadsStmt (forStmt expression statement) := by
  intro first
  refine (expect_ensures _ _).pass fun _ _ => ?_
  refine (forInitializer_ensures hexpr).bind fun initializer i hi hinit => ?_
  refine (expressionUnless_ensures hexpr _).bind fun condition c hc hcond => ?_
  refine (expect_ensures _ _).pass fun _ _ => ?_
  refine (expressionUnless_ensures hexpr _).bind fun increment k hk hincr => ?_
  refine (expect_ensures _ _).pass fun _ _ => ?_
  refine (hstmt k).bind fun body b hb hbody => ?_
  exact Ensures.pure (forLoop_read hinit hcond hincr hbody hi hc hk hb)

theorem statementWith_reads (limit : Nat) (hstmt : ReadsStmt statement)
    (hdecl : ReadsDeclaration declaration) :
    ReadsStmt (statementWith limit statement declaration) := by
  intro first
  have hexpr := expression_reads limit
  refine peek_ensures.pass fun t _ => ?_
  have behind {q : Parse Stmt} (hq : ReadsStmt q) : ReadsStmt (do advance; q) :=
    fun first => advance_ensures.skip fun _ => hq first
  split
  · exact behind (forStmt_reads hexpr hstmt) first
  · exact behind (ifStmt_reads hexpr hstmt) first
  · exact behind (whileStmt_reads hexpr hstmt) first
  · exact behind (returnStmt_reads hexpr t) first
  · refine behind (fun first => ?_) first
    exact (blockEnd_ensures hdecl limit).map fun body next _ hb => ⟨⟨hb.1, hb.2⟩, rfl⟩
  · exact behind (printStmt_reads hexpr) first
  · exact expressionStmt_reads hexpr first

theorem declarationWith_ensures (limit : Nat) (hstmt : ReadsStmt statement)
    (hdecl : ReadsDeclaration declaration) :
    Ensures first (declarationWith limit statement declaration) (StmtRead first) := by
  refine peek_ensures.pass fun t _ => ?_
  split
  · refine advance_ensures.skip fun _ => ?_
    exact classDecl_ensures hdecl limit
  · refine advance_ensures.skip fun _ => ?_
    exact (function_ensures hdecl limit .function).map fun f next _ hf => ⟨hf.1, hf.2⟩
  · refine advance_ensures.skip fun _ => ?_
    exact varDecl_ensures (expression_reads limit)
  · exact (statementWith_reads limit hstmt hdecl first).weaken fun _ _ _ hs => hs.1

/-- Statements and declarations nest in each other, so both are shown at once. -/
theorem statement_declaration_reads (limit : Nat) :
    ReadsStmt (Parse.statement limit) ∧ ReadsDeclaration (Parse.declaration limit) := by
  induction limit with
  | zero =>
    refine ⟨fun first => ?_, fun first => ?_⟩
    · unfold Parse.statement
      exact fail_ensures _
    · unfold Parse.declaration
      exact recover_ensures (fail_ensures _)
  | succ limit ih =>
    obtain ⟨hstmt, hdecl⟩ := ih
    refine ⟨fun first => ?_, fun first => ?_⟩
    · unfold Parse.statement
      exact statementWith_reads (limit + 1) hstmt hdecl first
    · unfold Parse.declaration
      exact recover_ensures (declarationWith_ensures (limit + 1) hstmt hdecl)

theorem program_ensures (limit : Nat) : Ensures first (program limit) (StmtsRead first) :=
  declarations_ensures (statement_declaration_reads limit).2 _ limit

end Statements

end Parse

/-! ### Lists of tokens and sources -/

theorem Cursor.ofTokens_genuine {tokens : List Token} (h : ∀ t ∈ tokens, t.Genuine)
    (firstId : NodeId) : (Cursor.ofTokens tokens firstId).Genuine :=
  fun t ht => h t ((List.takeWhile_prefix _).subset ht)

/-- What is parsed from genuine tokens is proper, with numbers from the first to the next. -/
theorem parse_proper {tokens : List Token} (h : ∀ t ∈ tokens, t.Genuine) {firstId : NodeId}
    {statements : List Stmt} (hp : (parse tokens firstId).result = .ok statements) :
    Parse.StmtsRead firstId statements (parse tokens firstId).nextId := by
  have hc : Parse.Ensures firstId (Parse.program _) (Parse.StmtsRead firstId) :=
    Parse.program_ensures (Cursor.ofTokens tokens firstId).rest.length
  replace hc := hc (Cursor.ofTokens tokens firstId) rfl (Cursor.ofTokens_genuine h firstId)
  unfold parse at hp ⊢
  simp only at hp ⊢
  split at hp
  · next ss c hr =>
    rw [hr] at hc
    simp only at hp
    split at hp
    · cases hp
      exact hc.2.2
    · cases hp
  · cases hp

/-- Parsing never lowers the number for the next node. -/
theorem parse_nextId_le {tokens : List Token} (h : ∀ t ∈ tokens, t.Genuine) (firstId : Nat) :
    firstId ≤ (parse tokens firstId).nextId := by
  have hc : Parse.Ensures firstId (Parse.program _) (Parse.StmtsRead firstId) :=
    Parse.program_ensures (Cursor.ofTokens tokens firstId).rest.length
  replace hc := hc (Cursor.ofTokens tokens firstId) rfl (Cursor.ofTokens_genuine h firstId)
  unfold parse
  simp only
  split
  · next hr =>
    rw [hr] at hc
    exact hc.1
  · next hr =>
    rw [hr] at hc
    exact hc.1

end Lox
