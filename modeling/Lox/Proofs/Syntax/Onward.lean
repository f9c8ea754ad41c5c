/-
Reading goes on.

Whatever tokens are ahead, and however a reading ends, it moves past tokens one after the other, it
never gives a number back, and it never takes a noted fault back.  Faults are those of the grammar,
and each is found at a spot between the tokens at which reading began and those at which it ended.
They are noted in the order of their spots, with one exception: the target of an assignment is
judged behind the value that is assigned.

* `Spot`, `Spot.Precedes` — where a fault is found, and in which order two of them are noted;
* `Cursor.Onward` — what one cursor keeps of another from which reading has reached it;
* `Parse.GoesOn` — a reading leads onward from every cursor, and fails with a fault at the token
  ahead;
* `program_goesOn` — the whole grammar does;
* `parse_nextId_mono`, `parse_faults`, `parse_spots` — what this says of a list of tokens.

Design notes: nothing is asked of the tokens.  What else holds of a reading depends on its result or
on tokens that a scanner yields; this does not, so it also covers what is read and then left out.
A spot is the list of the tokens ahead there, so that a later spot is a suffix of an earlier one.
-/
import Lox.Syntax.Grammar

namespace Lox

/-- The diagnostic is a fault of the grammar. -/
def Diagnostic.IsGrammar (d : Diagnostic) : Prop :=
  ∃ token fault, d = .grammar token fault

/-- The tokens of an expression are of these kinds: no brace, no semicolon, and no word of a
statement is among them. -/
def Kind.inExpression : Kind → Bool
  | .mark .leftBrace | .mark .rightBrace | .mark .semicolon => false
  | .mark _ => true
  | .keyword .and_ | .keyword .or_ | .keyword .false_ | .keyword .true_ | .keyword .nil_
  | .keyword .this_ | .keyword .super_ => true
  | .keyword _ => false
  | .identifier | .string _ | .number _ => true
  | .endOfSource => false

/-! ### Spots -/

/-- A spot at which a fault is found: the tokens ahead of it, and the fault. -/
structure Spot where
  ahead : List Token
  fault : GrammarFault

/-- The fault of a spot, at the token ahead or at the end of the source on the given line. -/
def Spot.diagnostic (endLine : Nat) (s : Spot) : Diagnostic :=
  .grammar (s.ahead.headD ⟨.endOfSource, "", endLine⟩) s.fault

/-- The order in which two faults are noted: the later one is found at the spot of the earlier one
or behind it, or else it is that of an assignment target, and there is nothing but a part of an
expression from the target to the earlier one. -/
def Spot.Precedes (a b : Spot) : Prop :=
  b.ahead <:+ a.ahead ∨ b.fault = .assignmentTarget ∧
    ∃ between, b.ahead = between ++ a.ahead ∧ ∀ t ∈ between, t.kind.inExpression = true

/-- Reading has gone from one cursor to another past tokens of some kinds, and has found faults: no
number is free again, and the faults are those of before with the found ones in front, the latest
first. -/
structure Cursor.Passes (kinds : Kind → Prop) (c c' : Cursor) (past : List Token)
    (found : List Spot) : Prop where
  nextId_le : c.nextId ≤ c'.nextId
  endLine : c'.endLine = c.endLine
  rest : c.rest = past ++ c'.rest
  past : ∀ t ∈ past, kinds t.kind
  faults : c'.faults = (found.map (Spot.diagnostic c.endLine)).reverse ++ c.faults
  within : ∀ s ∈ found, c'.rest <:+ s.ahead ∧ s.ahead <:+ c.rest
  ordered : found.Pairwise Spot.Precedes

/-- Reading may have gone from one cursor to another. -/
def Cursor.Onward (kinds : Kind → Prop) (c c' : Cursor) : Prop :=
  ∃ past found, c.Passes kinds c' past found

namespace Cursor

variable {kinds : Kind → Prop} {c c' c'' : Cursor}

/-- Numbers are taken, and nothing else happens. -/
theorem Onward.still (hid : c.nextId ≤ c'.nextId) (hline : c'.endLine = c.endLine)
    (hrest : c'.rest = c.rest) (hfaults : c'.faults = c.faults) : c.Onward kinds c' :=
  ⟨[], [], hid, hline, hrest.symm, fun _ ht => absurd ht List.not_mem_nil, hfaults,
    fun _ hs => absurd hs List.not_mem_nil, .nil⟩

theorem Onward.refl (c : Cursor) : c.Onward kinds c := .still (Nat.le_refl _) rfl rfl rfl

theorem Passes.rest_suffix {past : List Token} {found : List Spot}
    (h : c.Passes kinds c' past found) : c'.rest <:+ c.rest := ⟨past, h.rest.symm⟩

/-- What is found later is found behind what is found before. -/
theorem Passes.trans {past past' : List Token} {found found' : List Spot}
    (h : c.Passes kinds c' past found) (h' : c'.Passes kinds c'' past' found') :
    c.Passes kinds c'' (past ++ past') (found ++ found') where
  nextId_le := Nat.le_trans h.nextId_le h'.nextId_le
  endLine := h'.endLine.trans h.endLine
  rest := by rw [h.rest, h'.rest, List.append_assoc]
  past := List.forall_mem_append.mpr ⟨h.past, h'.past⟩
  faults := by
    rw [h'.faults, h.faults, h.endLine, List.map_append, List.reverse_append, List.append_assoc]
  within := List.forall_mem_append.mpr
    ⟨fun s hs => ⟨h'.rest_suffix.trans (h.within s hs).1, (h.within s hs).2⟩,
      fun s hs => ⟨(h'.within s hs).1, (h'.within s hs).2.trans h.rest_suffix⟩⟩
  ordered := List.pairwise_append.mpr ⟨h.ordered, h'.ordered, fun a ha b hb =>
    .inl ((h'.within b hb).2.trans (h.within a ha).1)⟩

theorem Onward.trans (h : c.Onward kinds c') (h' : c'.Onward kinds c'') : c.Onward kinds c'' := by
  obtain ⟨past, found, h⟩ := h
  obtain ⟨past', found', h'⟩ := h'
  exact ⟨_, _, h.trans h'⟩

theorem Onward.mono {kinds' : Kind → Prop} (h : c.Onward kinds c')
    (hk : ∀ k, kinds k → kinds' k) : c.Onward kinds' c' := by
  obtain ⟨past, found, h⟩ := h
  exact ⟨past, found, { h with past := fun t ht => hk _ (h.past t ht) }⟩

/-- A fault is noted at the token ahead, and tokens may be skipped behind it. -/
theorem Onward.note (past : List Token) (fault : GrammarFault) (hid : c'.nextId = c.nextId)
    (hline : c'.endLine = c.endLine) (hrest : c.rest = past ++ c'.rest)
    (hpast : ∀ t ∈ past, kinds t.kind)
    (hfaults : c'.faults = Spot.diagnostic c.endLine ⟨c.rest, fault⟩ :: c.faults) :
    c.Onward kinds c' :=
  ⟨past, [⟨c.rest, fault⟩], Nat.le_of_eq hid.symm, hline, hrest, hpast, hfaults,
    List.forall_mem_singleton.mpr ⟨⟨past, hrest.symm⟩, List.suffix_rfl⟩,
    List.pairwise_singleton ..⟩

/-- A token ahead is taken. -/
theorem Onward.take {t : Token} {ts : List Token} (hrest : c.rest = t :: ts) (hk : kinds t.kind) :
    c.Onward kinds { c with rest := ts } :=
  ⟨[t], [], Nat.le_refl _, rfl, hrest, List.forall_mem_singleton.mpr hk, rfl,
    fun _ hs => absurd hs List.not_mem_nil, .nil⟩

/-- The target of an assignment is faulty, which is noted behind the value: what was found in the
value is found between the equals sign and the cursor. -/
theorem Onward.target {equals : Token} {ts : List Token} (hrest : c.rest = equals :: ts)
    (heq : equals.kind.inExpression = true)
    (h : Cursor.Onward (·.inExpression = true) { c with rest := ts } c') :
    c.Onward (·.inExpression = true)
      { c' with faults := .grammar equals .assignmentTarget :: c'.faults } := by
  obtain ⟨past, found, h⟩ := h
  have hts : ts = past ++ c'.rest := h.rest
  have hsuffix : ts <:+ c.rest := ⟨[equals], hrest.symm⟩
  refine ⟨equals :: past, found ++ [⟨c.rest, .assignmentTarget⟩], ?_⟩
  refine
    { nextId_le := h.nextId_le
      endLine := h.endLine
      rest := by rw [hrest, hts, List.cons_append]
      past := List.forall_mem_cons.mpr ⟨heq, h.past⟩
      faults := ?_
      within := List.forall_mem_append.mpr ⟨fun s hs => ?_, List.forall_mem_singleton.mpr ?_⟩
      ordered := List.pairwise_append.mpr
        ⟨h.ordered, List.pairwise_singleton .., fun a ha b hb => ?_⟩ }
  · have hdiagnostic : Spot.diagnostic c.endLine ⟨c.rest, .assignmentTarget⟩ =
        .grammar equals .assignmentTarget := by
      unfold Spot.diagnostic
      rw [hrest]
      rfl
    rw [List.map_append, List.reverse_append, List.map_singleton, hdiagnostic]
    exact congrArg _ h.faults
  · exact ⟨(h.within s hs).1, (h.within s hs).2.trans hsuffix⟩
  · exact ⟨h.rest_suffix.trans hsuffix, List.suffix_rfl⟩
  · rw [List.mem_singleton.mp hb]
    -- from the equals sign to the earlier fault lies a part of the value
    obtain ⟨between, hbetween⟩ := (h.within a ha).2
    obtain ⟨behind, hbehind⟩ := (h.within a ha).1
    have hbetween : between ++ a.ahead = ts := hbetween
    have hpast : past = between ++ behind := by
      rw [← hbehind, ← List.append_assoc, hts] at hbetween
      exact (List.append_cancel_right hbetween).symm
    refine .inr ⟨rfl, equals :: between, ?_, List.forall_mem_cons.mpr ⟨heq, fun t ht => ?_⟩⟩
    · rw [List.cons_append, hbetween]
      exact hrest
    · exact h.past t (hpast ▸ List.mem_append_left _ ht)

end Cursor

namespace Parse

/-- From a cursor, a reading leads onward past tokens of some kinds; where it fails, the fault is
found at the token ahead then. -/
def GoesOnFrom {α : Type} (kinds : Kind → Prop) (c : Cursor) (p : Parse α) : Prop :=
  match p c with
  | .ok _ c' => c.Onward kinds c'
  | .error d c' => c.Onward kinds c' ∧ ∃ fault, d = Spot.diagnostic c.endLine ⟨c'.rest, fault⟩

/-- A reading leads onward, whatever is ahead. -/
def GoesOn {α : Type} (kinds : Kind → Prop) (p : Parse α) : Prop :=
  ∀ c, GoesOnFrom kinds c p

section Rules

variable {α β : Type} {kinds : Kind → Prop} {p : Parse α} {c : Cursor}

theorem GoesOnFrom.bind {next : α → Parse β} (hp : GoesOnFrom kinds c p)
    (hnext : ∀ a c', p c = .ok a c' → GoesOnFrom kinds c' (next a)) :
    GoesOnFrom kinds c (p >>= next) := by
  unfold GoesOnFrom at hp ⊢
  rw [bind_apply]
  cases hpc : p c with
  | error d c' =>
    rw [hpc] at hp
    exact hp
  | ok a c' =>
    rw [hpc] at hp
    have hn := hnext a c' hpc
    unfold GoesOnFrom at hn
    have hline : c'.endLine = c.endLine := by
      obtain ⟨past, found, h⟩ := hp
      exact h.endLine
    simp only
    cases hnc : next a c' with
    | error d c'' =>
      simp only [hnc, hline] at hn ⊢
      exact ⟨Cursor.Onward.trans hp hn.1, hn.2⟩
    | ok b c'' =>
      simp only [hnc] at hn ⊢
      exact Cursor.Onward.trans hp hn

theorem GoesOn.pure (a : α) : GoesOn kinds (pure a : Parse α) := fun c => Cursor.Onward.refl c

theorem GoesOn.bind {next : α → Parse β} (hp : GoesOn kinds p)
    (hnext : ∀ a, GoesOn kinds (next a)) : GoesOn kinds (p >>= next) :=
  fun c => (hp c).bind fun a c' _ => hnext a c'

theorem GoesOn.map (f : α → β) (hp : GoesOn kinds p) : GoesOn kinds (f <$> p) := by
  rw [map_eq_pure_bind]
  exact hp.bind fun a => .pure (f a)

/-- One of two readings, where what is ahead decides. -/
theorem GoesOn.ite {b : Bool} {q : Parse α} (hp : GoesOn kinds p) (hq : GoesOn kinds q) :
    GoesOn kinds (if b then p else q) := by
  cases b with
  | true => exact hp
  | false => exact hq

theorem GoesOn.mono {kinds' : Kind → Prop} (hp : GoesOn kinds p)
    (hk : ∀ k, kinds k → kinds' k) : GoesOn kinds' p := by
  intro c
  have h := hp c
  unfold GoesOnFrom at h ⊢
  cases hpc : p c with
  | ok a c' =>
    rw [hpc] at h
    exact Cursor.Onward.mono h hk
  | error d c' =>
    rw [hpc] at h
    exact ⟨h.1.mono hk, h.2⟩

/-- What is done with the token ahead, which is known then. -/
theorem GoesOn.peek {next : Token → Parse α} (h : ∀ c, GoesOnFrom kinds c (next c.ahead)) :
    GoesOn kinds (peek >>= next) := h

end Rules

/-! ### The primitives of the cursor -/

section Primitives

variable {kinds : Kind → Prop}

theorem atEnd_goesOn : GoesOn kinds atEnd := fun c => Cursor.Onward.refl c

theorem isAhead_goesOn (k : Kind → Bool) : GoesOn kinds (isAhead k) := by
  intro c
  unfold GoesOnFrom isAhead
  cases c.rest with
  | nil => exact Cursor.Onward.refl c
  | cons t ts => exact Cursor.Onward.refl c

/-- A move past the token ahead, which is one of the kinds if there is one. -/
theorem advance_goesOnFrom {c : Cursor} (hk : c.rest ≠ [] → kinds c.ahead.kind) :
    GoesOnFrom kinds c advance := by
  show c.Onward kinds { c with rest := c.rest.tail }
  cases hrest : c.rest with
  | nil => exact .still (Nat.le_refl _) rfl hrest.symm rfl
  | cons t ts =>
    refine .take hrest ?_
    have ht : c.ahead = t := by
      unfold Cursor.ahead
      rw [hrest]
      rfl
    exact ht ▸ hk (by simp [hrest])

theorem accept_goesOn {k : Kind → Bool} (hk : ∀ kind, k kind = true → kinds kind) :
    GoesOn kinds (accept k) := by
  intro c
  unfold GoesOnFrom accept
  cases hrest : c.rest with
  | nil => exact Cursor.Onward.refl c
  | cons t ts =>
    by_cases ht : k t.kind = true
    · simp only [ht, if_true]
      exact Cursor.Onward.take hrest (hk _ ht)
    · simp only [ht]
      exact Cursor.Onward.refl c

theorem fail_goesOn {α : Type} (fault : GrammarFault) : GoesOn kinds (fail fault : Parse α) :=
  fun c => ⟨.refl c, fault, rfl⟩

theorem expect_goesOn {k : Kind → Bool} (hk : ∀ kind, k kind = true → kinds kind)
    (fault : GrammarFault) : GoesOn kinds (expect k fault) := by
  refine (accept_goesOn hk).bind fun t? => ?_
  cases t? with
  | none => exact fail_goesOn fault
  | some t => exact .pure t

/-- A fault at the token ahead is noted. -/
theorem report_goesOn (fault : GrammarFault) :
    GoesOn kinds (peek >>= fun t => report t fault) :=
  .peek fun _ => Cursor.Onward.note [] fault rfl rfl rfl
    (fun _ ht => absurd ht List.not_mem_nil) rfl

theorem freshId_goesOn : GoesOn kinds freshId :=
  fun c => Cursor.Onward.still (Nat.le_succ c.nextId) rfl rfl rfl

/-- What failed becomes one fault more, and tokens are skipped behind it. -/
theorem recover_goesOn {α : Type} {p : Parse α} (hp : GoesOn (fun _ => True) p) :
    GoesOn (fun _ => True) (recover p) := by
  intro c
  have h := hp c
  unfold GoesOnFrom at h
  unfold GoesOnFrom recover
  cases hpc : p c with
  | ok a c' =>
    rw [hpc] at h
    exact h
  | error d c' =>
    rw [hpc] at h
    obtain ⟨⟨past, found, hpasses⟩, fault, hd⟩ := h
    obtain ⟨skipped, hskipped⟩ := resume_suffix c'.rest
    refine Cursor.Onward.trans ⟨past, found, hpasses⟩
      (.note skipped fault rfl rfl hskipped.symm (fun _ _ => trivial) ?_)
    rw [hpasses.endLine, ← hd]

end Primitives

/-! ### Lists -/

section Lists

variable {α : Type} {kinds : Kind → Prop} {item : Nat → Parse α}

theorem separated_goesOn (hcomma : ∀ kind, kind.isMark .comma = true → kinds kind)
    (hitem : ∀ before, GoesOn kinds (item before)) (limit before : Nat) :
    GoesOn kinds (separated item limit before) := by
  induction limit generalizing before with
  | zero => exact (hitem before).bind fun a => .pure [a]
  | succ limit ih =>
    refine (hitem before).bind fun a => (accept_goesOn hcomma).bind fun comma? => ?_
    cases comma? with
    | none => exact .pure [a]
    | some comma => exact (ih (before + 1)).bind fun as => .pure (a :: as)

theorem parenthesized_goesOn (hcomma : ∀ kind, kind.isMark .comma = true → kinds kind)
    (hitem : ∀ before, GoesOn kinds (item before)) (limit : Nat) :
    GoesOn kinds (parenthesized item limit) :=
  (isAhead_goesOn _).bind fun _ => .ite (.pure []) (separated_goesOn hcomma hitem limit 0)

/-- An item of a list that is too long is read all the same. -/
theorem counted_goesOn {p : Parse α} (hp : GoesOn kinds p) (before : Nat) (fault : GrammarFault) :
    GoesOn kinds (do
      if maxArguments ≤ before then
        report (← Parse.peek) fault
      p) := by
  by_cases hmax : maxArguments ≤ before
  · simp only [hmax, if_true]
    exact (report_goesOn fault).bind fun _ => hp
  · simp only [hmax, if_false]
    exact hp

end Lists

/-! ### Expressions -/

section Expressions

/-- The kinds of the tokens of expressions. -/
abbrev ExpressionKind (k : Kind) : Prop := k.inExpression = true

theorem expressionKind_of_isMark {m : Mark} (hm : ExpressionKind (.mark m)) :
    ∀ kind, kind.isMark m = true → ExpressionKind kind := by
  intro kind hkind
  cases kind with
  | mark m' => exact (beq_iff_eq.mp hkind : m' = m) ▸ hm
  | _ => cases hkind

theorem expressionKind_of_isKeyword {w : Keyword} (hw : ExpressionKind (.keyword w)) :
    ∀ kind, kind.isKeyword w = true → ExpressionKind kind := by
  intro kind hkind
  cases kind with
  | keyword w' => exact (beq_iff_eq.mp hkind : w' = w) ▸ hw
  | _ => cases hkind

theorem expressionKind_of_isIdentifier :
    ∀ kind : Kind, kind.isIdentifier = true → ExpressionKind kind := by
  intro kind hkind
  cases kind with
  | identifier => rfl
  | _ => cases hkind

theorem expressionKind_of_unaryOperators :
    ∀ kind, unaryOperators kind = true → ExpressionKind kind := by
  intro kind hkind
  unfold unaryOperators at hkind
  split at hkind <;> first | rfl | cases hkind

theorem expressionKind_of_factorOperators :
    ∀ kind, factorOperators kind = true → ExpressionKind kind := by
  intro kind hkind
  unfold factorOperators at hkind
  split at hkind <;> first | rfl | cases hkind

theorem expressionKind_of_termOperators :
    ∀ kind, termOperators kind = true → ExpressionKind kind := by
  intro kind hkind
  unfold termOperators at hkind
  split at hkind <;> first | rfl | cases hkind

theorem expressionKind_of_comparisonOperators :
    ∀ kind, comparisonOperators kind = true → ExpressionKind kind := by
  intro kind hkind
  unfold comparisonOperators at hkind
  split at hkind <;> first | rfl | cases hkind

theorem expressionKind_of_equalityOperators :
    ∀ kind, equalityOperators kind = true → ExpressionKind kind := by
  intro kind hkind
  unfold equalityOperators at hkind
  split at hkind <;> first | rfl | cases hkind

variable {expression operand : Parse Expr}

theorem level_goesOn {operators : Kind → Bool}
    (hoperators : ∀ kind, operators kind = true → ExpressionKind kind)
    (node : Expr → Token → Expr → Expr) (limit : Nat)
    (hoperand : GoesOn ExpressionKind operand) :
    GoesOn ExpressionKind (level operators node limit operand) := by
  have hchain : ∀ (limit : Nat) (left : Expr),
      GoesOn ExpressionKind (leftChain operators node operand limit left) := by
    intro limit
    induction limit with
    | zero => exact fun left => .pure left
    | succ limit ih =>
      intro left
      refine (accept_goesOn hoperators).bind fun operator? => ?_
      cases operator? with
      | none => exact .pure left
      | some operator => exact hoperand.bind fun right => ih (node left operator right)
  exact hoperand.bind fun first => hchain limit first

theorem callEnd_goesOn (hexpr : GoesOn ExpressionKind expression) (limit : Nat) (callee : Expr) :
    GoesOn ExpressionKind (callEnd expression limit callee) :=
  (parenthesized_goesOn (expressionKind_of_isMark rfl)
    (fun before => counted_goesOn hexpr before _) limit).bind fun arguments =>
    (expect_goesOn (expressionKind_of_isMark rfl) _).bind fun paren =>
      .pure (Expr.call callee paren arguments)

theorem primary_goesOn (hexpr : GoesOn ExpressionKind expression) :
    GoesOn ExpressionKind (primary expression) := by
  refine .peek fun c => ?_
  have hleaf (e : Expr) (hk : ExpressionKind c.ahead.kind) :
      GoesOnFrom ExpressionKind c (leaf e) :=
    (advance_goesOnFrom fun _ => hk).bind fun _ c' _ => GoesOn.pure e c'
  -- a number is taken in front of the token, which is still ahead then
  have hnumbered (node : NodeId → Expr) (hk : ExpressionKind c.ahead.kind) :
      GoesOnFrom ExpressionKind c (do leaf (node (← freshId))) := by
    refine (freshId_goesOn c).bind fun id c' hid => ?_
    cases hid
    have hadvance : GoesOnFrom ExpressionKind { c with nextId := c.nextId + 1 } advance :=
      advance_goesOnFrom fun _ => hk
    exact hadvance.bind fun _ c' _ => GoesOn.pure (node c.nextId) c'
  split
  case h_1 h => exact hleaf _ (by rw [h]; rfl)
  case h_2 h => exact hleaf _ (by rw [h]; rfl)
  case h_3 h => exact hleaf _ (by rw [h]; rfl)
  case h_4 h => exact hleaf _ (by rw [h]; rfl)
  case h_5 h => exact hleaf _ (by rw [h]; rfl)
  case h_6 h => exact hnumbered _ (by rw [h]; rfl)
  case h_7 h => exact hnumbered _ (by rw [h]; rfl)
  case h_8 h =>
    refine (advance_goesOnFrom fun _ => by rw [h]; rfl).bind fun _ c' _ => ?_
    refine GoesOn.bind (expect_goesOn (expressionKind_of_isMark rfl) _) (fun _ => ?_) c'
    exact (expect_goesOn expressionKind_of_isIdentifier _).bind fun method =>
      freshId_goesOn.bind fun id => .pure _
  case h_9 h =>
    refine (advance_goesOnFrom fun _ => by rw [h]; rfl).bind fun _ c' _ => ?_
    refine GoesOn.bind hexpr (fun inner => ?_) c'
    exact (expect_goesOn (expressionKind_of_isMark rfl) _).bind fun _ => .pure _
  case h_10 => exact fail_goesOn (α := Expr) .expression c

theorem suffixes_goesOn (hexpr : GoesOn ExpressionKind expression) (limit turns : Nat) (e : Expr) :
    GoesOn ExpressionKind (suffixes expression limit turns e) := by
  induction turns generalizing e with
  | zero => exact .pure e
  | succ turns ih =>
    refine (accept_goesOn (expressionKind_of_isMark rfl)).bind fun paren? => ?_
    cases paren? with
    | some paren => exact (callEnd_goesOn hexpr limit e).bind fun e => ih e
    | none =>
      refine (accept_goesOn (expressionKind_of_isMark rfl)).bind fun dot? => ?_
      cases dot? with
      | none => exact .pure e
      | some dot =>
        exact (expect_goesOn expressionKind_of_isIdentifier _).bind fun name => ih (.get e name)

theorem unary_goesOn (hoperand : GoesOn ExpressionKind operand) (limit : Nat) :
    GoesOn ExpressionKind (unary operand limit) := by
  induction limit with
  | zero => exact hoperand
  | succ limit ih =>
    refine (accept_goesOn expressionKind_of_unaryOperators).bind fun operator? => ?_
    cases operator? with
    | none => exact hoperand
    | some operator => exact ih.bind fun right => .pure _

theorem disjunction_goesOn (hexpr : GoesOn ExpressionKind expression) (limit : Nat) :
    GoesOn ExpressionKind (disjunction expression limit) :=
  level_goesOn (expressionKind_of_isKeyword rfl) _ limit <|
  level_goesOn (expressionKind_of_isKeyword rfl) _ limit <|
  level_goesOn expressionKind_of_equalityOperators _ limit <|
  level_goesOn expressionKind_of_comparisonOperators _ limit <|
  level_goesOn expressionKind_of_termOperators _ limit <|
  level_goesOn expressionKind_of_factorOperators _ limit <|
  unary_goesOn ((primary_goesOn hexpr).bind fun e => suffixes_goesOn hexpr limit limit e) limit

/-- An assignment takes a number, or notes a fault at the equals sign, or does neither. -/
theorem assignTo_apply (target : Expr) (equals : Token) (value : Expr) (c : Cursor) :
    ∃ e c', assignTo target equals value c = .ok e c' ∧
      (c' = { c with nextId := c.nextId + 1 } ∨ c' = c ∨
        c' = { c with faults := .grammar equals .assignmentTarget :: c.faults }) := by
  unfold assignTo
  split
  · exact ⟨_, _, rfl, .inl rfl⟩
  · exact ⟨_, _, rfl, .inr (.inl rfl)⟩
  · exact ⟨_, _, rfl, .inr (.inr rfl)⟩

/-- The value of an assignment and the assignment itself, from the equals sign on. -/
theorem assigned_onward (hexpr : GoesOn ExpressionKind expression) (target : Expr) {c : Cursor}
    {equals : Token} {ts : List Token} (hrest : c.rest = equals :: ts)
    (heq : ExpressionKind equals.kind) :
    GoesOnFrom ExpressionKind c fun _ =>
      (expression >>= assignTo target equals) { c with rest := ts } := by
  have htake : c.Onward ExpressionKind { c with rest := ts } := .take hrest heq
  have hvalue := hexpr { c with rest := ts }
  unfold GoesOnFrom at hvalue ⊢
  rw [bind_apply]
  cases hv : expression { c with rest := ts } with
  | error d c' =>
    rw [hv] at hvalue
    exact ⟨htake.trans hvalue.1, hvalue.2⟩
  | ok value c' =>
    rw [hv] at hvalue
    obtain ⟨e, c'', happly, hc⟩ := assignTo_apply target equals value c'
    simp only [happly]
    rcases hc with rfl | rfl | rfl
    · exact htake.trans (hvalue.trans (.still (Nat.le_succ _) rfl rfl rfl))
    · exact htake.trans hvalue
    · exact .target hrest heq hvalue

theorem assignment_goesOn (hexpr : GoesOn ExpressionKind expression) (limit : Nat) :
    GoesOn ExpressionKind (assignment expression limit) := by
  refine (disjunction_goesOn hexpr limit).bind fun target c => ?_
  unfold GoesOnFrom
  rw [bind_apply]
  cases hrest : c.rest with
  | nil =>
    simp only [accept, hrest]
    exact Cursor.Onward.refl c
  | cons t ts =>
    by_cases ht : t.kind.isMark .equal = true
    · simp only [accept, hrest, ht, if_true]
      exact assigned_onward hexpr target hrest (expressionKind_of_isMark rfl _ ht)
    · simp only [accept, hrest, ht]
      exact Cursor.Onward.refl c

theorem expression_goesOn (limit : Nat) : GoesOn ExpressionKind (Parse.expression limit) := by
  induction limit with
  | zero => exact fail_goesOn _
  | succ limit ih => exact assignment_goesOn ih (limit + 1)

end Expressions

/-! ### Declarations and statements -/

section Statements

/-- The tokens of declarations and statements are of any kind. -/
abbrev AnyKind (_ : Kind) : Prop := True

variable {expression : Parse Expr} {statement : Parse Stmt} {declaration : Parse (Option Stmt)}

theorem accept_any_goesOn (k : Kind → Bool) : GoesOn AnyKind (accept k) :=
  accept_goesOn fun _ _ => trivial

theorem expect_any_goesOn (k : Kind → Bool) (fault : GrammarFault) :
    GoesOn AnyKind (expect k fault) :=
  expect_goesOn (fun _ _ => trivial) fault

theorem advance_any_goesOn : GoesOn AnyKind advance :=
  fun _ => advance_goesOnFrom fun _ => trivial

theorem expression_any_goesOn (limit : Nat) : GoesOn AnyKind (Parse.expression limit) :=
  (expression_goesOn limit).mono fun _ _ => trivial

theorem declarations_goesOn (hdecl : GoesOn AnyKind declaration) (stops : Kind → Bool)
    (limit : Nat) : GoesOn AnyKind (declarations declaration stops limit) := by
  induction limit with
  | zero => exact .pure []
  | succ limit ih =>
    refine atEnd_goesOn.bind fun _ => (isAhead_goesOn _).bind fun _ => .ite (.pure []) ?_
    refine hdecl.bind fun first => ih.bind fun others => ?_
    cases first with
    | none => exact .pure others
    | some s => exact .pure (s :: others)

theorem blockEnd_goesOn (hdecl : GoesOn AnyKind declaration) (limit : Nat) :
    GoesOn AnyKind (blockEnd declaration limit) :=
  (declarations_goesOn hdecl _ limit).bind fun body =>
    (expect_any_goesOn _ _).bind fun _ => .pure body

theorem function_goesOn (hdecl : GoesOn AnyKind declaration) (limit : Nat) (kind : RoutineKind) :
    GoesOn AnyKind (function declaration limit kind) := by
  refine (expect_any_goesOn _ _).bind fun name => (expect_any_goesOn _ _).bind fun _ => ?_
  refine (parenthesized_goesOn (fun _ _ => trivial)
    (fun before => counted_goesOn (expect_any_goesOn _ _) before _) limit).bind fun params => ?_
  refine (expect_any_goesOn _ _).bind fun _ => (expect_any_goesOn _ _).bind fun _ => ?_
  exact (blockEnd_goesOn hdecl limit).bind fun body => .pure _

theorem methods_goesOn {method : Parse FunDecl} (hmethod : GoesOn AnyKind method) (limit : Nat) :
    GoesOn AnyKind (methods method limit) := by
  induction limit with
  | zero => exact .pure []
  | succ limit ih =>
    refine atEnd_goesOn.bind fun _ => (isAhead_goesOn _).bind fun _ => .ite (.pure []) ?_
    exact hmethod.bind fun first => ih.bind fun others => .pure (first :: others)

theorem superclass_goesOn : GoesOn AnyKind superclass := by
  refine (accept_any_goesOn _).bind fun less? => ?_
  cases less? with
  | none => exact .pure none
  | some less =>
    exact (expect_any_goesOn _ _).bind fun name => freshId_goesOn.bind fun id => .pure _

theorem classDecl_goesOn (hdecl : GoesOn AnyKind declaration) (limit : Nat) :
    GoesOn AnyKind (classDecl declaration limit) := by
  refine (expect_any_goesOn _ _).bind fun name => superclass_goesOn.bind fun superclass => ?_
  refine (expect_any_goesOn _ _).bind fun _ => ?_
  refine (methods_goesOn (function_goesOn hdecl limit .method) limit).bind fun methods => ?_
  exact (expect_any_goesOn _ _).bind fun _ => .pure _

theorem varDecl_goesOn (hexpr : GoesOn AnyKind expression) :
    GoesOn AnyKind (varDecl expression) := by
  refine (expect_any_goesOn _ _).bind fun name => (accept_any_goesOn _).bind fun equal? => ?_
  have hend (initializer : Option Expr) : GoesOn AnyKind (do
      let _ ← expect (Kind.isMark .semicolon) .variableEnd
      pure (Stmt.varDecl name initializer)) :=
    (expect_any_goesOn _ _).bind fun _ => .pure _
  cases equal? with
  | some _ => exact (hexpr.map some).bind hend
  | none => exact hend none

/-- An expression with a mark behind it makes a statement. -/
theorem terminated_goesOn {α : Type} {p : Parse α} (hp : GoesOn AnyKind p) (node : α → Stmt)
    (fault : GrammarFault) :
    GoesOn AnyKind (do
      let a ← p
      let _ ← expect (Kind.isMark .semicolon) fault
      pure (node a)) :=
  hp.bind fun a => (expect_any_goesOn _ _).bind fun _ => .pure (node a)

theorem expressionUnless_goesOn (hexpr : GoesOn AnyKind expression) (m : Mark) :
    GoesOn AnyKind (expressionUnless m expression) :=
  (isAhead_goesOn _).bind fun _ => .ite (.pure none) (hexpr.map some)

theorem ifStmt_goesOn (hexpr : GoesOn AnyKind expression) (hstmt : GoesOn AnyKind statement) :
    GoesOn AnyKind (ifStmt expression statement) := by
  refine (expect_any_goesOn _ _).bind fun _ => hexpr.bind fun condition => ?_
  refine (expect_any_goesOn _ _).bind fun _ => hstmt.bind fun thenBranch => ?_
  refine (accept_any_goesOn _).bind fun else? => ?_
  cases else? with
  | none => exact .pure _
  | some _ => exact hstmt.bind fun elseBranch => .pure _

theorem whileStmt_goesOn (hexpr : GoesOn AnyKind expression) (hstmt : GoesOn AnyKind statement) :
    GoesOn AnyKind (whileStmt expression statement) := by
  refine (expect_any_goesOn _ _).bind fun _ => hexpr.bind fun condition => ?_
  exact (expect_any_goesOn _ _).bind fun _ => hstmt.bind fun body => .pure _

theorem forInitializer_goesOn (hexpr : GoesOn AnyKind expression) :
    GoesOn AnyKind (forInitializer expression) := by
  refine (accept_any_goesOn _).bind fun semicolon? => ?_
  cases semicolon? with
  | some _ => exact .pure none
  | none =>
    refine (accept_any_goesOn _).bind fun var? => ?_
    cases var? with
    | some _ => exact (varDecl_goesOn hexpr).map some
    | none => exact (terminated_goesOn hexpr .expression _).map some

theorem forStmt_goesOn (hexpr : GoesOn AnyKind expression) (hstmt : GoesOn AnyKind statement) :
    GoesOn AnyKind (forStmt expression statement) := by
  refine (expect_any_goesOn _ _).bind fun _ =>
    (forInitializer_goesOn hexpr).bind fun initializer => ?_
  refine (expressionUnless_goesOn hexpr _).bind fun condition => ?_
  refine (expect_any_goesOn _ _).bind fun _ => ?_
  refine (expressionUnless_goesOn hexpr _).bind fun increment => ?_
  exact (expect_any_goesOn _ _).bind fun _ => hstmt.bind fun body => .pure _

theorem statementWith_goesOn (limit : Nat) (hstmt : GoesOn AnyKind statement)
    (hdecl : GoesOn AnyKind declaration) :
    GoesOn AnyKind (statementWith limit statement declaration) := by
  have hexpr := expression_any_goesOn limit
  refine .peek fun c => ?_
  generalize c.ahead = t
  revert c
  split
  · exact advance_any_goesOn.bind fun _ => forStmt_goesOn hexpr hstmt
  · exact advance_any_goesOn.bind fun _ => ifStmt_goesOn hexpr hstmt
  · exact advance_any_goesOn.bind fun _ => whileStmt_goesOn hexpr hstmt
  · exact advance_any_goesOn.bind fun _ =>
      terminated_goesOn (expressionUnless_goesOn hexpr _) (.ret t) _
  · exact advance_any_goesOn.bind fun _ => (blockEnd_goesOn hdecl limit).map _
  · exact advance_any_goesOn.bind fun _ => terminated_goesOn hexpr .print _
  · exact terminated_goesOn hexpr .expression _

theorem declarationWith_goesOn (limit : Nat) (hstmt : GoesOn AnyKind statement)
    (hdecl : GoesOn AnyKind declaration) :
    GoesOn AnyKind (declarationWith limit statement declaration) := by
  refine .peek fun c => ?_
  generalize c.ahead = t
  revert c
  split
  · exact advance_any_goesOn.bind fun _ => classDecl_goesOn hdecl limit
  · exact advance_any_goesOn.bind fun _ => (function_goesOn hdecl limit .function).map _
  · exact advance_any_goesOn.bind fun _ => varDecl_goesOn (expression_any_goesOn limit)
  · exact statementWith_goesOn limit hstmt hdecl

/-- Statements and declarations nest in each other, so both are shown at once. -/
theorem statement_declaration_goesOn (limit : Nat) :
    GoesOn AnyKind (Parse.statement limit) ∧ GoesOn AnyKind (Parse.declaration limit) := by
  induction limit with
  | zero =>
    rw [Parse.statement, Parse.declaration]
    exact ⟨fail_goesOn _, recover_goesOn (fail_goesOn _)⟩
  | succ limit ih =>
    obtain ⟨hstmt, hdecl⟩ := ih
    rw [Parse.statement, Parse.declaration]
    exact ⟨statementWith_goesOn (limit + 1) hstmt hdecl,
      recover_goesOn (declarationWith_goesOn (limit + 1) hstmt hdecl)⟩

/-- The whole grammar goes on, whatever the tokens are. -/
theorem program_goesOn (limit : Nat) : GoesOn AnyKind (program limit) :=
  declarations_goesOn (statement_declaration_goesOn limit).2 _ limit

end Statements

end Parse

/-! ### Lists of tokens -/

/-- The faults that parsing has found. -/
def Parsed.faults (p : Parsed) : List Diagnostic :=
  match p.result with
  | .ok _ => []
  | .error faults => faults

section Tokens

variable (tokens : List Token) (firstId : NodeId)

/-- Parsing leads onward from the first token, and the faults are those that are found then, in the
order in which they are noted.  There is one unless the tokens are parsed. -/
theorem parse_onward :
    let start := Cursor.ofTokens tokens firstId
    ∃ spots : List Spot, firstId ≤ (parse tokens firstId).nextId ∧
      (parse tokens firstId).faults = spots.map (Spot.diagnostic start.endLine) ∧
      (spots = [] → ∃ statements, (parse tokens firstId).result = .ok statements) ∧
      (∀ s ∈ spots, s.ahead <:+ start.rest) ∧ spots.Pairwise Spot.Precedes := by
  intro start
  have hnone : start.faults = [] := rfl
  have h := Parse.program_goesOn start.rest.length start
  unfold Parse.GoesOnFrom at h
  unfold parse Parsed.faults
  simp only
  split
  · next ss c hp =>
    rw [hp] at h
    obtain ⟨past, found, h⟩ := h
    have hfaults := h.faults
    rw [hnone, List.append_nil] at hfaults
    refine ⟨found, h.nextId_le, ?_, fun hempty => ?_, fun s hs => (h.within s hs).2, h.ordered⟩
    · rw [hfaults]
      cases found with
      | nil => rfl
      | cons s found => simp
    · exact ⟨ss, by rw [hfaults, hempty]; rfl⟩
  · next d c hp =>
    rw [hp] at h
    -- the fault with which reading has failed is the last one
    obtain ⟨⟨past, found, h⟩, fault, hd⟩ := h
    have hfaults := h.faults
    rw [hnone, List.append_nil] at hfaults
    refine ⟨found ++ [⟨c.rest, fault⟩], h.nextId_le, ?_, fun hempty => by simp at hempty, ?_, ?_⟩
    · simp only [List.reverse_cons, hfaults, List.reverse_reverse, List.map_append,
        List.map_singleton, hd]
    · exact List.forall_mem_append.mpr ⟨fun s hs => (h.within s hs).2,
        List.forall_mem_singleton.mpr h.rest_suffix⟩
    · refine List.pairwise_append.mpr ⟨h.ordered, List.pairwise_singleton .., fun a ha b hb => ?_⟩
      rw [List.mem_singleton.mp hb]
      exact .inl (h.within a ha).1

/-- Parsing never lowers the number for the next node, whatever the tokens are and however it
ends. -/
theorem parse_nextId_mono : firstId ≤ (parse tokens firstId).nextId :=
  (parse_onward tokens firstId).elim fun _ h => h.1

/-- A list of tokens that is not parsed has at least one fault, and all of them are faults of the
grammar. -/
theorem parse_faults {faults : List Diagnostic}
    (herror : (parse tokens firstId).result = .error faults) :
    faults ≠ [] ∧ ∀ d ∈ faults, d.IsGrammar := by
  obtain ⟨spots, -, hfaults, hparsed, -⟩ := parse_onward tokens firstId
  unfold Parsed.faults at hfaults
  simp only [herror] at hfaults hparsed
  refine ⟨fun hnil => ?_, fun d hd => ?_⟩
  · obtain ⟨ss, hss⟩ := hparsed (List.map_eq_nil_iff.mp (hfaults.symm.trans hnil))
    cases hss
  · obtain ⟨s, -, rfl⟩ := List.mem_map.mp (hfaults ▸ hd)
    exact ⟨_, _, rfl⟩

end Tokens

end Lox
