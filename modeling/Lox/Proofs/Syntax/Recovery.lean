/-
Recovery from a fault.

A text that ends with its only semicolon is one statement or a faulty one.  Whatever is wrong with
it, reading resumes exactly behind the semicolon, so that the faults of a program that begins with
such a text are the faults of the text, and behind them those of the rest.

* `SimpleText` — tokens that end with their only semicolon, and begin no statement further in;
* `resume_enclosed` — from any token of such a text, reading resumes behind it;
* `declaration_enclosed` — a declaration reads the text to its end, and no further;
* `parse_append` — the faults and the statements of such a text and of what follows.

Design notes: the faults come from two readings in lockstep, since a faulty text has no tree.  The
statements come from trees, which stand one behind the other.
-/
import Lox.Proofs.Syntax.Joining
import Lox.Proofs.Syntax.Lockstep

namespace Lox

/-- Tokens that end with their only semicolon, without braces and without an end of the source
among them.  A word that begins a statement stands at the front if anywhere, and begins a simple
one. -/
structure SimpleText (b : List Token) : Prop where
  closed : ∃ front semicolon, b = front ++ [semicolon] ∧
    semicolon.kind.isMark .semicolon = true ∧ ∀ t ∈ front, t.kind.isMark .semicolon = false
  inside : ∀ t ∈ b, t.kind.isEnd = false ∧ t.kind.isMark .leftBrace = false ∧
    t.kind.isMark .rightBrace = false
  behind : ∀ t ∈ b.tail, t.kind.beginsStatement = false
  ahead : ∀ t ∈ b.head?, t.kind.beginsStatement = true →
    t.kind.isKeyword .var_ = true ∨ t.kind.isKeyword .print_ = true ∨
      t.kind.isKeyword .return_ = true

/-! ### Resuming -/

section Resuming

variable {front rest : List Token} {semicolon : Token}

theorem not_beginsStatement_of_isMark {k : Kind} {m : Mark} (h : k.isMark m = true) :
    k.beginsStatement = false := by
  cases k with
  | mark m' => rfl
  | _ => cases h

/-- Behind a semicolon reading resumes at once. -/
theorem resumeAfter_semicolon (h : semicolon.kind.isMark .semicolon = true) (ts : List Token) :
    resumeAfter semicolon ts = ts := by
  cases ts with
  | nil => rfl
  | cons t ts =>
    unfold resumeAfter
    rw [h]
    rfl

theorem resumeAfter_enclosed {previous : Token}
    (hprevious : previous.kind.isMark .semicolon = false)
    (hfront : ∀ t ∈ front, t.kind.isMark .semicolon = false ∧ t.kind.beginsStatement = false)
    (h : semicolon.kind.isMark .semicolon = true) :
    resumeAfter previous (front ++ semicolon :: rest) = rest := by
  induction front generalizing previous with
  | nil =>
    rw [List.nil_append, resumeAfter, hprevious, not_beginsStatement_of_isMark h]
    exact resumeAfter_semicolon h rest
  | cons t front ih =>
    rw [List.forall_mem_cons] at hfront
    rw [List.cons_append, resumeAfter, hprevious, hfront.1.2]
    exact ih hfront.1.1 hfront.2

/-- Reading resumes behind the next semicolon, unless a word that begins a statement stands before
it; a word at which reading has failed is skipped. -/
theorem resume_enclosed (hmark : ∀ t ∈ front, t.kind.isMark .semicolon = false)
    (hword : ∀ t ∈ front.tail, t.kind.beginsStatement = false)
    (h : semicolon.kind.isMark .semicolon = true) :
    resume (front ++ semicolon :: rest) = rest := by
  cases front with
  | nil => exact resumeAfter_semicolon h rest
  | cons t front =>
    rw [List.forall_mem_cons] at hmark
    exact resumeAfter_enclosed hmark.1 (fun u hu => ⟨hmark.2 u hu, hword u hu⟩) h

end Resuming

namespace Parse

/-! ### A simple statement -/

theorem not_expressionKind_semicolon {k : Kind} (h : k.isMark .semicolon = true) :
    ¬ ExpressionKind k := by
  cases k with
  | mark m =>
    have hm : m = .semicolon := beq_iff_eq.mp h
    rw [hm]
    decide
  | _ => cases h

/-- Two readings of a text, of which the first has `rest` behind the text and the second has nothing
there, have come to the end of the text and found the same faults. -/
structure ComeThrough (rest : List Token) (c d c' d' : Cursor) (found : List Diagnostic) :
    Prop where
  left : c'.rest = rest
  right : d'.rest = []
  endLine : c'.endLine = c.endLine
  faults : c'.faults = found ++ c.faults
  faults' : d'.faults = found ++ d.faults

/-- A statement that is closed by the semicolon at the end of a text is read up to there, and so it
is when it fails somewhere in the text. -/
theorem recover_enclosed {p q : Parse Stmt} {c d : Cursor} {front rest : List Token}
    {semicolon : Token} {least : Nat}
    (h : InStepFrom ExpressionKind true least Whatever c d p q)
    (hc : c.rest = front ++ semicolon :: rest) (hd : d.rest = front ++ [semicolon])
    (hmark : ∀ t ∈ front, t.kind.isMark .semicolon = false)
    (hword : ∀ t ∈ front.tail, t.kind.beginsStatement = false)
    (hsemicolon : semicolon.kind.isMark .semicolon = true) :
    ∃ s s' c' d' found, recover p c = .ok s c' ∧ recover q d = .ok s' d' ∧
      ComeThrough rest c d c' d' found := by
  unfold InStepFrom at h
  unfold recover
  split at h
  · next s c' s' d' hp hq =>
    obtain ⟨-, past, found, hgo⟩ := h
    obtain ⟨taken, last, rfl, -, hlast⟩ := hgo.taken
    have hright : front ++ [semicolon] = taken ++ [last] ++ d'.rest := hd.symm.trans hgo.right
    have hleft : front ++ semicolon :: rest = taken ++ [last] ++ c'.rest := hc.symm.trans hgo.left
    -- the semicolon that was taken is the only one
    have hend : d'.rest = [] := by
      rcases List.eq_nil_or_concat d'.rest with hnil | ⟨more, u, hmore⟩
      · exact hnil
      · rw [hmore, List.concat_eq_append, ← List.append_assoc] at hright
        have hfront : front = taken ++ [last] ++ more := (List.append_inj' hright rfl).1
        have hmem : last ∈ front := by rw [hfront]; simp
        rw [hmark last hmem] at hlast
        cases hlast
    rw [hend, List.append_nil] at hright
    rw [← List.singleton_append, ← List.append_assoc, hright] at hleft
    simp only [hp, hq]
    exact ⟨_, _, _, _, found, rfl, rfl, (List.append_cancel_left hleft).symm, hend, hgo.endLine,
      hgo.faults, hgo.faults'⟩
  · next f c' f' d' hp hq =>
    obtain ⟨rfl, past, found, hgo⟩ := h
    have hright : front ++ [semicolon] = past ++ d'.rest := hd.symm.trans hgo.right
    have hleft : front ++ semicolon :: rest = past ++ c'.rest := hc.symm.trans hgo.left
    -- the semicolon is still ahead, since no expression contains one
    obtain ⟨more, hfront, hrest⟩ :
        ∃ more, front = past ++ more ∧ d'.rest = more ++ [semicolon] := by
      rcases List.eq_nil_or_concat d'.rest with hnil | ⟨more, u, hmore⟩
      · rw [hnil, List.append_nil] at hright
        have hmem : semicolon ∈ past := by rw [← hright]; simp
        exact absurd (hgo.taken semicolon hmem) (not_expressionKind_semicolon hsemicolon)
      · rw [hmore, List.concat_eq_append, ← List.append_assoc] at hright
        obtain ⟨hfront, hu⟩ := List.append_inj' hright rfl
        exact ⟨more, hfront, by rw [hmore, List.concat_eq_append, hu]⟩
    rw [hfront, List.append_assoc] at hleft
    have hrest' : c'.rest = more ++ semicolon :: rest := (List.append_cancel_left hleft).symm
    have hmark' : ∀ t ∈ more, t.kind.isMark .semicolon = false := fun t ht =>
      hmark t (hfront ▸ List.mem_append_right past ht)
    have hword' : ∀ t ∈ more.tail, t.kind.beginsStatement = false := by
      intro t ht
      refine hword t ?_
      rw [hfront]
      cases past with
      | nil => exact ht
      | cons u past => exact List.mem_append_right past (List.mem_of_mem_tail ht)
    simp only [hp, hq]
    refine ⟨_, _, _, _, f' :: found, rfl, rfl, ?_, ?_, hgo.endLine, congrArg (f' :: ·) hgo.faults,
      congrArg (f' :: ·) hgo.faults'⟩
    · show resume c'.rest = rest
      rw [hrest']
      exact resume_enclosed hmark' hword' hsemicolon
    · show resume d'.rest = []
      rw [hrest]
      exact resume_enclosed hmark' hword' hsemicolon
  · exact h.elim

/-- What begins with no brace and with no word that begins a statement is an expression. -/
theorem declarationWith_of_expression {t : Token} (hbegins : t.kind.beginsStatement = false)
    (hbrace : t.kind.isMark .leftBrace = false) {limit : Nat} {statement : Parse Stmt}
    {declaration : Parse (Option Stmt)} {c : Cursor} (hc : c.ahead = t) :
    declarationWith limit statement declaration c = expressionStmt (expression limit) c := by
  have hword {k : Keyword} (hk : t.kind = .keyword k)
      (hbeginning : (Kind.keyword k).beginsStatement = true) : False := by
    rw [hk, hbeginning] at hbegins
    cases hbegins
  have hstatement : declarationWith limit statement declaration c =
      statementWith limit statement declaration c := by
    unfold declarationWith
    rw [bind_apply]
    simp only [Parse.peek, hc]
    refine congrFun ?_ c
    split
    case h_1 h => exact (hword h rfl).elim
    case h_2 h => exact (hword h rfl).elim
    case h_3 h => exact (hword h rfl).elim
    case h_4 => rfl
  rw [hstatement]
  unfold statementWith
  rw [bind_apply]
  simp only [Parse.peek, hc]
  refine congrFun ?_ c
  split
  case h_1 h => exact (hword h rfl).elim
  case h_2 h => exact (hword h rfl).elim
  case h_3 h => exact (hword h rfl).elim
  case h_4 h => exact (hword h rfl).elim
  case h_5 h =>
    rw [h] at hbrace
    cases hbrace
  case h_6 h => exact (hword h rfl).elim
  case h_7 => rfl

/-- The production of a declaration that begins with no brace, and with no word but those of simple
statements, is known from the first token.  It begins behind that word or with that token, and is
closed by a semicolon. -/
theorem exists_production {t : Token} (hbrace : t.kind.isMark .leftBrace = false)
    (hword : t.kind.beginsStatement = true → t.kind.isKeyword .var_ = true ∨
      t.kind.isKeyword .print_ = true ∨ t.kind.isKeyword .return_ = true) :
    ∃ production : Parse Expr → Parse Stmt,
      (∀ {n n' : Nat} {p q : Parse Expr}, ExprInStep n n' p q →
        InStep ExpressionKind true n n' 1 Whatever (production p) (production q)) ∧
      ∀ (limit : Nat) (statement : Parse Stmt) (declaration : Parse (Option Stmt)) (c : Cursor),
        c.ahead = t → declarationWith limit statement declaration c =
          production (expression limit)
            (if t.kind.beginsStatement then { c with rest := c.rest.tail } else c) := by
  cases hbegins : t.kind.beginsStatement with
  | false =>
    exact ⟨expressionStmt, fun h => terminated_inStep h .expression .expressionEnd,
      fun _ _ _ _ hc => declarationWith_of_expression hbegins hbrace hc⟩
  | true =>
    rcases hword hbegins with h | h | h
    · refine ⟨varDecl, fun h => varDecl_inStep h, fun limit statement declaration c hc => ?_⟩
      unfold declarationWith
      simp only [bind_apply, Parse.peek, hc, Concrete.eq_of_isKeyword h, advance, if_true]
    · refine ⟨printStmt, fun h => terminated_inStep h .print .printEnd,
        fun limit statement declaration c hc => ?_⟩
      unfold declarationWith statementWith
      simp only [bind_apply, Parse.peek, hc, Concrete.eq_of_isKeyword h, advance, if_true]
    · refine ⟨fun p => returnStmt p t,
        fun h => terminated_inStep (expressionUnless_inStep h .semicolon) (.ret t) .returnEnd,
        fun limit statement declaration c hc => ?_⟩
      unfold declarationWith statementWith
      simp only [bind_apply, Parse.peek, hc, Concrete.eq_of_isKeyword h, advance, if_true]

/-- A declaration reads a simple text to its end and no further, whether it is one or not, and finds
the same faults as if nothing stood behind the text. -/
theorem declaration_enclosed {b rest : List Token} (hb : SimpleText b) {c d : Cursor}
    (hc : c.rest = b ++ rest) (hd : d.rest = b) {limit limit' : Nat}
    (hlimit : c.rest.length ≤ limit) (hlimit' : d.rest.length ≤ limit') :
    ∃ s s' c' d' found, declaration limit c = .ok s c' ∧ declaration limit' d = .ok s' d' ∧
      ComeThrough rest c d c' d' found := by
  obtain ⟨front, semicolon, rfl, hsemicolon, hmark⟩ := hb.closed
  obtain ⟨t, ts, hts⟩ : ∃ t ts, front ++ [semicolon] = t :: ts :=
    List.exists_cons_of_ne_nil (List.append_ne_nil_of_right_ne_nil front (List.cons_ne_nil _ _))
  have hahead : c.ahead = t ∧ d.ahead = t := by
    unfold Cursor.ahead
    rw [hc, hd, hts]
    exact ⟨rfl, rfl⟩
  rw [List.append_assoc, List.singleton_append] at hc
  -- there is a token ahead, so the limits are positive
  obtain ⟨limit, rfl⟩ : ∃ k, limit = k + 1 := by
    refine Nat.exists_eq_add_one_of_ne_zero fun hzero => ?_
    rw [hzero, hc] at hlimit
    simp at hlimit
  obtain ⟨limit', rfl⟩ : ∃ k, limit' = k + 1 := by
    refine Nat.exists_eq_add_one_of_ne_zero fun hzero => ?_
    rw [hzero, hd] at hlimit'
    simp at hlimit'
  have henclosed {production : Parse Expr → Parse Stmt}
      (hstep : ∀ {n n' : Nat} {p q : Parse Expr}, ExprInStep n n' p q →
        InStep ExpressionKind true n n' 1 Whatever (production p) (production q))
      {front : List Token} {c d : Cursor} (hc : c.rest = front ++ semicolon :: rest)
      (hd : d.rest = front ++ [semicolon]) (hlimit : c.rest.length ≤ limit + 1)
      (hlimit' : d.rest.length ≤ limit' + 1)
      (hmark : ∀ t ∈ front, t.kind.isMark .semicolon = false)
      (hword : ∀ t ∈ front.tail, t.kind.beginsStatement = false) :
      ∃ s s' c' d' found, recover (production (expression (limit + 1))) c = .ok s c' ∧
        recover (production (expression (limit' + 1))) d = .ok s' d' ∧
        ComeThrough rest c d c' d' found := by
    have habreast : c.Abreast ExpressionKind (limit + 1) (limit' + 1) d := by
      refine ⟨?_, hlimit, hlimit'⟩
      rw [hc, hd]
      exact .upTo front (not_expressionKind_semicolon hsemicolon)
    exact recover_enclosed (hstep (expression_inStep (Nat.le_refl _) (Nat.le_refl _)) c d habreast)
      hc hd hmark hword hsemicolon
  have hmem : t ∈ front ++ [semicolon] := hts ▸ List.mem_cons_self ..
  have hfirst : t ∈ (front ++ [semicolon]).head? := by rw [hts]; rfl
  obtain ⟨production, hstep, happly⟩ :=
    exists_production (hb.inside t hmem).2.1 (hb.ahead t hfirst)
  have hrecover {limit : Nat} {c : Cursor} (hahead : c.ahead = t) :
      declaration (limit + 1) c = recover (production (expression (limit + 1)))
        (if t.kind.beginsStatement then { c with rest := c.rest.tail } else c) := by
    rw [declaration]
    unfold recover
    rw [happly _ _ _ c hahead]
  rw [hrecover hahead.1, hrecover hahead.2]
  have hbehind := hb.behind
  cases hbegins : t.kind.beginsStatement with
  | false =>
    refine henclosed hstep hc hd hlimit hlimit' hmark fun u hu => hbehind u ?_
    cases front with
    | nil => cases hu
    | cons v front => exact List.mem_append_left _ hu
  | true =>
    cases front with
    | nil =>
      -- a semicolon begins no statement
      cases hts
      rw [not_beginsStatement_of_isMark hsemicolon] at hbegins
      cases hbegins
    | cons v front =>
      rw [List.forall_mem_cons] at hmark
      have hword : ∀ u ∈ front, u.kind.beginsStatement = false := fun u hu =>
        hbehind u (List.mem_append_left _ hu)
      have hrest : c.rest.tail = front ++ semicolon :: rest := by rw [hc]; rfl
      have hrest' : d.rest.tail = front ++ [semicolon] := by rw [hd]; rfl
      obtain ⟨s, s', c', d', found, hp, hq, hthrough⟩ :=
        henclosed (c := { c with rest := c.rest.tail }) (d := { d with rest := d.rest.tail }) hstep
          hrest hrest' (Nat.le_trans (List.length_tail ▸ Nat.sub_le ..) hlimit)
          (Nat.le_trans (List.length_tail ▸ Nat.sub_le ..) hlimit') hmark.2
          fun u hu => hword u (List.mem_of_mem_tail hu)
      exact ⟨s, s', c', d', found, hp, hq, hthrough.left, hthrough.right, hthrough.endLine,
        hthrough.faults, hthrough.faults'⟩

/-! ### A program that begins so -/

/-- The faults that a reading has found in the end, the latest first. -/
def foundBy {α : Type} : EStateM.Result Diagnostic Cursor α → List Diagnostic
  | .ok _ c => c.faults
  | .error fault c => fault :: c.faults

theorem InStepFrom.foundBy {α : Type} {kinds : Kind → Prop} {closed : Bool} {least : Nat}
    {R : α → α → Prop} {c d : Cursor} {p q : Parse α}
    (h : InStepFrom kinds closed least R c d p q) :
    ∃ found, Parse.foundBy (p c) = found ++ c.faults ∧ Parse.foundBy (q d) = found ++ d.faults := by
  unfold InStepFrom at h
  split at h
  · next a c' a' d' hp hq =>
    obtain ⟨-, past, found, hgo⟩ := h
    rw [hp, hq]
    exact ⟨found, hgo.faults, hgo.faults'⟩
  · next f c' f' d' hp hq =>
    obtain ⟨rfl, past, found, hgo⟩ := h
    rw [hp, hq]
    exact ⟨f' :: found, congrArg (f' :: ·) hgo.faults, congrArg (f' :: ·) hgo.faults'⟩
  · exact h.elim

/-- Behind the first declaration the others are read, with a smaller limit. -/
theorem foundBy_declarations {declaration : Parse (Option Stmt)} {limit : Nat} {c c' : Cursor}
    {s : Option Stmt} (hrest : c.rest ≠ []) (hlimit : c.rest.length ≤ limit)
    (hfirst : declaration c = .ok s c') :
    foundBy (declarations declaration (fun _ => false) limit c) =
      foundBy (declarations declaration (fun _ => false) (limit - 1) c') := by
  rw [declarations_apply hlimit]
  obtain ⟨t, ts, hts⟩ := List.exists_cons_of_ne_nil hrest
  simp only [bind_apply, atEnd, isAhead, hts, List.isEmpty_cons, Bool.or_self, Bool.false_eq_true,
    if_false, hfirst]
  cases declarations declaration (fun _ => false) (limit - 1) c' with
  | ok others c'' => cases s <;> rfl
  | error f c'' => rfl

end Parse

section Tokens

variable {b C : List Token} {n m k : NodeId}

theorem parse_faults_eq (tokens : List Token) (firstId : NodeId) :
    let start := Cursor.ofTokens tokens firstId
    (parse tokens firstId).faults =
      (Parse.foundBy (Parse.program start.rest.length start)).reverse := by
  intro start
  unfold parse Parsed.faults Parse.foundBy
  simp only
  cases Parse.program start.rest.length start with
  | ok ss c =>
    cases hfaults : c.faults with
    | nil => simp only [hfaults, List.isEmpty_nil, if_true, List.reverse_nil]
    | cons f fs => simp only [hfaults, List.isEmpty_cons, Bool.false_eq_true, if_false]
  | error f c => rfl

/-- The end of the source is behind a text without one, and so are the tokens that follow. -/
theorem Cursor.ofTokens_append_rest (hb : ∀ t ∈ b, t.kind.isEnd = false) :
    (Cursor.ofTokens (b ++ C) n).rest = b ++ (Cursor.ofTokens C k).rest :=
  List.takeWhile_append_of_pos fun t ht => by rw [hb t ht]; rfl

/-- The source ends on the line on which what follows the text ends, unless nothing does. -/
theorem Cursor.ofTokens_append_endLine (hb : ∀ t ∈ b, t.kind.isEnd = false) (hC : C ≠ []) :
    (Cursor.ofTokens (b ++ C) n).endLine = (Cursor.ofTokens C k).endLine := by
  have hfind : (b ++ C).find? (fun t => t.kind.isEnd) = C.find? fun t => t.kind.isEnd := by
    rw [List.find?_append, List.find?_eq_none.mpr fun t ht => by simp [hb t ht], Option.none_or]
  have hlast : (b ++ C).getLast? = C.getLast? := by
    rw [List.getLast?_append, List.getLast?_eq_some_getLast hC, Option.some_or]
  unfold Cursor.ofTokens
  simp only [hfind, hlast]

/-- The faults of a simple text are found, and then the faults of what follows. -/
theorem parse_faults_append (hb : SimpleText b) :
    (parse (b ++ C) n).faults = (parse b m).faults ++ (parse C k).faults := by
  have hinside : ∀ t ∈ b, t.kind.isEnd = false := fun t ht => (hb.inside t ht).1
  have hrest : (Cursor.ofTokens (b ++ C) n).rest = b ++ (Cursor.ofTokens C k).rest :=
    Cursor.ofTokens_append_rest hinside
  have hrest' : (Cursor.ofTokens b m).rest = b := by
    have h := Cursor.ofTokens_append_rest (C := []) (n := m) (k := m) hinside
    rw [List.append_nil] at h
    exact h.trans (List.append_nil b)
  have hne : b ≠ [] := by
    obtain ⟨front, semicolon, rfl, -⟩ := hb.closed
    exact List.append_ne_nil_of_right_ne_nil front (List.cons_ne_nil _ _)
  rw [parse_faults_eq, parse_faults_eq, parse_faults_eq]
  generalize hlimit : (Cursor.ofTokens (b ++ C) n).rest.length = limit
  generalize hlimit' : (Cursor.ofTokens b m).rest.length = limit'
  obtain ⟨s, s', c, d, found, hp, hq, hthrough⟩ := Parse.declaration_enclosed hb hrest hrest'
    (Nat.le_of_eq hlimit) (Nat.le_of_eq hlimit')
  -- the text alone is read to its end
  have halone : Parse.foundBy (Parse.program limit' (Cursor.ofTokens b m)) = found := by
    unfold Parse.program
    rw [Parse.foundBy_declarations (by rw [hrest']; exact hne) (Nat.le_of_eq hlimit') hq,
      Parse.declarations_at_end hthrough.right]
    exact hthrough.faults'.trans (List.append_nil found)
  -- with the rest behind it, the rest is read next
  have hboth : Parse.foundBy (Parse.program limit (Cursor.ofTokens (b ++ C) n)) =
      Parse.foundBy (Parse.program (Cursor.ofTokens C k).rest.length (Cursor.ofTokens C k)) ++
        found := by
    unfold Parse.program
    rw [Parse.foundBy_declarations (by rw [hrest]; exact List.append_ne_nil_of_left_ne_nil hne _)
      (Nat.le_of_eq hlimit) hp]
    have hfound : c.faults = found := hthrough.faults.trans (List.append_nil found)
    cases hafter : (Cursor.ofTokens C k).rest with
    | nil =>
      rw [Parse.declarations_at_end (hthrough.left.trans hafter), Parse.declarations_at_end hafter]
      exact hfound
    | cons t ts =>
      have hline : (Cursor.ofTokens (b ++ C) n).endLine = (Cursor.ofTokens C k).endLine := by
        refine Cursor.ofTokens_append_endLine hinside ?_
        rintro rfl
        cases hafter
      have hsmaller : (Cursor.ofTokens C k).rest.length ≤ limit - 1 := by
        rw [← hlimit, hrest, List.length_append]
        have := List.length_pos_iff.mpr hne
        omega
      have habreast : c.Abreast Parse.AnyKind (Cursor.ofTokens C k).rest.length
          (Cursor.ofTokens C k).rest.length (Cursor.ofTokens C k) := by
        refine ⟨?_, Nat.le_of_eq (congrArg _ hthrough.left), Nat.le_refl _⟩
        rw [hthrough.left, hthrough.endLine, hline]
        exact .refl _
      have hdeclaration : Parse.AnyInStep (Cursor.ofTokens C k).rest.length
          (Cursor.ofTokens C k).rest.length 1 (Parse.declaration limit)
          (Parse.declaration (Cursor.ofTokens C k).rest.length) :=
        (Parse.statement_declaration_inStep (Nat.le_trans hsmaller (Nat.sub_le limit 1))
          (Nat.le_refl _)).2
      have hstep := Parse.declarations_inStep hdeclaration (fun _ => false) (Nat.le_refl _)
        (Nat.le_refl _) hsmaller (Nat.le_refl _) c (Cursor.ofTokens C k) habreast
      obtain ⟨new, hnew, hnew'⟩ := hstep.foundBy
      have hnone : (Cursor.ofTokens C k).faults = [] := rfl
      rw [hnone, List.append_nil] at hnew'
      rw [← hafter, hnew, hnew', hfound]
  rw [halone, hboth, List.reverse_append]

/-- Lines stay, and numbers from `first` on belong to those from `first'` on. -/
def Pairing.renumbering (first first' : NodeId) : Pairing where
  lines := Eq
  ids id id' := id + first' = id' + first

/-- The abstract syntax of trees with other numbers is a copy. -/
theorem Concrete.astIn_renumbered {ts : List Concrete.Declaration}
    (hl : Concrete.Declaration.AllLegal ts) (first first' : NodeId) :
    Stmt.CopyAll (Pairing.renumbering first first') (Concrete.Declaration.astIn first ts)
      (Concrete.Declaration.astIn first' ts) :=
  (Concrete.Alike.refl (fun _ => rfl) hl).copy fun j _ => by
    have hcomm (i i' : Nat) : i + j + i' = i' + j + i := by omega
    exact hcomm first first'

/-- The faults of a simple text and of what follows are the faults of the text, with nothing behind
it, and then the faults of what follows, with nothing before it.  If both are parsed, they are
parsed together, as the statements of the one and then those of the other, with the numbers that
come in turn. -/
theorem parse_append (b C : List Token) (hb : SimpleText b) (n m k : NodeId) :
    (parse (b ++ C) n).faults = (parse b m).faults ++ (parse C k).faults ∧
    ∀ ss us, (parse b m).result = .ok ss → (parse C k).result = .ok us →
      ∃ ss' us', (parse (b ++ C) n).result = .ok (ss' ++ us') ∧
        Stmt.CopyAll (.renumbering m n) ss ss' ∧
        Stmt.CopyAll (.renumbering k (parse b n).nextId) us us' := by
  refine ⟨parse_faults_append hb, fun ss us hss hus => ?_⟩
  obtain ⟨ts, hts, rfl, -⟩ := Concrete.exists_treesOf hss
  obtain ⟨vs, hvs, rfl, -⟩ := Concrete.exists_treesOf hus
  have hinside : ∀ t ∈ b, t.kind.isEnd = false := fun t ht => (hb.inside t ht).1
  have hboth : Concrete.TreesOf (b ++ C) (ts ++ vs) := by
    have hkept : ∀ t ∈ b, (!t.kind.isEnd) = true := fun t ht => by rw [hinside t ht]; rfl
    refine ⟨hts.legal.append hvs.legal, ?_⟩
    rw [Concrete.Declaration.leavesIn_append, hts.leaves, hvs.leaves,
      List.takeWhile_append_of_pos hkept, List.takeWhile_eq_self_iff.mpr hkept]
  rw [hboth.parse_eq, hts.parse_eq, Concrete.Declaration.astIn_append]
  exact ⟨_, _, rfl, Concrete.astIn_renumbered hts.legal m n,
    Concrete.astIn_renumbered hvs.legal k _⟩

/-- The tokens of `nil;`. -/
def oneValue : List Token :=
  [⟨.keyword .nil_, "nil", 1⟩, ⟨.mark .semicolon, ";", 1⟩]

/-- The tokens of `nil nil;`, which are no statement. -/
def twoValues : List Token :=
  ⟨.keyword .nil_, "nil", 1⟩ :: oneValue

/-- In front of `print nil;`, the fault of `nil nil;` is the only one, and `nil;` is a statement
more. -/
theorem parse_append_values :
    (SimpleText twoValues ∧ (parse (twoValues ++ printingNil) 0).faults =
      [.grammar ⟨.keyword .nil_, "nil", 1⟩ .expressionEnd]) ∧
    SimpleText oneValue ∧ ∃ ss us, (parse (oneValue ++ printingNil) 0).result = .ok (ss ++ us) ∧
      Stmt.CopyAll (.renumbering 0 0) [.expression (.literal .nil)] ss ∧
      Stmt.CopyAll (.renumbering 0 (parse oneValue 0).nextId) [.print (.literal .nil)] us := by
  have htwo : SimpleText twoValues :=
    ⟨⟨_, _, (List.dropLast_concat_getLast (by decide)).symm, rfl, by decide⟩, by decide,
      by decide, by decide⟩
  have hone : SimpleText oneValue :=
    ⟨⟨_, _, (List.dropLast_concat_getLast (by decide)).symm, rfl, by decide⟩, by decide,
      by decide, by decide⟩
  have hfaults := (parse_append twoValues printingNil htwo 0 0 0).1
  have hfirst : (parse twoValues 0).faults =
      [.grammar ⟨.keyword .nil_, "nil", 1⟩ .expressionEnd] := rfl
  have hsecond : (parse printingNil 0).faults = [] := rfl
  rw [hfirst, hsecond, List.append_nil] at hfaults
  exact ⟨⟨htwo, hfaults⟩, hone,
    (parse_append oneValue printingNil hone 0 0 0).2 _ _ rfl rfl⟩

end Tokens

end Lox
