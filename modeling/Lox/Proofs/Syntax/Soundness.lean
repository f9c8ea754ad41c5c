/-
Parsing yields trees.

A reading that succeeds without a fault moves past the leaves of a tree, and what it yields is the
abstract syntax of that tree.

* `Cursor.Moves` — a cursor that moves past some tokens without a fault;
* `expression_sound`, `declaration_sound` — the productions that nest;
* `program_sound` — a program is read up to the end;
* `parse_sound` — what is parsed is the abstract syntax of a tree, the leaves of which are all the
  tokens up to the first end of the source.

Design notes: a reading may go on behind a fault, and `declaration` behind a failure.  That no fault
is there in the end shows, from the end to the beginning, that no reading before has noted one:
each lemma has `c'.faults = []` behind a reading, and `Moves` hands it on to the cursor before.
-/
import Lox.Proofs.Syntax.Concrete

namespace Lox

open Concrete

/-- A cursor that moves past some tokens, where some numbers are taken and no fault is noted. -/
structure Cursor.Moves (c : Cursor) (ts : List Token) (ids : Nat) (c' : Cursor) : Prop where
  rest : c.rest = ts ++ c'.rest
  nextId : c'.nextId = c.nextId + ids
  faults : c.faults = c'.faults

namespace Cursor.Moves

variable {c c' c'' : Cursor} {ts us : List Token} {i j : Nat}

theorem refl (c : Cursor) : c.Moves [] 0 c := ⟨rfl, rfl, rfl⟩

theorem trans (h : c.Moves ts i c') (h' : c'.Moves us j c'') : c.Moves (ts ++ us) (i + j) c'' where
  rest := by rw [h.rest, h'.rest, List.append_assoc]
  nextId := by rw [h'.nextId, h.nextId, Nat.add_assoc]
  faults := h.faults.trans h'.faults

/-- A step past one token. -/
theorem step {t : Token} (h : c.Moves [t] 0 c') (h' : c'.Moves us j c'') :
    c.Moves (t :: us) j c'' := by
  have ht := h.trans h'
  rwa [Nat.zero_add] at ht

theorem cast (h : c.Moves ts i c') (ht : ts = us) (hi : i = j) : c.Moves us j c' := by
  rwa [ht, hi] at h

/-- There was no fault before, either. -/
theorem no_faults (h : c.Moves ts i c') (hf : c'.faults = []) : c.faults = [] :=
  h.faults.trans hf

end Cursor.Moves

namespace Parse

/-! ### The primitives of the cursor -/

section Primitives

variable {α β : Type} {c c' : Cursor}

theorem bind_eq_ok {p : Parse α} {next : α → Parse β} {b : β} (h : (p >>= next) c = .ok b c') :
    ∃ a c₁, p c = .ok a c₁ ∧ next a c₁ = .ok b c' := by
  rw [bind_apply] at h
  cases hp : p c with
  | ok a c₁ =>
    rw [hp] at h
    exact ⟨a, c₁, rfl, h⟩
  | error d c₁ =>
    rw [hp] at h
    cases h

theorem pure_eq_ok {a b : α} (h : (pure a : Parse α) c = .ok b c') : b = a ∧ c' = c := by
  cases h
  exact ⟨rfl, rfl⟩

theorem map_eq_ok {p : Parse α} {f : α → β} {b : β} (h : (f <$> p) c = .ok b c') :
    ∃ a, p c = .ok a c' ∧ b = f a := by
  rw [map_eq_pure_bind] at h
  obtain ⟨a, c₁, hp, h⟩ := bind_eq_ok h
  obtain ⟨rfl, rfl⟩ := pure_eq_ok h
  exact ⟨a, hp, rfl⟩

theorem accept_eq_some {p : Kind → Bool} {t : Token} (h : accept p c = .ok (some t) c') :
    ∃ l : Leaf p, l.token = t ∧ c.Moves [l.token] 0 c' := by
  unfold accept at h
  split at h
  · cases h
  · next t' ts hrest =>
    split at h
    · next hp =>
      cases h
      exact ⟨⟨t, hp⟩, rfl, hrest, rfl, rfl⟩
    · cases h

theorem accept_eq_none {p : Kind → Bool} (h : accept p c = .ok none c') :
    c = c' ∧ NotAhead p c.rest := by
  unfold accept at h
  split at h
  · next hrest =>
    cases h
    exact ⟨rfl, fun t ht => by rw [hrest] at ht; cases ht⟩
  · next t' ts hrest =>
    split at h
    · cases h
    · next hp =>
      cases h
      refine ⟨rfl, fun t ht => ?_⟩
      rw [hrest] at ht
      cases ht
      exact Bool.eq_false_iff.mpr hp

theorem expect_eq_ok {p : Kind → Bool} {fault : GrammarFault} {t : Token}
    (h : expect p fault c = .ok t c') : ∃ l : Leaf p, l.token = t ∧ c.Moves [l.token] 0 c' := by
  obtain ⟨t?, c₁, ha, h⟩ := bind_eq_ok h
  cases t? with
  | some u =>
    obtain ⟨rfl, rfl⟩ := pure_eq_ok h
    exact accept_eq_some ha
  | none => cases h

/-- Behind an expected token, which is a leaf. -/
theorem expect_bind_eq_ok {p : Kind → Bool} {fault : GrammarFault} {next : Token → Parse β} {b : β}
    (h : (expect p fault >>= next) c = .ok b c') :
    ∃ (l : Leaf p) (c₁ : Cursor), c.Moves [l.token] 0 c₁ ∧ next l.token c₁ = .ok b c' := by
  obtain ⟨t, c₁, hexpect, h⟩ := bind_eq_ok h
  obtain ⟨l, rfl, hm⟩ := expect_eq_ok hexpect
  exact ⟨l, c₁, hm, h⟩

theorem isAhead_eq_ok {p : Kind → Bool} {b : Bool} (h : isAhead p c = .ok b c') : c = c' := by
  unfold isAhead at h
  split at h <;> cases h <;> rfl

theorem isAhead_eq_true {p : Kind → Bool} (h : isAhead p c = .ok true c') :
    ∃ t ∈ c.rest.head?, p t.kind = true := by
  unfold isAhead at h
  split at h
  · cases h
  · next t ts hrest =>
    rw [hrest]
    refine ⟨t, rfl, ?_⟩
    injection h

/-- Moving past the token ahead, if it is no end of the source. -/
theorem advance_eq_ok {p : Kind → Bool} (h : advance c = .ok () c') (hp : p c.ahead.kind = true)
    (hend : p .endOfSource = false) : ∃ l : Leaf p, l.token = c.ahead ∧ c.Moves [l.token] 0 c' := by
  cases h
  refine ⟨⟨c.ahead, hp⟩, rfl, ?_, rfl, rfl⟩
  show c.rest = c.ahead :: c.rest.tail
  unfold Cursor.ahead at hp ⊢
  cases hrest : c.rest with
  | nil =>
    rw [hrest] at hp
    exact absurd hp (Bool.eq_false_iff.mp hend)
  | cons t ts => rfl

theorem freshId_eq_ok {id : NodeId} (h : freshId c = .ok id c') :
    id = c.nextId ∧ c.Moves [] 1 c' := by
  cases h
  exact ⟨rfl, rfl, rfl, rfl⟩

theorem report_faults {t : Token} {fault : GrammarFault} (h : report t fault c = .ok () c') :
    c'.faults ≠ [] := by
  cases h
  exact List.cons_ne_nil _ _

/-- What is recovered from without a fault has not failed. -/
theorem recover_eq_ok {p : Parse α} {a? : Option α} (h : recover p c = .ok a? c')
    (hf : c'.faults = []) : ∃ a, a? = some a ∧ p c = .ok a c' := by
  unfold recover at h
  split at h
  · next a c₁ hp =>
    cases h
    exact ⟨a, rfl, hp⟩
  · cases h
    cases hf

end Primitives

/-- From a cursor, what is read without a fault has a property. -/
def Yields {α : Type} (c : Cursor) (p : Parse α) (post : α → Cursor → Prop) : Prop :=
  ∀ ⦃a c'⦄, p c = .ok a c' → c'.faults = [] → post a c'

/-- Looking at the token ahead. -/
theorem Yields.peek {α : Type} {c : Cursor} {next : Token → Parse α} {post : α → Cursor → Prop}
    (h : Yields c (next c.ahead) post) : Yields c (Parse.peek >>= next) post := h

/-- Moving past the token ahead, which is no end of the source, and reading on behind it. -/
theorem Yields.advance {α : Type} {c : Cursor} {p : Parse α} {post : α → Cursor → Prop}
    (kind : Kind → Bool) (hk : kind c.ahead.kind = true) (hend : kind .endOfSource = false)
    (h : ∀ (l : Leaf kind) (c₁ : Cursor), l.token = c.ahead → c.Moves [l.token] 0 c₁ →
      Yields c₁ p post) : Yields c (Parse.advance >>= fun _ => p) post := by
  intro a c' hrun hf
  obtain ⟨_, c₁, hadvance, hrun⟩ := bind_eq_ok hrun
  obtain ⟨l, hl, hm⟩ := advance_eq_ok hadvance hk hend
  exact h l c₁ hl hm hrun hf

/-! ### Lists -/

section Lists

variable {α : Type} {item : Nat → Parse α} {one : Cursor → α → Cursor → Prop}
  (many : Cursor → List α → Cursor → Prop)

/-- Items that are read one after the other make up what `many` says of them, and there are few
enough of them, if this holds of one item and of one more in front. -/
theorem separated_sound
    (hitem : ∀ before c, Yields c (item before) fun a c' => one c a c' ∧ before < maxArguments)
    (hmany : ∀ {c as c'}, many c as c' → c.faults = c'.faults)
    (hsingle : ∀ {c a c'}, one c a c' → many c [a] c')
    (hcons : ∀ {c a c₁} {comma : Punctuation .comma} {c₂ as c'}, one c a c₁ →
      c₁.Moves [comma.token] 0 c₂ → many c₂ as c' → many c (a :: as) c')
    (limit before : Nat) {c : Cursor} :
    Yields c (separated item limit before) fun as c' =>
      many c as c' ∧ before + as.length ≤ maxArguments := by
  induction limit generalizing before c with
  | zero =>
    intro as c' h hf
    obtain ⟨a, c₁, ha, h⟩ := bind_eq_ok h
    obtain ⟨rfl, rfl⟩ := pure_eq_ok h
    obtain ⟨ha, hlt⟩ := hitem before c ha hf
    exact ⟨hsingle ha, hlt⟩
  | succ limit ih =>
    intro as c' h hf
    obtain ⟨a, c₁, ha, h⟩ := bind_eq_ok h
    obtain ⟨comma?, c₂, haccept, h⟩ := bind_eq_ok h
    cases comma? with
    | none =>
      obtain ⟨rfl, rfl⟩ := pure_eq_ok h
      obtain ⟨rfl, -⟩ := accept_eq_none haccept
      obtain ⟨ha, hlt⟩ := hitem before c ha hf
      exact ⟨hsingle ha, hlt⟩
    | some _ =>
      obtain ⟨comma, -, hcomma⟩ := accept_eq_some haccept
      obtain ⟨others, c₃, hothers, h⟩ := bind_eq_ok h
      obtain ⟨rfl, rfl⟩ := pure_eq_ok h
      obtain ⟨hothers, hle⟩ := ih (before + 1) hothers hf
      have hf₁ := hcomma.no_faults ((hmany hothers).trans hf)
      obtain ⟨ha, -⟩ := hitem before c ha hf₁
      refine ⟨hcons ha hcomma hothers, ?_⟩
      rw [List.length_cons]
      omega

end Lists

/-! ### Expressions -/

/-- What is read without a fault is an expression. -/
def YieldsExpression (p : Parse Expr) : Prop :=
  ∀ ⦃c⦄, Yields c p fun e c' =>
    ∃ t : Expression, c.Moves t.leaves t.ids c' ∧ e = t.ast c.nextId ∧ t.Legal

/-- What is read without a fault is an operation. -/
def YieldsOperation (rank : Nat) (p : Parse Expr) : Prop :=
  ∀ ⦃c⦄, Yields c p fun e c' =>
    ∃ t : Operation rank, c.Moves t.leaves t.ids c' ∧ e = t.ast c.nextId ∧ t.Legal

/-- What is read without a fault is a call. -/
def YieldsCall (p : Parse Expr) : Prop :=
  ∀ ⦃c⦄, Yields c p fun e c' =>
    ∃ t : Call, c.Moves t.leaves t.ids c' ∧ e = t.ast c.nextId ∧ t.Legal

section Expressions

variable {expression operand : Parse Expr} {c c' : Cursor}

/-- An argument is read without a fault only if there are few enough before it. -/
theorem argument_sound (hexpr : YieldsExpression expression) (before : Nat) :
    Yields c (argument expression before) fun e c' =>
      (∃ t : Expression, c.Moves t.leaves t.ids c' ∧ e = t.ast c.nextId ∧ t.Legal) ∧
        before < maxArguments := by
  intro e c' h hf
  unfold argument at h
  by_cases hmax : maxArguments ≤ before
  · rw [if_pos hmax] at h
    obtain ⟨token, c₁, -, h⟩ := bind_eq_ok h
    obtain ⟨_, c₂, hreport, h⟩ := bind_eq_ok h
    obtain ⟨t, hm, -, -⟩ := hexpr h hf
    -- the fault that was noted would still be there
    exact absurd (hm.no_faults hf) (report_faults hreport)
  · rw [if_neg hmax] at h
    exact ⟨hexpr h hf, Nat.lt_of_not_le hmax⟩

theorem Arguments.length_ast (first : NodeId) (ts : Arguments) :
    (ts.ast first).length = ts.count := by
  match ts with
  | .last e => rfl
  | .more e comma others => exact congrArg (· + 1) (Arguments.length_ast _ others)

theorem arguments_sound (hexpr : YieldsExpression expression) (limit before : Nat) :
    Yields c (separated (argument expression) limit before) fun es c' =>
      (∃ t : Arguments, c.Moves t.leaves t.ids c' ∧ es = t.ast c.nextId ∧ t.Legal) ∧
        before + es.length ≤ maxArguments := by
  refine separated_sound
    (fun c es c' => ∃ t : Arguments, c.Moves t.leaves t.ids c' ∧ es = t.ast c.nextId ∧ t.Legal)
    (fun before c => argument_sound hexpr before) ?_ ?_ ?_ limit before
  · rintro c es c' ⟨t, hm, -, -⟩
    exact hm.faults
  · rintro c e c' ⟨t, hm, rfl, hl⟩
    exact ⟨.last t, hm, rfl, hl⟩
  · rintro c e c₁ comma c₂ es c' ⟨t, hm, rfl, hl⟩ hcomma ⟨ts, hms, rfl, hls⟩
    refine ⟨.more t comma ts, hm.trans (hcomma.step hms), ?_, hl, hls⟩
    rw [Arguments.ast, hcomma.nextId, hm.nextId, Nat.add_zero]

/-- Behind the opening parenthesis of a call. -/
theorem callEnd_sound (hexpr : YieldsExpression expression) {limit : Nat} {callee e : Expr}
    (h : callEnd expression limit callee c = .ok e c') (hf : c'.faults = []) :
    c.faults = [] ∧ ∀ {c₀ c₁ : Cursor} {t : Call} {opening : Punctuation .leftParen},
      c₀.Moves t.leaves t.ids c₁ → t.Legal → callee = t.ast c₀.nextId →
      c₁.Moves [opening.token] 0 c →
      ∃ t' : Call, c₀.Moves t'.leaves t'.ids c' ∧ e = t'.ast c₀.nextId ∧ t'.Legal := by
  obtain ⟨es, c₂, hes, h⟩ := bind_eq_ok h
  obtain ⟨closing, c₃, hclosing, h⟩ := expect_bind_eq_ok h
  obtain ⟨rfl, rfl⟩ := pure_eq_ok h
  obtain ⟨empty, c₄, hempty, hes⟩ := bind_eq_ok hes
  cases isAhead_eq_ok hempty
  cases empty with
  | true =>
    obtain ⟨rfl, rfl⟩ := pure_eq_ok hes
    refine ⟨hclosing.no_faults hf, fun {c₀ c₁ t opening} hm hl ht ho => ?_⟩
    exact ⟨.invoke t opening closing, hm.trans (ho.step hclosing), by rw [ht]; rfl, hl⟩
  | false =>
    obtain ⟨⟨ts, hms, rfl, hls⟩, hcount⟩ :=
      arguments_sound hexpr limit 0 hes (hclosing.no_faults hf)
    rw [Arguments.length_ast, Nat.zero_add] at hcount
    refine ⟨(hms.trans hclosing).no_faults hf, fun {c₀ c₁ t opening} hm hl ht ho => ?_⟩
    have hid : c.nextId = c₀.nextId + t.ids := by rw [ho.nextId, hm.nextId, Nat.add_zero]
    refine ⟨.invokeWith t opening ts closing, hm.trans (ho.step (hms.trans hclosing)), ?_, hl,
      hcount, hls⟩
    rw [Call.ast, hid, ht]

/-- That there was no fault before the suffixes is known before they are: it is what the tree of the
call before them needs. -/
theorem suffixes_sound (hexpr : YieldsExpression expression) {limit turns : Nat} {callee e : Expr}
    (h : suffixes expression limit turns callee c = .ok e c') (hf : c'.faults = []) :
    c.faults = [] ∧ ∀ {c₀ : Cursor} {t : Call}, c₀.Moves t.leaves t.ids c → t.Legal →
      callee = t.ast c₀.nextId →
      ∃ t' : Call, c₀.Moves t'.leaves t'.ids c' ∧ e = t'.ast c₀.nextId ∧ t'.Legal := by
  induction turns generalizing callee c with
  | zero =>
    obtain ⟨rfl, rfl⟩ := pure_eq_ok h
    exact ⟨hf, fun hm hl ht => ⟨_, hm, ht, hl⟩⟩
  | succ turns ih =>
    obtain ⟨paren?, c₁, hparen, h⟩ := bind_eq_ok h
    cases paren? with
    | some _ =>
      obtain ⟨opening, -, ho⟩ := accept_eq_some hparen
      obtain ⟨e', c₂, hcall, h⟩ := bind_eq_ok h
      obtain ⟨hf₂, hrest⟩ := ih h
      obtain ⟨hf₁, hcall⟩ := callEnd_sound hexpr hcall hf₂
      refine ⟨ho.no_faults hf₁, fun hm hl ht => ?_⟩
      obtain ⟨t', hm', rfl, hl'⟩ := hcall hm hl ht ho
      exact hrest hm' hl' rfl
    | none =>
      obtain ⟨rfl, -⟩ := accept_eq_none hparen
      obtain ⟨dot?, c₂, hdot, h⟩ := bind_eq_ok h
      cases dot? with
      | none =>
        obtain ⟨rfl, rfl⟩ := pure_eq_ok h
        obtain ⟨rfl, -⟩ := accept_eq_none hdot
        exact ⟨hf, fun hm hl ht => ⟨_, hm, ht, hl⟩⟩
      | some _ =>
        obtain ⟨dot, -, hdot⟩ := accept_eq_some hdot
        obtain ⟨name, c₃, hname, h⟩ := expect_bind_eq_ok h
        obtain ⟨hf₃, hrest⟩ := ih h
        refine ⟨(hdot.step hname).no_faults hf₃, fun {c₀ t} hm hl ht => ?_⟩
        exact hrest (t := .property t dot name) (hm.trans (hdot.step hname)) hl (by rw [ht]; rfl)

theorem leaf_eq_ok {p : Kind → Bool} {e e' : Expr} (h : leaf e c = .ok e' c')
    (hp : p c.ahead.kind = true) (hend : p .endOfSource = false) :
    e' = e ∧ ∃ l : Leaf p, l.token = c.ahead ∧ c.Moves [l.token] 0 c' := by
  obtain ⟨_, c₁, hadv, h⟩ := bind_eq_ok h
  obtain ⟨rfl, rfl⟩ := pure_eq_ok h
  exact ⟨rfl, advance_eq_ok hadv hp hend⟩

theorem primary_sound (hexpr : YieldsExpression expression) : YieldsCall (primary expression) := by
  intro c
  refine Yields.peek ?_
  -- a token that is a literal
  have hliteral : ∀ {v : Literal}, c.ahead.kind.literal? = some v →
      Yields c (leaf (.literal v)) fun e c' =>
        ∃ t : Call, c.Moves t.leaves t.ids c' ∧ e = t.ast c.nextId ∧ t.Legal := by
    intro v hv e c' h hf
    obtain ⟨rfl, l, hl, hm⟩ :=
      leaf_eq_ok (p := fun k => k.literal?.isSome) h (by rw [hv]; rfl) rfl
    refine ⟨.literal l, hm, ?_, trivial⟩
    rw [Call.ast, hl, hv]
    rfl
  split
  · next hk => exact hliteral (by rw [hk]; rfl)
  · next hk => exact hliteral (by rw [hk]; rfl)
  · next hk => exact hliteral (by rw [hk]; rfl)
  · next hk => exact hliteral (by rw [hk]; rfl)
  · next hk => exact hliteral (by rw [hk]; rfl)
  · next hk =>
    intro e c' h hf
    obtain ⟨id, c₁, hid, h⟩ := bind_eq_ok h
    cases hid
    obtain ⟨rfl, l, hl, hm⟩ := leaf_eq_ok (p := Kind.isKeyword .this_) h
      (show Kind.isKeyword .this_ c.ahead.kind = true by rw [hk]; rfl) rfl
    refine ⟨.thisRef l, ⟨hm.rest, hm.nextId, hm.faults⟩, ?_, trivial⟩
    rw [Call.ast, hl]
    rfl
  · next hk =>
    intro e c' h hf
    obtain ⟨id, c₁, hid, h⟩ := bind_eq_ok h
    cases hid
    obtain ⟨rfl, l, hl, hm⟩ := leaf_eq_ok (p := Kind.isIdentifier) h
      (show Kind.isIdentifier c.ahead.kind = true by rw [hk]; rfl) rfl
    refine ⟨.name l, ⟨hm.rest, hm.nextId, hm.faults⟩, ?_, trivial⟩
    rw [Call.ast, hl]
    rfl
  · next hk =>
    refine .advance (Kind.isKeyword .super_) (by rw [hk]; rfl) rfl fun keyword c₁ hl hm => ?_
    intro e c' h hf
    obtain ⟨dot, c₂, hdot, h⟩ := expect_bind_eq_ok h
    obtain ⟨method, c₃, hmethod, h⟩ := expect_bind_eq_ok h
    obtain ⟨id, c₄, hfresh, h⟩ := bind_eq_ok h
    obtain ⟨rfl, hid⟩ := freshId_eq_ok hfresh
    obtain ⟨rfl, rfl⟩ := pure_eq_ok h
    have hto := hm.step (hdot.step hmethod)
    refine ⟨.superRef keyword dot method, hto.trans hid, ?_, trivial⟩
    rw [Call.ast, hl, hto.nextId, Nat.add_zero]
  · next hk =>
    refine .advance (Kind.isMark .leftParen) (by rw [hk]; rfl) rfl fun opening c₁ _ ho => ?_
    intro e c' h hf
    obtain ⟨inner, c₂, hinner, h⟩ := bind_eq_ok h
    obtain ⟨closing, c₃, hclosing, h⟩ := expect_bind_eq_ok h
    obtain ⟨rfl, rfl⟩ := pure_eq_ok h
    obtain ⟨t, hm, rfl, hl⟩ := hexpr hinner (hclosing.no_faults hf)
    refine ⟨.group opening t closing, ho.step (hm.trans hclosing), ?_, hl⟩
    rw [Call.ast, ho.nextId, Nat.add_zero]
  · intro e c' h hf
    cases h

theorem call_sound (hexpr : YieldsExpression expression) (limit : Nat) :
    YieldsCall (call expression limit) := by
  intro c e c' h hf
  obtain ⟨callee, c₁, hprimary, h⟩ := bind_eq_ok h
  obtain ⟨hf₁, hsuffixes⟩ := suffixes_sound hexpr h hf
  obtain ⟨t, hm, rfl, hl⟩ := primary_sound hexpr hprimary hf₁
  exact hsuffixes hm hl rfl

theorem unary_sound (hoperand : YieldsCall operand) (limit : Nat) :
    YieldsOperation 0 (unary operand limit) := by
  induction limit with
  | zero =>
    intro c e c' h hf
    obtain ⟨t, hm, he, hl⟩ := hoperand h hf
    exact ⟨.call t, hm, he, hl⟩
  | succ limit ih =>
    intro c e c' h hf
    obtain ⟨operator?, c₁, haccept, h⟩ := bind_eq_ok h
    cases operator? with
    | none =>
      obtain ⟨rfl, -⟩ := accept_eq_none haccept
      obtain ⟨t, hm, he, hl⟩ := hoperand h hf
      exact ⟨.call t, hm, he, hl⟩
    | some _ =>
      obtain ⟨operator, rfl, ho⟩ := accept_eq_some haccept
      obtain ⟨right, c₂, hright, h⟩ := bind_eq_ok h
      obtain ⟨rfl, rfl⟩ := pure_eq_ok h
      obtain ⟨t, hm, rfl, hl⟩ := ih hright hf
      refine ⟨.unary operator t, ho.step hm, ?_, hl⟩
      rw [Operation.ast, ho.nextId, Nat.add_zero]

theorem leftChain_sound {rank : Nat} (hoperand : YieldsOperation rank operand) {limit : Nat}
    {left e : Expr}
    (h : leftChain (Kind.hasRank (rank + 1)) (operatorNode (rank + 1)) operand limit left c =
      .ok e c') (hf : c'.faults = []) :
    c.faults = [] ∧ ∀ {c₀ : Cursor} {t : Operation (rank + 1)}, c₀.Moves t.leaves t.ids c →
      t.Legal → left = t.ast c₀.nextId →
      ∃ t' : Operation (rank + 1), c₀.Moves t'.leaves t'.ids c' ∧ e = t'.ast c₀.nextId ∧
        t'.Legal := by
  induction limit generalizing left c with
  | zero =>
    obtain ⟨rfl, rfl⟩ := pure_eq_ok h
    exact ⟨hf, fun hm hl ht => ⟨_, hm, ht, hl⟩⟩
  | succ limit ih =>
    obtain ⟨operator?, c₁, haccept, h⟩ := bind_eq_ok h
    cases operator? with
    | none =>
      obtain ⟨rfl, -⟩ := accept_eq_none haccept
      obtain ⟨rfl, rfl⟩ := pure_eq_ok h
      exact ⟨hf, fun hm hl ht => ⟨_, hm, ht, hl⟩⟩
    | some _ =>
      obtain ⟨operator, rfl, ho⟩ := accept_eq_some haccept
      obtain ⟨right, c₂, hright, h⟩ := bind_eq_ok h
      obtain ⟨hf₂, hrest⟩ := ih h
      obtain ⟨r, hr, rfl, hlr⟩ := hoperand hright hf₂
      have hor := ho.step hr
      refine ⟨hor.no_faults hf₂, fun {c₀ t} hm hl ht => ?_⟩
      have hid : c₁.nextId = c₀.nextId + t.ids := by rw [ho.nextId, hm.nextId, Nat.add_zero]
      refine hrest (t := .binary t operator r) (hm.trans hor) ⟨hl, hlr⟩ ?_
      rw [Operation.ast, ht, hid]

theorem operation_sound (hexpr : YieldsExpression expression) (limit rank : Nat) :
    YieldsOperation rank (operation expression limit rank) := by
  induction rank with
  | zero => exact unary_sound (call_sound hexpr limit) limit
  | succ rank ih =>
    intro c e c' h hf
    obtain ⟨first, c₁, hfirst, h⟩ := bind_eq_ok h
    obtain ⟨hf₁, hchain⟩ := leftChain_sound ih h hf
    obtain ⟨t, hm, rfl, hl⟩ := ih hfirst hf₁
    exact hchain (t := .operand t) hm hl rfl

end Expressions

/-! ### Assignments -/

/-- An expression that can be assigned to. -/
def isTarget : Expr → Bool
  | .var .. | .get .. => true
  | _ => false

theorem operatorNode_isTarget (rank : Nat) (left : Expr) (operator : Token) (right : Expr) :
    isTarget (operatorNode rank left operator right) = false := by
  unfold operatorNode
  split <;> rfl

/-- An operation that can be assigned to is a call, and nothing but it. -/
theorem exists_call_of_isTarget {first : NodeId} {rank : Nat} (e : Operation rank)
    (h : isTarget (e.ast first) = true) :
    ∃ c : Call, e.leaves = c.leaves ∧ e.ids = c.ids ∧ e.ast first = c.ast first ∧
      (e.Legal → c.Legal) := by
  match rank, e with
  | _, .call c => exact ⟨c, rfl, rfl, rfl, id⟩
  | _, .unary operator right => cases h
  | _, .operand e => exact exists_call_of_isTarget e h
  | _, .binary left operator right =>
    rw [Operation.ast, operatorNode_isTarget] at h
    cases h

/-- A name that is read as an operation. -/
theorem exists_name {first : NodeId} {rank : Nat} {e : Operation rank} {id : NodeId} {name : Token}
    (h : e.ast first = .var id name) :
    ∃ l : Name, e.leaves = [l.token] ∧ e.ids = 1 ∧ name = l.token := by
  obtain ⟨c, hc, hi, ha, -⟩ := exists_call_of_isTarget e (by rw [h]; rfl)
  rw [hc, hi]
  rw [h] at ha
  cases c with
  | name l =>
    cases ha
    exact ⟨l, rfl, rfl, rfl⟩
  | _ => cases ha

/-- A property that is read as an operation. -/
theorem exists_property {first : NodeId} {rank : Nat} {e : Operation rank} {object : Expr}
    {name : Token} (h : e.ast first = .get object name) :
    ∃ (o : Call) (dot : Punctuation .dot) (l : Name), e.leaves = o.leaves ++ [dot.token, l.token] ∧
      e.ids = o.ids ∧ object = o.ast first ∧ name = l.token ∧ (e.Legal → o.Legal) := by
  obtain ⟨c, hc, hi, ha, hl⟩ := exists_call_of_isTarget e (by rw [h]; rfl)
  rw [hc, hi]
  rw [h] at ha
  cases c with
  | property o dot l =>
    cases ha
    exact ⟨o, dot, l, rfl, rfl, rfl, rfl, hl⟩
  | _ => cases ha

/-- Behind the target and the value of an assignment. -/
theorem assignTo_sound {c₀ c₁ c₂ c₃ : Cursor} {target : Operation 6}
    {equals : Punctuation .equal} {value : Expression}
    (ht : c₀.Moves target.leaves target.ids c₁) (hlt : target.Legal)
    (he : c₁.Moves [equals.token] 0 c₂) (hv : c₂.Moves value.leaves value.ids c₃)
    (hlv : value.Legal) :
    Yields c₃ (assignTo (target.ast c₀.nextId) equals.token (value.ast c₂.nextId)) fun e c' =>
      ∃ t : Expression, c₀.Moves t.leaves t.ids c' ∧ e = t.ast c₀.nextId ∧ t.Legal := by
  have hid : c₂.nextId = c₀.nextId + target.ids := by rw [he.nextId, ht.nextId, Nat.add_zero]
  unfold assignTo
  split
  · next id name hvar =>
    intro e c' h hf
    obtain ⟨id, c₄, hfresh, h⟩ := bind_eq_ok h
    obtain ⟨rfl, hnew⟩ := freshId_eq_ok hfresh
    obtain ⟨rfl, rfl⟩ := pure_eq_ok h
    obtain ⟨l, hleaves, hids, rfl⟩ := exists_name hvar
    have hm := (ht.trans (he.step hv)).trans hnew
    refine ⟨.assign l equals value, hm.cast ?_ ?_, ?_, hlv⟩
    · rw [hleaves, List.append_nil]
      rfl
    · rw [hids]
      rfl
    · rw [Expression.ast, hv.nextId, hid, hids]
  · next object name hget =>
    intro e c' h hf
    obtain ⟨rfl, rfl⟩ := pure_eq_ok h
    obtain ⟨o, dot, l, hleaves, hids, rfl, rfl, hl⟩ := exists_property hget
    have hm := ht.trans (he.step hv)
    refine ⟨.set o dot l equals value, hm.cast ?_ ?_, ?_, hl hlt, hlv⟩
    · rw [hleaves, List.append_assoc]
      rfl
    · rw [hids]
      rfl
    · rw [Expression.ast, hid, hids]
  · intro e c' h hf
    obtain ⟨_, c₄, hreport, h⟩ := bind_eq_ok h
    obtain ⟨rfl, rfl⟩ := pure_eq_ok h
    exact absurd hf (report_faults hreport)

theorem assignTo_faults {target value : Expr} {equals : Token} {c : Cursor} :
    Yields c (assignTo target equals value) fun _ _ => c.faults = [] := by
  unfold assignTo
  split
  · intro e c' h hf
    obtain ⟨id, c₄, hfresh, h⟩ := bind_eq_ok h
    obtain ⟨rfl, rfl⟩ := pure_eq_ok h
    exact (freshId_eq_ok hfresh).2.no_faults hf
  · intro e c' h hf
    obtain ⟨rfl, rfl⟩ := pure_eq_ok h
    exact hf
  · intro e c' h hf
    obtain ⟨_, c₄, hreport, h⟩ := bind_eq_ok h
    obtain ⟨rfl, rfl⟩ := pure_eq_ok h
    exact absurd hf (report_faults hreport)

theorem assignment_sound {expression : Parse Expr} (hexpr : YieldsExpression expression)
    (limit : Nat) : YieldsExpression (assignment expression limit) := by
  intro c e c' h hf
  obtain ⟨target, c₁, htarget, h⟩ := bind_eq_ok h
  rw [disjunction_eq] at htarget
  obtain ⟨equals?, c₂, haccept, h⟩ := bind_eq_ok h
  cases equals? with
  | none =>
    obtain ⟨rfl, rfl⟩ := pure_eq_ok h
    obtain ⟨rfl, -⟩ := accept_eq_none haccept
    obtain ⟨t, hm, rfl, hl⟩ := operation_sound hexpr limit 6 htarget hf
    exact ⟨.operation t, hm, rfl, hl⟩
  | some _ =>
    obtain ⟨equals, rfl, he⟩ := accept_eq_some haccept
    obtain ⟨value, c₃, hvalue, h⟩ := bind_eq_ok h
    have hf₃ := assignTo_faults h hf
    obtain ⟨v, hv, rfl, hlv⟩ := hexpr hvalue hf₃
    obtain ⟨t, ht, rfl, hlt⟩ := operation_sound hexpr limit 6 htarget ((he.step hv).no_faults hf₃)
    exact assignTo_sound ht hlt he hv hlv h hf

/-- What is read as an expression without a fault is one. -/
theorem expression_sound (limit : Nat) : YieldsExpression (expression limit) := by
  induction limit with
  | zero =>
    intro c e c' h hf
    cases h
  | succ limit ih => exact assignment_sound ih (limit + 1)

/-! ### Declarations and statements -/

/-- What is read without a fault is a statement, which no `else` follows that it could take. -/
def YieldsStatement (p : Parse Stmt) : Prop :=
  ∀ ⦃c⦄, Yields c p fun s c' =>
    ∃ t : Statement, c.Moves t.leaves t.ids c' ∧ s = t.ast c.nextId ∧ t.Legal ∧
      (t.endsOpen = true → NotAhead (Kind.isKeyword .else_) c'.rest)

/-- What is read without a fault is a declaration. -/
def YieldsDeclaration (p : Parse Stmt) : Prop :=
  ∀ ⦃c⦄, Yields c p fun s c' =>
    ∃ t : Declaration, c.Moves t.leaves t.ids c' ∧ s = t.ast c.nextId ∧ t.Legal

/-- What is read without a fault is a declaration, and it is not left out. -/
def YieldsDeclaration? (p : Parse (Option Stmt)) : Prop :=
  ∀ ⦃c⦄, Yields c p fun s? c' =>
    ∃ t : Declaration, c.Moves t.leaves t.ids c' ∧ s? = some (t.ast c.nextId) ∧ t.Legal

section Statements

variable {expression : Parse Expr} {statement : Parse Stmt} {declaration : Parse (Option Stmt)}
  {c : Cursor}

/-- The declarations up to a token at which reading stops, unless the limit is too small. -/
theorem declarations_sound (hdecl : YieldsDeclaration? declaration) (stops : Kind → Bool)
    (limit : Nat) :
    Yields c (declarations declaration stops limit) fun ss c' =>
      ∃ ts : List Declaration, c.Moves (Declaration.leavesIn ts) (Declaration.idsIn ts) c' ∧
        ss = Declaration.astIn c.nextId ts ∧ Declaration.AllLegal ts ∧
        (c'.rest = [] ∨ (∃ t ∈ c'.rest.head?, stops t.kind = true) ∨ limit ≤ ts.length) := by
  induction limit generalizing c with
  | zero =>
    intro ss c' h hf
    obtain ⟨rfl, rfl⟩ := pure_eq_ok h
    exact ⟨[], .refl _, rfl, trivial, Or.inr (Or.inr (Nat.le_refl 0))⟩
  | succ limit ih =>
    intro ss c' h hf
    obtain ⟨atEnd, c₁, hatEnd, h⟩ := bind_eq_ok h
    cases hatEnd
    obtain ⟨stop, c₂, hahead, h⟩ := bind_eq_ok h
    obtain rfl := isAhead_eq_ok hahead
    by_cases hstop : (c.rest.isEmpty || stop) = true
    · rw [if_pos hstop] at h
      obtain ⟨rfl, rfl⟩ := pure_eq_ok h
      refine ⟨[], .refl _, rfl, trivial, ?_⟩
      rcases Bool.or_eq_true_iff.mp hstop with hempty | rfl
      · exact Or.inl (List.isEmpty_iff.mp hempty)
      · exact Or.inr (Or.inl (isAhead_eq_true hahead))
    · rw [if_neg hstop] at h
      obtain ⟨first, c₁, hfirst, h⟩ := bind_eq_ok h
      obtain ⟨others, c₂, hothers, h⟩ := bind_eq_ok h
      obtain rfl : c' = c₂ := by cases first <;> exact (pure_eq_ok h).2
      obtain ⟨ts, hms, rfl, hls, hend⟩ := ih hothers hf
      obtain ⟨t, hm, rfl, hl⟩ := hdecl hfirst (hms.no_faults hf)
      obtain ⟨rfl, -⟩ := pure_eq_ok h
      refine ⟨t :: ts, hm.trans hms, ?_, ⟨hl, hls⟩, ?_⟩
      · rw [Declaration.astIn, hm.nextId]
      · exact hend.imp_right (Or.imp_right Nat.succ_le_succ)

/-- A block behind its opening brace. -/
theorem blockEnd_sound (hdecl : YieldsDeclaration? declaration) (limit : Nat) :
    Yields c (blockEnd declaration limit) fun ss c' =>
      ∃ (ts : List Declaration) (closing : Punctuation .rightBrace),
        c.Moves (Declaration.leavesIn ts ++ [closing.token]) (Declaration.idsIn ts) c' ∧
        ss = Declaration.astIn c.nextId ts ∧ Declaration.AllLegal ts := by
  intro ss c' h hf
  obtain ⟨body, c₁, hbody, h⟩ := bind_eq_ok h
  obtain ⟨closing, c₂, hclosing, h⟩ := expect_bind_eq_ok h
  obtain ⟨rfl, rfl⟩ := pure_eq_ok h
  obtain ⟨ts, hms, rfl, hls, -⟩ := declarations_sound hdecl _ limit hbody (hclosing.no_faults hf)
  exact ⟨ts, closing, hms.trans hclosing, rfl, hls⟩

/-- A parameter is read without a fault only if there are few enough before it. -/
theorem parameter_sound (before : Nat) :
    Yields c (parameter before) fun t c' =>
      (∃ l : Name, c.Moves [l.token] 0 c' ∧ t = l.token) ∧ before < maxArguments := by
  intro t c' h hf
  unfold parameter at h
  by_cases hmax : maxArguments ≤ before
  · rw [if_pos hmax] at h
    obtain ⟨token, c₁, -, h⟩ := bind_eq_ok h
    obtain ⟨_, c₂, hreport, h⟩ := bind_eq_ok h
    obtain ⟨l, -, hm⟩ := expect_eq_ok h
    exact absurd (hm.no_faults hf) (report_faults hreport)
  · rw [if_neg hmax] at h
    obtain ⟨l, rfl, hm⟩ := expect_eq_ok h
    exact ⟨⟨l, hm, rfl⟩, Nat.lt_of_not_le hmax⟩

theorem parameters_sound (limit : Nat) :
    Yields c (parenthesized parameter limit) fun names c' =>
      ∃ ps : Option Parameters, c.Moves (Parameters.leaves? ps) 0 c' ∧
        names = Parameters.names? ps ∧ names.length ≤ maxArguments := by
  intro names c' h hf
  obtain ⟨empty, c₁, hempty, h⟩ := bind_eq_ok h
  obtain rfl := isAhead_eq_ok hempty
  cases empty with
  | true =>
    obtain ⟨rfl, rfl⟩ := pure_eq_ok h
    exact ⟨none, .refl _, rfl, Nat.zero_le _⟩
  | false =>
    have hmany := separated_sound
      (fun c names c' => ∃ ps : Parameters, c.Moves ps.leaves 0 c' ∧ names = ps.names)
      (fun before c => parameter_sound before)
      (fun ⟨_, hm, _⟩ => hm.faults) ?_ ?_ limit 0 (c := c)
    · obtain ⟨⟨ps, hm, hnames⟩, hle⟩ := hmany h hf
      exact ⟨some ps, hm, hnames, by omega⟩
    · rintro c t c' ⟨l, hm, rfl⟩
      exact ⟨.last l, hm, rfl⟩
    · rintro c t c₁ comma c₂ names c' ⟨l, hm, rfl⟩ hcomma ⟨ps, hms, rfl⟩
      exact ⟨.more l comma ps, hm.step (hcomma.step hms), rfl⟩

theorem function_sound (hdecl : YieldsDeclaration? declaration) (limit : Nat) (kind : RoutineKind) :
    Yields c (function declaration limit kind) fun f c' =>
      ∃ t : Function, c.Moves t.leaves t.ids c' ∧ f = t.ast c.nextId ∧ t.Legal := by
  intro f c' h hf
  obtain ⟨name, c₁, hname, h⟩ := expect_bind_eq_ok h
  obtain ⟨opening, c₂, ho, h⟩ := expect_bind_eq_ok h
  obtain ⟨params, c₃, hparams, h⟩ := bind_eq_ok h
  obtain ⟨closing, c₄, hclosing, h⟩ := expect_bind_eq_ok h
  obtain ⟨bodyOpening, c₅, hbo, h⟩ := expect_bind_eq_ok h
  obtain ⟨body, c₆, hbody, h⟩ := bind_eq_ok h
  obtain ⟨rfl, rfl⟩ := pure_eq_ok h
  obtain ⟨ts, bodyClosing, hms, rfl, hls⟩ := blockEnd_sound hdecl limit hbody hf
  have hb := hclosing.step (hbo.step hms)
  obtain ⟨ps, hps, rfl, hle⟩ := parameters_sound limit hparams (hb.no_faults hf)
  have hto := hname.step (ho.step hps)
  refine ⟨.mk name opening ps closing bodyOpening ts bodyClosing,
    (hto.trans hb).cast ?_ ?_, ?_, hle, hls⟩
  · rw [Function.leaves, List.cons_append, List.cons_append]
  · rw [Function.ids, Nat.zero_add]
  · rw [Function.ast, hbo.nextId, hclosing.nextId, hto.nextId]
    rfl

theorem methods_sound {method : Parse FunDecl}
    (hmethod : ∀ ⦃c⦄, Yields c method fun f c' =>
      ∃ t : Function, c.Moves t.leaves t.ids c' ∧ f = t.ast c.nextId ∧ t.Legal) (limit : Nat) :
    Yields c (methods method limit) fun fs c' =>
      ∃ ts : List Function, c.Moves (Function.leavesIn ts) (Function.idsIn ts) c' ∧
        fs = Function.astIn c.nextId ts ∧ Function.AllLegal ts := by
  induction limit generalizing c with
  | zero =>
    intro fs c' h hf
    obtain ⟨rfl, rfl⟩ := pure_eq_ok h
    exact ⟨[], .refl _, rfl, trivial⟩
  | succ limit ih =>
    intro fs c' h hf
    obtain ⟨atEnd, c₁, hatEnd, h⟩ := bind_eq_ok h
    cases hatEnd
    obtain ⟨stop, c₂, hahead, h⟩ := bind_eq_ok h
    obtain rfl := isAhead_eq_ok hahead
    by_cases hstop : (c.rest.isEmpty || stop) = true
    · rw [if_pos hstop] at h
      obtain ⟨rfl, rfl⟩ := pure_eq_ok h
      exact ⟨[], .refl _, rfl, trivial⟩
    · rw [if_neg hstop] at h
      obtain ⟨first, c₁, hfirst, h⟩ := bind_eq_ok h
      obtain ⟨others, c₂, hothers, h⟩ := bind_eq_ok h
      obtain ⟨rfl, rfl⟩ := pure_eq_ok h
      obtain ⟨ts, hms, rfl, hls⟩ := ih hothers hf
      obtain ⟨t, hm, rfl, hl⟩ := hmethod hfirst (hms.no_faults hf)
      refine ⟨t :: ts, hm.trans hms, ?_, hl, hls⟩
      rw [Function.astIn, hm.nextId]

theorem superclass_sound :
    Yields c superclass fun e? c' => ∃ s : Option Superclass,
      c.Moves (Superclass.leaves? s) (Superclass.ids? s) c' ∧
        e? = Superclass.ast? c.nextId s := by
  intro e? c' h hf
  obtain ⟨less?, c₁, haccept, h⟩ := bind_eq_ok h
  cases less? with
  | none =>
    obtain ⟨rfl, rfl⟩ := pure_eq_ok h
    obtain ⟨rfl, -⟩ := accept_eq_none haccept
    exact ⟨none, .refl _, rfl⟩
  | some _ =>
    obtain ⟨less, -, hless⟩ := accept_eq_some haccept
    obtain ⟨name, c₂, hname, h⟩ := expect_bind_eq_ok h
    obtain ⟨id, c₃, hfresh, h⟩ := bind_eq_ok h
    obtain ⟨rfl, hid⟩ := freshId_eq_ok hfresh
    obtain ⟨rfl, rfl⟩ := pure_eq_ok h
    have hto := hless.step hname
    refine ⟨some ⟨less, name⟩, hto.trans hid, ?_⟩
    rw [hto.nextId]
    rfl

theorem classDecl_sound (hdecl : YieldsDeclaration? declaration) (limit : Nat)
    {c₀ : Cursor} {keyword : Word .class_} (hk : c₀.Moves [keyword.token] 0 c) :
    Yields c (classDecl declaration limit) fun s c' =>
      ∃ t : Declaration, c₀.Moves t.leaves t.ids c' ∧ s = t.ast c₀.nextId ∧ t.Legal := by
  intro s c' h hf
  obtain ⟨name, c₁, hname, h⟩ := expect_bind_eq_ok h
  obtain ⟨e?, c₂, hsuper, h⟩ := bind_eq_ok h
  obtain ⟨opening, c₃, ho, h⟩ := expect_bind_eq_ok h
  obtain ⟨fs, c₄, hmethods, h⟩ := bind_eq_ok h
  obtain ⟨closing, c₅, hclosing, h⟩ := expect_bind_eq_ok h
  obtain ⟨rfl, rfl⟩ := pure_eq_ok h
  obtain ⟨ts, hms, rfl, hls⟩ := methods_sound (fun c => function_sound hdecl limit .method) limit
    hmethods (hclosing.no_faults hf)
  have hb := ho.step (hms.trans hclosing)
  obtain ⟨super, hs, rfl⟩ := superclass_sound hsuper (hb.no_faults hf)
  have hto := hk.step hname
  refine ⟨.classDecl keyword name super opening ts closing, (hto.trans (hs.trans hb)).cast rfl ?_,
    ?_, hls⟩
  · rw [Nat.zero_add]
    rfl
  · rw [Declaration.ast, ho.nextId, hs.nextId, hto.nextId]
    rfl

theorem varDecl_sound (hexpr : YieldsExpression expression) {c₀ : Cursor} {keyword : Word .var_}
    (hk : c₀.Moves [keyword.token] 0 c) :
    Yields c (varDecl expression) fun s c' =>
      ∃ v : VarDecl, c₀.Moves v.leaves (Expression.ids? v.value?) c' ∧ s = v.ast c₀.nextId ∧
        Expression.Legal? v.value? := by
  intro s c' h hf
  obtain ⟨name, c₁, hname, h⟩ := expect_bind_eq_ok h
  have hto := hk.step hname
  obtain ⟨equals?, c₂, haccept, h⟩ := bind_eq_ok h
  cases equals? with
  | none =>
    obtain ⟨rfl, -⟩ := accept_eq_none haccept
    obtain ⟨initial, c₃, hinitial, h⟩ := bind_eq_ok h
    cases hinitial
    obtain ⟨semicolon, c₄, hsemicolon, h⟩ := expect_bind_eq_ok h
    obtain ⟨rfl, rfl⟩ := pure_eq_ok h
    exact ⟨⟨keyword, name, none, semicolon⟩, hto.trans hsemicolon, rfl, fun e he => by cases he⟩
  | some _ =>
    obtain ⟨equals, -, he⟩ := accept_eq_some haccept
    obtain ⟨initial, c₃, hinitial, h⟩ := bind_eq_ok h
    obtain ⟨e, hexpression, rfl⟩ := map_eq_ok hinitial
    obtain ⟨semicolon, c₄, hsemicolon, h⟩ := expect_bind_eq_ok h
    obtain ⟨rfl, rfl⟩ := pure_eq_ok h
    obtain ⟨t, hm, rfl, hl⟩ := hexpr hexpression (hsemicolon.no_faults hf)
    have hall := hto.trans ((he.step hm).trans hsemicolon)
    refine ⟨⟨keyword, name, some ⟨equals, t⟩, semicolon⟩, hall.cast rfl (Nat.zero_add _), ?_,
      fun e' he' => by cases he'; exact hl⟩
    rw [he.nextId, hto.nextId]
    rfl

theorem expressionStmt_sound (hexpr : YieldsExpression expression) :
    Yields c (expressionStmt expression) fun s c' =>
      ∃ (t : Expression) (semicolon : Punctuation .semicolon),
        c.Moves (t.leaves ++ [semicolon.token]) t.ids c' ∧ s = .expression (t.ast c.nextId) ∧
          t.Legal := by
  intro s c' h hf
  obtain ⟨e, c₁, hexpression, h⟩ := bind_eq_ok h
  obtain ⟨semicolon, c₂, hsemicolon, h⟩ := expect_bind_eq_ok h
  obtain ⟨rfl, rfl⟩ := pure_eq_ok h
  obtain ⟨t, hm, rfl, hl⟩ := hexpr hexpression (hsemicolon.no_faults hf)
  exact ⟨t, semicolon, hm.trans hsemicolon, rfl, hl⟩

theorem expressionUnless_sound (hexpr : YieldsExpression expression) (m : Mark) :
    Yields c (expressionUnless m expression) fun e? c' =>
      ∃ t : Option Expression, c.Moves (Expression.leaves? t) (Expression.ids? t) c' ∧
        e? = t.map (Expression.ast c.nextId) ∧ Expression.Legal? t := by
  intro e? c' h hf
  obtain ⟨ahead, c₁, hahead, h⟩ := bind_eq_ok h
  obtain rfl := isAhead_eq_ok hahead
  cases ahead with
  | true =>
    obtain ⟨rfl, rfl⟩ := pure_eq_ok h
    exact ⟨none, .refl _, rfl, fun e he => by cases he⟩
  | false =>
    obtain ⟨e, hexpression, rfl⟩ := map_eq_ok h
    obtain ⟨t, hm, rfl, hl⟩ := hexpr hexpression hf
    exact ⟨some t, hm, rfl, fun e' he' => by cases he'; exact hl⟩

theorem forInitializer_sound (hexpr : YieldsExpression expression) :
    Yields c (forInitializer expression) fun s? c' =>
      ∃ i : ForClause, c.Moves i.leaves (Expression.ids? i.value?) c' ∧
        s? = i.ast c.nextId ∧ Expression.Legal? i.value? := by
  intro s? c' h hf
  obtain ⟨semicolon?, c₁, haccept, h⟩ := bind_eq_ok h
  cases semicolon? with
  | some _ =>
    obtain ⟨rfl, rfl⟩ := pure_eq_ok h
    obtain ⟨semicolon, -, hm⟩ := accept_eq_some haccept
    exact ⟨.absent semicolon, hm, rfl, fun e he => by cases he⟩
  | none =>
    obtain ⟨rfl, -⟩ := accept_eq_none haccept
    obtain ⟨var?, c₂, haccept', h⟩ := bind_eq_ok h
    cases var? with
    | some _ =>
      obtain ⟨keyword, -, hk⟩ := accept_eq_some haccept'
      obtain ⟨s, hvar, rfl⟩ := map_eq_ok h
      obtain ⟨v, hm, rfl, hl⟩ := varDecl_sound hexpr hk hvar hf
      exact ⟨.varDecl v, hm, rfl, hl⟩
    | none =>
      obtain ⟨rfl, -⟩ := accept_eq_none haccept'
      obtain ⟨s, hstmt, rfl⟩ := map_eq_ok h
      obtain ⟨t, semicolon, hm, rfl, hl⟩ := expressionStmt_sound hexpr hstmt hf
      exact ⟨.expression t semicolon, hm, rfl, fun e' he' => by cases he'; exact hl⟩

/-- The condition in parentheses behind the keyword of a statement. -/
theorem condition_sound (hexpr : YieldsExpression expression) {c₀ c₁ c₂ c₃ : Cursor} {t₁ t₂ : Token}
    {e : Expr} {fault fault' : GrammarFault}
    (ho : expect (Kind.isMark .leftParen) fault c₀ = .ok t₁ c₁) (he : expression c₁ = .ok e c₂)
    (hc : expect (Kind.isMark .rightParen) fault' c₂ = .ok t₂ c₃) (hf : c₃.faults = []) :
    ∃ (opening : Punctuation .leftParen) (t : Expression) (closing : Punctuation .rightParen),
      c₀.Moves (opening.token :: (t.leaves ++ [closing.token])) t.ids c₃ ∧
        e = t.ast c₀.nextId ∧ t.Legal := by
  obtain ⟨opening, -, ho⟩ := expect_eq_ok ho
  obtain ⟨closing, -, hc⟩ := expect_eq_ok hc
  obtain ⟨t, hm, rfl, hl⟩ := hexpr he (hc.no_faults hf)
  refine ⟨opening, t, closing, ho.step (hm.trans hc), ?_, hl⟩
  rw [ho.nextId, Nat.add_zero]

variable {c₀ : Cursor}

theorem whileStmt_sound (hexpr : YieldsExpression expression) (hstmt : YieldsStatement statement)
    {keyword : Word .while_} (hk : c₀.Moves [keyword.token] 0 c) :
    Yields c (whileStmt expression statement) fun s c' =>
      ∃ t : Statement, c₀.Moves t.leaves t.ids c' ∧ s = t.ast c₀.nextId ∧ t.Legal ∧
        (t.endsOpen = true → NotAhead (Kind.isKeyword .else_) c'.rest) := by
  intro s c' h hf
  obtain ⟨_, c₁, hopening, h⟩ := bind_eq_ok h
  obtain ⟨condition, c₂, hcondition, h⟩ := bind_eq_ok h
  obtain ⟨_, c₃, hclosing, h⟩ := bind_eq_ok h
  obtain ⟨body, c₄, hbody, h⟩ := bind_eq_ok h
  obtain ⟨rfl, rfl⟩ := pure_eq_ok h
  obtain ⟨b, hb, rfl, hlb, hopen⟩ := hstmt hbody hf
  obtain ⟨opening, t, closing, ht, rfl, hlt⟩ :=
    condition_sound hexpr hopening hcondition hclosing (hb.no_faults hf)
  have hto := hk.step ht
  refine ⟨.loop keyword opening t closing b, (hto.trans hb).cast ?_ rfl, ?_, ⟨hlt, hlb⟩, hopen⟩
  · simp [Statement.leaves]
  · rw [Statement.ast, hto.nextId, hk.nextId, Nat.add_zero]

theorem ifStmt_sound (hexpr : YieldsExpression expression) (hstmt : YieldsStatement statement)
    {keyword : Word .if_} (hk : c₀.Moves [keyword.token] 0 c) :
    Yields c (ifStmt expression statement) fun s c' =>
      ∃ t : Statement, c₀.Moves t.leaves t.ids c' ∧ s = t.ast c₀.nextId ∧ t.Legal ∧
        (t.endsOpen = true → NotAhead (Kind.isKeyword .else_) c'.rest) := by
  intro s c' h hf
  obtain ⟨_, c₁, hopening, h⟩ := bind_eq_ok h
  obtain ⟨condition, c₂, hcondition, h⟩ := bind_eq_ok h
  obtain ⟨_, c₃, hclosing, h⟩ := bind_eq_ok h
  obtain ⟨thenBranch, c₄, hthen, h⟩ := bind_eq_ok h
  obtain ⟨else?, c₅, haccept, h⟩ := bind_eq_ok h
  cases else? with
  | none =>
    obtain ⟨rfl, rfl⟩ := pure_eq_ok h
    obtain ⟨rfl, hno⟩ := accept_eq_none haccept
    obtain ⟨b, hb, rfl, hlb, -⟩ := hstmt hthen hf
    obtain ⟨opening, t, closing, ht, rfl, hlt⟩ :=
      condition_sound hexpr hopening hcondition hclosing (hb.no_faults hf)
    have hto := hk.step ht
    refine ⟨.branch keyword opening t closing b, (hto.trans hb).cast ?_ rfl, ?_, ⟨hlt, hlb⟩,
      fun _ => hno⟩
    · simp [Statement.leaves]
    · rw [Statement.ast, hto.nextId, hk.nextId, Nat.add_zero]
  | some _ =>
    obtain ⟨otherwise, -, ho⟩ := accept_eq_some haccept
    obtain ⟨elseBranch, c₆, helse, h⟩ := bind_eq_ok h
    obtain ⟨rfl, rfl⟩ := pure_eq_ok h
    obtain ⟨d, hd, rfl, hld, hopen⟩ := hstmt helse hf
    have hf₄ := (ho.step hd).no_faults hf
    obtain ⟨b, hb, rfl, hlb, hclosed⟩ := hstmt hthen hf₄
    obtain ⟨opening, t, closing, ht, rfl, hlt⟩ :=
      condition_sound hexpr hopening hcondition hclosing (hb.no_faults hf₄)
    have hto := hk.step ht
    -- a branch that could take the `else` would have taken it
    have hends : b.endsOpen = false := by
      refine Bool.eq_false_iff.mpr fun hends => ?_
      have hnot := hclosed hends otherwise.token (by rw [ho.rest]; rfl)
      rw [otherwise.isKind] at hnot
      cases hnot
    refine ⟨.branchElse keyword opening t closing b otherwise d,
      ((hto.trans hb).trans (ho.step hd)).cast ?_ rfl, ?_, ⟨hlt, hlb, hends, hld⟩, hopen⟩
    · simp [Statement.leaves]
    · rw [Statement.ast, ho.nextId, hb.nextId, hto.nextId, hk.nextId, Nat.add_zero, Nat.add_zero]

theorem forStmt_sound (hexpr : YieldsExpression expression) (hstmt : YieldsStatement statement)
    {keyword : Word .for_} (hk : c₀.Moves [keyword.token] 0 c) :
    Yields c (forStmt expression statement) fun s c' =>
      ∃ t : Statement, c₀.Moves t.leaves t.ids c' ∧ s = t.ast c₀.nextId ∧ t.Legal ∧
        (t.endsOpen = true → NotAhead (Kind.isKeyword .else_) c'.rest) := by
  intro s c' h hf
  obtain ⟨opening, c₁, ho, h⟩ := expect_bind_eq_ok h
  obtain ⟨initializer, c₂, hinitializer, h⟩ := bind_eq_ok h
  obtain ⟨condition, c₃, hcondition, h⟩ := bind_eq_ok h
  obtain ⟨semicolon, c₄, hs, h⟩ := expect_bind_eq_ok h
  obtain ⟨increment, c₅, hincrement, h⟩ := bind_eq_ok h
  obtain ⟨closing, c₆, hc, h⟩ := expect_bind_eq_ok h
  obtain ⟨body, c₇, hbody, h⟩ := bind_eq_ok h
  obtain ⟨rfl, rfl⟩ := pure_eq_ok h
  -- that there are no faults is known from the end to the beginning
  obtain ⟨b, hb, rfl, hlb, hopen⟩ := hstmt hbody hf
  have hcb := hc.step hb
  obtain ⟨k, hk', rfl, hlk⟩ := expressionUnless_sound hexpr .rightParen hincrement
    (hcb.no_faults hf)
  have hkb := hs.step (hk'.trans hcb)
  obtain ⟨t, ht, rfl, hlt⟩ := expressionUnless_sound hexpr .semicolon hcondition (hkb.no_faults hf)
  have htb := ht.trans hkb
  obtain ⟨i, hi, rfl, hli⟩ := forInitializer_sound hexpr hinitializer (htb.no_faults hf)
  have hto := hk.step ho
  have hid : c₁.nextId = c₀.nextId := hto.nextId
  refine ⟨.forLoop keyword opening i t semicolon k closing b,
    (hto.trans (hi.trans htb)).cast rfl ?_,
    ?_, ⟨hli, hlt, hlk, hlb⟩, hopen⟩
  · rw [Statement.ids]
    omega
  · rw [Statement.ast, hc.nextId, hk'.nextId, hs.nextId, ht.nextId, hi.nextId, hid]
    rfl

theorem returnStmt_sound (hexpr : YieldsExpression expression) {keyword : Word .return_}
    (hk : c₀.Moves [keyword.token] 0 c) :
    Yields c (returnStmt expression keyword.token) fun s c' =>
      ∃ (value : Option Expression) (semicolon : Punctuation .semicolon),
        c₀.Moves (Statement.ret keyword value semicolon).leaves
          (Statement.ret keyword value semicolon).ids c' ∧
        s = (Statement.ret keyword value semicolon).ast c₀.nextId ∧ Expression.Legal? value := by
  intro s c' h hf
  obtain ⟨value, c₁, hvalue, h⟩ := bind_eq_ok h
  obtain ⟨semicolon, c₂, hs, h⟩ := expect_bind_eq_ok h
  obtain ⟨rfl, rfl⟩ := pure_eq_ok h
  obtain ⟨t, ht, rfl, hl⟩ := expressionUnless_sound hexpr .semicolon hvalue (hs.no_faults hf)
  refine ⟨t, semicolon, hk.step (ht.trans hs), ?_, hl⟩
  rw [Statement.ast, hk.nextId, Nat.add_zero]

/-- A statement that cannot take an `else`. -/
theorem closed_sound {t : Statement} {c' : Cursor} (ht : t.endsOpen = false) :
    t.endsOpen = true → NotAhead (Kind.isKeyword .else_) c'.rest := fun h => by
  rw [ht] at h
  cases h

theorem statementWith_sound (limit : Nat) (hstmt : YieldsStatement statement)
    (hdecl : YieldsDeclaration? declaration) :
    YieldsStatement (statementWith limit statement declaration) := by
  intro c
  have hexpr := expression_sound limit
  refine Yields.peek ?_
  split
  · next hk =>
    exact .advance (Kind.isKeyword .for_) (by rw [hk]; rfl) rfl fun _ _ _ hm =>
      forStmt_sound hexpr hstmt hm
  · next hk =>
    exact .advance (Kind.isKeyword .if_) (by rw [hk]; rfl) rfl fun _ _ _ hm =>
      ifStmt_sound hexpr hstmt hm
  · next hk =>
    exact .advance (Kind.isKeyword .while_) (by rw [hk]; rfl) rfl fun _ _ _ hm =>
      whileStmt_sound hexpr hstmt hm
  · next hk =>
    refine .advance (Kind.isKeyword .return_) (by rw [hk]; rfl) rfl fun keyword c₁ hl hm => ?_
    intro s c' h hf
    rw [← hl] at h
    obtain ⟨value, semicolon, hv, rfl, hlegal⟩ := returnStmt_sound hexpr hm h hf
    exact ⟨.ret keyword value semicolon, hv, rfl, hlegal, closed_sound rfl⟩
  · next hk =>
    refine .advance (Kind.isMark .leftBrace) (by rw [hk]; rfl) rfl fun opening c₁ _ ho => ?_
    intro s c' h hf
    obtain ⟨body, hbody, rfl⟩ := map_eq_ok h
    obtain ⟨ts, closing, hm, rfl, hl⟩ := blockEnd_sound hdecl limit hbody hf
    refine ⟨.block opening ts closing, ho.step hm, ?_, hl, closed_sound rfl⟩
    rw [Statement.ast, ho.nextId, Nat.add_zero]
  · next hk =>
    refine .advance (Kind.isKeyword .print_) (by rw [hk]; rfl) rfl fun keyword c₁ _ hm => ?_
    intro s c' h hf
    obtain ⟨e, c₂, hexpression, h⟩ := bind_eq_ok h
    obtain ⟨semicolon, c₃, hs, h⟩ := expect_bind_eq_ok h
    obtain ⟨rfl, rfl⟩ := pure_eq_ok h
    obtain ⟨t, ht, rfl, hl⟩ := hexpr hexpression (hs.no_faults hf)
    refine ⟨.print keyword t semicolon, hm.step (ht.trans hs), ?_, hl, closed_sound rfl⟩
    rw [Statement.ast, hm.nextId, Nat.add_zero]
  · intro s c' h hf
    obtain ⟨t, semicolon, hm, rfl, hl⟩ := expressionStmt_sound hexpr h hf
    exact ⟨.expression t semicolon, hm, rfl, hl, closed_sound rfl⟩

theorem declarationWith_sound (limit : Nat) (hstmt : YieldsStatement statement)
    (hdecl : YieldsDeclaration? declaration) :
    YieldsDeclaration (declarationWith limit statement declaration) := by
  intro c
  refine Yields.peek ?_
  split
  · next hk =>
    exact .advance (Kind.isKeyword .class_) (by rw [hk]; rfl) rfl fun _ _ _ hm =>
      classDecl_sound hdecl limit hm
  · next hk =>
    refine .advance (Kind.isKeyword .fun_) (by rw [hk]; rfl) rfl fun keyword c₁ _ hm => ?_
    intro s c' h hf
    obtain ⟨f, hfunction, rfl⟩ := map_eq_ok h
    obtain ⟨t, ht, rfl, hl⟩ := function_sound hdecl limit .function hfunction hf
    refine ⟨.function keyword t, hm.step ht, ?_, hl⟩
    rw [Declaration.ast, hm.nextId, Nat.add_zero]
  · next hk =>
    refine .advance (Kind.isKeyword .var_) (by rw [hk]; rfl) rfl fun _ c₁ _ hm => ?_
    intro s c' h hf
    obtain ⟨v, hv, rfl, hl⟩ := varDecl_sound (expression_sound limit) hm h hf
    exact ⟨.varDecl v, hv, rfl, hl⟩
  · intro s c' h hf
    obtain ⟨t, hm, rfl, hl, -⟩ := statementWith_sound limit hstmt hdecl h hf
    exact ⟨.statement t, hm, rfl, hl⟩

theorem recover_sound {p : Parse Stmt} (hp : YieldsDeclaration p) :
    YieldsDeclaration? (recover p) := by
  intro c s? c' h hf
  obtain ⟨s, rfl, hs⟩ := recover_eq_ok h hf
  obtain ⟨t, hm, rfl, hl⟩ := hp hs hf
  exact ⟨t, hm, rfl, hl⟩

/-- Statements and declarations nest in each other, so both are shown at once. -/
theorem statement_declaration_sound (limit : Nat) :
    YieldsStatement (Parse.statement limit) ∧ YieldsDeclaration? (Parse.declaration limit) := by
  induction limit with
  | zero =>
    refine ⟨fun c s c' h _ => ?_, ?_⟩
    · rw [Parse.statement] at h
      cases h
    · rw [Parse.declaration]
      exact recover_sound fun c s c' h _ => by cases h
  | succ limit ih =>
    obtain ⟨hstmt, hdecl⟩ := ih
    rw [Parse.statement, Parse.declaration]
    exact ⟨statementWith_sound (limit + 1) hstmt hdecl,
      recover_sound (declarationWith_sound (limit + 1) hstmt hdecl)⟩

end Statements

/-- A program is read up to the end. -/
theorem program_sound {limit : Nat} {c : Cursor} (hlimit : c.rest.length ≤ limit) :
    Yields c (program limit) fun ss c' =>
      ∃ ts : List Declaration, c.Moves (Declaration.leavesIn ts) (Declaration.idsIn ts) c' ∧
        ss = Declaration.astIn c.nextId ts ∧ Declaration.AllLegal ts ∧ c'.rest = [] := by
  intro ss c' h hf
  obtain ⟨ts, hm, rfl, hl, hend⟩ :=
    declarations_sound (statement_declaration_sound limit).2 _ limit h hf
  refine ⟨ts, hm, rfl, hl, ?_⟩
  rcases hend with hend | ⟨t, -, ht⟩ | hmany
  · exact hend
  · cases ht
  · -- each declaration has a leaf, so there were no more tokens than declarations
    have hlength := congrArg List.length hm.rest
    rw [List.length_append] at hlength
    have hleaves := Declaration.length_le_leavesIn ts
    exact List.eq_nil_of_length_eq_zero (by omega)

end Parse

/-! ### Lists of tokens -/

/-- The declarations are trees of a list of tokens: their leaves are the tokens up to the first end
of the source. -/
structure Concrete.TreesOf (tokens : List Token) (ts : List Declaration) : Prop where
  legal : Declaration.AllLegal ts
  leaves : Declaration.leavesIn ts = tokens.takeWhile fun t => !t.kind.isEnd

/-- What is parsed without a fault has trees. -/
theorem Concrete.exists_treesOf {tokens : List Token} {firstId : NodeId} {statements : List Stmt}
    (h : (parse tokens firstId).result = .ok statements) :
    ∃ ts, TreesOf tokens ts ∧ statements = Declaration.astIn firstId ts ∧
      (parse tokens firstId).nextId = firstId + Declaration.idsIn ts := by
  unfold parse at h ⊢
  simp only at h ⊢
  cases hp : Parse.program (Cursor.ofTokens tokens firstId).rest.length
      (Cursor.ofTokens tokens firstId) with
  | error d c =>
    rw [hp] at h
    cases h
  | ok ss c =>
    rw [hp] at h
    simp only at h ⊢
    split at h
    · next hfaults =>
      cases h
      obtain ⟨ts, hm, rfl, hl, hend⟩ :=
        Parse.program_sound (Nat.le_refl _) hp (List.isEmpty_iff.mp hfaults)
      refine ⟨ts, ⟨hl, ?_⟩, rfl, hm.nextId⟩
      have hrest := hm.rest
      rw [hend, List.append_nil] at hrest
      exact hrest.symm
    · cases h

/-- What is parsed without a fault is the abstract syntax of trees of the grammar, the leaves of
which are all tokens up to the first end of the source. -/
theorem parse_sound {tokens : List Token} {firstId : NodeId} {statements : List Stmt}
    (h : (parse tokens firstId).result = .ok statements) :
    ∃ ts : List Declaration, Declaration.AllLegal ts ∧
      Declaration.leavesIn ts = tokens.takeWhile (fun t => !t.kind.isEnd) ∧
      statements = Declaration.astIn firstId ts ∧
      (parse tokens firstId).nextId = firstId + Declaration.idsIn ts := by
  obtain ⟨ts, htrees, hast, hids⟩ := Concrete.exists_treesOf h
  exact ⟨ts, htrees.legal, htrees.leaves, hast, hids⟩

/-- The tokens of `print nil;`. -/
def printingNil : List Token :=
  [⟨.keyword .print_, "print", 1⟩, ⟨.keyword .nil_, "nil", 1⟩, ⟨.mark .semicolon, ";", 1⟩,
    ⟨.endOfSource, "", 1⟩]

/-- A statement that prints `nil` is read off a tree of its three tokens. -/
theorem parse_sound_printingNil :
    ∃ ts : List Declaration, Declaration.AllLegal ts ∧
      Declaration.leavesIn ts = printingNil.take 3 ∧
      [.print (.literal .nil)] = Declaration.astIn 0 ts := by
  have hparse : (parse printingNil 0).result = .ok [.print (.literal .nil)] := rfl
  obtain ⟨ts, hl, hleaves, hast, -⟩ := parse_sound hparse
  exact ⟨ts, hl, hleaves, hast⟩

end Lox
