/-
Reading outlines.

The outline of an expression shows all of it: two expressions that are parsed from sources are
outlined alike only if they are the same tree, but for the numbers of nodes and the lines of
tokens.  The sources may have no strings, which are outlined without their quotes, and no
numbers that are infinite.

* `Expr.form` — the form whose text is the outline;
* `Form.node` — the kind of node that a form shows;
* `Token.Legible` — a token of a source, neither a string nor an infinite number;
* `Expr.form_sound` — the form of an expression is sound, so that it is known from the outline;
* `Expr.node_form`, `Expr.copy_of_form_eq` — the form shows the kind of the node, and then the tree;
* `outline_eq_iff` — outlines are equal if and only if the expressions are copies.

Design notes: heads are shared.  A minus with one item is a unary node and one with two items a
binary node; an equals sign in front of a list sets a property, and in front of a word assigns a
variable.  The heads `call`, `group` and `super` are no operators, and a name that is written like
them is a word and no head.
-/
import Lox.Proofs.Number.Written
import Lox.Proofs.Syntax.Copies
import Lox.Proofs.Syntax.Forms
import Lox.Proofs.Syntax.Parts
import Lox.Proofs.Token.Layout
import Lox.Proofs.Token.Texts
import Lox.Syntax.Outline

namespace Lox

/-! ### Forms of expressions -/

mutual

/-- The form whose text is the outline of an expression. -/
def Expr.form : Expr → Form
  | .assign _ name value => .list "=" [.word name.lexeme, value.form]
  | .binary left operator right => .list operator.lexeme [left.form, right.form]
  | .call callee _ arguments => .list "call" (callee.form :: Expr.formsOf arguments)
  | .get object name => .list "." [object.form, .word name.lexeme]
  | .grouping inner => .list "group" [inner.form]
  | .literal value => .word value.outline
  | .logical left operator right => .list operator.lexeme [left.form, right.form]
  | .set object name value =>
    .list "=" [.list "." [object.form, .word name.lexeme], value.form]
  | .superRef _ _ method => .list "super" [.word method.lexeme]
  | .thisRef _ _ => .word "this"
  | .unary operator right => .list operator.lexeme [right.form]
  | .var _ name => .word name.lexeme

/-- The forms of several expressions. -/
def Expr.formsOf : List Expr → List Form
  | [] => []
  | e :: es => e.form :: Expr.formsOf es

end

mutual

/-- The outline of an expression is the text of its form. -/
theorem Expr.toList_outline (e : Expr) : e.outline.toList = e.form.text := by
  match e with
  | .assign _ _ value =>
    simp [Expr.outline, Expr.form, value.toList_outline]
  | .binary left _ right =>
    simp [Expr.outline, Expr.form, left.toList_outline, right.toList_outline]
  | .call callee _ arguments =>
    simp [Expr.outline, Expr.form, callee.toList_outline,
      Expr.toList_outlineArguments arguments]
  | .get object _ => simp [Expr.outline, Expr.form, object.toList_outline]
  | .grouping inner => simp [Expr.outline, Expr.form, inner.toList_outline]
  | .literal value => rfl
  | .logical left _ right =>
    simp [Expr.outline, Expr.form, left.toList_outline, right.toList_outline]
  | .set object _ value =>
    simp [Expr.outline, Expr.form, object.toList_outline,
      value.toList_outline]
  | .superRef _ _ _ => simp [Expr.outline, Expr.form]
  | .thisRef _ _ => rfl
  | .unary _ right => simp [Expr.outline, Expr.form, right.toList_outline]
  | .var _ _ => rfl

theorem Expr.toList_outlineArguments (es : List Expr) :
    (Expr.outlineArguments es).toList = Form.spaced (Expr.formsOf es) := by
  match es with
  | [] => rfl
  | e :: es =>
    simp [Expr.outlineArguments, Expr.formsOf, e.toList_outline,
      Expr.toList_outlineArguments es]

end

/-! ### Legible tokens -/

/-- Neither a string nor an infinite number. -/
def Kind.Plain : Kind → Prop
  | .string _ => False
  | .number x => x.isInf = false
  | _ => True

/-- A plain token that is read from a source: a lexeme of its kind, or the end. -/
structure Token.Legible (t : Token) : Prop where
  lexeme : Lexeme t.lexeme.toList (.token t.kind) ∨ t.kind = .endOfSource
  plain : t.kind.Plain

theorem legible_of_mem_scanTokens {source : String} (h : ∀ t ∈ scanTokens source, t.kind.Plain) :
    ∀ t ∈ scanTokens source, t.Legible := fun t ht =>
  ⟨(kind_of_mem_scanTokens ht).imp_right And.right, h t ht⟩

namespace Token.Legible

variable {t : Token}

theorem reads (h : t.Legible) {k : Kind} (hk : t.kind = k) (hend : k.isEnd = false) :
    Lexeme t.lexeme.toList (.token k) := by
  subst hk
  refine h.lexeme.resolve_right fun heq => ?_
  rw [heq] at hend
  cases hend

theorem lexeme_eq_of_mark (h : t.Legible) {m : Mark} (hk : t.kind = .mark m) : t.lexeme = m.text :=
  String.toList_inj.mp (h.reads hk rfl).text_eq_of_mark

theorem lexeme_eq_of_keyword (h : t.Legible) {k : Keyword} (hk : t.kind = .keyword k) :
    t.lexeme = k.text :=
  String.toList_inj.mp (h.reads hk rfl).text_eq_of_keyword

theorem identifier (h : t.Legible) (hk : t.kind = .identifier) : Identifier t.lexeme.toList :=
  (h.reads hk rfl).identifier

theorem unsigned (h : t.Legible) {x : Float} (hk : t.kind = .number x) : Number.Unsigned x := by
  obtain ⟨whole, fraction, rfl⟩ := (h.reads hk rfl).value_of_number
  exact Number.unsigned_literalValue whole fraction

end Token.Legible

/-! ### Words -/

theorem isWord_of_identifier {s : String} (h : Identifier s.toList) : IsWord s := by
  obtain ⟨c, tail, htext, -⟩ := h.begins
  exact ⟨htext ▸ List.cons_ne_nil c tail, fun x hx => inWord_of rfl rfl rfl (h.continues x hx)⟩

theorem isWord_of_numeric {s : String} (h : Number.Numeric s.toList) : IsWord s := by
  obtain ⟨c, cs, htext, hc, hcs⟩ := h.exists_cons
  refine ⟨htext ▸ List.cons_ne_nil c cs, ?_⟩
  rw [htext]
  refine List.forall_mem_cons.mpr ⟨inWord_of rfl rfl rfl hc, fun x hx => ?_⟩
  rcases hcs x hx with hx | rfl
  · exact inWord_of rfl rfl rfl hx
  · rfl

theorem isWord_keyword (k : Keyword) : IsWord k.text := by
  cases k <;> exact isWord_of_all rfl rfl

/-- The marks that are no parentheses are words. -/
theorem isWord_mark {m : Mark} (hleft : m ≠ .leftParen) (hright : m ≠ .rightParen) :
    IsWord m.text := by
  cases m with
  | leftParen => exact absurd rfl hleft
  | rightParen => exact absurd rfl hright
  | _ => exact isWord_of_all rfl rfl

/-! ### Literals -/

/-- Not a string, and a number that is finite and has no sign if it is one. -/
def Literal.Legible : Literal → Prop
  | .number x => Number.Unsigned x ∧ x.isInf = false
  | .string _ => False
  | .bool _ | .nil => True

/-- The value of a legible token. -/
theorem Token.Legible.literal {t : Token} {l : Literal} (h : t.Legible)
    (hl : t.kind.literal? = some l) : l.Legible := by
  have hplain := h.plain
  -- only here numbers and strings need that the token is plain
  generalize hk : t.kind = k at hl hplain
  unfold Kind.literal? at hl
  split at hl <;> cases hl
  · trivial
  · trivial
  · trivial
  · exact ⟨h.unsigned hk, hplain⟩
  · exact hplain

namespace Literal

/-- A literal that is no number is a reserved word. -/
def keyword? : Literal → Option Keyword
  | .bool true => some .true_
  | .bool false => some .false_
  | .nil => some .nil_
  | _ => none

theorem outline_of_keyword {l : Literal} {k : Keyword} (h : l.keyword? = some k) :
    l.outline = k.text := by
  unfold keyword? at h
  split at h <;> cases h <;> rfl

theorem eq_of_keyword {l l' : Literal} {k : Keyword} (h : l.keyword? = some k)
    (h' : l'.keyword? = some k) : l = l' := by
  unfold keyword? at h h'
  split at h <;> cases h <;> split at h' <;> cases h' <;> rfl

/-- A legible literal is a reserved word or a number. -/
theorem Legible.cases {l : Literal} (h : l.Legible) :
    (∃ k, l.keyword? = some k) ∨ ∃ x, l = .number x ∧ Number.Numeric l.outline.toList := by
  cases l with
  | number x =>
    obtain ⟨q, hq, -⟩ := Number.Style.write_spec (s := outlineStyle) rfl h.1 h.2
    exact .inr ⟨x, rfl, hq.numeric⟩
  | string s => exact h.elim
  | bool b => cases b <;> exact .inl ⟨_, rfl⟩
  | nil => exact .inl ⟨_, rfl⟩

/-- No reserved word is a number. -/
theorem not_numeric_keyword (k : Keyword) : ¬ Number.Numeric k.text.toList := by
  cases k <;> exact fun h => Bool.false_ne_true h.1

theorem isWord_outline {l : Literal} (h : l.Legible) : IsWord l.outline := by
  obtain ⟨k, hk⟩ | ⟨x, -, hnumeric⟩ := h.cases
  · rw [outline_of_keyword hk]
    exact isWord_keyword k
  · exact isWord_of_numeric hnumeric

/-- Literals that are outlined alike are the same. -/
theorem outline_injective {l l' : Literal} (h : l.Legible) (h' : l'.Legible)
    (heq : l.outline = l'.outline) : l = l' := by
  obtain ⟨k, hk⟩ | ⟨x, rfl, hx⟩ := h.cases <;> obtain ⟨k', hk'⟩ | ⟨y, rfl, hy⟩ := h'.cases
  · rw [outline_of_keyword hk, outline_of_keyword hk'] at heq
    exact eq_of_keyword hk (Keyword.text_injective heq ▸ hk')
  · rw [← heq, outline_of_keyword hk] at hy
    exact (not_numeric_keyword k hy).elim
  · rw [heq, outline_of_keyword hk'] at hx
    exact (not_numeric_keyword k' hx).elim
  · rw [Number.Style.write_injective rfl h.1 h'.1 h.2 h'.2 heq]

end Literal

/-! ### Kinds of nodes -/

/-- The kinds of nodes. -/
inductive NodeKind where
  | assign | binary | call | get | grouping | literal | logical | set | superRef | thisRef
  | unary | var

/-- The kind of node that an expression is. -/
def Expr.node : Expr → NodeKind
  | .assign .. => .assign
  | .binary .. => .binary
  | .call .. => .call
  | .get .. => .get
  | .grouping _ => .grouping
  | .literal _ => .literal
  | .logical .. => .logical
  | .set .. => .set
  | .superRef .. => .superRef
  | .thisRef .. => .thisRef
  | .unary .. => .unary
  | .var .. => .var

/-- The kind of node that a form shows. -/
def Form.node : Form → NodeKind
  | .list "=" (.list _ _ :: _) => .set
  | .list "=" _ => .assign
  | .list "." _ => .get
  | .list "call" _ => .call
  | .list "group" _ => .grouping
  | .list "super" _ => .superRef
  | .list "and" _ | .list "or" _ => .logical
  | .list _ [_] => .unary
  | .list _ _ => .binary
  | .word s =>
    if s.toList.head?.any Char.isDigit then .literal
    else match Keyword.ofText? s with
      | some .this_ => .thisRef
      | some _ => .literal
      | none => .var

theorem Form.node_identifier {s : String} (h : Identifier s.toList) : (word s).node = .var := by
  obtain ⟨c, tail, htext, hc⟩ := h.begins
  have hnone := h.unreserved
  rw [String.ofList_toList] at hnone
  simp [node, htext, not_isDigit_of_initial hc, hnone]

theorem Form.node_numeric {s : String} (h : Number.Numeric s.toList) :
    (word s).node = .literal := by
  obtain ⟨c, cs, htext, hc, -⟩ := h.exists_cons
  simp [node, htext, hc]

theorem Literal.node_outline {l : Literal} (h : l.Legible) :
    (Form.word l.outline).node = .literal := by
  obtain ⟨k, hk⟩ | ⟨x, -, hnumeric⟩ := h.cases
  · unfold keyword? at hk
    split at hk <;> cases hk <;> rfl
  · exact Form.node_numeric hnumeric

section

variable {ts : List Token} (hts : ∀ t ∈ ts, t.Legible)
include hts

/-- A literal of a tree is a literal of its tokens, or the condition of a loop that has none. -/
theorem Expr.Made.literal_legible {l : Literal} (h : (Expr.literal l).Made ts) : l.Legible := by
  obtain rfl | ⟨t, ht, hl⟩ := h
  · trivial
  · exact (hts t ht).literal hl

theorem Token.Among.identifier {t : Token} (h : t.Among ts Kind.isIdentifier) :
    Identifier t.lexeme.toList :=
  (hts t h.1).identifier (Concrete.eq_of_isIdentifier h.2)

/-- The form of an expression shows the kind of its node. -/
theorem Expr.node_form {e : Expr} (h : e.Made ts) : e.form.node = e.node := by
  cases e with
  | assign | call | get | grouping | set | superRef | thisRef => rfl
  | binary left operator right =>
    obtain ⟨m, hm, hk⟩ := Kind.eq_of_isBinaryOperator h.2
    rw [form, (hts _ h.1).lexeme_eq_of_mark hk]
    -- an operator is written like no other head, and two items tell it from a unary one
    cases m <;> first | rfl | exact absurd hm (by decide)
  | literal l => exact Literal.node_outline (Made.literal_legible hts h)
  | logical left operator right =>
    rw [form]
    obtain hk | hk := Kind.eq_of_isConnective h.2 <;>
      rw [(hts _ h.1).lexeme_eq_of_keyword hk] <;> rfl
  | unary operator right =>
    rw [form]
    obtain hk | hk := Kind.eq_of_unaryOperators h.2 <;>
      rw [(hts _ h.1).lexeme_eq_of_mark hk] <;> rfl
  | var id name => exact Form.node_identifier (h.identifier hts)

/-! ### Sound forms -/

theorem isWord_binaryOperator {t : Token} (h : t.Among ts Kind.isBinaryOperator) :
    IsWord t.lexeme := by
  obtain ⟨m, hm, hk⟩ := Kind.eq_of_isBinaryOperator h.2
  rw [(hts t h.1).lexeme_eq_of_mark hk]
  refine isWord_mark ?_ ?_ <;>
  · rintro rfl
    exact absurd hm (by decide)

theorem isWord_unaryOperator {t : Token} (h : t.Among ts Parse.unaryOperators) :
    IsWord t.lexeme := by
  obtain hk | hk := Kind.eq_of_unaryOperators h.2 <;> rw [(hts t h.1).lexeme_eq_of_mark hk] <;>
    exact isWord_mark (by decide) (by decide)

theorem isWord_connective {t : Token} (h : t.Among ts Kind.isConnective) : IsWord t.lexeme := by
  obtain hk | hk := Kind.eq_of_isConnective h.2 <;> rw [(hts t h.1).lexeme_eq_of_keyword hk] <;>
    exact isWord_keyword _

theorem isWord_name {t : Token} (h : t.Among ts Kind.isIdentifier) : IsWord t.lexeme :=
  isWord_of_identifier (h.identifier hts)

end

mutual

/-- All words in the form of an expression are words. -/
theorem Expr.form_sound {ts : List Token} (hts : ∀ t ∈ ts, t.Legible) (e : Expr)
    (h : Part.AllMade ts e.parts) : e.form.Sound := by
  match e with
  | .assign _ _ value =>
    exact ⟨isWord_of_all rfl rfl, isWord_name hts h.node, Expr.form_sound hts value h.tail, trivial⟩
  | .binary left _ right =>
    exact ⟨isWord_binaryOperator hts h.node, Expr.form_sound hts left h.tail.left,
      Expr.form_sound hts right h.tail.right, trivial⟩
  | .call callee _ arguments =>
    exact ⟨isWord_of_all rfl rfl, Expr.form_sound hts callee h.tail.left,
      Expr.formsOf_sound hts arguments h.tail.right⟩
  | .get object _ =>
    exact ⟨isWord_of_all rfl rfl, Expr.form_sound hts object h.tail, isWord_name hts h.node,
      trivial⟩
  | .grouping inner => exact ⟨isWord_of_all rfl rfl, Expr.form_sound hts inner h.tail, trivial⟩
  | .literal value => exact Literal.isWord_outline (Expr.Made.literal_legible hts h.node)
  | .logical left _ right =>
    exact ⟨isWord_connective hts h.node, Expr.form_sound hts left h.tail.left,
      Expr.form_sound hts right h.tail.right, trivial⟩
  | .set object _ value =>
    exact ⟨isWord_of_all rfl rfl, ⟨isWord_of_all rfl rfl, Expr.form_sound hts object h.tail.left,
      isWord_name hts h.node, trivial⟩, Expr.form_sound hts value h.tail.right, trivial⟩
  | .superRef .. => exact ⟨isWord_keyword .super_, isWord_name hts h.node.2, trivial⟩
  | .thisRef .. => exact isWord_keyword .this_
  | .unary _ right =>
    exact ⟨isWord_unaryOperator hts h.node, Expr.form_sound hts right h.tail, trivial⟩
  | .var .. => exact isWord_name hts h.node

theorem Expr.formsOf_sound {ts : List Token} (hts : ∀ t ∈ ts, t.Legible) (es : List Expr)
    (h : Part.AllMade ts (Expr.partsIn es)) : Form.AllSound (Expr.formsOf es) := by
  match es with
  | [] => trivial
  | e :: es => exact ⟨Expr.form_sound hts e h.left, Expr.formsOf_sound hts es h.right⟩

end

/-! ### Equal forms -/

/-- Any line and any number belong to any other. -/
def Pairing.all : Pairing where
  lines _ _ := True
  ids _ _ := True

section

variable {ts ts' : List Token} (hts : ∀ t ∈ ts, t.Legible) (hts' : ∀ t ∈ ts', t.Legible)
  {t t' : Token}
include hts hts'

/-- Tokens that are written alike are of one kind. -/
theorem copy_of_lexeme {p : Kind → Bool} (hp : p .endOfSource = false) (h : t.Among ts p)
    (h' : t'.Among ts' p) (hlexeme : t.lexeme = t'.lexeme) : t.Copy .all t' := by
  -- the end of a source is no lexeme, and could be of any text
  have hend {k : Kind} (hk : p k = true) : k.isEnd = false := by
    cases k with
    | endOfSource =>
      rw [hp] at hk
      cases hk
    | _ => rfl
  have hreads := (hts t h.1).reads rfl (hend h.2)
  have hreads' := (hts' t' h'.1).reads rfl (hend h'.2)
  rw [← hlexeme] at hreads'
  exact ⟨Shape.token.inj (hreads'.shape_unique hreads), hlexeme.symm, trivial⟩

theorem copy_of_mark {m : Mark} (h : t.Among ts (Kind.isMark m))
    (h' : t'.Among ts' (Kind.isMark m)) :
    t.Copy .all t' := by
  refine copy_of_lexeme hts hts' rfl h h' ?_
  rw [(hts t h.1).lexeme_eq_of_mark (Concrete.eq_of_isMark h.2),
    (hts' t' h'.1).lexeme_eq_of_mark (Concrete.eq_of_isMark h'.2)]

theorem copy_of_keyword {k : Keyword} (h : t.Among ts (Kind.isKeyword k))
    (h' : t'.Among ts' (Kind.isKeyword k)) : t.Copy .all t' := by
  refine copy_of_lexeme hts hts' rfl h h' ?_
  rw [(hts t h.1).lexeme_eq_of_keyword (Concrete.eq_of_isKeyword h.2),
    (hts' t' h'.1).lexeme_eq_of_keyword (Concrete.eq_of_isKeyword h'.2)]

end

mutual

/-- Expressions of one form are the same tree, but for numbers of nodes and lines of tokens. -/
theorem Expr.copy_of_form_eq {ts ts' : List Token} (hts : ∀ t ∈ ts, t.Legible)
    (hts' : ∀ t ∈ ts', t.Legible) (e e' : Expr) (h : Part.AllMade ts e.parts)
    (h' : Part.AllMade ts' e'.parts) (heq : e.form = e'.form) : e.Copy .all e' := by
  have hmade : e.Made ts := h _ (Expr.mem_parts e)
  have hmade' : e'.Made ts' := h' _ (Expr.mem_parts e')
  -- one form shows one kind of node, which leaves twelve cases
  have hnode : e.node = e'.node := by
    rw [← Expr.node_form hts hmade, heq, Expr.node_form hts' hmade']
  cases e with
  | assign id name value =>
    cases e' with
    | assign id' name' value' =>
      simp only [Expr.form, Form.list.injEq, Form.word.injEq, List.cons.injEq, true_and,
        and_true] at heq
      obtain ⟨hname, hvalue⟩ := heq
      exact .assign trivial (copy_of_lexeme hts hts' rfl hmade hmade' hname)
        (Expr.copy_of_form_eq hts hts' value value' h.tail h'.tail hvalue)
    | _ => cases hnode
  | binary left operator right =>
    cases e' with
    | binary left' operator' right' =>
      simp only [Expr.form, Form.list.injEq, List.cons.injEq, and_true] at heq
      obtain ⟨hoperator, hleft, hright⟩ := heq
      exact .binary (Expr.copy_of_form_eq hts hts' left left' h.tail.left h'.tail.left hleft)
        (copy_of_lexeme hts hts' rfl hmade hmade' hoperator)
        (Expr.copy_of_form_eq hts hts' right right' h.tail.right h'.tail.right hright)
    | _ => cases hnode
  | call callee paren arguments =>
    cases e' with
    | call callee' paren' arguments' =>
      simp only [Expr.form, Form.list.injEq, List.cons.injEq, true_and] at heq
      obtain ⟨hcallee, harguments⟩ := heq
      exact .call (Expr.copy_of_form_eq hts hts' callee callee' h.tail.left h'.tail.left hcallee)
        (copy_of_mark hts hts' hmade hmade')
        (Expr.copyAll_of_formsOf_eq hts hts' arguments arguments' h.tail.right h'.tail.right
          harguments)
    | _ => cases hnode
  | get object name =>
    cases e' with
    | get object' name' =>
      simp only [Expr.form, Form.list.injEq, Form.word.injEq, List.cons.injEq, true_and,
        and_true] at heq
      obtain ⟨hobject, hname⟩ := heq
      exact .get (Expr.copy_of_form_eq hts hts' object object' h.tail h'.tail hobject)
        (copy_of_lexeme hts hts' rfl hmade hmade' hname)
    | _ => cases hnode
  | grouping inner =>
    cases e' with
    | grouping inner' =>
      simp only [Expr.form, Form.list.injEq, List.cons.injEq, true_and, and_true] at heq
      exact .grouping (Expr.copy_of_form_eq hts hts' inner inner' h.tail h'.tail heq)
    | _ => cases hnode
  | literal l =>
    cases e' with
    | literal l' =>
      have hl := Literal.outline_injective (Expr.Made.literal_legible hts hmade)
        (Expr.Made.literal_legible hts' hmade') (Form.word.inj heq)
      subst hl
      exact .literal l
    | _ => cases hnode
  | logical left operator right =>
    cases e' with
    | logical left' operator' right' =>
      simp only [Expr.form, Form.list.injEq, List.cons.injEq, and_true] at heq
      obtain ⟨hoperator, hleft, hright⟩ := heq
      exact .logical (Expr.copy_of_form_eq hts hts' left left' h.tail.left h'.tail.left hleft)
        (copy_of_lexeme hts hts' rfl hmade hmade' hoperator)
        (Expr.copy_of_form_eq hts hts' right right' h.tail.right h'.tail.right hright)
    | _ => cases hnode
  | set object name value =>
    cases e' with
    | set object' name' value' =>
      simp only [Expr.form, Form.list.injEq, Form.word.injEq, List.cons.injEq, true_and,
        and_true] at heq
      obtain ⟨⟨hobject, hname⟩, hvalue⟩ := heq
      exact .set (Expr.copy_of_form_eq hts hts' object object' h.tail.left h'.tail.left hobject)
        (copy_of_lexeme hts hts' rfl hmade hmade' hname)
        (Expr.copy_of_form_eq hts hts' value value' h.tail.right h'.tail.right hvalue)
    | _ => cases hnode
  | superRef id keyword method =>
    cases e' with
    | superRef id' keyword' method' =>
      simp only [Expr.form, Form.list.injEq, Form.word.injEq, List.cons.injEq, true_and,
        and_true] at heq
      exact .superRef trivial (copy_of_keyword hts hts' hmade.1 hmade'.1)
        (copy_of_lexeme hts hts' rfl hmade.2 hmade'.2 heq)
    | _ => cases hnode
  | thisRef id keyword =>
    cases e' with
    | thisRef id' keyword' => exact .thisRef trivial (copy_of_keyword hts hts' hmade hmade')
    | _ => cases hnode
  | unary operator right =>
    cases e' with
    | unary operator' right' =>
      simp only [Expr.form, Form.list.injEq, List.cons.injEq, and_true] at heq
      obtain ⟨hoperator, hright⟩ := heq
      exact .unary (copy_of_lexeme hts hts' rfl hmade hmade' hoperator)
        (Expr.copy_of_form_eq hts hts' right right' h.tail h'.tail hright)
    | _ => cases hnode
  | var id name =>
    cases e' with
    | var id' name' =>
      exact .var trivial (copy_of_lexeme hts hts' rfl hmade hmade' (Form.word.inj heq))
    | _ => cases hnode

theorem Expr.copyAll_of_formsOf_eq {ts ts' : List Token} (hts : ∀ t ∈ ts, t.Legible)
    (hts' : ∀ t ∈ ts', t.Legible) (es es' : List Expr) (h : Part.AllMade ts (Expr.partsIn es))
    (h' : Part.AllMade ts' (Expr.partsIn es')) (heq : Expr.formsOf es = Expr.formsOf es') :
    Expr.CopyAll .all es es' := by
  match es, es' with
  | [], [] => exact .nil
  | e :: es, e' :: es' =>
    obtain ⟨he, hes⟩ := List.cons.inj heq
    exact .cons (Expr.copy_of_form_eq hts hts' e e' h.left h'.left he)
      (Expr.copyAll_of_formsOf_eq hts hts' es es' h.right h'.right hes)
  | [], e' :: es' => cases heq
  | e :: es, [] => cases heq

end

mutual

/-- Copies have one form. -/
theorem Expr.Copy.form_eq {π : Pairing} {e e' : Expr} (h : e.Copy π e') : e.form = e'.form := by
  cases h with
  | assign _ hname hvalue => rw [form, form, hname.lexeme, hvalue.form_eq]
  | binary hleft hoperator hright =>
    rw [form, form, hoperator.lexeme, hleft.form_eq, hright.form_eq]
  | call hcallee _ harguments => rw [form, form, hcallee.form_eq, harguments.formsOf_eq]
  | get hobject hname => rw [form, form, hobject.form_eq, hname.lexeme]
  | grouping hinner => rw [form, form, hinner.form_eq]
  | literal value => rfl
  | logical hleft hoperator hright =>
    rw [form, form, hoperator.lexeme, hleft.form_eq, hright.form_eq]
  | set hobject hname hvalue => rw [form, form, hobject.form_eq, hname.lexeme, hvalue.form_eq]
  | superRef _ _ hmethod => rw [form, form, hmethod.lexeme]
  | thisRef _ _ => rfl
  | unary hoperator hright => rw [form, form, hoperator.lexeme, hright.form_eq]
  | var _ hname => rw [form, form, hname.lexeme]

theorem Expr.CopyAll.formsOf_eq {π : Pairing} {es es' : List Expr} (h : Expr.CopyAll π es es') :
    Expr.formsOf es = Expr.formsOf es' := by
  cases h with
  | nil => rfl
  | cons he hes => rw [formsOf, formsOf, he.form_eq, hes.formsOf_eq]

end

/-! ### Outlines of sources -/

/-- The expression stands in a program that is parsed from the source, at any depth. -/
def Expr.StandsIn (source : String) (e : Expr) : Prop :=
  ∃ first program, (parse (scanTokens source) first).result = .ok program ∧
    .expression e ∈ Stmt.partsIn program

theorem Expr.StandsIn.made {source : String} {e : Expr} (h : e.StandsIn source) :
    Part.AllMade (scanTokens source) e.parts := by
  obtain ⟨first, program, hparse, he⟩ := h
  exact fun x hx => parse_parts hparse x (Stmt.partsIn_closed program e he hx)

/-- Of two expressions in programs, which are parsed from sources without strings and without
infinite numbers, the outlines are equal if and only if the expressions are the same tree, with the
same operators, names and numbers, but for the numbers of nodes and the lines of tokens. -/
theorem outline_eq_iff {source source' : String} {e e' : Expr}
    (hplain : ∀ t ∈ scanTokens source, t.kind.Plain)
    (hplain' : ∀ t ∈ scanTokens source', t.kind.Plain)
    (h : e.StandsIn source) (h' : e'.StandsIn source') :
    e.outline = e'.outline ↔ e.Copy .all e' := by
  have hts := legible_of_mem_scanTokens hplain
  have hts' := legible_of_mem_scanTokens hplain'
  rw [← String.toList_inj, e.toList_outline, e'.toList_outline]
  constructor
  · intro htext
    have hform := Form.text_injective (Expr.form_sound hts e h.made)
      (Expr.form_sound hts' e' h'.made) htext
    exact Expr.copy_of_form_eq hts hts' e e' h.made h'.made hform
  · intro hcopy
    rw [hcopy.form_eq]

/-- The tokens of `group(x);` for a number that is written with these digits, on this line. -/
def groupTokens (x : Float) (digits : String) (line : Nat) : List Token :=
  [⟨.identifier, "group", 1⟩, ⟨.mark .leftParen, "(", 1⟩, ⟨.number x, digits, line⟩,
    ⟨.mark .rightParen, ")", line⟩, ⟨.mark .semicolon, ";", line⟩]

/-- A call of a variable that is written like the head of a grouping. -/
def groupCall (x : Float) (line : Nat) : Expr :=
  .call (.var 0 ⟨.identifier, "group", 1⟩) ⟨.mark .rightParen, ")", line⟩ [.literal (.number x)]

section

variable {source digits : String} {x : Float} {line : Nat}
  (h : Scans 1 source.toList (groupTokens x digits line))
include h

theorem groupCall_standsIn : (groupCall x line).StandsIn source := by
  refine ⟨0, [.expression (groupCall x line)], ?_, List.mem_append_left _ (Expr.mem_parts _)⟩
  rw [h.scanTokens_eq]
  rfl

theorem groupTokens_plain (hx : x.isInf = false) : ∀ t ∈ scanTokens source, t.kind.Plain := by
  rw [h.scanTokens_eq]
  simp [groupTokens, Kind.Plain, endOf, hx]

end

/-- Two sources with one call, in which the number is written in two ways and on two lines. -/
theorem outline_eq_iff_groupCall :
    (groupCall (literalValue ['1'] []) 1).StandsIn "group(1);" ∧
      (groupCall (literalValue ['1'] ['0']) 2).StandsIn "group(\n1.0);" ∧
      (groupCall (literalValue ['1'] []) 1).outline =
        (groupCall (literalValue ['1'] ['0']) 2).outline ∧
      (groupCall (literalValue ['1'] []) 1).Copy .all (groupCall (literalValue ['1'] ['0']) 2) := by
  have hscans : Scans 1 "group(1);".toList (groupTokens (literalValue ['1'] []) "1" 1) := by
    show Scans 1 ['g', 'r', 'o', 'u', 'p', '(', '1', ')', ';'] _
    exact .token rfl (.token rfl (.token rfl (.token rfl (.token rfl (.nil 1)))))
  have hscans' : Scans 1 "group(\n1.0);".toList
      (groupTokens (literalValue ['1'] ['0']) "1.0" 2) := by
    show Scans 1 ['g', 'r', 'o', 'u', 'p', '(', '\n', '1', '.', '0', ')', ';'] _
    exact .token rfl (.token rfl (.trivia rfl (.token rfl (.token rfl (.token rfl (.nil 2))))))
  have hvalue : literalValue ['1'] ['0'] = literalValue ['1'] [] :=
    Number.toBits_injective (by decide +kernel)
  have hfinite : (literalValue ['1'] []).isInf = false := by decide +kernel
  have hplain := groupTokens_plain hscans hfinite
  have hplain' := groupTokens_plain hscans' (by rw [hvalue]; exact hfinite)
  have h := groupCall_standsIn hscans
  have h' := groupCall_standsIn hscans'
  have houtline : (groupCall (literalValue ['1'] []) 1).outline =
      (groupCall (literalValue ['1'] ['0']) 2).outline := by
    rw [hvalue]
    rfl
  exact ⟨h, h', houtline, (outline_eq_iff hplain hplain' h h').mp houtline⟩

end Lox
