/-
Copies of programs.

Two programs are copies of each other if they differ in the lines of their tokens and in the numbers
of their nodes at most.  A `Pairing` says which lines and which numbers belong together.

* `Token.Copy`, `Expr.Copy`, `Stmt.Copy`, `FunDecl.Copy` — pairs that differ so;
* `Diagnostic.Copy` — a fault, and the same fault on a line that belongs to its line;
* `Expr.Copy.mono`, `Stmt.Copy.mono` — a pairing that pairs more keeps all copies.

Design notes: a copy is a relation and not the value of a function, since one number may stand in
several programs of which each has its own copy.
-/
import Mathlib.Data.List.Forall2
import Lox.Diagnostic
import Lox.Syntax.Tree

namespace Lox

/-- Which lines and which numbers of nodes belong together. -/
structure Pairing where
  lines : Nat → Nat → Prop
  ids : NodeId → NodeId → Prop

/-- All that is paired is paired in the other one as well. -/
structure Pairing.Within (π π' : Pairing) : Prop where
  lines : ∀ {l l'}, π.lines l l' → π'.lines l l'
  ids : ∀ {id id'}, π.ids id id' → π'.ids id id'

/-- Two tokens that differ in their lines at most. -/
structure Token.Copy (π : Pairing) (t t' : Token) : Prop where
  kind : t'.kind = t.kind
  lexeme : t'.lexeme = t.lexeme
  line : π.lines t.line t'.line

/-- Two faults that differ in their lines at most. -/
inductive Diagnostic.Copy (π : Pairing) : Diagnostic → Diagnostic → Prop where
  | runtime {l l' : Nat} (hline : π.lines l l') (fault : RuntimeFault) :
      Diagnostic.Copy π (.runtime l fault) (.runtime l' fault)
  | output (text : String) : Diagnostic.Copy π (.output text) (.output text)

mutual

/-- Two expressions that differ in lines and numbers at most. -/
inductive Expr.Copy (π : Pairing) : Expr → Expr → Prop where
  | assign {id id' name name' value value'} (hid : π.ids id id') (hname : Token.Copy π name name')
      (hvalue : Expr.Copy π value value') :
      Expr.Copy π (.assign id name value) (.assign id' name' value')
  | binary {left left' operator operator' right right'} (hleft : Expr.Copy π left left')
      (hoperator : Token.Copy π operator operator') (hright : Expr.Copy π right right') :
      Expr.Copy π (.binary left operator right) (.binary left' operator' right')
  | call {callee callee' paren paren' arguments arguments'} (hcallee : Expr.Copy π callee callee')
      (hparen : Token.Copy π paren paren') (harguments : Expr.CopyAll π arguments arguments') :
      Expr.Copy π (.call callee paren arguments) (.call callee' paren' arguments')
  | get {object object' name name'} (hobject : Expr.Copy π object object')
      (hname : Token.Copy π name name') : Expr.Copy π (.get object name) (.get object' name')
  | grouping {inner inner'} (hinner : Expr.Copy π inner inner') :
      Expr.Copy π (.grouping inner) (.grouping inner')
  | literal (value : Literal) : Expr.Copy π (.literal value) (.literal value)
  | logical {left left' operator operator' right right'} (hleft : Expr.Copy π left left')
      (hoperator : Token.Copy π operator operator') (hright : Expr.Copy π right right') :
      Expr.Copy π (.logical left operator right) (.logical left' operator' right')
  | set {object object' name name' value value'} (hobject : Expr.Copy π object object')
      (hname : Token.Copy π name name') (hvalue : Expr.Copy π value value') :
      Expr.Copy π (.set object name value) (.set object' name' value')
  | superRef {id id' keyword keyword' method method'} (hid : π.ids id id')
      (hkeyword : Token.Copy π keyword keyword') (hmethod : Token.Copy π method method') :
      Expr.Copy π (.superRef id keyword method) (.superRef id' keyword' method')
  | thisRef {id id' keyword keyword'} (hid : π.ids id id')
      (hkeyword : Token.Copy π keyword keyword') :
      Expr.Copy π (.thisRef id keyword) (.thisRef id' keyword')
  | unary {operator operator' right right'} (hoperator : Token.Copy π operator operator')
      (hright : Expr.Copy π right right') :
      Expr.Copy π (.unary operator right) (.unary operator' right')
  | var {id id' name name'} (hid : π.ids id id') (hname : Token.Copy π name name') :
      Expr.Copy π (.var id name) (.var id' name')

/-- Two lists of expressions, each of which has its copy. -/
inductive Expr.CopyAll (π : Pairing) : List Expr → List Expr → Prop where
  | nil : Expr.CopyAll π [] []
  | cons {e e' es es'} (he : Expr.Copy π e e') (hes : Expr.CopyAll π es es') :
      Expr.CopyAll π (e :: es) (e' :: es')

end

mutual

/-- Two statements that differ in lines and numbers at most. -/
inductive Stmt.Copy (π : Pairing) : Stmt → Stmt → Prop where
  | block {body body'} (hbody : Stmt.CopyAll π body body') :
      Stmt.Copy π (.block body) (.block body')
  | classDecl {name name' superclass superclass' methods methods'}
      (hname : Token.Copy π name name')
      (hsuperclass : Option.Rel (Expr.Copy π) superclass superclass')
      (hmethods : FunDecl.CopyAll π methods methods') :
      Stmt.Copy π (.classDecl name superclass methods) (.classDecl name' superclass' methods')
  | expression {e e'} (he : Expr.Copy π e e') : Stmt.Copy π (.expression e) (.expression e')
  | function {f f'} (hf : FunDecl.Copy π f f') : Stmt.Copy π (.function f) (.function f')
  | branch {condition condition' thenBranch thenBranch'}
      (hcondition : Expr.Copy π condition condition')
      (hthen : Stmt.Copy π thenBranch thenBranch') :
      Stmt.Copy π (.branch condition thenBranch none) (.branch condition' thenBranch' none)
  | branchElse {condition condition' thenBranch thenBranch' elseBranch elseBranch'}
      (hcondition : Expr.Copy π condition condition')
      (hthen : Stmt.Copy π thenBranch thenBranch') (helse : Stmt.Copy π elseBranch elseBranch') :
      Stmt.Copy π (.branch condition thenBranch (some elseBranch))
        (.branch condition' thenBranch' (some elseBranch'))
  | print {e e'} (he : Expr.Copy π e e') : Stmt.Copy π (.print e) (.print e')
  | ret {keyword keyword' value value'} (hkeyword : Token.Copy π keyword keyword')
      (hvalue : Option.Rel (Expr.Copy π) value value') :
      Stmt.Copy π (.ret keyword value) (.ret keyword' value')
  | varDecl {name name' initializer initializer'} (hname : Token.Copy π name name')
      (hinitializer : Option.Rel (Expr.Copy π) initializer initializer') :
      Stmt.Copy π (.varDecl name initializer) (.varDecl name' initializer')
  | loop {condition condition' body body'} (hcondition : Expr.Copy π condition condition')
      (hbody : Stmt.Copy π body body') : Stmt.Copy π (.loop condition body) (.loop condition' body')

/-- Two lists of statements, each of which has its copy. -/
inductive Stmt.CopyAll (π : Pairing) : List Stmt → List Stmt → Prop where
  | nil : Stmt.CopyAll π [] []
  | cons {s s' ss ss'} (hs : Stmt.Copy π s s') (hss : Stmt.CopyAll π ss ss') :
      Stmt.CopyAll π (s :: ss) (s' :: ss')

/-- Two functions that differ in lines and numbers at most. -/
inductive FunDecl.Copy (π : Pairing) : FunDecl → FunDecl → Prop where
  | mk {name name' params params' body body'} (hname : Token.Copy π name name')
      (hparams : List.Forall₂ (Token.Copy π) params params')
      (hbody : Stmt.CopyAll π body body') :
      FunDecl.Copy π (.mk name params body) (.mk name' params' body')

/-- Two lists of functions, each of which has its copy. -/
inductive FunDecl.CopyAll (π : Pairing) : List FunDecl → List FunDecl → Prop where
  | nil : FunDecl.CopyAll π [] []
  | cons {f f' fs fs'} (hf : FunDecl.Copy π f f') (hfs : FunDecl.CopyAll π fs fs') :
      FunDecl.CopyAll π (f :: fs) (f' :: fs')

end

variable {π π' : Pairing}

/-! ### Larger pairings -/

theorem Token.Copy.mono (hπ : π.Within π') {t t' : Token} (h : t.Copy π t') : t.Copy π' t' :=
  ⟨h.kind, h.lexeme, hπ.lines h.line⟩

mutual

theorem Expr.Copy.mono (hπ : π.Within π') {e e' : Expr} (h : e.Copy π e') : e.Copy π' e' := by
  cases h with
  | assign hid hname hvalue => exact .assign (hπ.ids hid) (hname.mono hπ) (hvalue.mono hπ)
  | binary hleft hoperator hright =>
    exact .binary (hleft.mono hπ) (hoperator.mono hπ) (hright.mono hπ)
  | call hcallee hparen harguments =>
    exact .call (hcallee.mono hπ) (hparen.mono hπ) (harguments.mono hπ)
  | get hobject hname => exact .get (hobject.mono hπ) (hname.mono hπ)
  | grouping hinner => exact .grouping (hinner.mono hπ)
  | literal value => exact .literal value
  | logical hleft hoperator hright =>
    exact .logical (hleft.mono hπ) (hoperator.mono hπ) (hright.mono hπ)
  | set hobject hname hvalue => exact .set (hobject.mono hπ) (hname.mono hπ) (hvalue.mono hπ)
  | superRef hid hkeyword hmethod =>
    exact .superRef (hπ.ids hid) (hkeyword.mono hπ) (hmethod.mono hπ)
  | thisRef hid hkeyword => exact .thisRef (hπ.ids hid) (hkeyword.mono hπ)
  | unary hoperator hright => exact .unary (hoperator.mono hπ) (hright.mono hπ)
  | var hid hname => exact .var (hπ.ids hid) (hname.mono hπ)

theorem Expr.CopyAll.mono (hπ : π.Within π') {es es' : List Expr} (h : Expr.CopyAll π es es') :
    Expr.CopyAll π' es es' := by
  cases h with
  | nil => exact .nil
  | cons he hes => exact .cons (he.mono hπ) (hes.mono hπ)

end

theorem Expr.Copy.mono? (hπ : π.Within π') {e e' : Option Expr}
    (h : Option.Rel (Expr.Copy π) e e') : Option.Rel (Expr.Copy π') e e' := by
  cases h with
  | none => exact .none
  | some he => exact .some (he.mono hπ)

mutual

theorem Stmt.Copy.mono (hπ : π.Within π') {s s' : Stmt} (h : s.Copy π s') : s.Copy π' s' := by
  cases h with
  | block hbody => exact .block (hbody.mono hπ)
  | classDecl hname hsuperclass hmethods =>
    exact .classDecl (hname.mono hπ) (Expr.Copy.mono? hπ hsuperclass) (hmethods.mono hπ)
  | expression he => exact .expression (he.mono hπ)
  | function hf => exact .function (hf.mono hπ)
  | branch hcondition hthen => exact .branch (hcondition.mono hπ) (hthen.mono hπ)
  | branchElse hcondition hthen helse =>
    exact .branchElse (hcondition.mono hπ) (hthen.mono hπ) (helse.mono hπ)
  | print he => exact .print (he.mono hπ)
  | ret hkeyword hvalue => exact .ret (hkeyword.mono hπ) (Expr.Copy.mono? hπ hvalue)
  | varDecl hname hinitializer =>
    exact .varDecl (hname.mono hπ) (Expr.Copy.mono? hπ hinitializer)
  | loop hcondition hbody => exact .loop (hcondition.mono hπ) (hbody.mono hπ)

theorem Stmt.CopyAll.mono (hπ : π.Within π') {ss ss' : List Stmt} (h : Stmt.CopyAll π ss ss') :
    Stmt.CopyAll π' ss ss' := by
  cases h with
  | nil => exact .nil
  | cons hs hss => exact .cons (hs.mono hπ) (hss.mono hπ)

theorem FunDecl.Copy.mono (hπ : π.Within π') {f f' : FunDecl} (h : f.Copy π f') :
    f.Copy π' f' := by
  cases h with
  | mk hname hparams hbody =>
    exact .mk (hname.mono hπ) (hparams.imp fun _ _ ht => ht.mono hπ) (hbody.mono hπ)

theorem FunDecl.CopyAll.mono (hπ : π.Within π') {fs fs' : List FunDecl}
    (h : FunDecl.CopyAll π fs fs') : FunDecl.CopyAll π' fs fs' := by
  cases h with
  | nil => exact .nil
  | cons hf hfs => exact .cons (hf.mono hπ) (hfs.mono hπ)

end

/-! ### What copies have in common -/

theorem Stmt.CopyAll.append {ss ss' us us' : List Stmt} (h : Stmt.CopyAll π ss ss')
    (h' : Stmt.CopyAll π us us') : Stmt.CopyAll π (ss ++ us) (ss' ++ us') := by
  induction ss generalizing ss' with
  | nil =>
    cases h
    exact h'
  | cons s ss ih =>
    cases h with
    | cons hs hss => exact .cons hs (ih hss)

namespace FunDecl.Copy

variable {f f' : FunDecl}

theorem name (h : f.Copy π f') : f.name.Copy π f'.name := by
  cases h with
  | mk hname _ _ => exact hname

theorem params (h : f.Copy π f') : List.Forall₂ (Token.Copy π) f.params f'.params := by
  cases h with
  | mk _ hparams _ => exact hparams

theorem body (h : f.Copy π f') : Stmt.CopyAll π f.body f'.body := by
  cases h with
  | mk _ _ hbody => exact hbody

theorem arity (h : f.Copy π f') : f'.arity = f.arity := h.params.length_eq.symm

theorem isInitializer (h : f.Copy π f') : f'.isInitializer = f.isInitializer := by
  unfold FunDecl.isInitializer
  rw [h.name.lexeme]

end FunDecl.Copy

end Lox
