/-
Proper trees.

The grammar produces fewer trees than there are.  In a proper tree only a list of statements holds
declarations, a superclass is a variable, and names and keywords are tokens of their kind.  The
occurrences in a tree that is read at once are `Numbered`: their numbers differ, and all lie
between the numbers before and behind the reading.

* `Numbered.append`, `Numbered.append_comm` — trees that are read one after the other have no
  number in common, in whichever order they end up.
-/
import Lox.Proofs.Token.Genuine
import Lox.Syntax.Occurrence
import Mathlib.Data.List.Nodup

namespace Lox

/-- A genuine identifier. -/
def Token.IsName (t : Token) : Prop :=
  t.kind = .identifier ∧ t.Genuine

/-- A token of this reserved word that is written like it. -/
def Token.IsWord (t : Token) (k : Keyword) : Prop :=
  t.kind = .keyword k ∧ t.Genuine

theorem Token.IsWord.lexeme_eq {t : Token} {k : Keyword} (h : t.IsWord k) : t.lexeme = k.text := by
  obtain ⟨hk, hg⟩ := h
  unfold Token.Genuine at hg
  rw [hk] at hg
  exact hg

theorem Token.isName_iff {t : Token} :
    t.IsName ↔ t.kind = .identifier ∧ Keyword.ofText? t.lexeme = none := by
  unfold IsName Genuine
  constructor
  · rintro ⟨hk, hg⟩
    rw [hk] at hg
    exact ⟨hk, hg⟩
  · rintro ⟨hk, hg⟩
    rw [hk]
    exact ⟨rfl, hg⟩

theorem Token.IsName.lexeme_ne {t : Token} (h : t.IsName) (k : Keyword) : t.lexeme ≠ k.text :=
  Keyword.text_ne_of_ofText? (isName_iff.mp h).2 k

/-- The token of an occurrence is of the kind that the node calls for. -/
def Occurrence.Proper (o : Occurrence) : Prop :=
  match o.kind with
  | .variable_ | .assign => o.token.IsName
  | .this_ => o.token.IsWord .this_
  | .super_ => o.token.IsWord .super_

/-- The name that a statement declares in the scope around it. -/
def Stmt.declared? : Stmt → Option Token
  | .varDecl name _ => some name
  | .function f => some f.name
  | .classDecl name _ _ => some name
  | _ => none

/-- The name of an expression that is a variable. -/
def Expr.varToken? : Expr → Option Token
  | .var _ name => some name
  | _ => none

mutual

/-- Declarations stand in lists only, superclasses are variables, and names are identifiers. -/
def Stmt.Proper : Stmt → Prop
  | .block body => Stmt.AllProper body
  | .classDecl name superclass methods =>
    name.IsName ∧ (∀ e ∈ superclass, e.varToken?.isSome) ∧ FunDecl.AllProper methods
  | .function f => f.Proper
  | .branch _ thenBranch none => thenBranch.Proper ∧ thenBranch.declared? = none
  | .branch _ thenBranch (some elseBranch) =>
    (thenBranch.Proper ∧ thenBranch.declared? = none) ∧
      elseBranch.Proper ∧ elseBranch.declared? = none
  | .varDecl name _ => name.IsName
  | .loop _ body => body.Proper ∧ body.declared? = none
  | .expression _ | .print _ | .ret .. => True

/-- All statements of a list are proper. -/
def Stmt.AllProper : List Stmt → Prop
  | [] => True
  | s :: ss => s.Proper ∧ Stmt.AllProper ss

/-- The names of a function are identifiers, and its body is proper. -/
def FunDecl.Proper : FunDecl → Prop
  | .mk name params body => name.IsName ∧ (∀ p ∈ params, p.IsName) ∧ Stmt.AllProper body

/-- All functions of a list are proper. -/
def FunDecl.AllProper : List FunDecl → Prop
  | [] => True
  | f :: fs => f.Proper ∧ FunDecl.AllProper fs

end

theorem FunDecl.Proper.name_isName {f : FunDecl} (h : f.Proper) : f.name.IsName := by
  obtain ⟨name, params, body⟩ := f
  unfold FunDecl.Proper at h
  exact h.1

theorem Stmt.Proper.declared_isName {s : Stmt} {name : Token} (h : s.Proper)
    (hd : s.declared? = some name) : name.IsName := by
  cases s with
  | varDecl n _ =>
    cases hd
    unfold Stmt.Proper at h
    exact h
  | function f =>
    cases hd
    unfold Stmt.Proper at h
    exact h.name_isName
  | classDecl n _ _ =>
    cases hd
    unfold Stmt.Proper at h
    exact h.1
  | _ => exact absurd hd (by simp [Stmt.declared?])

/-- The occurrences are proper, their numbers differ, and all are at least `first` and less than
`next`. -/
def Numbered (first next : Nat) (os : List Occurrence) : Prop :=
  (os.map Occurrence.id).Nodup ∧ ∀ o ∈ os, first ≤ o.id ∧ o.id < next ∧ o.Proper

namespace Numbered

variable {first middle next : Nat} {os ps : List Occurrence}

@[simp] theorem nil : Numbered first next [] := by
  simp [Numbered]

theorem single {o : Occurrence} (hf : first ≤ o.id) (hn : o.id < next) (ho : o.Proper) :
    Numbered first next [o] := by
  simp [Numbered, hf, hn, ho]

theorem mono {first' next' : Nat} (h : Numbered first next os) (hf : first' ≤ first)
    (hn : next ≤ next') : Numbered first' next' os := by
  refine ⟨h.1, fun o ho => ?_⟩
  obtain ⟨h1, h2, h3⟩ := h.2 o ho
  exact ⟨Nat.le_trans hf h1, Nat.lt_of_lt_of_le h2 hn, h3⟩

/-- Nothing that is read before has a number of what is read behind. -/
theorem disjoint (h : Numbered first middle os) (h' : Numbered middle next ps) :
    (os.map Occurrence.id).Disjoint (ps.map Occurrence.id) := by
  intro id hid hid'
  obtain ⟨o, ho, rfl⟩ := List.mem_map.mp hid
  obtain ⟨p, hp, he⟩ := List.mem_map.mp hid'
  have hlt : o.id < p.id := Nat.lt_of_lt_of_le (h.2 o ho).2.1 (h'.2 p hp).1
  exact absurd he (Nat.ne_of_gt hlt)

theorem append (h : Numbered first middle os) (h' : Numbered middle next ps)
    (hf : first ≤ middle) (hn : middle ≤ next) : Numbered first next (os ++ ps) := by
  refine ⟨?_, fun o ho => ?_⟩
  · rw [List.map_append]
    exact List.Nodup.append h.1 h'.1 (h.disjoint h')
  · rcases List.mem_append.mp ho with ho | ho
    · exact (h.mono (Nat.le_refl _) hn).2 o ho
    · exact (h'.mono hf (Nat.le_refl _)).2 o ho

theorem append_comm (h : Numbered first next (os ++ ps)) : Numbered first next (ps ++ os) := by
  refine ⟨?_, fun o ho => h.2 o ?_⟩
  · have := h.1
    rw [List.map_append] at this ⊢
    exact (List.perm_append_comm.nodup_iff).mp this
  · exact List.mem_append.mpr (List.mem_append.mp ho).symm

end Numbered

end Lox
