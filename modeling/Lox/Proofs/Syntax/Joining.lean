/-
Trees that stand one behind the other.

The trees of several sources are the trees of one text in which the sources stand one behind the
other, each of them moved to lines of its own.

* `Declaration.leavesIn_append`, `Declaration.astIn_append` — leaves and abstract syntax of both;
* `Declaration.Sourced` — trees that some source may have, the abstract syntax of which is proper;
* `Alike` — trees the abstract syntax of which is a copy, with whatever numbers;
* `laid` — trees of several sources, each on lines of its own.
-/
import Lox.Proofs.Syntax.Completeness
import Lox.Proofs.Syntax.Parsing
import Lox.Proofs.Syntax.Relabelling

namespace Lox

namespace Concrete

/-! ### Trees in a row -/

theorem Declaration.leavesIn_append (ts us : List Declaration) :
    Declaration.leavesIn (ts ++ us) = Declaration.leavesIn ts ++ Declaration.leavesIn us := by
  induction ts with
  | nil => rfl
  | cons t ts ih =>
    rw [List.cons_append, Declaration.leavesIn, Declaration.leavesIn, ih, List.append_assoc]

theorem Declaration.idsIn_append (ts us : List Declaration) :
    Declaration.idsIn (ts ++ us) = Declaration.idsIn ts + Declaration.idsIn us := by
  induction ts with
  | nil => exact (Nat.zero_add _).symm
  | cons t ts ih =>
    rw [List.cons_append, Declaration.idsIn, Declaration.idsIn, ih, Nat.add_assoc]

/-- Later trees have the numbers behind those of earlier ones. -/
theorem Declaration.astIn_append (first : NodeId) (ts us : List Declaration) :
    Declaration.astIn first (ts ++ us) =
      Declaration.astIn first ts ++ Declaration.astIn (first + Declaration.idsIn ts) us := by
  induction ts generalizing first with
  | nil => rfl
  | cons t ts ih =>
    rw [List.cons_append, Declaration.astIn, Declaration.astIn, ih, Declaration.idsIn,
      Nat.add_assoc]
    rfl

theorem Declaration.AllLegal.append {ts us : List Declaration} (h : Declaration.AllLegal ts)
    (h' : Declaration.AllLegal us) : Declaration.AllLegal (ts ++ us) := by
  induction ts with
  | nil => exact h'
  | cons t ts ih => exact ⟨h.1, ih h.2⟩

/-! ### Trees of sources -/

/-- Trees that a source may have: they are legal, and their leaves are genuine. -/
structure Declaration.Sourced (ts : List Declaration) : Prop where
  legal : Declaration.AllLegal ts
  genuine : ∀ t ∈ Declaration.leavesIn ts, t.Genuine

namespace Declaration.Sourced

variable {ts us : List Declaration}

theorem nil : Declaration.Sourced [] := ⟨trivial, fun _ ht => absurd ht List.not_mem_nil⟩

theorem append (h : Declaration.Sourced ts) (h' : Declaration.Sourced us) :
    Declaration.Sourced (ts ++ us) := by
  refine ⟨h.legal.append h'.legal, fun t ht => ?_⟩
  rw [Declaration.leavesIn_append] at ht
  exact (List.mem_append.mp ht).elim (h.genuine t) (h'.genuine t)

theorem relabelIn (h : Declaration.Sourced ts) (f : Nat → Nat) :
    Declaration.Sourced (Declaration.relabelIn f ts) := by
  refine ⟨h.legal.relabel, fun u hu => ?_⟩
  rw [Declaration.leavesIn_relabel] at hu
  obtain ⟨t, ht, rfl⟩ := List.mem_map.mp hu
  exact h.genuine t ht

/-- The abstract syntax of such trees is proper, and its nodes have numbers of their own. -/
theorem stmtsRead (h : Declaration.Sourced ts) (first : NodeId) :
    Parse.StmtsRead first (Declaration.astIn first ts) (first + Declaration.idsIn ts) := by
  have hparse := (treesOf_leavesIn h.legal (.inl rfl)).parse_eq first
  rw [List.append_nil] at hparse
  have hresult : (parse (Declaration.leavesIn ts) first).result =
      .ok (Declaration.astIn first ts) := by rw [hparse]
  have hread := parse_proper h.genuine hresult
  rwa [hparse] at hread

end Declaration.Sourced

/-! ### Trees on different lines -/

/-- Trees the abstract syntax of which is a copy, with whatever numbers. -/
structure Alike (L : Nat → Nat → Prop) (ts us : List Declaration) : Prop where
  ids : Declaration.idsIn us = Declaration.idsIn ts
  copy : ∀ {R : NodeId → NodeId → Prop} {first first' : Nat},
    Paired ⟨L, R⟩ (Declaration.idsIn ts) first first' →
      Stmt.CopyAll ⟨L, R⟩ (Declaration.astIn first ts) (Declaration.astIn first' us)

variable {L : Nat → Nat → Prop} {f g : Nat → Nat}

theorem alike_relabelIn (hfg : ∀ l, L (f l) (g l)) (ts : List Declaration) :
    Alike L (Declaration.relabelIn f ts) (Declaration.relabelIn g ts) := by
  refine ⟨?_, fun {R first first'} hids => ?_⟩
  · rw [Declaration.idsIn_relabel, Declaration.idsIn_relabel]
  · have hlead : Leads ⟨L, R⟩ f g := hfg
    rw [Declaration.idsIn_relabel] at hids
    exact Declaration.astIn_copy hlead ts hids

/-- Trees that stay on their lines have the abstract syntax that they had. -/
theorem Declaration.astIn_relabelIn_self {ts : List Declaration} (hl : Declaration.AllLegal ts)
    (first : NodeId) :
    Declaration.astIn first (Declaration.relabelIn (fun l => l) ts) =
      Declaration.astIn first ts := by
  have hleaves : Declaration.leavesIn (Declaration.relabelIn (fun l => l) ts) =
      Declaration.leavesIn ts := by
    rw [Declaration.leavesIn_relabel]
    exact List.map_id _
  have hparse := (treesOf_leavesIn hl (.inl rfl)).parse_eq first
  have hparse' := (treesOf_leavesIn (hl.relabel (f := fun l => l)) (.inl rfl)).parse_eq first
  rw [hleaves, hparse] at hparse'
  injection hparse' with hresult
  exact (Except.ok.inj hresult).symm

theorem alike_relabelIn_right (hg : ∀ l, L l (g l)) {ts : List Declaration}
    (hl : Declaration.AllLegal ts) : Alike L ts (Declaration.relabelIn g ts) := by
  refine ⟨Declaration.idsIn_relabel ts, fun {R first first'} hids => ?_⟩
  have hlead : Leads ⟨L, R⟩ (fun l => l) g := hg
  rw [← Declaration.astIn_relabelIn_self hl]
  exact Declaration.astIn_copy hlead ts hids

namespace Alike

theorem refl (hL : ∀ l, L l l) {ts : List Declaration} (hl : Declaration.AllLegal ts) :
    Alike L ts ts := by
  refine ⟨rfl, fun {R first first'} hids => ?_⟩
  have hlead : Leads ⟨L, R⟩ (fun l => l) fun l => l := hL
  rw [← Declaration.astIn_relabelIn_self hl, ← Declaration.astIn_relabelIn_self hl first']
  exact Declaration.astIn_copy hlead ts hids

theorem append {ts ts' us us' : List Declaration} (h : Alike L ts us) (h' : Alike L ts' us') :
    Alike L (ts ++ ts') (us ++ us') := by
  refine ⟨?_, fun {R first first'} hids => ?_⟩
  · rw [Declaration.idsIn_append, Declaration.idsIn_append, h.ids, h'.ids]
  · rw [Declaration.idsIn_append] at hids
    rw [Declaration.astIn_append, Declaration.astIn_append, h.ids]
    exact (h.copy hids.left).append (h'.copy hids.right)

theorem flatten {tss uss : List (List Declaration)} (h : List.Forall₂ (Alike L) tss uss) :
    Alike L tss.flatten uss.flatten := by
  induction h with
  | nil => exact ⟨rfl, fun _ => .nil⟩
  | cons h _ ih => exact h.append ih

end Alike

/-! ### Several sources -/

/-- The trees of several sources, each of them moved to lines of its own. -/
def laid (f : Nat → Nat → Nat) (tss : List (List Declaration)) : List (List Declaration) :=
  tss.mapIdx fun i => Declaration.relabelIn (f i)

theorem laid_cons (f : Nat → Nat → Nat) (ts : List Declaration) (tss : List (List Declaration)) :
    laid f (ts :: tss) = Declaration.relabelIn (f 0) ts :: laid (fun i => f (i + 1)) tss :=
  List.mapIdx_cons

theorem alike_laid {f g : Nat → Nat → Nat} (hfg : ∀ i l, L (f i l) (g i l))
    (tss : List (List Declaration)) : List.Forall₂ (Alike L) (laid f tss) (laid g tss) := by
  induction tss generalizing f g with
  | nil => exact .nil
  | cons ts tss ih =>
    rw [laid_cons, laid_cons]
    exact .cons (alike_relabelIn (hfg 0) ts) (ih fun i => hfg (i + 1))

theorem Declaration.Sourced.flatten {tss : List (List Declaration)}
    (h : ∀ ts ∈ tss, Declaration.Sourced ts) : Declaration.Sourced tss.flatten := by
  induction tss with
  | nil => exact .nil
  | cons ts tss ih =>
    obtain ⟨hts, htss⟩ := List.forall_mem_cons.mp h
    exact hts.append (ih htss)

end Concrete

end Lox
