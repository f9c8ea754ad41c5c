/-
Returning from functions.

A `return` ends all that runs around it in its activation: the blocks, branches, loops and lists of
statements that it is in yield its signal at once, and nothing further of them is run.  No such
signal comes from anything but a `return` statement of the same activation, so none comes from the
statements of a program that has been checked.

* `Stmt.own` — what of a statement runs in the activation of the statement;
* `Begins` — in the course of what is run a statement is begun in the same activation;
* `Begins.returns` — if that statement returns, so does all that is around it, with the record that
  it has left;
* `exists_begins_ret` — whatever returns does so by a `return` statement that was begun;
* `execute_ne_returned` — no statement of a program that has been checked returns.

Design notes: `Begins` goes down into a statement in the way the evaluation does, so each
constructor asks that what stands in front has ended normally.  The records show that nothing else
happens, as every node that is evaluated would be noted.
-/
import Lox.Proofs.Run.Agreement
import Lox.Proofs.Run.Erasure
import Lox.Proofs.Run.Growth
import Lox.Proofs.Binding.Enclosing

namespace Lox

/-! ### Statements of one activation -/

mutual

/-- The statement with those in it that run in the same activation: what stands in functions does
not. -/
def Stmt.own : Stmt → List Stmt
  | .block body => .block body :: Stmt.ownIn body
  | .branch condition thenBranch none => .branch condition thenBranch none :: thenBranch.own
  | .branch condition thenBranch (some elseBranch) =>
    .branch condition thenBranch (some elseBranch) :: (thenBranch.own ++ elseBranch.own)
  | .loop condition body => .loop condition body :: body.own
  | .classDecl name superclass methods => [.classDecl name superclass methods]
  | .expression e => [.expression e]
  | .function f => [.function f]
  | .print e => [.print e]
  | .ret keyword value => [.ret keyword value]
  | .varDecl name initializer => [.varDecl name initializer]

/-- The statements of a list with those in them that run in the same activation. -/
def Stmt.ownIn : List Stmt → List Stmt
  | [] => []
  | s :: ss => s.own ++ Stmt.ownIn ss

end

theorem Stmt.mem_own_self (s : Stmt) : s ∈ s.own := by
  cases s with
  | branch condition thenBranch elseBranch =>
    cases elseBranch with
    | none => exact List.mem_cons_self ..
    | some elseBranch => exact List.mem_cons_self ..
  | _ => exact List.mem_cons_self ..

theorem Stmt.mem_ownIn {s t : Stmt} {ss : List Stmt} (hs : s ∈ ss) (ht : t ∈ s.own) :
    t ∈ Stmt.ownIn ss := by
  induction ss with
  | nil => cases hs
  | cons s' ss ih =>
    rcases List.mem_cons.mp hs with rfl | hs
    · exact List.mem_append_left _ ht
    · exact List.mem_append_right _ (ih hs)

/-! ### The course of a statement -/

/-- What is run in one activation: a statement, statements the first of which is the `i`-th part, or
further turns of a loop. -/
inductive Course where
  | one (p : Place) (s : Stmt)
  | all (p : Place) (i : Nat) (ss : List Stmt)
  | turns (p : Place) (condition : Expr) (body : Stmt)

namespace Course

/-- Runs what is to be run. -/
def run (fuel : Nat) : Course → Traced Signal
  | one p s => Traced.execute fuel p s
  | all p i ss => Traced.executeAll fuel p i ss
  | turns p condition body => Traced.repeatWhile fuel p condition body

/-- The statements that may run in the activation. -/
def own : Course → List Stmt
  | one _ s => s.own
  | all _ _ ss => Stmt.ownIn ss
  | turns _ _ body => body.own

end Course

/-- In the course of a run the statement `t` is begun at the place `q`, on the record `u` and with
`n` steps left, in the same activation. -/
inductive Begins (n : Nat) (q : Place) (t : Stmt) (u : Record) : Nat → Course → Record → Prop where
  | here : Begins n q t u n (.one q t) u
  | block {fuel : Nat} {p : Place} {body : List Stmt} {r : Record}
      (h : Begins n q t u fuel (.all p.block 0 body)
        (((r.meet p (.statement (.block body))).push r.machine.active (p.block.openerAt 0)).inside
          r.machine.frames.size)) :
      Begins n q t u (fuel + 1) (.one p (.block body)) r
  | thenBranch {fuel : Nat} {p : Place} {condition : Expr} {thenBranch : Stmt}
      {elseBranch : Option Stmt} {r r₁ : Record} {v : Value}
      (hcondition : Traced.evaluate fuel p condition
        (r.meet p (.statement (.branch condition thenBranch elseBranch))) = .ok v r₁)
      (htrue : v.isTruthy = true)
      (h : Begins n q t u fuel (.one ((p.afterExpr condition).child 0) thenBranch) r₁) :
      Begins n q t u (fuel + 1) (.one p (.branch condition thenBranch elseBranch)) r
  | elseBranch {fuel : Nat} {p : Place} {condition : Expr} {thenBranch elseBranch : Stmt}
      {r r₁ : Record} {v : Value}
      (hcondition : Traced.evaluate fuel p condition
        (r.meet p (.statement (.branch condition thenBranch (some elseBranch)))) = .ok v r₁)
      (hfalse : v.isTruthy = false)
      (h : Begins n q t u fuel (.one (p.elseBranch condition thenBranch) elseBranch) r₁) :
      Begins n q t u (fuel + 1) (.one p (.branch condition thenBranch (some elseBranch))) r
  | loop {fuel : Nat} {p : Place} {condition : Expr} {body : Stmt} {r : Record}
      (h : Begins n q t u fuel (.turns p condition body)
        (r.meet p (.statement (.loop condition body)))) :
      Begins n q t u (fuel + 1) (.one p (.loop condition body)) r
  | head {fuel : Nat} {p : Place} {i : Nat} {s : Stmt} {ss : List Stmt} {r : Record}
      (h : Begins n q t u fuel (.one (p.child i) s) r) :
      Begins n q t u (fuel + 1) (.all p i (s :: ss)) r
  | tail {fuel : Nat} {p : Place} {i : Nat} {s : Stmt} {ss : List Stmt} {r r₁ : Record}
      (hfirst : Traced.execute fuel (p.child i) s r = .ok .normal r₁)
      (h : Begins n q t u fuel (.all (p.afterStmt s) (i + 1) ss) r₁) :
      Begins n q t u (fuel + 1) (.all p i (s :: ss)) r
  | turn {fuel : Nat} {p : Place} {condition : Expr} {body : Stmt} {r r₁ : Record} {v : Value}
      (hcondition : Traced.evaluate fuel p condition r = .ok v r₁) (htrue : v.isTruthy = true)
      (h : Begins n q t u fuel (.one ((p.afterExpr condition).child 0) body) r₁) :
      Begins n q t u (fuel + 1) (.turns p condition body) r
  | again {fuel : Nat} {p : Place} {condition : Expr} {body : Stmt} {r r₁ r₂ : Record} {v : Value}
      (hcondition : Traced.evaluate fuel p condition r = .ok v r₁) (htrue : v.isTruthy = true)
      (hbody : Traced.execute fuel ((p.afterExpr condition).child 0) body r₁ = .ok .normal r₂)
      (h : Begins n q t u fuel (.turns p condition body) r₂) :
      Begins n q t u (fuel + 1) (.turns p condition body) r

/-! ### Runs and their active frames -/

/-- Two runs that end with a value do so one after the other. -/
theorem exists_of_bind_eq_ok {σ α β : Type} {t : EStateM Halt σ α} {next : α → EStateM Halt σ β}
    {r r' : σ} {b : β} (h : (t >>= next) r = .ok b r') :
    ∃ a r₁, t r = .ok a r₁ ∧ next a r₁ = .ok b r' := by
  simp only [bind, EStateM.bind] at h
  split at h
  · next a r₁ ht => exact ⟨a, r₁, ht, h⟩
  · cases h

theorem Traced.bind_of_ok {α β : Type} {t : Traced α} {r r₁ : Record} {a : α}
    (h : t r = .ok a r₁) (next : α → Traced β) : (t >>= next) r = next a r₁ := by
  rw [Traced.bind_apply, h]

theorem Record.inside_active {r : Record} {f : FrameId} (h : r.machine.active = f) :
    r.inside f = r := by
  cases h
  rfl

/-- A recorded run without its notes comes back to the frame from which it has started. -/
theorem Traced.Erases.active_eq {α : Type} {t : Traced α} {run : Run α} (h : t.Erases run)
    (hg : run.Grows) {r r' : Record} {a : α} (he : t r = .ok a r') :
    r'.machine.active = r.machine.active :=
  (hg.ok (h.run_eq he)).active

/-! ### Statements that run other ones -/

namespace Traced

variable {fuel : Nat} {p : Place} {condition : Expr} {r r₁ r₂ : Record} {v u : Value}

theorem execute_block (body : List Stmt) (r : Record) :
    execute (fuel + 1) p (.block body) r =
      within r.machine.frames.size (executeAll fuel p.block 0 body)
        ((r.meet p (.statement (.block body))).push r.machine.active (p.block.openerAt 0)) := rfl

theorem execute_branch_of_true {thenBranch : Stmt} {elseBranch : Option Stmt}
    (hc : evaluate fuel p condition
      (r.meet p (.statement (.branch condition thenBranch elseBranch))) = .ok v r₁)
    (ht : v.isTruthy = true) :
    execute (fuel + 1) p (.branch condition thenBranch elseBranch) r =
      execute fuel ((p.afterExpr condition).child 0) thenBranch r₁ := by
  refine (bind_of_ok hc _).trans ?_
  simp only [ht, if_true]

theorem execute_branch_of_false {thenBranch : Stmt} {elseBranch : Option Stmt}
    (hc : evaluate fuel p condition
      (r.meet p (.statement (.branch condition thenBranch elseBranch))) = .ok v r₁)
    (hf : v.isTruthy = false) :
    execute (fuel + 1) p (.branch condition thenBranch elseBranch) r =
      (match elseBranch with
        | some s => execute fuel (p.elseBranch condition thenBranch) s
        | none => pure .normal : Traced Signal) r₁ := by
  refine (bind_of_ok hc _).trans ?_
  simp only [hf, Bool.false_eq_true, if_false]
  cases elseBranch <;> rfl

theorem executeAll_of_normal {i : Nat} {s : Stmt}
    (hs : execute fuel (p.child i) s r = .ok .normal r₁) (ss : List Stmt) :
    executeAll (fuel + 1) p i (s :: ss) r = executeAll fuel (p.afterStmt s) (i + 1) ss r₁ :=
  bind_of_ok hs _

theorem executeAll_of_returned {i : Nat} {s : Stmt}
    (hs : execute fuel (p.child i) s r = .ok (.returned u) r₁) (ss : List Stmt) :
    executeAll (fuel + 1) p i (s :: ss) r = .ok (.returned u) r₁ :=
  bind_of_ok hs _

variable {body : Stmt}

theorem repeatWhile_of_false (hc : evaluate fuel p condition r = .ok v r₁)
    (hf : v.isTruthy = false) :
    repeatWhile (fuel + 1) p condition body r = .ok .normal r₁ := by
  refine (bind_of_ok hc _).trans ?_
  simp only [hf, Bool.false_eq_true, if_false]
  rfl

theorem repeatWhile_of_normal (hc : evaluate fuel p condition r = .ok v r₁)
    (ht : v.isTruthy = true)
    (hb : execute fuel ((p.afterExpr condition).child 0) body r₁ = .ok .normal r₂) :
    repeatWhile (fuel + 1) p condition body r = repeatWhile fuel p condition body r₂ := by
  refine (bind_of_ok hc _).trans ?_
  simp only [ht, if_true]
  exact bind_of_ok hb _

theorem repeatWhile_of_returned (hc : evaluate fuel p condition r = .ok v r₁)
    (ht : v.isTruthy = true)
    (hb : execute fuel ((p.afterExpr condition).child 0) body r₁ = .ok (.returned u) r₂) :
    repeatWhile (fuel + 1) p condition body r = .ok (.returned u) r₂ := by
  refine (bind_of_ok hc _).trans ?_
  simp only [ht, if_true]
  exact bind_of_ok hb _

end Traced

namespace Begins

variable {n fuel : Nat} {q : Place} {t : Stmt} {u r : Record} {c : Course}

/-- What is begun in the same activation does not stand in a function. -/
theorem mem_own (h : Begins n q t u fuel c r) : t ∈ c.own := by
  induction h with
  | here => exact t.mem_own_self
  | block _ ih => exact List.mem_cons_of_mem _ ih
  | @thenBranch _ _ _ _ elseBranch _ _ _ _ _ _ ih =>
    cases elseBranch with
    | none => exact List.mem_cons_of_mem _ ih
    | some _ => exact List.mem_cons_of_mem _ (List.mem_append_left _ ih)
  | elseBranch _ _ _ ih => exact List.mem_cons_of_mem _ (List.mem_append_right _ ih)
  | loop _ ih => exact List.mem_cons_of_mem _ ih
  | head _ ih => exact List.mem_append_left _ ih
  | tail _ _ ih => exact List.mem_append_right _ ih
  | turn _ _ _ ih => exact ih
  | again _ _ _ _ ih => exact ih

/-- If a statement that was begun returns, so does all that is around it.  Nothing is run behind the
statement: what it has left is what is left, in the frame in which the run has started. -/
theorem returns (h : Begins n q t u fuel c r) {v : Value} {u' : Record}
    (ht : Traced.execute n q t u = .ok (.returned v) u') :
    c.run fuel r = .ok (.returned v) (u'.inside r.machine.active) := by
  -- what has run in front of a statement has come back to the frame in which it had started
  have hcondition : ∀ {fuel : Nat} {p : Place} {e : Expr} {v : Value} {r r₁ : Record},
      Traced.evaluate fuel p e r = .ok v r₁ → r₁.machine.active = r.machine.active :=
    fun he => ((Traced.allErase _).evaluate _ _).active_eq (Run.evaluate_grows _ _) he
  have hstatement : ∀ {fuel : Nat} {p : Place} {s : Stmt} {signal : Signal} {r r₁ : Record},
      Traced.execute fuel p s r = .ok signal r₁ → r₁.machine.active = r.machine.active :=
    fun he => ((Traced.allErase _).execute _ _).active_eq (Run.execute_grows _ _) he
  induction h with
  | here =>
    rw [Record.inside_active (hstatement ht)]
    exact ht
  | @block fuel p body r _ ih =>
    -- a block has a frame of its own, and leaves it however its statements end
    refine (Traced.execute_block body r).trans ?_
    rw [Traced.within, show Traced.executeAll fuel p.block 0 body _ = _ from ih]
    rfl
  | thenBranch hc htrue _ ih =>
    refine (Traced.execute_branch_of_true hc htrue).trans (Eq.trans ih ?_)
    rw [hcondition hc]
    rfl
  | elseBranch hc hfalse _ ih =>
    refine (Traced.execute_branch_of_false hc hfalse).trans (Eq.trans ih ?_)
    rw [hcondition hc]
    rfl
  | loop _ ih => exact ih
  | head _ ih => exact Traced.executeAll_of_returned ih _
  | tail hfirst _ ih =>
    refine (Traced.executeAll_of_normal hfirst _).trans (Eq.trans ih ?_)
    rw [hstatement hfirst]
  | turn hc htrue _ ih =>
    refine (Traced.repeatWhile_of_returned hc htrue ih).trans ?_
    rw [hcondition hc]
  | again hc htrue hbody _ ih =>
    refine (Traced.repeatWhile_of_normal hc htrue hbody).trans (Eq.trans ih ?_)
    rw [hstatement hbody, hcondition hc]

end Begins

/-! ### Where a return comes from -/

namespace Traced

/-- A run that ends normally if it ends with a signal at all. -/
def Normal (t : Traced Signal) : Prop :=
  ∀ r signal r', t r = .ok signal r' → signal = .normal

theorem Normal.pure : Normal (Pure.pure .normal) := fun _ _ _ h => by
  cases h
  rfl

theorem Normal.bind {α : Type} {t : Traced α} {next : α → Traced Signal}
    (h : ∀ a, (next a).Normal) : Normal (t >>= next) := fun _ _ _ he => by
  obtain ⟨a, r₁, -, hn⟩ := exists_of_bind_eq_ok he
  exact h a r₁ _ _ hn

theorem eq_ok_of_within {α : Type} {f : FrameId} {t : Traced α} {r r' : Record} {a : α}
    (h : within f t r = .ok a r') : ∃ r₁, t (r.inside f) = .ok a r₁ := by
  unfold within at h
  split at h
  · next a' r₁ ht =>
    cases h
    exact ⟨r₁, ht⟩
  · cases h

theorem Normal.ne {t : Traced Signal} (h : t.Normal) {r r' : Record} {v : Value} :
    t r ≠ .ok (.returned v) r' := fun he => by cases h _ _ _ he

end Traced

theorem Course.run_zero (c : Course) (r : Record) : c.run 0 r = .error .outOfFuel r := by
  cases c with
  | one p s => exact congrFun (Traced.execute.eq_1 p s) r
  | all p i ss => exact congrFun (Traced.executeAll.eq_1 p i ss) r
  | turns p condition body => exact congrFun (Traced.repeatWhile.eq_1 p condition body) r

/-- In the course of a run a `return` statement is begun in the same activation and returns. -/
def Returns (v : Value) (fuel : Nat) (c : Course) (r : Record) : Prop :=
  ∃ n q keyword value u u', Begins n q (.ret keyword value) u fuel c r ∧
    Traced.execute n q (.ret keyword value) u = .ok (.returned v) u'

theorem Returns.imp {v : Value} {fuel fuel' : Nat} {c c' : Course} {r r' : Record}
    (h : Returns v fuel c r)
    (hb : ∀ {n q t u}, Begins n q t u fuel c r → Begins n q t u fuel' c' r') :
    Returns v fuel' c' r' := by
  obtain ⟨n, q, keyword, value, u, u', hbegins, ht⟩ := h
  exact ⟨n, q, keyword, value, u, u', hb hbegins, ht⟩

/-- Whatever returns does so by a `return` statement that was begun in the same activation. -/
theorem exists_begins_ret {fuel : Nat} {c : Course} {r r' : Record} {v : Value}
    (h : c.run fuel r = .ok (.returned v) r') : Returns v fuel c r := by
  -- one step of whatever may run leads to a statement of the same activation that has returned
  induction fuel generalizing c r r' with
  | zero =>
    rw [c.run_zero] at h
    cases h
  | succ fuel ih =>
    cases c with
    | one p s =>
      cases s with
      | expression e => exact absurd h (Traced.Normal.bind fun _ => .pure).ne
      | print e =>
        exact absurd h (Traced.Normal.bind fun _ => .bind fun _ => .bind fun _ => .pure).ne
      | varDecl name initializer =>
        cases initializer with
        | none => exact absurd h (Traced.Normal.bind fun _ => .pure).ne
        | some e => exact absurd h (Traced.Normal.bind fun _ => .bind fun _ => .pure).ne
      | block body =>
        obtain ⟨r₁, hbody⟩ := Traced.eq_ok_of_within ((Traced.execute_block body r).symm.trans h)
        have hreturns : Returns v fuel (.all p.block 0 body) _ := ih hbody
        exact hreturns.imp .block
      | branch condition thenBranch elseBranch =>
        obtain ⟨b, r₁, hc, -⟩ := exists_of_bind_eq_ok h
        cases hb : b.isTruthy with
        | true =>
          have hthen := (Traced.execute_branch_of_true hc hb).symm.trans h
          have hreturns : Returns v fuel (.one _ thenBranch) r₁ := ih hthen
          exact hreturns.imp (.thenBranch hc hb)
        | false =>
          have helse := (Traced.execute_branch_of_false hc hb).symm.trans h
          cases elseBranch with
          | none => cases helse
          | some s =>
            have hreturns : Returns v fuel (.one _ s) r₁ := ih helse
            exact hreturns.imp (.elseBranch hc hb)
      | loop condition body =>
        have hreturns : Returns v fuel (.turns p condition body) _ := ih h
        exact hreturns.imp .loop
      | function f => exact absurd h (Traced.Normal.bind fun _ => .bind fun _ => .pure).ne
      | ret keyword value => exact ⟨_, _, _, _, _, _, .here, h⟩
      | classDecl name superclass methods =>
        cases superclass with
        | none => exact absurd h (Traced.Normal.bind fun _ => .pure).ne
        | some e =>
          exact absurd h (Traced.Normal.bind fun _ => .bind fun _ => .bind fun _ => .pure).ne
    | all p i ss =>
      cases ss with
      | nil => cases h
      | cons s ss =>
        obtain ⟨signal, r₁, hs, -⟩ := exists_of_bind_eq_ok h
        cases signal with
        | normal =>
          have hrest := (Traced.executeAll_of_normal hs ss).symm.trans h
          have hreturns : Returns v fuel (.all _ _ ss) r₁ := ih hrest
          exact hreturns.imp (.tail hs)
        | returned u =>
          -- the rest is not run
          cases (Traced.executeAll_of_returned hs ss).symm.trans h
          have hreturns : Returns v fuel (.one _ s) r := ih hs
          exact hreturns.imp .head
    | turns p condition body =>
      obtain ⟨b, r₁, hc, hrest⟩ := exists_of_bind_eq_ok h
      cases hb : b.isTruthy with
      | false => cases (Traced.repeatWhile_of_false hc hb).symm.trans h
      | true =>
        rw [if_pos hb] at hrest
        obtain ⟨signal, r₂, hs, -⟩ := exists_of_bind_eq_ok hrest
        cases signal with
        | normal =>
          have hagain := (Traced.repeatWhile_of_normal hc hb hs).symm.trans h
          have hreturns : Returns v fuel (.turns p condition body) r₂ := ih hagain
          exact hreturns.imp (.again hc hb hs)
        | returned u =>
          cases (Traced.repeatWhile_of_returned hc hb hs).symm.trans h
          have hreturns : Returns v fuel (.one _ body) r₁ := ih hs
          exact hreturns.imp (.turn hc hb)

/-! ### Programs that have been checked -/

/-- The function of which a region is the body. -/
def RegionKind.routine? : RegionKind → Option Surrounding
  | .routine s => some s
  | _ => none

namespace Surroundings

theorem routine_eq (a : Surroundings) :
    a.routine = (a.kinds.findSome? RegionKind.routine?).getD .noFunction := by
  unfold routine kinds
  rw [List.findSome?_map]
  rfl

/-- Regions other than the bodies of functions do not change the function around a place. -/
theorem routine_of_kinds {a b : Surroundings}
    (h : b.kinds.findSome? RegionKind.routine? = a.kinds.findSome? RegionKind.routine?) :
    b.routine = a.routine := by
  rw [a.routine_eq, b.routine_eq, h]

end Surroundings

mutual

/-- A `return` of the activation of a statement is a site of the statement, and the function around
it is the one around the statement. -/
theorem Stmt.site_of_ret {keyword : Token} {value : Option Expr} (a : Surroundings) (s : Stmt)
    (h : .ret keyword value ∈ s.own) :
    ∃ b, b.routine = a.routine ∧ ⟨b, .ret keyword value.isSome⟩ ∈ s.sites a := by
  cases s with
  | block body =>
    obtain ⟨b, hb, hx⟩ := Stmt.site_of_ret_in (a.enter .block []) 0 body
      ((List.mem_cons.mp h).resolve_left (by simp))
    exact ⟨b, hb.trans (Surroundings.routine_of_kinds rfl), hx⟩
  | branch condition thenBranch elseBranch =>
    cases elseBranch with
    | none =>
      obtain ⟨b, hb, hx⟩ := Stmt.site_of_ret (a.child 0) thenBranch
        ((List.mem_cons.mp h).resolve_left (by simp))
      exact ⟨b, hb, List.mem_append_right _ hx⟩
    | some elseBranch =>
      rcases List.mem_append.mp ((List.mem_cons.mp h).resolve_left (by simp)) with h | h
      · obtain ⟨b, hb, hx⟩ := Stmt.site_of_ret (a.child 0) thenBranch h
        exact ⟨b, hb, List.mem_append_left _ (List.mem_append_right _ hx)⟩
      · obtain ⟨b, hb, hx⟩ := Stmt.site_of_ret (a.child 1) elseBranch h
        exact ⟨b, hb, List.mem_append_right _ hx⟩
  | loop condition body =>
    obtain ⟨b, hb, hx⟩ := Stmt.site_of_ret (a.child 0) body
      ((List.mem_cons.mp h).resolve_left (by simp))
    exact ⟨b, hb, List.mem_append_right _ hx⟩
  | ret keyword' value' =>
    cases List.mem_singleton.mp h
    exact ⟨a, rfl, List.mem_cons_self ..⟩
  | classDecl name superclass methods => cases List.mem_singleton.mp h
  | expression e => cases List.mem_singleton.mp h
  | function f => cases List.mem_singleton.mp h
  | print e => cases List.mem_singleton.mp h
  | varDecl name initializer => cases List.mem_singleton.mp h

theorem Stmt.site_of_ret_in {keyword : Token} {value : Option Expr} (a : Surroundings) (i : Nat)
    (ss : List Stmt) (h : .ret keyword value ∈ Stmt.ownIn ss) :
    ∃ b, b.routine = a.routine ∧ ⟨b, .ret keyword value.isSome⟩ ∈ Stmt.sitesIn a i ss := by
  cases ss with
  | nil => cases h
  | cons s ss =>
    rcases List.mem_append.mp h with h | h
    · obtain ⟨b, hb, hx⟩ := Stmt.site_of_ret (a.child i) s h
      exact ⟨b, hb, List.mem_append_left _ hx⟩
    · obtain ⟨b, hb, hx⟩ := Stmt.site_of_ret_in (a.after s) (i + 1) ss h
      refine ⟨b, hb.trans (Surroundings.routine_of_kinds ?_), List.mem_append_right _ hx⟩
      rw [Surroundings.kinds_after]

end

/-- There is no `return` in the activation of the statements of a program that has been checked. -/
theorem ret_not_mem_own {text : String} {firstId : NodeId} {program : Program}
    (h : (check text firstId).result = .ok program) (keyword : Token) (value : Option Expr) :
    .ret keyword value ∉ Stmt.ownIn program.statements := by
  intro hown
  obtain ⟨hread, -, hfaults⟩ := check_eq_ok h
  -- the resolver reports every site of the program, so the one of the `return` has no fault
  obtain ⟨b, hb, hx⟩ := Stmt.site_of_ret_in (.top 0) 0 program.statements hown
  have hnone := (resolve_isExact hread 0).faults_eq_nil_iff.mp hfaults _ hx
  have houtside : b.routine = .noFunction := hb
  -- outside of all functions a `return` is a fault
  simp [Site.faults, houtside, Site.faultIf] at hnone

/-- No statement of a program that has been checked returns, whatever the machine is. -/
theorem execute_ne_returned {text : String} {firstId : NodeId} {program : Program}
    (h : (check text firstId).result = .ok program) {s : Stmt} (hs : s ∈ program.statements)
    (fuel : Nat) (m : Machine) (v : Value) (m' : Machine) :
    Run.execute fuel s m ≠ .ok (.returned v) m' := by
  intro he
  -- any record will do, since notes do not matter
  obtain ⟨r', ht, -⟩ := (Traced.execute_erases fuel (.top 0) s).exists_ok (r := .start m) he
  have hreturns : Returns v fuel (.one (.top 0) s) (.start m) := exists_begins_ret ht
  obtain ⟨n, q, keyword, value, u, u', hbegins, -⟩ := hreturns
  exact ret_not_mem_own h keyword value (Stmt.mem_ownIn hs hbegins.mem_own)

end Lox
