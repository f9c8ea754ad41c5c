/-
Bindings of copies.

The walk over a copy of a program meets the same scopes, records the same distances for the numbers
that belong together, and reports as many faults.  At the top level, it leaves no scope behind, so
that a program and what follows it are walked over as if each were alone.

* `Distances.Copy` — the same distances, for numbers that belong together;
* `Walk.Copy` — a walk that has found what another one has found, and something before it;
* `resolve_copy` — copies have the same bindings;
* `resolve_append` — the bindings of two programs, one after the other.

Design notes: a walk looks at its scopes alone and never at what it has found, so the same lemma
compares a program with its copy and a program with itself behind another one.
-/
import Lox.Proofs.Binding.Resolution
import Lox.Proofs.Syntax.Copies

namespace Lox

/-- The same distances, for numbers that belong together. -/
def Distances.Copy (π : Pairing) (ds ds' : Distances) : Prop :=
  List.Forall₂ (fun e e' => π.ids e.1 e'.1 ∧ e'.2 = e.2) ds ds'

/-- A walk that is at the same place as another one and has found the same since `before`. -/
structure Walk.Copy (π : Pairing) (before w w' : Walk) : Prop where
  scopes : w'.scopes = w.scopes
  distances : ∃ ds, Distances.Copy π w.distances ds ∧ w'.distances = ds ++ before.distances
  faults : w'.faults.length = w.faults.length + before.faults.length

namespace Walk.Copy

variable {π : Pairing} {before w w' : Walk}

theorem of_scopes (h : Walk.Copy π before w w') {v v' : Walk} (hs : v'.scopes = v.scopes)
    (hd : v.distances = w.distances) (hf : v.faults = w.faults) (hd' : v'.distances = w'.distances)
    (hf' : v'.faults = w'.faults) : Walk.Copy π before v v' :=
  ⟨hs, by rw [hd, hd']; exact h.distances, by rw [hf, hf']; exact h.faults⟩

theorem report (h : Walk.Copy π before w w') (t t' : Token) (fault : BindingFault) :
    Walk.Copy π before (w.report t fault) (w'.report t' fault) :=
  ⟨h.scopes, h.distances, by
    have hf := h.faults
    simp only [Walk.report, List.length_cons]
    omega⟩

theorem enter (h : Walk.Copy π before w w') (scope : Scope) :
    Walk.Copy π before (w.enter scope) (w'.enter scope) :=
  h.of_scopes (congrArg (scope :: ·) h.scopes) rfl rfl rfl rfl

theorem leave (h : Walk.Copy π before w w') : Walk.Copy π before w.leave w'.leave :=
  h.of_scopes (congrArg List.tail h.scopes) rfl rfl rfl rfl

theorem declare (h : Walk.Copy π before w w') {name name' : Token} (hname : name.Copy π name') :
    Walk.Copy π before (w.declare name) (w'.declare name') := by
  unfold Walk.declare
  rw [h.scopes, hname.lexeme]
  cases w.scopes with
  | nil => exact h
  | cons scope outer =>
    simp only
    split
    · exact h.report name name' _
    · exact h.of_scopes rfl rfl rfl rfl rfl

theorem define (h : Walk.Copy π before w w') {name name' : Token} (hname : name.Copy π name') :
    Walk.Copy π before (w.define name) (w'.define name') := by
  unfold Walk.define
  rw [h.scopes, hname.lexeme]
  cases w.scopes with
  | nil => exact h
  | cons scope outer => exact h.of_scopes rfl rfl rfl rfl rfl

theorem declareDefined (h : Walk.Copy π before w w') {name name' : Token}
    (hname : name.Copy π name') :
    Walk.Copy π before (w.declareDefined name) (w'.declareDefined name') :=
  (h.declare hname).define hname

theorem declareAll (h : Walk.Copy π before w w') {names names' : List Token}
    (hnames : List.Forall₂ (Token.Copy π) names names') :
    Walk.Copy π before (w.declareAll names) (w'.declareAll names') := by
  induction hnames generalizing w w' with
  | nil => exact h
  | cons hname _ ih => exact ih (h.declareDefined hname)

theorem record (h : Walk.Copy π before w w') {id id' : NodeId} (hid : π.ids id id')
    {name name' : Token} (hname : name.Copy π name') :
    Walk.Copy π before (w.record id name) (w'.record id' name') := by
  unfold Walk.record
  rw [h.scopes, hname.lexeme]
  cases distance? w.scopes name.lexeme with
  | none => exact h
  | some d =>
    obtain ⟨ds, hds, hd⟩ := h.distances
    exact ⟨rfl, ⟨(id', d) :: ds, .cons ⟨hid, rfl⟩ hds, congrArg ((id', d) :: ·) hd⟩, h.faults⟩

theorem isPending (h : Walk.Copy π before w w') {name name' : Token} (hname : name.Copy π name') :
    w'.isPending name' = w.isPending name := by
  unfold Walk.isPending
  rw [h.scopes, hname.lexeme]

theorem checkSuper (h : Walk.Copy π before w w') (context : Context) (t t' : Token) :
    Walk.Copy π before (w.checkSuper context t) (w'.checkSuper context t') := by
  unfold Walk.checkSuper
  cases context.klass with
  | noClass => exact h.report t t' _
  | rootClass => exact h.report t t' _
  | subclass => exact h

theorem checkReturn (h : Walk.Copy π before w w') (context : Context) (t t' : Token)
    (hasValue : Bool) :
    Walk.Copy π before (w.checkReturn context t hasValue) (w'.checkReturn context t' hasValue) := by
  unfold Walk.checkReturn
  cases context.routine with
  | noFunction => exact h.report t t' _
  | initializer =>
    cases hasValue with
    | true => exact h.report t t' _
    | false => exact h
  | function => exact h
  | method => exact h

theorem checkSuperclass (h : Walk.Copy π before w w') {name name' : Token}
    (hname : name.Copy π name') {e e' : Expr} (he : e.Copy π e') :
    Walk.Copy π before (w.checkSuperclass name e) (w'.checkSuperclass name' e') := by
  cases he with
  | var hid hsuper =>
    unfold Walk.checkSuperclass
    simp only [hname.lexeme, hsuper.lexeme]
    split
    · exact h.report _ _ _
    · exact h
  | _ => exact h

end Walk.Copy

/-! ### Walks over copies -/

variable {π : Pairing} {before : Walk}

mutual

theorem Expr.Copy.resolve (context : Context) {w w' : Walk} (hw : Walk.Copy π before w w')
    {e e' : Expr} (h : e.Copy π e') :
    Walk.Copy π before (e.resolve context w) (e'.resolve context w') := by
  cases h with
  | assign hid hname hvalue => exact (hvalue.resolve context hw).record hid hname
  | binary hleft _ hright => exact hright.resolve context (hleft.resolve context hw)
  | call hcallee _ harguments => exact harguments.resolve context (hcallee.resolve context hw)
  | get hobject _ => exact hobject.resolve context hw
  | grouping hinner => exact hinner.resolve context hw
  | literal _ => exact hw
  | logical hleft _ hright => exact hright.resolve context (hleft.resolve context hw)
  | set hobject _ hvalue => exact hobject.resolve context (hvalue.resolve context hw)
  | superRef hid hkeyword _ => exact (hw.checkSuper context _ _).record hid hkeyword
  | thisRef hid hkeyword =>
    unfold Expr.resolve
    split
    · exact hw.report _ _ _
    · exact hw.record hid hkeyword
  | unary _ hright => exact hright.resolve context hw
  | var hid hname =>
    unfold Expr.resolve
    rw [hw.isPending hname]
    split
    · exact (hw.report _ _ _).record hid hname
    · exact hw.record hid hname

theorem Expr.CopyAll.resolve (context : Context) {w w' : Walk} (hw : Walk.Copy π before w w')
    {es es' : List Expr} (h : Expr.CopyAll π es es') :
    Walk.Copy π before (Expr.resolveList context w es) (Expr.resolveList context w' es') := by
  cases h with
  | nil => exact hw
  | cons he hes => exact hes.resolve context (he.resolve context hw)

end

theorem Expr.Copy.resolve? (context : Context) {w w' : Walk} (hw : Walk.Copy π before w w')
    {e e' : Option Expr} (h : Option.Rel (Expr.Copy π) e e') :
    Walk.Copy π before (Expr.resolve? context w e) (Expr.resolve? context w' e') := by
  cases h with
  | none => exact hw
  | some he => exact he.resolve context hw

theorem FunDecl.Copy.methodContext {f f' : FunDecl} (h : f.Copy π f') :
    f'.methodContext = f.methodContext := by
  unfold FunDecl.methodContext
  rw [h.isInitializer]

mutual

theorem Stmt.Copy.resolve (context : Context) {w w' : Walk} (hw : Walk.Copy π before w w')
    {s s' : Stmt} (h : s.Copy π s') :
    Walk.Copy π before (s.resolve context w) (s'.resolve context w') := by
  cases h with
  | block hbody => exact (hbody.resolve context (hw.enter [])).leave
  | classDecl hname hsuperclass hmethods =>
    cases hsuperclass with
    | none => exact (hmethods.resolve _ ((hw.declareDefined hname).enter _)).leave
    | some he =>
      have hchecked := (hw.declareDefined hname).checkSuperclass hname he
      exact (hmethods.resolve _ (((he.resolve _ hchecked).enter _).enter _)).leave.leave
  | expression he => exact he.resolve context hw
  | function hf => exact hf.resolve _ (hw.declareDefined hf.name)
  | branch hcondition hthen => exact hthen.resolve context (hcondition.resolve context hw)
  | branchElse hcondition hthen helse =>
    exact helse.resolve context (hthen.resolve context (hcondition.resolve context hw))
  | print he => exact he.resolve context hw
  | ret hkeyword hvalue =>
    cases hvalue with
    | none => exact hw.checkReturn context _ _ false
    | some he => exact he.resolve context (hw.checkReturn context _ _ true)
  | varDecl hname hinitializer =>
    exact (Expr.Copy.resolve? context (hw.declare hname) hinitializer).define hname
  | loop hcondition hbody => exact hbody.resolve context (hcondition.resolve context hw)

theorem Stmt.CopyAll.resolve (context : Context) {w w' : Walk} (hw : Walk.Copy π before w w')
    {ss ss' : List Stmt} (h : Stmt.CopyAll π ss ss') :
    Walk.Copy π before (Stmt.resolveList context w ss) (Stmt.resolveList context w' ss') := by
  cases h with
  | nil => exact hw
  | cons hs hss => exact hss.resolve context (hs.resolve context hw)

theorem FunDecl.Copy.resolve (context : Context) {w w' : Walk} (hw : Walk.Copy π before w w')
    {f f' : FunDecl} (h : f.Copy π f') :
    Walk.Copy π before (f.resolve context w) (f'.resolve context w') := by
  cases h with
  | mk _ hparams hbody =>
    exact (hbody.resolve context ((hw.enter []).declareAll hparams)).leave

theorem FunDecl.CopyAll.resolve (context : Context) {w w' : Walk} (hw : Walk.Copy π before w w')
    {fs fs' : List FunDecl} (h : FunDecl.CopyAll π fs fs') :
    Walk.Copy π before (FunDecl.resolveMethods context w fs)
      (FunDecl.resolveMethods context w' fs') := by
  cases h with
  | nil => exact hw
  | cons hf hfs =>
    rw [FunDecl.resolveMethods, FunDecl.resolveMethods, hf.methodContext]
    exact hfs.resolve context (hf.resolve _ hw)

end

/-! ### Programs -/

/-- Copies have the same bindings. -/
theorem resolve_copy {ss ss' : List Stmt} (h : Stmt.CopyAll π ss ss') :
    Distances.Copy π (resolve ss).distances (resolve ss').distances ∧
      (resolve ss').faults.length = (resolve ss).faults.length := by
  have hw : Walk.Copy π .start .start .start := ⟨rfl, ⟨[], .nil, rfl⟩, rfl⟩
  obtain ⟨-, ⟨ds, hds, hd⟩, hf⟩ := h.resolve .top hw
  refine ⟨?_, ?_⟩
  · rw [show Walk.start.distances = [] from rfl, List.append_nil] at hd
    unfold resolve
    simp only [hd]
    exact hds
  · unfold resolve
    simp only [List.length_reverse]
    exact hf

/-- Behind statements at the top level no scope is left. -/
theorem scopes_resolveList_top {first next : Nat} {ss : List Stmt}
    (h : Parse.StmtsRead first ss next) {w : Walk} (hw : w.scopes = []) :
    (Stmt.resolveList .top w ss).scopes = [] := by
  have htop : ∀ us : List Stmt, us.foldl Surroundings.after (.top 0) = .top 0 := by
    intro us
    induction us with
    | nil => rfl
    | cons s us ih =>
      have hs : (Surroundings.top 0).after s = .top 0 := by
        unfold Surroundings.after
        split <;> rfl
      rw [List.foldl_cons, hs, ih]
  have hm : w.Matches (.top 0) := by
    unfold Walk.Matches
    rw [hw]
    exact .nil
  obtain ⟨-, hm'⟩ := Stmt.resolveList_adds hm (Surroundings.Regular.top 0) 0 ss h.2
    fun o ho => (h.1.2 o ho).2.2
  rw [htop] at hm'
  exact List.forall₂_nil_right_iff.mp hm'

theorem Stmt.resolveList_append (context : Context) (w : Walk) (ss us : List Stmt) :
    Stmt.resolveList context w (ss ++ us) =
      Stmt.resolveList context (Stmt.resolveList context w ss) us := by
  induction ss generalizing w with
  | nil => rfl
  | cons s ss ih => exact ih (s.resolve context w)

theorem Distances.Copy.eq {ds ds' : Distances} (h : Distances.Copy π ds ds')
    (hπ : ∀ id id', π.ids id id' → id' = id) : ds' = ds := by
  induction h with
  | nil => rfl
  | cons he _ ih =>
    obtain ⟨hid, hd⟩ := he
    rw [ih]
    exact congrArg (· :: _) (Prod.ext (hπ _ _ hid) hd)

/-- Lines and numbers that belong to themselves alone. -/
def Pairing.same : Pairing := ⟨Eq, Eq⟩

/-- The bindings of two programs, one after the other. -/
theorem resolve_append {first next : Nat} {ss us : List Stmt} (h : Parse.StmtsRead first ss next)
    (hus : Stmt.CopyAll .same us us) :
    (resolve (ss ++ us)).distances = (resolve ss).distances.merge (resolve us).distances ∧
      (resolve (ss ++ us)).faults.length =
        (resolve ss).faults.length + (resolve us).faults.length := by
  have hscopes := scopes_resolveList_top h (w := .start) rfl
  have hw : Walk.Copy .same (Stmt.resolveList .top .start ss) .start
      (Stmt.resolveList .top .start ss) :=
    ⟨hscopes, ⟨[], .nil, rfl⟩, (Nat.zero_add _).symm⟩
  obtain ⟨-, ⟨ds, hds, hd⟩, hf⟩ := hus.resolve .top hw
  unfold resolve
  simp only [Stmt.resolveList_append, List.length_reverse]
  refine ⟨?_, ?_⟩
  · rw [hd, hds.eq fun _ _ hid => Eq.symm hid]
    rfl
  · rw [hf, Nat.add_comm]

end Lox
