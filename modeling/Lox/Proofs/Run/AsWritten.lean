/-
Programs mean what is written.

A session that runs the trees of its sources shows what it shows when they are run as they are
written, and leaves the same variables and objects behind.  So does each statement of a source,
wherever it is executed: a `for` loop in particular does what its direct meaning says, although the
tree that runs has a frame more around each of its turns.

* `Charts.learn`, `Pair.learn` — the distances of another program are added;
* `Pair.Rests` — the pair in front of a program;
* `Written.Part` — the statements in a program, with the layers around them;
* `Charts.Preserves` — the tree of a statement does what the statement does as it is written;
* `run_agrees`, `converse_agrees` — a source, and sources one after another;
* `loops_mean_what_is_written` — a session, and any loop in a further source.
-/
import Lox.Proofs.Run.Agreement
import Lox.Proofs.Run.Loops
import Lox.Proofs.Run.Sources
import Lox.Proofs.Syntax.Completeness

namespace Lox

/-! ### Distances of another program -/

/-- The distances of another program are added. -/
def Charts.learn (c : Charts) (program : List Written) (next : NodeId) : Charts where
  tree := c.tree.merge (resolve (Written.trees program)).distances
  written := c.written.merge (Written.distances program)
  next := next

/-- Both machines learn the distances of another program. -/
def Pair.learn (p : Pair) (program : List Written) : Pair :=
  p.withMachines
    { p.tree with
      distances := p.tree.distances.merge (resolve (Written.trees program)).distances }
    { p.written.machine with
      distances := p.written.machine.distances.merge (Written.distances program) }

/-- Occurrences keep their bindings, and those of the program have theirs. -/
theorem Charts.places_learn {c : Charts} {program : List Written} {next : NodeId}
    (hc : ∀ id, c.next ≤ id → c.tree.find? id = none ∧ c.written.find? id = none)
    (hread : Parse.StmtsRead c.next (Written.trees program) next) (hnext : c.next ≤ next)
    (hf : Written.AllFormed program) :
    (∀ m, c.Places m → (c.learn program next).Places m) ∧
    (∀ m ∈ Written.lociIn [] program, (c.learn program next).Places m) ∧
    ∀ id, next ≤ id → (c.learn program next).tree.find? id = none ∧
      (c.learn program next).written.find? id = none := by
  obtain ⟨hplaced, hfresh⟩ := hread.placed hf
  have hocc := Written.occurrence_lociIn [] program
  have hbounds : ∀ m ∈ Written.lociIn [] program, c.next ≤ m.id ∧ m.id < next := by
    intro m hm
    obtain ⟨hle, hlt, -⟩ := hread.1.2 m.occurrence (hocc ▸ List.mem_map_of_mem hm)
    exact ⟨hle, hlt⟩
  -- a number that is not in the program has no distance in it
  have hnone : ∀ id, id < c.next ∨ next ≤ id →
      (resolve (Written.trees program)).distances.find? id = none ∧
        (Written.distances program).find? id = none := by
    intro id hid
    refine hfresh id fun hmem => ?_
    obtain ⟨m, hm, rfl⟩ := List.mem_map.mp hmem
    obtain ⟨hle, hlt⟩ := hbounds m hm
    exact hid.elim (Nat.not_lt.mpr hle) (Nat.not_le.mpr hlt)
  refine ⟨fun m hm => ⟨⟨hm.placed.seated, ?_⟩, Nat.lt_of_lt_of_le hm.lt_next hnext⟩,
    fun m hm => ⟨⟨(hplaced m hm).seated, ?_⟩, (hbounds m hm).2⟩, fun id hid => ?_⟩
  · obtain ⟨h, h'⟩ := hnone m.id (Or.inl hm.lt_next)
    unfold learn
    rw [Distances.find?_merge, Distances.find?_merge, h, h', Option.none_or, Option.none_or]
    exact hm.placed.shifts
  · obtain ⟨h, h'⟩ := hc m.id (hbounds m hm).1
    unfold learn
    rw [Distances.find?_merge, Distances.find?_merge, h, h', Option.or_none, Option.or_none]
    exact (hplaced m hm).shifts
  · obtain ⟨h, h'⟩ := hnone id (Or.inr hid)
    obtain ⟨hk, hk'⟩ := hc id (Nat.le_trans hnext hid)
    unfold learn
    rw [Distances.find?_merge, Distances.find?_merge, h, h', hk, hk']
    exact ⟨rfl, rfl⟩

namespace Pair

theorem Keeps.learn (p : Pair) (program : List Written) : p.Keeps (p.learn program) :=
  ⟨id, id, id, id, id, fun h => ⟨h, rfl⟩⟩

theorem Good.learn {p : Pair} {c : Charts} (hp : p.Good c) {program : List Written}
    {next : NodeId} (hread : Parse.StmtsRead c.next (Written.trees program) next)
    (hnext : c.next ≤ next) (hf : Written.AllFormed program) :
    (p.learn program).Good (c.learn program next) := by
  obtain ⟨hold, -, hahead⟩ := Charts.places_learn hp.charted.ahead hread hnext hf
  have hkeeps := Keeps.learn p program
  exact
    { frames := hp.frames
      machines := { hp.machines with }
      charted :=
        { tree := congrArg (Distances.merge · _) hp.charted.tree
          written := congrArg (Distances.merge · _) hp.charted.written
          ahead := hahead }
      values := fun f x v hv id he => hkeeps.holds_imp hold (hp.values f x v hv id he)
      fields := fun i x v hv id he => hkeeps.holds_imp hold (hp.fields i x v hv id he)
      methods := fun k x id hid => hkeeps.holds_imp hold (hp.methods k x id hid)
      natives := hp.natives }

/-- The pair in front of a program: nothing runs, and nodes are numbered from `next` on. -/
structure Rests (p : Pair) (c : Charts) (next : NodeId) : Prop where
  good : p.Good c
  top : p.At []
  next : c.next = next

end Pair

/-! ### Statements of a program -/

/-- A statement stands in a program, in the given layers. -/
inductive Written.Part (program : List Written) : List Layer → Written → Prop where
  | top {s : Written} (h : s ∈ program) : Part program [] s
  | block {σ : List Layer} {body : List Written} {s : Written} (h : Part program σ (.block body))
    (hs : s ∈ body) : Part program (.shared :: σ) s
  | function {σ : List Layer} {f : WrittenFunction} {s : Written}
    (h : Part program σ (.function f)) (hs : s ∈ f.body) : Part program (.shared :: σ) s
  | method {σ : List Layer} {name : Token} {superclass : Option Expr}
    {methods : List WrittenFunction} {f : WrittenFunction} {s : Written}
    (h : Part program σ (.classDecl name superclass methods)) (hf : f ∈ methods)
    (hs : s ∈ f.body) : Part program (.shared :: methodLayers σ superclass) s
  | thenBranch {σ : List Layer} {condition : Expr} {s : Written} {elseBranch : Option Written}
    (h : Part program σ (.branch condition s elseBranch)) : Part program σ s
  | elseBranch {σ : List Layer} {condition : Expr} {thenBranch s : Written}
    (h : Part program σ (.branch condition thenBranch (some s))) : Part program σ s
  | whileBody {σ : List Layer} {condition : Expr} {s : Written}
    (h : Part program σ (.loop condition s)) : Part program σ s
  | initializer {σ : List Layer} {condition increment : Option Expr} {s body : Written}
    (h : Part program σ (.forLoop (some s) condition increment body)) :
    Part program (.shared :: σ) s
  | forBody {σ : List Layer} {initializer : Option Written} {condition increment : Option Expr}
    {s : Written} (h : Part program σ (.forLoop initializer condition increment s)) :
    Part program (turnLayers (loopLayers σ initializer) increment) s

/-- A statement of a formed program is formed, stands where it may, and has
its loci in the program. -/
theorem Written.Part.sound {program : List Written} (hf : Written.AllFormed program)
    {σ : List Layer} {s : Written} (h : Part program σ s) :
    s.Formed ∧ Admits σ s.declared? ∧ ∀ m ∈ s.loci σ, m ∈ Written.lociIn [] program := by
  -- the induction is on the way from the program to the part, one step inwards at a time
  induction h with
  | top hs => exact ⟨hf.mem hs, Or.inr nofun, fun m hm => Written.mem_lociIn hs hm⟩
  | @block σ body s _ hs ih =>
    obtain ⟨hformed, -, hm⟩ := ih
    unfold Written.Formed at hformed
    exact ⟨hformed.mem hs, .shared σ _, fun m h => hm m (Written.mem_lociIn hs h)⟩
  | @function σ f s _ hs ih =>
    obtain ⟨hformed, -, hm⟩ := ih
    unfold Written.Formed at hformed
    refine ⟨hformed.body.mem hs, .shared σ _, fun m h => hm m ?_⟩
    show m ∈ f.loci σ
    rw [f.loci_eq]
    exact Written.mem_lociIn hs h
  | @method σ name superclass methods f s _ hg hs ih =>
    obtain ⟨hformed, -, hm⟩ := ih
    unfold Written.Formed at hformed
    refine ⟨(hformed.2.mem hg).body.mem hs, .shared _ _, fun m h => hm m ?_⟩
    refine List.mem_append_right _ (WrittenFunction.mem_lociIn hg ?_)
    rw [f.loci_eq]
    exact Written.mem_lociIn hs h
  | @thenBranch σ condition s elseBranch _ ih =>
    obtain ⟨hformed, -, hm⟩ := ih
    cases elseBranch with
    | none =>
      unfold Written.Formed at hformed
      exact ⟨hformed.1, Or.inl hformed.2, fun m h => hm m (List.mem_append_right _ h)⟩
    | some elseBranch =>
      unfold Written.Formed at hformed
      exact ⟨hformed.1.1, Or.inl hformed.1.2, fun m h =>
        hm m (List.mem_append_left _ (List.mem_append_right _ h))⟩
  | elseBranch _ ih =>
    obtain ⟨hformed, -, hm⟩ := ih
    unfold Written.Formed at hformed
    exact ⟨hformed.2.1, Or.inl hformed.2.2, fun m h => hm m (List.mem_append_right _ h)⟩
  | whileBody _ ih =>
    obtain ⟨hformed, -, hm⟩ := ih
    unfold Written.Formed at hformed
    exact ⟨hformed.1, Or.inl hformed.2, fun m h => hm m (List.mem_append_right _ h)⟩
  | @initializer σ condition increment s body _ ih =>
    obtain ⟨hformed, -, hm⟩ := ih
    unfold Written.Formed at hformed
    exact ⟨hformed.1, .shared σ _, fun m h => hm m (List.mem_append_left _ h)⟩
  | @forBody σ initializer condition increment s _ ih =>
    obtain ⟨hformed, -, hm⟩ := ih
    cases initializer with
    | none =>
      unfold Written.Formed at hformed
      exact ⟨hformed.1, Or.inl hformed.2, fun m h =>
        hm m (List.mem_append_right _ (List.mem_append_left _ h))⟩
    | some t =>
      unfold Written.Formed at hformed
      exact ⟨hformed.2.1, Or.inl hformed.2.2, fun m h =>
        hm m (List.mem_append_right _ (List.mem_append_right _ (List.mem_append_left _ h)))⟩

/-! ### Sessions -/

open Concrete

/-- What is read off a source is formed, and the nodes of its tree have numbers of their own. -/
theorem Reads.formed {source : String} {ts : List Declaration} (h : Reads source ts)
    (first : NodeId) :
    Parse.StmtsRead first (Written.trees (Declaration.writtenIn first ts))
        (first + Declaration.idsIn ts) ∧
      Written.AllFormed (Declaration.writtenIn first ts) := by
  have hcheck := h.check_eq first
  obtain ⟨hread, -, -⟩ := check_eq_ok (congrArg Checked.result hcheck)
  rw [hcheck] at hread
  exact ⟨Declaration.trees_written first ts ▸ hread,
    Declaration.writtenIn_formed first ts hread.2⟩

theorem Machine.Beside.clearOutput (m : Machine) : m.Beside m.clearOutput :=
  ⟨rfl, rfl, rfl, rfl, rfl⟩

theorem Pair.Machines.output {m m' : Machine} (h : Machines m m') : m.output = m'.output := by
  unfold Machine.output
  rw [h.printed]

/-- The tree of a statement preserves its meaning: from a good pair, wherever the statement is
executed in the given layers and with any fuel, it ends as the statement does as it is written. -/
def Charts.Preserves (c : Charts) (σ : List Layer) (s : Written) : Prop :=
  ∀ p : Pair, p.Good c → p.At σ → ∀ fuel,
    Pair.Agrees c p (Run.execute fuel s.tree) (Direct.execute fuel s)
      fun signal q => q.Returns c signal

namespace Pair

/-- Before anything has run. -/
theorem start_rests (clock : Nat → Float) (sink : Sink) :
    Rests ⟨.start clock sink, .start (.start clock sink), fun f f' => f = globals ∧ f' = globals⟩
      ⟨[], [], 0⟩ 0 := by
  have hlawful := Session.start_lawful clock sink fun _ => True
  refine ⟨?_, .nil, rfl⟩
  exact
    { frames := .single rfl rfl
      machines := ⟨rfl, rfl, rfl, rfl, rfl, rfl, rfl, rfl⟩
      charted := ⟨rfl, rfl, fun _ _ => ⟨rfl, rfl⟩⟩
      values := fun f x v hv id he => by
        obtain ⟨k, hk, -⟩ := hlawful.values f x v hv id he
        exact nomatch hk
      fields := fun i x v hv => nomatch (show (none : Option Value) = some v from hv)
      methods := fun k x id hid => nomatch (show (none : Option Nat) = some id from hid)
      natives := hlawful.natives }

namespace Rests

variable {p : Pair} {c : Charts} {next : NodeId}

/-- Nothing that was printed before counts. -/
theorem clearOutput (hp : p.Rests c next) :
    (p.withMachines p.tree.clearOutput p.written.machine.clearOutput).Rests c next where
  good :=
    hp.good.aside (.clearOutput _) (.clearOutput _) rfl { hp.good.machines with printed := rfl }
  top := (Grows.withMachines (.clearOutput _) (.clearOutput _)).at_ hp.top
  next := hp.next

/-- In front of the statements of a program. -/
theorem learn (hp : p.Rests c next) {source : String} {ts : List Declaration}
    (h : Reads source ts) :
    (p.learn (Declaration.writtenIn next ts)).Rests
      (c.learn (Declaration.writtenIn next ts) (next + Declaration.idsIn ts))
      (next + Declaration.idsIn ts) := by
  obtain ⟨hread, hformed⟩ := h.formed next
  have htop := (Keeps.learn p (Declaration.writtenIn next ts)).chained hp.top
  rw [← hp.next] at hread hformed htop ⊢
  exact ⟨hp.good.learn hread (Nat.le_add_right ..) hformed, htop, rfl⟩

/-- The occurrences of a program have their bindings. -/
theorem places (hp : p.Rests c next) {source : String} {ts : List Declaration}
    (h : Reads source ts) :
    ∀ m ∈ Written.lociIn [] (Declaration.writtenIn next ts),
      (c.learn (Declaration.writtenIn next ts) (next + Declaration.idsIn ts)).Places m := by
  obtain ⟨hread, hformed⟩ := h.formed next
  rw [← hp.next] at hread hformed ⊢
  exact (Charts.places_learn hp.good.charted.ahead hread (Nat.le_add_right ..) hformed).2.1

/-- Each statement of a program is preserved in the layers in which it stands. -/
theorem preserves (hp : p.Rests c next) {source : String} {ts : List Declaration}
    (h : Reads source ts) {σ : List Layer} {s : Written}
    (hs : Written.Part (Declaration.writtenIn next ts) σ s) :
    (c.learn (Declaration.writtenIn next ts) (next + Declaration.idsIn ts)).Preserves σ s := by
  intro q hq hσ fuel
  obtain ⟨hformed, hadmits, hloci⟩ := hs.sound (h.formed next).2
  exact (allAgree _ fuel).execute q σ s hq hσ hformed hadmits fun m hm =>
    hp.places h m (hloci m hm)

end Rests

end Pair

open Pair

/-- A source without static faults runs. -/
theorem Reads.run_eq_runProgram {source : String} {ts : List Declaration} (h : Reads source ts)
    (fuel : Nat) (s : Session) :
    s.run fuel source =
      Session.runProgram fuel { s with nextId := s.nextId + Declaration.idsIn ts }
        ⟨Declaration.astIn s.nextId ts, (resolve (Declaration.astIn s.nextId ts)).distances⟩ := by
  unfold Session.run
  rw [h.check_eq]

theorem Session.runProgram_ok {fuel : Nat} {s : Session} {p : Program} {m : Machine}
    (h : Run.interpret fuel p.statements p.distances s.machine.clearOutput = .ok () m) :
    s.runProgram fuel p = (⟨m.output, .finished⟩, s.resumeWith m false) := by
  unfold runProgram
  rw [h]

theorem Session.runProgram_error {fuel : Nat} {s : Session} {p : Program} {m : Machine} {e : Halt}
    (h : Run.interpret fuel p.statements p.distances s.machine.clearOutput = .error e m) :
    s.runProgram fuel p = (⟨m.output, .stopped e⟩, s.resumeWith m true) := by
  unfold runProgram
  rw [h]

theorem Direct.reply_ok {fuel : Nat} {d d' : Direct} {program : List Written}
    (h : interpret fuel program { d with machine := d.machine.clearOutput } = .ok () d') :
    d.reply fuel program = (⟨d'.machine.output, .finished⟩, d') := by
  unfold reply
  rw [h]

theorem Direct.reply_error {fuel : Nat} {d d' : Direct} {program : List Written} {e : Halt}
    (h : interpret fuel program { d with machine := d.machine.clearOutput } = .error e d') :
    d.reply fuel program = (⟨d'.machine.output, .stopped e⟩, d') := by
  unfold reply
  rw [h]

/-- The run of a source shows what it shows as it is written, and leaves the same behind. -/
theorem run_agrees {s : Session} {d : Direct} {twins : FrameId → FrameId → Prop} {c : Charts}
    (hp : Rests ⟨s.machine, d, twins⟩ c s.nextId) {source : String} {ts : List Declaration}
    (h : Reads source ts) (fuel : Nat) :
    (s.run fuel source).1 = (d.reply fuel (Declaration.writtenIn s.nextId ts)).1 ∧
      (s.run fuel source).2.nextId = s.nextId + Declaration.idsIn ts ∧
      ∃ c twins, Rests
        ⟨(s.run fuel source).2.machine, (d.reply fuel (Declaration.writtenIn s.nextId ts)).2, twins⟩
        c (s.run fuel source).2.nextId := by
  have hq := hp.clearOutput.learn h
  have hagrees := thenFlush_agrees (runAll_agrees fuel hq.good hq.top (h.formed s.nextId).2
    (hp.clearOutput.places h))
  rw [h.run_eq_runProgram, ← Declaration.trees_written]
  -- both sides have learned their distances, and run from the pair that `hq` is about
  cases hagrees with
  | ok _ q hr hd hgood hk _ =>
    rw [Session.runProgram_ok (m := q.tree), Direct.reply_ok, hgood.machines.output]
    · exact ⟨rfl, rfl, _, q.twins, hgood, hk.at_ hq.top, rfl⟩
    · exact hd
    · exact hr
  | error e q hr hd hgood hk =>
    rw [Session.runProgram_error (m := q.tree), Direct.reply_error, hgood.machines.output]
    · exact ⟨rfl, rfl, _, q.twins, hgood, hk.at_ hq.top, rfl⟩
    · exact hd
    · exact hr

/-- Sources show what they show as they are written, one after another, and
leave the same behind. -/
theorem converse_agrees {s : Session} {d : Direct} {twins : FrameId → FrameId → Prop} {c : Charts}
    (hp : Rests ⟨s.machine, d, twins⟩ c s.nextId) {sources : List String}
    {tss : List (List Declaration)} (h : List.Forall₂ Reads sources tss) (fuel : Nat) :
    (s.converse fuel sources).1 = (d.replies fuel s.nextId tss).1 ∧
      ∃ c twins, Rests
        ⟨(s.converse fuel sources).2.machine, (d.replies fuel s.nextId tss).2, twins⟩
        c (s.converse fuel sources).2.nextId := by
  induction h generalizing s d twins c with
  | nil => exact ⟨rfl, c, twins, hp⟩
  | @cons source ts sources tss hread _ ih =>
    obtain ⟨hreply, hnext, c', twins', hp'⟩ := run_agrees hp hread fuel
    obtain ⟨hreplies, hrests⟩ := ih (s := (s.run fuel source).2.forget) hp'
    rw [show (s.run fuel source).2.forget.nextId = s.nextId + Declaration.idsIn ts from hnext]
      at hreplies hrests
    unfold Session.converse Direct.replies
    exact ⟨congrArg₂ List.cons hreply hreplies, hrests⟩

/-- A session shows what it shows when its sources run as they are written, and leaves the same
variables and objects behind.  The same holds of each `for` loop that stands in a further source:
with the distances that are recorded for the source, the tree of the loop preserves its meaning. -/
theorem loops_mean_what_is_written (clock : Nat → Float) (sink : Sink) (fuel : Nat)
    {sources : List String} {tss : List (List Declaration)}
    (h : List.Forall₂ Reads sources tss) :
    let session := (Session.start (.start clock sink)).converse fuel sources
    let direct := (Direct.start (.start clock sink)).replies fuel 0 tss
    session.1 = direct.1 ∧ ∃ c twins,
      Rests ⟨session.2.machine, direct.2, twins⟩ c session.2.nextId ∧
      ∀ source ts, Reads source ts →
        let program := Declaration.writtenIn session.2.nextId ts
        let next := session.2.nextId + Declaration.idsIn ts
        (check source session.2.nextId).result =
          .ok ⟨Written.trees program, (resolve (Written.trees program)).distances⟩ ∧
        (Pair.learn ⟨session.2.machine, direct.2, twins⟩ program).Rests
          (c.learn program next) next ∧
        ∀ σ initializer condition increment body,
          Written.Part program σ (.forLoop initializer condition increment body) →
          (c.learn program next).Preserves σ (.forLoop initializer condition increment body) := by
  intro session direct
  obtain ⟨hreplies, c, twins, hrests⟩ :=
    converse_agrees (s := .start (.start clock sink)) (d := .start (.start clock sink))
      (start_rests clock sink) h fuel
  refine ⟨hreplies, c, twins, hrests, fun source ts hread => ⟨?_, hrests.learn hread, ?_⟩⟩
  · rw [hread.check_eq, Declaration.trees_written]
  · intro σ initializer condition increment body hpart
    exact hrests.preserves hread hpart

/-- A loop with one turn, behind which its variable is `nil`. -/
def onceSource : String := "for (var b = true; b; b = nil) print b;"

/-- The name of the variable in `onceSource`, as an expression. -/
def onceName : Expression :=
  .operation (.operand (.operand (.operand (.operand (.operand (.operand (.call
    (.name (nameLeaf "b")))))))))

/-- `onceSource`, as it is read. -/
def onceTree : Statement :=
  .forLoop ⟨⟨.keyword .for_, "for", 1⟩, rfl⟩ (markLeaf .leftParen "(")
    (.varDecl ⟨⟨⟨.keyword .var_, "var", 1⟩, rfl⟩, nameLeaf "b",
      some ⟨markLeaf .equal "=",
        .operation (.operand (.operand (.operand (.operand (.operand (.operand (.call
          (.literal ⟨⟨.keyword .true_, "true", 1⟩, rfl⟩))))))))⟩, markLeaf .semicolon ";"⟩)
    (some onceName) (markLeaf .semicolon ";")
    (some (.assign (nameLeaf "b") (markLeaf .equal "=") nilTree)) (markLeaf .rightParen ")")
    (.print ⟨⟨.keyword .print_, "print", 1⟩, rfl⟩ onceName (markLeaf .semicolon ";"))

theorem reads_onceSource : Reads onceSource [.statement onceTree] := by
  have hlegal : ∀ {e : Expression}, e.Legal → Expression.Legal? (some e) := by
    rintro e he _ ⟨⟩
    exact he
  have hfaults : (resolve (Declaration.astIn 0 [.statement onceTree])).faults = [] := by cbv
  exact reads_of_scanTokens (by cbv) (by cbv)
    ⟨⟨hlegal trivial, hlegal trivial, hlegal trivial, trivial⟩, trivial⟩ hfaults

/-- The loop prints `true` once, in a session and as it is written, and its meaning is
preserved when it runs again. -/
theorem loops_mean_what_is_written_once :
    Reads onceSource [.statement onceTree] ∧
      ((Direct.start (.start (fun _ => 0) .sound)).replies 20 0 [[.statement onceTree]]).1 =
        [⟨"true\n", .finished⟩] ∧
      ∃ c p, Pair.Good c p ∧ p.At [] ∧ c.Preserves [] (onceTree.written 4) := by
  have h := loops_mean_what_is_written (fun _ => 0) .sound 20
    (.cons reads_onceSource .nil : List.Forall₂ Reads [onceSource] [[.statement onceTree]])
  obtain ⟨hreplies, c, twins, -, hnext⟩ := h
  have hsession : ((Session.start (.start (fun _ => 0) .sound)).converse 20 [onceSource]).1 =
      [⟨"true\n", .finished⟩] := by cbv
  have hid :
      ((Session.start (.start (fun _ => 0) .sound)).converse 20 [onceSource]).2.nextId = 4 := by
    cbv
  obtain ⟨-, hrests, hloop⟩ := hnext onceSource [.statement onceTree] reads_onceSource
  rw [hid] at hrests hloop
  exact ⟨reads_onceSource, hreplies.symm.trans hsession, _, _, hrests.good, hrests.top,
    hloop [] _ _ _ _ (.top (List.mem_singleton_self _))⟩

end Lox
