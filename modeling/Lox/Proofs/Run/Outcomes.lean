/-
The outcomes of sources.

A source either runs or is rejected, and what it is rejected for are static faults, of reading or of
binding but never of both.  A program that runs raises no static fault by itself, so the two flags
of a session tell the two kinds of faults apart, and the exit code follows from them.

* `ReadingFaults`, `Reply.Orderly` — what a source can be rejected for, and what it can be answered
  with;
* `Regime.blaming`, `Regime.sound` — a static fault in a run is one that a native has raised; and a
  program that has been checked halts over no operator;
* `Session.flags_runEach` — the flags remember what the replies were;
* `session_outcomes` — all of this for every sequence of sources.

Design notes: a native could answer with a reference that does not exist, which no native that is
made of values can do.  This is the one way to a halt over a missing object, so it is named as such
rather than excluded.
-/
import Lox.Proofs.Binding.Marks
import Lox.Proofs.Run.Regime
import Lox.Proofs.Run.Rejection
import Lox.Proofs.Syntax.Numbering
import Lox.Proofs.Token.Partition

namespace Lox

/-! ### Faults of a source -/

/-- The diagnostic is a fault of the characters. -/
def Diagnostic.IsLexical (d : Diagnostic) : Prop :=
  ∃ line fault, d = .lexical line fault

theorem Diagnostic.IsLexical.isStatic {d : Diagnostic} (h : d.IsLexical) : d.isStatic = true := by
  obtain ⟨line, fault, rfl⟩ := h
  rfl

theorem Diagnostic.IsGrammar.isStatic {d : Diagnostic} (h : d.IsGrammar) : d.isStatic = true := by
  obtain ⟨token, fault, rfl⟩ := h
  rfl

theorem Diagnostic.IsBinding.isStatic {d : Diagnostic} (h : d.IsBinding) : d.isStatic = true := by
  obtain ⟨token, fault, rfl⟩ := h
  rfl

/-- The lexical faults of a source are those of its pieces, in their order. -/
theorem Partition.scanFaults_eq {source : String} {pieces : List Piece}
    (h : Partition source.toList pieces) :
    scanFaults source = (itemsBehind [] pieces).filterMap Item.diagnostic? := by
  have hscan := h.scanFrom_eq []
  have hline : lineBehind [] = 1 := rfl
  rw [hline] at hscan
  unfold scanFaults scan
  rw [hscan, List.filterMap_append]
  exact List.append_nil _

theorem scanFaults_isLexical {source : String} : ∀ d ∈ scanFaults source, d.IsLexical := by
  intro d hd
  obtain ⟨item, -, hitem⟩ := List.mem_filterMap.mp hd
  cases item with
  | token t => cases hitem
  | fault line f =>
    cases hitem
    exact ⟨line, f, rfl⟩

/-- All that is wrong with the text of a source: the lexical faults of its pieces in their order,
and the faults of the grammar of its tokens. -/
structure ReadingFaults (source : String) (firstId : NodeId) (lexical grammar : List Diagnostic) :
    Prop where
  lexical_eq : ∀ pieces, Partition source.toList pieces →
    lexical = (itemsBehind [] pieces).filterMap Item.diagnostic?
  isLexical : ∀ d ∈ lexical, d.IsLexical
  grammar_eq : grammar = (parse (scanTokens source) firstId).faults
  isGrammar : ∀ d ∈ grammar, d.IsGrammar

theorem readingFaults (source : String) (firstId : NodeId) :
    ReadingFaults source firstId (scanFaults source)
      (parse (scanTokens source) firstId).faults where
  lexical_eq _ hpieces := hpieces.scanFaults_eq
  isLexical := scanFaults_isLexical
  grammar_eq := rfl
  isGrammar d hd := by
    unfold Parsed.faults at hd
    split at hd
    · cases hd
    · next herror => exact (parse_faults _ _ herror).2 d hd

/-- What a source is rejected for: the lexical faults and behind them those of the grammar, or, if
there are none of these, faults of the use of names. -/
theorem check_faults {source : String} {firstId : NodeId} {faults : List Diagnostic}
    (h : (check source firstId).result = .error faults) :
    faults ≠ [] ∧
      ((∃ lexical grammar, faults = lexical ++ grammar ∧
          ReadingFaults source firstId lexical grammar) ∨
        ReadingFaults source firstId [] [] ∧ ∀ d ∈ faults, d.IsBinding) := by
  have hreading := readingFaults source firstId
  unfold Parsed.faults at hreading
  unfold check at h
  simp only at h
  -- faults of the grammar come before those of names, which are looked for in a tree only
  cases hp : (parse (scanTokens source) firstId).result with
  | error grammar =>
    rw [hp] at h hreading
    cases h
    refine ⟨fun hnil => ?_, .inl ⟨_, _, rfl, hreading⟩⟩
    exact (parse_faults _ _ hp).1 (List.append_eq_nil_iff.mp hnil).2
  | ok statements =>
    rw [hp] at h hreading
    simp only at h
    by_cases hlexical : (scanFaults source).isEmpty = true
    · rw [if_pos hlexical] at h
      rw [List.isEmpty_iff.mp hlexical] at hreading
      unfold bindNames at h
      simp only at h
      split at h
      · cases h
      · next hfaults =>
        cases h
        exact ⟨fun hnil => hfaults (List.isEmpty_iff.mpr hnil), .inr ⟨hreading, resolve_faults⟩⟩
    · rw [if_neg hlexical] at h
      cases h
      refine ⟨fun hnil => hlexical (List.isEmpty_iff.mpr hnil), .inl ⟨_, _, ?_, hreading⟩⟩
      rw [List.append_nil]

/-! ### Replies -/

/-- How the run of a program can be stopped: by a fault that is not static, because its time is up,
or because a native has answered with a reference to nothing. -/
def Halt.Tolerated (natives : List Native) : Halt → Prop
  | raised d => d.isStatic = false
  | outOfFuel => True
  | malformed _ => False
  | dangling => ∃ n ∈ natives, ¬n.Passes (natives.length + 1)

/-- What a source can be answered with whose nodes are numbered from `firstId` on: if it is
rejected, it has printed nothing, and the faults are of one of the two kinds. -/
def Reply.Orderly (natives : List Native) (source : String) (firstId : NodeId) (r : Reply) :
    Prop :=
  match r.outcome with
  | .finished => True
  | .rejected faults => r.printed = "" ∧ faults ≠ [] ∧
      ((∃ lexical grammar, faults = lexical ++ grammar ∧
          ReadingFaults source firstId lexical grammar) ∨
        ReadingFaults source firstId [] [] ∧ ∀ d ∈ faults, d.IsBinding)
  | .stopped h => h.Tolerated natives

/-- A fault of the reply is static. -/
def Reply.hasStatic (r : Reply) : Bool :=
  r.outcome.diagnostics.any Diagnostic.isStatic

/-- A fault of the reply is not static. -/
def Reply.hasDynamic (r : Reply) : Bool :=
  r.outcome.diagnostics.any fun d => !d.isStatic

/-- The run has come to its end: if it was stopped, then by a fault. -/
def Reply.HasEnded (r : Reply) : Prop :=
  ∀ h, r.outcome = .stopped h → ∃ d, h = .raised d

/-- The source was stopped while it ran. -/
def Outcome.isStopped : Outcome → Bool
  | stopped _ => true
  | _ => false

theorem any_eq_any_of_mem {α : Type} {xs : List α} {p q : α → Bool} (h : ∀ x ∈ xs, p x = q x) :
    xs.any p = xs.any q := by
  rw [Bool.eq_iff_iff, List.any_eq_true, List.any_eq_true]
  exact exists_congr fun x => and_congr_right fun hx => by rw [h x hx]

namespace Reply.Orderly

variable {natives : List Native} {source : String} {firstId : NodeId} {r : Reply}
variable (h : r.Orderly natives source firstId)

include h

/-- What a source is rejected for are static faults. -/
theorem isStatic {faults : List Diagnostic} (hr : r.outcome = .rejected faults) :
    ∀ d ∈ faults, d.isStatic = true := by
  unfold Reply.Orderly at h
  rw [hr] at h
  intro d hd
  obtain ⟨-, -, ⟨lexical, grammar, rfl, hreading⟩ | ⟨-, hbinding⟩⟩ := h
  · rcases List.mem_append.mp hd with hd | hd
    · exact (hreading.isLexical d hd).isStatic
    · exact (hreading.isGrammar d hd).isStatic
  · exact (hbinding d hd).isStatic

/-- Static faults are those of a source that is rejected. -/
theorem hasStatic_eq : r.hasStatic = r.outcome.isRejected := by
  unfold Reply.hasStatic
  cases hr : r.outcome with
  | finished => rfl
  | rejected faults =>
    have hstatic := h.isStatic hr
    unfold Reply.Orderly at h
    rw [hr] at h
    obtain ⟨d, hd⟩ := List.exists_mem_of_ne_nil _ h.2.1
    exact List.any_eq_true.mpr ⟨d, hd, hstatic d hd⟩
  | stopped e =>
    unfold Reply.Orderly at h
    rw [hr] at h
    cases e with
    | raised d =>
      have hd : d.isStatic = false := h
      show (d.isStatic || false) = false
      rw [hd, Bool.or_false]
    | outOfFuel => rfl
    | malformed operator => rfl
    | dangling => rfl

/-- Of runs that have come to an end the other faults are those of a source that is stopped. -/
theorem hasDynamic_eq (hended : r.HasEnded) : r.hasDynamic = r.outcome.isStopped := by
  unfold Reply.hasDynamic
  cases hr : r.outcome with
  | finished => rfl
  | rejected faults =>
    have hstatic := h.isStatic hr
    refine List.any_eq_false.mpr fun d hd => ?_
    rw [hstatic d hd]
    exact Bool.false_ne_true
  | stopped e =>
    obtain ⟨d, rfl⟩ := hended e hr
    unfold Reply.Orderly at h
    rw [hr] at h
    have hd : d.isStatic = false := h
    show (!d.isStatic || false) = true
    rw [hd]
    rfl

/-- A reply has faults of one kind. -/
theorem hasStatic_and_hasDynamic : (r.hasStatic && r.hasDynamic) = false := by
  rw [h.hasStatic_eq]
  cases hr : r.outcome with
  | finished => rfl
  | stopped e => rfl
  | rejected faults =>
    have hended : r.HasEnded := fun e he => by
      rw [hr] at he
      cases he
    rw [h.hasDynamic_eq hended, hr]
    rfl

end Reply.Orderly

/-! ### Runs and static faults -/

/-- What static fault the run raises, a native of the machine has raised. -/
def Run.BlamesNatives {α : Type} (run : Run α) : Prop :=
  ∀ m d m', run m = .error (.raised d) m' → d.isStatic = true →
    ∃ n ∈ m.objects.natives, ∃ now vs, n.run now vs = .error d

/-- Static faults are raised by natives, and anything else is allowed. -/
def Regime.blaming (natives : Array Native) : Regime :=
  { Regime.lax with
    halts := fun h => ∀ d, h = .raised d → d.isStatic = true →
      ∃ n ∈ natives, ∃ now vs, n.run now vs = .error d
    outOfFuel := fun d hd => by cases hd
    runtime := fun line fault d hd hstatic => by
      cases hd
      cases hstatic
    output := fun fault d hd hstatic => by
      cases hd
      cases hstatic
    malformed := fun _ operator d hd => by cases hd
    dangling := fun _ d hd => by cases hd }

theorem Regime.blaming_admits (m : Machine) : (Regime.blaming m.objects.natives).Admits m where
  natives n hn now vs d hd := by
    rintro d' hd' -
    cases hd'
    exact ⟨n, hn, now, vs, hd⟩
  passes h := h.elim
  closures _ _ := trivial
  values _ _ _ _ h := h.elim
  fields _ _ _ _ h := h.elim

theorem Run.blamesNatives {α : Type} {run : Run α} {post : Machine → α → Objects → Prop}
    (h : ∀ m, Run.Heeds (.blaming m.objects.natives) m run (post m)) : run.BlamesNatives := by
  intro m d m' hrun hstatic
  have hafter := (h m).after (Regime.blaming_admits m)
  rw [hrun] at hafter
  exact hafter.2.2 d rfl hstatic

/-- What programs that have been checked keep to, if their natives raise no static fault. -/
def Regime.sound (natives : List Native) : Regime where
  halts := Halt.Tolerated natives
  declared := FunDecl.Operates
  operators := True
  references := ∀ n ∈ natives, n.Passes (natives.length + 1)
  outOfFuel := trivial
  runtime _ _ := rfl
  output _ := rfl
  malformed h := (h trivial).elim
  dangling h := by
    simp only [not_forall] at h
    obtain ⟨n, hn, hpasses⟩ := h
    exact ⟨n, hn, hpasses⟩
  operates _ _ hf := hf
  nested _ hf := hf.body.functionsIn

theorem Native.passes_clock (count : Nat) : Native.clock.Passes count := by
  intro now vs v hv
  cases hv
  exact .inr fun c hc => by cases hc

/-! ### Sessions -/

namespace Session

/-- The flags remember that a source was rejected, and that one was stopped. -/
theorem flags_run (fuel : Nat) (s : Session) (source : String) :
    (s.run fuel source).2.hadStaticFault =
        (s.hadStaticFault || (s.run fuel source).1.outcome.isRejected) ∧
      (s.run fuel source).2.hadRuntimeFault =
        (s.hadRuntimeFault || (s.run fuel source).1.outcome.isStopped) := by
  unfold run
  simp only
  cases (check source s.nextId).result with
  | error faults => exact ⟨(Bool.or_true _).symm, (Bool.or_false _).symm⟩
  | ok p =>
    unfold runProgram
    simp only
    split
    · exact ⟨(Bool.or_false _).symm, rfl⟩
    · exact ⟨(Bool.or_false _).symm, rfl⟩

theorem flags_runEach (fuel : Nat) (s : Session) (sources : List String) :
    (s.runEach fuel sources).hadStaticFault =
        (s.hadStaticFault || (s.replies fuel sources).any fun r => r.outcome.isRejected) ∧
      (s.runEach fuel sources).hadRuntimeFault =
        (s.hadRuntimeFault || (s.replies fuel sources).any fun r => r.outcome.isStopped) := by
  induction sources generalizing s with
  | nil => exact ⟨(Bool.or_false _).symm, (Bool.or_false _).symm⟩
  | cons source sources ih =>
    obtain ⟨hstatic, hruntime⟩ := flags_run fuel s source
    obtain ⟨ihstatic, ihruntime⟩ := ih (s.run fuel source).2
    rw [replies_cons, List.any_cons, List.any_cons, ← Bool.or_assoc, ← Bool.or_assoc, ← hstatic,
      ← hruntime]
    exact ⟨ihstatic, ihruntime⟩

variable {natives : List Native} {s : Session}

/-- A source that is rejected leaves the machine as it is. -/
theorem machine_run_of_isRejected {fuel : Nat} {source : String}
    (h : (s.run fuel source).1.outcome.isRejected = true) :
    (s.run fuel source).2.machine = s.machine := by
  cases hc : (check source s.nextId).result with
  | error faults => rw [run_of_error hc]
  | ok p =>
    obtain ⟨ts, hread⟩ := exists_reads hc
    rw [isRejected_of_reads hread] at h
    cases h

/-- On a machine that is sound a source is answered in order, and leaves such a machine. -/
theorem orderly_run (h : (Regime.sound natives).Admits s.machine) (fuel : Nat) (source : String) :
    (s.run fuel source).1.Orderly natives source s.nextId ∧
      (Regime.sound natives).Admits (s.run fuel source).2.machine := by
  have hallows : ∀ p, (check source s.nextId).result = .ok p →
      (Regime.sound natives).AllowsAll p.statements := by
    intro p hp
    have hoperate : Stmt.AllOperate p.statements := parse_operates (check_result_ok hp).1
    exact ⟨fun _ => hoperate, hoperate.functionsIn⟩
  obtain ⟨hadmits, hhalts⟩ := h.run fuel hallows
  refine ⟨?_, hadmits⟩
  unfold Reply.Orderly
  cases hc : (check source s.nextId).result with
  | error faults =>
    rw [run_of_error hc]
    exact ⟨rfl, check_faults hc⟩
  | ok p =>
    cases ho : (s.run fuel source).1.outcome with
    | finished => trivial
    | stopped e => exact hhalts e ho
    | rejected faults =>
      obtain ⟨ts, hread⟩ := exists_reads hc
      have hnot : (s.run fuel source).1.outcome.isRejected = false := isRejected_of_reads hread
      rw [ho] at hnot
      cases hnot

/-- So are sources that are run one after the other. -/
theorem orderly_replies (h : (Regime.sound natives).Admits s.machine) (fuel : Nat)
    (sources : List String) :
    (∀ r ∈ s.replies fuel sources, ∃ source firstId, r.Orderly natives source firstId) ∧
      (Regime.sound natives).Admits (s.runEach fuel sources).machine := by
  induction sources generalizing s with
  | nil => exact ⟨fun r hr => absurd hr List.not_mem_nil, h⟩
  | cons source sources ih =>
    obtain ⟨horderly, hadmits⟩ := orderly_run h fuel source
    obtain ⟨hreplies, hbehind⟩ := ih hadmits
    rw [replies_cons]
    exact ⟨List.forall_mem_cons.mpr ⟨⟨source, s.nextId, horderly⟩, hreplies⟩, hbehind⟩

end Session

/-- In a new session with natives that raise no static fault, and with any output, every source is
answered in order: it finishes, or it is rejected with nothing printed and nothing changed, for its
lexical faults in their order and behind them its faults of the grammar, or for faults of binding
alone, or it is stopped by one fault that is not static.  No reply has faults of both kinds.  One
flag says whether a reply had static faults, and if all runs have come to their end, the other one
says whether a reply had other faults, and the exit code is that of the graver kind. The evaluation
itself raises no static fault: on any machine and for any tree, one that comes out of it was raised
by a native. -/
theorem session_outcomes {natives : List Native}
    (hnatives : ∀ n ∈ natives, ∀ now vs d, n.run now vs = .error d → d.isStatic = false) :
    (∀ (clock : Nat → Float) (sink : Sink) (fuel : Nat) (sources : List String),
      let start := Session.start (.equipped clock sink natives)
      let s := start.runEach fuel sources
      let replies := start.replies fuel sources
      (∀ source, (s.run fuel source).1.Orderly natives source s.nextId ∧
        ((s.run fuel source).1.outcome.isRejected = true →
          (s.run fuel source).2.machine = s.machine)) ∧
      (∀ r ∈ replies, (r.hasStatic && r.hasDynamic) = false) ∧
      s.hadStaticFault = replies.any Reply.hasStatic ∧
      ((∀ r ∈ replies, r.HasEnded) →
        s.hadRuntimeFault = replies.any Reply.hasDynamic ∧
        s.exitCode = if replies.any Reply.hasStatic then 65
          else if replies.any Reply.hasDynamic then 70 else 0)) ∧
    ∀ fuel, (∀ e, (Run.evaluate fuel e).BlamesNatives) ∧
      (∀ c vs, (Run.invoke fuel c vs).BlamesNatives) ∧ ∀ s, (Run.execute fuel s).BlamesNatives := by
  constructor
  · intro clock sink fuel sources start s replies
    have hstart : (Regime.sound natives).Admits start.machine := by
      refine Regime.admits_unused (Machine.equipped_unused clock sink natives) ?_ fun hpasses => ?_
      · exact List.forall_mem_cons.mpr ⟨fun _ _ _ hd => by (cases hd), hnatives⟩
      · exact List.forall_mem_cons.mpr ⟨Native.passes_clock _, hpasses⟩
    obtain ⟨horderly, hadmits⟩ := Session.orderly_replies hstart fuel sources
    -- the flags were clear at the start, so they are what the replies were
    obtain ⟨hstatic, hruntime⟩ := start.flags_runEach fuel sources
    have hstatic : s.hadStaticFault = replies.any Reply.hasStatic :=
      hstatic.trans (any_eq_any_of_mem fun r hr => by
        obtain ⟨source, firstId, horder⟩ := horderly r hr
        exact horder.hasStatic_eq.symm)
    refine ⟨fun source => ⟨(Session.orderly_run hadmits fuel source).1,
      Session.machine_run_of_isRejected⟩, fun r hr => ?_, hstatic, fun hended => ?_⟩
    · obtain ⟨source, firstId, horder⟩ := horderly r hr
      exact horder.hasStatic_and_hasDynamic
    · have hruntime : s.hadRuntimeFault = replies.any Reply.hasDynamic :=
        hruntime.trans (any_eq_any_of_mem fun r hr => by
          obtain ⟨source, firstId, horder⟩ := horderly r hr
          exact (horder.hasDynamic_eq (hended r hr)).symm)
      refine ⟨hruntime, ?_⟩
      rw [← hstatic, ← hruntime]
      rfl
  · intro fuel
    have h (m : Machine) := Run.allHeed (.blaming m.objects.natives) fuel
    refine ⟨fun e => Run.blamesNatives fun m => (h m).evaluate e m fun h => h.elim, fun c vs => ?_,
      fun s => ?_⟩
    · exact Run.blamesNatives fun m => (h m).invoke c vs m (fun h => h.elim) fun _ _ h => h.elim
    · exact Run.blamesNatives fun m =>
        (h m).execute s m ⟨fun h => h.elim, fun _ _ => trivial⟩

/-- A native that always fails stops one source, and the next one is rejected: both flags are set,
and the static fault decides on the exit code. -/
theorem session_outcomes_failing :
    let failing : Native := ⟨"fail", 0, fun _ _ => .error (.runtime 1 .notCallable)⟩
    let start := Session.start (.equipped (fun _ => 0) .sound [failing])
    let s := start.runEach 9 ["fail();", "print ;"]
    (∀ n ∈ [failing], ∀ now vs d, n.run now vs = .error d → d.isStatic = false) ∧
      (∀ r ∈ start.replies 9 ["fail();", "print ;"], r.HasEnded) ∧
      s.hadStaticFault = true ∧ s.hadRuntimeFault = true ∧ s.exitCode = 65 := by
  intro failing start s
  have hnatives : ∀ n ∈ [failing], ∀ now vs d, n.run now vs = .error d → d.isStatic = false := by
    intro n hn now vs d hd
    cases List.mem_singleton.mp hn
    cases hd
    rfl
  have hreplies : start.replies 9 ["fail();", "print ;"] =
      [⟨"", .stopped (.raised (.runtime 1 .notCallable))⟩,
        ⟨"", .rejected [.grammar ⟨.mark .semicolon, ";", 1⟩ .expression]⟩] := by cbv
  have hended : ∀ r ∈ start.replies 9 ["fail();", "print ;"], r.HasEnded := by
    rw [hreplies]
    intro r hr e he
    simp only [List.mem_cons, List.not_mem_nil, or_false] at hr
    rcases hr with rfl | rfl
    · cases he
      exact ⟨_, rfl⟩
    · cases he
  obtain ⟨-, -, hstatic, hrest⟩ :=
    (session_outcomes hnatives).1 (fun _ => 0) .sound 9 ["fail();", "print ;"]
  obtain ⟨hruntime, hcode⟩ := hrest hended
  refine ⟨hnatives, hended, ?_, ?_, ?_⟩
  · rw [hstatic, hreplies]
    rfl
  · rw [hruntime, hreplies]
    rfl
  · rw [hcode, hreplies]
    rfl

end Lox
