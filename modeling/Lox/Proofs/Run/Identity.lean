/-
The identity of nodes through a session.

Nodes are numbered through a whole session, and distances are kept by number.  So what a later
source adds to the known distances concerns its own nodes, and a closure that is kept from an
earlier source finds its variables as it did when that source was run.

* `Session.lt_nextId_runEach` — a session numbers nodes as if its sources were parsed one after the
  other, and the next number is larger than all of them;
* `Session.programs`, `Session.Knows` — the programs that have run, and what the machine behind them
  knows;
* `nodes_keep_distances` — no two nodes have one number, the distances of a program have the numbers
  of its nodes, and in a session every node keeps its distance, or stays without one.

Design notes: that closures have bodies from programs that have run is a regime under which any halt
is allowed, so that nothing is asked of the natives.
-/
import Lox.Proofs.Binding.Marks
import Lox.Proofs.Run.Agreement
import Lox.Proofs.Run.Growth
import Lox.Proofs.Run.Regime
import Lox.Proofs.Syntax.Numbering

namespace Lox

/-! ### Functions and their nodes -/

theorem FunDecl.occurrences_subset_of_mem {fs : List FunDecl} {f : FunDecl} (hf : f ∈ fs) :
    f.occurrences ⊆ FunDecl.occurrencesIn fs := by
  induction fs with
  | nil => cases hf
  | cons g fs ih =>
    rcases List.mem_cons.mp hf with rfl | hf
    · exact List.subset_append_left ..
    · exact List.Subset.trans (ih hf) (List.subset_append_right ..)

mutual

/-- The nodes in a function are among those of the statement that declares it. -/
theorem Stmt.occurrences_functions {s : Stmt} :
    ∀ f ∈ s.functions, f.occurrences ⊆ s.occurrences := by
  intro f hf
  match s with
  | .block body =>
    have hbody : ∀ g ∈ Stmt.functionsIn body, g.occurrences ⊆ Stmt.occurrencesIn body :=
      Stmt.occurrences_functionsIn
    exact hbody f hf
  | .classDecl _ _ methods =>
    exact List.Subset.trans (FunDecl.occurrences_subset_of_mem hf) (List.subset_append_right ..)
  | .function g =>
    cases List.mem_singleton.mp hf
    exact List.Subset.refl _
  | .branch _ thenBranch none =>
    have hthen : f.occurrences ⊆ thenBranch.occurrences := Stmt.occurrences_functions f hf
    exact List.Subset.trans hthen (List.subset_append_right ..)
  | .branch _ thenBranch (some elseBranch) =>
    rcases List.mem_append.mp hf with hf | hf
    · have hthen : f.occurrences ⊆ thenBranch.occurrences := Stmt.occurrences_functions f hf
      exact List.Subset.trans (List.Subset.trans hthen (List.subset_append_right ..))
        (List.subset_append_left ..)
    · exact List.Subset.trans (Stmt.occurrences_functions f hf) (List.subset_append_right ..)
  | .loop _ body =>
    have hbody : f.occurrences ⊆ body.occurrences := Stmt.occurrences_functions f hf
    exact List.Subset.trans hbody (List.subset_append_right ..)
  | .expression _ => cases hf
  | .print _ => cases hf
  | .ret _ _ => cases hf
  | .varDecl _ _ => cases hf

theorem Stmt.occurrences_functionsIn {ss : List Stmt} :
    ∀ f ∈ Stmt.functionsIn ss, f.occurrences ⊆ Stmt.occurrencesIn ss := by
  intro f hf
  match ss with
  | [] => cases hf
  | s :: ss =>
    rcases List.mem_append.mp hf with hf | hf
    · exact List.Subset.trans (Stmt.occurrences_functions f hf) (List.subset_append_left ..)
    · exact List.Subset.trans (Stmt.occurrences_functionsIn f hf) (List.subset_append_right ..)

end

theorem FunDecl.occurrences_eq (f : FunDecl) : f.occurrences = Stmt.occurrencesIn f.body := by
  cases f with
  | mk name params body => rfl

/-- The function has no nodes but those of one of the programs. -/
def FunDecl.From (ps : List Program) (f : FunDecl) : Prop :=
  ∃ p ∈ ps, f.occurrences ⊆ Stmt.occurrencesIn p.statements

/-- Any halt is allowed, and the functions of some programs may become closures. -/
def Regime.ofPrograms (ps : List Program) : Regime where
  halts _ := True
  declared := FunDecl.From ps
  operators := False
  references := False
  outOfFuel := trivial
  runtime _ _ := trivial
  output _ := trivial
  malformed _ _ := trivial
  dangling _ := trivial
  operates h := h.elim
  nested := by
    rintro f ⟨p, hp, hsub⟩ g hg
    rw [f.occurrences_eq] at hsub
    exact ⟨p, hp, List.Subset.trans (Stmt.occurrences_functionsIn g hg) hsub⟩

/-! ### Sessions -/

namespace Session

/-- The programs of those sources that are run, one after the other. -/
def programs (fuel : Nat) (s : Session) : List String → List Program
  | [] => []
  | source :: sources =>
    let rest := (s.run fuel source).2.programs fuel sources
    match (check source s.nextId).result with
    | .ok p => p :: rest
    | .error _ => rest

/-- A source takes the numbers that parsing it takes. -/
theorem nextId_run (fuel : Nat) (s : Session) (source : String) :
    (s.run fuel source).2.nextId = (parse (scanTokens source) s.nextId).nextId := by
  unfold run
  simp only
  cases (check source s.nextId).result with
  | error faults => rfl
  | ok p =>
    unfold runProgram
    simp only
    split
    · rfl
    · rfl

/-- The nodes of earlier sources have smaller numbers than those to come. -/
theorem lt_nextId_runEach (fuel : Nat) (s : Session) (sources : List String) :
    s.nextId ≤ (s.runEach fuel sources).nextId ∧
      ∀ o ∈ occurrencesInEach (parseEach s.nextId (sources.map scanTokens)),
        o.id < (s.runEach fuel sources).nextId := by
  induction sources generalizing s with
  | nil => exact ⟨Nat.le_refl _, fun o ho => by cases ho⟩
  | cons source sources ih =>
    have hnext := nextId_run fuel s source
    obtain ⟨hle, hlt⟩ := ih (s.run fuel source).2
    rw [hnext] at hle hlt
    refine ⟨Nat.le_trans (parse_nextId_mono _ _) hle, fun o ho => ?_⟩
    obtain ⟨count, hcount, hdrawn⟩ := Parsed.statements_drawn (scanTokens source) s.nextId
    rcases List.mem_append.mp ho with ho | ho
    · exact Nat.lt_of_lt_of_le (hdrawn.bounds ho).2 (Nat.le_trans hcount hle)
    · exact hlt o ho

/-- What is known of distances behind a source: those of the program are put in front, if it has
run. -/
theorem distances_run (fuel : Nat) (s : Session) (source : String) :
    (s.run fuel source).2.machine.distances = match (check source s.nextId).result with
      | .ok p => s.machine.distances.merge p.distances
      | .error _ => s.machine.distances := by
  unfold run
  simp only
  cases (check source s.nextId).result with
  | error faults => rfl
  | ok p =>
    have hgrows := (Run.runAll_grows fuel p.statements).thenFlush
    unfold runProgram Run.interpret
    simp only [Run.bind_apply, Run.learn]
    split
    · next he => exact (hgrows.ok he).distances
    · next he => exact (hgrows.error he).distances

/-- A source gives a distance to no node of an earlier one, and takes none away. -/
theorem find?_run (fuel : Nat) (s : Session) (source : String) {id : NodeId} (hid : id < s.nextId) :
    (s.run fuel source).2.machine.distances.find? id = s.machine.distances.find? id := by
  rw [distances_run]
  cases hc : (check source s.nextId).result with
  | error faults => rfl
  | ok p =>
    obtain ⟨hread, hdistances, -⟩ := check_eq_ok hc
    have hnone : p.distances.find? id = none := by
      rw [hdistances]
      exact Distances.find?_eq_none fun e he =>
        Nat.ne_of_gt (Nat.lt_of_lt_of_le hid (resolve_keys hread e he).1)
    show (s.machine.distances.merge p.distances).find? id = _
    rw [Distances.find?_merge, hnone, Option.none_or]

/-- The session has run programs.  Their nodes have numbers below the next one and the distances
that were found in their program, and the functions among the closures are theirs. -/
structure Knows (s : Session) (ps : List Program) : Prop where
  keys : ∀ e ∈ s.machine.distances, e.1 < s.nextId
  below : ∀ p ∈ ps, ∀ o ∈ Stmt.occurrencesIn p.statements, o.id < s.nextId
  distances : ∀ p ∈ ps, ∀ o ∈ Stmt.occurrencesIn p.statements,
    s.machine.distances.find? o.id = p.distances.find? o.id
  admitted : (Regime.ofPrograms ps).Admits s.machine

namespace Knows

variable {s : Session} {ps qs : List Program}

/-- Closures of some programs are closures of more programs. -/
theorem admits_mono {m : Machine} (h : (Regime.ofPrograms ps).Admits m) (hsub : ps ⊆ qs) :
    (Regime.ofPrograms qs).Admits m where
  natives _ _ _ _ _ _ := trivial
  passes hs := hs.elim
  closures c hc := by
    obtain ⟨p, hp, hfrom⟩ := h.closures c hc
    exact ⟨p, hsub hp, hfrom⟩
  values _ _ _ _ hs := hs.elim
  fields _ _ _ _ hs := hs.elim

/-- A source that is rejected takes numbers and does nothing else. -/
theorem run_of_error (h : s.Knows ps) (fuel : Nat) {source : String} {faults : List Diagnostic}
    (hc : (check source s.nextId).result = .error faults) : (s.run fuel source).2.Knows ps := by
  have hle := check_nextId_le source s.nextId
  unfold Session.run
  simp only [hc]
  exact ⟨fun e he => Nat.lt_of_lt_of_le (h.keys e he) hle,
    fun p hp o ho => Nat.lt_of_lt_of_le (h.below p hp o ho) hle, h.distances, h.admitted⟩

/-- A program that is run is known behind its run, however that ends. -/
theorem run_of_ok (h : s.Knows ps) (fuel : Nat) {source : String} {p : Program}
    (hc : (check source s.nextId).result = .ok p) :
    (s.run fuel source).2.Knows (ps ++ [p]) := by
  have hle := check_nextId_le source s.nextId
  have hnext : (s.run fuel source).2.nextId = (check source s.nextId).nextId :=
    nextId_run fuel s source
  have hds := distances_run fuel s source
  rw [hc] at hds
  obtain ⟨hread, hdistances, -⟩ := check_eq_ok hc
  have hkeys := resolve_keys hread
  rw [← hdistances] at hkeys
  -- numbers that have a distance, numbers of nodes, distances, and functions
  refine ⟨fun e he => ?_, fun q hq o ho => ?_, fun q hq o ho => ?_, ?_⟩
  · rw [hnext]
    rw [hds] at he
    rcases List.mem_append.mp he with he | he
    · exact (hkeys e he).2
    · exact Nat.lt_of_lt_of_le (h.keys e he) hle
  · rw [hnext]
    rcases List.mem_append.mp hq with hq | hq
    · exact Nat.lt_of_lt_of_le (h.below q hq o ho) hle
    · cases List.mem_singleton.mp hq
      exact (hread.1.2 o ho).2.1
  · rcases List.mem_append.mp hq with hq | hq
    · rw [find?_run fuel s source (h.below q hq o ho)]
      exact h.distances q hq o ho
    · -- the numbers of the new nodes had no distance before
      cases List.mem_singleton.mp hq
      have hnew : s.nextId ≤ o.id := (hread.1.2 o ho).1
      rw [hds, Distances.find?_merge, Distances.find?_eq_none fun e he =>
        Nat.ne_of_lt (Nat.lt_of_lt_of_le (h.keys e he) hnew), Option.or_none]
  · have hallows : (Regime.ofPrograms (ps ++ [p])).AllowsAll p.statements :=
      ⟨fun hs => hs.elim, fun f hf =>
        ⟨p, List.mem_append_right _ (List.mem_singleton_self p), Stmt.occurrences_functionsIn f hf⟩⟩
    refine ((admits_mono h.admitted (List.subset_append_left ps [p])).run fuel fun q hq => ?_).1
    rw [hc] at hq
    cases hq
    exact hallows

/-- Behind several sources the programs of all that were run are known. -/
theorem runEach (h : s.Knows ps) (fuel : Nat) (sources : List String) :
    (s.runEach fuel sources).Knows (ps ++ s.programs fuel sources) := by
  induction sources generalizing s ps with
  | nil => rwa [programs, List.append_nil]
  | cons source sources ih =>
    rw [programs]
    cases hc : (check source s.nextId).result with
    | error faults => exact ih (h.run_of_error fuel hc)
    | ok p =>
      have := ih (h.run_of_ok fuel hc)
      rwa [List.append_assoc] at this

theorem start (clock : Nat → Float) (sink : Sink) (natives : List Native) :
    (Session.start (.equipped clock sink natives)).Knows [] := by
  have hunused := Machine.equipped_unused clock sink natives
  refine ⟨fun e he => ?_, fun _ hp => absurd hp List.not_mem_nil,
    fun _ hp => absurd hp List.not_mem_nil, ?_⟩
  · have hnil : (Session.start (.equipped clock sink natives)).machine.distances = [] :=
      hunused.distances
    rw [hnil] at he
    cases he
  · exact Regime.admits_unused hunused (fun _ _ _ _ _ _ => trivial) fun hs => hs.elim

end Knows

end Session

/-- Of lists of tokens that are parsed one after the other, with the numbers for nodes going on from
one to the next whether they are parsed or not, no two nodes have one number.  The distances that
are found in a program have numbers of nodes in it.  So in a session, with any natives and any
output, a further source leaves every node that was read before it with the distance it had, or
without one; and the body of every closure that the machine holds is of a program that has run, and
its nodes have the distances that were found in that program. -/
theorem nodes_keep_distances :
    (∀ (firstId : NodeId) (lists : List (List Token)),
      ((occurrencesInEach (parseEach firstId lists)).map Occurrence.id).Nodup) ∧
    (∀ (statements : List Stmt), ∀ e ∈ (resolve statements).distances,
      e.1 ∈ (Stmt.occurrencesIn statements).map Occurrence.id) ∧
    ∀ (clock : Nat → Float) (sink : Sink) (natives : List Native) (fuel : Nat)
      (sources : List String),
      let start := Session.start (.equipped clock sink natives)
      let s := start.runEach fuel sources
      (∀ o ∈ occurrencesInEach (parseEach 0 (sources.map scanTokens)), ∀ later : List String,
        (s.runEach fuel later).machine.distances.find? o.id = s.machine.distances.find? o.id) ∧
      ∀ c ∈ s.machine.objects.closures, ∃ p ∈ start.programs fuel sources,
        ∀ o ∈ c.declaration.occurrences, o ∈ Stmt.occurrencesIn p.statements ∧
          s.machine.distances.find? o.id = p.distances.find? o.id := by
  refine ⟨parseEach_nodup, fun _ => resolve_keys_mem, ?_⟩
  intro clock sink natives fuel sources start s
  constructor
  · intro o ho later
    have hlt : o.id < s.nextId := (start.lt_nextId_runEach fuel sources).2 o ho
    -- one source after the other, with numbers that only grow
    have hkeeps : ∀ (later : List String) (s' : Session), o.id < s'.nextId →
        (s'.runEach fuel later).machine.distances.find? o.id =
          s'.machine.distances.find? o.id := by
      intro later
      induction later with
      | nil => exact fun _ _ => rfl
      | cons source later ih =>
        intro s' hs'
        have hnext : o.id < (s'.run fuel source).2.nextId := by
          rw [Session.nextId_run]
          exact Nat.lt_of_lt_of_le hs' (parse_nextId_mono _ _)
        exact (ih _ hnext).trans (s'.find?_run fuel source hs')
    exact hkeeps later s hlt
  · intro c hc
    have hknows := (Session.Knows.start clock sink natives).runEach fuel sources
    obtain ⟨p, hp, hsub⟩ := hknows.admitted.closures c hc
    exact ⟨p, hp, fun o ho => ⟨hsub ho, hknows.distances p hp o (hsub ho)⟩⟩

end Lox
