/-
Sources one by one and in one text.

Sources that are run one after the other in a session print and end like the one text in which they
stand one to a line.

* `Session.runInTurn` — runs sources up to the first one that does not finish;
* `Abreast` — a session in front of its next source, and a machine that has run the
  joined program as far as that;
* `runInTurn_copy` — from there on both print the same and end alike, up to lines;
* `joined_reply` — the replies of a new session, where the faults differ in their lines as the text
  differs in the lines in front of each source.

Design notes: nodes of a source have the same numbers in the session and in the joined program,
since the session numbers its sources one behind the other.  What differs are the lines, and the
distances that are known: the joined program has all of them from the beginning, the session learns
those of a source when it comes to it.  Lines are compared through labels: the joined program is run
once more with labels in the place of lines, each of which says the source and the line in it.
-/
import Lox.Proofs.Run.Copies
import Lox.Proofs.Run.Sources
import Lox.Session

namespace Lox

open Concrete

/-! ### Replies -/

/-- Two ends of sources that differ in lines at most. -/
inductive Outcome.Copy (π : Pairing) : Outcome → Outcome → Prop where
  | finished : Outcome.Copy π .finished .finished
  | stopped {h h' : Halt} (hh : h.Copy π h') : Outcome.Copy π (.stopped h) (.stopped h')

/-- Two replies that differ in lines at most, and in what was printed before. -/
structure Reply.Copy (π : Pairing) (earlier : String) (r r' : Reply) : Prop where
  printed : r'.printed = earlier ++ r.printed
  outcome : r.outcome.Copy π r'.outcome

/-- What a run shows. -/
def replyOf : EStateM.Result Halt Machine Unit → Reply
  | .ok () m => ⟨m.output, .finished⟩
  | .error h m => ⟨m.output, .stopped h⟩

theorem Run.flush_of_sound {m : Machine} (hs : m.sink = .sound) : flush m = .ok () m := by
  have hm : { m with sink := m.sink.next } = m := by
    rw [hs, Sink.sound, Sink.next_always, ← Sink.sound, ← hs]
  unfold flush
  rw [hm, hs]
  rfl

/-- Where the output is sound, flushing changes nothing. -/
theorem Run.thenFlush_eq {m : Machine} (hs : m.sink = .sound) (fuel : Nat) (ss : List Stmt) :
    Run.thenFlush (Run.runAll fuel ss) m = Run.runAll fuel ss m := by
  have hgrows := Run.runAll_grows fuel ss
  unfold Run.thenFlush
  cases he : Run.runAll fuel ss m with
  | ok _ n =>
    exact flush_of_sound ((hgrows.ok he).sound hs)
  | error h n =>
    simp only [flush_of_sound ((hgrows.error he).sound hs)]

namespace Session

/-- The machine on which a session runs its next source. -/
def machineFor (s : Session) (ts : List Declaration) : Machine :=
  { s.machine.clearOutput with
    distances := s.machine.distances.merge
      (resolve (Declaration.astIn s.nextId ts)).distances }

/-- The session behind its next source. -/
def behind (s : Session) (ts : List Declaration) (m : Machine) (stopped : Bool) : Session :=
  { s with nextId := s.nextId + Declaration.idsIn ts }.resumeWith m stopped

/-- A source without static faults is run. -/
theorem run_reads {fuel : Nat} {s : Session} (hs : s.machine.sink = .sound) {source : String}
    {ts : List Declaration} (h : Reads source ts) :
    s.run fuel source =
      match Run.runAll fuel (Declaration.astIn s.nextId ts) (s.machineFor ts) with
      | .ok () m => (⟨m.output, .finished⟩, s.behind ts m false)
      | .error e m => (⟨m.output, .stopped e⟩, s.behind ts m true) := by
  have hflush := Run.thenFlush_eq (m := s.machineFor ts) hs fuel (Declaration.astIn s.nextId ts)
  unfold run runProgram Run.interpret
  rw [h.check_eq]
  simp only [Run.bind_apply, Run.learn]
  have hlearn : { s.machine.clearOutput with
      distances := s.machine.clearOutput.distances.merge
        (resolve (Declaration.astIn s.nextId ts)).distances } = s.machineFor ts := rfl
  rw [hlearn, hflush]
  cases Run.runAll fuel (Declaration.astIn s.nextId ts) (s.machineFor ts) <;> rfl

/-- Runs sources one after the other, up to the first one that does not finish. -/
def runInTurn (fuel : Nat) (s : Session) : List String → Reply
  | [] => ⟨"", .finished⟩
  | source :: sources =>
    let (reply, s) := s.run fuel source
    match reply.outcome with
    | .finished =>
      let later := s.runInTurn fuel sources
      ⟨reply.printed ++ later.printed, later.outcome⟩
    | _ => reply

/-- Behind a source that finishes the next ones are run. -/
theorem runInTurn_finished {fuel : Nat} {s : Session} {source : String}
    (h : (s.run fuel source).1.outcome = .finished) (sources : List String) :
    s.runInTurn fuel (source :: sources) =
      ⟨(s.run fuel source).1.printed ++ ((s.run fuel source).2.runInTurn fuel sources).printed,
        ((s.run fuel source).2.runInTurn fuel sources).outcome⟩ := by
  rw [runInTurn]
  simp only [h]

/-- Behind a source that stops nothing is run. -/
theorem runInTurn_stopped {fuel : Nat} {s : Session} {source : String}
    (h : (s.run fuel source).1.outcome ≠ .finished) (sources : List String) :
    s.runInTurn fuel (source :: sources) = (s.run fuel source).1 := by
  rw [runInTurn]
  simp only

end Session

/-- What was printed by two machines, one of which has printed something before. -/
theorem Machine.Copy.output {π : Pairing} {before : List String} {m m' : Machine}
    (h : Machine.Copy π before m m') : m'.output = String.join before.reverse ++ m.output := by
  unfold Machine.output
  rw [h.printed, List.reverse_append, String.join_append]

/-! ### Distances of trees -/

/-- Numbers that the nodes of trees do not have get no distance from them. -/
theorem find?_astIn_eq_none {ts : List Declaration} (h : Declaration.Sourced ts) {first id : Nat}
    (hid : id < first ∨ first + Declaration.idsIn ts ≤ id) :
    (resolve (Declaration.astIn first ts)).distances.find? id = none := by
  refine Distances.find?_eq_none fun e he heq => ?_
  obtain ⟨hle, hlt⟩ := resolve_keys (h.stmtsRead first) e he
  rw [heq] at hle hlt
  exact hid.elim (Nat.not_lt.mpr hle) (Nat.not_le.mpr hlt)

/-- Of trees that stand one behind the other, each gives its own nodes their distances. -/
theorem find?_astIn_append {ts us : List Declaration} (hts : Declaration.Sourced ts)
    (hus : Declaration.Sourced us) (first id : Nat) :
    (resolve (Declaration.astIn first (ts ++ us))).distances.find? id =
      if id < first + Declaration.idsIn ts then
        (resolve (Declaration.astIn first ts)).distances.find? id
      else (resolve (Declaration.astIn (first + Declaration.idsIn ts) us)).distances.find? id := by
  rw [(resolve_astIn_append hts hus first).1, Distances.find?_merge]
  split
  · next hlt => rw [find?_astIn_eq_none hus (.inl hlt), Option.none_or]
  · next hle => rw [find?_astIn_eq_none hts (.inr (Nat.le_of_not_lt hle)), Option.or_none]

/-- Trees on other lines have the same distances. -/
theorem Concrete.Alike.distances_eq {L : Nat → Nat → Prop} {ts us : List Declaration}
    (h : Alike L ts us) (first : NodeId) :
    (resolve (Declaration.astIn first us)).distances =
      (resolve (Declaration.astIn first ts)).distances :=
  (resolve_copy (h.copy (R := Eq) fun _ _ => rfl)).1.eq fun _ _ hid => Eq.symm hid

/-! ### Sessions abreast of a joined program -/

/-- These lines, and numbers below `n` that are the same. -/
def Pairing.upTo (L : Nat → Nat → Prop) (n : Nat) : Pairing :=
  ⟨L, fun id id' => id' = id ∧ id < n⟩

/-- These lines, and all numbers. -/
def Pairing.ofLines (L : Nat → Nat → Prop) : Pairing :=
  ⟨L, fun _ _ => True⟩

theorem Pairing.upTo_within_ofLines (L : Nat → Nat → Prop) (n : Nat) :
    (Pairing.upTo L n).Within (.ofLines L) :=
  ⟨fun hl => hl, fun _ => trivial⟩

theorem Pairing.upTo_within (L : Nat → Nat → Prop) (n k : Nat) :
    (Pairing.upTo L n).Within (.upTo L (n + k)) :=
  ⟨fun hl => hl, fun hid => ⟨hid.1, Nat.lt_add_right k hid.2⟩⟩

/-- A session that is about to run its next source, and a machine that runs the joined program and
has got as far: what is left of that program are the trees `us`. -/
structure Abreast (L : Nat → Nat → Prop) (before : List String) (s : Session)
    (us : List Declaration) (m : Machine) : Prop where
  sound : s.machine.sink = .sound
  copy : Machine.Copy (.upTo L s.nextId) before s.machine.clearOutput m
  unknown : ∀ id, s.nextId ≤ id → s.machine.distances.find? id = none
  known : ∀ id, s.nextId ≤ id →
    m.distances.find? id = (resolve (Declaration.astIn s.nextId us)).distances.find? id

namespace Abreast

variable {L : Nat → Nat → Prop} {before : List String} {s : Session} {ts us vs : List Declaration}
  {m : Machine}

/-- With the distances of its next source, the machine of the session is a copy. -/
theorem enter (h : Abreast L before s (us ++ vs) m) (halike : Alike L ts us)
    (hus : Declaration.Sourced us) (hvs : Declaration.Sourced vs) :
    Machine.Copy (.upTo L (s.nextId + Declaration.idsIn ts)) before (s.machineFor ts) m := by
  refine h.copy.learn (Pairing.upTo_within L s.nextId (Declaration.idsIn ts)) ?_
  rintro id id' ⟨rfl, hlt⟩
  rw [Distances.find?_merge]
  by_cases hid : id' < s.nextId
  · rw [h.copy.distances id' id' ⟨rfl, hid⟩, ← halike.distances_eq,
      find?_astIn_eq_none hus (.inl hid), Option.none_or]
  · have hle := Nat.le_of_not_lt hid
    have hunknown : s.machine.clearOutput.distances.find? id' = none := h.unknown id' hle
    rw [h.known id' hle, find?_astIn_append hus hvs, halike.ids, if_pos hlt, halike.distances_eq,
      hunknown, Option.or_none]

/-- Behind a source that has finished, session and machine are abreast again. -/
theorem leave (h : Abreast L before s (us ++ vs) m) (halike : Alike L ts us)
    (hus : Declaration.Sourced us) (hvs : Declaration.Sourced vs) {n n' : Machine}
    (hn : Machine.Copy (.upTo L (s.nextId + Declaration.idsIn ts)) before n n')
    (hgrows : (s.machineFor ts).Grows n) (hgrows' : m.Grows n') :
    Abreast L (n.printed ++ before) (s.behind ts n false) vs n' where
  sound := hgrows.sound h.sound
  copy := hn.clearOutput
  unknown id hid := by
    have hle : s.nextId + Declaration.idsIn ts ≤ id := hid
    have hd : n.distances = s.machine.distances.merge _ := hgrows.distances
    show n.distances.find? id = none
    rw [hd, Distances.find?_merge, h.unknown id (Nat.le_of_add_right_le hle), Option.or_none,
      ← halike.distances_eq]
    exact find?_astIn_eq_none hus (.inr (by rwa [halike.ids]))
  known id hid := by
    have hle : s.nextId + Declaration.idsIn us ≤ id := by rwa [halike.ids]
    rw [hgrows'.distances, h.known id (Nat.le_of_add_right_le hle), find?_astIn_append hus hvs,
      if_neg (Nat.not_lt.mpr hle), halike.ids]
    rfl

/-- The next source ends on both machines alike, and if it finishes they are abreast again. -/
theorem run (h : Abreast L before s (us ++ vs) m) (halike : Alike L ts us)
    (hus : Declaration.Sourced us) (hvs : Declaration.Sourced vs) (fuel : Nat) :
    (∃ n n', Run.runAll fuel (Declaration.astIn s.nextId ts) (s.machineFor ts) = .ok () n ∧
      Run.runAll fuel (Declaration.astIn s.nextId us) m = .ok () n' ∧
      Abreast L (n.printed ++ before) (s.behind ts n false) vs n') ∨
    (∃ e e' n n', Run.runAll fuel (Declaration.astIn s.nextId ts) (s.machineFor ts) = .error e n ∧
      Run.runAll fuel (Declaration.astIn s.nextId us) m = .error e' n' ∧
      Halt.Copy (.ofLines L) e e' ∧ n'.output = String.join before.reverse ++ n.output) := by
  have hpaired : Paired (.upTo L (s.nextId + Declaration.idsIn ts)) (Declaration.idsIn ts)
      s.nextId s.nextId := fun j hj => ⟨rfl, Nat.add_lt_add_left hj _⟩
  have henter := h.enter halike hus hvs
  obtain ⟨_, _, n, n', he, he', -, hn⟩ | ⟨e, e', n, n', he, he', hh, hn⟩ :=
    (Run.runAll_copy fuel (halike.copy hpaired)).outcomes henter
  · have hgrows := (Run.runAll_grows fuel (Declaration.astIn s.nextId ts)).ok he
    have hgrows' := (Run.runAll_grows fuel (Declaration.astIn s.nextId us)).ok he'
    exact .inl ⟨n, n', he, he', h.leave halike hus hvs hn hgrows hgrows'⟩
  · have hhalt := hh.mono (Pairing.upTo_within_ofLines L _)
    exact .inr ⟨e, e', n, n', he, he', hhalt, hn.output⟩

end Abreast

theorem Run.runAll_append (fuel : Nat) (ss us : List Stmt) (m : Machine) :
    Run.runAll fuel (ss ++ us) m =
      match Run.runAll fuel ss m with
      | .ok () m => Run.runAll fuel us m
      | .error h m => .error h m := by
  induction ss generalizing m with
  | nil => rfl
  | cons s ss ih =>
    simp only [List.cons_append, Run.runAll, Run.bind_apply]
    cases Run.execute fuel s m with
    | ok _ n => exact ih n
    | error h n => rfl

/-- A session that runs sources in turn, and a machine that runs the joined program: what they print
and how they end is the same up to lines. -/
theorem runInTurn_copy (fuel : Nat) {L : Nat → Nat → Prop} {sources : List String}
    {tss uss : List (List Declaration)} (hreads : List.Forall₂ Reads sources tss)
    (halike : List.Forall₂ (Alike L) tss uss) (huss : ∀ us ∈ uss, Declaration.Sourced us)
    {s : Session} {before : List String} {m : Machine} (h : Abreast L before s uss.flatten m) :
    Reply.Copy (.ofLines L) (String.join before.reverse) (s.runInTurn fuel sources)
      (replyOf (Run.runAll fuel (Declaration.astIn s.nextId uss.flatten) m)) := by
  induction hreads generalizing uss s before m with
  | nil =>
    cases halike
    exact ⟨h.copy.output, .finished⟩
  | @cons source ts sources tss hread hreads ih =>
    cases halike with
    | @cons _ us _ uss halike halikes =>
      obtain ⟨hus, huss⟩ := List.forall_mem_cons.mp huss
      have hrest : Declaration.Sourced uss.flatten := .flatten huss
      rw [Session.runInTurn, Session.run_reads h.sound hread, List.flatten_cons,
        Declaration.astIn_append, Run.runAll_append]
      obtain ⟨n, n', he, he', habreast⟩ | ⟨e, e', n, n', he, he', hhalt, houtput⟩ :=
        h.run halike hus hrest fuel
      · -- Both go on with the rest, with what this source printed as part of
        -- what was printed before.
        have hlater := ih halikes huss habreast
        have hprinted := hlater.printed
        rw [List.reverse_append, String.join_append, String.append_assoc] at hprinted
        rw [he, he', halike.ids]
        exact ⟨hprinted, hlater.outcome⟩
      · rw [he, he']
        exact ⟨houtput, .stopped hhalt⟩

theorem Session.runInTurn_singleton (fuel : Nat) (s : Session) (source : String) :
    s.runInTurn fuel [source] = (s.run fuel source).1 := by
  by_cases h : (s.run fuel source).1.outcome = .finished
  · rw [runInTurn_finished h, runInTurn, String.append_empty, ← h]
  · exact runInTurn_stopped h []

/-- The same of one source alone. -/
theorem run_copy (fuel : Nat) {L : Nat → Nat → Prop} {source : String} {ts us : List Declaration}
    (hread : Reads source ts) (halike : Alike L ts us) (hus : Declaration.Sourced us) {s : Session}
    {before : List String} {m : Machine} (h : Abreast L before s us m) :
    Reply.Copy (.ofLines L) (String.join before.reverse) (s.run fuel source).1
      (replyOf (Run.runAll fuel (Declaration.astIn s.nextId us) m)) := by
  rw [← List.append_nil us] at h
  have hcopy := runInTurn_copy fuel (.cons hread .nil) (.cons halike .nil)
    (List.forall_mem_singleton.mpr hus) h
  rwa [Session.runInTurn_singleton, List.flatten_singleton] at hcopy

/-! ### A new session -/

/-- The clock is read without a fault. -/
theorem Native.clock_copies (π : Pairing) : Native.clock.Copies π := by
  intro now arguments d hd
  cases hd

/-- A machine on which nothing has run is a copy of itself, whatever distances it knows. -/
theorem Machine.start_copy (π : Pairing) (clock : Nat → Float) (sink : Sink) (ds ds' : Distances)
    (hds : ∀ id id', π.ids id id' → ds'.find? id' = ds.find? id) :
    Machine.Copy π [] { Machine.start clock sink with distances := ds }
      { Machine.start clock sink with distances := ds' } where
  frames := rfl
  natives := rfl
  native id n hn := by
    have hnatives : #[Native.clock][id]? = some n := hn
    obtain ⟨hlt, hn⟩ := Array.getElem?_eq_some_iff.mp hnatives
    obtain rfl : id = 0 := Nat.lt_one_iff.mp hlt
    subst hn
    exact Native.clock_copies π
  closures_size := rfl
  closures id := .none
  classes := rfl
  instances := rfl
  active := rfl
  distances := hds
  printed := rfl
  sink := rfl
  clock := rfl
  readings := rfl

/-- A session on which nothing has run, with a sound output. -/
def Session.fresh (clock : Nat → Float) : Session :=
  .start (.start clock .sound)

/-- The machine on which a joined program runs. -/
def Machine.startFor (clock : Nat → Float) (us : List Declaration) : Machine :=
  { Machine.start clock .sound with
    distances := (resolve (Declaration.astIn 0 us)).distances }

/-- A new session, and the machine on which the joined program is about to run. -/
theorem abreast_start (L : Nat → Nat → Prop) (clock : Nat → Float) (us : List Declaration) :
    Abreast L [] (.fresh clock) us (.startFor clock us) where
  sound := rfl
  copy := Machine.start_copy _ clock .sound [] _ fun id _ hid => absurd hid.2 (Nat.not_lt_zero id)
  unknown _ _ := rfl
  known _ _ := rfl

/-! ### Faults on other lines -/

/-- The same end, on a line so much further down. -/
def Halt.lower (k : Nat) : Halt → Halt
  | .raised (.runtime line fault) => .raised (.runtime (line + k) fault)
  | .malformed operator => .malformed (operator.relabel (· + k))
  | h => h

/-- The same end of a source, on a line so much further down. -/
def Outcome.lower (k : Nat) : Outcome → Outcome
  | .stopped h => .stopped (h.lower k)
  | outcome => outcome

/-- The same reply, with its fault on a line so much further down. -/
def Reply.lower (k : Nat) (r : Reply) : Reply :=
  { r with outcome := r.outcome.lower k }

/-- Line `l` of the `i`-th source has the label `Nat.pair i l`.  This is the line that belongs to a
label if there are so many lines in front of each source. -/
def Placed (lines : Nat → Nat) (l label : Nat) : Prop :=
  l = label.unpair.2 + lines label.unpair.1

theorem Placed.eq_add {lines : Nat → Nat} {l l₀ label : Nat} (h : Placed lines l label)
    (h₀ : Placed (fun _ => 0) l₀ label) : l = l₀ + lines label.unpair.1 := by
  rw [h, h₀]
  rfl

theorem placed_pair (lines : Nat → Nat) (i l : Nat) :
    Placed lines (l + lines i) (Nat.pair i l) := by
  unfold Placed
  rw [Nat.unpair_pair]

/-- The source of the label on which a run has ended. -/
def Halt.origin : Halt → Nat
  | .raised (.runtime label _) => label.unpair.1
  | .malformed operator => operator.line.unpair.1
  | _ => 0

/-- The source of the label on which a source has ended. -/
def Outcome.origin : Outcome → Nat
  | .stopped h => h.origin
  | _ => 0

theorem Token.Copy.eq_relabel {lines : Nat → Nat} {t t₀ label : Token}
    (h : t.Copy (.ofLines (Placed lines)) label)
    (h₀ : t₀.Copy (.ofLines (Placed fun _ => 0)) label) :
    t = t₀.relabel (· + lines label.line.unpair.1) := by
  obtain ⟨kind, lexeme, line⟩ := t
  obtain ⟨kind₀, lexeme₀, line₀⟩ := t₀
  have hkind : kind = kind₀ := h.kind.symm.trans h₀.kind
  have hlexeme : lexeme = lexeme₀ := h.lexeme.symm.trans h₀.lexeme
  have hline : line = line₀ + lines label.line.unpair.1 := Placed.eq_add h.line h₀.line
  rw [hkind, hlexeme, hline]
  rfl

/-- An end with lines in front of the sources is the end without them, further down. -/
theorem Halt.Copy.eq_lower {lines : Nat → Nat} {h h₀ label : Halt}
    (hh : h.Copy (.ofLines (Placed lines)) label)
    (hh₀ : h₀.Copy (.ofLines (Placed fun _ => 0)) label) :
    h = h₀.lower (lines label.origin) := by
  cases hh with
  | outOfFuel =>
    cases hh₀
    rfl
  | dangling =>
    cases hh₀
    rfl
  | malformed ht =>
    cases hh₀ with
    | malformed ht₀ => exact congrArg Halt.malformed (ht.eq_relabel ht₀)
  | raised hd =>
    cases hh₀ with
    | raised hd₀ =>
      cases hd with
      | output _ =>
        cases hd₀
        rfl
      | runtime hline fault =>
        cases hd₀ with
        | runtime hline₀ =>
          have hadd := Placed.eq_add hline hline₀
          exact congrArg (fun line => Halt.raised (.runtime line fault)) hadd

theorem Reply.Copy.eq_lower {lines : Nat → Nat} {r r₀ label : Reply}
    (h : Reply.Copy (.ofLines (Placed lines)) "" r label)
    (h₀ : Reply.Copy (.ofLines (Placed fun _ => 0)) "" r₀ label) :
    r = r₀.lower (lines label.outcome.origin) := by
  obtain ⟨printed, outcome⟩ := r
  obtain ⟨printed₀, outcome₀⟩ := r₀
  obtain ⟨printed', outcome'⟩ := label
  have hprinted : printed = printed₀ := by
    have heq := h.printed.symm.trans h₀.printed
    rwa [String.empty_append, String.empty_append] at heq
  have houtcome : outcome = outcome₀.lower (lines outcome'.origin) := by
    cases h.outcome with
    | finished =>
      cases h₀.outcome
      rfl
    | stopped hh =>
      cases h₀.outcome with
      | stopped hh₀ => exact congrArg Outcome.stopped (hh.eq_lower hh₀)
  rw [hprinted, houtcome]
  rfl

/-! ### Sources in turn and in one text -/

/-- A source that passes the check. -/
def Accepted (source : String) : Prop :=
  ∃ p, (check source 0).result = .ok p

theorem forall₂_reads {sources : List String} (h : ∀ source ∈ sources, Accepted source) :
    ∃ tss, List.Forall₂ Reads sources tss := by
  induction sources with
  | nil => exact ⟨[], .nil⟩
  | cons source sources ih =>
    obtain ⟨⟨p, hp⟩, hrest⟩ := List.forall_mem_cons.mp h
    obtain ⟨ts, hts⟩ := exists_reads hp
    obtain ⟨tss, htss⟩ := ih hrest
    exact ⟨ts :: tss, .cons hts htss⟩

theorem forall₂_reads_below {sources : List String} {tss : List (List Declaration)}
    (h : List.Forall₂ Reads sources tss) (lines : Nat → Nat) :
    List.Forall₂ Reads (sources.mapIdx fun i => below (lines i))
      (laid (fun i l => l + lines i) tss) := by
  induction h generalizing lines with
  | nil => exact .nil
  | cons hread _ ih =>
    rw [List.mapIdx_cons, laid_cons]
    exact .cons (hread.below (lines 0)) (ih fun i => lines (i + 1))

theorem mapIdx_below_zero (sources : List String) :
    (sources.mapIdx fun _ => below 0) = sources := by
  induction sources with
  | nil => rfl
  | cons source sources ih =>
    rw [List.mapIdx_cons, ih]
    exact congrArg (· :: sources) String.ofList_toList

/-- The reply to sources with so many lines in front of each, and the reply to the text in which the
sources stand one to a line, differ from one reply with labels for lines in their lines alone. -/
theorem exists_labelled (fuel : Nat) (clock : Nat → Float) {sources : List String}
    {tss : List (List Declaration)} (h : List.Forall₂ Reads sources tss) :
    ∃ label, (∀ lines, Reply.Copy (.ofLines (Placed lines)) ""
        ((Session.fresh clock).runInTurn fuel
          (sources.mapIdx fun i => below (lines i))) label) ∧
      Reply.Copy (.ofLines (Placed (linesBefore sources))) ""
        ((Session.fresh clock).run fuel ("\n".intercalate sources)).1 label := by
  have hvalid : ∀ us ∈ laid Nat.pair tss, Declaration.Valid us := .laid (valid_of_reads h) _
  have hstart := fun L => abreast_start L clock (laid Nat.pair tss).flatten
  refine ⟨replyOf (Run.runAll fuel (Declaration.astIn 0 (laid Nat.pair tss).flatten)
    (.startFor clock (laid Nat.pair tss).flatten)), fun lines => ?_, ?_⟩
  · exact runInTurn_copy fuel (forall₂_reads_below h lines)
      (alike_laid (fun i l => placed_pair lines i l) tss) (fun us hus => (hvalid us hus).toSourced)
      (hstart _)
  · have halike := alike_laid (fun i l => placed_pair (linesBefore sources) i l) tss
    exact run_copy fuel (.join h) (.flatten halike) (Declaration.Valid.flatten hvalid).toSourced
      (hstart _)

/-- Sources in turn print and end like the text in which they stand one to a line.  A fault is in
the text so many lines further down as there are line ends in front of the source that it comes
from: the one that moves the fault down with it when lines are put in front of it. -/
theorem joined_reply (fuel : Nat) (clock : Nat → Float) {sources : List String}
    {tss : List (List Declaration)} (h : List.Forall₂ Reads sources tss) :
    ∃ origin, (∀ lines : Nat → Nat,
        (Session.fresh clock).runInTurn fuel
            (sources.mapIdx fun i => below (lines i)) =
          ((Session.fresh clock).runInTurn fuel sources).lower (lines origin)) ∧
      ((Session.fresh clock).run fuel ("\n".intercalate sources)).1 =
        ((Session.fresh clock).runInTurn fuel sources).lower
          (linesBefore sources origin) := by
  obtain ⟨label, hturn, hjoined⟩ := exists_labelled fuel clock h
  have hbare := hturn fun _ => 0
  rw [mapIdx_below_zero] at hbare
  exact ⟨label.outcome.origin, fun lines => (hturn lines).eq_lower hbare, hjoined.eq_lower hbare⟩

end Lox
