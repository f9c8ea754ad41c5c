/-
Rejected sources.

A source that is rejected leaves no trace in a session: it prints nothing, changes nothing of the
machine, and what the other sources print and how they end is what it would have been without it.

* `Session.replies`, `Session.accepted` — the replies to sources one after the other, and the
  sources that are not rejected;
* `Alongside` — two sessions that have run the same sources, with other numbers for their nodes;
* `Alongside.run` — the next source does the same in both;
* `session_ignores_rejected` — without the rejected sources the other replies are the same.

Design notes: the nodes of a rejected source take up numbers, so the nodes of all sources behind it
are numbered differently in the two sessions, and so are those in the closures that the machines
keep.  The numbers that belong together are paired, and the pairing grows with each source.
-/
import Lox.Proofs.Run.Joining

namespace Lox

open Concrete

/-! ### What is compared -/

/-- The source was rejected for its static faults. -/
def Outcome.isRejected : Outcome → Bool
  | rejected _ => true
  | _ => false

namespace Session

/-- The replies to sources that are run one after the other. -/
def replies (fuel : Nat) (s : Session) : List String → List Reply
  | [] => []
  | source :: sources =>
    let (reply, s) := s.run fuel source
    reply :: s.replies fuel sources

/-- Of sources that are run one after the other those that are not rejected. -/
def accepted (fuel : Nat) (s : Session) : List String → List String
  | [] => []
  | source :: sources =>
    let (reply, s) := s.run fuel source
    if reply.outcome.isRejected then s.accepted fuel sources
    else source :: s.accepted fuel sources

theorem replies_cons (fuel : Nat) (s : Session) (source : String) (sources : List String) :
    s.replies fuel (source :: sources) =
      (s.run fuel source).1 :: (s.run fuel source).2.replies fuel sources := rfl

/-- A rejected source prints nothing and leaves the machine as it is. -/
theorem run_of_error {fuel : Nat} {s : Session} {source : String} {faults : List Diagnostic}
    (h : (check source s.nextId).result = .error faults) :
    s.run fuel source = (⟨"", .rejected faults⟩,
      { s with nextId := (check source s.nextId).nextId, hadStaticFault := true }) := by
  unfold run
  simp only [h]

/-- A source without static faults is run, whatever the output does. -/
theorem run_of_reads {fuel : Nat} {s : Session} {source : String} {ts : List Declaration}
    (h : Reads source ts) :
    s.run fuel source =
      match Run.thenFlush (Run.runAll fuel (Declaration.astIn s.nextId ts)) (s.machineFor ts) with
      | .ok () m => (⟨m.output, .finished⟩, s.behind ts m false)
      | .error e m => (⟨m.output, .stopped e⟩, s.behind ts m true) := by
  unfold run runProgram
  rw [h.check_eq]
  have hlearned : Run.interpret fuel (Declaration.astIn s.nextId ts)
      (resolve (Declaration.astIn s.nextId ts)).distances s.machine.clearOutput =
      Run.thenFlush (Run.runAll fuel (Declaration.astIn s.nextId ts)) (s.machineFor ts) := rfl
  simp only [hlearned]
  cases Run.thenFlush (Run.runAll fuel (Declaration.astIn s.nextId ts)) (s.machineFor ts) <;> rfl

theorem isRejected_of_reads {fuel : Nat} {s : Session} {source : String} {ts : List Declaration}
    (h : Reads source ts) : (s.run fuel source).1.outcome.isRejected = false := by
  rw [run_of_reads h]
  cases Run.thenFlush (Run.runAll fuel (Declaration.astIn s.nextId ts)) (s.machineFor ts) <;> rfl

end Session

/-! ### Copies on the same lines -/

/-- The same lines, and these numbers. -/
def Pairing.onLines (R : NodeId → NodeId → Prop) : Pairing :=
  ⟨Eq, R⟩

theorem Token.Copy.eq {R : NodeId → NodeId → Prop} {t t' : Token} (h : t.Copy (.onLines R) t') :
    t' = t := by
  obtain ⟨kind, lexeme, line⟩ := t
  obtain ⟨kind', lexeme', line'⟩ := t'
  obtain ⟨hkind, hlexeme, hline⟩ := h
  have hline : line = line' := hline
  cases hkind
  cases hlexeme
  cases hline
  rfl

/-- On the same lines two runs end in the same way. -/
theorem Halt.Copy.eq {R : NodeId → NodeId → Prop} {h h' : Halt} (hh : h.Copy (.onLines R) h') :
    h' = h := by
  cases hh with
  | outOfFuel => rfl
  | dangling => rfl
  | malformed ht => rw [ht.eq]
  | raised hd =>
    cases hd with
    | output _ => rfl
    | runtime hline fault =>
      cases hline
      rfl

/-- Two sets of distances that belong together have the same distance for numbers that belong
together and to no others. -/
theorem Distances.Copy.find?_eq {π : Pairing} {ds ds' : Distances} (h : Distances.Copy π ds ds')
    {id id' : NodeId} (hid : ∀ key key', π.ids key key' → (key' = id' ↔ key = id)) :
    ds'.find? id' = ds.find? id := by
  induction h with
  | nil => rfl
  | @cons entry entry' _ _ he _ ih =>
    obtain ⟨key, d⟩ := entry
    obtain ⟨key', d'⟩ := entry'
    obtain ⟨hkeys, hd⟩ := he
    have hd : d' = d := hd
    subst hd
    simp only [Distances.find?, hid key key' hkeys, ih]

namespace Run

theorem Copy.flush {π : Pairing} {before : List String} :
    Copy π before Eq Run.flush Run.flush := by
  refine ⟨fun m m' hm => ?_⟩
  have hm' : Machine.Copy π before { m with sink := m.sink.next }
      { m' with sink := m.sink.next } := { hm with sink := rfl }
  unfold Run.flush
  rw [hm.sink]
  cases m.sink.answer.flushFault? with
  | some fault => exact ⟨.raised (.output fault), hm'⟩
  | none => exact ⟨rfl, hm'⟩

theorem Copy.thenFlush {π : Pairing} {before : List String} {run run' : Run Unit}
    (h : Copy π before Eq run run') :
    Copy π before Eq (Run.thenFlush run) (Run.thenFlush run') := by
  refine ⟨fun m m' hm => ?_⟩
  unfold Run.thenFlush
  obtain ⟨_, _, n, n', he, he', -, hn⟩ | ⟨e, e', n, n', he, he', hh, hn⟩ := h.outcomes hm
  · rw [he, he']
    exact flush.after n n' hn
  · rw [he, he']
    -- a fault of flushing prevails over the end of the run
    obtain ⟨_, _, k, k', hf, hf', -, hk⟩ | ⟨f, f', k, k', hf, hf', hfault, hk⟩ :=
      flush.outcomes hn
    · simp only [hf, hf']
      exact ⟨hh, hk⟩
    · simp only [hf, hf']
      exact ⟨hfault, hk⟩

end Run

/-! ### Sessions alongside each other -/

/-- Numbers that are equally far behind `first` and `first'`. -/
def Shifted (first first' id id' : Nat) : Prop :=
  ∃ j, id = first + j ∧ id' = first' + j

/-- The numbers that were paired before, and those of `n` new nodes on each side. -/
def Pairing.extend (R : NodeId → NodeId → Prop) (n first first' id id' : Nat) : Prop :=
  R id id' ∨ ∃ j < n, id = first + j ∧ id' = first' + j

/-- Two sessions that have run the same sources.  Their machines are copies, where `R` pairs the
numbers of the nodes that belong together; no number to come is known to either of them. -/
structure Alongside (R : NodeId → NodeId → Prop) (s s' : Session) : Prop where
  copy : Machine.Copy (.onLines R) [] s.machine.clearOutput s'.machine.clearOutput
  below : ∀ id id', R id id' → id < s.nextId ∧ id' < s'.nextId
  unknown : ∀ id, s.nextId ≤ id → s.machine.distances.find? id = none
  unknown' : ∀ id, s'.nextId ≤ id → s'.machine.distances.find? id = none

/-- A machine that has run trees knows no number behind theirs. -/
theorem Machine.Grows.find?_eq_none {s : Session} {ts : List Declaration} {m : Machine}
    (h : (s.machineFor ts).Grows m)
    (hs : ∀ id, s.nextId ≤ id → s.machine.distances.find? id = none)
    (hts : Declaration.Sourced ts) {id : NodeId} (hid : s.nextId + Declaration.idsIn ts ≤ id) :
    m.distances.find? id = none := by
  have hd : m.distances = s.machine.distances.merge
      (resolve (Declaration.astIn s.nextId ts)).distances := h.distances
  rw [hd, Distances.find?_merge, hs id (Nat.le_of_add_right_le hid), Option.or_none]
  exact find?_astIn_eq_none hts (.inr hid)

namespace Alongside

variable {R : NodeId → NodeId → Prop} {s s' : Session} {ts : List Declaration}

/-- In front of a source that it rejects, the first session is alongside the second one if it is
behind it. -/
theorem skip (h : Alongside R s s') {next : NodeId} (hnext : s.nextId ≤ next) (b : Bool) :
    Alongside R { s with nextId := next, hadStaticFault := b } s' where
  copy := h.copy
  below id id' hid := ⟨Nat.lt_of_lt_of_le (h.below id id' hid).1 hnext, (h.below id id' hid).2⟩
  unknown id hid := h.unknown id (Nat.le_trans hnext hid)
  unknown' := h.unknown'

/-- With the distances of the same trees the machines are copies, and the nodes of the trees belong
together. -/
theorem enter (h : Alongside R s s') (hts : Declaration.Sourced ts) :
    Machine.Copy (.onLines (Pairing.extend R (Declaration.idsIn ts) s.nextId s'.nextId)) []
      (s.machineFor ts) (s'.machineFor ts) := by
  have hself : Alike Eq ts ts := .refl (fun _ => rfl) hts.legal
  have hnew : Distances.Copy (.onLines (Shifted s.nextId s'.nextId))
      (resolve (Declaration.astIn s.nextId ts)).distances
      (resolve (Declaration.astIn s'.nextId ts)).distances :=
    (resolve_copy (hself.copy fun j _ => ⟨j, rfl, rfl⟩)).1
  have hwithin : (Pairing.onLines R).Within
      (.onLines (Pairing.extend R (Declaration.idsIn ts) s.nextId s'.nextId)) :=
    ⟨fun hline => hline, fun hid => Or.inl hid⟩
  refine h.copy.withDistances hwithin ?_
  rintro id id' (hold | ⟨j, -, rfl, rfl⟩)
  · -- numbers of earlier nodes get no new distance
    obtain ⟨hlt, hlt'⟩ := h.below id id' hold
    rw [Distances.find?_merge, Distances.find?_merge, find?_astIn_eq_none hts (.inl hlt),
      find?_astIn_eq_none hts (.inl hlt'), Option.none_or, Option.none_or]
    exact h.copy.distances id id' hold
  · -- numbers of the new nodes had no distance, and now have the same one
    show (s'.machine.distances.merge _).find? _ = (s.machine.distances.merge _).find? _
    rw [Distances.find?_merge, Distances.find?_merge, h.unknown _ (Nat.le_add_right ..),
      h.unknown' _ (Nat.le_add_right ..), Option.or_none, Option.or_none]
    refine hnew.find?_eq ?_
    rintro _ _ ⟨i, rfl, rfl⟩
    rw [Nat.add_left_cancel_iff, Nat.add_left_cancel_iff]

/-- Behind a source that both have run, the sessions are alongside each other again. -/
theorem leave (h : Alongside R s s') (hts : Declaration.Sourced ts) {m m' : Machine}
    (hm : Machine.Copy (.onLines (Pairing.extend R (Declaration.idsIn ts) s.nextId s'.nextId)) []
      m m') (hgrows : (s.machineFor ts).Grows m) (hgrows' : (s'.machineFor ts).Grows m')
    (stopped : Bool) :
    Alongside (Pairing.extend R (Declaration.idsIn ts) s.nextId s'.nextId)
      (s.behind ts m stopped) (s'.behind ts m' stopped) where
  copy := { hm with printed := rfl }
  below id id' hid := by
    show id < s.nextId + Declaration.idsIn ts ∧ id' < s'.nextId + Declaration.idsIn ts
    rcases hid with hold | ⟨j, hj, rfl, rfl⟩
    · obtain ⟨hlt, hlt'⟩ := h.below id id' hold
      exact ⟨Nat.lt_add_right _ hlt, Nat.lt_add_right _ hlt'⟩
    · exact ⟨Nat.add_lt_add_left hj _, Nat.add_lt_add_left hj _⟩
  unknown id hid := hgrows.find?_eq_none h.unknown hts hid
  unknown' id hid := hgrows'.find?_eq_none h.unknown' hts hid

/-- A source without static faults prints the same and ends alike in both sessions, which are
alongside each other behind it. -/
theorem run (h : Alongside R s s') {source : String} (hread : Reads source ts) (fuel : Nat) :
    (s'.run fuel source).1 = (s.run fuel source).1 ∧
      ∃ R', Alongside R' (s.run fuel source).2 (s'.run fuel source).2 := by
  have hts := hread.valid.toSourced
  have hself : Alike Eq ts ts := .refl (fun _ => rfl) hts.legal
  have hcopy := hself.copy (R := Pairing.extend R (Declaration.idsIn ts) s.nextId s'.nextId)
    fun j hj => .inr ⟨j, hj, rfl, rfl⟩
  have hgrows := (Run.runAll_grows fuel (Declaration.astIn s.nextId ts)).thenFlush
  have hgrows' := (Run.runAll_grows fuel (Declaration.astIn s'.nextId ts)).thenFlush
  rw [Session.run_of_reads hread, Session.run_of_reads hread]
  obtain ⟨_, _, m, m', he, he', -, hm⟩ | ⟨e, e', m, m', he, he', hhalt, hm⟩ :=
    (Run.runAll_copy fuel hcopy).thenFlush.outcomes (h.enter hts)
  · rw [he, he']
    refine ⟨?_, _, h.leave hts hm (hgrows.ok he) (hgrows'.ok he') false⟩
    exact congrArg (Reply.mk · .finished) hm.output
  · rw [he, he']
    refine ⟨?_, _, h.leave hts hm (hgrows.error he) (hgrows'.error he') true⟩
    rw [hhalt.eq]
    exact congrArg (Reply.mk · (.stopped e)) hm.output

/-- The replies to sources of which the rejected ones are left out. -/
theorem replies (h : Alongside R s s') (fuel : Nat) (sources : List String) :
    s'.replies fuel (s.accepted fuel sources) =
      (s.replies fuel sources).filter fun reply => !reply.outcome.isRejected := by
  induction sources generalizing R s s' with
  | nil => rfl
  | cons source sources ih =>
    rw [Session.accepted, Session.replies_cons, List.filter_cons]
    cases hc : (check source s.nextId).result with
    | error faults =>
      have hle := check_nextId_le source s.nextId
      rw [Session.run_of_error hc]
      exact ih (h.skip hle true)
    | ok p =>
      obtain ⟨ts, hread⟩ := exists_reads hc
      obtain ⟨hreply, R', hrest⟩ := h.run hread fuel
      simp only [Session.isRejected_of_reads hread, Bool.not_false, if_true, Bool.false_eq_true,
        if_false]
      rw [Session.replies_cons, hreply, ih hrest]

end Alongside

/-- A new session is alongside itself. -/
theorem alongside_start (clock : Nat → Float) (sink : Sink) :
    Alongside (fun _ _ => False) (.start (.start clock sink)) (.start (.start clock sink)) where
  copy := Machine.start_copy _ clock sink [] [] fun _ _ hid => hid.elim
  below _ _ hid := hid.elim
  unknown _ _ := rfl
  unknown' _ _ := rfl

/-- Of the sources of a session those that are rejected for static faults can be left out: the
replies to all others are the same, in what is printed and in how they end.  A source that is
rejected prints nothing, and the machine behind it, with its globals, its distances and its active
frame, is the machine before it. -/
theorem session_ignores_rejected (clock : Nat → Float) (sink : Sink) (fuel : Nat)
    (sources : List String) :
    let s := Session.start (.start clock sink)
    s.replies fuel (s.accepted fuel sources) =
        (s.replies fuel sources).filter (fun reply => !reply.outcome.isRejected) ∧
      ∀ (s : Session) (source : String), (s.run fuel source).1.outcome.isRejected = true →
        (s.run fuel source).1.printed = "" ∧ (s.run fuel source).2.machine = s.machine := by
  intro s
  refine ⟨(alongside_start clock sink).replies fuel sources, fun s source hrejected => ?_⟩
  cases hc : (check source s.nextId).result with
  | error faults =>
    rw [Session.run_of_error hc]
    exact ⟨rfl, rfl⟩
  | ok p =>
    obtain ⟨ts, hread⟩ := exists_reads hc
    rw [Session.isRejected_of_reads hread] at hrejected
    cases hrejected

/-- The line in the middle declares `a` twice in one block: without it the last
line prints the same. -/
theorem session_ignores_rejected_block :
    let s := Session.start (.start (fun _ => 0) .sound)
    (s.run 9 "{ var a; var a; }").1.outcome.isRejected = true ∧
      (s.run 9 "{ var a; var a; }").1.printed = "" ∧
      s.replies 9 ["var a = true;", "print a;"] = [⟨"", .finished⟩, ⟨"true\n", .finished⟩] := by
  intro s
  have hrejected : (s.run 9 "{ var a; var a; }").1.outcome.isRejected = true := by cbv
  have haccepted : s.accepted 9 ["var a = true;", "{ var a; var a; }", "print a;"] =
      ["var a = true;", "print a;"] := by cbv
  have hreplies : (s.replies 9 ["var a = true;", "{ var a; var a; }", "print a;"]).filter
      (fun reply => !reply.outcome.isRejected) = [⟨"", .finished⟩, ⟨"true\n", .finished⟩] := by cbv
  obtain ⟨hignores, hprints⟩ := session_ignores_rejected (fun _ => 0) .sound 9
    ["var a = true;", "{ var a; var a; }", "print a;"]
  refine ⟨hrejected, (hprints s _ hrejected).1, ?_⟩
  rw [← hreplies, ← hignores, haccepted]

end Lox
