/-
Sessions agree with what is visible.

The record of a session is lawful, whatever the sources are and however their runs end: the nodes of
a later source have new numbers, so that what is known of the closures of earlier ones stays true.

* `Site.Known` — a good site, the number of which is less than the next one;
* `traceOne_lawful`, `trace_lawful` — one source, and a whole session;
* `session_agrees` — at every node that is met, the frames agree with the scopes, and what is read
  at a distance is found there.
-/
import Lox.Proofs.Run.Conformance
import Lox.Proofs.Run.Erasure

namespace Lox

/-- A good site, the number of which is less than the next one. -/
def Site.Known (ds : Distances) (next : NodeId) (x : Site) : Prop :=
  x.Good ds ∧ ∀ o ∈ x.occurrence?, o.id < next

/-- Distances of other numbers are no new distances. -/
theorem Distances.find?_eq_none {ds : Distances} {id : NodeId} (h : ∀ e ∈ ds, e.1 ≠ id) :
    ds.find? id = none := by
  induction ds with
  | nil => rfl
  | cons e ds ih =>
    obtain ⟨key, d⟩ := e
    have hk : key ≠ id := h _ (List.mem_cons_self ..)
    rw [Distances.find?, if_neg hk]
    exact ih fun e he => h e (List.mem_cons_of_mem _ he)

/-- What is known of a site stays true when the distances of new numbers are learned. -/
theorem Site.Known.merge {ds new : Distances} {first next : Nat} {x : Site}
    (h : x.Known ds first) (hn : first ≤ next) (hnew : ∀ e ∈ new, first ≤ e.1) :
    x.Known (ds.merge new) next := by
  refine ⟨⟨h.1.faults, h.1.proper, fun o ho => ?_⟩, fun o ho => ?_⟩
  · have hlt : o.id < first := h.2 o ho
    rw [Distances.find?_merge, Distances.find?_eq_none fun e he => ?_, Option.none_or]
    · exact h.1.known o ho
    · exact Nat.ne_of_gt (Nat.lt_of_lt_of_le hlt (hnew e he))
  · exact Nat.lt_of_lt_of_le (h.2 o ho) hn

/-- A program the names of which bind. -/
theorem bindNames_eq_ok {statements : List Stmt} {p : Program} (h : bindNames statements = .ok p) :
    p.statements = statements ∧ p.distances = (resolve p.statements).distances ∧
      (resolve p.statements).faults = [] := by
  unfold bindNames at h
  simp only at h
  split at h
  · next he =>
    cases h
    exact ⟨rfl, rfl, List.isEmpty_iff.mp he⟩
  · cases h

/-- A source that is checked parses, and its statements have their names bound. -/
theorem check_result_ok {text : String} {firstId : NodeId} {p : Program}
    (h : (check text firstId).result = .ok p) :
    (parse (scanTokens text) firstId).result = .ok p.statements ∧
      bindNames p.statements = .ok p := by
  unfold check at h
  simp only at h
  cases hp : (parse (scanTokens text) firstId).result with
  | error faults =>
    rw [hp] at h
    cases h
  | ok statements =>
    rw [hp] at h
    simp only at h
    split at h
    · obtain ⟨rfl, -⟩ := bindNames_eq_ok h
      exact ⟨rfl, h⟩
    · cases h

/-- A program that passes the check, as it was read. -/
theorem check_eq_ok {text : String} {firstId : NodeId} {p : Program}
    (h : (check text firstId).result = .ok p) :
    Parse.StmtsRead firstId p.statements (check text firstId).nextId ∧
      p.distances = (resolve p.statements).distances ∧ (resolve p.statements).faults = [] := by
  obtain ⟨hparse, hbind⟩ := check_result_ok h
  exact ⟨parse_proper (scanTokens_genuine text) hparse, (bindNames_eq_ok hbind).2⟩

theorem check_nextId_le (text : String) (firstId : Nat) :
    firstId ≤ (check text firstId).nextId :=
  parse_nextId_le (scanTokens_genuine text) firstId

/-- The distances of a program have the numbers of its nodes. -/
theorem resolve_keys {first next : Nat} {statements : List Stmt}
    (h : Parse.StmtsRead first statements next) :
    ∀ e ∈ (resolve statements).distances, first ≤ e.1 ∧ e.1 < next := by
  intro e he
  have hm := (resolve_isExact h 0).entries.mem_iff.mp he
  obtain ⟨x, hx, hentry⟩ := List.mem_filterMap.mp hm
  obtain ⟨o, ho, hid, -⟩ := Site.entry?_eq_some_iff.mp hentry
  obtain ⟨hf, hn, -⟩ := h.site hx ho
  exact ⟨hid ▸ hf, hid ▸ hn⟩

/-- All sites of a program without faults are known, once its distances are. -/
theorem sites_known {first next : Nat} {statements : List Stmt}
    (h : Parse.StmtsRead first statements next) (hf : (resolve statements).faults = [])
    {known : Distances} (hk : ∀ e ∈ known, e.1 < first) (source : Nat) :
    ∀ x ∈ Stmt.sitesIn (.top source) 0 statements,
      x.Known (known.merge (resolve statements).distances) next := by
  intro x hx
  have hexact := resolve_isExact h source
  have hfaults : x.faults = [] := hexact.faults_eq_nil_iff.mp hf x hx
  refine ⟨⟨hfaults, fun o ho => (h.site hx ho).2.2, fun o ho => ?_⟩,
    fun o ho => (h.site hx ho).2.1⟩
  have hle : first ≤ o.id := (h.site hx ho).1
  rw [Distances.find?_merge, hexact.distance x hx o ho]
  have hnone : known.find? o.id = none :=
    Distances.find?_eq_none fun e he => Nat.ne_of_lt (Nat.lt_of_lt_of_le (hk e he) hle)
  rw [hnone, Option.or_none]

/-! ### Programs -/

/-- A record between two sources: the nodes of all that is known have smaller numbers than those to
come. -/
structure Record.Idle (r : Record) (next : Nat) : Prop where
  lawful : Lawful r.machine.distances (Site.Known r.machine.distances next) r
  active : r.machine.active = globals
  known : ∀ e ∈ r.machine.distances, e.1 < next

/-- A record between two sources, where all sites that are known have a property as well. -/
structure Record.Rests (P : Site → Prop) (r : Record) (next : Nat) : Prop where
  lawful : Lawful r.machine.distances (fun x => x.Known r.machine.distances next ∧ P x) r
  active : r.machine.active = globals
  known : ∀ e ∈ r.machine.distances, e.1 < next

theorem Record.Idle.rests {r : Record} {next : Nat} (h : r.Idle next) :
    r.Rests (fun _ => True) next :=
  ⟨h.lawful.learn (fun _ hx => ⟨hx, trivial⟩) rfl rfl, h.active, h.known⟩

/-- The record with nothing printed yet, in which the distances of a program are known. -/
def Record.learn (r : Record) (new : Distances) : Record :=
  { r with machine := { r.machine.clearOutput with
      distances := r.machine.distances.merge new } }

namespace Record.Rests

variable {P : Site → Prop} {r r' : Record} {next next' : Nat}

theorem idle (h : r.Rests P next) : r.Idle next :=
  ⟨h.lawful.learn (fun _ hx => hx.1) rfl rfl, h.active, h.known⟩

theorem mono (h : r.Rests P next) (hle : next ≤ next') : r.Rests P next' :=
  ⟨h.lawful.learn (fun _ hx =>
      ⟨⟨hx.1.1, fun o ho => Nat.lt_of_lt_of_le (hx.1.2 o ho) hle⟩, hx.2⟩) rfl rfl,
    h.active, fun e he => Nat.lt_of_lt_of_le (h.known e he) hle⟩

/-- A program without faults is ready to run once its distances are known. -/
theorem learn (h : r.Rests P next) {ss : List Stmt} (hread : Parse.StmtsRead next ss next')
    (hle : next ≤ next') (hfaults : (resolve ss).faults = []) (source : Nat)
    (hP : ∀ x ∈ Stmt.sitesIn (.top source) 0 ss, P x) :
    (r.learn (resolve ss).distances).Rests P next' ∧
      Stmt.AllReady (fun x =>
        x.Known (r.learn (resolve ss).distances).machine.distances next' ∧ P x)
        (.top source) 0 ss := by
  have hkeys := resolve_keys hread
  have hsites := sites_known hread hfaults h.known source
  refine ⟨⟨?_, h.active, fun e he => ?_⟩, ⟨.start source, .top source, rfl⟩, hread.2,
    fun x hx => ⟨hsites x hx, hP x hx⟩⟩
  · exact h.lawful.learn (fun x hx => ⟨hx.1.merge hle fun e he => (hkeys e he).1, hx.2⟩) rfl rfl
  · rcases List.mem_append.mp he with he | he
    · exact (hkeys e he).2
    · exact Nat.lt_of_lt_of_le (h.known e he) hle

/-- A run leads from a record between two sources to another one. -/
theorem of_continues (h : r.Rests P next)
    (hc : Continues r.machine.distances (fun x => x.Known r.machine.distances next ∧ P x) r r') :
    r'.Rests P next := by
  have hd : r'.machine.distances = r.machine.distances := hc.lawful.distances
  exact ⟨hd ▸ hc.lawful, hc.active.trans h.active, fun e he => h.known e (hd ▸ he)⟩

end Record.Rests

/-- Statements of the top level open no region for those behind them. -/
theorem Surroundings.regions_after {a : Surroundings} (h : a.regions = []) (s : Stmt) :
    (a.after s).regions = [] := by
  unfold Surroundings.after Surroundings.declare
  split
  · rw [h]
    exact h
  · exact h

namespace Traced

variable {ds : Distances} {q : Site → Prop} {r : Record}

/-- At the top level every chain of frames fits. -/
theorem fits_top {p : Place} (hp : p.around.regions = []) (ha : r.machine.active = globals) :
    p.Fits r := by
  unfold Place.Fits
  rw [hp]
  exact ha

theorem runAll_ensures (hq : ∀ x, q x → x.Good ds) (fuel : Nat) {p : Place}
    (hp : p.around.regions = []) {i : Nat} {ss : List Stmt} (h : Lawful ds q r)
    (ha : r.machine.active = globals) (hss : Stmt.AllReady q p i ss) :
    Ensures ds q r (runAll fuel p i ss) fun _ _ => True := by
  induction ss generalizing r p i with
  | nil => exact .pure h trivial
  | cons s ss ih =>
    obtain ⟨hs, hrest⟩ := hss.cons hq
    refine ((allEnsure hq fuel).execute r _ s h hs (fits_top hp ha)).bind fun _ r₁ hc _ => ?_
    exact ih (p := p.afterStmt s) (Surroundings.regions_after hp s) hc.lawful (hc.active.trans ha)
      hrest

theorem flush_ensures (h : Lawful ds q r) :
    Ensures ds q r (lift Run.flush) fun _ _ => True :=
  .quiet h Run.flush_quiet fun _ _ _ => trivial

theorem thenFlush_ensures {t : Traced Unit} (ht : Ensures ds q r t fun _ _ => True) :
    Ensures ds q r (thenFlush t) fun _ _ => True :=
  .of_leads (ht.leads.thenFlush (fun _ _ _ hc hc' => hc.trans hc') fun _ hc =>
    (flush_ensures hc.lawful).leads)

end Traced

namespace Session

/-- A source that has static faults leaves the record; any other one runs, with its distances
known. -/
theorem traceOne_eq (fuel source : Nat) (text : String) (r : Record) (next : Nat) :
    traceOne fuel source text r next = (match (check text next).result with
      | .error _ => r
      | .ok p => (Traced.thenFlush (Traced.runAll fuel (.top source) 0 p.statements)).after
          (r.learn p.distances), (check text next).nextId) := by
  unfold traceOne
  simp only
  cases (check text next).result with
  | error faults => rfl
  | ok p =>
    have happly : Traced.interpret fuel source p.statements p.distances
        { r with machine := r.machine.clearOutput } =
        Traced.thenFlush (Traced.runAll fuel (.top source) 0 p.statements)
          (r.learn p.distances) := by
      unfold Traced.interpret
      rw [Traced.bind_apply]
      rfl
    simp only [happly, Traced.after]
    cases Traced.thenFlush (Traced.runAll fuel (.top source) 0 p.statements)
      (r.learn p.distances) <;> rfl

/-- A source leaves an idle record idle, whatever it is and however it ends. -/
theorem traceOne_idle (fuel source : Nat) (text : String) {r : Record} {next : Nat}
    (h : r.Idle next) :
    (traceOne fuel source text r next).1.Idle (traceOne fuel source text r next).2 := by
  have hle := check_nextId_le text next
  rw [traceOne_eq]
  cases hp : (check text next).result with
  | error faults => exact (h.rests.mono hle).idle
  | ok p =>
    obtain ⟨hread, hdistances, hfaults⟩ := check_eq_ok hp
    obtain ⟨hrests, hready⟩ :=
      h.rests.learn hread hle hfaults source fun _ _ => trivial
    rw [← hdistances] at hrests hready
    have hrun := Traced.thenFlush_ensures
      (Traced.runAll_ensures (fun x hx => hx.1.1) fuel rfl hrests.lawful hrests.active hready)
    exact (hrests.of_continues hrun.after).idle

theorem traceFrom_idle (fuel : Nat) (sources : List String) (i : Nat) {r : Record} {next : Nat}
    (h : r.Idle next) :
    (traceFrom fuel i r next sources).1.Idle (traceFrom fuel i r next sources).2 := by
  induction sources generalizing i r next with
  | nil => exact h
  | cons text texts ih => exact ih (i + 1) (traceOne_idle fuel i text h)

/-- On the machine at the start, on which only the clock is known. -/
theorem start_lawful (clock : Nat → Float) (sink : Sink) (q : Site → Prop) :
    Lawful [] q (Record.start (.start clock sink)) := by
  refine
    { distances := rfl
      globals_lt := Nat.one_pos
      globals_parent := rfl
      opened_lt := fun f o hm => by cases hm
      opened_once := List.nodup_nil
      wrote_lt := fun c v hm => by cases hm
      holds := fun f o hm => by cases hm
      values := fun f x v hv => ?_
      fields := fun i x v hv => ?_
      methods := fun k x id hid => ?_
      natives := fun n hn => ?_
      told := trivial }
  · have hv' : ((Frames.empty.push none).define globals "clock"
        (.callable (.native 0))).value? f x = some v := hv
    rw [Frames.value?_define _ Nat.one_pos] at hv'
    split at hv'
    · cases hv'
      exact .of_ne fun id => by simp
    · rw [Frames.value?_push] at hv'
      simp [Frames.value?, Frames.empty] at hv'
  · cases (show (none : Option Value) = some v from hv)
  · cases (show (none : Option Nat) = some id from hid)
  · have hn' : n ∈ #[Native.clock] := hn
    rw [Array.mem_singleton] at hn'
    subst hn'
    intro now vs v hv c
    cases hv
    simp

theorem start_idle (clock : Nat → Float) (sink : Sink) :
    (Record.start (.start clock sink)).Idle 0 :=
  ⟨start_lawful clock sink _, rfl, fun e he => by cases he⟩

/-- The record of a session is idle. -/
theorem trace_idle (clock : Nat → Float) (sink : Sink) (fuel : Nat) (sources : List String) :
    ∃ next, (trace fuel (.start clock sink) sources).Idle next :=
  ⟨_, traceFrom_idle fuel sources 0 (start_idle clock sink)⟩

end Session

/-! ### Nodes that are met -/

/-- A node that is met in a lawful record agrees with its place. -/
theorem Told.met {later earlier : List Event} {p : Place} {node : Node} {m : Machine}
    (h : Told (later ++ .met p node m :: earlier)) :
    ChainAgrees earlier p m ∧ ReadAgrees earlier p node m :=
  ⟨h.of_append.1, h.of_append.2.1⟩

/-- A node that is met in a lawful record and written to agrees with its place. -/
theorem Told.met_write {later earlier : List Event} {p : Place} {node : Node} {m : Machine}
    (h : Told (later ++ .met p node m :: earlier)) : WriteAgrees p node m :=
  h.of_append.2.2.1

/-- A node that a session meets is met in a lawful record. -/
theorem Session.trace_told {clock : Nat → Float} {sink : Sink} {fuel : Nat}
    {sources : List String} {later earlier : List Event} {p : Place} {node : Node} {m : Machine}
    (h : (trace fuel (.start clock sink) sources).log = later ++ .met p node m :: earlier) :
    Told (later ++ .met p node m :: earlier) := by
  obtain ⟨next, hidle⟩ := trace_idle clock sink fuel sources
  rw [← h]
  exact hidle.lawful.told

/-- A node that is read has the distance that is found in the scopes of the walk.  If there is one,
the frame of that number outwards has the variable and is not the globals, and the variable is what
is read at that distance. -/
def ReadFinds (p : Place) (node : Node) (m : Machine) : Prop :=
  ∀ o ∈ node.read?, m.distances.find? o.id = distance? p.walk.scopes o.token.lexeme ∧
    ∀ d, m.distances.find? o.id = some d →
      ∃ f v, (m.frames.outwards m.active)[d]? = some f ∧ f ≠ globals ∧
        m.frames.value? f o.token.lexeme = some v ∧
        m.frames.getAt m.active d o.token.lexeme o.token.line = .ok v

theorem ReadAgrees.finds {log : List Event} {p : Place} {node : Node} {m : Machine}
    (h : ReadAgrees log p node m) : ReadFinds p node m := by
  intro o ho
  obtain ⟨hfind, hread⟩ := h o ho
  refine ⟨hfind, fun d hd => ?_⟩
  obtain ⟨f, v, -, hout, hne, hancestor, -, -, hv, -⟩ := hread d hd
  refine ⟨f, v, hout, hne, hv, ?_⟩
  unfold Frames.getAt
  rw [hancestor, Option.bind_some, hv]

/-- In the record of any session, which is the session with notes: no frame is opened twice; and at
every node that is met the frames outwards are one for each scope of the walk there, opened for the
construct that opens the scope and with the names that are defined in it, and the globals, so that
a variable, `this` or `super` with a distance is found in the frame so far out. -/
theorem session_agrees (clock : Nat → Float) (sink : Sink) (fuel : Nat) (sources : List String) :
    let r := Session.trace fuel (.start clock sink) sources
    r.machine = ((Session.start (.start clock sink)).runEach fuel sources).machine ∧
      (r.log.filterMap Event.opened?).Nodup ∧
      ∀ later p node m earlier, r.log = later ++ .met p node m :: earlier →
        ChainAgrees earlier p m ∧ ReadFinds p node m := by
  intro r
  obtain ⟨next, hidle⟩ := Session.trace_idle clock sink fuel sources
  refine ⟨Session.trace_erases fuel _ sources, hidle.lawful.opened_once, ?_⟩
  intro later p node m earlier hlog
  have htold := Session.trace_told hlog
  exact ⟨htold.met.1, htold.met.2.finds⟩

end Lox
