/-
Dialogues and scripts.

A dialogue runs the lines of a text in turn, and a script runs the text.  If every line of the text
runs to its end, both print the same.

* `Session.converse_finished` — a dialogue in which every line finishes runs its lines in turn;
* `runInTurn_lines` — carriage returns and a last empty line make no difference;
* `sessions_join` — sources in turn and in one text, and the lines of a text as a dialogue.

Design notes: the lines of a dialogue are read from bytes, and those of a script from its text.
-/
import Lox.Proofs.Run.Joining
import Lox.Proofs.Text.Lines

namespace Lox

open Concrete

namespace Session

/-! ### Dialogues -/

/-- What a session does next does not depend on the faults that it remembers. -/
theorem run_congr (fuel : Nat) {s s' : Session} (h : s.forget = s'.forget) (source : String) :
    (s.run fuel source).1 = (s'.run fuel source).1 ∧
      (s.run fuel source).2.forget = (s'.run fuel source).2.forget := by
  obtain ⟨m, n, a, b⟩ := s
  obtain ⟨m', n', a', b'⟩ := s'
  injection h with hm hn
  subst hm hn
  unfold run runProgram
  dsimp only
  cases (check source n).result with
  | error faults => exact ⟨rfl, rfl⟩
  | ok p =>
    dsimp only
    cases Run.interpret fuel p.statements p.distances m.clearOutput with
    | ok _ m => exact ⟨rfl, rfl⟩
    | error e m => exact ⟨rfl, rfl⟩

theorem converse_cons (fuel : Nat) (s : Session) (line : String) (lines : List String) :
    (s.converse fuel (line :: lines)).1 =
      (s.run fuel line).1 :: ((s.run fuel line).2.forget.converse fuel lines).1 := rfl

/-- A source that finishes has passed the check. -/
theorem reads_of_run {fuel : Nat} {s : Session} {source : String}
    (h : (s.run fuel source).1.outcome = .finished) : ∃ ts, Reads source ts := by
  unfold run at h
  cases hc : (check source s.nextId).result with
  | error faults =>
    simp only [hc] at h
    cases h
  | ok p => exact exists_reads hc

/-- A dialogue in which every line finishes runs its lines in turn. -/
theorem converse_finished (fuel : Nat) {s s' : Session} (hs : s.forget = s'.forget)
    {lines : List String} (h : ∀ r ∈ (s.converse fuel lines).1, r.outcome = .finished) :
    (∃ tss, List.Forall₂ Reads lines tss) ∧
      s'.runInTurn fuel lines =
        ⟨String.join ((s.converse fuel lines).1.map Reply.printed), .finished⟩ := by
  induction lines generalizing s s' with
  | nil => exact ⟨⟨[], .nil⟩, rfl⟩
  | cons line lines ih =>
    rw [converse_cons] at h ⊢
    obtain ⟨hfinished, hrest⟩ := List.forall_mem_cons.mp h
    obtain ⟨hreply, hforget⟩ := run_congr fuel hs line
    obtain ⟨ts, hts⟩ := reads_of_run hfinished
    obtain ⟨⟨tss, htss⟩, hturn⟩ := ih (s := (s.run fuel line).2.forget) hforget hrest
    refine ⟨⟨ts :: tss, .cons hts htss⟩, ?_⟩
    rw [hreply] at hfinished
    rw [runInTurn_finished hfinished, hturn, hreply, List.map_cons, String.join_cons]

end Session

/-! ### Lines of a text -/

/-- Sources with the same trees run alike. -/
theorem Reads.run_eq {source source' : String} {ts : List Declaration} (h : Reads source ts)
    (h' : Reads source' ts) (fuel : Nat) (s : Session) :
    s.run fuel source = s.run fuel source' := by
  unfold Session.run
  rw [h.check_eq, h'.check_eq]

theorem Session.runInTurn_cons_congr {fuel : Nat} {s : Session} {source : String}
    {sources sources' : List String}
    (h : (s.run fuel source).2.runInTurn fuel sources =
      (s.run fuel source).2.runInTurn fuel sources') :
    s.runInTurn fuel (source :: sources) = s.runInTurn fuel (source :: sources') := by
  by_cases hf : (s.run fuel source).1.outcome = .finished
  · rw [runInTurn_finished hf, runInTurn_finished hf, h]
  · rw [runInTurn_stopped hf, runInTurn_stopped hf]

theorem runInTurn_congr (fuel : Nat) {sources sources' : List String}
    {tss : List (List Declaration)} (h : List.Forall₂ Reads sources tss)
    (h' : List.Forall₂ Reads sources' tss) (s : Session) :
    s.runInTurn fuel sources = s.runInTurn fuel sources' := by
  induction h generalizing sources' s with
  | nil =>
    cases h'
    rfl
  | cons hread _ ih =>
    cases h' with
    | @cons source' _ sources' _ hread' hreads' =>
      rw [Session.runInTurn_cons_congr (ih hreads' _), Session.runInTurn, Session.runInTurn,
        hread.run_eq hread']

theorem reads_nil : Reads "" [] := ⟨.nil 1, .nil⟩

/-- The output stays sound. -/
theorem Reads.sink_run {source : String} {ts : List Declaration} (h : Reads source ts) (fuel : Nat)
    {s : Session} (hs : s.machine.sink = .sound) :
    (s.run fuel source).2.machine.sink = .sound := by
  have hgrows := Run.runAll_grows fuel (Declaration.astIn s.nextId ts)
  rw [Session.run_reads hs h]
  cases he : Run.runAll fuel (Declaration.astIn s.nextId ts) (s.machineFor ts) with
  | ok _ m => exact (hgrows.ok he).sound hs
  | error e m => exact (hgrows.error he).sound hs

/-- An empty source behind the others makes no difference. -/
theorem runInTurn_concat_nil (fuel : Nat) {sources : List String} {tss : List (List Declaration)}
    (h : List.Forall₂ Reads sources tss) {s : Session} (hs : s.machine.sink = .sound) :
    s.runInTurn fuel (sources ++ [""]) = s.runInTurn fuel sources := by
  induction h generalizing s with
  | nil =>
    rw [List.nil_append, Session.runInTurn_singleton, Session.run_reads hs reads_nil]
    rfl
  | cons hread _ ih => exact Session.runInTurn_cons_congr (ih (hread.sink_run fuel hs))

/-- A line is read as its trees with what ends it, too. -/
theorem Reads.of_dropReturn {line : List Char} {ts : List Declaration}
    (h : Reads (String.ofList (Text.dropReturn '\r' line)) ts) : Reads (String.ofList line) ts := by
  obtain heq | heq := Text.eq_dropReturn '\r' line
  · rwa [← heq] at h
  · rw [heq]
    exact h.ret

theorem reads_of_dropReturn {raws : List (List Char)} {rest : List String}
    {tss : List (List Declaration)}
    (h : List.Forall₂ Reads ((raws.map (Text.dropReturn '\r')).map String.ofList ++ rest) tss) :
    List.Forall₂ Reads (raws.map String.ofList ++ rest) tss := by
  induction raws generalizing tss with
  | nil => exact h
  | cons raw raws ih =>
    cases h with
    | cons hread hreads => exact .cons hread.of_dropReturn (ih hreads)

theorem intercalate_concat {α : Type} (sep : α) (raws : List (List α)) (last : List α) :
    [sep].intercalate (raws ++ [last]) = raws.flatMap (· ++ [sep]) ++ last := by
  induction raws with
  | nil => exact List.intercalate_singleton
  | cons raw raws ih =>
    rw [List.flatMap_cons, List.append_assoc, ← ih]
    cases raws with
    | nil => exact List.intercalate_cons_cons
    | cons next raws => exact List.intercalate_cons_cons

/-- The lines of a text. -/
def linesOf (text : String) : List String :=
  (Text.lines '\n' '\r' text.toList).map String.ofList

/-- The lines of a text run in turn like sources of which the text is made up. -/
theorem exists_runInTurn_lines {text : String} {tss : List (List Declaration)}
    (h : List.Forall₂ Reads (linesOf text) tss) :
    ∃ sources, text = "\n".intercalate sources ∧ (∃ uss, List.Forall₂ Reads sources uss) ∧
      ∀ (fuel : Nat) {s : Session}, s.machine.sink = .sound →
        s.runInTurn fuel sources = s.runInTurn fuel (linesOf text) := by
  obtain ⟨raws, last, htext, hlines⟩ := Text.lines_layout '\n' '\r' text.toList
  have hself := h
  unfold linesOf at hself
  rw [hlines, List.map_append] at hself
  have hreads := reads_of_dropReturn hself
  refine ⟨raws.map String.ofList ++ [String.ofList last], ?_, ?_⟩
  · have hmap : (raws.map String.ofList ++ [String.ofList last]).map String.toList =
        raws ++ [last] := by
      simp [Function.comp_def]
    rw [← String.toList_inj, String.toList_intercalate, hmap, htext]
    exact (intercalate_concat '\n' raws last).symm
  · by_cases hlast : last = []
    · subst hlast
      rw [if_pos rfl, List.map_nil, List.append_nil] at hreads
      refine ⟨⟨tss ++ [[]], ?_⟩, fun fuel s hs => ?_⟩
      · exact List.rel_append hreads (.cons reads_nil .nil)
      · rw [runInTurn_congr fuel h hreads]
        exact runInTurn_concat_nil fuel hreads hs
    · rw [if_neg hlast] at hreads
      exact ⟨⟨tss, hreads⟩, fun fuel s _ => runInTurn_congr fuel hreads h s⟩

/-- A dialogue all lines of which finish prints what the script prints. -/
theorem script_reply (fuel : Nat) (clock : Nat → Float) {input : List UInt8} {text : String}
    (hinput : sourceOf input = .ok text)
    (h : ∀ r ∈ ((Session.fresh clock).converse fuel
      (Report.sourcesOf (Text.lines 0x0A 0x0D input)).1).1, r.outcome = .finished) :
    ((Session.fresh clock).run fuel text).1 =
      ⟨String.join (((Session.fresh clock).converse fuel
        (Report.sourcesOf (Text.lines 0x0A 0x0D input)).1).1.map Reply.printed), .finished⟩ := by
  have hlines : (Report.sourcesOf (Text.lines 0x0A 0x0D input)).1 = linesOf text :=
    congrArg Prod.fst (Report.sourcesOf_lines hinput)
  rw [hlines] at h ⊢
  obtain ⟨⟨tss, htss⟩, hturn⟩ := Session.converse_finished fuel rfl h
  obtain ⟨sources, htext, ⟨uss, huss⟩, hsources⟩ := exists_runInTurn_lines htss
  obtain ⟨origin, -, hjoined⟩ := joined_reply fuel clock huss
  rw [← htext, hsources fuel rfl, hturn] at hjoined
  exact hjoined

/-- Sources that are run in turn print and end like the one text in which they stand one to a line.
A fault is in the text so many lines further down as there are line ends in front of the source that
it comes from, which is the one that takes the fault with it when lines are put in front of it.  So
a dialogue all lines of which finish prints what the script prints. -/
theorem session_joins (fuel : Nat) (clock : Nat → Float) :
    (∀ sources : List String, (∀ source ∈ sources, Accepted source) →
      ∃ origin, (∀ lines : Nat → Nat,
          (Session.fresh clock).runInTurn fuel (sources.mapIdx fun i => below (lines i)) =
            ((Session.fresh clock).runInTurn fuel sources).lower (lines origin)) ∧
        ((Session.fresh clock).run fuel ("\n".intercalate sources)).1 =
          ((Session.fresh clock).runInTurn fuel sources).lower (linesBefore sources origin)) ∧
    ∀ (input : List UInt8) (text : String), sourceOf input = .ok text →
      (∀ r ∈ ((Session.fresh clock).converse fuel
        (Report.sourcesOf (Text.lines 0x0A 0x0D input)).1).1, r.outcome = .finished) →
      ((Session.fresh clock).run fuel text).1 =
        ⟨String.join (((Session.fresh clock).converse fuel
          (Report.sourcesOf (Text.lines 0x0A 0x0D input)).1).1.map Reply.printed), .finished⟩ := by
  refine ⟨fun sources h => ?_, fun input text hinput h => script_reply fuel clock hinput h⟩
  obtain ⟨tss, htss⟩ := forall₂_reads h
  exact joined_reply fuel clock htss

theorem accepted_of_isOk {source : String} (h : (check source 0).result.isOk = true) :
    Accepted source := by
  cases hc : (check source 0).result with
  | ok p => exact ⟨p, hc⟩
  | error faults =>
    rw [hc] at h
    cases h

/-- A function that fails, and a later source that calls it. -/
def failingCall : List String := ["nil;", "fun f() { nil(); }", "f();"]

/-- A text of two lines, in bytes. -/
def printingLines : List UInt8 := "print nil;\r\nprint true;\n".toUTF8.toList

/-- The fault of a function is on the line of the function, whoever calls it; and a dialogue prints
what the script prints. -/
theorem session_joins_failingCall :
    ((Session.fresh fun _ => 0).run 9 "nil;\nfun f() { nil(); }\nf();").1 =
      ⟨"", .stopped (.raised (.runtime 2 .notCallable))⟩ ∧
    ((Session.fresh fun _ => 0).run 9 "print nil;\r\nprint true;\n").1 =
      ⟨"nil\ntrue\n", .finished⟩ := by
  obtain ⟨hjoins, hdialogue⟩ := session_joins 9 fun _ => 0
  have haccepted : ∀ source ∈ failingCall, Accepted source := by
    refine List.forall_mem_cons.mpr ⟨accepted_of_isOk (by cbv), ?_⟩
    refine List.forall_mem_cons.mpr ⟨accepted_of_isOk (by cbv), ?_⟩
    exact List.forall_mem_singleton.mpr (accepted_of_isOk (by cbv))
  have hturn : (Session.fresh fun _ => 0).runInTurn 9 failingCall =
      ⟨"", .stopped (.raised (.runtime 1 .notCallable))⟩ := by cbv
  have hmoved : (Session.fresh fun _ => 0).runInTurn 9 (failingCall.mapIdx fun i => below i) =
      ⟨"", .stopped (.raised (.runtime 2 .notCallable))⟩ := by cbv
  have htext : "\n".intercalate failingCall = "nil;\nfun f() { nil(); }\nf();" := by cbv
  have hreplies : ((Session.fresh fun _ => 0).converse 9
      (Report.sourcesOf (Text.lines 0x0A 0x0D printingLines)).1).1 =
        [⟨"nil\n", .finished⟩, ⟨"true\n", .finished⟩] := by cbv
  refine ⟨?_, ?_⟩
  · obtain ⟨origin, hlines, hjoined⟩ := hjoins failingCall haccepted
    -- with `i` lines in front of source `i` the fault is one line further down
    have horigin : 1 + origin = 2 := by
      have heq := hlines fun i => i
      rw [hturn, hmoved] at heq
      injection heq with _ houtcome
      injection houtcome with hhalt
      injection hhalt with hfault
      injection hfault with hline
      exact hline.symm
    obtain rfl : origin = 1 := Nat.add_left_cancel horigin
    rw [htext, hturn] at hjoined
    exact hjoined
  · have hscript := hdialogue printingLines "print nil;\r\nprint true;\n" (by cbv)
    rw [hreplies] at hscript
    exact hscript (List.forall_mem_cons.mpr ⟨rfl, List.forall_mem_singleton.mpr rfl⟩)

end Lox
