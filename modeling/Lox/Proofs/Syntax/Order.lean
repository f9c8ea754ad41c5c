/-
The order of faults.

The faults of a source are listed in the order of the tokens at which they are located, so that
their lines never decrease, but for the targets of assignments.  A target is judged when the value
behind it has been read, so its fault is listed behind the faults that are found in the value.

* `scanTokens_lines` — the lines of the tokens of a source never decrease;
* `Spot.line_le` — nor do those of two spots that are in the order of the source;
* `parse_faults_ordered` — the faults of a source are in the order of the source, except that the
  fault of a target may stand behind faults that are found in its value;
* `parse_faults_unordered` — there it does stand.
-/
import Lox.Proofs.Syntax.Onward
import Lox.Token.Scan
import Mathlib

namespace Lox

/-! ### Lines of tokens -/

/-- The token of an item is on the line on which its segment ends. -/
theorem Segment.line_of_item? {c : Char} {s : Segment} {line : Nat} {item : Item}
    (h : s.item? c line = some item) : ∀ t ∈ item.token?, t.line = line := by
  unfold Segment.item? at h
  split at h
  · cases h
  · cases h
    rintro t ⟨⟩
    rfl
  · cases h
    rintro t ⟨⟩
  · cases h
    rintro t ⟨⟩

/-- The lines of the tokens of a text begin where the text begins, and never decrease. -/
theorem scanFrom_lines (line : Nat) (cs : List Char) :
    (∀ t ∈ (scanFrom line cs).filterMap Item.token?, line ≤ t.line) ∧
      ((scanFrom line cs).filterMap Item.token?).Pairwise fun t t' => t.line ≤ t'.line := by
  fun_induction scanFrom line cs with
  | case1 line => exact ⟨List.forall_mem_singleton.mpr (Nat.le_refl _), List.pairwise_singleton ..⟩
  | case2 line c cs segment line' _ _ ih =>
    have hle : line ≤ line' := Nat.le_add_right ..
    exact ⟨fun t ht => Nat.le_trans hle (ih.1 t ht), ih.2⟩
  | case3 line c cs segment line' _ item hitem ih =>
    have hle : line ≤ line' := Nat.le_add_right ..
    cases htoken : item.token? with
    | none =>
      rw [List.filterMap_cons_none htoken]
      exact ⟨fun t ht => Nat.le_trans hle (ih.1 t ht), ih.2⟩
    | some t =>
      have hline : t.line = line' := Segment.line_of_item? hitem t htoken
      rw [List.filterMap_cons_some htoken]
      refine ⟨List.forall_mem_cons.mpr ⟨hline ▸ hle, fun t' ht' => Nat.le_trans hle (ih.1 t' ht')⟩,
        List.pairwise_cons.mpr ⟨fun t' ht' => ?_, ih.2⟩⟩
      exact hline ▸ ih.1 t' ht'

/-- The lines of the tokens of a source never decrease. -/
theorem scanTokens_lines (source : String) :
    (scanTokens source).Pairwise fun t t' => t.line ≤ t'.line :=
  (scanFrom_lines 1 source.toList).2

/-- If the lines of tokens never decrease, they do not up to the end of the source either. -/
theorem Cursor.ofTokens_lines {tokens : List Token} (firstId : NodeId)
    (h : tokens.Pairwise fun t t' => t.line ≤ t'.line) :
    let start := Cursor.ofTokens tokens firstId
    start.rest.Pairwise (fun t t' => t.line ≤ t'.line) ∧
      ∀ t ∈ start.rest, t.line ≤ start.endLine := by
  intro start
  refine ⟨h.sublist (List.takeWhile_sublist _), fun t ht => ?_⟩
  show t.line ≤ (Cursor.ofTokens tokens firstId).endLine
  unfold Cursor.ofTokens
  simp only
  cases hend : tokens.find? fun t => t.kind.isEnd with
  | some e =>
    -- the end stands behind the tokens up to it
    obtain ⟨hisEnd, front, back, rfl, hfront⟩ := List.find?_eq_some_iff_append.mp hend
    have hmem : t ∈ (front ++ e :: back).takeWhile fun t => !t.kind.isEnd := ht
    rw [List.takeWhile_append_of_pos fun t ht => hfront t ht,
      List.takeWhile_cons_of_neg (by simp [hisEnd]), List.append_nil] at hmem
    exact (List.pairwise_append.mp h).2.2 t hmem e (List.mem_cons_self ..)
  | none =>
    have hmem : t ∈ tokens := (List.takeWhile_sublist _).mem ht
    -- without an end in the list the source ends on the line of the last token
    rcases List.eq_nil_or_concat tokens with rfl | ⟨front, last, rfl⟩
    · cases hmem
    · rw [List.concat_eq_append] at hmem h ⊢
      rw [List.getLast?_concat]
      rcases List.mem_append.mp hmem with hmem | hmem
      · exact (List.pairwise_append.mp h).2.2 t hmem last (List.mem_singleton_self last)
      · exact Nat.le_of_eq (congrArg Token.line (List.mem_singleton.mp hmem))

/-! ### Lines of faults -/

/-- The line of the token ahead of a spot, or of the end of the source. -/
def Spot.line (endLine : Nat) (s : Spot) : Nat :=
  (s.ahead.headD ⟨.endOfSource, "", endLine⟩).line

/-- Of two spots in the order of the source, the lines are in order. -/
theorem Spot.line_le {all : List Token} {endLine : Nat}
    (hlines : all.Pairwise fun t t' => t.line ≤ t'.line) (hend : ∀ t ∈ all, t.line ≤ endLine)
    {a b : Spot} (ha : a.ahead <:+ all) (hab : b.ahead <:+ a.ahead) :
    a.line endLine ≤ b.line endLine := by
  unfold Spot.line
  cases hb : b.ahead with
  | nil =>
    cases haa : a.ahead with
    | nil => exact Nat.le_refl _
    | cons t ts => exact hend t (ha.mem (haa ▸ List.mem_cons_self ..))
  | cons t' ts' =>
    cases haa : a.ahead with
    | nil =>
      rw [hb, haa] at hab
      exact absurd (List.suffix_nil.mp hab) (List.cons_ne_nil _ _)
    | cons t ts =>
      rw [haa] at ha
      rw [hb, haa] at hab
      have hsorted := List.pairwise_cons.mp (hlines.sublist ha.sublist)
      rcases List.mem_cons.mp (hab.mem (List.mem_cons_self ..)) with rfl | hmem
      · exact Nat.le_refl _
      · exact hsorted.1 t' hmem

/-- The faults of a source are found at spots between its tokens, and are listed in the order of the
spots, so that their lines do not decrease; except that the fault of an assignment target is listed
behind the faults in the value that is assigned, that is, behind faults before which there is
nothing but a part of an expression, seen from the target. -/
theorem parse_faults_ordered (source : String) (firstId : NodeId) :
    let start := Cursor.ofTokens (scanTokens source) firstId
    ∃ spots : List Spot,
      (parse (scanTokens source) firstId).faults = spots.map (Spot.diagnostic start.endLine) ∧
      (∀ s ∈ spots, s.ahead <:+ start.rest) ∧
      spots.Pairwise fun a b =>
        (b.ahead <:+ a.ahead ∧ a.line start.endLine ≤ b.line start.endLine) ∨
          b.fault = .assignmentTarget ∧ ∃ between, b.ahead = between ++ a.ahead ∧
            ∀ t ∈ between, t.kind.inExpression = true := by
  intro start
  obtain ⟨spots, -, hfaults, -, hwithin, hordered⟩ := parse_onward (scanTokens source) firstId
  obtain ⟨hlines, hend⟩ := Cursor.ofTokens_lines firstId (scanTokens_lines source)
  refine ⟨spots, hfaults, hwithin,
    hordered.imp_of_mem fun ha _ hab => hab.imp (fun hsuffix => ?_) id⟩
  exact ⟨hsuffix, Spot.line_le hlines hend (hwithin _ ha) hsuffix⟩

/-- A source with a faulty target in the value of an assignment to a faulty target. -/
def targetInValue : String := "nil =\nnil = nil;"

/-- The fault of the inner target, which is on the second line, is listed in front of that of the
outer one, which is on the first line. -/
theorem parse_faults_unordered :
    let faults := (parse (scanTokens targetInValue) 0).faults
    faults = [.grammar ⟨.mark .equal, "=", 2⟩ .assignmentTarget,
      .grammar ⟨.mark .equal, "=", 1⟩ .assignmentTarget] ∧
      ¬ faults.Pairwise fun d d' => ∀ line ∈ d.line?, ∀ line' ∈ d'.line?, line ≤ line' := by
  have hfaults : (parse (scanTokens targetInValue) 0).faults =
      [.grammar ⟨.mark .equal, "=", 2⟩ .assignmentTarget,
        .grammar ⟨.mark .equal, "=", 1⟩ .assignmentTarget] := by cbv
  intro faults
  refine ⟨hfaults, fun hpairs => ?_⟩
  rw [show faults = _ from hfaults] at hpairs
  have hle : 2 ≤ 1 := (List.pairwise_cons.mp hpairs).1 _ (List.mem_singleton_self _) 2 rfl 1 rfl
  exact absurd hle (by decide)

end Lox
