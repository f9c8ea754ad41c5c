/-
Following a reading.

A descent by positions and a reading from a cursor are followed at once.  From some depth on the
descent has an outcome, which is that of the reading, and it goes onward: it moves forward, and what
it writes down is in order.

* `Parser.Ends` — from some depth on, a descent ends alike;
* `Parser.Tracks` — a descent stands where a cursor does;
* `Parser.Onward` — a descent has moved forward, and so does every note it has written down;
* `Parser.Follows` — a descent ends, with the outcome of a reading, from every cursor before fewer
  than so many tokens;
* `Parser.separated_follows`, `Parser.items_follows` — a loop follows the list that it reads.

Design notes: a bound on the tokens ahead takes the place of the limits of the grammar, and it is
strict, so that there is nothing to show of a bound that is zero.  How deep the calls nest is not
counted: what is followed are descents at all depths at once.  `FollowsAt` speaks of one cursor,
which is what a loop needs: the position at which a turn began is known there, and each turn has to
take a token.
-/
import Lox.Proofs.Syntax.Descent
import Lox.Proofs.Syntax.Lockstep

namespace Lox

/-! ### What is ahead -/

/-- A token of a kind in `k` is ahead. -/
def Cursor.offers (c : Cursor) (k : Kind → Bool) : Bool :=
  c.rest.head?.any fun t => k t.kind

section Ahead

variable {c : Cursor} {k : Kind → Bool} {t : Token} {ts : List Token}

theorem Cursor.ahead_cons (hrest : c.rest = t :: ts) : c.ahead = t := by
  unfold Cursor.ahead
  rw [hrest]
  rfl

theorem Cursor.offers_cons (hrest : c.rest = t :: ts) (k : Kind → Bool) :
    c.offers k = k t.kind := by
  unfold Cursor.offers
  rw [hrest]
  rfl

theorem Cursor.exists_of_offers (h : c.offers k = true) :
    ∃ t ts, c.rest = t :: ts ∧ k t.kind = true := by
  unfold Cursor.offers at h
  cases hrest : c.rest with
  | nil => simp [hrest] at h
  | cons t ts =>
    rw [hrest] at h
    exact ⟨t, ts, rfl, h⟩

/-- Where the token ahead is of other kinds, none of a kind in `k` is ahead. -/
theorem Cursor.not_offers_of_ahead (h : k c.ahead.kind = false) : c.offers k = false := by
  cases hrest : c.rest with
  | nil =>
    unfold Cursor.offers
    rw [hrest]
    rfl
  | cons t ts =>
    rw [Cursor.offers_cons hrest, ← Cursor.ahead_cons hrest]
    exact h

theorem Cursor.not_offers_mark {m : Mark} (h : c.ahead.kind = .mark m → False) :
    c.offers (Kind.isMark m) = false :=
  not_offers_of_ahead (Bool.eq_false_iff.mpr fun hk => h (Concrete.eq_of_isMark hk))

theorem Cursor.not_offers_keyword {w : Keyword} (h : c.ahead.kind = .keyword w → False) :
    c.offers (Kind.isKeyword w) = false :=
  not_offers_of_ahead (Bool.eq_false_iff.mpr fun hk => h (Concrete.eq_of_isKeyword hk))

/-- What is ahead is the first of the tokens ahead, unless it is the end of the source. -/
theorem Cursor.rest_of_ahead (h : c.ahead.kind.isEnd = false) :
    c.rest = c.ahead :: c.rest.tail := by
  cases hrest : c.rest with
  | nil =>
    unfold Cursor.ahead at h
    rw [hrest] at h
    cases h
  | cons t ts => rw [Cursor.ahead_cons hrest, List.tail_cons]

theorem Parse.isAhead_apply (k : Kind → Bool) (c : Cursor) : isAhead k c = .ok (c.offers k) c := by
  unfold isAhead Cursor.offers
  cases c.rest <;> rfl

theorem Parse.accept_of_offers (hrest : c.rest = t :: ts) (hk : k t.kind = true) :
    accept k c = .ok (some t) { c with rest := ts } := by
  unfold accept
  simp only [hrest, hk, if_true]

theorem Parse.accept_of_not_offers (h : c.offers k = false) : accept k c = .ok none c := by
  unfold accept
  cases hrest : c.rest with
  | nil => rfl
  | cons t ts =>
    rw [Cursor.offers_cons hrest] at h
    simp only [h, Bool.false_eq_true, if_false]

end Ahead

namespace Parser

/-! ### Depths -/

/-- From some depth on, a descent ends alike. -/
def Ends {α : Type} (t : Nat → Reading α) (p : Parser) (outcome : Except Diagnostic α)
    (p' : Parser) : Prop :=
  ∃ enough, ∀ depth, enough ≤ depth → t depth p = some (outcome, p')

section Ends

variable {α β : Type} {p p' p'' : Parser}

theorem bind_of_ok {t : Reading α} {next : α → Reading β} {a : α}
    (h : t p = some (.ok a, p')) : (t >>= next) p = next a p' := by
  show (t p >>= fun r => _) = _
  rw [h]
  rfl

theorem bind_of_error {t : Reading α} {next : α → Reading β} {d : Diagnostic}
    (h : t p = some (.error d, p')) : (t >>= next) p = some (.error d, p') := by
  show (t p >>= fun r => _) = _
  rw [h]
  rfl

namespace Ends

variable {t t' : Nat → Reading α} {next : α → Nat → Reading β} {outcome : Except Diagnostic α}

theorem always (h : ∀ depth, t depth p = some (outcome, p')) : Ends t p outcome p' :=
  ⟨0, fun depth _ => h depth⟩

/-- A step takes no depth. -/
theorem step {t : Reading α} (h : t p = some (outcome, p')) : Ends (fun _ => t) p outcome p' :=
  always fun _ => h

/-- A step in front takes no depth. -/
theorem behind (h : Ends t' p' outcome p'') (hstep : ∀ depth, t depth p = t' depth p') :
    Ends t p outcome p'' := by
  obtain ⟨enough, h⟩ := h
  exact ⟨enough, fun depth hdepth => (hstep depth).trans (h depth hdepth)⟩

/-- A call takes one level of depth. -/
theorem deeper (hcall : ∀ depth, t (depth + 1) = t' depth) (h : Ends t' p outcome p') :
    Ends t p outcome p' := by
  obtain ⟨enough, h⟩ := h
  refine ⟨enough + 1, fun depth hdepth => ?_⟩
  obtain ⟨depth, rfl⟩ := Nat.exists_eq_add_one_of_ne_zero (Nat.ne_zero_of_lt hdepth)
  rw [hcall]
  exact h depth (Nat.le_of_succ_le_succ hdepth)

/-- What comes next has the same depth: the greater one of two is enough for both. -/
theorem bind_ok {a : α} {outcome : Except Diagnostic β} (h : Ends t p (.ok a) p')
    (hnext : Ends (next a) p' outcome p'') :
    Ends (fun depth => t depth >>= fun a => next a depth) p outcome p'' := by
  obtain ⟨enough, h⟩ := h
  obtain ⟨enough', hnext⟩ := hnext
  refine ⟨max enough enough', fun depth hdepth => ?_⟩
  have ht := h depth (Nat.le_trans (Nat.le_max_left ..) hdepth)
  have hn := hnext depth (Nat.le_trans (Nat.le_max_right ..) hdepth)
  exact (bind_of_ok ht).trans hn

theorem bind_error {d : Diagnostic} (h : Ends t p (.error d) p') :
    Ends (fun depth => t depth >>= fun a => next a depth) p (.error d) p' := by
  obtain ⟨enough, h⟩ := h
  exact ⟨enough, fun depth hdepth => bind_of_error (h depth hdepth)⟩

/-- A failure that is observed is an outcome like any other. -/
theorem observing (h : Ends t p outcome p') :
    Ends (fun depth => observing (t depth)) p (.ok outcome) p' := by
  obtain ⟨enough, h⟩ := h
  refine ⟨enough, fun depth hdepth => ?_⟩
  show ((t depth p >>= fun r => _) >>= fun r => _) = _
  rw [h depth hdepth]
  cases outcome <;> rfl

end Ends

end Ends

/-! ### Notes -/

/-- The position at which a note is written down. -/
def Note.position : Note → Nat
  | .looked current _ => current
  | .declared _ after => after
  | .turned _ _ after => after

/-- What notes say: no look is ahead of the position, and declarations and turns of loops move
forward. -/
def Note.Forward : Note → Prop
  | .looked current index => index ≤ current
  | .declared before after => before < after
  | .turned _ before after => before < after

/-- A descent has gone from one state to another, and has written down notes. -/
structure Passes (p p' : Parser) (fresh : List Note) : Prop where
  tokens : p'.tokens = p.tokens
  current_le : p.current ≤ p'.current
  notes : p'.notes = fresh ++ p.notes
  forward : ∀ note ∈ fresh, note.Forward
  within : ∀ note ∈ fresh, p.current ≤ note.position ∧ note.position ≤ p'.current
  ordered : fresh.Pairwise fun later earlier => earlier.position ≤ later.position

/-- A descent may have gone from one state to another. -/
def Onward (p p' : Parser) : Prop :=
  ∃ fresh, p.Passes p' fresh

section Onward

variable {p p' p'' : Parser}

theorem Passes.trans {fresh fresh' : List Note} (h : p.Passes p' fresh)
    (h' : p'.Passes p'' fresh') : p.Passes p'' (fresh' ++ fresh) where
  tokens := h'.tokens.trans h.tokens
  current_le := Nat.le_trans h.current_le h'.current_le
  notes := by rw [h'.notes, h.notes, List.append_assoc]
  forward := List.forall_mem_append.mpr ⟨h'.forward, h.forward⟩
  within := List.forall_mem_append.mpr
    ⟨fun n hn => ⟨Nat.le_trans h.current_le (h'.within n hn).1, (h'.within n hn).2⟩,
      fun n hn => ⟨(h.within n hn).1, Nat.le_trans (h.within n hn).2 h'.current_le⟩⟩
  ordered := List.pairwise_append.mpr ⟨h'.ordered, h.ordered, fun later hl earlier he =>
    Nat.le_trans (h.within earlier he).2 (h'.within later hl).1⟩

theorem Onward.trans (h : p.Onward p') (h' : p'.Onward p'') : p.Onward p'' := by
  obtain ⟨fresh, h⟩ := h
  obtain ⟨fresh', h'⟩ := h'
  exact ⟨_, h.trans h'⟩

/-- Nothing is written down. -/
theorem Onward.quiet (htokens : p'.tokens = p.tokens) (hcurrent : p.current ≤ p'.current)
    (hnotes : p'.notes = p.notes) : p.Onward p' :=
  ⟨[], htokens, hcurrent, hnotes, fun _ h => absurd h List.not_mem_nil,
    fun _ h => absurd h List.not_mem_nil, .nil⟩

theorem Onward.refl (p : Parser) : p.Onward p := .quiet rfl (Nat.le_refl _) rfl

/-- A note is written down at the position. -/
theorem Onward.note {note : Note} (hnote : note.Forward) (hposition : note.position = p.current) :
    p.Onward { p with notes := note :: p.notes } :=
  ⟨[note], rfl, Nat.le_refl _, rfl, List.forall_mem_singleton.mpr hnote,
    List.forall_mem_singleton.mpr ⟨Nat.le_of_eq hposition.symm, Nat.le_of_eq hposition⟩,
    List.pairwise_singleton ..⟩

end Onward

/-- A descent has looked at tokens, and nothing else has happened. -/
structure Sees (p p' : Parser) : Prop where
  still : p' = { p with notes := p'.notes }
  onward : p.Onward p'

namespace Sees

variable {p p' p'' : Parser}

theorem trans (h : p.Sees p') (h' : p'.Sees p'') : p.Sees p'' where
  still := by
    rw [h'.still, h.still]
  onward := h.onward.trans h'.onward

theorem tokens (h : p.Sees p') : p'.tokens = p.tokens := by rw [h.still]

theorem current (h : p.Sees p') : p'.current = p.current := by rw [h.still]

end Sees

/-! ### A descent and a cursor -/

theorem shown_of_not_end {t : Token} (h : t.kind.isEnd = false) : shown t = t := by
  unfold shown
  simp only [h, Bool.false_eq_true, if_false]

theorem kind_shown (t : Token) : (shown t).kind = t.kind := by
  obtain ⟨kind, lexeme, line⟩ := t
  cases kind <;> rfl

/-- A descent stands where a cursor does: the tokens ahead of the cursor are those from the position
to the first end of the source, which is at `stop`. -/
structure Tracks (stop : Nat) (p : Parser) (c : Cursor) : Prop where
  stop_eq : p.current + c.rest.length = stop
  ahead : ∃ last beyond, p.tokens.drop p.current = c.rest ++ last :: beyond ∧
    last.kind.isEnd = true ∧ last.line = c.endLine
  proper : ∀ t ∈ c.rest, t.kind.isEnd = false
  nextId : p.nextId = c.nextId
  faults : p.faults = c.faults

section Tracks

variable {stop : Nat} {p p' : Parser} {c : Cursor}

theorem Tracks.sees (h : Tracks stop p c) (hs : p.Sees p') : Tracks stop p' c := by
  rw [hs.still]
  exact ⟨h.stop_eq, h.ahead, h.proper, h.nextId, h.faults⟩

/-- The next token of the descent is the one ahead of the cursor; at the end of the source they
have their line in common. -/
theorem Tracks.next (h : Tracks stop p c) :
    ∃ t, p.tokens[p.current]? = some t ∧ shown t = c.ahead ∧ t.kind.isEnd = c.rest.isEmpty := by
  obtain ⟨last, beyond, hdrop, hend, hline⟩ := h.ahead
  have hnext : p.tokens[p.current]? = (c.rest ++ last :: beyond).head? := by
    rw [← hdrop, List.head?_drop]
  unfold shown Cursor.ahead
  cases hrest : c.rest with
  | nil =>
    rw [hrest] at hnext
    exact ⟨last, hnext, by simp [hend, hline], hend⟩
  | cons t ts =>
    rw [hrest] at hnext
    have ht : t.kind.isEnd = false := h.proper t (by simp [hrest])
    exact ⟨t, hnext, by simp [ht], ht⟩

theorem Tracks.next_cons {t : Token} {ts : List Token} (h : Tracks stop p c)
    (hrest : c.rest = t :: ts) : p.tokens[p.current]? = some t := by
  obtain ⟨u, hu, hshown, hend⟩ := h.next
  rw [hu, ← Cursor.ahead_cons hrest, ← hshown, shown_of_not_end]
  rw [hend, hrest]
  rfl

/-- There is a token behind the position, or a first one. -/
theorem Tracks.behind (h : Tracks stop p c) : ∃ t, p.tokens[p.current - 1]? = some t := by
  obtain ⟨t, ht, -⟩ := h.next
  obtain ⟨hlt, -⟩ := List.getElem?_eq_some_iff.mp ht
  exact ⟨_, List.getElem?_eq_getElem (by omega)⟩

/-- Behind the next token, the descent has moved by one position. -/
theorem Tracks.step {t : Token} {ts : List Token} (h : Tracks stop p c) (hrest : c.rest = t :: ts) :
    Tracks stop { p with current := p.current + 1 } { c with rest := ts } := by
  obtain ⟨last, beyond, hdrop, hlast⟩ := h.ahead
  have hstop := h.stop_eq
  rw [hrest, List.length_cons] at hstop
  refine ⟨by simp only; omega, ⟨last, beyond, ?_, hlast⟩, fun u hu => h.proper u ?_, h.nextId,
    h.faults⟩
  · simp only
    rw [← List.drop_drop, hdrop, hrest]
    rfl
  · rw [hrest]
    exact List.mem_cons_of_mem t hu

/-- Where a descent has moved on, no more tokens are ahead. -/
theorem Tracks.length_le {c' : Cursor} (h : Tracks stop p c) (h' : Tracks stop p' c')
    (honward : p.Onward p') : c'.rest.length ≤ c.rest.length := by
  obtain ⟨fresh, hpasses⟩ := honward
  have hle := hpasses.current_le
  have hstop := h.stop_eq
  have hstop' := h'.stop_eq
  omega

/-- A fault is written down by both. -/
theorem Tracks.report (h : Tracks stop p c) (d : Diagnostic) :
    Tracks stop { p with faults := d :: p.faults } { c with faults := d :: c.faults } :=
  ⟨h.stop_eq, h.ahead, h.proper, h.nextId, congrArg (d :: ·) h.faults⟩

end Tracks

/-! ### Steps of a descent -/

section Steps

variable {stop : Nat} {p p' : Parser} {c : Cursor}

theorem look_of_some {index : Nat} {t : Token} (h : p.tokens[index]? = some t)
    (hindex : index ≤ p.current) : ∃ p', look index p = some (.ok t, p') ∧ p.Sees p' := by
  refine ⟨{ p with notes := .looked p.current index :: p.notes }, ?_, rfl,
    .note hindex rfl⟩
  show Option.map _ p.tokens[index]? = _
  rw [h]
  rfl

theorem peek_of_some {t : Token} (h : p.tokens[p.current]? = some t) :
    ∃ p', peek p = some (.ok t, p') ∧ p.Sees p' :=
  look_of_some h (Nat.le_refl _)

theorem peek_tracks (h : Tracks stop p c) : ∃ t p', peek p = some (.ok t, p') ∧ p.Sees p' ∧
    shown t = c.ahead ∧ t.kind.isEnd = c.rest.isEmpty := by
  obtain ⟨t, ht, hshown, hend⟩ := h.next
  obtain ⟨p', hpeek, hsees⟩ := peek_of_some ht
  exact ⟨t, p', hpeek, hsees, hshown, hend⟩

theorem previous_of_some {t : Token} (h : p.tokens[p.current - 1]? = some t) :
    ∃ p', previous p = some (.ok t, p') ∧ p.Sees p' :=
  look_of_some h (Nat.sub_le ..)

theorem isAtEnd_tracks (h : Tracks stop p c) :
    ∃ p', isAtEnd p = some (.ok c.rest.isEmpty, p') ∧ p.Sees p' := by
  obtain ⟨t, p', hpeek, hsees, -, hend⟩ := peek_tracks h
  refine ⟨p', ?_, hsees⟩
  unfold isAtEnd
  rw [bind_of_ok hpeek, hend]
  rfl

/-- A token of a kind in `k` is next just if one is ahead of the cursor. -/
theorem check_tracks (h : Tracks stop p c) (k : Kind → Bool) :
    ∃ p', check k p = some (.ok (c.offers k), p') ∧ p.Sees p' := by
  obtain ⟨p₁, hatEnd, hsees⟩ := isAtEnd_tracks h
  unfold check Cursor.offers
  rw [bind_of_ok hatEnd]
  cases hrest : c.rest with
  | nil => exact ⟨p₁, rfl, hsees⟩
  | cons t ts =>
    obtain ⟨p₂, hpeek, hsees'⟩ := peek_of_some ((h.sees hsees).next_cons hrest)
    refine ⟨p₂, ?_, hsees.trans hsees'⟩
    simp only [List.isEmpty_cons, Bool.false_eq_true, if_false]
    rw [bind_of_ok hpeek]
    rfl

theorem advance_tracks {t : Token} {ts : List Token} (h : Tracks stop p c)
    (hrest : c.rest = t :: ts) :
    ∃ p', advance p = some (.ok t, p') ∧ Tracks stop p' { c with rest := ts } ∧ p.Onward p' ∧
      p'.tokens[p'.current - 1]? = some t := by
  obtain ⟨p₁, hatEnd, hsees⟩ := isAtEnd_tracks h
  have htracks := (h.sees hsees).step hrest
  have ht : p₁.tokens[p₁.current]? = some t := (h.sees hsees).next_cons hrest
  obtain ⟨p₂, hprevious, hsees'⟩ := previous_of_some (p := { p₁ with current := p₁.current + 1 }) ht
  have hmoved : p₁.Onward { p₁ with current := p₁.current + 1 } :=
    .quiet rfl (Nat.le_succ _) rfl
  refine ⟨p₂, ?_, htracks.sees hsees', hsees.onward.trans (hmoved.trans hsees'.onward), ?_⟩
  · unfold advance
    rw [bind_of_ok hatEnd, hrest]
    exact hprevious
  · rw [hsees'.tokens, hsees'.current]
    exact ht

/-- At the end of the source, a descent does not move. -/
theorem advance_at_end (h : Tracks stop p c) (hrest : c.rest = []) :
    ∃ t p', advance p = some (.ok t, p') ∧ p.Sees p' := by
  obtain ⟨p₁, hatEnd, hsees⟩ := isAtEnd_tracks h
  obtain ⟨t, ht⟩ := (h.sees hsees).behind
  obtain ⟨p₂, hprevious, hsees'⟩ := previous_of_some ht
  refine ⟨t, p₂, ?_, hsees.trans hsees'⟩
  unfold advance
  rw [bind_of_ok hatEnd, hrest]
  exact hprevious

theorem takes_of_false {k : Kind → Bool} (h : Tracks stop p c) (hk : c.offers k = false) :
    ∃ p', takes k p = some (.ok false, p') ∧ p.Sees p' := by
  obtain ⟨p₁, hcheck, hsees⟩ := check_tracks h k
  refine ⟨p₁, ?_, hsees⟩
  unfold takes
  rw [bind_of_ok hcheck, hk]
  rfl

theorem takes_of_true {k : Kind → Bool} {t : Token} {ts : List Token} (h : Tracks stop p c)
    (hrest : c.rest = t :: ts) (hk : k t.kind = true) :
    ∃ p', takes k p = some (.ok true, p') ∧ Tracks stop p' { c with rest := ts } ∧ p.Onward p' ∧
      p'.tokens[p'.current - 1]? = some t := by
  obtain ⟨p₁, hcheck, hsees⟩ := check_tracks h k
  obtain ⟨p₂, hadvance, htracks, honward, hbehind⟩ := advance_tracks (h.sees hsees) hrest
  refine ⟨p₂, ?_, htracks, hsees.onward.trans honward, hbehind⟩
  unfold takes
  rw [bind_of_ok hcheck, Cursor.offers_cons hrest, hk]
  exact bind_of_ok hadvance

/-- A note is written down once the descent has moved on. -/
theorem turned_tracks {c' : Cursor} (loop : Loop) (h : Tracks stop p c) (h' : Tracks stop p' c')
    (hlength : c'.rest.length < c.rest.length) :
    ∃ p'', turned loop p.current p' = some (.ok (), p'') ∧ p'.Sees p'' := by
  have hstop := h.stop_eq
  have hstop' := h'.stop_eq
  have hnote : (Note.turned loop p.current p'.current).Forward := by
    show p.current < p'.current
    omega
  exact ⟨_, rfl, rfl, .note hnote rfl⟩

theorem declared_tracks {c' : Cursor} (h : Tracks stop p c) (h' : Tracks stop p' c')
    (hlength : c'.rest.length < c.rest.length) :
    ∃ p'', declared p.current p' = some (.ok (), p'') ∧ p'.Sees p'' := by
  have hstop := h.stop_eq
  have hstop' := h'.stop_eq
  have hnote : (Note.declared p.current p'.current).Forward := by
    show p.current < p'.current
    omega
  exact ⟨_, rfl, rfl, .note hnote rfl⟩

/-- Skipping moves past one token each time it goes on, up to where reading resumes. -/
theorem skip_tracks {t : Token} {ts : List Token} (h : Tracks stop p c) (hrest : c.rest = ts)
    (hbehind : p.tokens[p.current - 1]? = some t) :
    ∃ p', Ends skip p (.ok ()) p' ∧ Tracks stop p' { c with rest := resumeAfter t ts } ∧
      p.Onward p' := by
  -- each turn skips one of the tokens ahead
  induction ts generalizing p c t with
  | nil =>
    obtain ⟨p₁, hatEnd, hsees⟩ := isAtEnd_tracks h
    have hstill : { c with rest := resumeAfter t [] } = c := by rw [resumeAfter, ← hrest]
    refine ⟨p₁, .deeper skip.eq_2 (.always fun _ => ?_), hstill ▸ h.sees hsees, hsees.onward⟩
    rw [bind_of_ok hatEnd, hrest]
    rfl
  | cons u us ih =>
    obtain ⟨p₁, hatEnd, hsees₁⟩ := isAtEnd_tracks h
    have hp₁ := h.sees hsees₁
    obtain ⟨p₂, hprevious, hsees₂⟩ := previous_of_some (p := p₁) (t := t) (by
      rw [hsees₁.tokens, hsees₁.current]
      exact hbehind)
    have hsees₂ := hsees₁.trans hsees₂
    have hp₂ := h.sees hsees₂
    obtain ⟨p₃, hpeek, hsees₃⟩ := peek_of_some (hp₂.next_cons hrest)
    have hsees₃ := hsees₂.trans hsees₃
    have hp₃ := h.sees hsees₃
    have hstill : { c with rest := u :: us } = c := by rw [← hrest]
    have hahead : isAtEnd p = some (.ok false, p₁) := by rw [hatEnd, hrest]; rfl
    unfold resumeAfter
    cases hsemicolon : t.kind.isMark .semicolon with
    | true =>
      refine ⟨p₂, .deeper skip.eq_2 (.always fun _ => ?_), hstill ▸ hp₂, hsees₂.onward⟩
      simp only [bind_of_ok hahead, bind_of_ok hprevious, hsemicolon, if_true, Bool.false_eq_true,
        if_false]
      rfl
    | false =>
      simp only [Bool.false_or]
      cases hbegins : u.kind.beginsStatement with
      | true =>
        refine ⟨p₃, .deeper skip.eq_2 (.always fun _ => ?_), hstill ▸ hp₃, hsees₃.onward⟩
        simp only [bind_of_ok hahead, bind_of_ok hprevious, bind_of_ok hpeek, hsemicolon, hbegins,
          if_true, Bool.false_eq_true, if_false]
        rfl
      | false =>
        -- the token that is skipped is the one behind the position on the next turn
        obtain ⟨p₄, hadvance, hp₄, honward, hbehind₄⟩ := advance_tracks hp₃ hrest
        obtain ⟨p₅, hturned, hsees₅⟩ := turned_tracks .skip hp₃ hp₄ (by simp [hrest])
        have hbehind₅ : p₅.tokens[p₅.current - 1]? = some u := by
          rw [hsees₅.tokens, hsees₅.current]
          exact hbehind₄
        obtain ⟨p₆, hskip, hp₆, honward₆⟩ := ih (hp₄.sees hsees₅) rfl hbehind₅
        refine ⟨p₆, .deeper skip.eq_2 (hskip.behind fun _ => ?_), hp₆, hsees₃.onward.trans
          (honward.trans (hsees₅.onward.trans honward₆))⟩
        simp only [bind_of_ok hahead, bind_of_ok hprevious, bind_of_ok hpeek, hsemicolon, hbegins,
          Bool.false_eq_true, if_false]
        exact (bind_of_ok hadvance).trans (bind_of_ok hturned)

/-- Skipping to the next statement is what reading resumes with. -/
theorem synchronize_tracks (h : Tracks stop p c) :
    ∃ p', Ends synchronize p (.ok ()) p' ∧ Tracks stop p' { c with rest := resume c.rest } ∧
      p.Onward p' := by
  cases hrest : c.rest with
  | nil =>
    obtain ⟨t, p₁, hadvance, hsees⟩ := advance_at_end h hrest
    obtain ⟨u, hbehind⟩ := (h.sees hsees).behind
    obtain ⟨p₂, hskip, hp₂, honward⟩ := skip_tracks (h.sees hsees) hrest hbehind
    exact ⟨p₂, hskip.behind fun _ => bind_of_ok hadvance, hp₂, hsees.onward.trans honward⟩
  | cons t ts =>
    obtain ⟨p₁, hadvance, hp₁, honward, hbehind⟩ := advance_tracks h hrest
    obtain ⟨p₂, hskip, hp₂, honward'⟩ := skip_tracks hp₁ rfl hbehind
    exact ⟨p₂, hskip.behind fun _ => bind_of_ok hadvance, hp₂, honward.trans honward'⟩

end Steps

/-! ### Following a reading -/

/-- From where they stand, a descent ends, with the outcome of the reading: it stands where the
cursor does again, and if the reading succeeds, it is behind so many tokens at least. -/
def FollowsFrom {α : Type} (stop least : Nat) (p : Parser) (c : Cursor)
    (t : Nat → Reading α) (m : Parse α) : Prop :=
  ∃ outcome p', Ends t p outcome p' ∧ p.Onward p' ∧
    match m c with
    | .ok a c' => outcome = .ok a ∧ Tracks stop p' c' ∧ c'.rest.length + least ≤ c.rest.length
    | .error d c' => outcome = .error d ∧ Tracks stop p' c'

/-- A descent does so wherever it stands where a cursor does. -/
def FollowsAt {α : Type} (stop least : Nat) (c : Cursor) (t : Nat → Reading α)
    (m : Parse α) : Prop :=
  ∀ p, Tracks stop p c → FollowsFrom stop least p c t m

/-- A descent does so for all cursors before fewer than `n` tokens. -/
def Follows {α : Type} (stop n least : Nat) (t : Nat → Reading α) (m : Parse α) :
    Prop :=
  ∀ c : Cursor, c.rest.length < n → FollowsAt stop least c t m

section Rules

variable {α β : Type} {stop n least most : Nat} {p : Parser} {c : Cursor}
variable {t t' : Nat → Reading α} {m : Parse α}

theorem FollowsFrom.bind {next : α → Nat → Reading β} {next' : α → Parse β}
    (h : FollowsFrom stop least p c t m)
    (hnext : ∀ a c', m c = .ok a c' → c'.rest.length + least ≤ c.rest.length →
      FollowsAt stop (most - least) c' (next a) (next' a)) :
    FollowsFrom stop most p c (fun depth => t depth >>= fun a => next a depth) (m >>= next') := by
  obtain ⟨outcome, p₁, ht, honward, h⟩ := h
  unfold FollowsFrom
  rw [Parse.bind_apply]
  cases hm : m c with
  | error d c' =>
    rw [hm] at h
    obtain ⟨rfl, htracks⟩ := h
    exact ⟨.error d, p₁, ht.bind_error, honward, rfl, htracks⟩
  | ok a c' =>
    rw [hm] at h
    obtain ⟨rfl, htracks, hlength⟩ := h
    -- what is left to take is what the first part has not taken
    obtain ⟨outcome, p₂, hn, honward', h⟩ := hnext a c' hm hlength p₁ htracks
    refine ⟨outcome, p₂, ht.bind_ok hn, honward.trans honward', ?_⟩
    simp only
    cases hm' : next' a c' with
    | error d c'' =>
      rw [hm'] at h
      exact h
    | ok b c'' =>
      rw [hm'] at h
      exact ⟨h.1, h.2.1, by omega⟩

theorem FollowsAt.bind {next : α → Nat → Reading β} {next' : α → Parse β}
    (h : FollowsAt stop least c t m)
    (hnext : ∀ a c', m c = .ok a c' → c'.rest.length + least ≤ c.rest.length →
      FollowsAt stop (most - least) c' (next a) (next' a)) :
    FollowsAt stop most c (fun depth => t depth >>= fun a => next a depth) (m >>= next') :=
  fun p hp => (h p hp).bind hnext

theorem Follows.bind {next : α → Nat → Reading β} {next' : α → Parse β}
    (h : Follows stop n least t m)
    (hnext : ∀ a, Follows stop (n - least) (most - least) (next a) (next' a)) :
    Follows stop n most (fun depth => t depth >>= fun a => next a depth) (m >>= next') :=
  fun c hc => (h c hc).bind fun a c' _ hlength => hnext a c' (by omega)

theorem FollowsAt.pure (a : α) : FollowsAt stop 0 c (fun _ => pure a) (pure a) :=
  fun p hp => ⟨.ok a, p, .step rfl, .refl p, rfl, hp, Nat.le_refl _⟩

theorem Follows.pure (a : α) : Follows stop n 0 (fun _ => pure a) (pure a) :=
  fun _ _ => .pure a

theorem FollowsAt.weaken {fewer : Nat} (h : FollowsAt stop least c t m) (hle : fewer ≤ least) :
    FollowsAt stop fewer c t m := by
  intro p hp
  obtain ⟨outcome, p', ht, honward, h⟩ := h p hp
  refine ⟨outcome, p', ht, honward, ?_⟩
  cases hm : m c with
  | error d c' =>
    rw [hm] at h
    exact h
  | ok a c' =>
    rw [hm] at h
    exact ⟨h.1, h.2.1, by omega⟩

theorem Follows.weaken {fewer : Nat} (h : Follows stop n least t m) (hle : fewer ≤ least) :
    Follows stop n fewer t m :=
  fun c hc => (h c hc).weaken hle

theorem Follows.mono {n' : Nat} (h : Follows stop n least t m) (hn : n' ≤ n) :
    Follows stop n' least t m :=
  fun c hc => h c (Nat.lt_of_lt_of_le hc hn)

/-- What is done with the results alone takes no tokens. -/
theorem Follows.map (f : α → β) (h : Follows stop n least t m) :
    Follows stop n least (fun depth => f <$> t depth) (f <$> m) := by
  simp only [map_eq_pure_bind]
  exact h.bind fun a => (Nat.sub_self least).symm ▸ .pure (f a)

theorem FollowsAt.congr {m' : Parse α} (h : FollowsAt stop least c t m') (hm : m c = m' c) :
    FollowsAt stop least c t m := by
  intro p hp
  unfold FollowsFrom
  rw [hm]
  exact h p hp

/-- A reading that is another one as long as the bound holds. -/
theorem Follows.congr {m' : Parse α} (h : Follows stop n least t m')
    (hm : ∀ c : Cursor, c.rest.length < n → m c = m' c) : Follows stop n least t m :=
  fun c hc => (h c hc).congr (hm c hc)

/-- Looking at tokens first changes nothing. -/
theorem FollowsFrom.sees {p' : Parser} {s : Nat → Reading α}
    (h : FollowsFrom stop least p' c t m) (hs : ∀ depth, s depth p = t depth p')
    (hsees : p.Sees p') : FollowsFrom stop least p c s m := by
  obtain ⟨outcome, p'', ht, honward, h⟩ := h
  exact ⟨outcome, p'', ht.behind hs, hsees.onward.trans honward, h⟩

/-- A call takes one level of depth. -/
theorem FollowsFrom.deeper (hcall : ∀ depth, t (depth + 1) = t' depth)
    (h : FollowsFrom stop least p c t' m) : FollowsFrom stop least p c t m := by
  obtain ⟨outcome, p', ht, honward, h⟩ := h
  exact ⟨outcome, p', ht.deeper hcall, honward, h⟩

theorem FollowsAt.deeper (hcall : ∀ depth, t (depth + 1) = t' depth)
    (h : FollowsAt stop least c t' m) : FollowsAt stop least c t m :=
  fun p hp => (h p hp).deeper hcall

theorem Follows.deeper (hcall : ∀ depth, t (depth + 1) = t' depth)
    (h : Follows stop n least t' m) : Follows stop n least t m :=
  fun c hc => (h c hc).deeper hcall

end Rules

/-! ### Steps and what they follow -/

section Primitives

variable {α : Type} {stop n least : Nat} {p : Parser} {c : Cursor}

/-- The position is what is left to the end of the source. -/
theorem FollowsAt.position {next : Nat → Nat → Reading α} {m : Parse α}
    (h : ∀ before, before + c.rest.length = stop → FollowsAt stop least c (next before) m) :
    FollowsAt stop least c (fun depth => position >>= fun before => next before depth) m :=
  fun p hp => (h p.current hp.stop_eq p hp).sees (fun _ => rfl) ⟨rfl, .refl p⟩

/-- A turn of a loop is written down behind the position at which it began. -/
theorem FollowsAt.turned {t : Nat → Reading α} {m : Parse α} {before : Nat} (loop : Loop)
    (hbefore : before + c.rest.length < stop) (h : FollowsAt stop least c t m) :
    FollowsAt stop least c (fun depth => turned loop before >>= fun _ => t depth) m := by
  intro p hp
  have hstop := hp.stop_eq
  have hnote : (Note.turned loop before p.current).Forward := by
    show before < p.current
    omega
  have hsees : p.Sees { p with notes := .turned loop before p.current :: p.notes } :=
    ⟨rfl, .note hnote rfl⟩
  exact (h _ (hp.sees hsees)).sees (fun _ => rfl) hsees

theorem check_follows (k : Kind → Bool) :
    Follows stop n 0 (fun _ => check k) (Parse.isAhead k) := by
  intro c _ p hp
  obtain ⟨p', hcheck, hsees⟩ := check_tracks hp k
  refine ⟨_, p', .step hcheck, hsees.onward, ?_⟩
  rw [Parse.isAhead_apply]
  exact ⟨rfl, hp.sees hsees, Nat.le_refl _⟩

theorem freshId_follows : Follows stop n 0 (fun _ => freshId) Parse.freshId := fun _ _ _ hp =>
  ⟨_, _, .step rfl, .quiet rfl (Nat.le_refl _) rfl, congrArg _ hp.nextId,
    ⟨hp.stop_eq, hp.ahead, hp.proper, congrArg (· + 1) hp.nextId, hp.faults⟩, Nat.le_refl _⟩

/-- Faults that are shown alike are written down alike. -/
theorem report_followsAt {t u : Token} (h : shown t = u) (fault : GrammarFault) :
    FollowsAt stop 0 c (fun _ => report (blame t fault)) (Parse.report u fault) := by
  subst h
  exact fun p hp =>
    ⟨_, _, .step rfl, .quiet rfl (Nat.le_refl _) rfl, rfl, hp.report _, Nat.le_refl _⟩

theorem throw_followsAt {t u : Token} (h : shown t = u) (fault : GrammarFault) :
    FollowsAt stop least c (fun _ => (throw (blame t fault) : Reading α)) (Parse.failAt u fault) :=
  fun p hp => ⟨_, p, .step rfl, .refl p, by rw [← h]; rfl, hp⟩

theorem FollowsAt.check {k : Kind → Bool} {next : Bool → Nat → Reading α} {m : Parse α}
    (h : FollowsAt stop least c (next (c.offers k)) m) :
    FollowsAt stop least c (fun depth => check k >>= fun b => next b depth) m := by
  intro p hp
  obtain ⟨p', hcheck, hsees⟩ := check_tracks hp k
  exact (h p' (hp.sees hsees)).sees (fun _ => bind_of_ok hcheck) hsees

theorem FollowsAt.isAtEnd {next : Bool → Nat → Reading α} {m : Parse α}
    (h : FollowsAt stop least c (next c.rest.isEmpty) m) :
    FollowsAt stop least c (fun depth => isAtEnd >>= fun b => next b depth) m := by
  intro p hp
  obtain ⟨p', hatEnd, hsees⟩ := isAtEnd_tracks hp
  exact (h p' (hp.sees hsees)).sees (fun _ => bind_of_ok hatEnd) hsees

/-- What is done with the next token, which is shown as the one ahead of the cursor. -/
theorem FollowsAt.peek {next : Token → Nat → Reading α} {next' : Token → Parse α}
    (h : ∀ t, shown t = c.ahead → FollowsAt stop least c (next t) (next' c.ahead)) :
    FollowsAt stop least c (fun depth => peek >>= fun t => next t depth)
      (Parse.peek >>= next') := by
  intro p hp
  obtain ⟨t, p', hpeek, hsees, hshown, -⟩ := peek_tracks hp
  exact (h t hshown p' (hp.sees hsees)).sees (fun _ => bind_of_ok hpeek) hsees

/-- A reading that looks at the token ahead knows it. -/
theorem FollowsAt.ofPeek {t : Nat → Reading α} {next : Token → Parse α}
    (h : FollowsAt stop least c t (next c.ahead)) :
    FollowsAt stop least c t (Parse.peek >>= next) :=
  h.congr rfl

/-- No token is taken. -/
theorem FollowsAt.leave {k : Kind → Bool} {yes no : Nat → Reading α} {m : Parse α}
    (hk : c.offers k = false) (h : FollowsAt stop least c no m) :
    FollowsAt stop least c (fun depth => do if ← takes k then yes depth else no depth) m := by
  intro p hp
  obtain ⟨p', htakes, hsees⟩ := takes_of_false hp hk
  have hstep (depth : Nat) : (do if ← takes k then yes depth else no depth) p = no depth p' :=
    bind_of_ok htakes
  exact (h p' (hp.sees hsees)).sees hstep hsees

/-- Behind the token ahead, a descent and a reading go on. -/
theorem FollowsFrom.moved {q : Parser} {s t : Nat → Reading α} {m m' : Parse α} {token : Token}
    {ts : List Token} (h : FollowsFrom stop (least - 1) q { c with rest := ts } t m)
    (hs : ∀ depth, s depth p = t depth q) (honward : p.Onward q) (hrest : c.rest = token :: ts)
    (hm : m' c = m { c with rest := ts }) : FollowsFrom stop least p c s m' := by
  obtain ⟨outcome, p', ht, honward', h⟩ := h
  refine ⟨outcome, p', ht.behind hs, honward.trans honward', ?_⟩
  rw [hm, hrest, List.length_cons]
  split at h
  · exact ⟨h.1, h.2.1, by simp only at h; omega⟩
  · exact h

/-- The token ahead is taken, and is the one behind the position then. -/
theorem FollowsAt.take_of {k : Kind → Bool} {yes no : Nat → Reading α} {m m' : Parse α} {t : Token}
    {ts : List Token} (hrest : c.rest = t :: ts) (hk : k t.kind = true)
    (hm : m c = m' { c with rest := ts })
    (h : ∀ q, Tracks stop q { c with rest := ts } → q.tokens[q.current - 1]? = some t →
      FollowsFrom stop (least - 1) q { c with rest := ts } yes m') :
    FollowsAt stop least c (fun depth => do if ← takes k then yes depth else no depth) m := by
  intro p hp
  obtain ⟨q, htakes, hq, honward, hbehind⟩ := takes_of_true hp hrest hk
  exact (h q hq hbehind).moved (fun _ => bind_of_ok htakes) honward hrest hm

/-- No token is taken, since the one ahead is of another kind. -/
theorem FollowsAt.pass {k : Kind → Bool} {yes no : Nat → Reading α} {m : Parse α} {kind : Kind}
    (h : c.ahead.kind = kind) (hk : k kind = false) (hno : FollowsAt stop least c no m) :
    FollowsAt stop least c (fun depth => do if ← takes k then yes depth else no depth) m :=
  .leave (Cursor.not_offers_of_ahead (h ▸ hk)) hno

/-- The token ahead is taken, since it is of a kind in `k`. -/
theorem FollowsAt.take {k : Kind → Bool} {yes no : Nat → Reading α} {m : Parse α} {kind : Kind}
    (h : c.ahead.kind = kind) (hend : kind.isEnd = false) (hk : k kind = true)
    (hc : c.rest.length < n + 1) (hyes : Follows stop n 0 yes m) :
    FollowsAt stop 1 c (fun depth => do if ← takes k then yes depth else no depth)
      (do Parse.advance; m) := by
  have hrest := Cursor.rest_of_ahead (h ▸ hend)
  rw [hrest, List.length_cons] at hc
  exact .take_of hrest (h ▸ hk) rfl fun q hq _ => hyes _ (Nat.lt_of_succ_lt_succ hc) q hq

/-- The token ahead is taken, and asked for behind the position then. -/
theorem FollowsAt.takeToken {k : Kind → Bool} {yes : Token → Nat → Reading α} {no : Nat → Reading α}
    {m : Parse α} {kind : Kind} (h : c.ahead.kind = kind) (hend : kind.isEnd = false)
    (hk : k kind = true) (hc : c.rest.length < n + 1)
    (hyes : Follows stop n 0 (yes c.ahead) m) :
    FollowsAt stop 1 c (fun depth => do if ← takes k then (do yes (← previous) depth) else no depth)
      (do Parse.advance; m) := by
  have hrest := Cursor.rest_of_ahead (h ▸ hend)
  rw [hrest, List.length_cons] at hc
  refine .take_of hrest (h ▸ hk) rfl fun q hq hbehind => ?_
  obtain ⟨q', hprevious, hsees⟩ := previous_of_some hbehind
  exact (hyes _ (Nat.lt_of_succ_lt_succ hc) q' (hq.sees hsees)).sees
    (fun _ => bind_of_ok hprevious) hsees

/-- The token ahead is taken, whatever it is. -/
theorem FollowsAt.advance {t : Nat → Reading α} {m : Parse α}
    (hrest : c.rest = c.ahead :: c.rest.tail)
    (h : FollowsAt stop (least - 1) { c with rest := c.rest.tail } t m) :
    FollowsAt stop least c (fun depth => do let _ ← advance; t depth) (do Parse.advance; m) := by
  intro p hp
  obtain ⟨q, hadvance, hq, honward, -⟩ := advance_tracks hp hrest
  exact (h q hq).moved (fun _ => bind_of_ok hadvance) honward hrest rfl

/-- A token is taken, or none is. -/
theorem FollowsAt.accept_of {k : Kind → Bool} {yes no : Nat → Reading α}
    {next : Option Token → Parse α} (hno : FollowsAt stop least c no (next none))
    (hyes : ∀ t ts q, c.rest = t :: ts → k t.kind = true → Tracks stop q { c with rest := ts } →
      q.tokens[q.current - 1]? = some t →
      FollowsFrom stop (least - 1) q { c with rest := ts } yes (next (some t))) :
    FollowsAt stop least c (fun depth => do if ← takes k then yes depth else no depth)
      (Parse.accept k >>= next) := by
  cases hk : c.offers k with
  | true =>
    obtain ⟨t, ts, hrest, ht⟩ := Cursor.exists_of_offers hk
    refine .take_of hrest ht ?_ fun q hq hbehind => hyes t ts q hrest ht hq hbehind
    rw [Parse.bind_apply, Parse.accept_of_offers hrest ht]
  | false =>
    have hnone : (Parse.accept k >>= next) c = next none c := by
      rw [Parse.bind_apply, Parse.accept_of_not_offers hk]
    exact (FollowsAt.leave hk hno).congr hnone

theorem FollowsAt.accept {k : Kind → Bool} {yes no : Nat → Reading α}
    {next : Option Token → Parse α}
    (hno : FollowsAt stop least c no (next none))
    (hyes : ∀ t ts, c.rest = t :: ts →
      FollowsAt stop (least - 1) { c with rest := ts } yes (next (some t))) :
    FollowsAt stop least c (fun depth => do if ← takes k then yes depth else no depth)
      (Parse.accept k >>= next) :=
  .accept_of hno fun t ts q hrest _ hq _ => hyes t ts hrest q hq

/-- The token that is taken is the one behind the position then. -/
theorem FollowsAt.acceptToken {k : Kind → Bool} {yes : Token → Nat → Reading α}
    {no : Nat → Reading α} {next : Option Token → Parse α}
    (hno : FollowsAt stop least c no (next none))
    (hyes : ∀ t ts, c.rest = t :: ts → k t.kind = true →
      FollowsAt stop (least - 1) { c with rest := ts } (yes t) (next (some t))) :
    FollowsAt stop least c
      (fun depth => do if ← takes k then (do yes (← previous) depth) else no depth)
      (Parse.accept k >>= next) := by
  refine .accept_of hno fun t ts q hrest hk hq hbehind => ?_
  obtain ⟨q', hprevious, hsees⟩ := previous_of_some hbehind
  exact (hyes t ts hrest hk q' (hq.sees hsees)).sees (fun _ => bind_of_ok hprevious) hsees

theorem Follows.accept {k : Kind → Bool} {yes no : Nat → Reading α} {next : Option Token → Parse α}
    (hno : Follows stop n least no (next none))
    (hyes : ∀ t, Follows stop (n - 1) (least - 1) yes (next (some t))) :
    Follows stop n least (fun depth => do if ← takes k then yes depth else no depth)
      (Parse.accept k >>= next) :=
  fun c hc => .accept (hno c hc) fun t ts hrest => hyes t _ (by simp_all; omega)

theorem Follows.acceptToken {k : Kind → Bool} {yes : Token → Nat → Reading α} {no : Nat → Reading α}
    {next : Option Token → Parse α} (hno : Follows stop n least no (next none))
    (hyes : ∀ t, k t.kind = true → Follows stop (n - 1) (least - 1) (yes t) (next (some t))) :
    Follows stop n least
      (fun depth => do if ← takes k then (do yes (← previous) depth) else no depth)
      (Parse.accept k >>= next) :=
  fun c hc => .acceptToken (hno c hc) fun t ts hrest hk => hyes t hk _ (by simp_all; omega)

theorem consume_follows (k : Kind → Bool) (fault : GrammarFault) :
    Follows stop n 1 (fun _ => consume k fault) (Parse.expect k fault) := by
  intro c _ p hp
  obtain ⟨p₁, hcheck, hsees⟩ := check_tracks hp k
  have hp₁ := hp.sees hsees
  have hconsume : consume k fault p =
      (if c.offers k then advance else do throw (blame (← peek) fault)) p₁ := bind_of_ok hcheck
  unfold FollowsFrom Parse.expect
  rw [Parse.bind_apply]
  cases hk : c.offers k with
  | true =>
    obtain ⟨t, ts, hrest, ht⟩ := Cursor.exists_of_offers hk
    obtain ⟨p₂, hadvance, hp₂, honward, -⟩ := advance_tracks hp₁ hrest
    rw [Parse.accept_of_offers hrest ht, hrest]
    refine ⟨.ok t, p₂, .step ?_, hsees.onward.trans honward, rfl, hp₂, Nat.le_refl _⟩
    rw [hconsume, hk]
    exact hadvance
  | false =>
    obtain ⟨t, p₂, hpeek, hsees', hshown, -⟩ := peek_tracks hp₁
    rw [Parse.accept_of_not_offers hk]
    refine ⟨.error (blame t fault), p₂, .step ?_, (hsees.trans hsees').onward,
      by rw [← hshown]; rfl, hp₁.sees hsees'⟩
    rw [hconsume, hk]
    exact bind_of_ok hpeek

end Primitives

/-! ### Lists -/

section Lists

variable {α : Type} {stop n least limit : Nat}

/-- An item of a list that is too long is a fault, and is read all the same. -/
theorem Follows.counted {t : Nat → Reading α} {m : Parse α} (h : Follows stop n least t m)
    (count : Nat) (fault : GrammarFault) :
    Follows stop n least (fun depth => do counted count fault; t depth)
      (do
        if maxArguments ≤ count then
          Parse.report (← Parse.peek) fault
        m) := by
  unfold Parser.counted
  by_cases hmax : maxArguments ≤ count
  · simp only [hmax, if_true]
    have hreport : Follows stop n 0 (fun _ => do report (blame (← Parser.peek) fault))
        (Parse.peek >>= fun t => Parse.report t fault) :=
      fun c _ => .peek fun _ hshown => report_followsAt hshown fault
    exact hreport.bind fun _ => h
  · simp only [hmax, if_false]
    exact h

/-- Items with commas between them: a loop takes one comma each time it goes on. -/
theorem separated_follows {item : Nat → Nat → Reading α} {item' : Nat → Parse α} {loop : Loop}
    {items : Nat → Nat → Reading (List α)}
    (hitems : ∀ count depth, items count (depth + 1) = do
      let before ← position
      let first ← item count depth
      if ← takes (Kind.isMark .comma) then
        turned loop before
        let others ← items (count + 1) depth
        return first :: others
      else return [first])
    (hitem : ∀ count, Follows stop n 1 (item count) (item' count)) {m : Nat} (hm : m ≤ n)
    (hlimit : m ≤ limit) (count : Nat) :
    Follows stop m 1 (items count) (Parse.separated item' limit count) := by
  induction m generalizing limit count with
  | zero => exact fun c hc => absurd hc (Nat.not_lt_zero _)
  | succ m ih =>
    obtain ⟨limit, rfl⟩ := Nat.exists_eq_add_one_of_ne_zero (Nat.ne_zero_of_lt hlimit)
    intro c hc
    refine .deeper (hitems count) (.position fun before hbefore => ?_)
    refine FollowsAt.bind (hitem count c (by omega)) fun first c' _ hc' => ?_
    refine .accept (.pure [first]) fun comma ts hrest => ?_
    rw [hrest, List.length_cons] at hc'
    -- the item and the comma are behind now, so the turn has led past both
    refine .turned loop (by simp only; omega) ?_
    have hothers : Follows stop m 0 (items (count + 1)) (Parse.separated item' limit (count + 1)) :=
      (ih (by omega) (by omega) (count + 1)).weaken (Nat.zero_le 1)
    exact (hothers { c' with rest := ts } (by simp only; omega)).bind fun others _ _ _ =>
      .pure (first :: others)

/-- Items in parentheses, of which there may be none. -/
theorem parenthesized_follows {items : Nat → Reading (List α)} {item' : Nat → Parse α}
    (hitems : Follows stop n 1 items (Parse.separated item' limit 0)) :
    Follows stop n 0
      (fun depth => do if ← check (Kind.isMark .rightParen) then return [] else items depth)
      (Parse.parenthesized item' limit) := by
  refine (check_follows _).bind fun b => ?_
  cases b with
  | true => exact .pure []
  | false => exact hitems.weaken (Nat.zero_le 1)

/-- Items up to a token that ends the list, or up to the end: each of them takes a token, and so
does each turn of the loop. -/
theorem items_follows {β : Type} {loop : Loop} {stops : Kind → Bool} {item : Nat → Reading α}
    {item' : Parse α} {join : α → List β → List β} {items : Nat → Reading (List β)}
    {items' : Nat → Parse (List β)}
    (hitems : ∀ depth, items (depth + 1) = do
      if ← check stops then return []
      else if ← isAtEnd then return []
      else
        let before ← position
        let first ← item depth
        turned loop before
        let others ← items depth
        return join first others)
    (hitems' : ∀ limit (c : Cursor), c.rest.length ≤ limit → items' limit c = (do
      if (← Parse.atEnd) || (← Parse.isAhead stops) then pure []
      else
        let first ← item'
        let others ← items' (limit - 1)
        pure (join first others)) c)
    (hitem : ∀ c : Cursor, c.rest.length < n → c.rest ≠ [] → FollowsAt stop 1 c item item')
    {m : Nat} (hm : m ≤ n) (hlimit : m ≤ limit + 1) : Follows stop m 0 items (items' limit) := by
  induction m generalizing limit with
  | zero => exact fun c hc => absurd hc (Nat.not_lt_zero _)
  | succ m ih =>
    intro c hc
    -- the descent asks for the kinds first and for the end then, the reading the other way round
    have happly : items' limit c = (if c.rest.isEmpty || c.offers stops then pure []
        else do
          let first ← item'
          let others ← items' (limit - 1)
          pure (join first others) : Parse (List β)) c := by
      rw [hitems' limit c (by omega), Parse.bind_apply]
      unfold Parse.atEnd
      simp only
      rw [Parse.bind_apply, Parse.isAhead_apply]
    refine .congr (.deeper hitems (.check ?_)) happly
    cases hk : c.offers stops with
    | true =>
      rw [Bool.or_true]
      exact .pure []
    | false =>
      refine .isAtEnd ?_
      cases hrest : c.rest with
      | nil => exact .pure []
      | cons t ts =>
        refine .position fun before hbefore => ?_
        refine FollowsAt.bind (hitem c (by omega) (by simp [hrest])) fun first c' _ hc' => ?_
        refine .turned loop (by omega) ?_
        exact FollowsAt.bind (ih (by omega) (by omega) c' (by omega)) fun others _ _ _ =>
          .pure (join first others)

end Lists

end Parser

end Lox
