/-
Reading in lockstep.

Two readings by the same production are followed at once, from two cursors before lists of tokens
that are alike as far as the production looks.  They take the same tokens and find the same faults,
whatever their limits and the numbers of their nodes are, and whatever follows where the lists
part.

* `Lockstep` — lists of tokens that are alike as far as tokens of some kinds reach;
* `Parse.InStep` — two readings that take the same tokens and find the same faults;
* `expression_inStep` — an expression looks no further than to the first token of no expression;
* `declarations_inStep` — neither the limit nor the first number matters to declarations.

Design notes: the trees that two readings return differ in their numbers.  Of a tree the later
reading depends on nothing but whether it can be assigned to, so `SameTarget` is all that is said
of it.  A limit bounds the number of tokens ahead; each loop is compared with its own body under a
smaller limit, which is the same reading as long as the bound holds.
-/
import Lox.Proofs.Syntax.Onward
import Lox.Proofs.Syntax.Soundness

namespace Lox

/-! ### Cursors abreast -/

/-- Two lists of tokens are alike as far as tokens of some kinds reach: up to the first token of
another kind, and with it.  Where both end, so do the sources, on the same line. -/
inductive Lockstep (kinds : Kind → Prop) (endLine endLine' : Nat) :
    List Token → List Token → Prop where
  | nil (h : endLine' = endLine) : Lockstep kinds endLine endLine' [] []
  | cons (t : Token) {ts ts' : List Token}
      (h : kinds t.kind → Lockstep kinds endLine endLine' ts ts') :
      Lockstep kinds endLine endLine' (t :: ts) (t :: ts')

namespace Lockstep

variable {kinds kinds' : Kind → Prop} {endLine endLine' : Nat} {ts ts' : List Token}

theorem refl (ts : List Token) : Lockstep kinds endLine endLine ts ts := by
  induction ts with
  | nil => exact .nil rfl
  | cons t ts ih => exact .cons t fun _ => ih

theorem mono (hk : ∀ k, kinds' k → kinds k) (h : Lockstep kinds endLine endLine' ts ts') :
    Lockstep kinds' endLine endLine' ts ts' := by
  induction h with
  | nil h => exact .nil h
  | cons t _ ih => exact .cons t fun ht => ih (hk _ ht)

/-- Behind tokens of these kinds the lists are alike still. -/
theorem behind {past : List Token} (hpast : ∀ t ∈ past, kinds t.kind)
    (h : Lockstep kinds endLine endLine' (past ++ ts) (past ++ ts')) :
    Lockstep kinds endLine endLine' ts ts' := by
  induction past with
  | nil => exact h
  | cons t past ih =>
    rw [List.forall_mem_cons] at hpast
    cases h with
    | cons _ h => exact ih hpast.2 (h hpast.1)

/-- Up to a token of another kind the lists may be any lists. -/
theorem upTo (front : List Token) {last : Token} (hlast : ¬ kinds last.kind) :
    Lockstep kinds endLine endLine' (front ++ last :: ts) (front ++ last :: ts') := by
  induction front with
  | nil => exact .cons last fun h => absurd h hlast
  | cons t front ih => exact .cons t fun _ => ih

/-- The same token is ahead, or the same end of the source. -/
theorem ahead (h : Lockstep kinds endLine endLine' ts ts') :
    ts'.headD ⟨.endOfSource, "", endLine'⟩ = ts.headD ⟨.endOfSource, "", endLine⟩ := by
  cases h with
  | nil h => rw [h]
  | cons t _ => rfl

/-- Lists that are alike for every kind are equal, and end on the same line. -/
theorem eq (h : Lockstep Parse.AnyKind endLine endLine' ts ts') :
    ts' = ts ∧ endLine' = endLine := by
  induction h with
  | nil h => exact ⟨rfl, h⟩
  | cons t _ ih => exact ⟨congrArg (t :: ·) (ih trivial).1, (ih trivial).2⟩

end Lockstep

/-- Two cursors before tokens that are alike, at most `n` of them and at most `n'`. -/
structure Cursor.Abreast (kinds : Kind → Prop) (n n' : Nat) (c d : Cursor) : Prop where
  alike : Lockstep kinds c.endLine d.endLine c.rest d.rest
  left : c.rest.length ≤ n
  right : d.rest.length ≤ n'

/-- The tokens that a reading takes: they are of some kinds, but for the semicolon at the end of a
statement that is closed. -/
def Taken (kinds : Kind → Prop) (closed : Bool) (past : List Token) : Prop :=
  match closed with
  | false => ∀ t ∈ past, kinds t.kind
  | true => ∃ front semicolon, past = front ++ [semicolon] ∧ (∀ t ∈ front, kinds t.kind) ∧
      semicolon.kind.isMark .semicolon = true

/-- From two cursors, two readings have come to two others: they have taken the same tokens, at
least so many unless there are fewer, and found the same faults. -/
structure Cursor.Together (kinds : Kind → Prop) (closed : Bool) (least : Nat) (c d c' d' : Cursor)
    (past : List Token) (found : List Diagnostic) : Prop where
  left : c.rest = past ++ c'.rest
  right : d.rest = past ++ d'.rest
  taken : Taken kinds closed past
  shorter : c'.rest.length ≤ c.rest.length - least
  shorter' : d'.rest.length ≤ d.rest.length - least
  endLine : c'.endLine = c.endLine
  endLine' : d'.endLine = d.endLine
  faults : c'.faults = found ++ c.faults
  faults' : d'.faults = found ++ d.faults

section Cursors

variable {kinds : Kind → Prop} {closed : Bool} {n n' least : Nat} {c d c' d' c'' d'' : Cursor}
variable {past past' : List Token} {found found' : List Diagnostic}

theorem Taken.prepend (hpast : ∀ t ∈ past, kinds t.kind) (h : Taken kinds closed past') :
    Taken kinds closed (past ++ past') := by
  cases closed with
  | false => exact List.forall_mem_append.mpr ⟨hpast, h⟩
  | true =>
    obtain ⟨front, semicolon, rfl, hfront, hsemicolon⟩ := h
    exact ⟨past ++ front, semicolon, (List.append_assoc ..).symm,
      List.forall_mem_append.mpr ⟨hpast, hfront⟩, hsemicolon⟩

namespace Cursor

theorem Abreast.ahead (h : c.Abreast kinds n n' d) : d.ahead = c.ahead := h.alike.ahead

/-- Both sources end here, or the same token is ahead. -/
theorem Abreast.rest (h : c.Abreast kinds n n' d) :
    (c.rest = [] ∧ d.rest = []) ∨ ∃ t ts ts', c.rest = t :: ts ∧ d.rest = t :: ts' := by
  have halike := h.alike
  generalize c.rest = l at halike ⊢
  generalize d.rest = l' at halike ⊢
  cases halike with
  | nil _ => exact .inl ⟨rfl, rfl⟩
  | cons t _ => exact .inr ⟨t, _, _, rfl, rfl⟩

theorem Abreast.mono {m m' : Nat} (h : c.Abreast kinds m m' d) (hm : m ≤ n) (hm' : m' ≤ n') :
    c.Abreast kinds n n' d :=
  ⟨h.alike, Nat.le_trans h.left hm, Nat.le_trans h.right hm'⟩

/-- Nothing is taken and nothing found. -/
theorem Together.still (hrest : c'.rest = c.rest) (hrest' : d'.rest = d.rest)
    (hline : c'.endLine = c.endLine) (hline' : d'.endLine = d.endLine)
    (hfaults : c'.faults = c.faults) (hfaults' : d'.faults = d.faults) :
    Together kinds false 0 c d c' d' [] [] :=
  ⟨hrest.symm, hrest'.symm, fun _ ht => absurd ht List.not_mem_nil,
    Nat.le_of_eq (congrArg _ hrest), Nat.le_of_eq (congrArg _ hrest'), hline, hline', hfaults,
    hfaults'⟩

/-- The token ahead is taken. -/
theorem Together.take {t : Token} {ts ts' : List Token} (hrest : c.rest = t :: ts)
    (hrest' : d.rest = t :: ts') (ht : Taken kinds closed [t]) :
    Together kinds closed 1 c d { c with rest := ts } { d with rest := ts' } [t] [] where
  left := hrest
  right := hrest'
  taken := ht
  shorter := by simp [hrest]
  shorter' := by simp [hrest']
  endLine := rfl
  endLine' := rfl
  faults := rfl
  faults' := rfl

/-- At the end of the source there is nothing to take. -/
theorem Together.atEnd {more : Nat} (h : Together kinds closed least c d c' d' past found)
    (hrest : c.rest = []) (hrest' : d.rest = []) :
    Together kinds closed more c d c' d' past found :=
  { h with
    shorter := by
      have := h.shorter
      simp_all
    shorter' := by
      have := h.shorter'
      simp_all }

theorem Together.weaken {fewer : Nat} (h : Together kinds closed least c d c' d' past found)
    (hle : fewer ≤ least) : Together kinds closed fewer c d c' d' past found :=
  { h with
    shorter := Nat.le_trans h.shorter (Nat.sub_le_sub_left hle _)
    shorter' := Nat.le_trans h.shorter' (Nat.sub_le_sub_left hle _) }

theorem Together.trans {most : Nat} (h : Together kinds false least c d c' d' past found)
    (h' : Together kinds closed (most - least) c' d' c'' d'' past' found') :
    Together kinds closed most c d c'' d'' (past ++ past') (found' ++ found) where
  left := by rw [h.left, h'.left, List.append_assoc]
  right := by rw [h.right, h'.right, List.append_assoc]
  taken := h'.taken.prepend h.taken
  shorter := by
    have := h.shorter
    have := h'.shorter
    omega
  shorter' := by
    have := h.shorter'
    have := h'.shorter'
    omega
  endLine := h'.endLine.trans h.endLine
  endLine' := h'.endLine'.trans h.endLine'
  faults := by rw [h'.faults, h.faults, List.append_assoc]
  faults' := by rw [h'.faults', h.faults', List.append_assoc]

/-- Where both have come, they are abreast again, and fewer tokens are ahead. -/
theorem Together.abreast (h : Together kinds false least c d c' d' past found)
    (hc : c.Abreast kinds n n' d) : c'.Abreast kinds (n - least) (n' - least) d' where
  alike := by
    have halike := hc.alike
    rw [h.left, h.right] at halike
    rw [h.endLine, h.endLine']
    exact halike.behind h.taken
  left := Nat.le_trans h.shorter (Nat.sub_le_sub_right hc.left _)
  right := Nat.le_trans h.shorter' (Nat.sub_le_sub_right hc.right _)

end Cursor

end Cursors

namespace Parse

/-! ### Two readings -/

/-- From two cursors, two readings take the same tokens and find the same faults; either both
return something, and that belongs together, or both fail with the same fault. -/
def InStepFrom {α : Type} (kinds : Kind → Prop) (closed : Bool) (least : Nat) (R : α → α → Prop)
    (c d : Cursor) (p q : Parse α) : Prop :=
  match p c, q d with
  | .ok a c', .ok a' d' =>
    R a a' ∧ ∃ past found, Cursor.Together kinds closed least c d c' d' past found
  | .error fault c', .error fault' d' =>
    fault' = fault ∧ ∃ past found, Cursor.Together kinds false 0 c d c' d' past found
  | _, _ => False

/-- Two readings do so from all cursors that are abreast. -/
def InStep {α : Type} (kinds : Kind → Prop) (closed : Bool) (n n' least : Nat)
    (R : α → α → Prop) (p q : Parse α) : Prop :=
  ∀ c d : Cursor, c.Abreast kinds n n' d → InStepFrom kinds closed least R c d p q

/-- What two readings return need not have anything in common. -/
abbrev Whatever {α : Type} (_ _ : α) : Prop := True

section Rules

variable {α β : Type} {kinds : Kind → Prop} {closed : Bool} {n n' least most : Nat}
variable {R : α → α → Prop} {S : β → β → Prop} {p q : Parse α} {c d : Cursor}

theorem InStepFrom.bind {next next' : α → Parse β} (hc : c.Abreast kinds n n' d)
    (hp : InStepFrom kinds false least R c d p q)
    (hnext : ∀ a a' c' d', p c = .ok a c' → q d = .ok a' d' → R a a' →
      c'.Abreast kinds (n - least) (n' - least) d' →
      InStepFrom kinds closed (most - least) S c' d' (next a) (next' a')) :
    InStepFrom kinds closed most S c d (p >>= next) (q >>= next') := by
  unfold InStepFrom at hp ⊢
  rw [bind_apply, bind_apply]
  split at hp
  · next a c' a' d' hpc hqd =>
    obtain ⟨hR, past, found, hgo⟩ := hp
    simp only [hpc, hqd]
    have hn := hnext a a' c' d' hpc hqd hR (hgo.abreast hc)
    unfold InStepFrom at hn
    split at hn
    · next b c'' b' d'' hb hb' =>
      obtain ⟨hS, past', found', hgo'⟩ := hn
      simp only [hb, hb']
      exact ⟨hS, _, _, hgo.trans hgo'⟩
    · next f c'' f' d'' hb hb' =>
      obtain ⟨hf, past', found', hgo'⟩ := hn
      simp only [hb, hb']
      have hgo' : Cursor.Together kinds false (0 - least) c' d' c'' d'' past' found' :=
        hgo'.weaken (Nat.le_of_eq (Nat.zero_sub least))
      exact ⟨hf, _, _, hgo.trans hgo'⟩
    · exact hn.elim
  · next f c' f' d' hpc hqd =>
    simp only [hpc, hqd]
    exact hp
  · exact hp.elim

theorem InStep.bind {next next' : α → Parse β} (hp : InStep kinds false n n' least R p q)
    (hnext : ∀ a a', R a a' →
      InStep kinds closed (n - least) (n' - least) (most - least) S (next a) (next' a')) :
    InStep kinds closed n n' most S (p >>= next) (q >>= next') :=
  fun c d hc => (hp c d hc).bind hc fun a a' c' d' _ _ hR => hnext a a' hR c' d'

theorem InStepFrom.weaken {fewer : Nat} (h : InStepFrom kinds closed least R c d p q)
    (hle : fewer ≤ least) : InStepFrom kinds closed fewer R c d p q := by
  unfold InStepFrom at h ⊢
  split at h
  · obtain ⟨hR, past, found, hgo⟩ := h
    exact ⟨hR, past, found, hgo.weaken hle⟩
  · exact h
  · exact h.elim

theorem InStep.weaken {fewer : Nat} (h : InStep kinds closed n n' least R p q)
    (hle : fewer ≤ least) : InStep kinds closed n n' fewer R p q :=
  fun c d hc => (h c d hc).weaken hle

/-- Cursors before fewer tokens are among those before more. -/
theorem InStep.mono {m m' : Nat} (h : InStep kinds closed n n' least R p q) (hm : m ≤ n)
    (hm' : m' ≤ n') : InStep kinds closed m m' least R p q :=
  fun c d hc => h c d (hc.mono hm hm')

theorem InStep.pure {a a' : α} (hR : R a a') :
    InStep kinds false n n' 0 R (pure a) (pure a') :=
  fun _ _ _ => ⟨hR, [], [], .still rfl rfl rfl rfl rfl rfl⟩

/-- What is done with the results alone takes no tokens. -/
theorem InStepFrom.returning {f f' : α → β} (h : InStepFrom kinds closed least R c d p q)
    (hS : ∀ a a', R a a' → S (f a) (f' a')) :
    InStepFrom kinds closed least S c d (p >>= fun a => Pure.pure (f a))
      (q >>= fun a => Pure.pure (f' a)) := by
  unfold InStepFrom at h ⊢
  rw [bind_apply, bind_apply]
  split at h
  · next a c' a' d' hpc hqd =>
    simp only [hpc, hqd]
    exact ⟨hS _ _ h.1, h.2⟩
  · next f c' f' d' hpc hqd =>
    simp only [hpc, hqd]
    exact h
  · exact h.elim

theorem InStep.returning {f f' : α → β} (h : InStep kinds closed n n' least R p q)
    (hS : ∀ a a', R a a' → S (f a) (f' a')) :
    InStep kinds closed n n' least S (p >>= fun a => Pure.pure (f a))
      (q >>= fun a => Pure.pure (f' a)) :=
  fun c d hc => (h c d hc).returning hS

theorem InStep.map {f f' : α → β} (h : InStep kinds closed n n' least R p q)
    (hS : ∀ a a', R a a' → S (f a) (f' a')) :
    InStep kinds closed n n' least S (f <$> p) (f' <$> q) := by
  rw [map_eq_pure_bind, map_eq_pure_bind]
  exact h.returning hS

/-- One of two readings, where what is ahead decides. -/
theorem InStep.ite {b : Bool} {p' q' : Parse α} (h : InStep kinds closed n n' least R p q)
    (h' : InStep kinds closed n n' least R p' q') :
    InStep kinds closed n n' least R (if b then p else p') (if b then q else q') := by
  cases b with
  | true => exact h
  | false => exact h'

/-- What is done with the token ahead, which is the same for both. -/
theorem InStep.peek {next next' : Token → Parse α}
    (h : ∀ c d : Cursor, c.Abreast kinds n n' d →
      InStepFrom kinds closed least R c d (next c.ahead) (next' c.ahead)) :
    InStep kinds closed n n' least R (peek >>= next) (peek >>= next') := by
  intro c d hc
  have hstep := h c d hc
  unfold InStepFrom at hstep ⊢
  rw [bind_apply, bind_apply]
  simp only [Parse.peek, hc.ahead]
  exact hstep

/-- Readings that are others as long as the bounds hold. -/
theorem InStep.congr {p' q' : Parse α} (h : InStep kinds closed n n' least R p' q')
    (hp : ∀ c : Cursor, c.rest.length ≤ n → p c = p' c)
    (hq : ∀ d : Cursor, d.rest.length ≤ n' → q d = q' d) :
    InStep kinds closed n n' least R p q := by
  intro c d hc
  unfold InStepFrom
  rw [hp c hc.left, hq d hc.right]
  exact h c d hc

/-- Where the bound leaves no tokens, both sources end. -/
theorem InStep.of_empty (hn : n = 0 ∨ n' = 0)
    (h : ∀ c d : Cursor, c.Abreast kinds n n' d → c.rest = [] → d.rest = [] →
      InStepFrom kinds closed least R c d p q) :
    InStep kinds closed n n' least R p q := by
  intro c d hc
  rcases hc.rest with ⟨hrest, hrest'⟩ | ⟨t, ts, ts', hrest, hrest'⟩
  · exact h c d hc hrest hrest'
  · have hleft := hc.left
    have hright := hc.right
    rw [hrest, List.length_cons] at hleft
    rw [hrest', List.length_cons] at hright
    omega

/-- What two readings do before tokens that are alike up to some point, they do before the same
tokens. -/
theorem InStep.anywhere (h : InStep kinds closed n n' least R p q) :
    InStep AnyKind false n n' least Whatever p q := by
  have hgo {closed : Bool} {least : Nat} {c d c' d' : Cursor} {past : List Token}
      {found : List Diagnostic} (h : Cursor.Together kinds closed least c d c' d' past found) :
      Cursor.Together AnyKind false least c d c' d' past found :=
    { h with taken := fun _ _ => trivial }
  intro c d hc
  have hstep := h c d ⟨hc.alike.mono fun _ _ => trivial, hc.left, hc.right⟩
  unfold InStepFrom at hstep ⊢
  split at hstep
  · obtain ⟨-, past, found, h⟩ := hstep
    exact ⟨trivial, past, found, hgo h⟩
  · obtain ⟨hf, past, found, h⟩ := hstep
    exact ⟨hf, past, found, hgo h⟩
  · exact hstep.elim

end Rules

/-! ### The primitives of the cursor -/

section Primitives

variable {α : Type} {kinds : Kind → Prop} {closed : Bool} {n n' least : Nat} {R : α → α → Prop}

theorem atEnd_inStep : InStep kinds false n n' 0 Eq atEnd atEnd := by
  intro c d hc
  refine ⟨?_, [], [], .still rfl rfl rfl rfl rfl rfl⟩
  rcases hc.rest with ⟨hrest, hrest'⟩ | ⟨t, ts, ts', hrest, hrest'⟩
  · rw [hrest, hrest']
  · rw [hrest, hrest']
    rfl

theorem isAhead_inStep (k : Kind → Bool) :
    InStep kinds false n n' 0 Eq (isAhead k) (isAhead k) := by
  intro c d hc
  unfold InStepFrom isAhead
  rcases hc.rest with ⟨hrest, hrest'⟩ | ⟨t, ts, ts', hrest, hrest'⟩
  · simp only [hrest, hrest']
    exact ⟨trivial, [], [], .still rfl rfl rfl rfl rfl rfl⟩
  · simp only [hrest, hrest']
    exact ⟨trivial, [], [], .still rfl rfl rfl rfl rfl rfl⟩

theorem freshId_inStep : InStep kinds false n n' 0 Whatever freshId freshId :=
  fun _ _ _ => ⟨trivial, [], [], .still rfl rfl rfl rfl rfl rfl⟩

theorem failAt_inStep (t : Token) (fault : GrammarFault) :
    InStep kinds closed n n' least R (failAt t fault) (failAt t fault) :=
  fun _ _ _ => ⟨rfl, [], [], .still rfl rfl rfl rfl rfl rfl⟩

theorem fail_inStep (fault : GrammarFault) :
    InStep kinds closed n n' least R (fail fault) (fail fault) :=
  fun _ _ hc => ⟨by rw [hc.ahead], [], [], .still rfl rfl rfl rfl rfl rfl⟩

theorem report_inStep (t : Token) (fault : GrammarFault) :
    InStep kinds false n n' 0 Whatever (report t fault) (report t fault) :=
  fun _ _ _ => ⟨trivial, [], [.grammar t fault],
    { Cursor.Together.still rfl rfl rfl rfl rfl rfl with faults := rfl, faults' := rfl }⟩

theorem advance_inStepFrom {c d : Cursor} (hc : c.Abreast kinds n n' d)
    (hk : c.rest ≠ [] → kinds c.ahead.kind) :
    InStepFrom kinds false 1 Whatever c d advance advance := by
  unfold InStepFrom advance
  rcases hc.rest with ⟨hrest, hrest'⟩ | ⟨t, ts, ts', hrest, hrest'⟩
  · have hstill : c.rest.tail = c.rest ∧ d.rest.tail = d.rest := by
      rw [hrest, hrest']
      exact ⟨rfl, rfl⟩
    have hgo : Cursor.Together kinds false 0 c d { c with rest := c.rest.tail }
        { d with rest := d.rest.tail } [] [] := .still hstill.1 hstill.2 rfl rfl rfl rfl
    exact ⟨trivial, [], [], hgo.atEnd hrest hrest'⟩
  · have ht : c.ahead = t := by
      unfold Cursor.ahead
      rw [hrest]
      rfl
    rw [hrest, ht] at hk
    rw [hrest, hrest']
    exact ⟨trivial, [t], [],
      .take hrest hrest' (List.forall_mem_singleton.mpr (hk (List.cons_ne_nil t ts)))⟩

/-- A token is taken, or none is; in the first case there are tokens ahead. -/
theorem accept_inStep {next next' : Option Token → Parse α} {k : Kind → Bool}
    (hk : ∀ kind, k kind = true → kinds kind)
    (hnone : InStep kinds closed n n' least R (next none) (next' none))
    (hsome : 0 < n → 0 < n' → ∀ t, InStep kinds closed (n - 1) (n' - 1) (least - 1) R
      (next (some t)) (next' (some t))) :
    InStep kinds closed n n' least R (accept k >>= next) (accept k >>= next') := by
  intro c d hc
  have hnone := hnone c d hc
  rcases hc.rest with ⟨hrest, hrest'⟩ | ⟨t, ts, ts', hrest, hrest'⟩
  · unfold InStepFrom at hnone ⊢
    rw [bind_apply, bind_apply]
    simp only [accept, hrest, hrest']
    exact hnone
  · by_cases ht : k t.kind = true
    · have htake : InStepFrom kinds false 1 (fun a a' => a = some t ∧ a' = some t) c d (accept k)
          (accept k) := by
        unfold InStepFrom accept
        simp only [hrest, hrest', ht, if_true]
        exact ⟨⟨trivial, trivial⟩, [t], [],
          .take hrest hrest' (List.forall_mem_singleton.mpr (hk _ ht))⟩
      have hleft : 0 < c.rest.length := by simp [hrest]
      have hright : 0 < d.rest.length := by simp [hrest']
      have hnext := hsome (Nat.lt_of_lt_of_le hleft hc.left) (Nat.lt_of_lt_of_le hright hc.right) t
      refine htake.bind hc fun _ _ c' d' _ _ ha => ?_
      rw [ha.1, ha.2]
      exact hnext c' d'
    · unfold InStepFrom at hnone ⊢
      rw [bind_apply, bind_apply]
      simp only [accept, hrest, hrest', ht]
      exact hnone

theorem expect_inStep {k : Kind → Bool} (hk : ∀ kind, k kind = true → kinds kind)
    (fault : GrammarFault) : InStep kinds false n n' 1 Eq (expect k fault) (expect k fault) :=
  accept_inStep hk (fail_inStep fault) fun _ _ _ => .pure rfl

/-- The semicolon that closes a statement is the last token of it. -/
theorem semicolon_inStep (fault : GrammarFault) :
    InStep kinds true n n' 1 Whatever (expect (Kind.isMark .semicolon) fault)
      (expect (Kind.isMark .semicolon) fault) := by
  intro c d hc
  have hfail : InStepFrom kinds true 1 Whatever c d (fail fault : Parse Token) (fail fault) :=
    fail_inStep fault c d hc
  unfold InStepFrom at hfail ⊢
  unfold expect
  rw [bind_apply, bind_apply]
  rcases hc.rest with ⟨hrest, hrest'⟩ | ⟨t, ts, ts', hrest, hrest'⟩
  · simp only [accept, hrest, hrest']
    exact hfail
  · by_cases ht : t.kind.isMark .semicolon = true
    · simp only [accept, hrest, hrest', ht, if_true]
      exact ⟨trivial, [t], [], .take hrest hrest'
        ⟨[], t, rfl, fun _ h => absurd h List.not_mem_nil, ht⟩⟩
    · simp only [accept, hrest, hrest', ht]
      exact hfail

/-- At least one token is skipped, if there is one. -/
theorem length_resume_le (ts : List Token) : (resume ts).length ≤ ts.length - 1 := by
  cases ts with
  | nil => exact Nat.le_refl 0
  | cons t ts => exact (resumeAfter_suffix t ts).length_le

/-- Where both have failed, both resume at the same statement. -/
theorem recover_inStep {p q : Parse α} (h : InStep AnyKind false n n' 1 R p q) :
    InStep AnyKind false n n' 1 Whatever (recover p) (recover q) := by
  intro c d hc
  have hstep := h c d hc
  unfold InStepFrom at hstep ⊢
  unfold recover
  split at hstep
  · next a c' a' d' hp hq =>
    simp only [hp, hq]
    exact ⟨trivial, hstep.2⟩
  · next f c' f' d' hp hq =>
    simp only [hp, hq]
    obtain ⟨rfl, past, found, hgo⟩ := hstep
    obtain ⟨hrest, -⟩ := (hgo.abreast hc).alike.eq
    obtain ⟨skipped, hskipped⟩ := resume_suffix c'.rest
    have hlength := length_resume_le c'.rest
    have hshorter := hgo.shorter
    have hshorter' := hgo.shorter'
    refine ⟨trivial, past ++ skipped, f' :: found, ?_⟩
    exact
      { left := by rw [hgo.left, List.append_assoc, hskipped]
        right := by rw [hgo.right, List.append_assoc, hrest, hskipped]
        taken := fun _ _ => trivial
        shorter := by
          show (resume c'.rest).length ≤ c.rest.length - 1
          omega
        shorter' := by
          show (resume d'.rest).length ≤ d.rest.length - 1
          rw [hrest] at hshorter' ⊢
          omega
        endLine := hgo.endLine
        endLine' := hgo.endLine'
        faults := congrArg (f' :: ·) hgo.faults
        faults' := congrArg (f' :: ·) hgo.faults' }
  · exact hstep.elim

end Primitives

/-! ### Lists -/

section Lists

variable {α : Type} {kinds : Kind → Prop} {n n' least : Nat} {R : α → α → Prop}

/-- An item of a list that is too long is read all the same. -/
theorem counted_inStep {p q : Parse α} (h : InStep kinds false n n' least R p q) (before : Nat)
    (fault : GrammarFault) :
    InStep kinds false n n' least R
      (do
        if maxArguments ≤ before then
          report (← Parse.peek) fault
        p)
      (do
        if maxArguments ≤ before then
          report (← Parse.peek) fault
        q) := by
  by_cases hmax : maxArguments ≤ before
  · simp only [hmax, if_true]
    have hreport : InStep kinds false n n' 0 Whatever (Parse.peek >>= fun t => report t fault)
        (Parse.peek >>= fun t => report t fault) :=
      .peek fun c d hc => report_inStep c.ahead fault c d hc
    exact hreport.bind fun _ _ _ => h
  · simp only [hmax, if_false]
    exact h

/-- Of a list of items, each is behind a token more than the one before, so a limit that exceeds the
tokens ahead exceeds them again behind the next comma. -/
theorem separated_inStep (hcomma : ∀ kind, kind.isMark .comma = true → kinds kind)
    {item item' : Nat → Parse α}
    (hitem : ∀ before, InStep kinds false n n' least R (item before) (item' before))
    {m m' limit limit' : Nat} (before : Nat) (hn : m ≤ n) (hn' : m' ≤ n') (hm : m < limit)
    (hm' : m' < limit') :
    InStep kinds false m m' 0 Whatever (separated item limit before)
      (separated item' limit' before) := by
  induction m using Nat.strongRecOn generalizing m' limit limit' before with
  | ind m ih =>
    obtain ⟨limit, rfl⟩ := Nat.exists_eq_add_one_of_ne_zero (Nat.ne_zero_of_lt hm)
    obtain ⟨limit', rfl⟩ := Nat.exists_eq_add_one_of_ne_zero (Nat.ne_zero_of_lt hm')
    have hfirst := ((hitem before).mono hn hn').weaken (Nat.zero_le _)
    refine hfirst.bind fun a a' _ => accept_inStep hcomma (.pure trivial) fun hpos hpos' _ => ?_
    have hothers := ih (m - 1) (Nat.sub_lt hpos Nat.one_pos) (before + 1)
      (Nat.le_trans (Nat.sub_le ..) hn) (Nat.le_trans (Nat.sub_le m' 1) hn')
      (Nat.lt_of_lt_of_le (Nat.sub_lt hpos Nat.one_pos) (Nat.le_of_lt_succ hm))
      (Nat.lt_of_lt_of_le (Nat.sub_lt hpos' Nat.one_pos) (Nat.le_of_lt_succ hm'))
    exact hothers.returning fun _ _ _ => trivial

theorem parenthesized_inStep (hcomma : ∀ kind, kind.isMark .comma = true → kinds kind)
    {item item' : Nat → Parse α}
    (hitem : ∀ before, InStep kinds false n n' least R (item before) (item' before))
    {limit limit' : Nat} (hn : n < limit) (hn' : n' < limit') :
    InStep kinds false n n' 0 Whatever (parenthesized item limit) (parenthesized item' limit') := by
  refine (isAhead_inStep _).bind fun b _ hb => ?_
  cases hb
  exact .ite (.pure trivial)
    (separated_inStep hcomma hitem 0 (Nat.le_refl n) (Nat.le_refl n') hn hn')

end Lists

/-! ### Expressions -/

section Expressions

/-- Two expressions can be assigned to, or neither can. -/
def SameTarget (e e' : Expr) : Prop :=
  isTarget e' = isTarget e

/-- Two readings of an expression, which look no further than to the first token of no
expression. -/
abbrev ExprInStep (n n' : Nat) (p q : Parse Expr) : Prop :=
  InStep ExpressionKind false n n' 1 SameTarget p q

variable {expression expression' operand operand' : Parse Expr} {n n' limit limit' : Nat}

/-- At the end of the source no token is accepted. -/
theorem accept_at_end {α : Type} {c : Cursor} (hrest : c.rest = []) (k : Kind → Bool)
    (next : Option Token → Parse α) : (accept k >>= next) c = next none c := by
  rw [bind_apply]
  simp only [accept, hrest]

/-- A chain of operators with a limit for the operators behind the first. -/
theorem leftChain_apply {operators : Kind → Bool} {node : Expr → Token → Expr → Expr}
    {left : Expr} {c : Cursor} (h : c.rest.length ≤ limit) :
    leftChain operators node operand limit left c = (do
      match ← accept operators with
      | none => pure left
      | some operator => do
        let right ← operand
        leftChain operators node operand (limit - 1) (node left operator right)) c := by
  cases limit with
  | zero =>
    rw [accept_at_end (List.length_eq_zero_iff.mp (Nat.le_zero.mp h))]
    rfl
  | succ limit => rfl

theorem leftChain_inStep {operators : Kind → Bool} {node : Expr → Token → Expr → Expr}
    (hoperators : ∀ kind, operators kind = true → ExpressionKind kind)
    (hnode : ∀ left operator right, isTarget (node left operator right) = false)
    (hoperand : ExprInStep n n' operand operand') {m m' : Nat} (hm : m ≤ n) (hm' : m' ≤ n')
    (hlimit : m ≤ limit) (hlimit' : m' ≤ limit') {left left' : Expr}
    (hleft : SameTarget left left') :
    InStep ExpressionKind false m m' 0 SameTarget (leftChain operators node operand limit left)
      (leftChain operators node operand' limit' left') := by
  induction m using Nat.strongRecOn generalizing m' limit limit' left left' with
  | ind m ih =>
    refine InStep.congr ?_ (fun c hc => leftChain_apply (Nat.le_trans hc hlimit))
      fun d hd => leftChain_apply (Nat.le_trans hd hlimit')
    refine accept_inStep hoperators (.pure hleft) fun hpos _ operator => ?_
    have hless : m - 1 ≤ n := Nat.le_trans (Nat.sub_le ..) hm
    have hless' : m' - 1 ≤ n' := Nat.le_trans (Nat.sub_le ..) hm'
    refine ((hoperand.mono hless hless').weaken (Nat.zero_le 1)).bind fun right right' _ => ?_
    refine ih (m - 1) (Nat.sub_lt hpos Nat.one_pos) hless hless' (Nat.sub_le_sub_right hlimit 1)
      (Nat.sub_le_sub_right hlimit' 1) ?_
    exact (hnode left' operator right').trans (hnode left operator right).symm

theorem level_inStep {operators : Kind → Bool} {node : Expr → Token → Expr → Expr}
    (hoperators : ∀ kind, operators kind = true → ExpressionKind kind)
    (hnode : ∀ left operator right, isTarget (node left operator right) = false)
    (hlimit : n ≤ limit) (hlimit' : n' ≤ limit') (hoperand : ExprInStep n n' operand operand') :
    ExprInStep n n' (level operators node limit operand) (level operators node limit' operand') :=
  hoperand.bind fun _ _ hfirst =>
    leftChain_inStep hoperators hnode hoperand (Nat.sub_le ..) (Nat.sub_le ..)
      (Nat.le_trans (Nat.sub_le ..) hlimit) (Nat.le_trans (Nat.sub_le ..) hlimit') hfirst

theorem callEnd_inStep (hexpr : ExprInStep n n' expression expression') (hlimit : n < limit)
    (hlimit' : n' < limit') (callee callee' : Expr) :
    InStep ExpressionKind false n n' 0 SameTarget (callEnd expression limit callee)
      (callEnd expression' limit' callee') := by
  have harguments := parenthesized_inStep (expressionKind_of_isMark rfl)
    (fun before => counted_inStep hexpr before .tooManyArguments) hlimit hlimit'
  refine harguments.bind fun _ _ _ => ?_
  exact ((expect_inStep (expressionKind_of_isMark rfl) _).weaken (Nat.zero_le 1)).returning
    fun _ _ _ => rfl

/-- Calls and properties with a limit for those behind the first. -/
theorem suffixes_apply {turns : Nat} {e : Expr} {c : Cursor} (h : c.rest.length ≤ turns) :
    suffixes expression limit turns e c = (do
      match ← accept (Kind.isMark .leftParen) with
      | some _ => do
        let e ← callEnd expression limit e
        suffixes expression limit (turns - 1) e
      | none => do
        match ← accept (Kind.isMark .dot) with
        | some _ => do
          let name ← expect Kind.isIdentifier .propertyName
          suffixes expression limit (turns - 1) (.get e name)
        | none => pure e) c := by
  cases turns with
  | zero =>
    have hrest := List.length_eq_zero_iff.mp (Nat.le_zero.mp h)
    rw [accept_at_end hrest]
    dsimp only
    rw [accept_at_end hrest]
    rfl
  | succ turns => rfl

theorem suffixes_inStep (hexpr : ExprInStep (n - 1) (n' - 1) expression expression')
    (hlimit : n ≤ limit) (hlimit' : n' ≤ limit') {m m' turns turns' : Nat} (hm : m ≤ n)
    (hm' : m' ≤ n') (hturns : m ≤ turns) (hturns' : m' ≤ turns') {e e' : Expr}
    (he : SameTarget e e') :
    InStep ExpressionKind false m m' 0 SameTarget (suffixes expression limit turns e)
      (suffixes expression' limit' turns' e') := by
  induction m using Nat.strongRecOn generalizing m' turns turns' e e' with
  | ind m ih =>
    have hless : m - 1 ≤ n - 1 := Nat.sub_le_sub_right hm 1
    have hless' : m' - 1 ≤ n' - 1 := Nat.sub_le_sub_right hm' 1
    have hrest (hmpos : 0 < m) {e e' : Expr} (he : SameTarget e e') :
        InStep ExpressionKind false (m - 1) (m' - 1) 0 SameTarget
          (suffixes expression limit (turns - 1) e) (suffixes expression' limit' (turns' - 1) e') :=
      ih (m - 1) (Nat.sub_lt hmpos Nat.one_pos) (Nat.le_trans (Nat.sub_le ..) hm)
        (Nat.le_trans (Nat.sub_le ..) hm') (Nat.sub_le_sub_right hturns 1)
        (Nat.sub_le_sub_right hturns' 1) he
    refine InStep.congr ?_ (fun c hc => suffixes_apply (Nat.le_trans hc hturns))
      fun d hd => suffixes_apply (Nat.le_trans hd hturns')
    refine accept_inStep (expressionKind_of_isMark rfl) ?_ fun hmpos _ _ => ?_
    · refine accept_inStep (expressionKind_of_isMark rfl) (.pure he) fun hmpos _ _ => ?_
      refine ((expect_inStep expressionKind_of_isIdentifier _).weaken (Nat.zero_le 1)).bind
        fun name name' _ => hrest hmpos ?_
      exact (rfl : isTarget (.get e' name') = isTarget (.get e name))
    · have hcall := callEnd_inStep (hexpr.mono hless hless')
        (show m - 1 < limit by omega) (show m' - 1 < limit' by omega) e e'
      exact hcall.bind fun _ _ he => hrest hmpos he

theorem primary_inStep (hexpr : ExprInStep (n - 1) (n' - 1) expression expression') :
    ExprInStep n n' (primary expression) (primary expression') := by
  refine .peek fun c d hc => ?_
  have hleaf {c d : Cursor} (hc : c.Abreast ExpressionKind n n' d) {e e' : Expr}
      (he : SameTarget e e') (hk : ExpressionKind c.ahead.kind) :
      InStepFrom ExpressionKind false 1 SameTarget c d (leaf e) (leaf e') :=
    (advance_inStepFrom hc fun _ => hk).returning fun _ _ _ => he
  -- a number is taken in front of the token, which is still ahead then
  have hnumbered (node : NodeId → Expr) (hnode : ∀ id id', SameTarget (node id) (node id'))
      (hk : ExpressionKind c.ahead.kind) :
      InStepFrom ExpressionKind false 1 SameTarget c d (do leaf (node (← freshId)))
        (do leaf (node (← freshId))) := by
    refine (freshId_inStep c d hc).bind hc fun id id' c' d' hid _ _ hc' => ?_
    cases hid
    exact hleaf hc' (hnode _ _) hk
  split
  case h_1 h => exact hleaf hc rfl (by rw [h]; rfl)
  case h_2 h => exact hleaf hc rfl (by rw [h]; rfl)
  case h_3 h => exact hleaf hc rfl (by rw [h]; rfl)
  case h_4 h => exact hleaf hc rfl (by rw [h]; rfl)
  case h_5 h => exact hleaf hc rfl (by rw [h]; rfl)
  case h_6 h => exact hnumbered _ (fun _ _ => rfl) (by rw [h]; rfl)
  case h_7 h => exact hnumbered _ (fun _ _ => rfl) (by rw [h]; rfl)
  case h_8 h =>
    refine (advance_inStepFrom hc fun _ => by rw [h]; rfl).bind hc fun _ _ c' d' _ _ _ => ?_
    refine InStep.bind ((expect_inStep (expressionKind_of_isMark rfl) _).weaken (Nat.zero_le 1))
      (fun _ _ _ => ?_) c' d'
    refine ((expect_inStep expressionKind_of_isIdentifier _).weaken (Nat.zero_le 1)).bind
      fun _ _ _ => ?_
    exact freshId_inStep.returning fun _ _ _ => rfl
  case h_9 h =>
    refine (advance_inStepFrom hc fun _ => by rw [h]; rfl).bind hc fun _ _ c' d' _ _ _ => ?_
    refine InStep.bind (hexpr.weaken (Nat.zero_le 1)) (fun inner inner' _ => ?_) c' d'
    exact ((expect_inStep (expressionKind_of_isMark rfl) _).weaken (Nat.zero_le 1)).returning
      fun _ _ _ => rfl
  case h_10 => exact failAt_inStep c.ahead _ c d hc

/-- Operators before an operand with a limit for those behind the first. -/
theorem unary_apply {c : Cursor} (h : c.rest.length ≤ limit) :
    unary operand limit c = (do
      match ← accept unaryOperators with
      | some operator => do
        let right ← unary operand (limit - 1)
        pure (Expr.unary operator right)
      | none => operand) c := by
  cases limit with
  | zero =>
    rw [accept_at_end (List.length_eq_zero_iff.mp (Nat.le_zero.mp h))]
    rfl
  | succ limit => rfl

theorem unary_inStep (hoperand : ExprInStep n n' operand operand') (hlimit : n ≤ limit)
    (hlimit' : n' ≤ limit') : ExprInStep n n' (unary operand limit) (unary operand' limit') := by
  induction n using Nat.strongRecOn generalizing n' limit limit' with
  | ind n ih =>
    refine InStep.congr ?_ (fun c hc => unary_apply (Nat.le_trans hc hlimit))
      fun d hd => unary_apply (Nat.le_trans hd hlimit')
    refine accept_inStep expressionKind_of_unaryOperators hoperand fun hpos _ operator => ?_
    have hright := ih (n - 1) (Nat.sub_lt hpos Nat.one_pos)
      (hoperand.mono (Nat.sub_le n 1) (Nat.sub_le n' 1)) (Nat.sub_le_sub_right hlimit 1)
      (Nat.sub_le_sub_right hlimit' 1)
    exact (hright.weaken (Nat.zero_le 1)).returning fun _ _ _ => rfl

theorem call_inStep (hexpr : ExprInStep (n - 1) (n' - 1) expression expression')
    (hlimit : n ≤ limit) (hlimit' : n' ≤ limit') :
    ExprInStep n n' (call expression limit) (call expression' limit') :=
  (primary_inStep hexpr).bind fun _ _ he =>
    suffixes_inStep hexpr hlimit hlimit' (Nat.sub_le n 1) (Nat.sub_le n' 1)
      (Nat.le_trans (Nat.sub_le n 1) hlimit) (Nat.le_trans (Nat.sub_le n' 1) hlimit') he

theorem disjunction_inStep (hexpr : ExprInStep (n - 1) (n' - 1) expression expression')
    (hlimit : n ≤ limit) (hlimit' : n' ≤ limit') :
    ExprInStep n n' (disjunction expression limit) (disjunction expression' limit') :=
  level_inStep (expressionKind_of_isKeyword rfl) (fun _ _ _ => rfl) hlimit hlimit' <|
  level_inStep (expressionKind_of_isKeyword rfl) (fun _ _ _ => rfl) hlimit hlimit' <|
  level_inStep expressionKind_of_equalityOperators (fun _ _ _ => rfl) hlimit hlimit' <|
  level_inStep expressionKind_of_comparisonOperators (fun _ _ _ => rfl) hlimit hlimit' <|
  level_inStep expressionKind_of_termOperators (fun _ _ _ => rfl) hlimit hlimit' <|
  level_inStep expressionKind_of_factorOperators (fun _ _ _ => rfl) hlimit hlimit' <|
  unary_inStep (call_inStep hexpr hlimit hlimit') hlimit hlimit'

/-- The assignment to a target takes a number or none, and cannot be assigned to itself. -/
theorem assignTo_of_isTarget {target : Expr} (h : isTarget target = true) (equals : Token)
    (value : Expr) (c : Cursor) :
    ∃ e id, isTarget e = false ∧
      assignTo target equals value c = .ok e { c with nextId := id } := by
  cases target with
  | var id name => exact ⟨_, _, rfl, rfl⟩
  | get object name => exact ⟨_, _, rfl, rfl⟩
  | _ => cases h

/-- What is no target stands for itself, and its fault is found. -/
theorem assignTo_of_not_isTarget {target : Expr} (h : isTarget target = false) (equals : Token)
    (value : Expr) :
    assignTo target equals value = (do
      report equals .assignmentTarget
      pure target) := by
  cases target with
  | var id name => cases h
  | get object name => cases h
  | _ => rfl

theorem assignTo_inStep {target target' : Expr} (h : SameTarget target target') (equals : Token)
    (value value' : Expr) :
    InStep ExpressionKind false n n' 0 SameTarget (assignTo target equals value)
      (assignTo target' equals value') := by
  cases htarget : isTarget target with
  | true =>
    intro c d _
    obtain ⟨e, id, he, happly⟩ := assignTo_of_isTarget htarget equals value c
    obtain ⟨e', id', he', happly'⟩ := assignTo_of_isTarget (h.trans htarget) equals value' d
    unfold InStepFrom
    rw [happly, happly']
    exact ⟨he'.trans he.symm, [], [], .still rfl rfl rfl rfl rfl rfl⟩
  | false =>
    rw [assignTo_of_not_isTarget htarget, assignTo_of_not_isTarget (h.trans htarget)]
    exact (report_inStep equals _).returning fun _ _ _ => h

theorem assignment_inStep (hexpr : ExprInStep (n - 1) (n' - 1) expression expression')
    (hlimit : n ≤ limit) (hlimit' : n' ≤ limit') :
    ExprInStep n n' (assignment expression limit) (assignment expression' limit') := by
  refine (disjunction_inStep hexpr hlimit hlimit').bind fun target target' htarget => ?_
  refine accept_inStep (expressionKind_of_isMark rfl) (.pure htarget) fun _ _ equals => ?_
  have hvalue := (hexpr.mono (Nat.sub_le _ 1) (Nat.sub_le _ 1)).weaken (Nat.zero_le 1)
  refine hvalue.bind fun _ _ _ => ?_
  exact assignTo_inStep htarget equals _ _

/-- At the end of the source there is no expression. -/
theorem assignment_at_end {c : Cursor} (hrest : c.rest = []) (limit : Nat) :
    assignment expression limit c = .error (.grammar c.ahead .expression) c := by
  have hprimary : primary expression c = .error (.grammar c.ahead .expression) c := by
    unfold primary
    rw [bind_apply]
    simp only [Parse.peek, Cursor.ahead, hrest, List.headD_nil]
    rfl
  have hcall : call expression limit c = .error (.grammar c.ahead .expression) c := by
    unfold call
    rw [bind_apply, hprimary]
  have hunary : unary (call expression limit) limit c =
      .error (.grammar c.ahead .expression) c := by
    rw [unary_apply (by simp [hrest]), accept_at_end hrest]
    exact hcall
  unfold assignment disjunction level
  simp only [bind_apply, hunary]

theorem expression_at_end {c : Cursor} (hrest : c.rest = []) (limit : Nat) :
    Parse.expression limit c = .error (.grammar c.ahead .expression) c := by
  cases limit with
  | zero => rfl
  | succ limit => exact assignment_at_end hrest (limit + 1)

/-- An expression with a limit for those that nest inside of it. -/
theorem expression_apply {c : Cursor} (h : c.rest.length ≤ limit) :
    Parse.expression limit c = assignment (Parse.expression (limit - 1)) limit c := by
  cases limit with
  | zero => exact (assignment_at_end (List.length_eq_zero_iff.mp (Nat.le_zero.mp h)) 0).symm
  | succ limit => rfl

/-- Expressions are read in step, whatever their limits are, as long as these bound the tokens
ahead. -/
theorem expression_inStep (hlimit : n ≤ limit) (hlimit' : n' ≤ limit') :
    ExprInStep n n' (Parse.expression limit) (Parse.expression limit') := by
  induction limit generalizing n n' limit' with
  | zero =>
    refine .of_empty (.inl (Nat.le_zero.mp hlimit)) fun c d hc hrest hrest' => ?_
    unfold InStepFrom
    rw [expression_at_end hrest, expression_at_end hrest', hc.ahead]
    exact ⟨rfl, [], [], .still rfl rfl rfl rfl rfl rfl⟩
  | succ limit ih =>
    have hexpr : ExprInStep (n - 1) (n' - 1) (Parse.expression limit)
        (Parse.expression (limit' - 1)) :=
      ih (Nat.sub_le_of_le_add hlimit) (Nat.sub_le_sub_right hlimit' 1)
    exact (assignment_inStep hexpr hlimit hlimit').congr (fun _ _ => rfl)
      fun d hd => expression_apply (Nat.le_trans hd hlimit')

end Expressions

/-! ### Declarations and statements -/

section Statements

/-- Two readings before the same tokens. -/
abbrev AnyInStep {α : Type} (n n' least : Nat) (p q : Parse α) : Prop :=
  InStep AnyKind false n n' least Whatever p q

variable {expression expression' : Parse Expr} {statement statement' : Parse Stmt}
variable {declaration declaration' : Parse (Option Stmt)} {n n' limit limit' least : Nat}

theorem expect_any_inStep (k : Kind → Bool) (fault : GrammarFault) :
    AnyInStep n n' 1 (expect k fault) (expect k fault) :=
  (expect_inStep (fun _ h => h) fault : InStep (k · = true) false n n' 1 Eq _ _).anywhere

theorem advance_inStep {α : Type} {p q : Parse α} (h : AnyInStep (n - 1) (n' - 1) 0 p q) :
    AnyInStep n n' 1 (advance >>= fun _ => p) (advance >>= fun _ => q) :=
  fun _ _ hc => (advance_inStepFrom hc fun _ => trivial).bind hc fun _ _ c' d' _ _ _ => h c' d'

/-- An expression with a semicolon behind it is a statement that is closed. -/
theorem terminated_inStep {α : Type} {R : α → α → Prop} {p q : Parse α}
    (h : InStep ExpressionKind false n n' least R p q) (node : α → Stmt) (fault : GrammarFault) :
    InStep ExpressionKind true n n' 1 Whatever
      (do
        let a ← p
        let _ ← expect (Kind.isMark .semicolon) fault
        pure (node a))
      (do
        let a ← q
        let _ ← expect (Kind.isMark .semicolon) fault
        pure (node a)) :=
  h.bind fun _ _ _ =>
    ((semicolon_inStep fault).weaken (Nat.sub_le 1 least)).returning fun _ _ _ => trivial

theorem expressionUnless_inStep (h : ExprInStep n n' expression expression') (m : Mark) :
    InStep ExpressionKind false n n' 0 Whatever (expressionUnless m expression)
      (expressionUnless m expression') := by
  refine (isAhead_inStep _).bind fun b _ hb => ?_
  cases hb
  exact .ite (.pure trivial) ((h.weaken (Nat.zero_le 1)).map fun _ _ _ => trivial)

theorem varDecl_inStep (h : ExprInStep n n' expression expression') :
    InStep ExpressionKind true n n' 1 Whatever (varDecl expression) (varDecl expression') := by
  refine (expect_inStep expressionKind_of_isIdentifier _).bind fun name _ hname => ?_
  cases hname
  have hend {m m' : Nat} (initializer initializer' : Option Expr) :
      InStep ExpressionKind true m m' 0 Whatever
        (do
          let _ ← expect (Kind.isMark .semicolon) .variableEnd
          pure (Stmt.varDecl name initializer))
        (do
          let _ ← expect (Kind.isMark .semicolon) .variableEnd
          pure (Stmt.varDecl name initializer')) :=
    ((semicolon_inStep _).weaken (Nat.zero_le 1)).returning fun _ _ _ => trivial
  refine accept_inStep (expressionKind_of_isMark rfl) (hend none none) fun _ _ _ => ?_
  have hvalue : InStep ExpressionKind false (n - 1 - 1) (n' - 1 - 1) 0 Whatever
      (some <$> expression) (some <$> expression') :=
    ((h.mono (by omega) (by omega)).weaken (Nat.zero_le 1)).map fun _ _ _ => trivial
  exact hvalue.bind fun _ _ _ => hend _ _

/-- At the end of the source there are no more declarations. -/
theorem declarations_at_end {stops : Kind → Bool} {c : Cursor} (hrest : c.rest = [])
    (limit : Nat) : declarations declaration stops limit c = .ok [] c := by
  cases limit with
  | zero => rfl
  | succ limit =>
    unfold declarations
    simp only [bind_apply, atEnd, isAhead, hrest]
    rfl

/-- Declarations with a limit for those behind the first. -/
theorem declarations_apply {stops : Kind → Bool} {c : Cursor} (h : c.rest.length ≤ limit) :
    declarations declaration stops limit c = (do
      if (← atEnd) || (← isAhead stops) then pure []
      else
        let first ← declaration
        let others ← declarations declaration stops (limit - 1)
        match first with
        | some s => pure (s :: others)
        | none => pure others) c := by
  cases limit with
  | zero =>
    have hrest := List.length_eq_zero_iff.mp (Nat.le_zero.mp h)
    simp only [bind_apply, atEnd, isAhead, hrest]
    rfl
  | succ limit => rfl

/-- Declarations are read in step: each of them takes a token, so that what bounds the tokens ahead
of it bounds those ahead of the others, less one. -/
theorem declarations_inStep (h : AnyInStep n n' 1 declaration declaration') (stops : Kind → Bool)
    {m m' : Nat} (hm : m ≤ n) (hm' : m' ≤ n') (hlimit : m ≤ limit) (hlimit' : m' ≤ limit') :
    AnyInStep m m' 0 (declarations declaration stops limit)
      (declarations declaration' stops limit') := by
  induction m generalizing m' limit limit' with
  | zero =>
    refine .of_empty (.inl rfl) fun c d _ hrest hrest' => ?_
    unfold InStepFrom
    rw [declarations_at_end hrest, declarations_at_end hrest']
    exact ⟨trivial, [], [], .still rfl rfl rfl rfl rfl rfl⟩
  | succ m ih =>
    refine InStep.congr ?_ (fun c hc => declarations_apply (Nat.le_trans hc hlimit))
      fun d hd => declarations_apply (Nat.le_trans hd hlimit')
    refine atEnd_inStep.bind fun b _ hb => (isAhead_inStep stops).bind fun b' _ hb' => ?_
    cases hb
    cases hb'
    refine .ite (.pure trivial) ((h.mono hm hm').bind fun first first' _ => ?_)
    have hothers : AnyInStep m (m' - 1) 0 (declarations declaration stops (limit - 1))
        (declarations declaration' stops (limit' - 1)) :=
      ih (Nat.le_of_succ_le hm) (Nat.le_trans (Nat.sub_le ..) hm') (Nat.le_sub_of_add_le hlimit)
        (Nat.sub_le_sub_right hlimit' 1)
    refine hothers.bind fun others others' _ => ?_
    cases first <;> cases first' <;> exact .pure trivial

theorem blockEnd_inStep (h : AnyInStep n n' 1 declaration declaration') (hlimit : n ≤ limit)
    (hlimit' : n' ≤ limit') :
    AnyInStep n n' 0 (blockEnd declaration limit) (blockEnd declaration' limit') :=
  (declarations_inStep h _ (Nat.le_refl n) (Nat.le_refl n') hlimit hlimit').bind fun _ _ _ =>
    ((expect_any_inStep _ _).weaken (Nat.zero_le 1)).returning fun _ _ _ => trivial

theorem parameter_inStep (before : Nat) :
    AnyInStep n n' 1 (parameter before) (parameter before) :=
  counted_inStep (expect_any_inStep _ _) before _

theorem function_inStep (h : AnyInStep n n' 1 declaration declaration') (hpos : 0 < limit)
    (hpos' : 0 < limit') (hlimit : n ≤ limit) (hlimit' : n' ≤ limit') (kind : RoutineKind) :
    AnyInStep n n' 1 (function declaration limit kind) (function declaration' limit' kind) := by
  refine (expect_any_inStep _ _).bind fun _ _ _ => ?_
  refine ((expect_any_inStep _ _).weaken (Nat.zero_le 1)).bind fun _ _ _ => ?_
  have hparams : AnyInStep (n - 1) (n' - 1) 0 (parenthesized parameter limit)
      (parenthesized parameter limit') :=
    parenthesized_inStep (fun _ _ => trivial) parameter_inStep (by omega) (by omega)
  refine hparams.bind fun _ _ _ => ?_
  refine ((expect_any_inStep _ _).weaken (Nat.zero_le 1)).bind fun _ _ _ => ?_
  refine ((expect_any_inStep _ _).weaken (Nat.zero_le 1)).bind fun _ _ _ => ?_
  have hbody := (blockEnd_inStep h hlimit hlimit').mono (Nat.sub_le n 1) (Nat.sub_le n' 1)
  exact hbody.returning fun _ _ _ => trivial

/-- At the end of the source there are no more methods. -/
theorem methods_at_end {method : Parse FunDecl} {c : Cursor} (hrest : c.rest = []) (limit : Nat) :
    methods method limit c = .ok [] c := by
  cases limit with
  | zero => rfl
  | succ limit =>
    unfold methods
    simp only [bind_apply, atEnd, isAhead, hrest]
    rfl

/-- Methods with a limit for those behind the first. -/
theorem methods_apply {method : Parse FunDecl} {c : Cursor} (h : c.rest.length ≤ limit) :
    methods method limit c = (do
      if (← atEnd) || (← isAhead (Kind.isMark .rightBrace)) then pure []
      else
        let first ← method
        let others ← methods method (limit - 1)
        pure (first :: others)) c := by
  cases limit with
  | zero =>
    have hrest := List.length_eq_zero_iff.mp (Nat.le_zero.mp h)
    simp only [bind_apply, atEnd, isAhead, hrest]
    rfl
  | succ limit => rfl

theorem methods_inStep {method method' : Parse FunDecl} (h : AnyInStep n n' 1 method method')
    {m m' : Nat} (hm : m ≤ n) (hm' : m' ≤ n') (hlimit : m ≤ limit) (hlimit' : m' ≤ limit') :
    AnyInStep m m' 0 (methods method limit) (methods method' limit') := by
  induction m generalizing m' limit limit' with
  | zero =>
    refine .of_empty (.inl rfl) fun c d _ hrest hrest' => ?_
    unfold InStepFrom
    rw [methods_at_end hrest, methods_at_end hrest']
    exact ⟨trivial, [], [], .still rfl rfl rfl rfl rfl rfl⟩
  | succ m ih =>
    refine InStep.congr ?_ (fun c hc => methods_apply (Nat.le_trans hc hlimit))
      fun d hd => methods_apply (Nat.le_trans hd hlimit')
    refine atEnd_inStep.bind fun b _ hb => (isAhead_inStep _).bind fun b' _ hb' => ?_
    cases hb
    cases hb'
    refine .ite (.pure trivial) ((h.mono hm hm').bind fun first first' _ => ?_)
    have hothers : AnyInStep m (m' - 1) 0 (methods method (limit - 1))
        (methods method' (limit' - 1)) :=
      ih (Nat.le_of_succ_le hm) (Nat.le_trans (Nat.sub_le ..) hm') (Nat.le_sub_of_add_le hlimit)
        (Nat.sub_le_sub_right hlimit' 1)
    exact hothers.returning fun _ _ _ => trivial

theorem superclass_inStep : AnyInStep n n' 0 superclass superclass := by
  refine accept_inStep (fun _ _ => trivial) (.pure trivial) fun _ _ _ => ?_
  refine ((expect_any_inStep _ _).weaken (Nat.zero_le 1)).bind fun _ _ _ => ?_
  exact freshId_inStep.returning fun _ _ _ => trivial

theorem classDecl_inStep (h : AnyInStep n n' 1 declaration declaration') (hpos : 0 < limit)
    (hpos' : 0 < limit') (hlimit : n ≤ limit) (hlimit' : n' ≤ limit') :
    AnyInStep n n' 0 (classDecl declaration limit) (classDecl declaration' limit') := by
  refine ((expect_any_inStep _ _).weaken (Nat.zero_le 1)).bind fun _ _ _ => ?_
  refine superclass_inStep.bind fun _ _ _ => ?_
  refine ((expect_any_inStep _ _).weaken (Nat.zero_le 1)).bind fun _ _ _ => ?_
  have hmethods : AnyInStep n n' 0 (methods (function declaration limit .method) limit)
      (methods (function declaration' limit' .method) limit') :=
    methods_inStep (function_inStep h hpos hpos' hlimit hlimit' .method) (Nat.le_refl n)
      (Nat.le_refl n') hlimit hlimit'
  refine hmethods.bind fun _ _ _ => ?_
  exact ((expect_any_inStep _ _).weaken (Nat.zero_le 1)).returning fun _ _ _ => trivial

theorem ifStmt_inStep (hexpr : AnyInStep n n' 1 expression expression')
    (hstmt : AnyInStep n n' 1 statement statement') :
    AnyInStep n n' 0 (ifStmt expression statement) (ifStmt expression' statement') := by
  have hstmt := hstmt.weaken (Nat.zero_le 1)
  refine ((expect_any_inStep _ _).weaken (Nat.zero_le 1)).bind fun _ _ _ => ?_
  refine (hexpr.weaken (Nat.zero_le 1)).bind fun _ _ _ => ?_
  refine ((expect_any_inStep _ _).weaken (Nat.zero_le 1)).bind fun _ _ _ => ?_
  refine hstmt.bind fun _ _ _ => accept_inStep (fun _ _ => trivial) (.pure trivial) fun _ _ _ => ?_
  exact (hstmt.mono (Nat.sub_le n 1) (Nat.sub_le n' 1)).returning fun _ _ _ => trivial

theorem whileStmt_inStep (hexpr : AnyInStep n n' 1 expression expression')
    (hstmt : AnyInStep n n' 1 statement statement') :
    AnyInStep n n' 0 (whileStmt expression statement) (whileStmt expression' statement') := by
  refine ((expect_any_inStep _ _).weaken (Nat.zero_le 1)).bind fun _ _ _ => ?_
  refine (hexpr.weaken (Nat.zero_le 1)).bind fun _ _ _ => ?_
  refine ((expect_any_inStep _ _).weaken (Nat.zero_le 1)).bind fun _ _ _ => ?_
  exact (hstmt.weaken (Nat.zero_le 1)).returning fun _ _ _ => trivial

theorem forInitializer_inStep (hexpr : ExprInStep n n' expression expression') :
    AnyInStep n n' 0 (forInitializer expression) (forInitializer expression') := by
  refine accept_inStep (fun _ _ => trivial) ?_ fun _ _ _ => .pure trivial
  refine accept_inStep (fun _ _ => trivial) ?_ fun _ _ _ => ?_
  · have hstmt := (terminated_inStep hexpr .expression .expressionEnd).anywhere
    exact (hstmt.weaken (Nat.zero_le 1)).map fun _ _ _ => trivial
  · have hvar := (varDecl_inStep hexpr).anywhere.mono (Nat.sub_le n 1) (Nat.sub_le n' 1)
    exact (hvar.weaken (Nat.zero_le 1)).map fun _ _ _ => trivial

theorem forStmt_inStep (hexpr : ExprInStep n n' expression expression')
    (hstmt : AnyInStep n n' 1 statement statement') :
    AnyInStep n n' 0 (forStmt expression statement) (forStmt expression' statement') := by
  have hclause (m : Mark) : AnyInStep n n' 0 (expressionUnless m expression)
      (expressionUnless m expression') := (expressionUnless_inStep hexpr m).anywhere
  refine ((expect_any_inStep _ _).weaken (Nat.zero_le 1)).bind fun _ _ _ => ?_
  refine (forInitializer_inStep hexpr).bind fun _ _ _ => (hclause _).bind fun _ _ _ => ?_
  refine ((expect_any_inStep _ _).weaken (Nat.zero_le 1)).bind fun _ _ _ => ?_
  refine (hclause _).bind fun _ _ _ => ?_
  refine ((expect_any_inStep _ _).weaken (Nat.zero_le 1)).bind fun _ _ _ => ?_
  exact (hstmt.weaken (Nat.zero_le 1)).returning fun _ _ _ => trivial

theorem statementWith_inStep (hstmt : AnyInStep (n - 1) (n' - 1) 1 statement statement')
    (hdecl : AnyInStep (n - 1) (n' - 1) 1 declaration declaration') (hlimit : n ≤ limit)
    (hlimit' : n' ≤ limit') :
    AnyInStep n n' 1 (statementWith limit statement declaration)
      (statementWith limit' statement' declaration') := by
  have hexpr : ExprInStep n n' (Parse.expression limit) (Parse.expression limit') :=
    expression_inStep hlimit hlimit'
  have hinner := hexpr.mono (Nat.sub_le n 1) (Nat.sub_le n' 1)
  refine .peek fun c d hc => ?_
  generalize c.ahead = t
  revert c d
  show AnyInStep n n' 1 _ _
  split
  · exact advance_inStep (forStmt_inStep hinner hstmt)
  · exact advance_inStep (ifStmt_inStep hinner.anywhere hstmt)
  · exact advance_inStep (whileStmt_inStep hinner.anywhere hstmt)
  · have hret := terminated_inStep (expressionUnless_inStep hinner .semicolon) (.ret t) .returnEnd
    exact advance_inStep (hret.anywhere.weaken (Nat.zero_le 1))
  · have hblock := blockEnd_inStep hdecl (Nat.le_trans (Nat.sub_le n 1) hlimit)
      (Nat.le_trans (Nat.sub_le n' 1) hlimit')
    exact advance_inStep (hblock.map fun _ _ _ => trivial)
  · have hprint := terminated_inStep hinner .print .printEnd
    exact advance_inStep (hprint.anywhere.weaken (Nat.zero_le 1))
  · exact (terminated_inStep hexpr .expression .expressionEnd).anywhere

theorem declarationWith_inStep (hstmt : AnyInStep (n - 1) (n' - 1) 1 statement statement')
    (hdecl : AnyInStep (n - 1) (n' - 1) 1 declaration declaration') (hpos : 0 < limit)
    (hpos' : 0 < limit') (hlimit : n ≤ limit) (hlimit' : n' ≤ limit') :
    AnyInStep n n' 1 (declarationWith limit statement declaration)
      (declarationWith limit' statement' declaration') := by
  have hbound := Nat.le_trans (Nat.sub_le n 1) hlimit
  have hbound' := Nat.le_trans (Nat.sub_le n' 1) hlimit'
  refine .peek fun c d hc => ?_
  generalize c.ahead = t
  revert c d
  show AnyInStep n n' 1 _ _
  split
  · exact advance_inStep (classDecl_inStep hdecl hpos hpos' hbound hbound')
  · have hfunction := function_inStep hdecl hpos hpos' hbound hbound' .function
    exact advance_inStep ((hfunction.weaken (Nat.zero_le 1)).map fun _ _ _ => trivial)
  · have hvar := varDecl_inStep (expression_inStep hbound hbound')
    exact advance_inStep (hvar.anywhere.weaken (Nat.zero_le 1))
  · exact statementWith_inStep hstmt hdecl hlimit hlimit'

/-- At the end of the source there is no statement. -/
theorem statementWith_at_end {c : Cursor} (hrest : c.rest = []) :
    statementWith limit statement declaration c = .error (.grammar c.ahead .expression) c := by
  unfold statementWith
  rw [bind_apply]
  simp only [Parse.peek, Cursor.ahead, hrest, List.headD_nil]
  unfold expressionStmt
  rw [bind_apply, expression_at_end hrest]
  simp only [Cursor.ahead, hrest, List.headD_nil]

theorem statement_at_end {c : Cursor} (hrest : c.rest = []) (limit : Nat) :
    Parse.statement limit c = .error (.grammar c.ahead .expression) c := by
  cases limit with
  | zero =>
    rw [Parse.statement]
    rfl
  | succ limit =>
    rw [Parse.statement]
    exact statementWith_at_end hrest

theorem declaration_at_end {c : Cursor} (hrest : c.rest = []) (limit : Nat) :
    Parse.declaration limit c = recover (fail .expression) c := by
  cases limit with
  | zero => rw [Parse.declaration]
  | succ limit =>
    have hdecl : declarationWith (limit + 1) (Parse.statement limit) (Parse.declaration limit) c =
        .error (.grammar c.ahead .expression) c := by
      unfold declarationWith
      rw [bind_apply]
      have hahead : c.ahead = ⟨.endOfSource, "", c.endLine⟩ := by
        unfold Cursor.ahead
        rw [hrest]
        rfl
      simp only [Parse.peek, hahead]
      exact hahead ▸ statementWith_at_end hrest
    rw [Parse.declaration]
    unfold recover
    rw [hdecl]
    rfl

/-- Statements and declarations nest in each other, so both are read in step at once. -/
theorem statement_declaration_inStep (hlimit : n ≤ limit) (hlimit' : n' ≤ limit') :
    AnyInStep n n' 1 (Parse.statement limit) (Parse.statement limit') ∧
      AnyInStep n n' 1 (Parse.declaration limit) (Parse.declaration limit') := by
  have hempty {n n' limit limit' : Nat} (hn : n = 0 ∨ n' = 0) :
      AnyInStep n n' 1 (Parse.statement limit) (Parse.statement limit') ∧
        AnyInStep n n' 1 (Parse.declaration limit) (Parse.declaration limit') := by
    refine ⟨.of_empty hn fun c d hc hrest hrest' => ?_,
      .of_empty hn fun c d hc hrest hrest' => ?_⟩
    · unfold InStepFrom
      rw [statement_at_end hrest, statement_at_end hrest', hc.ahead]
      exact ⟨rfl, [], [], .still rfl rfl rfl rfl rfl rfl⟩
    · have hfail : AnyInStep n n' 1 (fail .expression : Parse Stmt) (fail .expression) :=
        fail_inStep _
      have hstep := recover_inStep hfail c d hc
      unfold InStepFrom at hstep ⊢
      rw [declaration_at_end hrest, declaration_at_end hrest']
      exact hstep
  induction limit generalizing n n' limit' with
  | zero => exact hempty (.inl (Nat.le_zero.mp hlimit))
  | succ limit ih =>
    cases limit' with
    | zero => exact hempty (.inr (Nat.le_zero.mp hlimit'))
    | succ limit' =>
      obtain ⟨hstmt, hdecl⟩ := ih (Nat.sub_le_of_le_add hlimit) (Nat.sub_le_of_le_add hlimit')
      simp only [Parse.statement, Parse.declaration]
      exact ⟨statementWith_inStep hstmt hdecl hlimit hlimit',
        recover_inStep (declarationWith_inStep hstmt hdecl (Nat.succ_pos limit)
          (Nat.succ_pos limit') hlimit hlimit')⟩

end Statements

end Parse

end Lox
