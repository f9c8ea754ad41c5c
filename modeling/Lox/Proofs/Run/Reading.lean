/-
Reading and writing at a place.

At a place around which the regions are matched by a chain of frames, each name that is visible is
found in the frame that is as many links out as regions lie between.

* `Fits.chain` — the frames outwards, each with what opened it and with its variables;
* `Place.Fits.chainAgrees`, `Expr.Ready.readAgrees` — a node that is met at such a place agrees
  with it;
* `Run.superReference_apply` — what `super` stands for is read at the distance of its node;
* `store_visible` — an assignment writes to the cell of the declaration that is visible;
* `Place.Fits.ownCell_known` — a declaration writes to a cell of the innermost frame.
-/
import Lox.Proofs.Run.Steps

namespace Lox

variable {ds : Distances} {q : Site → Prop} {r : Record} {p : Place}

/-- A frame in the chain of a fitting frame: it is the `k`-th one outwards and was opened for the
`k`-th region. -/
structure Fits.At (r : Record) (absent : String → Prop) (f : FrameId) (k : Nat) (f' : FrameId)
    (g : Region) : Prop where
  ancestor : r.machine.frames.ancestor? f k = some f'
  opened : .opened f' (some g.opener) ∈ r.log
  defines : ∀ x ∈ g.names, ¬ (k = 0 ∧ absent x) → r.machine.frames.defines f' x = true

/-- The frames outwards from a fitting frame are one for each region, and the globals. -/
theorem Fits.chain (h : Lawful ds q r) {absent : String → Prop} {regions : List Region}
    {f : FrameId} (hf : Fits r absent regions f) :
    ∃ fs, r.machine.frames.outwards f = fs ++ [globals] ∧ globals ∉ fs ∧
      fs.length = regions.length ∧
      ∀ k f' g, fs[k]? = some f' → regions[k]? = some g → Fits.At r absent f k f' g := by
  induction regions generalizing f absent with
  | nil =>
    cases hf
    exact ⟨[], Frames.outwards_of_none _ h.globals_parent, by simp, rfl, by simp⟩
  | cons g outer ih =>
    obtain ⟨ho, hd, parent, hp, hlt, hout⟩ := hf
    obtain ⟨fs, hfs, hg, hlen, hat⟩ := ih hout
    refine ⟨f :: fs, ?_, ?_, by rw [List.length_cons, List.length_cons, hlen], ?_⟩
    · rw [Frames.outwards_eq _ hp hlt, hfs, List.cons_append]
    · rw [List.mem_cons, not_or]
      exact ⟨Ne.symm (h.opened_lt _ _ ho).2, hg⟩
    · intro k f' g' hf' hg'
      cases k with
      | zero =>
        cases hf'
        cases hg'
        exact ⟨rfl, ho, fun x hx hn => hd x hx fun ha => hn ⟨rfl, ha⟩⟩
      | succ k =>
        obtain ⟨ha, hopen, hdef⟩ := hat k f' g' hf' hg'
        refine ⟨?_, hopen, fun x hx _ => hdef x hx fun hn => hn.2⟩
        rw [Frames.ancestor?_succ _ hp, ha]

/-- The frame for a region of a fitting chain. -/
theorem Fits.at_region (h : Lawful ds q r) {absent : String → Prop} {regions : List Region}
    {f : FrameId} (hf : Fits r absent regions f) {k : Nat} {g : Region}
    (hg : regions[k]? = some g) :
    ∃ f', (r.machine.frames.outwards f)[k]? = some f' ∧ f' ≠ globals ∧
      Fits.At r absent f k f' g := by
  obtain ⟨fs, hfs, hglobals, hlen, hat⟩ := hf.chain h
  have hk : k < fs.length := hlen ▸ (List.getElem?_eq_some_iff.mp hg).1
  have hget : fs[k]? = some fs[k] := List.getElem?_eq_getElem hk
  refine ⟨fs[k], ?_, ?_, hat k _ g hget hg⟩
  · rw [hfs, List.getElem?_append_left hk, hget]
  · exact fun he => hglobals (he ▸ List.getElem_mem hk)

/-! ### Regions and scopes -/

/-- The `k`-th scope of a walk shows the `k`-th region. -/
theorem Walk.Matches.getElem? {w : Walk} {a : Surroundings} (h : w.Matches a) {k : Nat}
    {scope : Scope} (hs : w.scopes[k]? = some scope) :
    ∃ g, a.regions[k]? = some g ∧ scope.Shows g := by
  obtain ⟨scopes, distances, faults⟩ := w
  obtain ⟨position, regions⟩ := a
  unfold Walk.Matches at h
  simp only at h hs ⊢
  induction h generalizing k with
  | nil => simp at hs
  | cons hsg _ ih =>
    cases k with
    | zero =>
      cases hs
      exact ⟨_, rfl, hsg⟩
    | succ k => exact ih hs

/-- The region in which a name is first visible. -/
theorem Surroundings.region_of_distance? {a : Surroundings} {x : String} {d : Nat}
    (h : a.distance? x = some d) : ∃ g, a.regions[d]? = some g ∧ x ∈ g.names := by
  unfold Surroundings.distance? at h
  obtain ⟨hlt, hx, -⟩ := List.findIdx?_eq_some_iff_getElem.mp h
  exact ⟨a.regions[d], List.getElem?_eq_getElem hlt, by simpa using hx⟩

/-- A region in which a reserved word is visible has no initializer. -/
theorem Region.Genuine.pending_of_word {g : Region} (hg : g.Genuine) {k : Keyword}
    (hx : k.text ∈ g.names) : g.pending = none := by
  obtain ⟨⟨kind, position⟩, names, pending⟩ := g
  unfold Region.Genuine at hg
  cases kind with
  | receiver c => exact hg.2.2
  | ancestor => exact hg.2
  | block => exact absurd rfl (hg _ hx k)
  | routine s => exact absurd rfl (hg _ hx k)

/-! ### Nodes that are met -/

/-- The chain of frames at a place that it fits agrees with the scopes there. -/
theorem Place.Fits.chainAgrees (h : Lawful ds q r) (hm : p.walk.Matches p.around)
    (hf : p.Fits r) : ChainAgrees r.log p r.machine := by
  obtain ⟨fs, hfs, hglobals, hlen, hat⟩ := hf.chain h
  refine ⟨fs, hfs, hglobals, hlen.trans (List.Forall₂.length_eq hm).symm, ?_⟩
  intro k f scope hk hs
  obtain ⟨g, hg, hshows⟩ := hm.getElem? hs
  obtain ⟨-, hopen, hdef⟩ := hat k f g hk hg
  refine ⟨⟨g.opener, by rw [Place.openerAt, Surroundings.openerAt, hg]; rfl, hopen⟩,
    fun x hx hn => hdef x ?_ ?_⟩
  · have hc := hshows.contains_eq x
    unfold NameTable.contains at hc
    rw [hx] at hc
    simpa using hc.symm
  · rintro ⟨rfl, hpend | hdecl⟩
    · -- a name that is marked as defined is not being initialized
      obtain ⟨g', hg', hpend⟩ := hpend
      rw [List.head?_eq_getElem?, hg] at hg'
      cases hg'
      rw [← hshows.pending_iff x, hx] at hpend
      cases hpend
    · exact hn ⟨rfl, hdecl⟩

/-- A read occurrence of a ready expression is a variable that is not being initialized, or a
reserved word. -/
theorem Expr.Ready.not_absent (hq : ∀ x, q x → x.Good ds) {e : Expr} (he : e.Ready q p)
    {o : Occurrence} (ho : o ∈ (Node.expression e).read?)
    {g : Region} (hg : p.around.regions[0]? = some g) (hx : o.token.lexeme ∈ g.names) :
    ¬ p.Absent o.token.lexeme := by
  have hgen : g.Genuine := he.genuine g (List.mem_of_getElem? hg)
  have hhead : p.around.regions.head? = some g := by rw [List.head?_eq_getElem?, hg]
  have hword : ∀ {k : Keyword}, o.token.IsWord k → p.declaring ≠ some o.token.lexeme →
      ¬ p.Absent o.token.lexeme := by
    rintro k hk hdecl (⟨g', hg', hpend⟩ | hd)
    · rw [hhead] at hg'
      cases hg'
      rw [hgen.pending_of_word (k := k) (hk.lexeme_eq ▸ hx)] at hpend
      cases hpend
    · exact hdecl hd
  -- the site of a variable is good, so the name is not the one that is being initialized
  cases e with
  | var id name =>
    cases ho
    have hgood := hq _ (he.sites _ (List.mem_singleton_self _))
    rintro (⟨g', hg', hpend⟩ | hd)
    · rw [hhead] at hg'
      cases hg'
      have hp : p.around.isPending name = false := Site.faultIf_eq_nil.mp hgood.faults
      unfold Surroundings.isPending at hp
      cases hr : p.around.regions with
      | nil =>
        rw [hr] at hhead
        cases hhead
      | cons g' outer =>
        rw [hr] at hhead hp
        cases hhead
        simp only [hpend, beq_self_eq_true] at hp
        cases hp
    · exact he.other _ (List.mem_singleton_self _) hd
  | thisRef id keyword =>
    cases ho
    have hgood := hq _ (he.sites _ (List.mem_singleton_self _))
    exact hword (hgood.proper _ rfl) (he.other _ (List.mem_singleton_self _))
  | superRef id keyword method =>
    cases ho
    have hgood := hq _ (he.sites _ (List.mem_singleton_self _))
    exact hword (hgood.proper _ rfl) (he.other _ (List.mem_singleton_self _))
  | _ => cases ho

theorem Node.read?_mem {e : Expr} {o : Occurrence} (ho : o ∈ (Node.expression e).read?) :
    o ∈ e.occurrences := by
  cases e with
  | var id name =>
    cases ho
    exact List.mem_singleton_self _
  | thisRef id keyword =>
    cases ho
    exact List.mem_singleton_self _
  | superRef id keyword method =>
    cases ho
    exact List.mem_singleton_self _
  | _ => cases ho

/-- A ready expression that is read finds its variable, which holds what was last written to it. -/
theorem Expr.Ready.readAgrees (hq : ∀ x, q x → x.Good ds) (h : Lawful ds q r) {e : Expr}
    (he : e.Ready q p) (hf : p.Fits r) : ReadAgrees r.log p (.expression e) r.machine := by
  intro o ho
  have hgood := hq _ (he.sites _ (List.mem_map.mpr ⟨o, Node.read?_mem ho, rfl⟩))
  have hfind : r.machine.distances.find? o.id = p.around.distance? o.token.lexeme := by
    rw [h.distances]
    exact hgood.known o rfl
  refine ⟨hfind.trans (he.shown.distance?_eq _).symm, fun d hd => ?_⟩
  rw [hfind] at hd
  obtain ⟨g, hg, hx⟩ := Surroundings.region_of_distance? hd
  obtain ⟨f, hout, hne, hat⟩ := hf.at_region h hg
  have hdef : r.machine.frames.defines f o.token.lexeme = true := by
    refine hat.defines _ hx ?_
    rintro ⟨rfl, ha⟩
    exact he.not_absent hq ho hg hx ha
  obtain ⟨v, hv⟩ := (r.machine.frames.defines_iff).mp hdef
  refine ⟨f, v, g.opener, hout, hne, hat.ancestor, ?_, hat.opened, hv, ?_⟩
  · rw [Place.openerAt, Surroundings.openerAt, hg]
    rfl
  · rw [← h.holds f _ hat.opened, hv]

/-- What `super` stands for is read off the frames at the distance of the node. -/
theorem Run.superReference_apply (id : NodeId) (keyword : Token) (m : Machine) :
    Run.superReference id keyword m = Run.ofExcept (match m.distances.find? id with
      | none => .error (Frames.undefined "super" keyword.line)
      | some d => do
        let superclass ← m.frames.getAt m.active d "super" keyword.line
        let receiver ← m.frames.getAt m.active (d - 1) "this" keyword.line
        pure (superclass, receiver)) m := by
  refine (Run.bind_apply _ _ m).trans ?_
  cases m.distances.find? id with
  | none => rfl
  | some d =>
    show _ = Run.ofExcept (do
      let superclass ← m.frames.getAt m.active d "super" keyword.line
      let receiver ← m.frames.getAt m.active (d - 1) "this" keyword.line
      pure (superclass, receiver)) m
    refine (Run.bind_apply (Run.getAt m.active d "super" keyword.line) _ m).trans ?_
    unfold Run.getAt
    cases m.frames.getAt m.active d "super" keyword.line with
    | error e => rfl
    | ok superclass =>
      refine (Run.bind_apply (Run.getAt m.active (d - 1) "this" keyword.line) _ m).trans ?_
      unfold Run.getAt
      cases m.frames.getAt m.active (d - 1) "this" keyword.line with
      | error e => rfl
      | ok receiver => rfl

/-! ### Writing -/

/-- In the innermost region a name is being initialized if the walk shows it as pending. -/
theorem Walk.Matches.pending_of_isPending {w : Walk} {a : Surroundings} (h : w.Matches a)
    {name : Token} (hp : w.isPending name = false) {g : Region}
    (hg : a.regions.head? = some g) : g.pending ≠ some name.lexeme := by
  intro hpend
  obtain ⟨scopes, distances, faults⟩ := w
  obtain ⟨position, regions⟩ := a
  unfold Walk.Matches at h
  unfold Walk.isPending at hp
  cases h with
  | nil => cases hg
  | cons hshows _ =>
    cases hg
    rw [← hshows.pending_iff name.lexeme] at hpend
    simp only [hpend, beq_self_eq_true] at hp
    cases hp

/-- A ready assignment finds its variable, unless it stands in the initializer of that variable. -/
theorem Expr.Ready.writeAgrees (hq : ∀ x, q x → x.Good ds) (h : Lawful ds q r) {e : Expr}
    (he : e.Ready q p) (hf : p.Fits r) : WriteAgrees p (.expression e) r.machine := by
  intro o ho
  cases e with
  | assign id name value =>
    cases ho
    have hmem : (⟨id, .assign, name⟩ : Occurrence) ∈ (Expr.assign id name value).occurrences :=
      List.mem_cons_self ..
    have hgood := hq _ (he.sites _ (List.mem_map.mpr ⟨_, hmem, rfl⟩))
    have hfind : r.machine.distances.find? id = p.around.distance? name.lexeme := by
      rw [h.distances]
      exact hgood.known _ rfl
    refine ⟨hfind.trans (he.shown.distance?_eq _).symm, fun d hd => ?_⟩
    rw [hfind] at hd
    obtain ⟨g, hg, hx⟩ := Surroundings.region_of_distance? hd
    obtain ⟨f, hout, hne, hat⟩ := hf.at_region h hg
    refine ⟨f, hout, hne, hat.ancestor, fun hpend => hat.defines _ hx ?_⟩
    rintro ⟨rfl, ⟨g', hg', hinit⟩ | hdecl⟩
    · exact he.shown.pending_of_isPending hpend hg' hinit
    · exact he.other _ hmem hdecl
  | _ => cases ho

/-- The cell of a declaration at a place that the chain of frames fits. -/
theorem Place.Fits.ownCell_known (hf : p.Fits r) (x : String) : (r.ownCell p x).Known r := by
  unfold Place.Fits at hf
  unfold Record.ownCell Place.openerAt Surroundings.openerAt
  cases hr : p.around.regions with
  | nil =>
    rw [hr] at hf
    exact Or.inl ⟨hf, rfl⟩
  | cons g outer =>
    rw [hr] at hf
    exact Or.inr hf.1

/-- The variable of a global is in the frame of the globals alone. -/
theorem Lawful.holder?_globals (h : Lawful ds q r) (x : String) :
    r.machine.frames.holder? globals x =
      if r.machine.frames.defines globals x then some globals else none := by
  unfold Frames.holder?
  rw [Frames.outwards_of_none _ h.globals_parent, List.find?_cons, List.find?_nil]
  cases r.machine.frames.defines globals x <;> rfl

/-- The cell of the declaration that is visible at a place, if it is a local one. -/
theorem Place.Fits.visibleCell_eq (h : Lawful ds q r) (hf : p.Fits r) {x : String} {d : Nat}
    (hd : p.around.distance? x = some d) :
    ∃ f o, r.machine.frames.ancestor? r.machine.active d = some f ∧ p.openerAt d = some o ∧
      .opened f (some o) ∈ r.log ∧ r.visibleCell p x = ⟨f, some o, x⟩ := by
  obtain ⟨g, hg, -⟩ := Surroundings.region_of_distance? hd
  obtain ⟨f, -, -, hat⟩ := hf.at_region h hg
  have ho : p.openerAt d = some g.opener := by
    rw [Place.openerAt, Surroundings.openerAt, hg]
    rfl
  refine ⟨f, g.opener, hat.ancestor, ho, hat.opened, ?_⟩
  unfold Record.visibleCell
  simp only [hd, hat.ancestor, ho, Option.getD_some]

/-- An assignment writes to the cell of the declaration that is visible at its place, unless that
would be a global which does not exist. -/
theorem store_visible (h : Lawful ds q r) (hf : p.Fits r) {o : Occurrence}
    (hgood : Site.Good ds ⟨p.around, .occurrence o⟩) (v : Value) :
    (Traced.store p o.id o.token v r = .ok () (r.write (r.visibleCell p o.token.lexeme) v) ∧
      (r.visibleCell p o.token.lexeme).Known r) ∨
    ∃ halt, Traced.store p o.id o.token v r = .error halt r := by
  have hfind : r.machine.distances.find? o.id = p.around.distance? o.token.lexeme :=
    h.distances ▸ hgood.known o rfl
  unfold Traced.store Traced.noting Run.store
  simp only [hfind]
  cases hd : p.around.distance? o.token.lexeme with
  | some d =>
    obtain ⟨f, opener, ha, -, hopened, hcell⟩ := hf.visibleCell_eq h hd
    refine Or.inl ⟨?_, hcell ▸ Or.inr hopened⟩
    simp only [ha, Run.assignIn, hcell]
    rfl
  | none =>
    have hcell : r.visibleCell p o.token.lexeme = ⟨globals, none, o.token.lexeme⟩ := by
      unfold Record.visibleCell
      rw [hd]
    simp only [h.holder?_globals, hcell]
    cases r.machine.frames.defines globals o.token.lexeme with
    | true => exact Or.inl ⟨rfl, Or.inl ⟨rfl, rfl⟩⟩
    | false => exact Or.inr ⟨_, rfl⟩

end Lox
