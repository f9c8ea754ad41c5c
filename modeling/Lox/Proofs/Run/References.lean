/-
What `this` and `super` stand for.

At a place in a method, in a grounded record and in a chain of frames that fits the place, `this` is
the receiver of the innermost method, and `super` is the superclass of the class that declares that
method.

* `Place.Fits.receives`, `Place.Receives.inherits` — the frames through which the receiver is
  seen, and the superclass;
* `Expr.Ready.refersThis`, `Expr.Ready.refersSuper` — what the two words stand for;
* `bound_apply`, `boundMethod_of_some` — a method that is found is bound, and nothing can go wrong.
-/
import Lox.Proofs.Run.Receivers

namespace Lox

/-- What is found at a distance at which there is a variable. -/
theorem Frames.getAt_of_value? {s : Frames} {f f' : FrameId} {d : Nat} {name : String} {v : Value}
    {line : Nat} (ha : s.ancestor? f d = some f') (hv : s.value? f' name = some v) :
    s.getAt f d name line = .ok v := by
  unfold Frames.getAt
  rw [ha, Option.bind_some, hv]

/-! ### Binding methods -/

namespace Run

/-- To bind a method never fails. -/
theorem bound_apply (c : Closure) (object : Nat) (m : Machine) :
    ∃ id m', bound c object m = .ok (.callable (.closure id)) m' ∧ m'.Bound id c object :=
  ⟨_, _, rfl, m.frames.size, Array.getElem?_push_size, m.frames.parent?_define_push ..,
    m.frames.value?_define_push ..⟩

/-- The method that is found from a class on is bound. -/
theorem boundMethod_of_some {klass id : Nat} {c : Closure} {name : Token} {m : Machine}
    (hm : m.objects.method? klass name.lexeme = some id)
    (hc : m.objects.closures[id]? = some c) (object : Nat) :
    boundMethod (some klass) object name m = bound c object m := by
  have hfound : m.objects.methodClosure? klass name.lexeme = some c := by
    unfold Objects.methodClosure?
    rw [hm, Option.bind_some, hc]
  simp only [boundMethod, bind_apply, ofObjects, Option.bind_some, hfound]

/-- No method is found from a class on. -/
theorem boundMethod_of_none {klass : Nat} {name : Token} {m : Machine}
    (hm : m.objects.method? klass name.lexeme = none) (object : Nat) :
    boundMethod (some klass) object name m =
      .error (.raised (.runtime name.line (.undefinedProperty name.lexeme))) m := by
  have hnone : m.objects.methodClosure? klass name.lexeme = none := by
    unfold Objects.methodClosure?
    rw [hm, Option.bind_none]
  simp only [boundMethod, bind_apply, ofObjects, Option.bind_some, hnone]
  rfl

/-- The superclass and the receiver that are found, the receiver one frame closer. -/
theorem superReference_eq {id : NodeId} {m : Machine} {d : Nat} {f g : FrameId} {v u : Value}
    (hd : m.distances.find? id = some (d + 1))
    (hg : m.frames.ancestor? m.active (d + 1) = some g) (hv : m.frames.value? g "super" = some v)
    (hf : m.frames.ancestor? m.active d = some f) (hu : m.frames.value? f "this" = some u)
    (keyword : Token) : superReference id keyword m = .ok (v, u) m := by
  rw [superReference_apply, hd]
  simp only [Nat.add_one_sub_one, Frames.getAt_of_value? hg hv, Frames.getAt_of_value? hf hu]
  rfl

/-- Where the superclass and the receiver are found, a method of the superclass is bound. -/
theorem superMethod_apply {id : NodeId} {keyword : Token} {m : Machine} {klass object : Nat}
    (h : superReference id keyword m = .ok (.callable (.klass klass), .object object) m)
    (name : Token) : superMethod id keyword name m = boundMethod (some klass) object name m := by
  refine (bind_apply _ _ m).trans ?_
  rw [h]

end Run

/-! ### The frames of a method -/

variable {ds : Distances} {q : Site → Prop} {r : Record} {p : Place}

/-- The frame for a region around a place that the chain of frames fits. -/
theorem Place.Fits.frame_at (h : Lawful ds q r) (hf : p.Fits r) {n : Nat} {g : Region}
    (hg : p.around.regions[n]? = some g) :
    ∃ f, r.machine.frames.ancestor? r.machine.active n = some f ∧
      p.openerAt n = some g.opener ∧ .opened f (some g.opener) ∈ r.log := by
  obtain ⟨f, -, -, hat⟩ := hf.at_region h hg
  refine ⟨f, hat.ancestor, ?_, hat.opened⟩
  rw [Place.openerAt, Surroundings.openerAt, hg]
  rfl

/-- In a method the receiver is seen through the frame around the activation. -/
theorem Place.Fits.receives (h : Lawful ds q r) (hr : Grounded r) (hf : p.Fits r) {n : Nat}
    (hn : p.around.method? = some n) {kind : RegionKind}
    (hk : p.around.kinds[n + 1]? = some kind) :
    ∃ f object klass method, p.Receives r n f object klass method := by
  obtain ⟨g, hg, hmethod⟩ := Surroundings.region_of_method hn
  obtain ⟨g', hg', -⟩ := Surroundings.region_of_kind hk
  obtain ⟨a, ha, hopener, hopened⟩ := hf.frame_at h hg
  obtain ⟨f, hf', hopener', hopened'⟩ := hf.frame_at h hg'
  obtain ⟨f', object, klass, method, hparent, hbinds, hbody⟩ :=
    hr.activations a g.opener hopened hmethod
  -- the frame around the activation is the one for the region around the method
  have hsame : f' = f := by
    rw [Frames.ancestor?_succ_eq, ha, Option.bind_some, hparent] at hf'
    exact Option.some.inj hf'
  subst hsame
  exact ⟨f', object, klass, method, hn, ⟨a, ha, hopener ▸ hopened⟩, hf',
    hbody.trans hopener.symm,
    (opener_unique h.opened_once hbinds.opened hopened').trans hopener'.symm, hbinds⟩

/-- In a method of a class with a superclass, the superclass is seen through the frame around
that of the receiver. -/
theorem Place.Receives.inherits (h : Lawful ds q r) (hr : Grounded r) (hf : p.Fits r) {n : Nat}
    {f : FrameId} {object klass method : Nat} (hp : p.Receives r n f object klass method)
    (hk : p.around.kinds[n + 1]? = some (.receiver .subclass))
    (ha : p.around.kinds[n + 2]? = some .ancestor) :
    ∃ g super, p.Inherits r n klass g super := by
  obtain ⟨g₁, hg₁, hkind⟩ := Surroundings.region_of_kind hk
  obtain ⟨g₂, hg₂, -⟩ := Surroundings.region_of_kind ha
  obtain ⟨-, -, hopener₁, -⟩ := hf.frame_at h hg₁
  obtain ⟨g, hg, hopener₂, hopened₂⟩ := hf.frame_at h hg₂
  -- the class that declares the method, and the frame that its methods captured
  obtain ⟨name, hown⟩ := hp.binds.own
  obtain ⟨c, hc, hmethod⟩ := Option.bind_eq_some_iff.mp hown
  obtain ⟨-, captured, o, hdeclared⟩ := hr.classes klass c hc
  obtain ⟨m, hm, hcaptured, ho⟩ := hdeclared.methods name method hmethod
  have hopener : o = g₁.opener := Option.some.inj (ho.symm.trans (hp.around.trans hopener₁))
  have hsame : captured = g := by
    obtain ⟨m', hm', hparent⟩ := hp.binds.captured
    rw [hm] at hm'
    cases hm'
    rw [Frames.ancestor?_succ_eq, hp.receiver, Option.bind_some, hparent] at hg
    exact hcaptured.symm.trans (Option.some.inj hg)
  subst hsame
  have hsuper : ∃ super, c.superclass = some super := by
    have hdeclares := hdeclared.kind
    rw [hopener, hkind] at hdeclares
    cases hs : c.superclass with
    | some super => exact ⟨super, rfl⟩
    | none => rw [hs] at hdeclares; cases hdeclares
  obtain ⟨super, hs⟩ := hsuper
  exact ⟨captured, super, hg, hopener₂ ▸ hopened₂, hdeclared.superclass super hs, o, c,
    hopener ▸ hopener₁, hc, hdeclared, hs⟩

/-! ### The two words -/

section

variable {a : Surroundings} {id : NodeId} {keyword : Token}

/-- An accepted `this` stands in a class. -/
theorem Site.Good.klass_ne (h : Site.Good ds ⟨a, .occurrence ⟨id, .this_, keyword⟩⟩) :
    a.klass ≠ .noClass := by
  have hno := Site.faultIf_eq_nil.mp h.faults
  simpa using hno

/-- An accepted `super` stands in a class with a superclass. -/
theorem Site.Good.klass_eq (h : Site.Good ds ⟨a, .occurrence ⟨id, .super_, keyword⟩⟩) :
    a.klass = .subclass := by
  have hfaults : Site.faultIf (a.klass == .noClass) keyword .superOutsideClass ++
      Site.faultIf (a.klass == .rootClass) keyword .superWithoutSuperclass = [] := h.faults
  obtain ⟨hno, hroot⟩ := List.append_eq_nil_iff.mp hfaults
  replace hno := Site.faultIf_eq_nil.mp hno
  replace hroot := Site.faultIf_eq_nil.mp hroot
  cases hk : a.klass with
  | noClass => rw [hk] at hno; cases hno
  | rootClass => rw [hk] at hroot; cases hroot
  | subclass => rfl

end

section

variable (hq : ∀ x, q x → x.Good ds) (hplaced : ∀ x, q x → x.Placed)
  (h : Lawful ds q r) (hr : Grounded r) (hf : p.Fits r)

include hq hplaced h hr hf

/-- `this` is the receiver of the innermost method. -/
theorem Expr.Ready.refersThis {id : NodeId} {keyword : Token}
    (he : (Expr.thisRef id keyword).Ready q p) : RefersThis p r id keyword := by
  have hsite : q ⟨p.around, .occurrence ⟨id, .this_, keyword⟩⟩ :=
    he.sites _ (List.mem_singleton_self _)
  have hgood := hq _ hsite
  have hlayered := (hplaced _ hsite).layered
  have hword : keyword.lexeme = "this" := (hgood.proper _ rfl).lexeme_eq
  obtain ⟨n, hn, hkind, -⟩ := Surroundings.exists_method hlayered hgood.klass_ne
  obtain ⟨f, object, klass, method, hreceives⟩ := hf.receives h hr hn hkind
  have hfind : r.machine.distances.find? id = some (n + 1) := by
    rw [h.distances, hgood.known _ rfl]
    show p.around.distance? keyword.lexeme = _
    rw [hword, Surroundings.distance?_this_eq hlayered he.genuine, hn]
    rfl
  refine ⟨n, f, object, klass, method, hreceives, hfind, fun fuel => ?_⟩
  have hget : r.machine.frames.getAt r.machine.active (n + 1) "this" keyword.line =
      .ok (.object object) := Frames.getAt_of_value? hreceives.receiver hreceives.binds.receiver
  show Run.lookUp id keyword r.machine = _
  unfold Run.lookUp
  simp only [hfind, hword, hget]
  rfl

/-- `super` is the superclass of the class that declares the innermost method. -/
theorem Expr.Ready.refersSuper {id : NodeId} {keyword name : Token}
    (he : (Expr.superRef id keyword name).Ready q p) : RefersSuper p r id keyword name := by
  have hsite : q ⟨p.around, .occurrence ⟨id, .super_, keyword⟩⟩ :=
    he.sites _ (List.mem_singleton_self _)
  have hgood := hq _ hsite
  have hlayered := (hplaced _ hsite).layered
  have hword : keyword.lexeme = "super" := (hgood.proper _ rfl).lexeme_eq
  have hclass := hgood.klass_eq
  obtain ⟨n, hn, hkind, hancestor⟩ := Surroundings.exists_method hlayered (by simp [hclass])
  obtain ⟨f, object, klass, method, hreceives⟩ := hf.receives h hr hn hkind
  obtain ⟨g, super, hinherits⟩ :=
    hreceives.inherits h hr hf (hclass ▸ hkind) (hancestor hclass)
  have hfind : r.machine.distances.find? id = some (n + 2) := by
    rw [h.distances, hgood.known _ rfl]
    show p.around.distance? keyword.lexeme = _
    rw [hword, Surroundings.distance?_super_eq hlayered he.genuine hclass, hn]
    rfl
  refine ⟨n, f, object, klass, method, g, super, hreceives, hinherits, hfind, fun fuel => ?_⟩
  have hreference := Run.superReference_eq hfind hinherits.frame hinherits.value
    hreceives.receiver hreceives.binds.receiver keyword
  have hrun : Run.evaluate (fuel + 1) (.superRef id keyword name) r.machine = _ :=
    Run.superMethod_apply hreference name
  rw [hrun]
  cases hfound : r.machine.objects.method? super name.lexeme with
  | none => exact Run.boundMethod_of_none hfound object
  | some found =>
    -- each method that a class declares has its closure
    obtain ⟨k, -, hown⟩ := Objects.exists_own_of_method? hfound
    obtain ⟨c, hc, -⟩ := h.methods k _ found hown
    obtain ⟨bound, m, hbound, hm⟩ := Run.bound_apply c object r.machine
    exact ⟨c, bound, m, hc, (Run.boundMethod_of_some hfound hc object).trans hbound, hm⟩

omit hq hplaced h hf in
/-- The superclass that `super` stands for is in the lineage of the receiver. -/
theorem RefersSuper.reference {id : NodeId} {keyword name : Token}
    (hs : RefersSuper p r id keyword name) : ∃ k object k₀,
      Run.superReference id keyword r.machine =
        .ok (.callable (.klass k), .object object) r.machine ∧
      r.machine.objects.classOf? object = some k₀ ∧ k ∈ r.machine.objects.lineage k₀ := by
  obtain ⟨n, f, object, klass, method, g, k, hreceives, hinherits, hfind, -⟩ := hs
  obtain ⟨-, c, -, hc, -, hk⟩ := hinherits.declared
  obtain ⟨k₀, hk₀, hl⟩ := hreceives.binds.heir
  refine ⟨k, object, k₀, Run.superReference_eq hfind hinherits.frame hinherits.value
    hreceives.receiver hreceives.binds.receiver keyword, hk₀, ?_⟩
  refine Objects.mem_lineage_superclass hl (Option.bind_eq_some_iff.mpr ⟨c, hc, hk⟩) ?_
  exact (hr.classes klass c hc).1 k hk

/-- What a ready expression that is met refers to. -/
theorem Expr.Ready.refers {e : Expr} (he : e.Ready q p) : Refers p (.expression e) r where
  this id keyword heq := by
    cases heq
    exact he.refersThis hq hplaced h hr hf
  super id keyword name heq := by
    cases heq
    exact he.refersSuper hq hplaced h hr hf

end

/-- A statement that is met refers to nothing itself. -/
theorem Refers.statement (p : Place) (s : Stmt) (r : Record) : Refers p (.statement s) r :=
  ⟨fun _ _ he => (by cases he), fun _ _ _ he => (by cases he)⟩

end Lox
