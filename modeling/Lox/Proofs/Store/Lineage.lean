/-
Lineages of classes.

Classes are only added, and a class keeps its superclass and its methods.  So a class that is in the
lineage of another one stays there.

* `mem_chain_trans`, `mem_chain_mono` — chains go on where one of their elements links to, and grow
  with the links;
* `Objects.mem_lineage_superclass` — the superclass of a class of a lineage is in it;
* `Objects.exists_own_of_method?` — a method that is found in a class is declared by a class of its
  lineage;
* `Objects.Extends` — what becomes of the objects: classes and instances keep
  what they were made with;
* `Objects.field?_setField_cases` — a write to a field brings in no value but the written one.
-/
import Lox.Store.Objects

namespace Lox

/-! ### Chains -/

section

variable {next next' : Nat → Option Nat} {i j k : Nat}

theorem mem_chain_self (next : Nat → Option Nat) (i : Nat) : i ∈ chain next i := by
  rw [chain_eq]
  exact List.mem_cons_self ..

/-- An element of a chain is its first one, or in the chain of what that links to. -/
theorem mem_chain_iff :
    k ∈ chain next i ↔ k = i ∨ ∃ j, next i = some j ∧ j < i ∧ k ∈ chain next j := by
  rw [chain_eq, List.mem_cons]
  refine or_congr_right ?_
  cases hn : next i with
  | none => simp
  | some j => by_cases hj : j < i <;> simp [hj]

/-- A chain goes on from each of its elements. -/
theorem mem_chain_trans (hk : k ∈ chain next i) (hj : j ∈ chain next k) : j ∈ chain next i := by
  induction i using Nat.strongRecOn with
  | _ i ih =>
    rcases mem_chain_iff.mp hk with rfl | ⟨l, hl, hlt, hk⟩
    · exact hj
    · exact mem_chain_iff.mpr (Or.inr ⟨l, hl, hlt, ih l hlt hk⟩)

/-- With more links a chain has more elements. -/
theorem mem_chain_mono (h : ∀ i j, next i = some j → next' i = some j) (hk : k ∈ chain next i) :
    k ∈ chain next' i := by
  induction i using Nat.strongRecOn with
  | _ i ih =>
    rcases mem_chain_iff.mp hk with rfl | ⟨l, hl, hlt, hk⟩
    · exact mem_chain_self next' k
    · exact mem_chain_iff.mpr (Or.inr ⟨l, h i l hl, hlt, ih l hlt hk⟩)

end

namespace Objects

variable {o : Objects} {k : Nat}

/-! ### Lineages -/

theorem mem_lineage_self (o : Objects) (k : Nat) : k ∈ o.lineage k :=
  mem_chain_self o.superclass? k

/-- The superclass of a class of a lineage is in the lineage. -/
theorem mem_lineage_superclass {k₀ k' : Nat} (hk : k ∈ o.lineage k₀)
    (hs : o.superclass? k = some k') (hlt : k' < k) : k' ∈ o.lineage k₀ := by
  refine mem_chain_trans hk (mem_chain_iff.mpr (Or.inr ⟨k', hs, hlt, ?_⟩))
  exact mem_chain_self o.superclass? k'

/-- A method that is found in a class is declared by a class of its lineage. -/
theorem exists_own_of_method? {name : String} {id : Nat} (h : o.method? k name = some id) :
    ∃ k' ∈ o.lineage k, o.ownMethod? k' name = some id :=
  List.exists_of_findSome?_eq_some h

/-! ### Growing objects -/

/-- What becomes of the classes and instances: they keep what they were made with. -/
structure Extends (o o' : Objects) : Prop where
  classes : ∀ (k : Nat) (c : ClassObject), o.classes[k]? = some c → o'.classes[k]? = some c
  instances : ∀ i k, o.classOf? i = some k → o'.classOf? i = some k

namespace Extends

variable {o' o'' : Objects}

theorem refl (o : Objects) : o.Extends o := ⟨fun _ _ h => h, fun _ _ h => h⟩

theorem trans (h : o.Extends o') (h' : o'.Extends o'') : o.Extends o'' :=
  ⟨fun k c hc => h'.classes k c (h.classes k c hc),
    fun i k hk => h'.instances i k (h.instances i k hk)⟩

theorem superclass? (h : o.Extends o') {k' : Nat} (hs : o.superclass? k = some k') :
    o'.superclass? k = some k' := by
  obtain ⟨c, hc, hk'⟩ := Option.bind_eq_some_iff.mp hs
  exact Option.bind_eq_some_iff.mpr ⟨c, h.classes k c hc, hk'⟩

theorem ownMethod? (h : o.Extends o') {name : String} {id : Nat}
    (hm : o.ownMethod? k name = some id) : o'.ownMethod? k name = some id := by
  obtain ⟨c, hc, hid⟩ := Option.bind_eq_some_iff.mp hm
  exact Option.bind_eq_some_iff.mpr ⟨c, h.classes k c hc, hid⟩

theorem mem_lineage (h : o.Extends o') {k₀ : Nat} (hk : k ∈ o.lineage k₀) : k ∈ o'.lineage k₀ :=
  mem_chain_mono (fun _ _ hs => h.superclass? hs) hk

theorem size_le (h : o.Extends o') : o.classes.size ≤ o'.classes.size := by
  refine Nat.le_of_not_lt fun hlt => ?_
  have hlast := Array.getElem?_eq_getElem hlt
  exact absurd (Array.getElem?_eq_some_iff.mp (h.classes _ _ hlast)).1 (Nat.lt_irrefl _)

/-- The classes of objects that have not changed, and of instances that are still there. -/
theorem of_eq (hc : o'.classes = o.classes)
    (hi : ∀ i k, o.classOf? i = some k → o'.classOf? i = some k) : o.Extends o' :=
  ⟨fun _ _ h => by rw [hc]; exact h, hi⟩

end Extends

/-! ### Changes of the objects -/

/-- A new class. -/
def addClass (o : Objects) (c : ClassObject) : Objects :=
  { o with classes := o.classes.push c }

/-- A new instance, without fields. -/
def addInstance (o : Objects) (k : Nat) : Objects :=
  { o with instances := o.instances.push ⟨k, []⟩ }

theorem extends_addClass (o : Objects) (c : ClassObject) : o.Extends (o.addClass c) where
  classes k c' hc := by
    have hlt := (Array.getElem?_eq_some_iff.mp hc).1
    show (o.classes.push c)[k]? = some c'
    rw [Array.getElem?_push_lt hlt, ← hc, Array.getElem?_eq_getElem hlt]
  instances _ _ h := h

theorem classOf?_addInstance_self (o : Objects) (k : Nat) :
    (o.addInstance k).classOf? o.instances.size = some k := by
  unfold classOf? addInstance
  rw [Array.getElem?_push_size]
  rfl

theorem extends_addInstance (o : Objects) (k : Nat) : o.Extends (o.addInstance k) := by
  refine .of_eq rfl fun i k' hi => ?_
  obtain ⟨inst, hinst, rfl⟩ := Option.map_eq_some_iff.mp hi
  have hlt := (Array.getElem?_eq_some_iff.mp hinst).1
  show ((o.instances.push ⟨k, []⟩)[i]?).map Instance.klass = _
  rw [Array.getElem?_push_lt hlt, ← Array.getElem?_eq_getElem hlt, hinst]
  rfl

/-- A new instance has no fields. -/
theorem field?_addInstance {o : Objects} {k i : Nat} {name : String} {v : Value}
    (h : (o.addInstance k).field? i name = some v) : o.field? i name = some v := by
  unfold field? addInstance at h
  simp only [Array.getElem?_push] at h
  split at h
  · cases h
  · exact h

/-- Behind a write to a field, a field has the written value or the one it had. -/
theorem field?_setField_cases {o : Objects} {i j : Nat} {name other : String} {v u : Value}
    (h : (o.setField i name v).field? j other = some u) : u = v ∨ o.field? j other = some u := by
  unfold field? setField at h
  simp only [Array.getElem?_modify] at h
  obtain ⟨inst, hi, hx⟩ := Option.bind_eq_some_iff.mp h
  split at hi
  · obtain ⟨before, hb, rfl⟩ := Option.map_eq_some_iff.mp hi
    rw [NameTable.find?_insert] at hx
    split at hx
    · cases hx
      exact .inl rfl
    · exact .inr (Option.bind_eq_some_iff.mpr ⟨before, hb, hx⟩)
  · exact .inr (Option.bind_eq_some_iff.mpr ⟨inst, hi, hx⟩)

/-- A field that gets a value leaves the instances in their classes. -/
theorem classOf?_setField (o : Objects) (i : Nat) (name : String) (v : Value) (j : Nat) :
    (o.setField i name v).classOf? j = o.classOf? j := by
  unfold classOf? setField
  simp only [Array.getElem?_modify]
  split
  · cases o.instances[j]? <;> rfl
  · rfl

theorem extends_setField (o : Objects) (i : Nat) (name : String) (v : Value) :
    o.Extends (o.setField i name v) :=
  .of_eq rfl fun j _ hj => (o.classOf?_setField i name v j).trans hj

end Objects

end Lox
