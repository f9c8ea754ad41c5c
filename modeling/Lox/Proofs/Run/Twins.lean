/-
Two runs of one program.

While the tree of a program runs on one machine, the program runs as it is written on another
one.  The machine of the tree has some frames more, those of the turns of loops, which have
no variables.  All other frames belong together two by two and have the same variables, and
all objects are the same.

* `Pair` — the two machines, and which of their frames belong together;
* `Pair.Chained` — the frames around a place on both sides;
* `Pair.Fits`, `Pair.Sound` — a closure of a function on both sides, and a
  value that is no other one;
* `Pair.Good` — what holds of a pair all the time;
* `Pair.Grows` — what becomes of a pair: frames stay where they are, and closures what they are;
* `Pair.push`, `Pair.define`, ... — what may happen to both machines.

Design notes: values are the same on both sides, since objects are made in the same order.  Only
closures refer to frames, and only their bodies have distances.
-/
import Lox.Proofs.Run.Direct
import Lox.Proofs.Run.Lawful
import Lox.Proofs.Store.Growth
import Lox.Proofs.Store.Lineage

namespace Lox

/-! ### Frames that belong together -/

/-- Frames of two machines belong together, and those of the first one that belong to no other
one have no variables. -/
structure Frames.Aligned (s s' : Frames) (twins : FrameId → FrameId → Prop) : Prop where
  globals : twins globals globals
  top : s.parent? Lox.globals = none
  top' : s'.parent? Lox.globals = none
  lt_size : ∀ {f f'}, twins f f' → f < s.size ∧ f' < s'.size
  eq_iff : ∀ {f f' g g'}, twins f f' → twins g g' → (f = g ↔ f' = g')
  value : ∀ {f f'} x, twins f f' → s'.value? f' x = s.value? f x
  onto : ∀ f' < s'.size, ∃ f, twins f f'
  bare : ∀ f x, (∀ f', ¬ twins f f') → s.value? f x = none

namespace Frames.Aligned

variable {s s' : Frames} {twins : FrameId → FrameId → Prop}

/-- The only frame of a store belongs to itself. -/
theorem single (hsize : s.size = 1) (htop : s.parent? Lox.globals = none) :
    Aligned s s (fun f f' => f = Lox.globals ∧ f' = Lox.globals) where
  globals := ⟨rfl, rfl⟩
  top := htop
  top' := htop
  lt_size := by
    rintro f f' ⟨rfl, rfl⟩
    exact ⟨hsize ▸ Nat.one_pos, hsize ▸ Nat.one_pos⟩
  eq_iff := by
    rintro f f' g g' ⟨rfl, rfl⟩ ⟨rfl, rfl⟩
    rfl
  value := by
    rintro f f' x ⟨rfl, rfl⟩
    rfl
  onto := by
    intro f' hf'
    rw [hsize] at hf'
    exact ⟨Lox.globals, rfl, Nat.lt_one_iff.mp hf'⟩
  bare := by
    intro f x hno
    refine value?_of_size_le _ ?_ x
    rw [hsize]
    exact Nat.one_le_iff_ne_zero.mpr fun hf => hno Lox.globals ⟨hf, rfl⟩

/-- Two new frames belong together. -/
theorem push (h : Aligned s s' twins) (g g' : FrameId) :
    Aligned (s.push (some g)) (s'.push (some g'))
      (fun f f' => twins f f' ∨ f = s.size ∧ f' = s'.size) where
  globals := Or.inl h.globals
  top := by
    rw [parent?_push, if_neg (Nat.ne_of_lt (h.lt_size h.globals).1)]
    exact h.top
  top' := by
    rw [parent?_push, if_neg (Nat.ne_of_lt (h.lt_size h.globals).2)]
    exact h.top'
  lt_size := by
    intro f f' ht
    rw [size_push, size_push]
    rcases ht with ht | ⟨rfl, rfl⟩
    · exact ⟨Nat.lt_succ_of_lt (h.lt_size ht).1, Nat.lt_succ_of_lt (h.lt_size ht).2⟩
    · exact ⟨Nat.lt_succ_self _, Nat.lt_succ_self _⟩
  -- neither of the new frames had a twin before
  eq_iff := by
    rintro f f' g g' (ht | ⟨rfl, rfl⟩) (hu | ⟨rfl, rfl⟩)
    · exact h.eq_iff ht hu
    · obtain ⟨hf, hf'⟩ := h.lt_size ht
      exact iff_of_false (Nat.ne_of_lt hf) (Nat.ne_of_lt hf')
    · obtain ⟨hg, hg'⟩ := h.lt_size hu
      exact iff_of_false (Nat.ne_of_gt hg) (Nat.ne_of_gt hg')
    · exact iff_of_true rfl rfl
  value := by
    rintro f f' x (ht | ⟨rfl, rfl⟩)
    · rw [value?_push, value?_push]
      exact h.value x ht
    · rw [value?_push, value?_push, value?_of_size_le _ (Nat.le_refl _),
        value?_of_size_le _ (Nat.le_refl _)]
  onto := by
    intro f' hf'
    rw [size_push] at hf'
    by_cases he : f' = s'.size
    · exact ⟨s.size, Or.inr ⟨rfl, he⟩⟩
    · obtain ⟨f, hf⟩ := h.onto f' (by omega)
      exact ⟨f, Or.inl hf⟩
  bare := by
    intro f x hno
    rw [value?_push]
    exact h.bare f x fun f' ht => hno f' (Or.inl ht)

/-- A new frame that belongs to no other one. -/
theorem pushExtra (h : Aligned s s' twins) (g : FrameId) : Aligned (s.push (some g)) s' twins where
  globals := h.globals
  top := by
    rw [parent?_push, if_neg (Nat.ne_of_lt (h.lt_size h.globals).1)]
    exact h.top
  top' := h.top'
  lt_size ht := by
    rw [size_push]
    exact ⟨Nat.lt_succ_of_lt (h.lt_size ht).1, (h.lt_size ht).2⟩
  eq_iff := h.eq_iff
  value x ht := by
    rw [value?_push]
    exact h.value x ht
  onto := h.onto
  bare f x hno := by
    rw [value?_push]
    exact h.bare f x hno

/-- A variable of two frames that belong together gets a value. -/
theorem define (h : Aligned s s' twins) {f f' : FrameId} (ht : twins f f') (x : String)
    (v : Value) : Aligned (s.define f x v) (s'.define f' x v) twins where
  globals := h.globals
  top := by rw [parent?_define, h.top]
  top' := by rw [parent?_define, h.top']
  lt_size hu := by
    rw [size_define, size_define]
    exact h.lt_size hu
  eq_iff := h.eq_iff
  value y hu := by
    rw [value?_define _ (h.lt_size ht).1, value?_define _ (h.lt_size ht).2, h.value y hu]
    simp only [h.eq_iff ht hu]
  onto g' hg' := h.onto g' (by rwa [size_define] at hg')
  bare g y hno := by
    have hne : ¬ (f = g ∧ x = y) := by
      rintro ⟨rfl, -⟩
      exact hno f' ht
    rw [value?_define_of_ne _ hne]
    exact h.bare g y hno

end Frames.Aligned

/-- A machine that differs in classes, instances, and in what was printed and read off the clock. -/
structure Machine.Beside (m n : Machine) : Prop where
  frames : n.frames = m.frames
  closures : n.objects.closures = m.objects.closures
  natives : n.objects.natives = m.objects.natives
  distances : n.distances = m.distances
  active : n.active = m.active

/-! ### Pairs -/

/-- Two machines, and which of their frames belong together. -/
structure Pair where
  /-- the machine on which trees run -/
  tree : Machine
  /-- the state in which a program runs as it is written -/
  written : Direct
  twins : FrameId → FrameId → Prop

/-- The distances in trees and in what is written, and the number for the next node. -/
structure Charts where
  tree : Distances
  written : Distances
  next : NodeId

/-- An occurrence has the same binding on both sides. -/
structure Charts.Places (c : Charts) (m : Locus) : Prop where
  placed : m.Placed c.tree c.written
  lt_next : m.id < c.next

/-- A method is found with its function. -/
theorem Direct.fst_methodClosure? (d : Direct) (klass : Option Nat) (name : String) :
    (d.methodClosure? klass name).map Prod.fst =
      klass.bind fun k => d.machine.objects.methodClosure? k name := by
  unfold Direct.methodClosure? Objects.methodClosure?
  cases klass with
  | none => rfl
  | some k =>
    rw [Option.bind_some, Option.bind_some]
    cases d.machine.objects.method? k name with
    | none => rfl
    | some id =>
      show Option.map _ (Option.map _ _) = _
      rw [Option.map_map]
      exact Option.map_id'

namespace Pair

/-- The frames from a frame outwards are on both sides as the layers around a place say. -/
inductive Chained (p : Pair) : List Layer → FrameId → FrameId → Prop where
  | nil : Chained p [] globals globals
  | both {k : Layer} {σ : List Layer} {f f' g g' : FrameId} (hk : k ≠ .extra) (ht : p.twins f f')
    (hf : p.tree.frames.parent? f = some g)
    (hf' : p.written.machine.frames.parent? f' = some g') (h : Chained p σ g g') :
    Chained p (k :: σ) f f'
  | extra {σ : List Layer} {f f' g : FrameId} (hf : p.tree.frames.parent? f = some g)
    (h : Chained p σ g f') : Chained p (.extra :: σ) f f'

/-- The frame in which the program is, on both sides. -/
def At (p : Pair) (σ : List Layer) : Prop :=
  p.Chained σ p.tree.active p.written.machine.active

/-- Two closures of a function.  A call of one that stands in a class, and is not bound yet, finds
`n` scopes between its frame and its body. -/
structure Fits (p : Pair) (c : Charts) (n : Nat) (k k' : Closure) (f : WrittenFunction) :
    Prop where
  declaration : k.declaration = f.tree
  declaration' : k'.declaration = f.tree
  isInitializer : k'.isInitializer = k.isInitializer
  formed : f.Formed
  captured : ∃ σ, p.Chained σ k.captured k'.captured ∧
    ∀ m ∈ f.loci (List.replicate n .shared ++ σ), c.Places m
  receiver : k.isInitializer = true → n = 0 → p.twins k.captured k'.captured

/-- A closure that is there on both sides. -/
def Holds (p : Pair) (c : Charts) (n id : Nat) : Prop :=
  ∃ k k', p.tree.objects.closures[id]? = some k ∧
    p.written.machine.objects.closures[id]? = some k' ∧ p.Fits c n k k' (p.written.functions id)

/-- A value that is the same on both sides. -/
def Sound (p : Pair) (c : Charts) (v : Value) : Prop :=
  ∀ id, v = .callable (.closure id) → p.Holds c 0 id

theorem Sound.of_ne {p : Pair} {c : Charts} {v : Value} (h : ∀ id, v ≠ .callable (.closure id)) :
    p.Sound c v := fun id he => absurd he (h id)

/-! ### What becomes of a pair -/

/-- Frames stay where they are, and closures what they are. -/
structure Keeps (p q : Pair) : Prop where
  twins : ∀ {f f'}, p.twins f f' → q.twins f f'
  parent : ∀ {f g}, p.tree.frames.parent? f = some g → q.tree.frames.parent? f = some g
  parent' : ∀ {f g}, p.written.machine.frames.parent? f = some g →
    q.written.machine.frames.parent? f = some g
  defines : ∀ {f x}, p.tree.frames.defines f x = true → q.tree.frames.defines f x = true
  closure : ∀ {id : Nat} {k : Closure}, p.tree.objects.closures[id]? = some k →
    q.tree.objects.closures[id]? = some k
  closure' : ∀ {id : Nat} {k : Closure}, p.written.machine.objects.closures[id]? = some k →
    q.written.machine.objects.closures[id]? = some k ∧
      q.written.functions id = p.written.functions id

/-- Both machines go on, and the program is in the same frame again. -/
structure Grows (p q : Pair) : Prop extends p.Keeps q where
  active : q.tree.active = p.tree.active
  active' : q.written.machine.active = p.written.machine.active

namespace Keeps

variable {p q r : Pair} {c : Charts}

theorem refl (p : Pair) : p.Keeps p := ⟨id, id, id, id, id, fun h => ⟨h, rfl⟩⟩

theorem trans (h : p.Keeps q) (h' : q.Keeps r) : p.Keeps r where
  twins ht := h'.twins (h.twins ht)
  parent hf := h'.parent (h.parent hf)
  parent' hf := h'.parent' (h.parent' hf)
  defines hd := h'.defines (h.defines hd)
  closure hk := h'.closure (h.closure hk)
  closure' hk := by
    obtain ⟨hk, hf⟩ := h.closure' hk
    obtain ⟨hk, hf'⟩ := h'.closure' hk
    exact ⟨hk, hf'.trans hf⟩

theorem chained (h : p.Keeps q) {σ : List Layer} {f f' : FrameId} (hc : p.Chained σ f f') :
    q.Chained σ f f' := by
  induction hc with
  | nil => exact .nil
  | both hk ht hf hf' _ ih => exact .both hk (h.twins ht) (h.parent hf) (h.parent' hf') ih
  | extra hf _ ih => exact .extra (h.parent hf) ih

/-- Closures fit when more is there, also when more occurrences have a binding. -/
theorem fits {c' : Charts} (h : p.Keeps q) (hc : ∀ m, c.Places m → c'.Places m) {n : Nat}
    {k k' : Closure} {f : WrittenFunction} (hf : p.Fits c n k k' f) : q.Fits c' n k k' f := by
  obtain ⟨σ, hσ, hm⟩ := hf.captured
  exact { hf with
    captured := ⟨σ, h.chained hσ, fun m hmem => hc m (hm m hmem)⟩
    receiver := fun hi hn => h.twins (hf.receiver hi hn) }

theorem holds_imp {c' : Charts} (h : p.Keeps q) (hc : ∀ m, c.Places m → c'.Places m) {n id : Nat}
    (hh : p.Holds c n id) : q.Holds c' n id := by
  obtain ⟨k, k', hk, hk', hf⟩ := hh
  obtain ⟨hk', hfun⟩ := h.closure' hk'
  exact ⟨k, k', h.closure hk, hk', hfun ▸ h.fits hc hf⟩

theorem holds (h : p.Keeps q) {n id : Nat} (hh : p.Holds c n id) : q.Holds c n id :=
  h.holds_imp (fun _ hm => hm) hh

theorem sound (h : p.Keeps q) {v : Value} (hv : p.Sound c v) : q.Sound c v :=
  fun id he => h.holds (hv id he)

end Keeps

namespace Grows

variable {p q r : Pair} {c : Charts}

theorem refl (p : Pair) : p.Grows p := ⟨.refl p, rfl, rfl⟩

theorem trans (h : p.Grows q) (h' : q.Grows r) : p.Grows r :=
  ⟨h.toKeeps.trans h'.toKeeps, h'.active.trans h.active, h'.active'.trans h.active'⟩

theorem at_ (h : p.Grows q) {σ : List Layer} (hp : p.At σ) : q.At σ := by
  unfold At
  rw [h.active, h.active']
  exact h.chained hp

end Grows

/-! ### Good pairs -/

/-- All but frames and the bodies of closures is the same on two machines. -/
structure Machines (m m' : Machine) : Prop where
  natives : m'.objects.natives = m.objects.natives
  classes : m'.objects.classes = m.objects.classes
  instances : m'.objects.instances = m.objects.instances
  closures : m'.objects.closures.size = m.objects.closures.size
  printed : m'.printed = m.printed
  sink : m'.sink = m.sink
  clock : m'.clock = m.clock
  readings : m'.readings = m.readings

/-- Both machines know the distances of the nodes so far. -/
structure Charted (p : Pair) (c : Charts) : Prop where
  tree : p.tree.distances = c.tree
  written : p.written.machine.distances = c.written
  ahead : ∀ id, c.next ≤ id → c.tree.find? id = none ∧ c.written.find? id = none

/-- What holds of a pair all the time: the same variables and objects on both sides, and closures
that have the same bindings. -/
structure Good (c : Charts) (p : Pair) : Prop where
  frames : p.tree.frames.Aligned p.written.machine.frames p.twins
  machines : Machines p.tree p.written.machine
  charted : p.Charted c
  values : ∀ f x v, p.tree.frames.value? f x = some v → p.Sound c v
  fields : ∀ i x v, p.tree.objects.field? i x = some v → p.Sound c v
  methods : ∀ k x id, p.tree.objects.ownMethod? k x = some id → p.Holds c 1 id
  natives : ∀ n ∈ p.tree.objects.natives, n.Plain

namespace Chained

variable {p : Pair} {c : Charts} {σ : List Layer} {f f' : FrameId}

/-- Declarations are made in frames that belong together. -/
theorem twins (h : p.Chained σ f f') (hp : p.Good c) (hσ : σ.head? ≠ some .extra) :
    p.twins f f' := by
  cases h with
  | nil => exact hp.frames.globals
  | both hk ht => exact ht
  | extra => exact absurd rfl hσ

/-- A binding is in frames that belong together. -/
theorem ancestor? (h : p.Chained σ f f') {l : Layer} (hl : l ≠ .extra) {d d' : Nat}
    (hs : Shifts l σ d d') : ∃ g g', p.tree.frames.ancestor? f d = some g ∧
      p.written.machine.frames.ancestor? f' d' = some g' ∧ p.twins g g' := by
  induction hs generalizing f f' with
  | here σ =>
    cases h with
    | both hk ht => exact ⟨f, f', rfl, rfl, ht⟩
    | extra => exact absurd rfl hl
  | both hk hs ih =>
    cases h with
    | both hk' ht hf hf' h =>
      obtain ⟨g, g', hg, hg', htg⟩ := ih h
      rw [Frames.ancestor?_succ _ hf, Frames.ancestor?_succ _ hf']
      exact ⟨g, g', hg, hg', htg⟩
    | extra => exact absurd rfl hk
  | extra hs ih =>
    cases h with
    | both hk => exact absurd rfl hk
    | extra hf h =>
      obtain ⟨g, g', hg, hg', htg⟩ := ih h
      rw [Frames.ancestor?_succ _ hf]
      exact ⟨g, g', hg, hg', htg⟩

end Chained

/-! ### What is read -/

namespace Good

variable {p : Pair} {c : Charts}

/-- A variable in frames that belong together is the same. -/
theorem getAt_eq (h : p.Good c) {f f' g g' : FrameId} {d d' : Nat}
    (hg : p.tree.frames.ancestor? f d = some g)
    (hg' : p.written.machine.frames.ancestor? f' d' = some g') (ht : p.twins g g') (x : String)
    (line : Nat) :
    p.written.machine.frames.getAt f' d' x line = p.tree.frames.getAt f d x line := by
  unfold Frames.getAt
  rw [hg, hg', Option.bind_some, Option.bind_some, h.frames.value x ht]

/-- A global is the same. -/
theorem get_eq (h : p.Good c) (x : String) (line : Nat) :
    p.written.machine.frames.get globals x line = p.tree.frames.get globals x line := by
  unfold Frames.get
  rw [Frames.outwards_of_none _ h.frames.top, Frames.outwards_of_none _ h.frames.top']
  simp only [List.findSome?_cons, List.findSome?_nil, h.frames.value x h.frames.globals]

theorem holder?_eq (h : p.Good c) (x : String) :
    p.written.machine.frames.holder? globals x = p.tree.frames.holder? globals x := by
  unfold Frames.holder? Frames.defines
  rw [Frames.outwards_of_none _ h.frames.top, Frames.outwards_of_none _ h.frames.top']
  simp only [List.find?_cons, List.find?_nil, h.frames.value x h.frames.globals]

theorem field?_eq (h : p.Good c) (i : Nat) (x : String) :
    p.written.machine.objects.field? i x = p.tree.objects.field? i x := by
  unfold Objects.field?
  rw [h.machines.instances]

theorem classOf?_eq (h : p.Good c) (i : Nat) :
    p.written.machine.objects.classOf? i = p.tree.objects.classOf? i := by
  unfold Objects.classOf?
  rw [h.machines.instances]

theorem className_eq (h : p.Good c) :
    p.written.machine.objects.className = p.tree.objects.className := by
  funext k
  unfold Objects.className
  rw [h.machines.classes]

theorem method?_eq (h : p.Good c) (k : Nat) (x : String) :
    p.written.machine.objects.method? k x = p.tree.objects.method? k x := by
  unfold Objects.method? Objects.ownMethod? Objects.lineage Objects.superclass?
  rw [h.machines.classes]

/-- A method is found on both sides, or on none. -/
theorem methodClosure? (h : p.Good c) (klass : Option Nat) (x : String) :
    ((klass.bind fun k => p.tree.objects.methodClosure? k x) = none ∧
      p.written.methodClosure? klass x = none) ∨
    ∃ k k' f, (klass.bind fun k => p.tree.objects.methodClosure? k x) = some k ∧
      p.written.methodClosure? klass x = some (k', f) ∧ p.Fits c 1 k k' f := by
  cases klass with
  | none => exact Or.inl ⟨rfl, rfl⟩
  | some n =>
    unfold Direct.methodClosure?
    rw [Option.bind_some, Option.bind_some, h.method?_eq, Objects.methodClosure?]
    cases hid : p.tree.objects.method? n x with
    | none => exact Or.inl ⟨rfl, rfl⟩
    | some id =>
      obtain ⟨n', -, hown⟩ := Objects.exists_own_of_method? hid
      obtain ⟨k, k', hk, hk', hf⟩ := h.methods n' x id hown
      refine Or.inr ⟨k, k', _, ?_, ?_, hf⟩
      · rw [Option.bind_some, hk]
      · rw [Option.bind_some, hk']
        rfl

theorem arity_eq (h : p.Good c) {k : Callable} (hk : p.Sound c (.callable k)) :
    p.written.machine.objects.arity k = p.tree.objects.arity k := by
  cases k with
  | native id =>
    simp only [Objects.arity, h.machines.natives]
  | closure id =>
    obtain ⟨k, k', hk, hk', hf⟩ := hk id rfl
    simp only [Objects.arity, hk, hk', Option.map_some, hf.declaration, hf.declaration']
  | klass n =>
    have hfst := p.written.fst_methodClosure? (some n) initializerName
    simp only [Objects.arity, Objects.initializer?]
    rcases h.methodClosure? (some n) initializerName with ⟨hk, hk'⟩ | ⟨k, k', f, hk, hk', hf⟩
    · rw [hk'] at hfst
      rw [Option.bind_some] at hk hfst
      rw [hk, ← hfst]
      rfl
    · rw [hk'] at hfst
      rw [Option.bind_some] at hk hfst
      rw [hk, ← hfst]
      show k'.declaration.arity = k.declaration.arity
      rw [hf.declaration, hf.declaration']

theorem display_eq (h : p.Good c) {v : Value} (hv : p.Sound c v) :
    p.written.machine.objects.display v = p.tree.objects.display v := by
  cases v with
  | callable k =>
    cases k with
    | native id => rfl
    | closure id =>
      obtain ⟨k, k', hk, hk', hf⟩ := hv id rfl
      show "<fn " ++ _ ++ ">" = "<fn " ++ _ ++ ">"
      rw [hk, hk', Option.map_some, Option.map_some, hf.declaration, hf.declaration']
    | klass n => exact congrFun h.className_eq n
  | object i =>
    show ((p.written.machine.objects.classOf? i).map _).getD "" ++ " instance" = _
    rw [h.classOf?_eq, h.className_eq]
    rfl
  | bool b => cases b <;> rfl
  | _ => rfl

end Good

/-! ### What happens to a pair -/

/-- The program goes into other frames. -/
def inside (p : Pair) (f f' : FrameId) : Pair :=
  { p with tree := { p.tree with active := f }, written := p.written.inside f' }

/-- A new frame on both sides. -/
def push (p : Pair) (g g' : FrameId) : Pair where
  tree := { p.tree with frames := p.tree.frames.push (some g) }
  written := { p.written with machine := { p.written.machine with
    frames := p.written.machine.frames.push (some g') } }
  twins f f' := p.twins f f' ∨ f = p.tree.frames.size ∧ f' = p.written.machine.frames.size

/-- A turn of a loop begins: the tree alone has a frame for it. -/
def turn (p : Pair) : Pair :=
  { p with tree := { p.tree with
      frames := p.tree.frames.push (some p.tree.active), active := p.tree.frames.size } }

/-- A variable gets a value on both sides. -/
def define (p : Pair) (f f' : FrameId) (x : String) (v : Value) : Pair where
  tree := { p.tree with frames := p.tree.frames.define f x v }
  written := { p.written with machine := { p.written.machine with
    frames := p.written.machine.frames.define f' x v } }
  twins := p.twins

/-- A new closure on both sides. -/
def addClosure (p : Pair) (k k' : Closure) (f : WrittenFunction) : Pair where
  tree := { p.tree with
    objects := { p.tree.objects with closures := p.tree.objects.closures.push k } }
  written :=
    ⟨{ p.written.machine with objects := { p.written.machine.objects with
        closures := p.written.machine.objects.closures.push k' } },
      fun i => if i = p.written.machine.objects.closures.size then f else p.written.functions i⟩
  twins := p.twins

/-- Other machines on both sides. -/
def withMachines (p : Pair) (m m' : Machine) : Pair :=
  { p with tree := m, written := { p.written with machine := m' } }

namespace Keeps

variable {p : Pair} {c : Charts}

theorem inside (p : Pair) (f f' : FrameId) : p.Keeps (p.inside f f') := ⟨id, id, id, id, id,
  fun h => ⟨h, rfl⟩⟩

theorem turn (p : Pair) : p.Keeps p.turn where
  twins := id
  parent hf := p.tree.frames.parent?_push_of_some _ hf
  parent' := id
  defines hd := (p.tree.frames.defines_push ..).trans hd
  closure := id
  closure' h := ⟨h, rfl⟩

end Keeps

namespace Grows

variable {p : Pair} {c : Charts}

theorem push (p : Pair) (g g' : FrameId) : p.Grows (p.push g g') where
  twins := Or.inl
  parent hf := p.tree.frames.parent?_push_of_some _ hf
  parent' hf := p.written.machine.frames.parent?_push_of_some _ hf
  defines hd := (p.tree.frames.defines_push ..).trans hd
  closure := id
  closure' h := ⟨h, rfl⟩
  active := rfl
  active' := rfl

theorem define (hp : p.Good c) {f f' : FrameId} (ht : p.twins f f') (x : String) (v : Value) :
    p.Grows (p.define f f' x v) where
  twins := id
  parent hf := (p.tree.frames.parent?_define ..).trans hf
  parent' hf := (p.written.machine.frames.parent?_define ..).trans hf
  defines hd := p.tree.frames.defines_define (hp.frames.lt_size ht).1 x v hd
  closure := id
  closure' h := ⟨h, rfl⟩
  active := rfl
  active' := rfl

theorem addClosure (p : Pair) (k k' : Closure) (f : WrittenFunction) :
    p.Grows (p.addClosure k k' f) where
  twins := id
  parent := id
  parent' := id
  defines := id
  closure {id k₁} hk := by
    have hlt := (Array.getElem?_eq_some_iff.mp hk).1
    show (p.tree.objects.closures.push k)[id]? = some k₁
    rw [Array.getElem?_push_lt hlt, ← hk, Array.getElem?_eq_getElem hlt]
  closure' {id k₁} hk := by
    have hlt := (Array.getElem?_eq_some_iff.mp hk).1
    refine ⟨?_, if_neg (Nat.ne_of_lt hlt)⟩
    show (p.written.machine.objects.closures.push k')[id]? = some k₁
    rw [Array.getElem?_push_lt hlt, ← hk, Array.getElem?_eq_getElem hlt]
  active := rfl
  active' := rfl

theorem withMachines {m m' : Machine} (h : p.tree.Beside m) (h' : p.written.machine.Beside m') :
    p.Grows (p.withMachines m m') where
  twins := id
  parent hf := by
    show m.frames.parent? _ = _
    rw [h.frames]
    exact hf
  parent' hf := by
    show m'.frames.parent? _ = _
    rw [h'.frames]
    exact hf
  defines hd := by
    show m.frames.defines _ _ = true
    rw [h.frames]
    exact hd
  closure hk := by
    show m.objects.closures[_]? = _
    rw [h.closures]
    exact hk
  closure' hk := by
    refine ⟨?_, rfl⟩
    show m'.objects.closures[_]? = _
    rw [h'.closures]
    exact hk
  active := h.active
  active' := h'.active

end Grows

namespace Good

variable {p : Pair} {c : Charts}

/-- A pair with the same classes and instances. -/
theorem of_keeps {q : Pair} (h : p.Good c) (hk : p.Keeps q)
    (hframes : q.tree.frames.Aligned q.written.machine.frames q.twins)
    (hmachines : Machines q.tree q.written.machine) (hcharted : q.Charted c)
    (hvalues : ∀ f x v, q.tree.frames.value? f x = some v → p.Sound c v)
    (hi : q.tree.objects.instances = p.tree.objects.instances)
    (hc : q.tree.objects.classes = p.tree.objects.classes)
    (hn : q.tree.objects.natives = p.tree.objects.natives) : q.Good c where
  frames := hframes
  machines := hmachines
  charted := hcharted
  values f x v hv := hk.sound (hvalues f x v hv)
  fields i x v hv := by
    unfold Objects.field? at hv
    rw [hi] at hv
    exact hk.sound (h.fields i x v hv)
  methods k x id hid := by
    unfold Objects.ownMethod? at hid
    rw [hc] at hid
    exact hk.holds (h.methods k x id hid)
  natives := hn ▸ h.natives

theorem inside (h : p.Good c) (f f' : FrameId) : (p.inside f f').Good c :=
  h.of_keeps (.inside p f f') h.frames { h.machines with } { h.charted with } h.values rfl rfl rfl

theorem push (h : p.Good c) (g g' : FrameId) : (p.push g g').Good c := by
  refine h.of_keeps (Grows.push p g g').toKeeps (h.frames.push g g') { h.machines with }
    { h.charted with } (fun f x v hv => h.values f x v ?_) rfl rfl rfl
  rwa [← p.tree.frames.value?_push (some g)]

theorem turn (h : p.Good c) : p.turn.Good c := by
  refine h.of_keeps (.turn p) (h.frames.pushExtra p.tree.active) { h.machines with }
    { h.charted with } (fun f x v hv => h.values f x v ?_) rfl rfl rfl
  rwa [← p.tree.frames.value?_push (some p.tree.active)]

theorem define (h : p.Good c) {f f' : FrameId} (ht : p.twins f f') (x : String) {v : Value}
    (hv : p.Sound c v) : (p.define f f' x v).Good c := by
  refine h.of_keeps (Grows.define h ht x v).toKeeps (h.frames.define ht x v) { h.machines with }
    { h.charted with } (fun g y u hu => ?_) rfl rfl rfl
  rcases Frames.value?_define_cases _ hu with rfl | hu
  · exact hv
  · exact h.values g y u hu

theorem addClosure (h : p.Good c) (k k' : Closure) (f : WrittenFunction) :
    (p.addClosure k k' f).Good c := by
  have hsize : (p.written.machine.objects.closures.push k').size =
      (p.tree.objects.closures.push k).size := by
    rw [Array.size_push, Array.size_push, h.machines.closures]
  exact h.of_keeps (Grows.addClosure p k k' f).toKeeps h.frames
    { h.machines with closures := hsize } { h.charted with } h.values rfl rfl rfl

/-- The closure that is new on both sides. -/
theorem holds_addClosure (h : p.Good c) {n : Nat} {k k' : Closure} {f : WrittenFunction}
    (hf : p.Fits c n k k' f) : (p.addClosure k k' f).Holds c n p.tree.objects.closures.size := by
  refine ⟨k, k', Array.getElem?_push_size, ?_, ?_⟩
  · show (p.written.machine.objects.closures.push k')[_]? = _
    rw [← h.machines.closures]
    exact Array.getElem?_push_size
  · have hfun : (p.addClosure k k' f).written.functions p.tree.objects.closures.size = f :=
      if_pos h.machines.closures.symm
    rw [hfun]
    exact (Grows.addClosure p k k' f).fits (fun _ hm => hm) hf

theorem withMachines (h : p.Good c) {m m' : Machine} (hm : p.tree.Beside m)
    (hm' : p.written.machine.Beside m') (hs : Machines m m')
    (hf : ∀ i x v, m.objects.field? i x = some v → p.Sound c v)
    (ho : ∀ k x id, m.objects.ownMethod? k x = some id → p.Holds c 1 id) :
    (p.withMachines m m').Good c :=
  have hk := (Grows.withMachines hm hm').toKeeps
  { frames := by
      show m.frames.Aligned m'.frames p.twins
      rw [hm.frames, hm'.frames]
      exact h.frames
    machines := hs
    charted := ⟨hm.distances.trans h.charted.tree, hm'.distances.trans h.charted.written,
      h.charted.ahead⟩
    values := fun g x v hv => by
      replace hv : m.frames.value? g x = some v := hv
      rw [hm.frames] at hv
      exact hk.sound (h.values g x v hv)
    fields := fun i x v hv => hk.sound (hf i x v hv)
    methods := fun k x id hid => hk.holds (ho k x id hid)
    natives := fun n hn => by
      replace hn : n ∈ m.objects.natives := hn
      rw [hm.natives] at hn
      exact h.natives n hn }

end Good

end Pair

end Lox
