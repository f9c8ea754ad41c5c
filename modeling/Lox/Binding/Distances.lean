/-
Distances.

For a node that refers to a local binding, its distance is the number of scopes between the node
and the scope of the binding; a node without a distance refers to a global.  Distances of later
programs are put in front of those of earlier ones.
-/
import Lox.Syntax.Tree

namespace Lox

/-- The distances of nodes, the latest first. -/
abbrev Distances := List (NodeId × Nat)

namespace Distances

/-- The distance of a node. -/
def find? : Distances → NodeId → Option Nat
  | [], _ => none
  | (key, distance) :: ds, id => if key = id then some distance else find? ds id

/-- The distances without that of a node. -/
def erase (ds : Distances) (id : NodeId) : Distances :=
  ds.filter fun entry => entry.1 != id

/-- The distances with that of a node set or, with `none`, removed. -/
def set (ds : Distances) (id : NodeId) (distance : Option Nat) : Distances :=
  match distance with
  | some d => (id, d) :: ds.erase id
  | none => ds.erase id

/-- The distances of a new program together with the known ones, over which they prevail. -/
def merge (known new : Distances) : Distances :=
  new ++ known

@[simp] theorem find?_nil (id : NodeId) : find? [] id = none := rfl

/-- A node has its new distance if there is one, and else its known one. -/
theorem find?_merge (known new : Distances) (id : NodeId) :
    (merge known new).find? id = (new.find? id).or (known.find? id) := by
  unfold merge
  induction new with
  | nil => simp
  | cons entry new ih =>
    obtain ⟨key, distance⟩ := entry
    by_cases h : key = id <;> simp [find?, h, ih]

theorem find?_erase (ds : Distances) (id other : NodeId) :
    (ds.erase id).find? other = if id = other then none else ds.find? other := by
  unfold erase
  induction ds with
  | nil => simp
  | cons entry ds ih =>
    obtain ⟨key, distance⟩ := entry
    by_cases hk : key = id
    · subst hk
      by_cases ho : key = other <;> simp_all [find?]
    · by_cases ho : key = other
      · subst ho
        simp [find?, hk, Ne.symm hk]
      · simp_all [find?]

/-- Setting the distance of a node changes that of no other. -/
theorem find?_set (ds : Distances) (id other : NodeId) (distance : Option Nat) :
    (ds.set id distance).find? other = if id = other then distance else ds.find? other := by
  cases distance with
  | none => exact find?_erase ds id other
  | some d =>
    by_cases h : id = other
    · simp [set, find?, h]
    · simp [set, find?, h, find?_erase]

end Distances

end Lox
