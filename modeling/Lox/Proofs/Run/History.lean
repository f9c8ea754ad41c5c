/-
Histories.

What a program has done to its classes and instances: each class that was declared, with the frame
in which the program was then, and each value that was assigned to a property.  The history of a
record is read off its notes, together with the machines of the moments at which nodes were met and
properties were about to be read.

* `lastAssigned` — the value last assigned to a property of an instance;
* `Descends` — the bodies of a class and of the classes above it, as they were declared;
* `History`, `Record.history` — a machine and what was done on it, and that of a record;
* `Session.narrate` — the history of a session.

Design notes: a class is known by the number under which it was made, and an instance by its own, so
that it does not matter by which variable or property they are reached.
-/
import Lox.Proofs.Run.Origins

namespace Lox

/-- The number of a class that is declared. -/
def Deed.declared? : Deed → Option Nat
  | declared klass _ => some klass
  | _ => none

/-- The value last assigned to a property of an instance; the latest deed is the first one. -/
def lastAssigned : List Deed → (object : Nat) → (name : String) → Option Value
  | [], _, _ => none
  | .assigned i x v :: deeds, object, name =>
    if i = object ∧ x = name then some v else lastAssigned deeds object name
  | .declared .. :: deeds, object, name => lastAssigned deeds object name
  | .moment _ :: deeds, object, name => lastAssigned deeds object name

/-- The bodies with which a class and the classes above it were declared, its own one first. -/
inductive Descends (deeds : List Deed) : (klass : Nat) → List ClassBody → Prop where
  | root {k : Nat} {body : ClassBody} (h : .declared k body ∈ deeds)
      (hroot : body.superclass = none) : Descends deeds k [body]
  | heir {k above : Nat} {body : ClassBody} {bodies : List ClassBody}
      (h : .declared k body ∈ deeds) (habove : body.superclass = some above)
      (hbodies : Descends deeds above bodies) : Descends deeds k (body :: bodies)

/-- The method of a name that the first of several bodies has which has one, with that body. -/
def ClassBody.find? (bodies : List ClassBody) (name : String) : Option (ClassBody × FunDecl) :=
  bodies.findSome? fun body => (FunDecl.last? body.methods name).map fun f => (body, f)

/-- A machine and what was done on it. -/
structure History where
  machine : Machine
  /-- the deeds, the latest first -/
  deeds : List Deed

/-- A history at a moment: the end of it, or where the machine was noted. -/
inductive History.At (h : History) : Machine → List Deed → Prop where
  | now : History.At h h.machine h.deeds
  | past {later earlier : List Deed} {m : Machine}
      (hsplit : h.deeds = later ++ .moment m :: earlier) : History.At h m earlier

/-- The history of a record. -/
def Record.history (r : Record) : History :=
  ⟨r.machine, r.deeds⟩

/-- The history of a session on a machine on which nothing has run. -/
def Session.narrate (fuel : Nat) (m : Machine) (sources : List String) : History :=
  (trace fuel m sources).history

end Lox
