/-
Chains that end.

A search along links looks at one number after the other and goes on where the links lead.  That it
comes to an end is not a matter of the search but of the links: if they all lead to smaller numbers,
it does, from everywhere, and finds what is found in the chain.

* `search` — a search along links that may run out of steps;
* `search_eq` — where links descend it needs no more steps than the number that it starts with, and
  finds the first in the chain;
* `follow?` — where a number of links leads;
* `exists_last_link` — where links descend they end, and nothing is behind the last one;
* `Frames.exists_links_root` — if one frame alone has no link, all links lead to it.

Design notes: `search` does not look at whether a link descends, unlike `chain`, which ends where
one does not.  So the two agree only on links that descend, and what is shown of a search is shown
of one that nothing but the links stops.
-/
import Lox.Proofs.Store.Laws
import Lox.Proofs.Store.Lineage

namespace Lox

section

variable {α : Type} (next : Nat → Option Nat) (found : Nat → Option α)

/-- Looks from `i` on along the links for the first number at which something is found, in a number
of steps, one for each number; without a result if they are not enough. -/
def search : (steps : Nat) → (i : Nat) → Option (Option α)
  | 0, _ => none
  | steps + 1, i =>
    match found i with
    | some a => some (some a)
    | none =>
      match next i with
      | none => some none
      | some j => search steps j

/-- Where a number of links leads. -/
def follow? (i : Nat) : (links : Nat) → Option Nat
  | 0 => some i
  | links + 1 => (follow? i links).bind next

variable {next}

/-- Along links that descend a search needs no more steps than the number it starts with, and finds
what is first in the chain. -/
theorem search_eq (h : ∀ i j, next i = some j → j < i) {steps i : Nat} (hi : i < steps) :
    search next found steps i = some ((chain next i).findSome? found) := by
  induction steps generalizing i with
  | zero => exact absurd hi (Nat.not_lt_zero i)
  | succ steps ih =>
    rw [search, chain_eq, List.findSome?_cons]
    cases found i with
    | some a => rfl
    | none =>
      cases hn : next i with
      | none => rfl
      | some j =>
        have hj := h i j hn
        simp only [if_pos hj]
        exact ih (Nat.lt_of_lt_of_le hj (Nat.le_of_lt_succ hi))

/-- The links from `i` on are those behind the first one. -/
theorem follow?_succ {i j : Nat} (hj : next i = some j) (d : Nat) :
    follow? next i (d + 1) = follow? next j d := by
  induction d with
  | zero => exact hj
  | succ d ih =>
    rw [follow?, ih]
    rfl

theorem follow?_of_none {i : Nat} (hi : next i = none) (d : Nat) :
    follow? next i (d + 1) = none := by
  induction d with
  | zero => exact hi
  | succ d ih =>
    rw [follow?, ih]
    rfl

/-- Links that descend end: so many of them lead somewhere, and no more. -/
theorem exists_last_link (h : ∀ i j, next i = some j → j < i) (i : Nat) :
    ∃ n ≤ i, ∀ d, (follow? next i d).isSome = true ↔ d ≤ n := by
  induction i using Nat.strongRecOn with
  | _ i ih =>
    cases hn : next i with
    | none =>
      refine ⟨0, Nat.zero_le i, fun d => ?_⟩
      cases d with
      | zero => exact iff_of_true rfl (Nat.le_refl 0)
      | succ d =>
        rw [follow?_of_none hn]
        exact iff_of_false Bool.false_ne_true (Nat.not_succ_le_zero d)
    | some j =>
      have hj := h i j hn
      obtain ⟨n, hle, hlast⟩ := ih j hj
      refine ⟨n + 1, Nat.lt_of_le_of_lt hle hj, fun d => ?_⟩
      cases d with
      | zero => exact iff_of_true rfl (Nat.zero_le _)
      | succ d => rw [follow?_succ hn, hlast, Nat.add_le_add_iff_right]

end

namespace Frames

variable {s : Frames} {f : FrameId}

/-- If all frames but one have a link, and links descend, then all links lead to this one. -/
theorem exists_links_root {root : FrameId} (h : s.Descending)
    (hothers : ∀ f < s.size, f = root ∨ ∃ p, s.parent? f = some p) (hf : f < s.size) :
    ∃ d ≤ f, s.Links f d root := by
  induction f using Nat.strongRecOn with
  | _ f ih =>
    rcases hothers f hf with rfl | ⟨p, hp⟩
    · exact ⟨0, Nat.zero_le f, .here f⟩
    · have hlt := h f p hp
      obtain ⟨d, hle, hlinks⟩ := ih p hlt (Nat.lt_trans hlt hf)
      exact ⟨d + 1, Nat.lt_of_le_of_lt hle hlt, .out hp hlinks⟩

/-- Behind a frame without a link there is nothing. -/
theorem le_of_links {root g : FrameId} {d n : Nat} (hroot : s.parent? root = none)
    (hn : s.Links f n root) (hd : s.Links f d g) : d ≤ n := by
  induction hd generalizing n with
  | here f => exact Nat.zero_le n
  | out hp _ ih =>
    cases hn with
    | here => cases hroot.symm.trans hp
    | out hp' hn =>
      cases hp.symm.trans hp'
      exact Nat.succ_le_succ (ih hn)

theorem exists_links_of_le {root : FrameId} {d n : Nat} (hn : s.Links f n root) (hd : d ≤ n) :
    ∃ g, s.Links f d g := by
  induction hn generalizing d with
  | here f =>
    cases Nat.le_zero.mp hd
    exact ⟨f, .here f⟩
  | @out f p g n hp _ ih =>
    cases d with
    | zero => exact ⟨f, .here f⟩
    | succ d =>
      obtain ⟨g', hg'⟩ := ih (Nat.le_of_succ_le_succ hd)
      exact ⟨g', .out hp hg'⟩

/-- The nearest frame with a name, as what a search for it finds. -/
theorem holder?_eq_findSome? (s : Frames) (f : FrameId) (x : String) :
    s.holder? f x =
      (chain s.parent? f).findSome? fun g => if s.defines g x = true then some g else none := by
  unfold holder? outwards
  induction chain s.parent? f with
  | nil => rfl
  | cons g gs ih =>
    rw [List.find?_cons, List.findSome?_cons]
    cases s.defines g x with
    | true => rfl
    | false => exact ih

end Frames

end Lox
