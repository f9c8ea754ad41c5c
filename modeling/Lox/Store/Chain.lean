/-
Chains of links.

Frames and classes are numbered in the order in which they are made, and a link leads from one of
them to an earlier one.  `chain next i` lists what the links lead to from `i` on, `i` first.

* `chain_eq` — a chain is its first element and the chain from where that links to;
* `mem_chain_le` — links lead to earlier numbers only.

Design notes: as links lead to smaller numbers, `i + 1` steps reach the end of the chain from `i`;
`chainUpTo` counts them, and a link that led elsewhere would end the chain.
-/
namespace Lox

/-- At most `limit` numbers from `i` on along the links. -/
def chainUpTo (next : Nat → Option Nat) : (limit : Nat) → (i : Nat) → List Nat
  | 0, _ => []
  | limit + 1, i =>
    match next i with
    | none => [i]
    | some j => i :: (if j < i then chainUpTo next limit j else [])

/-- The numbers from `i` on along the links. -/
def chain (next : Nat → Option Nat) (i : Nat) : List Nat :=
  chainUpTo next (i + 1) i

theorem chainUpTo_of_lt (next : Nat → Option Nat) {limit limit' i : Nat} (h : i < limit)
    (h' : i < limit') : chainUpTo next limit i = chainUpTo next limit' i := by
  induction limit generalizing limit' i with
  | zero => exact absurd h (Nat.not_lt_zero i)
  | succ limit ih =>
    obtain ⟨limit', rfl⟩ : ∃ n, limit' = n + 1 := ⟨limit' - 1, by omega⟩
    unfold chainUpTo
    split
    · rfl
    · next j _ =>
      split
      · next hj => exact congrArg _ (ih (by omega) (by omega))
      · rfl

/-- A chain is its first element and the chain from where that links to. -/
theorem chain_eq (next : Nat → Option Nat) (i : Nat) :
    chain next i = i :: (match next i with
      | none => []
      | some j => if j < i then chain next j else []) := by
  unfold chain
  rw [chainUpTo]
  split
  · simp
  · next j _ =>
    simp only [List.cons.injEq, true_and]
    split
    · next hj => exact chainUpTo_of_lt next (by omega) (by omega)
    · rfl

/-- Links lead to earlier numbers only. -/
theorem mem_chain_le (next : Nat → Option Nat) (i j : Nat) (h : j ∈ chain next i) : j ≤ i := by
  induction i using Nat.strongRecOn with
  | _ i ih =>
    rw [chain_eq] at h
    rcases List.mem_cons.mp h with rfl | h
    · exact Nat.le_refl j
    · split at h
      · simp at h
      · next k _ =>
        split at h
        · next hk => have := ih k hk h; omega
        · simp at h

end Lox
