import Mathlib.Algebra.GroupWithZero.Nat

/-!
# Checked and saturating `u64` arithmetic over `Nat`

Machine words are natural numbers here; what the machine does at the edge of
64 bits is spelled out by these operations and nowhere else.
-/

namespace TraceMcp.Lib

/-- `u64::MAX + 1`. -/
def wordSize : Nat := 2 ^ 64

/-- `checked_sub`. -/
def checkedSub (a b : Nat) : Option Nat := if b ≤ a then some (a - b) else none

/-- `checked_add` on `u64`. -/
def checkedAdd (a b : Nat) : Option Nat := if a + b < wordSize then some (a + b) else none

/-- `checked_mul` on `u64`. -/
def checkedMul (a b : Nat) : Option Nat := if a * b < wordSize then some (a * b) else none

/-- `saturating_add` on `u64`. -/
def satAdd (a b : Nat) : Nat := min (a + b) (wordSize - 1)

theorem checkedSub_eq_some {a b c : Nat} : checkedSub a b = some c ↔ b ≤ a ∧ c = a - b := by
  unfold checkedSub
  split
  next h => simp [h, eq_comm]
  next h => simp [h]

end TraceMcp.Lib
