import Mathlib.Algebra.GroupWithZero.Nat
import Mathlib.Data.Nat.Log

/-!
# Rounding to powers of two

`2 ^ n.log2` is the largest power of two up to a number; `nextPow2` is the
smallest one from it on.
-/

namespace TraceMcp.Lib

/-- `next_power_of_two`. -/
def nextPow2 (n : Nat) : Nat := if n ≤ 1 then 1 else 2 ^ ((n - 1).log2 + 1)

theorem le_nextPow2 (n : Nat) : n ≤ nextPow2 n := by
  unfold nextPow2
  split
  · omega
  · have hlt : n - 1 < 2 ^ ((n - 1).log2 + 1) := Nat.lt_log2_self
    omega

theorem nextPow2_eq_pow (n : Nat) : ∃ k, nextPow2 n = 2 ^ k := by
  unfold nextPow2
  split
  · exact ⟨0, rfl⟩
  · exact ⟨_, rfl⟩

theorem nextPow2_le {n k : Nat} (h : n ≤ 2 ^ k) : nextPow2 n ≤ 2 ^ k := by
  unfold nextPow2
  split
  · exact Nat.one_le_two_pow
  · have hlog : (n - 1).log2 < k := (Nat.log2_lt (by omega)).mpr (by omega)
    exact Nat.pow_le_pow_right Nat.two_pos hlog

theorem nextPow2_pow (k : Nat) : nextPow2 (2 ^ k) = 2 ^ k :=
  Nat.le_antisymm (nextPow2_le (Nat.le_refl _)) (le_nextPow2 _)

/-- The largest power of two up to a number, or 0. -/
def prevPow2 (n : Nat) : Nat := if n < nextPow2 n then nextPow2 n / 2 else nextPow2 n

theorem prevPow2_eq_pow {n : Nat} (h : 0 < n) : prevPow2 n = 2 ^ n.log2 := by
  obtain ⟨k, hk⟩ := nextPow2_eq_pow n
  unfold prevPow2
  split
  next hlt =>
    rw [hk] at hlt ⊢
    cases k with
    | zero => omega
    | succ k =>
      -- the next one is above `n`, so its half is not
      have hhalf : ¬ n ≤ 2 ^ k := fun hle => by
        have hnext := nextPow2_le hle
        rw [hk, Nat.pow_succ] at hnext
        have hpos := Nat.two_pow_pos k
        omega
      have hlog : n.log2 = k := by
        apply Nat.le_antisymm
        · exact Nat.le_of_lt_succ ((Nat.log2_lt (by omega)).mpr hlt)
        · exact (Nat.le_log2 (by omega)).mpr (by omega)
      rw [hlog, Nat.pow_succ, Nat.mul_div_cancel _ Nat.two_pos]
  next hle =>
    have heq : n = nextPow2 n := Nat.le_antisymm (le_nextPow2 n) (not_lt.mp hle)
    rw [hk] at heq ⊢
    rw [heq, Nat.log2_two_pow]

theorem prevPow2_le (n : Nat) : prevPow2 n ≤ n := by
  rcases Nat.eq_zero_or_pos n with rfl | hpos
  · exact Nat.le_refl _
  · rw [prevPow2_eq_pow hpos]
    exact Nat.log2_self_le (by omega)

theorem pow_le_log2 {n k : Nat} (h : 2 ^ k ≤ n) : 2 ^ k ≤ 2 ^ n.log2 := by
  have hn : n ≠ 0 := by
    have hpos : 0 < 2 ^ k := Nat.two_pow_pos k
    omega
  exact Nat.pow_le_pow_right Nat.two_pos ((Nat.le_log2 hn).mpr h)

theorem pow_le_prevPow2 {n k : Nat} (h : 2 ^ k ≤ n) : 2 ^ k ≤ prevPow2 n := by
  rw [prevPow2_eq_pow ((Nat.two_pow_pos k).trans_le h)]
  exact pow_le_log2 h

/-- Whether a word is too large to be rounded up to a power of two. -/
theorem nextPow2_lt_iff {n k : Nat} : nextPow2 n < 2 ^ (k + 1) ↔ n ≤ 2 ^ k := by
  constructor
  · intro hlt
    obtain ⟨j, hj⟩ := nextPow2_eq_pow n
    have hjk : j < k + 1 := (Nat.pow_lt_pow_iff_right Nat.one_lt_two).mp (by rw [← hj]; exact hlt)
    calc n ≤ nextPow2 n := le_nextPow2 n
      _ = 2 ^ j := hj
      _ ≤ 2 ^ k := Nat.pow_le_pow_right Nat.two_pos (Nat.le_of_lt_succ hjk)
  · intro hle
    exact (nextPow2_le hle).trans_lt (Nat.pow_lt_pow_right Nat.one_lt_two (Nat.lt_succ_self k))

end TraceMcp.Lib
