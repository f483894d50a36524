import TraceMcp.Capture.PerfData
import TraceMcp.Capture.Recorder
import TraceMcp.Lib.Word

/-!
# The clock of a trace

The TSC is turned into the time of perf's clock by a multiplication and a
shift, once for the records of a file (`IntelPtInfo::tsc_to_ns`) and once by
the direct recorder. Both keep the product inside 64 bits by doing the high and
the low part of the TSC apart; together the parts make the rounded product
(`mul_div_split`), so nothing is lost. The way back rounds down too, and misses
by no more than a tick of the clock is long (`back_le`, `back_ge`).
-/

namespace TraceMcp.Capture

open TraceMcp.Lib

namespace IntelPtInfo

/-- `IntelPtInfo::tsc_to_ns`, with the shifts of a release build. -/
def tscToNs (info : IntelPtInfo) (tsc : Nat) : Nat :=
  let shift := info.timeShift % 64
  let quot := tsc >>> shift
  let rem := tsc &&& (1 <<< shift - 1)
  ((info.timeZero + quot * info.timeMult % wordSize) % wordSize
    + (rem * info.timeMult % wordSize) >>> shift) % wordSize

/-- `IntelPtInfo::ns_to_tsc`. -/
def nsToTsc (info : IntelPtInfo) (ns : Nat) : Nat :=
  let delta := (ns + (wordSize - info.timeZero)) % wordSize
  if info.timeMult = 0 then 0
  else ((delta <<< (info.timeShift % 128)) % 2 ^ 128 / info.timeMult) % wordSize

end IntelPtInfo

/-- The time of a TSC. -/
def clockTime (base mult shift tsc : Nat) : Nat := base + tsc * mult / 2 ^ shift

/-- A file says of its clock what the metadata page of an event does. -/
structure SameClock (info : IntelPtInfo) (t : Timing) : Prop where
  shift : info.timeShift = t.shift.toNat
  mult : info.timeMult = t.mult.toNat
  zero : info.timeZero = t.zero.toNat

/-! ## Rounding -/

/-- The high and the low part of a product, rounded apart. -/
theorem mul_div_split (t m d : Nat) : t * m / d = t / d * m + t % d * m / d := by
  rcases Nat.eq_zero_or_pos d with rfl | hd
  · simp
  have hparts : t * m = d * (t / d * m) + t % d * m := by
    conv_lhs => rw [← Nat.div_add_mod t d, Nat.add_mul, Nat.mul_assoc]
  rw [hparts, Nat.mul_add_div hd]

/-- The way back does not overshoot. -/
theorem back_le {m : Nat} (hm : 0 < m) (t d : Nat) : t * m / d * d / m ≤ t := by
  calc t * m / d * d / m ≤ t * m / m := Nat.div_le_div_right (Nat.div_mul_le_self ..)
    _ = t := Nat.mul_div_cancel t hm

/-- It falls short by a tick at most. -/
theorem back_ge {m d : Nat} (hm : 0 < m) (hd : 0 < d) (t : Nat) :
    t ≤ t * m / d * d / m + (d + m - 1) / m := by
  have hround := Nat.div_add_mod (t * m) d
  have hrest := Nat.mod_lt (t * m) hd
  have htick : d ≤ (d + m - 1) / m * m := by
    have hdiv := Nat.div_add_mod (d + m - 1) m
    have hmod := Nat.mod_lt (d + m - 1) hm
    rw [Nat.mul_comm] at hdiv
    omega
  have hback : t * m / d * d < (t * m / d * d / m + 1) * m := by
    rw [Nat.mul_comm (_ + 1)]
    exact Nat.lt_mul_div_succ _ hm
  rw [Nat.mul_comm d] at hround
  have hall : t * m < (t * m / d * d / m + (d + m - 1) / m + 1) * m := by
    rw [Nat.add_right_comm, Nat.add_mul]
    omega
  have := Nat.lt_of_mul_lt_mul_right hall
  omega

/-! ## Both clocks -/

section Clocks

variable {info : IntelPtInfo} {t : Timing}

/-- The low part of a TSC, times the multiplier, fits. -/
theorem low_lt {mult shift : Nat} (hmult : mult < 2 ^ 32) (hshift : shift ≤ 32) (tsc : Nat) :
    tsc % 2 ^ shift * mult < wordSize := by
  have hlow : tsc % 2 ^ shift < 2 ^ 32 :=
    Nat.lt_of_lt_of_le (Nat.mod_lt _ (Nat.two_pow_pos shift)) (Nat.pow_le_pow_right (by decide) hshift)
  calc tsc % 2 ^ shift * mult < 2 ^ 32 * 2 ^ 32 := Nat.mul_lt_mul'' hlow hmult
    _ = wordSize := rfl

/-- What either function computes. -/
theorem wrapped_clock {base mult shift : Nat} (tsc : Nat) (hmult : mult < 2 ^ 32)
    (hshift : shift ≤ 32) :
    ((base + tsc / 2 ^ shift * mult % wordSize) % wordSize
      + tsc % 2 ^ shift * mult % wordSize / 2 ^ shift) % wordSize =
      clockTime base mult shift tsc % wordSize := by
  rw [Nat.mod_eq_of_lt (low_lt hmult hshift tsc), Nat.mod_add_mod, Nat.add_right_comm,
    Nat.add_mod_mod, clockTime, mul_div_split tsc mult]
  congr 1
  omega

theorem info_tscToNs (hclock : SameClock info t) (hshift : t.shift.toNat ≤ 32) (tsc : Nat) :
    info.tscToNs tsc = clockTime t.zero.toNat t.mult.toNat t.shift.toNat tsc % wordSize := by
  have hsmall : t.shift.toNat % 64 = t.shift.toNat := Nat.mod_eq_of_lt (by omega)
  unfold IntelPtInfo.tscToNs
  dsimp only
  rw [hclock.shift, hclock.mult, hclock.zero, hsmall, Nat.shiftRight_eq_div_pow,
    Nat.one_shiftLeft, Nat.and_two_pow_sub_one_eq_mod, Nat.shiftRight_eq_div_pow]
  exact wrapped_clock tsc t.mult.toNat_lt hshift

theorem direct_tscToNs (hshift : t.shift.toNat ≤ 32) (tsc : UInt64) :
    (tscToNs tsc t).toNat =
      clockTime t.zero.toNat t.mult.toNat t.shift.toNat tsc.toNat % wordSize := by
  have hsmall : t.shift.toNat % 64 = t.shift.toNat := Nat.mod_eq_of_lt (by omega)
  have hone : ((1 : UInt64) <<< t.shift.toUInt64 - 1).toNat = 2 ^ t.shift.toNat - 1 := by
    have hshl : ((1 : UInt64) <<< t.shift.toUInt64).toNat = 2 ^ t.shift.toNat := by
      rw [UInt64.toNat_shiftLeft, UInt16.toNat_toUInt64, hsmall]
      show 1 <<< t.shift.toNat % 2 ^ 64 = _
      rw [Nat.one_shiftLeft]
      exact Nat.mod_eq_of_lt (Nat.pow_lt_pow_right (by decide) (by omega))
    have hpos : (1 : UInt64) ≤ 1 <<< t.shift.toUInt64 := by
      rw [UInt64.le_iff_toNat_le, hshl]
      exact Nat.two_pow_pos _
    rw [UInt64.toNat_sub_of_le _ _ hpos, hshl]
    rfl
  unfold tscToNs
  dsimp only
  rw [UInt64.toNat_add, UInt64.toNat_add, UInt64.toNat_mul, UInt64.toNat_shiftRight,
    UInt64.toNat_shiftRight, UInt64.toNat_mul, UInt64.toNat_and, hone,
    UInt16.toNat_toUInt64, UInt32.toNat_toUInt64, hsmall, Nat.and_two_pow_sub_one_eq_mod,
    Nat.shiftRight_eq_div_pow, Nat.shiftRight_eq_div_pow]
  exact wrapped_clock tsc.toNat t.mult.toNat_lt hshift

/-- The way back from a time that did not wrap. -/
theorem info_nsToTsc (hclock : SameClock info t) (hshift : t.shift.toNat ≤ 32)
    (hmult : 1 ≤ t.mult.toNat) {tsc : Nat} (htsc : tsc < wordSize)
    (hfits : tsc * t.mult.toNat / 2 ^ t.shift.toNat < wordSize) :
    info.nsToTsc (info.tscToNs tsc) =
      tsc * t.mult.toNat / 2 ^ t.shift.toNat * 2 ^ t.shift.toNat / t.mult.toNat := by
  have hback : tsc * t.mult.toNat / 2 ^ t.shift.toNat * 2 ^ t.shift.toNat / t.mult.toNat ≤ tsc :=
    back_le hmult _ _
  have hzero := t.zero.toNat_lt
  rw [info_tscToNs hclock hshift]
  unfold IntelPtInfo.nsToTsc clockTime
  dsimp only
  rw [hclock.shift, hclock.mult, hclock.zero, if_neg (by omega), Nat.shiftLeft_eq]
  generalize hdelta : tsc * t.mult.toNat / 2 ^ t.shift.toNat = delta at *
  -- the time zero that was added is taken off again
  have hsub : ((t.zero.toNat + delta) % wordSize + (wordSize - t.zero.toNat)) % wordSize = delta := by
    rw [Nat.mod_add_mod]
    have hword : t.zero.toNat + delta + (wordSize - t.zero.toNat) = delta + wordSize := by
      have : t.zero.toNat < wordSize := hzero
      omega
    rw [hword, Nat.add_mod_right, Nat.mod_eq_of_lt hfits]
  have hwide : delta * 2 ^ t.shift.toNat < 2 ^ 128 := by
    calc delta * 2 ^ t.shift.toNat < wordSize * 2 ^ 32 :=
          Nat.mul_lt_mul_of_lt_of_le hfits (Nat.pow_le_pow_right (by decide) hshift) (by decide)
      _ ≤ 2 ^ 128 := by decide
  rw [hsub, Nat.mod_eq_of_lt (by omega : t.shift.toNat < 128), Nat.mod_eq_of_lt hwide,
    Nat.mod_eq_of_lt (Nat.lt_of_le_of_lt hback htsc)]

/-- The TSCs of a clock, in order as long as their times do not wrap. -/
theorem clockTime_mono {base mult shift a b : Nat} (h : a ≤ b) :
    clockTime base mult shift a ≤ clockTime base mult shift b :=
  Nat.add_le_add_left (Nat.div_le_div_right (Nat.mul_le_mul_right mult h)) base

/-- Both clocks are the rounded product modulo `2^64`, monotone while that does
not wrap, and can be turned back to within a tick. -/
theorem clock_exact (hclock : SameClock info t) (hmult : 1 ≤ t.mult.toNat)
    (hshift : t.shift.toNat ≤ 32) :
    (∀ tsc : UInt64,
      info.tscToNs tsc.toNat =
        clockTime t.zero.toNat t.mult.toNat t.shift.toNat tsc.toNat % wordSize ∧
      (tscToNs tsc t).toNat =
        clockTime t.zero.toNat t.mult.toNat t.shift.toNat tsc.toNat % wordSize) ∧
    (∀ a b : UInt64, a ≤ b →
      clockTime t.zero.toNat t.mult.toNat t.shift.toNat b.toNat < wordSize →
        info.tscToNs a.toNat ≤ info.tscToNs b.toNat ∧ tscToNs a t ≤ tscToNs b t) ∧
    ∀ tsc : UInt64, tsc.toNat * t.mult.toNat / 2 ^ t.shift.toNat < wordSize →
      info.nsToTsc (info.tscToNs tsc.toNat) ≤ tsc.toNat ∧
      tsc.toNat ≤ info.nsToTsc (info.tscToNs tsc.toNat) +
        (2 ^ t.shift.toNat + t.mult.toNat - 1) / t.mult.toNat := by
  refine ⟨fun tsc => ⟨info_tscToNs hclock hshift _, direct_tscToNs hshift _⟩, ?_, ?_⟩
  · intro a b hab hfits
    have hle : clockTime t.zero.toNat t.mult.toNat t.shift.toNat a.toNat ≤
        clockTime t.zero.toNat t.mult.toNat t.shift.toNat b.toNat :=
      clockTime_mono (UInt64.le_iff_toNat_le.mp hab)
    rw [UInt64.le_iff_toNat_le, direct_tscToNs hshift, direct_tscToNs hshift,
      info_tscToNs hclock hshift, info_tscToNs hclock hshift, Nat.mod_eq_of_lt hfits,
      Nat.mod_eq_of_lt (Nat.lt_of_le_of_lt hle hfits)]
    exact ⟨hle, hle⟩
  · intro tsc hfits
    rw [info_nsToTsc hclock hshift hmult tsc.toNat_lt hfits]
    exact ⟨back_le hmult _ _, back_ge hmult (Nat.two_pow_pos _) _⟩

end Clocks

/-- The clock of a machine, as a recording has it. -/
def sampleClock : Timing := ⟨31, 0x3d1879ab, 0xfffb6d5b6216b6b3, true⟩

def sampleInfo : IntelPtInfo :=
  { IntelPtInfo.default with
    timeShift := 31, timeMult := 0x3d1879ab, timeZero := 0xfffb6d5b6216b6b3 }

/-- `clock_exact` on it. -/
theorem clock_exact_sampleClock : SameClock sampleInfo sampleClock ∧
    sampleInfo.nsToTsc (sampleInfo.tscToNs 0x123456789abc) ≤ 0x123456789abc :=
  have hclock : SameClock sampleInfo sampleClock := ⟨rfl, rfl, rfl⟩
  ⟨hclock, ((clock_exact hclock (by decide) (by decide)).2.2 0x123456789abc (by decide)).1⟩

end TraceMcp.Capture
