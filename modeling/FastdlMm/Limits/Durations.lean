import Mathlib.Algebra.Order.Floor.Div
import FastdlMm.Limits.Bucket

namespace FastdlMm.BandwidthLimiter

/-- The least whole number of nanoseconds the bytes take at the rate, as a saturated `int64_t`. -/
def exactDuration (bytes rate : Nat) : Int :=
  (min int64Max (bytes * kNanosecondsPerSecond ⌈/⌉ rate) : Nat)

/-- Rounding up may be done after the whole seconds are split off. -/
theorem ceilDiv_split (bytes rate unit : Nat) (hr : 0 < rate) :
    bytes * unit ⌈/⌉ rate = bytes / rate * unit + bytes % rate * unit ⌈/⌉ rate := by
  have hsplit : bytes * unit = rate * (bytes / rate * unit) + bytes % rate * unit := by
    calc bytes * unit = (rate * (bytes / rate) + bytes % rate) * unit := by rw [Nat.div_add_mod]
      _ = rate * (bytes / rate * unit) + bytes % rate * unit := by rw [Nat.add_mul, Nat.mul_assoc]
  have hround : rate * (bytes / rate * unit) + bytes % rate * unit + rate - 1 =
      rate * (bytes / rate * unit) + (bytes % rate * unit + rate - 1) := by omega
  rw [Nat.ceilDiv_eq_add_pred_div, Nat.ceilDiv_eq_add_pred_div, hsplit, hround,
    Nat.mul_add_div hr]

/-- No byte count of the 32-bit build reaches the saturation. -/
theorem exactDuration_eq {bytes rate : Nat} (hr : 0 < rate) (hb : bytes < 2 ^ sizeBits) :
    exactDuration bytes rate = (bytes * kNanosecondsPerSecond ⌈/⌉ rate : Nat) := by
  have hle : bytes * kNanosecondsPerSecond ⌈/⌉ rate ≤ int64Max := by
    rw [ceilDiv_le_iff_le_mul hr]
    have hunit : bytes * kNanosecondsPerSecond ≤ int64Max := by
      simp only [sizeBits, kNanosecondsPerSecond, int64Max] at hb ⊢
      omega
    exact hunit.trans (Nat.le_mul_of_pos_left _ hr)
  rw [exactDuration, Nat.min_eq_right hle]

/-- Without a wrap in its rounding term `durationFor` is exact. -/
theorem durationFor_exact {bytes rate : Nat} (hr : 0 < rate) (hb : bytes < 2 ^ sizeBits)
    (hw : bytes % rate * kNanosecondsPerSecond + rate ≤ 2 ^ 64) :
    durationFor bytes rate = exactDuration bytes rate := by
  rw [durationFor_eq hr hb hw, exactDuration_eq hr hb, ceilDiv_split _ _ _ hr,
    Nat.ceilDiv_eq_add_pred_div]

/-- The rounding term only wraps where all the bytes take less than a nanosecond. -/
theorem lt_rate_of_wrap {bytes rate : Nat} (hr : 0 < rate) (hb : bytes < 2 ^ sizeBits)
    (hw : 2 ^ 64 < bytes % rate * kNanosecondsPerSecond + rate) :
    bytes * kNanosecondsPerSecond < rate := by
  have hrem : bytes % rate < rate := Nat.mod_lt _ hr
  have hle : bytes % rate ≤ bytes := Nat.mod_le _ _
  simp only [sizeBits, kNanosecondsPerSecond] at hb hw ⊢
  omega

/-- Where the sum of the rounding term passes `2 ^ 64`, what is left of it is below the rate and the
duration comes out as nothing at all, one nanosecond short. -/
theorem durationFor_wrap {bytes rate : Nat} (hb : bytes < 2 ^ sizeBits) (hrate : rate < 2 ^ 64)
    (hw : 2 ^ 64 < bytes * kNanosecondsPerSecond + rate) : durationFor bytes rate = 0 := by
  have hlt : bytes * kNanosecondsPerSecond < rate := by
    simp only [sizeBits, kNanosecondsPerSecond] at hb hw ⊢
    omega
  have hbytes : bytes < rate := by
    simp only [kNanosecondsPerSecond] at hlt
    omega
  have hdiv : bytes / rate = 0 := Nat.div_eq_of_lt hbytes
  have hmod : bytes % rate = bytes := Nat.mod_eq_of_lt hbytes
  have hmul : wrapMul 64 bytes kNanosecondsPerSecond = bytes * kNanosecondsPerSecond :=
    wrapMul_of_lt (hlt.trans hrate)
  have hadd : wrapAdd 64 (bytes * kNanosecondsPerSecond) rate =
      bytes * kNanosecondsPerSecond + rate - 2 ^ 64 := by
    rw [wrapAdd, Nat.mod_eq_sub_mod hw.le, Nat.mod_eq_of_lt (by omega)]
  have hround : wrapSub 64 (wrapAdd 64 (wrapMul 64 bytes kNanosecondsPerSecond) rate) 1 / rate =
      0 := by
    rw [hmul, hadd, wrapSub_of_le (by omega) (by omega), Nat.div_eq_of_lt (by omega)]
  have hfrac : (if bytes = 0 then 0 else
      wrapSub 64 (wrapAdd 64 (wrapMul 64 bytes kNanosecondsPerSecond) rate) 1 / rate) = 0 := by
    rw [hround, ite_self]
  simp only [durationFor, hdiv, hmod, hfrac]
  simp [wrapMul, wrapAdd, wrapSub, int64Max, kNanosecondsPerSecond]

/-- `durationFor` is the saturating ceiling exactly where no byte is asked for or the numerator of
its rounding term fits in 64 bits. -/
theorem durationFor_eq_exactDuration_iff {bytes rate : Nat} (hb : bytes < 2 ^ sizeBits)
    (hr : 0 < rate) (hrate : rate < 2 ^ 64) :
    durationFor bytes rate = exactDuration bytes rate ↔
      bytes = 0 ∨ bytes * kNanosecondsPerSecond + rate ≤ 2 ^ 64 := by
  constructor
  · intro heq
    by_contra hnot
    obtain ⟨hzero, hwrap⟩ := not_or.mp hnot
    have hpos : 0 < bytes * kNanosecondsPerSecond ⌈/⌉ rate := by
      by_contra hceil
      have hle : bytes * kNanosecondsPerSecond ≤ rate * 0 :=
        (ceilDiv_le_iff_le_mul hr).mp (Nat.not_lt.mp hceil)
      simp only [kNanosecondsPerSecond] at hle
      omega
    rw [durationFor_wrap hb hrate (Nat.not_le.mp hwrap), exactDuration_eq hr hb] at heq
    omega
  · intro hfits
    apply durationFor_exact hr hb
    by_contra hwrap
    have hlt := lt_rate_of_wrap hr hb (Nat.not_le.mp hwrap)
    have hmod : bytes % rate = bytes := by
      apply Nat.mod_eq_of_lt
      simp only [kNanosecondsPerSecond] at hlt
      omega
    rw [hmod] at hwrap
    obtain rfl | hfits := hfits
    · omega
    · exact hwrap hfits

theorem durationFor_eq_exactDuration_iff_quantum :
    durationFor 1024 12500 = exactDuration 1024 12500 :=
  (durationFor_eq_exactDuration_iff (by decide) (by decide) (by decide)).mpr (Or.inr (by decide))

/-- A full burst at the rate `rateFromMbps` saturates at. -/
theorem saturated_rate_wraps :
    durationFor (256 * 1024) (2 ^ 64 - 1) = 0 ∧ exactDuration (256 * 1024) (2 ^ 64 - 1) = 1 := by
  decide

end FastdlMm.BandwidthLimiter
