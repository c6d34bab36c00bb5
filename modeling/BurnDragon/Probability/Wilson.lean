import Mathlib

/-!
# Wilson bounds

The two ends of the score interval for a rate `p` observed on `n` items, at `z` standard deviations,
up to the common denominator `1 + z² / n`. Both grow with the observed rate (`wilsonLow_mono`,
`wilsonHigh_mono`): the radius changes by less than the rate does, since it never falls below
`z² / 2n`.
-/

namespace BurnDragon.Probability

/-- The number under the square root. -/
noncomputable def wilsonRadicand (n z p : ℝ) : ℝ := p * (1 - p) / n + z * z / (4 * n * n)

/-- The lower end, times the denominator. -/
noncomputable def wilsonLow (n z p : ℝ) : ℝ :=
  p + z * z / (2 * n) - z * √(wilsonRadicand n z p)

/-- The upper end, times the denominator. -/
noncomputable def wilsonHigh (n z p : ℝ) : ℝ :=
  p + z * z / (2 * n) + z * √(wilsonRadicand n z p)

variable {n z p q : ℝ}

theorem wilsonRadicand_nonneg (hn : 0 < n) (hp : 0 ≤ p) (hp1 : p ≤ 1) :
    0 ≤ wilsonRadicand n z p := by
  have hsquare : 0 ≤ z * z := mul_self_nonneg z
  unfold wilsonRadicand
  positivity

theorem wilsonRadicand_symm : wilsonRadicand n z (1 - p) = wilsonRadicand n z p := by
  unfold wilsonRadicand
  ring

/-- The radius is at least half of what the correction adds. -/
theorem le_sqrt_wilsonRadicand (hn : 0 < n) (hp : 0 ≤ p) (hp1 : p ≤ 1) :
    z / (2 * n) ≤ √(wilsonRadicand n z p) := by
  refine Real.le_sqrt_of_sq_le ?_
  have hspread : 0 ≤ p * (1 - p) / n :=
    div_nonneg (mul_nonneg hp (sub_nonneg.2 hp1)) hn.le
  calc (z / (2 * n)) ^ 2 = z * z / (4 * n * n) := by ring
    _ ≤ wilsonRadicand n z p := le_add_of_nonneg_left hspread

section

variable (hn : 0 < n) (hz : 0 ≤ z) (hp : 0 ≤ p) (hpq : p ≤ q) (hq1 : q ≤ 1)
include hn hz hp hpq hq1

/-- The radius grows by at most as much as the rate. -/
theorem mul_sqrt_wilsonRadicand_sub_le :
    z * √(wilsonRadicand n z q) - z * √(wilsonRadicand n z p) ≤ q - p := by
  have hq : 0 ≤ q := hp.trans hpq
  have hp1 : p ≤ 1 := hpq.trans hq1
  set s := √(wilsonRadicand n z p) with hs
  set t := √(wilsonRadicand n z q) with ht
  have hs2 : s * s = wilsonRadicand n z p := Real.mul_self_sqrt (wilsonRadicand_nonneg hn hp hp1)
  have ht2 : t * t = wilsonRadicand n z q := Real.mul_self_sqrt (wilsonRadicand_nonneg hn hq hq1)
  rcases le_total t s with hts | hst
  · have hfall : z * t ≤ z * s := mul_le_mul_of_nonneg_left hts hz
    linarith
  · have hsum : z ≤ n * (s + t) := by
      have hlow : z / (2 * n) + z / (2 * n) ≤ s + t :=
        add_le_add (le_sqrt_wilsonRadicand hn hp hp1) (le_sqrt_wilsonRadicand hn hq hq1)
      calc z = n * (z / (2 * n) + z / (2 * n)) := by field_simp; ring
        _ ≤ n * (s + t) := mul_le_mul_of_nonneg_left hlow hn.le
    have hsquares : n * (t * t - s * s) = (q - p) * (1 - p - q) := by
      rw [hs2, ht2]
      unfold wilsonRadicand
      field_simp
      ring
    calc z * t - z * s = z * (t - s) := by ring
      _ ≤ n * (s + t) * (t - s) := mul_le_mul_of_nonneg_right hsum (sub_nonneg.2 hst)
      _ = (q - p) * (1 - p - q) := by rw [← hsquares]; ring
      _ ≤ (q - p) * 1 := mul_le_mul_of_nonneg_left (by linarith) (sub_nonneg.2 hpq)
      _ = q - p := mul_one _

/-- **The lower end grows with the rate.** -/
theorem wilsonLow_mono :
    wilsonLow n z p ≤ wilsonLow n z q := by
  have hradius := mul_sqrt_wilsonRadicand_sub_le hn hz hp hpq hq1
  unfold wilsonLow
  linarith

/-- **The upper end grows with the rate**, as the lower end of the complement does. -/
theorem wilsonHigh_mono :
    wilsonHigh n z p ≤ wilsonHigh n z q := by
  have hradius := mul_sqrt_wilsonRadicand_sub_le (z := z) hn hz (sub_nonneg.2 hq1)
    (sub_le_sub_left hpq 1) (sub_le_self 1 hp)
  rw [wilsonRadicand_symm, wilsonRadicand_symm] at hradius
  unfold wilsonHigh
  linarith

end

end BurnDragon.Probability
