import Mathlib.Algebra.Order.Round
import Mathlib.Data.Int.Log
import Mathlib.Data.Rat.Floor
import Mathlib.Tactic.FieldSimp
import Mathlib.Tactic.Linarith
import Mathlib.Tactic.NormNum

namespace PeerToPeer.CLib

/-- The nearest whole number, the even one of two. -/
def roundEven (q : ℚ) : Int :=
  let below := q - ⌊q⌋
  if below < 1 / 2 then ⌊q⌋
  else if 1 / 2 < below then ⌊q⌋ + 1
  else if ⌊q⌋ % 2 = 0 then ⌊q⌋ else ⌊q⌋ + 1

/-- The distance of two neighbours among the numbers of 53 significant bits. -/
def ulp (q : ℚ) : ℚ := 2 ^ (Int.log 2 |q| - 52)

/-- The nearest number of 53 significant bits. A `double` differs from it only where its exponent
is at an end of the range. -/
def toDouble (q : ℚ) : ℚ := roundEven (q / ulp q) * ulp q

theorem roundEven_intCast (n : Int) : roundEven n = n := by
  simp [roundEven]

theorem abs_roundEven_sub (q : ℚ) : |roundEven q - q| ≤ 1 / 2 := by
  have hfloor := Int.floor_le q
  have hceil := Int.lt_floor_add_one q
  unfold roundEven
  dsimp only
  rw [abs_le]
  split_ifs <;> push_cast <;> constructor <;> linarith

theorem ulp_pos (q : ℚ) : 0 < ulp q := zpow_pos (by norm_num) _

/-- The leading one of 53 bits stands for no more than the number. -/
theorem ulp_le {q : ℚ} (h : q ≠ 0) : ulp q ≤ |q| / 2 ^ 52 := by
  have hlog : (2 : ℚ) ^ Int.log 2 |q| ≤ |q| := by
    exact_mod_cast Int.zpow_log_le_self (by decide) (abs_pos.mpr h)
  rw [ulp, zpow_sub₀ (by norm_num)]
  exact div_le_div_of_nonneg_right hlog (by norm_num)

theorem abs_toDouble_sub (q : ℚ) : |toDouble q - q| ≤ ulp q / 2 := by
  have hpos := ulp_pos q
  have hround := mul_le_mul_of_nonneg_right (abs_roundEven_sub (q / ulp q)) hpos.le
  calc |toDouble q - q| = |roundEven (q / ulp q) - q / ulp q| * ulp q := by
        rw [← abs_of_pos hpos, ← abs_mul, abs_of_pos hpos, sub_mul, div_mul_cancel₀ q hpos.ne',
          toDouble]
    _ ≤ 1 / 2 * ulp q := hround
    _ = ulp q / 2 := by ring

/-- A number of at most 53 bits is kept. -/
theorem toDouble_intCast {z : Int} (h : |z| < 2 ^ 53) : toDouble z = z := by
  have hlog : Int.log 2 |(z : ℚ)| ≤ 52 := by
    by_cases hz : z = 0
    · simp [hz]
    · have hpos : (0 : ℚ) < |(z : ℚ)| := abs_pos.mpr (Int.cast_ne_zero.mpr hz)
      have hlt : |(z : ℚ)| < ((2 : ℕ) : ℚ) ^ (53 : Int) := by exact_mod_cast h
      exact Int.lt_add_one_iff.mp ((Int.lt_zpow_iff_log_lt (by decide) hpos).mp hlt)
  obtain ⟨k, hk⟩ := Int.eq_ofNat_of_zero_le (sub_nonneg.mpr hlog)
  have hulp : ulp (z : ℚ) = (2 ^ k)⁻¹ := by
    rw [ulp, ← neg_sub, hk, zpow_neg]
    simp
  have hscaled : (z : ℚ) / ulp z = ((z * 2 ^ k : Int) : ℚ) := by
    rw [hulp, div_inv_eq_mul]
    push_cast
    ring
  rw [toDouble, hscaled, roundEven_intCast, ← hscaled, div_mul_cancel₀ _ (ulp_pos _).ne']

/-- Rounding changes a number by a small part of it. -/
theorem abs_toDouble_sub_le {q : ℚ} (h : q ≠ 0) : |toDouble q - q| ≤ |q| / 2 ^ 53 := by
  have hround := abs_toDouble_sub q
  have hulp := ulp_le h
  calc |toDouble q - q| ≤ ulp q / 2 := hround
    _ ≤ |q| / 2 ^ 52 / 2 := by linarith
    _ = |q| / 2 ^ 53 := by ring

end PeerToPeer.CLib
