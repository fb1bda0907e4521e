import PeerToPeer.Parsing.NumberText

namespace PeerToPeer.Parsing

open CLib

section Saturate

variable {q : ℚ}

theorem saturate_above (h : 2147483647 ≤ q) : (saturate q).toInt = 2147483647 := by
  rw [saturate, if_pos h]
  decide

theorem saturate_below (h : q ≤ -2147483648) : (saturate q).toInt = -2147483648 := by
  rw [saturate, if_neg (by linarith), if_pos h]
  decide

theorem saturate_intCast (z : Int) :
    (saturate z).toInt = max (-2147483648) (min z 2147483647) := by
  by_cases habove : 2147483647 ≤ z
  · rw [saturate_above (by exact_mod_cast habove)]
    omega
  by_cases hbelow : z ≤ -2147483648
  · rw [saturate_below (by exact_mod_cast hbelow)]
    omega
  have hkept : saturate z = Int32.ofInt z := by
    have habove' : ¬ (2147483647 : ℚ) ≤ z := by exact_mod_cast habove
    have hbelow' : ¬ (z : ℚ) ≤ -2147483648 := by exact_mod_cast hbelow
    rw [saturate, if_neg habove', if_neg hbelow', Int.floor_intCast, Int.ceil_intCast, ite_self]
  rw [hkept, Int32.toInt_ofInt_of_le (by omega) (by omega)]
  omega

end Saturate

/-- Rounding to a `double` does not show in a whole number: what it changes is out of range. -/
theorem saturate_toDouble (z : Int) :
    (saturate (toDouble z)).toInt = max (-2147483648) (min z 2147483647) := by
  by_cases hsmall : |z| < 2 ^ 53
  · rw [toDouble_intCast hsmall, saturate_intCast]
  have hlarge : (2 ^ 53 : ℚ) ≤ |(z : ℚ)| := by exact_mod_cast not_lt.mp hsmall
  have hz : (z : ℚ) ≠ 0 := by
    intro h0
    rw [h0, abs_zero] at hlarge
    norm_num at hlarge
  obtain ⟨hlow, hhigh⟩ := abs_le.mp (abs_toDouble_sub_le hz)
  rcases le_total 0 z with hpos | hneg
  · have hpos' : (0 : ℚ) ≤ z := by exact_mod_cast hpos
    rw [abs_of_nonneg hpos'] at hlarge hlow
    rw [saturate_above (by linarith)]
    have hle : (2 ^ 53 : Int) ≤ z := by exact_mod_cast hlarge
    omega
  · have hneg' : (z : ℚ) ≤ 0 := by exact_mod_cast hneg
    rw [abs_of_nonpos hneg'] at hlarge hhigh
    rw [saturate_below (by linarith)]
    have hle : (2 ^ 53 : Int) ≤ -z := by exact_mod_cast hlarge
    omega

/-- Wherever a whole number stands, spelled with or without a point and an exponent, it is read as
that number, or as the end of the range of `int` that it lies beyond. -/
theorem whole_number_read (content rest : List UInt8) (offset : Nat) (n : WrittenNumber) (z : Int)
    (h : content.drop offset = n.text ++ rest) (hrest : Stops rest) (hz : n.decimal.value = z) :
    ∃ v, parseNumber content offset = (some (.number v), offset + n.text.length) ∧
      v.toInt = max (-2147483648) (min z 2147483647) := by
  refine ⟨n.decimal.valueint, parseNumber_written n h hrest, ?_⟩
  rw [Decimal.valueint, hz, saturate_toDouble]

/-- `-2.5e9` -/
def manyDigits : WrittenNumber where
  negative := true
  int := [0x32]
  fraction := [0x35]
  exponent := some ⟨false, .none, [0x39], List.all_eq_true.mp (by decide), by decide⟩
  isInt := List.all_eq_true.mp (by decide)
  isFraction := List.all_eq_true.mp (by decide)
  nonempty := by decide

theorem manyDigits_value : manyDigits.decimal.value = (-2500000000 : Int) := by
  have hdecimal : manyDigits.decimal = ⟨true, 25, 8⟩ := rfl
  rw [hdecimal, Decimal.value]
  norm_num

theorem whole_number_read_low : ∃ v,
    parseNumber (openBracket :: (manyDigits.text ++ [closeBracket])) 1 = (some (.number v), 7) ∧
      v.toInt = -2147483648 := by
  have hstops : Stops [closeBracket] := by
    intro c hc
    obtain rfl : closeBracket = c := by simpa using hc
    decide
  obtain ⟨v, hv, hclamp⟩ := whole_number_read (openBracket :: (manyDigits.text ++ [closeBracket]))
    [closeBracket] 1 manyDigits (-2500000000) rfl hstops manyDigits_value
  exact ⟨v, hv, hclamp⟩

end PeerToPeer.Parsing
