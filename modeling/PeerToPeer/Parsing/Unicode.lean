import PeerToPeer.Parsing.Strings

namespace PeerToPeer.Parsing

theorem continuation_table : ∀ x < 256, (x ||| 0x80) &&& 0xBF = x % 64 + 0x80 := by decide +kernel

theorem lead_table : (∀ x < 0x20, (x ||| 0xC0) &&& 0xFF = x + 0xC0) ∧
    (∀ x < 0x10, (x ||| 0xE0) &&& 0xFF = x + 0xE0) ∧
    (∀ x < 8, (x ||| 0xF0) &&& 0xFF = x + 0xF0) := by decide

/-- A byte behind the first one holds the low six bits. -/
theorem continuation_eq (n : Nat) : (n ||| 0x80) &&& 0xBF = n % 64 + 0x80 := by
  have hbyte : (n ||| 0x80) &&& 0xFF = n % 256 ||| 0x80 := by
    rw [show 0xFF = 2 ^ 8 - 1 from rfl, Nat.and_two_pow_sub_one_eq_mod, Nat.or_mod_two_pow]
  calc (n ||| 0x80) &&& 0xBF = ((n ||| 0x80) &&& 0xFF) &&& 0xBF := by rw [Nat.and_assoc]; rfl
    _ = n % 256 % 64 + 0x80 := by rw [hbyte, continuation_table _ (by omega)]
    _ = n % 64 + 0x80 := by omega

theorem shiftRight_six (n : Nat) : n >>> 6 = n / 64 := Nat.shiftRight_eq_div_pow n 6

section Ranges

variable {n : Nat}

theorem encodeUtf8_one (h : n < 0x80) : encodeUtf8 n = some [UInt8.ofNat n] := by
  have hlow : n &&& 0x7F = n := by
    rw [show 0x7F = 2 ^ 7 - 1 from rfl, Nat.and_two_pow_sub_one_eq_mod]
    omega
  rw [encodeUtf8, utf8Length, if_pos h]
  show some [UInt8.ofNat (n &&& 0x7F)] = _
  rw [hlow]

theorem encodeUtf8_two (h : 0x80 ≤ n) (h' : n < 0x800) : encodeUtf8 n =
    some [UInt8.ofNat (n / 64 + 0xC0), UInt8.ofNat (n % 64 + 0x80)] := by
  have hlead := lead_table.1 (n / 64) (by omega)
  rw [encodeUtf8, utf8Length, if_neg (by omega), if_pos h']
  simp only [Option.map_some, encodeTail, shiftRight_six, continuation_eq, hlead]
  rfl

theorem encodeUtf8_three (h : 0x800 ≤ n) (h' : n < 0x10000) : encodeUtf8 n =
    some [UInt8.ofNat (n / 4096 + 0xE0), UInt8.ofNat (n / 64 % 64 + 0x80),
      UInt8.ofNat (n % 64 + 0x80)] := by
  have hlead := lead_table.2.1 (n / 4096) (by omega)
  rw [encodeUtf8, utf8Length, if_neg (by omega), if_neg (by omega), if_pos h']
  simp only [Option.map_some, encodeTail, shiftRight_six, continuation_eq, Nat.div_div_eq_div_mul,
    hlead]
  rfl

theorem encodeUtf8_four (h : 0x10000 ≤ n) (h' : n ≤ 0x10FFFF) : encodeUtf8 n =
    some [UInt8.ofNat (n / 262144 + 0xF0), UInt8.ofNat (n / 4096 % 64 + 0x80),
      UInt8.ofNat (n / 64 % 64 + 0x80), UInt8.ofNat (n % 64 + 0x80)] := by
  have hlead := lead_table.2.2 (n / 262144) (by omega)
  rw [encodeUtf8, utf8Length, if_neg (by omega), if_neg (by omega), if_neg (by omega), if_pos h']
  simp only [Option.map_some, encodeTail, shiftRight_six, continuation_eq, Nat.div_div_eq_div_mul,
    hlead]
  rfl

end Ranges

/-- What is written for a character is its UTF-8 encoding. -/
theorem encodeUtf8_char (c : Char) : encodeUtf8 c.toNat = some (String.utf8EncodeChar c) := by
  have hmax : c.toNat ≤ 0x10FFFF := by
    rcases c.valid with h | ⟨-, h⟩ <;> (change c.toNat < _ at h; omega)
  unfold String.utf8EncodeChar
  dsimp only [Char.toNat] at hmax ⊢
  split_ifs with h₁ h₂ h₃
  · exact encodeUtf8_one (by omega)
  · rw [encodeUtf8_two (by omega) (by omega),
      Nat.mod_eq_of_lt (by omega : c.val.toNat / 64 < 0x20)]
  · rw [encodeUtf8_three (by omega) (by omega),
      Nat.mod_eq_of_lt (by omega : c.val.toNat / 4096 < 0x10)]
  · rw [encodeUtf8_four (by omega) hmax,
      Nat.mod_eq_of_lt (by omega : c.val.toNat / 262144 < 0x08)]

end PeerToPeer.Parsing
