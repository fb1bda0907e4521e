import PeerToPeer.Parsing.Unicode
import PeerToPeer.Parsing.Written

namespace PeerToPeer.Parsing

open CLib

theorem toNat_char {n : Nat} (h : n.isValidChar) : (Char.ofNat n).toNat = n := by
  rw [Char.ofNat, dif_pos h]
  rfl

theorem hexDigit_char (d : HexDigit) : hexDigit d.char = some (d.value : Nat) := by
  have htable : ∀ v : Fin 16, ∀ b, hexDigit (HexDigit.char ⟨v, b⟩) = some (v : Nat) := by decide
  exact htable d.value d.upper

/-- No digit ends a string or begins an escape. -/
theorem char_plain (d : HexDigit) : d.char ≠ quote ∧ d.char ≠ backslash := by
  have htable : ∀ v : Fin 16, ∀ b, HexDigit.char ⟨v, b⟩ ≠ quote ∧
      HexDigit.char ⟨v, b⟩ ≠ backslash := by decide
  exact htable d.value d.upper

theorem CodeUnit.value_lt (u : CodeUnit) : u.value < 0x10000 := by
  rw [value]
  omega

theorem CodeUnit.valid {u : CodeUnit} (h : u.Alone) : u.value.isValidChar := by
  have hlt := u.value_lt
  rcases h with h | h
  · exact .inl h
  · exact .inr ⟨h, by omega⟩

theorem Piece.pair_valid {high low : CodeUnit} (hh : high.High) (hl : low.Low) :
    (pairValue high low).isValidChar := by
  obtain ⟨hh₁, hh₂⟩ := hh
  obtain ⟨hl₁, hl₂⟩ := hl
  unfold pairValue
  exact .inr ⟨by omega, by omega⟩

/-- The surrogates put together. -/
theorem pairValue_eq {high low : CodeUnit} (hh : high.High) (hl : low.Low) :
    0x10000 + (((high.value &&& 0x3FF) <<< 10) ||| (low.value &&& 0x3FF)) =
      Piece.pairValue high low := by
  obtain ⟨hh₁, hh₂⟩ := hh
  obtain ⟨hl₁, hl₂⟩ := hl
  have hmask (n : Nat) : n &&& 0x3FF = n % 1024 := Nat.and_two_pow_sub_one_eq_mod n 10
  rw [hmask, hmask, ← Nat.shiftLeft_add_eq_or_of_lt (by omega), Nat.shiftLeft_eq]
  unfold Piece.pairValue
  omega

section Scan

variable {rest : List UInt8}

theorem scanString_quote : scanString (quote :: rest) = some (0, 0) := by
  rw [scanString.eq_def]
  exact if_pos rfl

theorem scanString_plain {c : UInt8} (hq : c ≠ quote) (hb : c ≠ backslash) :
    scanString (c :: rest) = (scanString rest).map fun r => (r.1 + 1, r.2) := by
  rw [scanString.eq_def]
  dsimp only
  rw [if_neg hq, if_neg hb]

theorem scanString_pair (c : UInt8) :
    scanString (backslash :: c :: rest) = (scanString rest).map fun r => (r.1 + 2, r.2 + 1) := by
  rw [scanString.eq_def]
  rfl

theorem scanString_unit (u : CodeUnit) : scanString (u.text ++ rest) =
    (scanString rest).map fun r => (r.1 + u.text.length, r.2 + 1) := by
  have hchar (d : HexDigit) (rest : List UInt8) : scanString (d.char :: rest) =
      (scanString rest).map fun r => (r.1 + 1, r.2) :=
    scanString_plain (char_plain d).1 (char_plain d).2
  rw [CodeUnit.text, List.cons_append, List.cons_append, scanString_pair]
  simp only [List.cons_append, List.nil_append, hchar, Option.map_map, Function.comp_def,
    List.length_cons, List.length_nil]

/-- The first pass takes every piece as a whole. -/
theorem scanString_piece (p : Piece) : ∃ skipped, ∀ rest, scanString (p.text ++ rest) =
    (scanString rest).map fun r => (r.1 + p.text.length, r.2 + skipped) := by
  cases p with
  | plain c h => exact ⟨0, fun rest => scanString_plain h.2.1 h.2.2⟩
  | escape e => exact ⟨1, fun rest => scanString_pair e.letter⟩
  | unit u h => exact ⟨1, fun rest => scanString_unit u⟩
  | pair high low hh hl =>
    refine ⟨2, fun rest => ?_⟩
    rw [Piece.text, List.append_assoc, scanString_unit, scanString_unit, Option.map_map]
    rfl

/-- The first pass ends at the closing quote. -/
theorem scanString_written (s : WrittenString) : ∃ skipped, ∀ rest,
    scanString (WrittenString.inner s ++ quote :: rest) =
      some ((WrittenString.inner s).length, skipped) := by
  induction s with
  | nil => exact ⟨0, fun rest => scanString_quote⟩
  | cons p s ih =>
    obtain ⟨skipped, hpiece⟩ := scanString_piece p
    obtain ⟨skipped', hs⟩ := ih
    refine ⟨skipped' + skipped, fun rest => ?_⟩
    have hinner : WrittenString.inner (p :: s) = p.text ++ WrittenString.inner s := rfl
    rw [hinner, List.append_assoc, hpiece, hs, Option.map_some, List.length_append, Nat.add_comm]

end Scan

section Unescape

variable {content rest : List UInt8}

theorem hexLoop_char {k i h : Nat} {d : HexDigit} (hd : content.drop i = d.char :: rest) :
    hexLoop content (k + 1) i h =
      hexLoop content k (i + 1) (if 0 < k then (h + d.value) <<< 4 else h + d.value) := by
  rw [hexLoop, readAt_ok (getElem?_of_drop hd), ok_bind, hexDigit_char]

theorem parseHex4_unit {input : Nat} {u : CodeUnit}
    (h : content.drop input = u.text.drop 2 ++ rest) : parseHex4 content input = .ok u.value := by
  have h₀ : content.drop input = u.d₀.char :: (u.text.drop 3 ++ rest) := h
  have h₁ : content.drop (input + 1) = u.d₁.char :: (u.text.drop 4 ++ rest) := drop_succ_of_drop h₀
  have h₂ : content.drop (input + 2) = u.d₂.char :: (u.text.drop 5 ++ rest) := drop_succ_of_drop h₁
  have h₃ : content.drop (input + 3) = u.d₃.char :: rest := drop_succ_of_drop h₂
  rw [parseHex4, hexLoop_char h₀, hexLoop_char h₁, hexLoop_char h₂, hexLoop_char h₃]
  simp [hexLoop, CodeUnit.value, Nat.shiftLeft_eq]

theorem drop_two_unit {p : Nat} {u : CodeUnit} (h : content.drop p = u.text ++ rest) :
    content.drop (p + 2) = u.text.drop 2 ++ rest := by
  have hhead : content.drop p = u.text.take 2 ++ (u.text.drop 2 ++ rest) := h
  exact drop_add_of_drop hhead

theorem utf16Codepoint_alone {input inputEnd : Nat} {u : CodeUnit} (hu : u.Alone)
    (h : content.drop input = u.text ++ rest) (hend : input + 6 ≤ inputEnd) :
    utf16Codepoint content input inputEnd = .ok (some (u.value, 6)) := by
  have halone : u.value < 0xD800 ∨ 0xDFFF < u.value := hu
  rw [utf16Codepoint, if_neg (by omega), parseHex4_unit (drop_two_unit h), ok_bind,
    if_neg (by omega), if_neg (by omega)]
  rfl

theorem secondHalf_low {second inputEnd : Nat} {u : CodeUnit} (hu : u.Low)
    (h : content.drop second = u.text ++ rest) (hend : second + 6 ≤ inputEnd) :
    secondHalf content second inputEnd = .ok (some u.value) := by
  obtain ⟨hu₁, hu₂⟩ := hu
  have h₀ : content.drop second = backslash :: (u.text.drop 1 ++ rest) := h
  have h₁ : content.drop (second + 1) = 0x75 :: (u.text.drop 2 ++ rest) := drop_succ_of_drop h₀
  rw [secondHalf, if_neg (by omega), readAt_ok (getElem?_of_drop h₀), ok_bind, if_neg (by simp),
    readAt_ok (getElem?_of_drop h₁), ok_bind, if_neg (by simp),
    parseHex4_unit (drop_two_unit h), ok_bind, if_neg (by omega)]
  rfl

theorem utf16Codepoint_pair {input inputEnd : Nat} {high low : CodeUnit} (hh : high.High)
    (hl : low.Low) (h : content.drop input = high.text ++ (low.text ++ rest))
    (hend : input + 12 ≤ inputEnd) :
    utf16Codepoint content input inputEnd = .ok (some (Piece.pairValue high low, 12)) := by
  obtain ⟨hh₁, hh₂⟩ := hh
  have hlow : content.drop (input + high.text.length) = low.text ++ rest := drop_add_of_drop h
  rw [show high.text.length = 6 from rfl] at hlow
  rw [utf16Codepoint, if_neg (by omega), parseHex4_unit (drop_two_unit h), ok_bind,
    if_neg (by omega), if_pos (by omega), secondHalf_low hl hlow (by omega), ok_bind,
    ← pairValue_eq ⟨hh₁, hh₂⟩ hl]
  rfl

/-- The code point is a character, and its bytes are that character's. -/
theorem utf16LiteralToUtf8_char {input inputEnd n length : Nat} (hn : n.isValidChar)
    (h : utf16Codepoint content input inputEnd = .ok (some (n, length))) :
    utf16LiteralToUtf8 content input inputEnd =
      .ok (some (length, String.utf8EncodeChar (Char.ofNat n))) := by
  have hbytes := encodeUtf8_char (Char.ofNat n)
  rw [toNat_char hn] at hbytes
  rw [utf16LiteralToUtf8, h, ok_bind]
  dsimp only
  rw [hbytes]
  rfl

theorem emitBytes_ok {size : Nat} {out bytes out' : List UInt8}
    (h : emitBytes size out bytes = .ok out') : out' = out ++ bytes := by
  unfold emitBytes at h
  split_ifs at h
  exact (Except.ok.inj h).symm

variable {inputEnd size fuel p : Nat} {out : List UInt8} {r : Parsed (List UInt8)}

/-- At a `\u` escape of some character the loop writes that character. -/
theorem unescapeLoop_literal {n length : Nat} (hn : n.isValidChar)
    (hlit : utf16Codepoint content p inputEnd = .ok (some (n, length)))
    (h : content.drop p = backslash :: 0x75 :: rest) (hend : p < inputEnd)
    (hr : unescapeLoop content inputEnd size (fuel + 1) p out = .ok r) :
    unescapeLoop content inputEnd size fuel (p + length)
      (out ++ String.utf8EncodeChar (Char.ofNat n)) = .ok r := by
  rw [unescapeLoop, if_pos hend, readAt_ok (getElem?_of_drop h), ok_bind, if_neg (by simp),
    readAt_ok (getElem?_of_drop (drop_succ_of_drop h)), ok_bind, if_pos rfl,
    utf16LiteralToUtf8_char hn hlit, ok_bind] at hr
  obtain ⟨out', hout, hrest⟩ := bind_eq_ok.mp hr
  obtain rfl := emitBytes_ok hout
  exact hrest

/-- One round of the loop takes one piece. -/
theorem unescapeLoop_piece {q : Piece} (h : content.drop p = q.text ++ rest)
    (hend : p + q.text.length ≤ inputEnd)
    (hr : unescapeLoop content inputEnd size (fuel + 1) p out = .ok r) :
    unescapeLoop content inputEnd size fuel (p + q.text.length) (out ++ q.bytes) = .ok r := by
  cases q with
  | plain c hc =>
    have hlt : p < inputEnd := hend
    rw [unescapeLoop, if_pos hlt, readAt_ok (getElem?_of_drop h), ok_bind, if_pos hc.2.2] at hr
    obtain ⟨out', hout, hrest⟩ := bind_eq_ok.mp hr
    obtain rfl := emitBytes_ok hout
    exact hrest
  | escape e =>
    have hlt : p < inputEnd := by
      simp only [Piece.text, List.length_cons] at hend
      omega
    have hletter : e.letter ≠ 0x75 ∧ simpleEscape e.letter = some e.byte := by
      cases e <;> decide
    rw [unescapeLoop, if_pos hlt, readAt_ok (getElem?_of_drop h), ok_bind, if_neg (by simp),
      readAt_ok (getElem?_of_drop (drop_succ_of_drop h)), ok_bind, if_neg hletter.1,
      hletter.2] at hr
    obtain ⟨out', hout, hrest⟩ := bind_eq_ok.mp hr
    obtain rfl := emitBytes_ok hout
    exact hrest
  | unit u hu =>
    have hend' : p + 6 ≤ inputEnd := hend
    exact unescapeLoop_literal (CodeUnit.valid hu) (utf16Codepoint_alone hu h hend') h (by omega) hr
  | pair high low hh hl =>
    have hlen : (Piece.pair high low hh hl).text.length = 12 := rfl
    rw [hlen] at hend ⊢
    rw [Piece.text, List.append_assoc] at h
    have hlit := utf16Codepoint_pair hh hl h hend
    have hslash : content.drop p =
        backslash :: 0x75 :: (high.text.drop 2 ++ (low.text ++ rest)) := h
    have hvalid := Piece.pair_valid hh hl
    have hp : p < inputEnd := by omega
    have hnext := unescapeLoop_literal hvalid hlit hslash hp hr
    exact hnext

/-- The second pass writes the string as its pieces say. -/
theorem unescapeLoop_written (s : WrittenString)
    (h : content.drop p = WrittenString.inner s ++ rest)
    (hend : inputEnd = p + (WrittenString.inner s).length)
    (hr : unescapeLoop content inputEnd size fuel p out = .ok r) :
    r = (some (out ++ WrittenString.bytes s), inputEnd) := by
  induction s generalizing fuel p out with
  | nil =>
    cases fuel with
    | zero => cases hr
    | succ fuel =>
      have hlen : p = inputEnd := hend.symm
      rw [unescapeLoop, if_neg (by omega)] at hr
      rw [← Except.ok.inj hr, hlen]
      simp [WrittenString.bytes]
  | cons q s ih =>
    cases fuel with
    | zero => cases hr
    | succ fuel =>
      have hinner : WrittenString.inner (q :: s) = q.text ++ WrittenString.inner s := rfl
      have hbytes : WrittenString.bytes (q :: s) = q.bytes ++ WrittenString.bytes s := rfl
      rw [hinner, List.append_assoc] at h
      rw [hinner, List.length_append] at hend
      have hnext := unescapeLoop_piece h (by omega) hr
      rw [hbytes, ← List.append_assoc]
      exact ih (drop_add_of_drop h) (by omega) hnext

end Unescape

theorem chars_append_terminator (out : List UInt8) : chars (out ++ [0]) = chars out := by
  by_cases h : Terminated out
  · exact chars_append h [0]
  · have hnul : 0 ∉ out := h
    rw [chars_append_left hnul, chars_of_not_terminated h]
    simp

/-- `parse_string` reads a string as it is written. -/
theorem parseString_written {content rest : List UInt8} {offset : Nat} {r : Parsed CString}
    (s : WrittenString) (h : content.drop offset = WrittenString.text s ++ rest)
    (hr : parseString content offset = .ok r) :
    r = (some (WrittenString.value s), offset + (WrittenString.text s).length) := by
  rw [WrittenString.text, List.cons_append, List.append_assoc, List.singleton_append] at h
  obtain ⟨skipped, hscan⟩ := scanString_written s
  have hinner := drop_succ_of_drop h
  unfold parseString at hr
  rw [readAt_ok (getElem?_of_drop h), ok_bind] at hr
  dsimp only at hr
  rw [if_neg (by simp), hinner, hscan] at hr
  dsimp only at hr
  obtain ⟨found, hloop, hr⟩ := bind_eq_ok.mp hr
  obtain rfl := unescapeLoop_written s hinner rfl hloop
  dsimp only at hr
  obtain ⟨output, hout, hr⟩ := bind_eq_ok.mp hr
  obtain rfl := emitBytes_ok hout
  rw [← Except.ok.inj hr]
  have hvalue : chars ([] ++ WrittenString.bytes s ++ [0]) = chars (WrittenString.bytes s) :=
    chars_append_terminator _
  have hlen : offset + 1 + (WrittenString.inner s).length + 1 =
      offset + (WrittenString.text s).length := by
    rw [WrittenString.text, List.length_cons, List.length_append, List.length_singleton]
    omega
  simp only [hlen, hvalue]
  rfl

end PeerToPeer.Parsing
