import PeerToPeer.Parsing.StringBounds
import PeerToPeer.Parsing.StringText

namespace PeerToPeer.Parsing

open CLib

/-- The inside of a string: no quote, except behind a backslash. -/
inductive Quoted : List UInt8 → Prop where
  | nil : Quoted []
  | plain (c : UInt8) (inner : List UInt8) (hq : c ≠ quote) (hb : c ≠ backslash)
      (h : Quoted inner) : Quoted (c :: inner)
  | escaped (c : UInt8) (inner : List UInt8) (h : Quoted inner) : Quoted (backslash :: c :: inner)

/-- The bytes that the inside of a string stands for. Besides the pieces of JSON there are control
characters, and `\u` with something else than four digits, which stands for a NUL. That may cover
the first half of an escape: what is left of it is then a quote, or a backslash that takes the
closing quote for its character. -/
inductive Unescaped : List UInt8 → List UInt8 → Prop where
  | nil : Unescaped [] []
  | cut : Unescaped [backslash] [quote]
  | raw {c : UInt8} {text bytes : List UInt8} (hc : c < 0x20 ∨ c = quote)
      (h : Unescaped text bytes) : Unescaped (c :: text) (c :: bytes)
  | piece (p : Piece) {text bytes : List UInt8} (h : Unescaped text bytes) :
      Unescaped (p.text ++ text) (p.bytes ++ bytes)
  | garbled {digits text bytes : List UInt8} (hlen : digits.length = 4)
      (hbad : ∃ c ∈ digits, hexDigit c = none) (h : Unescaped text bytes) :
      Unescaped (backslash :: 0x75 :: (digits ++ text)) (0 :: bytes)

theorem Unescaped.plain {c : UInt8} {text bytes : List UInt8} (hc : c ≠ backslash)
    (h : Unescaped text bytes) : Unescaped (c :: text) (c :: bytes) := by
  by_cases hraw : c < 0x20 ∨ c = quote
  · exact .raw hraw h
  · rw [not_or, UInt8.not_lt] at hraw
    exact .piece (.plain c ⟨hraw.1, hraw.2, hc⟩) h

/-- What the first pass finds is the inside of a string. -/
theorem scanString_quoted {text : List UInt8} {n skipped : Nat}
    (h : scanString text = some (n, skipped)) : Quoted (text.take n) := by
  fun_induction scanString text generalizing n skipped with
  | case1 => cases h
  | case2 rest =>
    cases h
    exact .nil
  | case3 => cases h
  | case4 hq d rest ih =>
    obtain ⟨⟨m, k⟩, hm, hnk⟩ := Option.map_eq_some_iff.mp h
    cases hnk
    exact .escaped _ _ (ih hm)
  | case5 c rest hq hb ih =>
    obtain ⟨⟨m, k⟩, hm, hnk⟩ := Option.map_eq_some_iff.mp h
    cases hnk
    exact .plain c _ hq hb (ih hm)

theorem hexDigit_spelled {c : UInt8} {digit : Nat} (h : hexDigit c = some digit) :
    ∃ d : HexDigit, d.char = c := by
  have htable : ∀ n < 256, hexDigit (UInt8.ofNat n) ≠ none →
      ∃ v : Fin 16, ∃ b, HexDigit.char ⟨v, b⟩ = UInt8.ofNat n := by decide +kernel
  obtain ⟨v, b, hvb⟩ := htable c.toNat c.toNat_lt (by rw [UInt8.ofNat_toNat, h]; simp)
  exact ⟨⟨v, b⟩, by rw [hvb, UInt8.ofNat_toNat]⟩

theorem simpleEscape_spelled {c b : UInt8} (h : simpleEscape c = some b) :
    ∃ e : Escape, e.letter = c ∧ e.byte = b := by
  unfold simpleEscape at h
  split_ifs at h with hb hf hn hr ht hother
  · exact ⟨.backspace, hb.symm, Option.some.inj h⟩
  · exact ⟨.formFeed, hf.symm, Option.some.inj h⟩
  · exact ⟨.newline, hn.symm, Option.some.inj h⟩
  · exact ⟨.carriageReturn, hr.symm, Option.some.inj h⟩
  · exact ⟨.tab, ht.symm, Option.some.inj h⟩
  · obtain rfl := Option.some.inj h
    rcases hother with rfl | rfl | rfl
    · exact ⟨.quote, rfl, rfl⟩
    · exact ⟨.backslash, rfl, rfl⟩
    · exact ⟨.slash, rfl, rfl⟩

section Unescape

variable {content : List UInt8}

/-- One character that is no digit makes the number 0. -/
theorem hexLoop_garbled {digits rest : List UInt8} {k i h : Nat}
    (hd : content.drop i = digits ++ rest) (hlen : digits.length = k)
    (hbad : ∃ c ∈ digits, hexDigit c = none) : hexLoop content k i h = .ok 0 := by
  induction digits generalizing k i h with
  | nil => simp at hbad
  | cons c digits ih =>
    obtain rfl : digits.length + 1 = k := hlen
    rw [List.cons_append] at hd
    rw [hexLoop, readAt_ok (getElem?_of_drop hd), ok_bind]
    cases hc : hexDigit c with
    | none => rfl
    | some digit =>
      have hbad' : ∃ c ∈ digits, hexDigit c = none := by simpa [hc] using hbad
      exact ih (drop_succ_of_drop hd) rfl hbad'

/-- Four characters are the digits of a code unit, or one of them is no digit. -/
theorem unit_or_garbled {i : Nat} (h : i + 4 ≤ content.length) :
    (∃ u : CodeUnit, content.drop i = u.text.drop 2 ++ content.drop (i + 4)) ∨
      ∃ digits, content.drop i = digits ++ content.drop (i + 4) ∧ digits.length = 4 ∧
        ∃ c ∈ digits, hexDigit c = none := by
  have hsplit : content.drop i = (content.drop i).take 4 ++ content.drop (i + 4) := by
    rw [← List.drop_drop, List.take_append_drop]
  have hlen : ((content.drop i).take 4).length = 4 := by
    rw [List.length_take, List.length_drop]
    omega
  by_cases hbad : ∃ c ∈ (content.drop i).take 4, hexDigit c = none
  · exact .inr ⟨_, hsplit, hlen, hbad⟩
  · push Not at hbad
    have hdigit : ∀ c ∈ (content.drop i).take 4, ∃ d : HexDigit, d.char = c := by
      intro c hc
      obtain ⟨digit, hd⟩ := Option.ne_none_iff_exists'.mp (hbad c hc)
      exact hexDigit_spelled hd
    left
    match htake : (content.drop i).take 4, hlen, hdigit with
    | [c₀, c₁, c₂, c₃], _, hdigit =>
      obtain ⟨d₀, rfl⟩ := hdigit c₀ (by simp)
      obtain ⟨d₁, rfl⟩ := hdigit c₁ (by simp)
      obtain ⟨d₂, rfl⟩ := hdigit c₂ (by simp)
      obtain ⟨d₃, rfl⟩ := hdigit c₃ (by simp)
      rw [htake] at hsplit
      exact ⟨⟨d₀, d₁, d₂, d₃⟩, hsplit⟩

theorem parseHex4_garbled {i : Nat} {digits rest : List UInt8}
    (hd : content.drop i = digits ++ rest) (hlen : digits.length = 4)
    (hbad : ∃ c ∈ digits, hexDigit c = none) : parseHex4 content i = .ok 0 :=
  hexLoop_garbled hd hlen hbad

theorem unit_at {p : Nat} {u : CodeUnit} {tail : List UInt8}
    (hp : content.drop p = backslash :: 0x75 :: tail)
    (hu : content.drop (p + 2) = u.text.drop 2 ++ content.drop (p + 6)) :
    content.drop p = u.text ++ content.drop (p + 6) := by
  have htail : content.drop (p + 2) = tail := drop_succ_of_drop (drop_succ_of_drop hp)
  rw [hp, ← htail, hu]
  rfl

theorem secondHalf_spelled {second inputEnd code : Nat} (hend : inputEnd ≤ content.length)
    (h : secondHalf content second inputEnd = .ok (some code)) :
    second + 6 ≤ inputEnd ∧ ∃ low : CodeUnit, low.Low ∧
      content.drop second = low.text ++ content.drop (second + 6) := by
  unfold secondHalf at h
  split_ifs at h with hshort
  · cases h
  obtain ⟨c, hc, h⟩ := bind_eq_ok.mp h
  split_ifs at h with hslash
  · cases h
  obtain rfl := not_not.mp hslash
  obtain ⟨c, hc', h⟩ := bind_eq_ok.mp h
  split_ifs at h with hu
  · cases h
  obtain rfl := not_not.mp hu
  obtain ⟨secondCode, hcode, h⟩ := bind_eq_ok.mp h
  have hroom : second + 6 ≤ inputEnd := by omega
  refine ⟨hroom, ?_⟩
  have hp : content.drop second = backslash :: 0x75 :: content.drop (second + 2) := by
    rw [drop_of_getElem? (readAt_eq_ok hc), drop_of_getElem? (readAt_eq_ok hc')]
  rcases unit_or_garbled (show second + 2 + 4 ≤ content.length by omega) with
    ⟨u, hunit⟩ | ⟨digits, hd, hlen, hbad⟩
  · rw [parseHex4_unit hunit] at hcode
    obtain rfl := Except.ok.inj hcode
    split_ifs at h with hrange
    · cases h
    · exact ⟨u, ⟨by omega, by omega⟩, unit_at hp hunit⟩
  · rw [parseHex4_garbled hd hlen hbad] at hcode
    obtain rfl := Except.ok.inj hcode
    cases h

/-- A code unit that is no character of its own is the first of a pair. -/
theorem utf16Codepoint_spelled {p inputEnd : Nat} {u : CodeUnit} {r : Nat × Nat}
    (hend : inputEnd ≤ content.length) (hu : content.drop p = u.text ++ content.drop (p + 6))
    (halone : ¬ u.Alone) (h : utf16Codepoint content p inputEnd = .ok (some r)) :
    u.High ∧ p + 12 ≤ inputEnd ∧ ∃ low : CodeUnit, low.Low ∧
      content.drop p = u.text ++ (low.text ++ content.drop (p + 12)) := by
  unfold CodeUnit.Alone at halone
  unfold utf16Codepoint at h
  split_ifs at h with hshort
  · cases h
  rw [parseHex4_unit (drop_two_unit hu), ok_bind] at h
  split_ifs at h with hlow hhigh
  · cases h
  · obtain ⟨second, hsecond, h⟩ := bind_eq_ok.mp h
    cases second with
    | none => cases h
    | some code =>
      obtain ⟨hroom, low, hl, htext⟩ := secondHalf_spelled hend hsecond
      exact ⟨⟨by omega, by omega⟩, by omega, low, hl, by rw [hu, htext]⟩
  · omega

/-- A window that begins with some text. -/
theorem window_append {inputEnd p : Nat} (text : List UInt8)
    (h : content.drop p = text ++ content.drop (p + text.length))
    (hend : p + text.length ≤ inputEnd) :
    window content inputEnd p = text ++ window content inputEnd (p + text.length) := by
  have hlen : inputEnd - p = text.length + (inputEnd - (p + text.length)) := by omega
  rw [window, window, h, hlen, List.take_length_add_append]

/-- What a `\u` literal is converted to is what it stands for. -/
theorem utf16LiteralToUtf8_unescaped {p inputEnd length : Nat} {bytes more tail : List UInt8}
    (hend : inputEnd ≤ content.length) (hp : content.drop p = backslash :: 0x75 :: tail)
    (h : utf16LiteralToUtf8 content p inputEnd = .ok (some (length, bytes)))
    (hmore : Unescaped (window content inputEnd (p + length)) more) :
    Unescaped (window content inputEnd p) (bytes ++ more) := by
  obtain ⟨r, hr, hroom⟩ := utf16LiteralToUtf8_total p hend
  obtain rfl := Except.ok.inj (hr.symm.trans h)
  obtain ⟨hpos, hle, -⟩ := hroom length bytes rfl
  obtain ⟨code, hcode, hbytes⟩ := bind_eq_ok.mp h
  obtain ⟨code, rfl⟩ : ∃ found, code = some found := by
    cases code with
    | none => cases hbytes
    | some found => exact ⟨found, rfl⟩
  have hshort : ¬ inputEnd - p < 6 := by
    intro hshort
    rw [utf16Codepoint, if_pos hshort] at hcode
    cases hcode
  rcases unit_or_garbled (show p + 2 + 4 ≤ content.length by omega) with
    ⟨u, hunit⟩ | ⟨digits, hd, hlen, hbad⟩
  · have hu := unit_at hp hunit
    by_cases halone : u.Alone
    · rw [utf16LiteralToUtf8_char (CodeUnit.valid halone)
        (utf16Codepoint_alone halone hu (by omega))] at h
      obtain ⟨rfl, rfl⟩ := Prod.mk.inj (Option.some.inj (Except.ok.inj h))
      rw [window_append u.text hu hle]
      exact .piece (.unit u halone) hmore
    · obtain ⟨hh, hroom, low, hl, htext⟩ := utf16Codepoint_spelled hend hu halone hcode
      rw [utf16LiteralToUtf8_char (Piece.pair_valid hh hl)
        (utf16Codepoint_pair hh hl htext hroom)] at h
      obtain ⟨rfl, rfl⟩ := Prod.mk.inj (Option.some.inj (Except.ok.inj h))
      rw [← List.append_assoc] at htext
      rw [window_append (u.text ++ low.text) htext hle]
      exact .piece (.pair u low hh hl) hmore
  · have hzero : utf16Codepoint content p inputEnd = .ok (some (0, 6)) := by
      rw [utf16Codepoint, if_neg hshort, parseHex4_garbled hd hlen hbad]
      rfl
    rw [utf16LiteralToUtf8, hzero, ok_bind] at h
    obtain ⟨rfl, rfl⟩ := Prod.mk.inj (Option.some.inj (Except.ok.inj h))
    have htext : content.drop p = (backslash :: 0x75 :: digits) ++ content.drop (p + 6) := by
      have htail : content.drop (p + 2) = tail := drop_succ_of_drop (drop_succ_of_drop hp)
      rw [hp, ← htail, hd]
      rfl
    have hlen' : (backslash :: 0x75 :: digits).length = 6 := by
      rw [List.length_cons, List.length_cons, hlen]
    rw [← hlen'] at htext hmore hle
    rw [window_append _ htext hle]
    exact .garbled hlen hbad hmore

theorem unescapeLoop_past {inputEnd size fuel p q : Nat} {out out' : List UInt8}
    (hp : inputEnd ≤ p)
    (hr : unescapeLoop content inputEnd size fuel p out = .ok (some out', q)) : out' = out := by
  cases fuel with
  | zero => cases hr
  | succ fuel =>
    rw [unescapeLoop, if_neg (by omega)] at hr
    obtain ⟨hout, -⟩ := Prod.mk.inj (Except.ok.inj hr)
    exact (Option.some.inj hout).symm

/-- An escape may be cut off, and then the closing quote is its character. -/
theorem escape_unescaped {inputEnd size fuel p q : Nat} {b : UInt8} {out out' : List UInt8}
    (hquote : content[inputEnd]? = some quote) (hlt : p < inputEnd)
    (hslash : content[p]? = some backslash) {e : UInt8} (he : content[p + 1]? = some e)
    (hb : simpleEscape e = some b)
    (hr : unescapeLoop content inputEnd size fuel (p + 2) (out ++ [b]) = .ok (some out', q))
    (hnext : p + 2 ≤ inputEnd → ∃ bytes, out' = out ++ [b] ++ bytes ∧
      Unescaped (window content inputEnd (p + 2)) bytes) :
    ∃ bytes, out' = out ++ bytes ∧ Unescaped (window content inputEnd p) bytes := by
  have htext : content.drop p = [backslash, e] ++ content.drop (p + 2) := by
    rw [drop_of_getElem? hslash, drop_of_getElem? he]
    rfl
  by_cases hcut : p + 1 = inputEnd
  · subst hcut
    obtain rfl : quote = e := Option.some.inj (hquote.symm.trans he)
    obtain rfl := unescapeLoop_past (by omega) hr
    obtain rfl : quote = b := Option.some.inj hb
    refine ⟨[quote], rfl, ?_⟩
    rw [window, htext, show p + 1 - p = 1 by omega]
    exact .cut
  · obtain ⟨bytes, rfl, hbytes⟩ := hnext (by omega)
    obtain ⟨e, rfl, rfl⟩ := simpleEscape_spelled hb
    refine ⟨e.byte :: bytes, by simp, ?_⟩
    rw [window_append [backslash, e.letter] htext (by simp; omega)]
    exact .piece (.escape e) hbytes

/-- The second pass writes what the inside of the string stands for. -/
theorem unescapeLoop_unescaped {inputEnd size fuel p q : Nat} {out out' : List UInt8}
    (hquote : content[inputEnd]? = some quote) (hp : p ≤ inputEnd)
    (hr : unescapeLoop content inputEnd size fuel p out = .ok (some out', q)) :
    ∃ bytes, out' = out ++ bytes ∧ Unescaped (window content inputEnd p) bytes := by
  have hend := lt_of_getElem? hquote
  induction fuel generalizing p out with
  | zero => cases hr
  | succ fuel ih =>
    by_cases hlt : p < inputEnd
    · rw [unescapeLoop, if_pos hlt] at hr
      obtain ⟨c, hc, hr⟩ := bind_eq_ok.mp hr
      have hc := readAt_eq_ok hc
      split_ifs at hr with hslash
      · obtain ⟨out₁, hout, hr⟩ := bind_eq_ok.mp hr
        obtain rfl := emitBytes_ok hout
        obtain ⟨bytes, rfl, hbytes⟩ := ih hlt hr
        refine ⟨c :: bytes, by simp, ?_⟩
        rw [window_append [c] (drop_of_getElem? hc) hlt]
        exact hbytes.plain hslash
      · obtain rfl := not_not.mp hslash
        obtain ⟨e, he, hr⟩ := bind_eq_ok.mp hr
        have he := readAt_eq_ok he
        split_ifs at hr with hu
        · obtain ⟨literal, hlit, hr⟩ := bind_eq_ok.mp hr
          cases literal with
          | none => cases hr
          | some literal =>
            obtain ⟨length, bytes⟩ := literal
            obtain ⟨out₁, hout, hr⟩ := bind_eq_ok.mp hr
            obtain rfl := emitBytes_ok hout
            obtain ⟨r, hr₁, hroom⟩ := utf16LiteralToUtf8_total p hend.le
            obtain rfl := Except.ok.inj (hr₁.symm.trans hlit)
            obtain ⟨-, hle, -⟩ := hroom length bytes rfl
            obtain ⟨more, rfl, hmore⟩ := ih hle hr
            refine ⟨bytes ++ more, by simp, ?_⟩
            have htext := drop_of_getElem? hc
            rw [drop_of_getElem? he, hu] at htext
            exact utf16LiteralToUtf8_unescaped hend.le htext hlit hmore
        · cases hb : simpleEscape e with
          | none =>
            rw [hb] at hr
            cases hr
          | some b =>
            rw [hb] at hr
            obtain ⟨out₁, hout, hr⟩ := bind_eq_ok.mp hr
            obtain rfl := emitBytes_ok hout
            exact escape_unescaped hquote hlt hc he hb hr fun hle => ih hle hr
    · obtain rfl := unescapeLoop_past (not_lt.mp hlt) hr
      rw [window_nil (not_lt.mp hlt)]
      exact ⟨[], by simp, .nil⟩

end Unescape

end PeerToPeer.Parsing
