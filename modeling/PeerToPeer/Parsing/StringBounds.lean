import PeerToPeer.Parsing.Escapes

namespace PeerToPeer.Parsing

open CLib

theorem hexDigit_lt {c : UInt8} {digit : Nat} (h : hexDigit c = some digit) : digit < 16 := by
  unfold hexDigit at h
  simp only [UInt8.le_iff_toNat_le] at h
  split_ifs at h with h₁ h₂ h₃
  · obtain rfl := Option.some.inj h
    have hle : c.toNat ≤ 0x39 := h₁.2
    omega
  · obtain rfl := Option.some.inj h
    have hle : c.toNat ≤ 0x46 := h₂.2
    omega
  · obtain rfl := Option.some.inj h
    have hle : c.toNat ≤ 0x66 := h₃.2
    omega

theorem encodeTail_length (position codepoint : Nat) (tail : List UInt8) :
    (encodeTail position codepoint tail).2.length = position + tail.length := by
  induction position generalizing codepoint tail with
  | zero => simp [encodeTail]
  | succ position ih =>
    rw [encodeTail, ih, List.length_cons]
    omega

theorem utf8Length_bounds {codepoint length mark : Nat}
    (h : utf8Length codepoint = some (length, mark)) :
    0 < length ∧ length ≤ 4 ∧ (codepoint < 0x10000 → length ≤ 3) := by
  unfold utf8Length at h
  split_ifs at h <;>
  · obtain ⟨rfl, -⟩ := Prod.mk.inj (Option.some.inj h)
    omega

/-- A code point takes at most four bytes, and at most three when four digits spell it. -/
theorem encodeUtf8_length {codepoint : Nat} {bytes : List UInt8}
    (h : encodeUtf8 codepoint = some bytes) :
    bytes.length ≤ 4 ∧ (codepoint < 0x10000 → bytes.length ≤ 3) := by
  obtain ⟨⟨length, mark⟩, hlen, rfl⟩ := Option.map_eq_some_iff.mp h
  obtain ⟨hpos, hle, hshort⟩ := utf8Length_bounds hlen
  have htail := encodeTail_length (length - 1) codepoint []
  rw [List.length_nil] at htail
  dsimp only
  split_ifs
  · rw [List.length_cons]
    omega
  · rw [List.length_singleton]
    omega

section Reads

variable {content : List UInt8}

/-- The digits are read from the buffer, and make a number of as many places. -/
theorem hexLoop_total {k i : Nat} (h : Nat) (hi : i + (k + 1) ≤ content.length) :
    ∃ r, hexLoop content (k + 1) i h = .ok r ∧ r < (h + 16) * 16 ^ k := by
  have hpos (k : Nat) : 0 < (h + 16) * 16 ^ k :=
    Nat.mul_pos (by omega) (Nat.pow_pos (by decide))
  induction k generalizing i h with
  | zero =>
    rw [hexLoop, readAt_lt (by omega), ok_bind]
    cases hd : hexDigit content[i] with
    | none => exact ⟨0, rfl, hpos 0⟩
    | some digit =>
      have hdigit := hexDigit_lt hd
      refine ⟨h + digit, rfl, ?_⟩
      rw [pow_zero]
      omega
  | succ k ih =>
    rw [hexLoop, readAt_lt (by omega), ok_bind]
    cases hd : hexDigit content[i] with
    | none => exact ⟨0, rfl, hpos (k + 1)⟩
    | some digit =>
      have hdigit := hexDigit_lt hd
      have hshift : (h + digit) <<< 4 = (h + digit) * 16 := Nat.shiftLeft_eq _ _
      obtain ⟨r, hr, hlt⟩ := ih (i := i + 1) ((h + digit) <<< 4) (by omega)
        (fun k => Nat.mul_pos (by omega) (Nat.pow_pos (by decide)))
      refine ⟨r, ?_, hlt.trans_le ?_⟩
      · dsimp only
        rw [if_pos (by omega)]
        exact hr
      · rw [pow_succ, mul_comm (16 ^ k) 16, ← mul_assoc]
        apply Nat.mul_le_mul_right
        omega

theorem parseHex4_total {input : Nat} (h : input + 4 ≤ content.length) :
    ∃ r, parseHex4 content input = .ok r ∧ r < 0x10000 := hexLoop_total 0 h

theorem secondHalf_total (second : Nat) {inputEnd : Nat} (h : inputEnd ≤ content.length) :
    ∃ r, secondHalf content second inputEnd = .ok r ∧ ∀ code, r = some code →
      second + 6 ≤ inputEnd := by
  unfold secondHalf
  split_ifs with hshort
  · exact ⟨none, rfl, fun _ h => by cases h⟩
  have hroom : second + 6 ≤ inputEnd := by omega
  obtain ⟨r, hr, -⟩ := parseHex4_total (show second + 2 + 4 ≤ content.length by omega)
  rw [readAt_lt (by omega), ok_bind]
  split_ifs
  · exact ⟨none, rfl, fun _ _ => hroom⟩
  rw [readAt_lt (by omega), ok_bind]
  split_ifs
  · exact ⟨none, rfl, fun _ _ => hroom⟩
  rw [hr, ok_bind]
  split_ifs
  · exact ⟨none, rfl, fun _ _ => hroom⟩
  · exact ⟨some r, rfl, fun _ _ => hroom⟩

/-- The literal is read before the closing quote, and its length is even. -/
theorem utf16Codepoint_total (input : Nat) {inputEnd : Nat} (h : inputEnd ≤ content.length) :
    ∃ r, utf16Codepoint content input inputEnd = .ok r ∧
      ∀ codepoint length, r = some (codepoint, length) → input + length ≤ inputEnd ∧
        ((length = 6 ∧ codepoint < 0x10000) ∨ length = 12) := by
  have fails : ∀ codepoint length, (none : Option (Nat × Nat)) = some (codepoint, length) →
      input + length ≤ inputEnd ∧ ((length = 6 ∧ codepoint < 0x10000) ∨ length = 12) := by
    intro _ _ h
    cases h
  unfold utf16Codepoint
  split_ifs with hshort
  · exact ⟨none, rfl, fails⟩
  have hroom : input + 6 ≤ inputEnd := by omega
  obtain ⟨first, hfirst, hlt⟩ := parseHex4_total (show input + 2 + 4 ≤ content.length by omega)
  rw [hfirst, ok_bind]
  split_ifs
  · exact ⟨none, rfl, fails⟩
  · obtain ⟨r, hr, hroom'⟩ := secondHalf_total (input + 6) h
    rw [hr, ok_bind]
    cases r with
    | none => exact ⟨none, rfl, fails⟩
    | some code =>
      refine ⟨_, rfl, ?_⟩
      intro codepoint length he
      obtain ⟨-, rfl⟩ := Prod.mk.inj (Option.some.inj he)
      exact ⟨hroom' code rfl, .inr rfl⟩
  · refine ⟨_, rfl, ?_⟩
    intro codepoint length he
    obtain ⟨rfl, rfl⟩ := Prod.mk.inj (Option.some.inj he)
    exact ⟨hroom, .inl ⟨rfl, hlt⟩⟩

/-- A literal is at least twice as long as its bytes. -/
theorem utf16LiteralToUtf8_total (input : Nat) {inputEnd : Nat}
    (h : inputEnd ≤ content.length) :
    ∃ r, utf16LiteralToUtf8 content input inputEnd = .ok r ∧
      ∀ length bytes, r = some (length, bytes) →
        0 < length ∧ input + length ≤ inputEnd ∧ ∃ k, length = 2 * k ∧ bytes.length ≤ k := by
  obtain ⟨r, hr, hlit⟩ := utf16Codepoint_total input h
  rw [utf16LiteralToUtf8, hr, ok_bind]
  cases r with
  | none => exact ⟨none, rfl, fun _ _ h => by cases h⟩
  | some code =>
    obtain ⟨codepoint, n⟩ := code
    refine ⟨_, rfl, ?_⟩
    intro length bytes he
    obtain ⟨bytes', hbytes, hpair⟩ := Option.map_eq_some_iff.mp he
    obtain ⟨rfl, rfl⟩ := Prod.mk.inj hpair
    obtain ⟨hfour, hthree⟩ := encodeUtf8_length hbytes
    obtain ⟨hroom, ⟨rfl, hlt⟩ | rfl⟩ := hlit codepoint n rfl
    · exact ⟨by omega, hroom, 3, rfl, hthree hlt⟩
    · exact ⟨by omega, hroom, 6, rfl, by omega⟩

/-- The part of the string that the second pass has still to read. -/
def window (content : List UInt8) (inputEnd p : Nat) : List UInt8 :=
  (content.drop p).take (inputEnd - p)

theorem window_add {inputEnd p : Nat} (k : Nat) :
    window content inputEnd (p + k) = (window content inputEnd p).drop k := by
  rw [window, window, List.drop_take, List.drop_drop, Nat.sub_add_eq]

theorem window_cons {inputEnd p : Nat} (hp : p < inputEnd) (h : inputEnd ≤ content.length) :
    window content inputEnd p =
      content[p] :: window content inputEnd (p + 1) := by
  rw [window, window, List.drop_eq_getElem_cons (by omega),
    show inputEnd - p = inputEnd - (p + 1) + 1 by omega, List.take_succ_cons]

/-- What the second pass keeps to: before the closing quote the output has room for as many bytes
as there are characters left, two more, less one for each escape that the first pass would count
among them; one step behind the quote, where an escape may have ended, it has room for the
terminator. -/
structure Budget (content : List UInt8) (inputEnd size p : Nat) (out : List UInt8) : Prop where
  pos : p ≤ inputEnd + 1
  inside : p ≤ inputEnd → out.length + (inputEnd - p) + 2 ≤
    size + escapes (window content inputEnd p)
  behind : inputEnd < p → out.length + 1 ≤ size

theorem window_nil {inputEnd p : Nat} (h : inputEnd ≤ p) : window content inputEnd p = [] := by
  rw [window, Nat.sub_eq_zero_of_le h, List.take_zero]

theorem window_length_le (content : List UInt8) (inputEnd p : Nat) :
    (window content inputEnd p).length ≤ inputEnd - p := List.length_take_le _ _

namespace Budget

variable {inputEnd size p : Nat} {out : List UInt8}

theorem terminator (h : Budget content inputEnd size p out) (hp : inputEnd ≤ p) :
    out.length + 1 ≤ size := by
  by_cases hlt : inputEnd < p
  · exact h.behind hlt
  · have hinside := h.inside (by omega)
    rw [window_nil hp, escapes_nil] at hinside
    omega

/-- What keeps to the budget was written inside the output. -/
theorem emit {bytes : List UInt8} (h : Budget content inputEnd size p (out ++ bytes)) :
    emitBytes size out bytes = .ok (out ++ bytes) := by
  refine if_pos ?_
  rw [← List.length_append]
  by_cases hlt : inputEnd < p
  · exact (Nat.le_succ _).trans (h.behind hlt)
  · have hinside := h.inside (by omega)
    have hescapes := (escapes_le_length _).trans (window_length_le content inputEnd p)
    omega

variable (h : Budget content inputEnd size p out) (hp : p < inputEnd)
  (hend : inputEnd ≤ content.length)
include h hp hend

theorem plain (hc : content[p] ≠ backslash) :
    Budget content inputEnd size (p + 1) (out ++ [content[p]]) := by
  have hinside := h.inside hp.le
  rw [window_cons hp hend, escapes_plain hc] at hinside
  refine ⟨by omega, ?_, fun hlt => absurd hlt (by omega)⟩
  intro _
  rw [List.length_append, List.length_singleton]
  omega

/-- An escape may take the closing quote for its second character. -/
theorem escape (hc : content[p] = backslash) (b : UInt8) :
    Budget content inputEnd size (p + 2) (out ++ [b]) := by
  have hinside := h.inside hp.le
  rw [window_cons hp hend, hc] at hinside
  refine ⟨by omega, ?_, ?_⟩
  · intro hp'
    have hnext : window content inputEnd (p + 1) =
        content[p + 1] :: window content inputEnd (p + 2) := window_cons (by omega) hend
    rw [hnext, escapes_pair] at hinside
    rw [List.length_append, List.length_singleton]
    omega
  · intro hp'
    rw [window_nil (by omega), escapes_last] at hinside
    rw [List.length_append, List.length_singleton]
    omega

omit hend in
/-- A literal may cover escapes of the first pass, but not more than half of its length. -/
theorem literal {k : Nat} {bytes : List UInt8} (hk : p + 2 * k ≤ inputEnd)
    (hbytes : bytes.length ≤ k) :
    Budget content inputEnd size (p + 2 * k) (out ++ bytes) := by
  have hinside := h.inside hp.le
  have hdrop := escapes_drop k (window content inputEnd p)
  rw [← window_add] at hdrop
  refine ⟨by omega, ?_, fun hlt => absurd hlt (by omega)⟩
  intro _
  rw [List.length_append]
  omega

end Budget

/-- The second pass reads inside the buffer and writes inside the output, also where it falls out
of step with the first one. -/
theorem unescapeLoop_total {inputEnd size fuel p : Nat} {out : List UInt8}
    (hend : inputEnd < content.length) (hfuel : inputEnd + 1 < p + fuel)
    (hbudget : Budget content inputEnd size p out) :
    ∃ item q, unescapeLoop content inputEnd size fuel p out = .ok (item, q) ∧
      ∀ out', item = some out' → out'.length + 1 ≤ size := by
  induction fuel generalizing p out with
  | zero =>
    have hpos := hbudget.pos
    omega
  | succ fuel ih =>
    have fails (q : Nat) : ∃ item q', (.ok (none, q) : ParseM (Parsed (List UInt8))) =
        .ok (item, q') ∧ ∀ out', item = some out' → out'.length + 1 ≤ size :=
      ⟨none, q, rfl, fun _ h => by cases h⟩
    rw [unescapeLoop]
    split_ifs with hp
    · rw [readAt_lt (by omega), ok_bind]
      split_ifs with hc
      · have hnext := hbudget.plain hp hend.le hc
        rw [hnext.emit, ok_bind]
        exact ih (by omega) hnext
      · have hc' : content[p] = backslash := not_not.mp hc
        rw [readAt_lt (by omega), ok_bind]
        split_ifs with hu
        · obtain ⟨r, hr, hlit⟩ := utf16LiteralToUtf8_total p hend.le
          rw [hr, ok_bind]
          cases r with
          | none => exact fails p
          | some literal =>
            obtain ⟨length, bytes⟩ := literal
            obtain ⟨hpos, hroom, k, rfl, hbytes⟩ := hlit length bytes rfl
            have hnext := hbudget.literal hp hroom hbytes
            dsimp only
            rw [hnext.emit, ok_bind]
            exact ih (by omega) hnext
        · cases simpleEscape content[p + 1] with
          | none => exact fails p
          | some b =>
            have hnext := hbudget.escape hp hend.le hc' b
            dsimp only
            rw [hnext.emit, ok_bind]
            exact ih (by omega) hnext
    · refine ⟨some out, p, rfl, ?_⟩
      intro out' he
      obtain rfl := Option.some.inj he
      exact hbudget.terminator (not_lt.mp hp)

end Reads

/-- The parse function returns, and where it succeeds it has moved on inside the buffer and found
an item that satisfies `P`. -/
def Lands {α : Type} (content : List UInt8) (offset : Nat) (P : α → Prop) (r : ParseM (Parsed α)) :
    Prop :=
  ∃ item o, r = .ok (item, o) ∧ ∀ x, item = some x → offset < o ∧ o ≤ content.length ∧ P x

theorem lands_none {α : Type} {content : List UInt8} {offset : Nat} {P : α → Prop} (o : Nat) :
    Lands content offset P (.ok (none, o)) := ⟨none, o, rfl, fun _ h => by cases h⟩

theorem lands_some {α : Type} {content : List UInt8} {offset o : Nat} {P : α → Prop} {x : α}
    (hlt : offset < o) (hle : o ≤ content.length) (hx : P x) :
    Lands content offset P (.ok (some x, o)) := by
  refine ⟨some x, o, rfl, ?_⟩
  intro y hy
  obtain rfl := Option.some.inj hy
  exact ⟨hlt, hle, hx⟩

/-- A result that is handed on, one way or another, from where it was found. -/
theorem Lands.map {α β : Type} {content : List UInt8} {offset offset' : Nat} {P : α → Prop}
    {Q : β → Prop} {r : ParseM (Parsed α)} (h : Lands content offset P r) (f : α → β)
    (hle : offset' ≤ offset) (hf : ∀ x, P x → Q (f x)) :
    Lands content offset' Q (r >>= fun r => .ok (r.1.map f, r.2)) := by
  obtain ⟨item, o, rfl, hitem⟩ := h
  refine ⟨item.map f, o, rfl, ?_⟩
  intro y hy
  obtain ⟨x, hx, rfl⟩ := Option.map_eq_some_iff.mp hy
  obtain ⟨hlt, hend, hp⟩ := hitem x hx
  exact ⟨hle.trans_lt hlt, hend, hf x hp⟩

theorem parseString_lands {content : List UInt8} {offset : Nat} (h : offset < content.length) :
    Lands content offset (fun _ => True) (parseString content offset) := by
  unfold parseString
  rw [readAt_lt h, ok_bind]
  dsimp only
  split_ifs
  · exact lands_none _
  cases hscan : scanString (content.drop (offset + 1)) with
  | none => exact lands_none _
  | some found =>
    obtain ⟨length, skipped⟩ := found
    dsimp only
    obtain ⟨hquote, rfl⟩ := scanString_some hscan
    rw [List.getElem?_drop] at hquote
    obtain ⟨hend, -⟩ := List.getElem?_eq_some_iff.mp hquote
    have hbudget : Budget content (offset + 1 + length)
        (offset + 1 + length - offset - escapes ((content.drop (offset + 1)).take length) + 1)
        (offset + 1) [] := by
      have hle := (escapes_le_length ((content.drop (offset + 1)).take length)).trans
        (List.length_take_le _ _)
      refine ⟨by omega, ?_, fun hlt => absurd hlt (by omega)⟩
      intro _
      rw [window, show offset + 1 + length - (offset + 1) = length by omega, List.length_nil]
      omega
    have hfuel : offset + 1 + length + 1 < offset + 1 + (content.length + 1) := by omega
    obtain ⟨item, q, hloop, hroom⟩ := unescapeLoop_total hend hfuel hbudget
    rw [hloop, ok_bind]
    cases item with
    | none => exact lands_none _
    | some out =>
      have hterm : emitBytes _ out [0] = .ok (out ++ [0]) := if_pos (hroom out rfl)
      dsimp only
      rw [hterm, ok_bind]
      exact lands_some (by omega) (by omega) trivial

end PeerToPeer.Parsing
